import OsLabs.Scheduling.Equiv.LogInv
import OsLabs.Scheduling.Equiv.Outputs

/-!
# The event logs of the four schedulers

At the head of every round SRTF has logged exactly the arrivals before the current time, so its
log is faithful.  RR and SJF log the arrivals at the current time at the head of a round, and those
up to its end during a slice; a thread that arrives just when a slice ends is therefore logged
twice, and apart from that their logs are faithful too.  FIFO logs the arrivals of a slice after its
`Started` event, so the first event of its log is never an arrival.  `log_faithful_iff` puts this
together.
-/

namespace OsLabs.Scheduling

open Function

variable {n : ℕ} {w : Fin n → Thread}

/-! ### The log at the head of a round -/

/-- The completion times of a thread so far. -/
def completions (s : Sched n) (i : Fin n) : List ℤ :=
  if (s.t i).remaining = 0 then [(s.threads i).finish] else []

/-- Exactly the arrivals before the current time are logged. -/
def Logged (w : Fin n → Thread) (s : Sched n) : Prop :=
  LogInv w (s.time - 1) s.time (completions s) s.elog

theorem logged_init (hburst : ∀ i, 1 ≤ (w i).burst) : Logged w (Sched.init w) := by
  have hnone : completions (Sched.init w) = fun _ => [] := by
    funext i
    have hrem : ((Sched.init w).t i).remaining = (w i).burst := rfl
    have := hburst i
    rw [completions, if_neg (by omega)]
  unfold Logged
  rw [hnone]
  exact logInv_nil w _

theorem Idled.completions_eq {s s' : Sched n} (h : Idled s s') :
    completions s' = completions s := by
  unfold completions
  rw [h.t, h.threads]

theorem Ran.completions_eq {s s' : Sched n} {sel : Fin n} {k : ℕ} (h : Ran sel k s s')
    (hk : 0 < k) (hrem : (k : ℤ) ≤ (s.t sel).remaining) :
    completions s' = if (s.t sel).remaining = k then
      update (completions s) sel (completions s sel ++ [s'.time]) else completions s := by
  -- `sel` has no completion time before this round, as it has work left
  have hbefore : completions s sel = [] := if_neg (by omega)
  have hothers {i : Fin n} (hi : i ≠ sel) : completions s' i = completions s i := by
    unfold completions
    rw [(h.others i hi).1, (h.others i hi).2]
  have hself : (s'.t sel).remaining = (s.t sel).remaining - k := h.remaining
  by_cases hfin : (s.t sel).remaining = k
  · rw [if_pos hfin]
    obtain ⟨-, hth, hfinish, -, -⟩ := h.finished hfin
    funext i
    by_cases hi : i = sel
    · rw [hi, update_self, hbefore, completions, if_pos (by omega), hth, hfinish]
      rfl
    · rw [update_of_ne hi, hothers hi]
  · rw [if_neg hfin]
    funext i
    by_cases hi : i = sel
    · rw [hi, hbefore, completions, if_neg (by omega)]
    · exact hothers hi

/-- The log of a round starts with the arrivals at the current time. -/
theorem Logged.head {s : Sched n} (h : Logged w s) (hpos : 0 ≤ s.time) :
    LogInv w s.time s.time (completions s) (s.elog ++ arrivalsAt w s.time) := by
  have hlog := h.arrivals (b := s.time) (by omega) (by omega) (by omega)
  rw [sub_add_cancel, arrivalsIn_self, max_self] at hlog
  exact hlog

theorem logged_of_idled {s s' : Sched n} (hs : Idled s s')
    (hlog : LogInv w s.time s.time (completions s) s'.elog) : Logged w s' := by
  unfold Logged
  rw [hs.completions_eq, hs.time, add_sub_cancel_right]
  exact hlog.mono (by omega)

theorem logged_of_ran {s s' : Sched n} {sel : Fin n} {k : ℕ} (hs : Ran sel k s s') (hk : 0 < k)
    (hrem : (k : ℤ) < (s.t sel).remaining)
    (hlog : LogInv w (s.time + k - 1) (s.time + k) (completions s) s'.elog) : Logged w s' := by
  unfold Logged
  rw [hs.completions_eq hk hrem.le, if_neg hrem.ne', hs.time]
  exact hlog

theorem logged_of_ranToEnd {s s' : Sched n} {sel : Fin n} {k : ℕ} (hs : Ran sel k s s')
    (hk : 0 < k) (hrem : (s.t sel).remaining = k) {elog : List Event}
    (helog : s'.elog = elog ++ [completedEvent w sel (s.time + k)])
    (hlog : LogInv w (s.time + k - 1) (s.time + k) (completions s) elog)
    (hinj : Injective fun i => (w i).id)
    (harr : 0 ≤ (w sel).arrival ∧ (w sel).arrival ≤ s.time) : Logged w s' := by
  unfold Logged
  rw [hs.completions_eq hk hrem.ge, if_pos hrem, hs.time, helog]
  exact hlog.complete hinj ⟨harr.1, by omega⟩ le_rfl

/-! ### The log after the loop -/

/-- Every thread arrives before the end. -/
theorem Final.arrival_lt {c : Chart n} {out : Output n} (h : Final w c out) {i : Fin n}
    (hburst : 1 ≤ (w i).burst) : (w i).arrival < c.length := by
  -- a thread that has run did so in some tick, which is not before its arrival
  have hmem : some i ∈ c := by
    apply List.count_pos_iff.mp
    have hcount := h.complete i
    omega
  obtain ⟨k, hk, hget⟩ := List.mem_iff_getElem.mp hmem
  have harr := h.released k (some i) (List.getElem?_eq_some_iff.mpr ⟨hk, hget⟩) i rfl
  have := List.length_take_le k c
  omega

theorem Logged.faithful {c : Chart n} {s : Sched n} (hlog : Logged w s) (hcore : CoreInv w c s)
    (h : Final w c s.output) (hw : Workload w) (hinj : Injective fun i => (w i).id) :
    FaithfulLog w s.output where
  sorted := hlog.sorted
  arrived i := by
    have harr := h.arrival_lt (hw.burst i)
    -- the arrivals of one thread are a part of all arrivals, which the log has in order of time
    have hsplit : s.elog.filter (fun e => e.threadId = (w i).id ∧ e.isArrived)
        = (s.elog.filter Event.isArrived).filter fun e => e.threadId = (w i).id := by
      rw [List.filter_filter]
      simp only [Bool.decide_and, Bool.decide_eq_true]
    show (s.elog.filter _).map _ = _
    rw [hsplit, hlog.arrived,
      filter_arrivalsIn hinj (hw.arrival_nonneg i) (by rw [hcore.time]; omega)]
    rfl
  completed i := by
    have hzero : (s.t i).remaining = 0 := by
      have := hcore.remaining i
      have := h.complete i
      omega
    have htimes : completions s i = [(s.threads i).finish] := if_pos hzero
    exact (hlog.completed i).trans htimes
  first := hlog.first

/-! ### SRTF -/

theorem switchEvents_ordinary {s : SrtfState n} {sel : Option (Fin n)} {e : Event}
    (hnonneg : ∀ i, 0 ≤ (w i).arrival)
    (hlast : ∀ i, s.lastRunning = some i → (w i).arrival ≤ s.time)
    (hsel : ∀ i, sel = some i → (w i).arrival ≤ s.time) (he : e ∈ switchEvents w s sel) :
    Ordinary w s.time s.time e := by
  rcases List.mem_append.mp he with he | he
  · -- a `Preempted` event of the last thread
    cases hl : s.lastRunning with
    | none => simp [hl] at he
    | some last =>
      simp only [hl] at he
      split at he
      · obtain rfl := List.mem_singleton.mp he
        exact ⟨last, rfl, ⟨hnonneg last, hlast last hl⟩, rfl, rfl, rfl⟩
      · exact absurd he List.not_mem_nil
  · -- a `Started/Resumed` event of the selected one
    cases sel with
    | none => exact absurd he List.not_mem_nil
    | some i =>
      simp only at he
      split at he
      · obtain rfl := List.mem_singleton.mp he
        exact ⟨i, rfl, ⟨hnonneg i, hsel i rfl⟩, rfl, rfl, rfl⟩
      · exact absurd he List.not_mem_nil

/-- The invariant of the log of SRTF. -/
structure SrtfLogged (w : Fin n → Thread) (s : SrtfState n) : Prop where
  log : Logged w s.toSched
  last : ∀ i, s.lastRunning = some i → (w i).arrival ≤ s.time

theorem SrtfLogged.step {c : Chart n} {s : SrtfState n} (h : SrtfLogged w s)
    (hcore : CoreInv w c s.toSched) (hinv : SrtfInv w c s) (hw : Workload w)
    (hinj : Injective fun i => (w i).id) : SrtfLogged w (srtfBody s) := by
  have hpos := hcore.time_nonneg
  have hhead := h.log.head hpos
  cases hsel : srtfSelect s.toFlagState with
  | none =>
    rw [srtfBody_idle hcore.sameThreads hsel]
    refine ⟨logged_of_idled (s := s.toSched) ⟨rfl, rfl, rfl, rfl, rfl⟩ ?_,
      fun i hi => absurd hi (by simp)⟩
    exact hhead.ordinary hinj fun e he =>
      switchEvents_ordinary hw.arrival_nonneg h.last (fun i hi => absurd hi (by simp)) he
  | some sel =>
    obtain ⟨hflag, harr⟩ := srtfSelect_some hcore hsel
    have hleft := hinv.one_le hcore hflag
    have hswitch : LogInv w s.time s.time (completions s.toSched)
        (s.elog ++ arrivalsAt w s.time ++ switchEvents w s (some sel)) :=
      hhead.ordinary hinj fun e he =>
        switchEvents_ordinary hw.arrival_nonneg h.last
          (fun i hi => Option.some.inj hi ▸ harr) he
    -- nothing more is logged before the end of the tick
    have hlater : LogInv w (s.time + ((1 : ℕ) : ℤ) - 1) (s.time + ((1 : ℕ) : ℤ))
        (completions s.toSched)
        (s.elog ++ arrivalsAt w s.time ++ switchEvents w s (some sel)) := by
      rw [Nat.cast_one, add_sub_cancel_right]
      exact hswitch.mono (by omega)
    have hlast : ∀ i, some sel = some i → (w i).arrival ≤ s.time + ((1 : ℕ) : ℤ) := fun i hi => by
      rw [← Option.some.inj hi]
      omega
    by_cases hone : (s.t sel).remaining = ((1 : ℕ) : ℤ)
    · rw [srtfBody_finish hcore.sameThreads hsel (by exact_mod_cast hone)]
      exact ⟨logged_of_ranToEnd (Sched.ran_ranToEnd hone _) one_pos hone rfl hlater hinj
        ⟨hw.arrival_nonneg sel, harr⟩, hlast⟩
    · rw [srtfBody_run hcore.sameThreads hsel (by exact_mod_cast hone)]
      exact ⟨logged_of_ran (Sched.ran_ranFor hone _) one_pos (by omega) hlater, hlast⟩

/-! ### SJF and RR -/

/-- What SJF and RR log in a slice in which no thread arrives at the end. -/
theorem LogInv.slice {s : Sched n} {elog : List Event} {k : ℕ}
    (h : LogInv w s.time s.time (completions s) elog) (hpos : 0 ≤ s.time) (hk : 0 < k)
    (hend : ∀ i, (w i).arrival ≠ s.time + k) :
    LogInv w (s.time + k - 1) (s.time + k) (completions s)
      (elog ++ arrivalsIn w (s.time + 1) (s.time + k)) := by
  have hlog := h.arrivals (b := s.time + k) (by omega) (by omega) (by omega)
  rw [max_eq_right (by omega)] at hlog
  exact hlog.lower (by omega) hend

/-- No thread arrives at the end of a slice of SJF that starts in `s`. -/
def SjfQuiet (w : Fin n → Thread) (s : FlagState n) : Prop :=
  ∀ sel, sjfSelect s = some sel → ∀ i, (w i).arrival ≠ s.time + (s.t sel).remaining

/-- No thread arrives at the end of a slice of RR that starts in `s`. -/
def RrQuiet (w : Fin n → Thread) (s : RrState n) : Prop :=
  ∀ sel, s.next = some sel → ∀ i, (w i).arrival ≠ s.time + runTime (s.t sel)

theorem Logged.sjfBody {c : Chart n} {s : FlagState n} (h : Logged w s.toSched)
    (hcore : CoreInv w c s.toSched) (hinv : BatchInv c s) (hw : Workload w)
    (hinj : Injective fun i => (w i).id) (hquiet : SjfQuiet w s) :
    Logged w (sjfBody s).toSched := by
  have hpos := hcore.time_nonneg
  have hhead := h.head hpos
  cases hsel : sjfSelect s with
  | none =>
    rw [sjfBody_idle hcore.sameThreads hsel]
    exact logged_of_idled (s := s.toSched) ⟨rfl, rfl, rfl, rfl, rfl⟩ hhead
  | some sel =>
    obtain ⟨hflag, harr⟩ := sjfSelect_some hcore hsel
    have hfresh := hinv.fresh sel hflag
    rw [sjfBody_run hcore.sameThreads hsel (hcore.start_of_fresh hfresh).1]
    obtain ⟨k, hk, hrem, hran⟩ := FlagState.ran_ranThrough hcore (hw.burst sel) hfresh
      (s.elog ++ arrivalsAt w s.time ++ [startedWaitedEvent w sel s.time]
        ++ arrivalsIn w (s.time + 1) (s.time + (s.t sel).remaining - 1)
        ++ arrivalsAt w (s.time + (s.t sel).remaining)
        ++ [completedEvent w sel (s.time + (s.t sel).remaining)])
    have harr' : 0 ≤ (w sel).arrival ∧ (w sel).arrival ≤ s.time := ⟨hw.arrival_nonneg sel, harr⟩
    have hstarted := hhead.ordinary hinj (l := [startedWaitedEvent w sel s.time]) fun e he => by
      rw [List.mem_singleton.mp he]
      exact ⟨sel, rfl, harr', rfl, rfl, rfl⟩
    have hend := hquiet sel hsel
    rw [hrem] at hend
    refine logged_of_ranToEnd hran hk hrem ?_ (hstarted.slice hpos hk hend) hinj harr'
    -- the arrivals at the last tick and at the end of the slice are one interval
    have hlast := arrivalsIn_succ w (a := s.time + 1) (b := s.time + k - 1) (by omega)
    rw [sub_add_cancel] at hlast
    simp only [FlagState.ranThrough, hrem, hlast, List.append_assoc]

theorem Logged.rrBody {c : Chart n} {s : RrState n} (h : Logged w s.toSched)
    (hcore : CoreInv w c s.toSched) (hq : QueueInv s) (hw : Workload w)
    (hinj : Injective fun i => (w i).id) (hquiet : RrQuiet w s) : Logged w (rrBody s).toSched := by
  have hpos := hcore.time_nonneg
  have hhead := h.head hpos
  cases hsel : s.next with
  | none =>
    obtain ⟨-, -, hs'⟩ := rrBody_idle hcore.sameThreads hq hsel
    rw [hs']
    exact logged_of_idled (s := s.toSched) ⟨rfl, rfl, rfl, rfl, rfl⟩ hhead
  | some sel =>
    obtain ⟨harr, -, k, hk, hrem, hrun, hs'⟩ := rrBody_run hcore.sameThreads hq hsel
    rw [hcore.arrival sel] at harr
    have harr' : 0 ≤ (w sel).arrival ∧ (w sel).arrival ≤ s.time := ⟨hw.arrival_nonneg sel, harr⟩
    have hend := hquiet sel hsel
    rw [hrun] at hend
    have hstarted := hhead.ordinary hinj
      -- a `Started` event the first time only
      (l := if (s.t sel).start = -1 then [startedEvent w sel s.time] else []) fun e he => by
        split at he
        · rw [List.mem_singleton.mp he]
          exact ⟨sel, rfl, harr', rfl, rfl, rfl⟩
        · exact absurd he List.not_mem_nil
    have hslice : LogInv w (s.time + k - 1) (s.time + k) (completions s.toSched)
        (sliceLog w (s.polled w).toSched sel k) := by
      obtain ⟨hsched, -, -⟩ := polled_spec (w := w) hq
      rw [hsched]
      exact hstarted.slice hpos hk hend
    rw [hs']
    by_cases hfin : (s.t sel).remaining = k
    · rw [if_pos hfin]
      exact logged_of_ranToEnd (Sched.ran_ranToEnd hfin _) hk hfin rfl hslice hinj harr'
    · rw [if_neg hfin]
      refine logged_of_ran (Sched.ran_ranFor hfin _) hk (by omega) (hslice.ordinary hinj ?_)
      intro e he
      rw [List.mem_singleton.mp he]
      exact ⟨sel, rfl, ⟨harr'.1, by omega⟩, rfl, rfl, rfl⟩

/-! ### Arrivals logged twice -/

theorem FaithfulLog.count_le {out : Output n} (h : FaithfulLog w out) (i : Fin n) :
    out.elog.count (arrivedEvent w i) ≤ 1 := by
  have hlen := congrArg List.length (h.arrived i)
  rw [List.length_map, List.length_singleton, ← List.countP_eq_length_filter] at hlen
  rw [← hlen, List.count]
  apply List.countP_mono_left
  intro e _ he
  rw [eq_of_beq he]
  simp [arrivedEvent, Event.isArrived]

theorem one_le_count_arrivalsAt (w : Fin n → Thread) (i : Fin n) :
    1 ≤ (arrivalsAt w (w i).arrival).count (arrivedEvent w i) :=
  List.count_pos_iff.mpr (mem_arrivalsAt.mpr ⟨i, rfl, rfl⟩)

section Twice

variable {σ : Type} {core : σ → Sched n} {body : σ → σ} {s₀ : σ}
  (S : Simulation w core body s₀) (hburst : ∀ i, 1 ≤ (w i).burst)
  (hgrow : ∀ {c s}, CoreInv w c (core s) → S.Inv c s →
    (core s).elog ++ arrivalsAt w (core s).time <+: (core (body s)).elog)

include hburst hgrow

theorem Simulation.elog_prefix {s s' : σ}
    (hs : LoopState (fun s => (core s).running) body s₀ s)
    (h : LoopState (fun s => (core s).running) body s s') : (core s).elog <+: (core s').elog := by
  induction h with
  | start => exact List.prefix_rfl
  | next h' hc ih =>
    obtain ⟨c, hcore, hinv, -, -⟩ := S.invariant hburst (hs.trans h')
    exact ih.trans ((List.prefix_append ..).trans (hgrow hcore hinv))

/-- A thread that arrives when a slice ends, and is logged in the slice, is logged again. -/
theorem Simulation.logged_twice {s s' : σ} {i : Fin n} {fuel : ℕ}
    (hs : LoopState (fun s => (core s).running) body s₀ s) (hrun : (core s).running = true)
    (hmem : arrivedEvent w i ∈ (core (body s)).elog)
    (harr : (w i).arrival = (core (body s)).time)
    (h : whileLoop (fun s => (core s).running) body fuel s₀ = some s') :
    2 ≤ (core s').elog.count (arrivedEvent w i) := by
  have hs₁ := hs.next hrun
  obtain ⟨c, hcore, hinv, -, -⟩ := S.invariant hburst hs₁
  -- the thread has not run yet
  have hfresh : some i ∉ c := fun hin => by
    obtain ⟨k, hk, hget⟩ := List.mem_iff_getElem.mp hin
    have hle := hcore.released k (some i) (List.getElem?_eq_some_iff.mpr ⟨hk, hget⟩) i rfl
    have := List.length_take_le k c
    have := hcore.time
    omega
  -- so it is unfinished, and the loop goes on
  have hrun₁ : (core (body s)).running = true := by
    have hrem := (hcore.start_of_fresh hfresh).2
    have := hburst i
    have hlt : (Finset.univ.filter fun j => ((core (body s)).t j).remaining = 0).card < n := by
      conv_rhs => rw [← Fintype.card_fin n, ← Finset.card_univ]
      refine Finset.card_lt_card (Finset.filter_ssubset.mpr ⟨i, Finset.mem_univ i, ?_⟩)
      omega
    rw [← hcore.done] at hlt
    simpa [Sched.running] using hlt
  have hs₂ := hs₁.next hrun₁
  obtain ⟨fuel', hrest⟩ := hs₂.whileLoop_eq h
  -- the next round logs the arrivals at the current time again, after all that was logged
  have hprefix := S.elog_prefix hburst hgrow hs₂ (loopState_of_whileLoop hrest).1
  have hcount := ((hgrow hcore hinv).trans hprefix).sublist.count_le (arrivedEvent w i)
  have hfirst := List.count_pos_iff.mpr hmem
  have hagain := one_le_count_arrivalsAt w i
  rw [List.count_append, ← harr] at hcount
  omega

end Twice

theorem sjfBody_grows {c : Chart n} {s : FlagState n} (hcore : CoreInv w c s.toSched)
    (hinv : BatchInv c s) : s.elog ++ arrivalsAt w s.time <+: (sjfBody s).elog := by
  cases hsel : sjfSelect s with
  | none =>
    rw [sjfBody_idle hcore.sameThreads hsel]
  | some sel =>
    have hfresh := hinv.fresh sel (sjfSelect_some hcore hsel).1
    rw [sjfBody_run hcore.sameThreads hsel (hcore.start_of_fresh hfresh).1]
    simp only [FlagState.ranThrough, List.append_assoc]
    rw [← List.append_assoc]
    exact List.prefix_append ..

theorem rrBody_grows {c : Chart n} {s : RrState n} (hcore : CoreInv w c s.toSched)
    (hq : QueueInv s) : s.elog ++ arrivalsAt w s.time <+: (rrBody s).elog := by
  cases hsel : s.next with
  | none =>
    obtain ⟨-, -, hs'⟩ := rrBody_idle hcore.sameThreads hq hsel
    rw [hs']
  | some sel =>
    obtain ⟨-, -, k, -, -, -, hs'⟩ := rrBody_run hcore.sameThreads hq hsel
    obtain ⟨hsched, -, -⟩ := polled_spec (w := w) hq
    rw [hs', hsched]
    split <;> simp only [Sched.ranToEnd, Sched.ranFor, sliceLog, List.append_assoc] <;>
      rw [← List.append_assoc] <;> exact List.prefix_append ..

/-! ### FIFO -/

/-- The log of FIFO is empty before the first dispatch, and starts with a `Started` event after
it. -/
inductive FifoLogged (w : Fin n → Thread) (s : FlagState n) : Prop where
  | waiting (hlog : s.elog = []) (hflag : ∀ i, s.doneFlag i = false)
    (harr : ∀ i, s.time ≤ (w i).arrival)
  | started (i : Fin n) (time : ℤ) (hlog : [startedWaitedEvent w i time] <+: s.elog)

theorem FifoLogged.step {c : Chart n} {s : FlagState n} (h : FifoLogged w s)
    (hcore : CoreInv w c s.toSched) (hinv : BatchInv c s) (hw : Workload w) :
    FifoLogged w (fifoBody s) := by
  have hspec := fifoSelect_spec s
  cases hsel : fifoSelect s with
  | none =>
    rw [hsel] at hspec
    rw [fifoBody_idle hcore.sameThreads hsel]
    cases h with
    | waiting hlog hflag harr =>
      -- no thread has arrived
      have hlate (i : Fin n) : s.time < (w i).arrival := by
        have hready := hspec i
        have hsees : decide (fifoSees (w i).arrival) = true := decide_eq_true (hw.arrival_lt i)
        rw [FlagState.readyFifo, hcore.arrival i, hsees, Bool.and_true] at hready
        by_contra hle
        have hyes : s.ready i = true :=
          ready_iff.mpr ⟨hflag i, by rw [hcore.arrival i]; omega⟩
        exact absurd (hready.symm.trans hyes) (by decide)
      have hnone : arrivalsAt w s.time = [] := by
        apply List.eq_nil_iff_forall_not_mem.mpr
        intro e he
        obtain ⟨i, hi, -⟩ := mem_arrivalsAt.mp he
        exact (hlate i).ne' hi
      refine .waiting ?_ hflag fun i => ?_
      · show s.elog ++ arrivalsAt w s.time = []
        rw [hlog, hnone]
        rfl
      · show s.time + 1 ≤ (w i).arrival
        have := hlate i
        omega
    | started i time hlog => exact .started i time (hlog.trans (List.prefix_append ..))
  | some sel =>
    have hfresh := hinv.fresh sel (fifoSelect_some hcore hsel).1
    rw [fifoBody_run hcore.sameThreads hsel (hcore.start_of_fresh hfresh).1]
    cases h with
    | waiting hlog _ _ =>
      refine .started sel s.time ?_
      simp only [FlagState.ranThrough, hlog, List.nil_append, List.append_assoc]
      exact List.prefix_append ..
    | started i time hlog =>
      refine .started i time ?_
      simp only [FlagState.ranThrough, List.append_assoc]
      exact hlog.trans (List.prefix_append ..)

/-- The first event of a log of FIFO is never an arrival. -/
theorem schedulerFifo_log (hn : 0 < n) (hw : Workload w) {fuel : ℕ} {out : Output n}
    (h : schedulerFifo fuel w = some out) :
    ∃ i time, [startedWaitedEvent w i time] <+: out.elog := by
  obtain ⟨s, hloop, ⟨⟩⟩ := Option.bind_eq_some_iff.mp h
  obtain ⟨hs, hdone⟩ := loopState_of_whileLoop hloop
  have hlogged : FifoLogged w s :=
    (fifoSimulation w hw.burst).along hw.burst
      (.waiting rfl (fun _ => rfl) fun i => hw.arrival_nonneg i)
      (fun _ hcore hinv _ ih => ih.step hcore hinv hw) hs
  obtain ⟨c, hcore, hinv, -, -⟩ := (fifoSimulation w hw.burst).invariant hw.burst hs
  cases hlogged with
  | waiting _ hflag _ =>
    -- no thread has run, so none is finished
    have hzero : (Finset.univ.filter fun i => (s.t i).remaining = 0) = ∅ := by
      apply Finset.filter_eq_empty_iff.mpr
      intro i _
      have hrem := (hcore.start_of_fresh (hinv.fresh i (hflag i))).2
      have := hw.burst i
      omega
    have hcount := hcore.done
    rw [hzero, Finset.card_empty] at hcount
    have hrun : s.running = true := by simpa [Sched.running, hcount] using hn
    exact absurd (hrun.symm.trans hdone) (by decide)
  | started i time hlog =>
    refine ⟨i, time, ?_⟩
    show _ <+: checkArrivals s.t s.time s.time s.elog
    rw [checkArrivals_eq hcore.sameThreads]
    exact hlog.trans (List.prefix_append ..)

/-! ### All four -/

/-- The workloads whose log is faithful. -/
def Algorithm.Quiet (w : Fin n → Thread) : Algorithm → Prop
  | .fifo => False
  | .rr => ∀ s : RrState n, LoopState (fun s => s.running) rrBody
      { toSched := Sched.init w, q := [], head := 0, inQ := fun _ => false } s →
      s.running = true → RrQuiet w s
  | .sjf => ∀ s : FlagState n, LoopState (fun s => s.running) sjfBody
      { toSched := Sched.init w, doneFlag := fun _ => false } s →
      s.running = true → SjfQuiet w s
  | .srtf => True

theorem schedulerSrtf_log (hw : Workload w) (hinj : Injective fun i => (w i).id) {fuel : ℕ}
    {out : Output n} (h : schedulerSrtf fuel w = some out) : FaithfulLog w out := by
  obtain ⟨s, hloop, ⟨⟩⟩ := Option.bind_eq_some_iff.mp h
  let S := srtfSimulation w hw.burst
  have hlogged : SrtfLogged w s :=
    S.along hw.burst ⟨logged_init hw.burst, fun i hi => absurd hi (by simp)⟩
      (fun _ hcore hinv _ ih => ih.step hcore hinv hw hinj) (loopState_of_whileLoop hloop).1
  obtain ⟨c, hcore, hfinal, -, -⟩ := S.final hw.burst hloop
  exact hlogged.log.faithful hcore hfinal hw hinj

theorem schedulerSjf_log (hw : Workload w) (hinj : Injective fun i => (w i).id) {fuel : ℕ}
    {out : Output n} (h : schedulerSjf fuel w = some out) :
    FaithfulLog w out ↔ Algorithm.sjf.Quiet w := by
  obtain ⟨s', hloop, ⟨⟩⟩ := Option.bind_eq_some_iff.mp h
  let S := sjfSimulation w hw.burst
  constructor
  · intro hfaithful s hs hrun sel hsel i hend
    -- a thread arrives at the end of this slice
    obtain ⟨c, hcore, hinv, -, -⟩ := S.invariant hw.burst hs
    have hfresh := hinv.fresh sel (sjfSelect_some hcore hsel).1
    have hbody := sjfBody_run hcore.sameThreads hsel (hcore.start_of_fresh hfresh).1
    have htwice := S.logged_twice hw.burst sjfBody_grows hs hrun (i := i)
      (by
        rw [hbody]
        simp [FlagState.ranThrough, mem_arrivalsAt.mpr ⟨i, hend, rfl⟩])
      (by
        rw [hbody]
        exact hend) hloop
    have hone := hfaithful.count_le i
    exact absurd (htwice.trans hone) (by decide)
  · intro hquiet
    have hlogged : Logged w s'.toSched :=
      S.along (P := fun s => Logged w s.toSched) hw.burst (logged_init hw.burst)
        (fun hs hcore hinv hrun ih => ih.sjfBody hcore hinv hw hinj (hquiet _ hs hrun))
        (loopState_of_whileLoop hloop).1
    obtain ⟨c, hcore, hfinal, -, -⟩ := S.final hw.burst hloop
    exact hlogged.faithful hcore hfinal hw hinj

theorem schedulerRr_log (hw : Workload w) (hinj : Injective fun i => (w i).id) {fuel : ℕ}
    {out : Output n} (h : schedulerRr fuel w = some out) :
    FaithfulLog w out ↔ Algorithm.rr.Quiet w := by
  obtain ⟨s', hloop, ⟨⟩⟩ := Option.bind_eq_some_iff.mp h
  let S := rrSimulation w
  constructor
  · intro hfaithful s hs hrun sel hsel i hend
    obtain ⟨c, hcore, hq, -, -⟩ := S.invariant hw.burst hs
    obtain ⟨-, -, k, hk, -, hrunTime, hs'⟩ := rrBody_run hcore.sameThreads hq hsel
    rw [hrunTime] at hend
    have hmem : arrivedEvent w i ∈ arrivalsIn w (s.time + 1) (s.time + k) :=
      mem_arrivalsIn.mpr ⟨i, by omega, by omega, rfl⟩
    obtain ⟨hsched, -, -⟩ := polled_spec (w := w) hq
    have htwice := S.logged_twice hw.burst rrBody_grows hs hrun (i := i)
      (by
        rw [hs', hsched]
        split <;> simp [Sched.ranToEnd, Sched.ranFor, sliceLog, hmem])
      (by
        rw [hs', hend]
        split <;> rfl) hloop
    have hone := hfaithful.count_le i
    exact absurd (htwice.trans hone) (by decide)
  · intro hquiet
    have hlogged : Logged w s'.toSched :=
      S.along (P := fun s => Logged w s.toSched) hw.burst (logged_init hw.burst)
        (fun hs hcore hq hrun ih => ih.rrBody hcore hq hw hinj (hquiet _ hs hrun))
        (loopState_of_whileLoop hloop).1
    obtain ⟨c, hcore, hfinal, -, -⟩ := S.final hw.burst hloop
    exact hlogged.faithful hcore hfinal hw hinj

/-- **When the event logs are faithful.** -/
theorem log_faithful_iff (alg : Algorithm) (w : Fin n → Thread) (hn : 0 < n) (hw : Workload w)
    (hinj : Injective fun i => (w i).id) :
    (∃ fuel out, alg.sched fuel w = some out) ∧
      ∀ fuel out, alg.sched fuel w = some out → (FaithfulLog w out ↔ alg.Quiet w) := by
  refine ⟨alg.terminates hw.burst (hw.sees alg), fun fuel out h => ?_⟩
  cases alg with
  | fifo =>
    refine ⟨fun hfaithful => ?_, False.elim⟩
    obtain ⟨i, time, rest, hlog⟩ := schedulerFifo_log hn hw h
    obtain ⟨a, ha, -⟩ := hfaithful.first i [] _ rest hlog.symm rfl rfl
    exact absurd ha List.not_mem_nil
  | rr => exact schedulerRr_log hw hinj h
  | sjf => exact schedulerSjf_log hw hinj h
  | srtf => exact ⟨fun _ => trivial, fun _ => schedulerSrtf_log hw hinj h⟩

theorem log_faithful_iff_two :
    (∃ fuel out, Algorithm.rr.sched fuel (orig ![2, 1] ![0, 2]) = some out) ∧
      ∀ fuel out, Algorithm.rr.sched fuel (orig ![2, 1] ![0, 2]) = some out →
        (FaithfulLog (orig ![2, 1] ![0, 2]) out ↔ Algorithm.rr.Quiet (orig ![2, 1] ![0, 2])) :=
  log_faithful_iff .rr (orig ![2, 1] ![0, 2]) (by decide) (orig_workload (by decide) (by decide))
    (orig_identified _ _).injective

/-- Thread 1 arrives when thread 0 is done: FIFO logs its first event too early, RR and SJF log
the arrival twice. -/
theorem log_unfaithful :
    (∃ out, schedulerFifo 9 (orig ![2, 1] ![0, 2]) = some out ∧
      ¬FaithfulLog (orig ![2, 1] ![0, 2]) out) ∧
    (∃ out, schedulerRr 9 (orig ![2, 1] ![0, 2]) = some out ∧
      ¬FaithfulLog (orig ![2, 1] ![0, 2]) out) ∧
    ∃ out, schedulerSjf 9 (orig ![2, 1] ![0, 2]) = some out ∧
      ¬FaithfulLog (orig ![2, 1] ![0, 2]) out := by
  refine ⟨⟨_, rfl, fun h => ?_⟩, ⟨_, rfl, fun h => ?_⟩, ⟨_, rfl, fun h => ?_⟩⟩
  · obtain ⟨a, ha, -⟩ := h.first 0 [] _ _ rfl rfl rfl
    exact absurd ha List.not_mem_nil
  · exact absurd (h.arrived 1) (by decide)
  · exact absurd (h.arrived 1) (by decide)

end OsLabs.Scheduling
