import OsLabs.Scheduling.Equiv.Checks
import OsLabs.Scheduling.Equiv.Message

/-!
# No array of the schedulers overflows

A run ends after the last arrival and all the work at the latest (`Simulation.time_le`), and the
arrays are bounded by the time it takes: a slot is of a tick or more, a round logs at most three
events for every tick besides the arrivals, of which none is logged more than twice (`LogBounded`),
and RR dispatches at most one thread in a tick (`length_q_le`).  So arrays of their declared sizes
hold everything that is written (`schedulers_in_bounds`).
-/

namespace OsLabs.Scheduling

open Function

variable {n : ℕ} {w : Fin n → Thread}

/-! ### Time -/

section Runs

variable {σ : Type} {core : σ → Sched n} {body : σ → σ} {s₀ : σ}
  (S : Simulation w core body s₀) (hburst : ∀ i, 1 ≤ (w i).burst)

include hburst

/-- The time is that of the work done, after the last arrival at most. -/
theorem Simulation.time_add_remaining_le (hsees : ∀ i, S.sees (w i).arrival) {latest : ℤ}
    (hnonneg : 0 ≤ latest) (hlatest : ∀ i, (w i).arrival ≤ latest) {s : σ}
    (h : LoopState (fun s => (core s).running) body s₀ s) :
    (core s).time + ∑ i, ((core s).t i).remaining ≤ latest + ∑ i, (w i).burst := by
  refine S.along (P := fun s => (core s).time + ∑ i, ((core s).t i).remaining
    ≤ latest + ∑ i, (w i).burst) hburst ?_ (fun {c s} _ hcore hinv hrun ih => ?_) h
  · simp only [S.core_init]
    show 0 + ∑ i, (w i).burst ≤ latest + ∑ i, (w i).burst
    omega
  · obtain ⟨b, hstep, -⟩ := S.step hcore hinv hrun
    cases hstep with
    | idle hs hidle =>
      obtain ⟨i, harr⟩ := hcore.exists_later hrun fun i => hidle i (hsees i)
      have hleft : ∑ i, ((core s).t i).remaining ≤ ∑ i, (w i).burst := by
        refine Finset.sum_le_sum fun j _ => ?_
        have := hcore.remaining j
        omega
      have := hlatest i
      rw [hs.t, hs.time]
      omega
    | run sel k hk hrem _ hs =>
      have hsum : ∑ i, ((core (body s)).t i).remaining = ∑ i, ((core s).t i).remaining - k := by
        have hleft (i : Fin n) : ((core (body s)).t i).remaining
            = ((core s).t i).remaining - if i = sel then (k : ℤ) else 0 := by
          by_cases hi : i = sel
          · rw [hi, hs.remaining, if_pos rfl]
          · rw [(hs.others i hi).1, if_neg hi, sub_zero]
        simp only [hleft, Finset.sum_sub_distrib, Finset.sum_ite_eq', Finset.mem_univ, if_true]
      rw [hs.time, hsum]
      omega

theorem Simulation.time_le (hsees : ∀ i, S.sees (w i).arrival) (hw : Generated w) {s : σ}
    (h : LoopState (fun s => (core s).running) body s₀ s) : (core s).time ≤ longest := by
  have htime := S.time_add_remaining_le hburst hsees (by decide) (fun i => (hw.arrival i).2) h
  obtain ⟨c, hcore, -⟩ := S.invariant hburst h
  have hleft : 0 ≤ ∑ i, ((core s).t i).remaining :=
    Finset.sum_nonneg fun i _ => hcore.remaining_nonneg i
  have hwork := Finset.sum_le_card_nsmul Finset.univ (fun i => (w i).burst) MAX_BURST
    fun i _ => (hw.burst i).2
  have hthreads := hw.threads
  rw [Finset.card_univ, Fintype.card_fin, nsmul_eq_mul] at hwork
  unfold MAX_BURST at hwork
  unfold MAX_THREADS at hthreads
  unfold MAX_ARRIVAL at htime
  have hlongest : longest = 170 := rfl
  omega

end Runs

/-! ### The log -/

theorem length_arrivalsIn_le (w : Fin n → Thread) (a b : ℤ) : (arrivalsIn w a b).length ≤ n := by
  -- the threads, without their events
  have hnodup : ((List.range (b + 1 - a).toNat).flatMap fun k =>
      (List.finRange n).filter fun i => (w i).arrival = a + (k : ℕ)).Nodup := by
    refine List.nodup_flatMap.mpr ⟨fun k _ => (List.nodup_finRange n).filter _, ?_⟩
    refine List.pairwise_lt_range.imp fun {k k'} hlt i hi hi' => ?_
    have harr := of_decide_eq_true (List.mem_filter.mp hi).2
    have harr' := of_decide_eq_true (List.mem_filter.mp hi').2
    omega
  have hlen := hnodup.length_le_card
  rw [Fintype.card_fin] at hlen
  simpa [arrivalsIn, arrivalsAt, List.length_flatMap] using hlen

/-- The `Arrived` events when all arrivals before `time` are logged twice and those at it once. -/
def arrivalsLogged (w : Fin n → Thread) (time : ℤ) : ℕ :=
  (arrivalsIn w 0 (time - 1)).length + (arrivalsIn w 0 time).length

/-- The arrivals from the first tick of a round to its end. -/
theorem arrivalsLogged_add {time time' : ℤ} (hpos : 0 ≤ time) (hlt : time < time') :
    arrivalsLogged w time + (arrivalsIn w time time').length ≤ arrivalsLogged w time' := by
  have hbefore := arrivalsIn_append w (a := 0) (b := time - 1) (c := time' - 1) (by omega)
    (by omega)
  have hupto := arrivalsIn_append w (a := 0) (b := time) (c := time') (by omega) (by omega)
  have hround := arrivalsIn_append w (a := time) (b := time' - 1) (c := time') (by omega)
    (by omega)
  have hend := arrivalsIn_append w (a := time + 1) (b := time' - 1) (c := time') (by omega)
    (by omega)
  rw [sub_add_cancel] at hbefore hround hend
  unfold arrivalsLogged
  rw [← hbefore, ← hupto, ← hround, ← hend]
  simp only [List.length_append]
  omega

/-- The log at the head of a round. -/
structure LogBounded (w : Fin n → Thread) (s : Sched n) : Prop where
  length : (s.elog.length : ℤ) ≤ 3 * s.time + arrivalsLogged w s.time
  msg : ∀ e ∈ s.elog, Bounded.MsgFits e.message

/-- What a round adds to the log: the arrivals from its first tick to its end, and at most three
more events for every tick. -/
structure RoundLog (w : Fin n → Thread) (s s' : Sched n) (l : List Event) : Prop where
  elog : s'.elog = s.elog ++ l
  length : (l.length : ℤ) ≤ (arrivalsIn w s.time s'.time).length + 3 * (s'.time - s.time)
  msg : ∀ e ∈ l, Bounded.MsgFits e.message

theorem LogBounded.round {s s' : Sched n} {l : List Event} (h : LogBounded w s)
    (hl : RoundLog w s s' l) (hpos : 0 ≤ s.time) (hlt : s.time < s'.time) : LogBounded w s' := by
  have hadd := arrivalsLogged_add (w := w) hpos hlt
  have hlen := h.length
  have hround := hl.length
  refine ⟨?_, fun e he => ?_⟩
  · rw [hl.elog, List.length_append]
    push_cast
    omega
  · rw [hl.elog, List.mem_append] at he
    exact he.elim (h.msg e) (hl.msg e)

theorem Simulation.logBounded {σ : Type} {core : σ → Sched n} {body : σ → σ} {s₀ : σ}
    (S : Simulation w core body s₀) (hsees : ∀ i, S.sees (w i).arrival) (hw : Generated w)
    (hround : ∀ {c s}, CoreInv w c (core s) → S.Inv c s → (core s).time ≤ longest →
      ∃ l, RoundLog w (core s) (core (body s)) l)
    {s : σ} (h : LoopState (fun s => (core s).running) body s₀ s) : LogBounded w (core s) := by
  have hburst := hw.workload.burst
  refine S.along (P := fun s => LogBounded w (core s)) hburst ?_
    (fun {c s} hs hcore hinv hrun ih => ?_) h
  · simp only [S.core_init]
    exact ⟨Int.natCast_nonneg _, fun e he => absurd he List.not_mem_nil⟩
  · obtain ⟨l, hl⟩ := hround hcore hinv (S.time_le hburst hsees hw hs)
    obtain ⟨b, hstep, -⟩ := S.step hcore hinv hrun
    exact ih.round hl hcore.time_nonneg hstep.time_lt

/-! ### What a round logs -/

/-- At most `k` events, with messages that fit. -/
def Short (k : ℕ) (l : List Event) : Prop := l.length ≤ k ∧ ∀ e ∈ l, Bounded.MsgFits e.message

theorem short_nil (k : ℕ) : Short k [] := ⟨Nat.zero_le k, fun _ he => absurd he List.not_mem_nil⟩

theorem short_ite (p : Prop) [Decidable p] {e : Event} (h : Bounded.MsgFits e.message) :
    Short 1 (if p then [e] else []) := by
  by_cases hp : p
  · rw [if_pos hp]
    exact ⟨le_rfl, List.forall_mem_singleton.mpr h⟩
  · rw [if_neg hp]
    exact short_nil 1

theorem Short.append {k m : ℕ} {l l' : List Event} (h : Short k l) (h' : Short m l') :
    Short (k + m) (l ++ l') := by
  refine ⟨?_, List.forall_mem_append.mpr ⟨h.2, h'.2⟩⟩
  rw [List.length_append]
  exact Nat.add_le_add h.1 h'.1

/-- Later arrivals make the log longer. -/
theorem length_arrivalsIn_mono (w : Fin n → Thread) {a b c : ℤ} (hab : a ≤ b + 1) (hbc : b ≤ c) :
    (arrivalsIn w a b).length ≤ (arrivalsIn w a c).length := by
  rw [← arrivalsIn_append w hab hbc, List.length_append]
  exact Nat.le_add_right ..

section Rounds

variable (hw : Generated w) {c : Chart n}

include hw

theorem roundLog_idle {s s' : Sched n} (helog : s'.elog = s.elog ++ arrivalsAt w s.time)
    (htime : s'.time = s.time + 1) : RoundLog w s s' (arrivalsAt w s.time) := by
  rw [← arrivalsIn_self] at helog ⊢
  refine ⟨helog, ?_, fun e he => hw.msgFits_arrivalsIn he⟩
  have := length_arrivalsIn_mono w (a := s.time) (b := s.time) (c := s.time + 1) (by omega)
    (by omega)
  rw [htime]
  omega

theorem fifoBody_log {s : FlagState n} (hcore : CoreInv w c s.toSched) (hinv : BatchInv c s)
    (htime : s.time ≤ longest) : ∃ l, RoundLog w s.toSched (fifoBody s).toSched l := by
  cases hsel : fifoSelect s with
  | none =>
    rw [fifoBody_idle hcore.sameThreads hsel]
    exact ⟨_, roundLog_idle hw rfl rfl⟩
  | some sel =>
    obtain ⟨hflag, harr⟩ := fifoSelect_some hcore hsel
    obtain ⟨hstart, hrem⟩ := hcore.start_of_fresh (hinv.fresh sel hflag)
    have hburst := (hw.burst sel).1
    rw [fifoBody_run hcore.sameThreads hsel hstart]
    refine ⟨[startedWaitedEvent w sel s.time]
      ++ arrivalsIn w s.time (s.time + (s.t sel).remaining - 1)
      ++ [completedEvent w sel (s.time + (s.t sel).remaining)], ?_, ?_, ?_⟩
    · simp only [FlagState.ranThrough, List.append_assoc]
    · have hmono := length_arrivalsIn_mono w (a := s.time)
        (b := s.time + (s.t sel).remaining - 1) (c := s.time + (s.t sel).remaining) (by omega)
        (by omega)
      show _ ≤ ((arrivalsIn w s.time (s.time + (s.t sel).remaining)).length : ℤ)
        + 3 * (s.time + (s.t sel).remaining - s.time)
      simp only [List.length_append, List.length_singleton]
      omega
    · simp only [List.forall_mem_append, List.forall_mem_singleton]
      exact ⟨⟨hw.msgFits_startedWaited sel harr htime, fun e he => hw.msgFits_arrivalsIn he⟩,
        hw.msgFits_completed sel _⟩

theorem sjfBody_log {s : FlagState n} (hcore : CoreInv w c s.toSched) (hinv : BatchInv c s)
    (htime : s.time ≤ longest) : ∃ l, RoundLog w s.toSched (sjfBody s).toSched l := by
  cases hsel : sjfSelect s with
  | none =>
    rw [sjfBody_idle hcore.sameThreads hsel]
    exact ⟨_, roundLog_idle hw rfl rfl⟩
  | some sel =>
    obtain ⟨hflag, harr⟩ := sjfSelect_some hcore hsel
    obtain ⟨hstart, hrem⟩ := hcore.start_of_fresh (hinv.fresh sel hflag)
    have hburst := (hw.burst sel).1
    rw [sjfBody_run hcore.sameThreads hsel hstart, ← arrivalsIn_self w s.time,
      ← arrivalsIn_self w (s.time + _)]
    refine ⟨arrivalsIn w s.time s.time ++ [startedWaitedEvent w sel s.time]
      ++ arrivalsIn w (s.time + 1) (s.time + (s.t sel).remaining - 1)
      ++ arrivalsIn w (s.time + (s.t sel).remaining) (s.time + (s.t sel).remaining)
      ++ [completedEvent w sel (s.time + (s.t sel).remaining)], ?_, ?_, ?_⟩
    · simp only [FlagState.ranThrough, List.append_assoc]
    · -- the three intervals are that of the slice
      have hslice := arrivalsIn_append w (a := s.time) (b := s.time)
        (c := s.time + (s.t sel).remaining) (by omega) (by omega)
      have hlast := arrivalsIn_append w (a := s.time + 1) (b := s.time + (s.t sel).remaining - 1)
        (c := s.time + (s.t sel).remaining) (by omega) (by omega)
      rw [sub_add_cancel] at hlast
      show _ ≤ ((arrivalsIn w s.time (s.time + (s.t sel).remaining)).length : ℤ)
        + 3 * (s.time + (s.t sel).remaining - s.time)
      rw [← hslice, ← hlast]
      simp only [List.length_append, List.length_singleton]
      omega
    · simp only [List.forall_mem_append, List.forall_mem_singleton]
      have harrivals {a b : ℤ} (e : Event) (he : e ∈ arrivalsIn w a b) := hw.msgFits_arrivalsIn he
      exact ⟨⟨⟨⟨harrivals, hw.msgFits_startedWaited sel harr htime⟩, harrivals⟩, harrivals⟩,
        hw.msgFits_completed sel _⟩

theorem rrBody_log {s : RrState n} (hcore : CoreInv w c s.toSched) (hq : QueueInv s) :
    ∃ l, RoundLog w s.toSched (rrBody s).toSched l := by
  cases hsel : s.next with
  | none =>
    obtain ⟨-, -, hs'⟩ := rrBody_idle hcore.sameThreads hq hsel
    rw [hs']
    exact ⟨_, roundLog_idle hw rfl rfl⟩
  | some sel =>
    obtain ⟨-, -, k, hk, hrem, -, hs'⟩ := rrBody_run hcore.sameThreads hq hsel
    obtain ⟨hsched, -, -⟩ := polled_spec (w := w) hq
    have hleft := hcore.remaining sel
    -- the last event of the round
    obtain ⟨last, hlast, helog, htime⟩ : ∃ last, Bounded.MsgFits last.message ∧
        (rrBody s).elog = sliceLog w (s.polled w).toSched sel k ++ [last] ∧
        (rrBody s).time = s.time + k := by
      rw [hs']
      by_cases hfin : (s.t sel).remaining = k
      · rw [if_pos hfin]
        exact ⟨_, hw.msgFits_completed sel _, rfl, rfl⟩
      · rw [if_neg hfin]
        exact ⟨_, hw.msgFits_preempted sel _ (by omega), rfl, rfl⟩
    rw [sliceLog, hsched, ← arrivalsIn_self] at helog
    obtain ⟨hstarted, hstartedFits⟩ :=
      short_ite ((s.t sel).start = -1) (hw.msgFits_started sel s.time)
    refine ⟨arrivalsIn w s.time s.time
      ++ (if (s.t sel).start = -1 then [startedEvent w sel s.time] else [])
      ++ arrivalsIn w (s.time + 1) (s.time + k) ++ [last], ?_, ?_, ?_⟩
    · rw [helog]
      simp only [List.append_assoc]
    · have hslice := arrivalsIn_append w (a := s.time) (b := s.time) (c := s.time + k) (by omega)
        (by omega)
      rw [htime, ← hslice]
      simp only [List.length_append, List.length_singleton]
      omega
    · have harrivals {a b : ℤ} (e : Event) (he : e ∈ arrivalsIn w a b) := hw.msgFits_arrivalsIn he
      simp only [List.forall_mem_append, List.forall_mem_singleton]
      exact ⟨⟨⟨harrivals, hstartedFits⟩, harrivals⟩, hlast⟩

theorem switchEvents_short {s : SrtfState n} (hcore : CoreInv w c s.toSched)
    (sel : Option (Fin n)) : Short 2 (switchEvents w s sel) := by
  unfold switchEvents
  refine Short.append (k := 1) (m := 1) ?_ ?_
  · cases s.lastRunning with
    | none => exact short_nil _
    | some last =>
      have hrem := hcore.remaining last
      have hnonneg := hcore.remaining_nonneg last
      exact short_ite _ (hw.msgFits_preempted last s.time (by omega))
  · cases sel with
    | none => exact short_nil _
    | some i => exact short_ite _ (hw.msgFits_startedResumed i s.time)

theorem completionEvents_short (s : SrtfState n) (sel : Option (Fin n)) :
    Short 1 (completionEvents w s sel) := by
  cases sel with
  | none => exact short_nil _
  | some i => exact short_ite _ (hw.msgFits_completed i (s.time + 1))

theorem srtfBody_log {s : SrtfState n} (hcore : CoreInv w c s.toSched) :
    ∃ l, RoundLog w s.toSched (srtfBody s).toSched l := by
  obtain ⟨htime, -, -⟩ := srtfBody_locals hcore.sameThreads
  have helog := srtfBody_elog hcore.sameThreads
  obtain ⟨hswitch, hswitchFits⟩ := switchEvents_short hw hcore (srtfSelect s.toFlagState)
  obtain ⟨hdone, hdoneFits⟩ := completionEvents_short hw s (srtfSelect s.toFlagState)
  rw [← arrivalsIn_self] at helog
  refine ⟨_, helog, ?_, ?_⟩
  · have hmono := length_arrivalsIn_mono w (a := s.time) (b := s.time) (c := s.time + 1) (by omega)
      (by omega)
    rw [htime]
    simp only [List.length_append]
    omega
  · simp only [List.forall_mem_append]
    exact ⟨⟨fun e he => hw.msgFits_arrivalsIn he, hswitchFits⟩, hdoneFits⟩

end Rounds

/-! ### The queue of RR -/

theorem iterate_rrTick_head (sel : Fin n) (k : ℕ) (s : RrState n) :
    ((rrTick sel)^[k] s).head = s.head := by
  induction k with
  | zero => rfl
  | succ k ih =>
    rw [iterate_succ_apply', rrTick, enqueueArriving_eq]
    exact ih

theorem slice_head (sel : Fin n) (s : RrState n) : (s.slice sel).head = s.head + 1 := by
  have hafter (s : RrState n) : (rrAfterSlice sel s).head = s.head := by
    unfold rrAfterSlice
    split <;> rfl
  unfold RrState.slice
  rw [hafter]
  exact iterate_rrTick_head sel _ _

theorem rrBody_head {s : RrState n} (hw : SameThreads w s.t) :
    (rrBody s).head = s.head + if s.next.isSome then 1 else 0 := by
  have hpolled : (s.polled w).head = s.head := by
    rw [polled_eq, enqueueArrived_eq]
    rfl
  rw [rrBody_eq hw]
  cases s.next with
  | none => exact hpolled
  | some sel => rw [slice_head, hpolled, Option.isSome_some, if_pos rfl]

/-- A thread is dispatched at most once in a tick, and every thread is in the queue at most once. -/
theorem length_q_le (hw : Workload w) {s : RrState n}
    (h : LoopState (fun s => s.running) rrBody
      { toSched := Sched.init w, q := [], head := 0, inQ := fun _ => false } s) :
    (s.q.length : ℤ) ≤ s.time + n := by
  let S := rrSimulation w
  have hhead : (s.head : ℤ) ≤ s.time := by
    refine S.along (P := fun s => (s.head : ℤ) ≤ s.time) hw.burst le_rfl
      (fun {c s} _ hcore hq hrun ih => ?_) h
    rw [rrBody_head hcore.sameThreads]
    cases hsel : s.next with
    | none =>
      obtain ⟨-, -, hs'⟩ := rrBody_idle hcore.sameThreads hq hsel
      rw [hs']
      simpa using ih.trans (Int.le_add_one le_rfl)
    | some sel =>
      obtain ⟨-, k, hk, -, -, hran⟩ := rrBody_ran hcore.sameThreads hq hsel
      rw [hran.time, Option.isSome_some, if_pos rfl]
      push_cast
      omega
  obtain ⟨c, hcore, hq, -⟩ := S.invariant hw.burst h
  have hqueue := hq.nodup.length_le_card
  have hle := hq.head_le
  rw [RrState.queue, List.length_drop, Fintype.card_fin] at hqueue
  omega

/-! ### All four -/

theorem LogBounded.length_le {s : Sched n} (h : LogBounded w s) (hw : Generated w)
    (htime : s.time ≤ longest) : s.elog.length ≤ 540 := by
  have hlen := h.length
  have hbefore := length_arrivalsIn_le w 0 (s.time - 1)
  have hupto := length_arrivalsIn_le w 0 s.time
  have hthreads := hw.threads
  unfold arrivalsLogged at hlen
  unfold MAX_THREADS at hthreads
  have hlongest : longest = 170 := rfl
  omega

theorem LogBounded.fits {s : Sched n} {c : Chart n} (h : LogBounded w s) (hcore : CoreInv w c s)
    (hw : Generated w) (htime : s.time ≤ longest) : Bounded.Fits s := by
  have hslots := hcore.tiles.length_le
  have hevents := h.length_le hw htime
  have hlongest : longest = 170 := rfl
  unfold Bounded.Fits Bounded.GanttFits Bounded.LogFits Bounded.SLOTS Bounded.EVENTS
  exact ⟨by omega, by omega, h.msg⟩

/-- The arrays fit in every state of a loop. -/
theorem Simulation.fits {σ : Type} {core : σ → Sched n} {body : σ → σ} {s₀ : σ}
    (S : Simulation w core body s₀) (hsees : ∀ i, S.sees (w i).arrival) (hw : Generated w)
    (hround : ∀ {c s}, CoreInv w c (core s) → S.Inv c s → (core s).time ≤ longest →
      ∃ l, RoundLog w (core s) (core (body s)) l)
    {s : σ} (h : LoopState (fun s => (core s).running) body s₀ s) : Bounded.Fits (core s) := by
  obtain ⟨c, hcore, -⟩ := S.invariant hw.workload.burst h
  exact (S.logBounded hsees hw hround h).fits hcore hw (S.time_le hw.workload.burst hsees hw h)

/-! ### The checked schedulers -/

theorem boundedFifo_eq (hw : Generated w) (fuel : ℕ) :
    Bounded.schedulerFifo fuel w = some (schedulerFifo fuel w) := by
  let S := fifoSimulation w hw.workload.burst
  have hsees (i : Fin n) : S.sees (w i).arrival := hw.workload.arrival_lt i
  have hround {c : Chart n} {s : FlagState n} (hcore : CoreInv w c s.toSched) (hinv : BatchInv c s)
      (htime : s.time ≤ longest) := fifoBody_log hw hcore hinv htime
  have hloop := checkedLoop_eq (f := Bounded.fifoBody) (fun s hs hrun =>
    ((Bounded.checks_fifoBody s).passes (S.fits hsees hw hround (hs.next hrun))).1) fuel
  unfold Bounded.schedulerFifo schedulerFifo
  rw [hloop]
  cases hres : whileLoop (fun s : FlagState n => s.running) fifoBody fuel
      { toSched := Sched.init w, doneFlag := fun _ => false } with
  | none => rfl
  | some s =>
    -- the arrivals after the loop
    have hs := (loopState_of_whileLoop hres).1
    obtain ⟨c, hcore, -⟩ := S.invariant hw.workload.burst hs
    have htime := S.time_le hw.workload.burst hsees hw hs
    have hlog := S.logBounded hsees hw hround hs
    have hfits : Bounded.Fits (s.toSched.arrivals s.time s.time) := by
      obtain ⟨hslots, -⟩ := hlog.fits hcore hw htime
      have hevents := hlog.length_le hw htime
      have hmore := length_arrivalsIn_le w s.time s.time
      have hthreads := hw.threads
      unfold MAX_THREADS at hthreads
      refine ⟨hslots, ?_⟩
      rw [Sched.arrivals, checkArrivals_eq hcore.sameThreads]
      refine ⟨?_, List.forall_mem_append.mpr ⟨hlog.msg, fun e he => hw.msgFits_arrivalsIn he⟩⟩
      unfold Bounded.EVENTS
      rw [List.length_append]
      omega
    have harrivals := ((Bounded.checks_arrivals s.time s.time s.toSched).passes hfits).1
    show (Bounded.arrivals s.time s.time s.toSched >>= fun c => some (some c.output)) = _
    rw [harrivals]
    rfl

theorem boundedRr_eq (hw : Generated w) (fuel : ℕ) :
    Bounded.schedulerRr fuel w = some (schedulerRr fuel w) := by
  let S := rrSimulation w
  have hsees (i : Fin n) : S.sees (w i).arrival := trivial
  have hfits {s : RrState n} (hs : LoopState (fun s => s.running) rrBody
      { toSched := Sched.init w, q := [], head := 0, inQ := fun _ => false } s) :
      Bounded.RrFits s := by
    refine ⟨?_, S.fits hsees hw (fun hcore hq _ => rrBody_log hw hcore hq) hs⟩
    have hqueue := length_q_le hw.workload hs
    have htime := S.time_le hw.workload.burst hsees hw hs
    have hthreads := hw.threads
    have hlongest : longest = 170 := rfl
    unfold MAX_THREADS at hthreads
    unfold Bounded.QUEUE
    omega
  have hloop := checkedLoop_eq (f := Bounded.rrBody) (fun s hs hrun =>
    ((Bounded.checks_rrBody s).passes (hfits (hs.next hrun))).1) fuel
  unfold Bounded.schedulerRr schedulerRr
  rw [hloop]
  cases whileLoop (fun s : RrState n => s.running) rrBody fuel
      { toSched := Sched.init w, q := [], head := 0, inQ := fun _ => false } <;> rfl

theorem boundedSjf_eq (hw : Generated w) (fuel : ℕ) :
    Bounded.schedulerSjf fuel w = some (schedulerSjf fuel w) := by
  let S := sjfSimulation w hw.workload.burst
  have hsees (i : Fin n) : S.sees (w i).arrival := trivial
  have hloop := checkedLoop_eq (f := Bounded.sjfBody) (fun s hs hrun =>
    ((Bounded.checks_sjfBody s).passes (S.fits hsees hw
      (fun hcore hinv htime => sjfBody_log hw hcore hinv htime) (hs.next hrun))).1) fuel
  unfold Bounded.schedulerSjf schedulerSjf
  rw [hloop]
  cases whileLoop (fun s : FlagState n => s.running) sjfBody fuel
      { toSched := Sched.init w, doneFlag := fun _ => false } <;> rfl

theorem boundedSrtf_eq (hw : Generated w) (fuel : ℕ) :
    Bounded.schedulerSrtf fuel w = some (schedulerSrtf fuel w) := by
  let S := srtfSimulation w hw.workload.burst
  have hsees (i : Fin n) : S.sees (w i).arrival := trivial
  have hloop := checkedLoop_eq (f := Bounded.srtfBody) (fun s hs hrun =>
    ((Bounded.checks_srtfBody s).passes (S.fits hsees hw
      (fun hcore _ _ => srtfBody_log hw hcore) (hs.next hrun))).1) fuel
  unfold Bounded.schedulerSrtf schedulerSrtf
  rw [hloop]
  cases whileLoop (fun s : SrtfState n => s.running) srtfBody fuel
      { toSched := Sched.init w, doneFlag := fun _ => false, lastRunning := none } <;> rfl

/-- **No array overflows**: on a workload that `main` can generate, the schedulers with arrays of
their declared sizes return, and after any number of rounds no write was out of bounds. -/
theorem schedulers_in_bounds (alg : Algorithm) (hn : n ≤ MAX_THREADS) {burst arrival : Fin n → ℤ}
    (hburst : ∀ i, 1 ≤ burst i ∧ burst i ≤ MAX_BURST)
    (harr : ∀ i, 0 ≤ arrival i ∧ arrival i ≤ MAX_ARRIVAL) :
    (∃ fuel out, Bounded.sched alg fuel (orig burst arrival) = some (some out)) ∧
      ∀ fuel, Bounded.sched alg fuel (orig burst arrival)
        = some (alg.sched fuel (orig burst arrival)) := by
  have hw := orig_generated hn hburst harr
  have heq (fuel : ℕ) : Bounded.sched alg fuel (orig burst arrival)
      = some (alg.sched fuel (orig burst arrival)) := by
    cases alg with
    | fifo => exact boundedFifo_eq hw fuel
    | rr => exact boundedRr_eq hw fuel
    | sjf => exact boundedSjf_eq hw fuel
    | srtf => exact boundedSrtf_eq hw fuel
  obtain ⟨fuel, out, hout⟩ := alg.terminates hw.workload.burst (hw.workload.sees alg)
  exact ⟨⟨fuel, out, (heq fuel).trans (congrArg some hout)⟩, heq⟩

theorem schedulers_in_bounds_two :
    (∃ fuel out, Bounded.sched .rr fuel (orig ![3, 2] ![0, 1]) = some (some out)) ∧
      ∀ fuel, Bounded.sched .rr fuel (orig ![3, 2] ![0, 1])
        = some (Algorithm.rr.sched fuel (orig ![3, 2] ![0, 1])) :=
  schedulers_in_bounds .rr (by decide) (by decide) (by decide)

end OsLabs.Scheduling
