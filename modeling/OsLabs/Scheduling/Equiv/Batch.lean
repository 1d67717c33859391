import OsLabs.Lib.FirstMin
import OsLabs.Scheduling.Equiv.Events
import OsLabs.Scheduling.Equiv.Machine

/-!
# FIFO and SJF drive the machine

Both run the selected thread through to its end, so a thread has either not run at all or is
finished (`BatchInv`), and one round is one step of the machine.  They differ in the selection, of
which only this matters here: the selected thread has arrived and is not finished, and when none
is selected no such thread exists.  For FIFO that needs arrivals below the initial `min_arr`.
-/

namespace OsLabs.Scheduling

open Function

variable {n : ℕ}

/-! ### Selection -/

/-- A thread the selections consider. -/
def FlagState.ready (s : FlagState n) (i : Fin n) : Bool :=
  s.doneFlag i = false ∧ (s.t i).arrival ≤ s.time

theorem ready_iff {s : FlagState n} {i : Fin n} :
    s.ready i = true ↔ s.doneFlag i = false ∧ (s.t i).arrival ≤ s.time := by
  simp [FlagState.ready]

/-- A scan of all threads. -/
theorem firstMin_finRange (ok : Fin n → Bool) (key : Fin n → ℤ) :
    match (List.finRange n).foldl (firstMinStep ok key) none with
    | none => ∀ i, ok i = false
    | some sel => IsFirstMin ok key (List.finRange n) sel := by
  have h := foldl_firstMinStep ok key (List.finRange n)
  cases hsel : (List.finRange n).foldl (firstMinStep ok key) none with
  | none =>
    rw [hsel] at h
    exact fun i => h i (List.mem_finRange i)
  | some sel =>
    rw [hsel] at h
    exact h

theorem selectStep_eq (s : FlagState n) (key : Thread → ℤ) :
    selectStep s key = firstMinStep s.ready fun i => key (s.t i) := by
  funext best i
  cases best <;> simp only [selectStep, firstMinStep, ready_iff]

/-- What the selection of `scheduler_sjf` settles on. -/
theorem sjfSelect_spec (s : FlagState n) :
    match sjfSelect s with
    | none => ∀ i, s.ready i = false
    | some sel => IsFirstMin s.ready (fun i => (s.t i).burst) (List.finRange n) sel := by
  rw [sjfSelect, selectStep_eq]
  exact firstMin_finRange _ _

/-- What the selection of `scheduler_srtf` settles on. -/
theorem srtfSelect_spec (s : FlagState n) :
    match srtfSelect s with
    | none => ∀ i, s.ready i = false
    | some sel => IsFirstMin s.ready (fun i => (s.t i).remaining) (List.finRange n) sel := by
  rw [srtfSelect, selectStep_eq]
  exact firstMin_finRange _ _

/-- The arrivals FIFO sees: those below the initial `min_arr`. -/
def fifoSees (a : ℤ) : Prop := a < 999999

instance : DecidablePred fifoSees := fun a => inferInstanceAs (Decidable (a < 999999))

/-- A thread the selection of FIFO considers. -/
def FlagState.readyFifo (s : FlagState n) (i : Fin n) : Bool :=
  s.ready i && decide (fifoSees (s.t i).arrival)

/-- The selection of FIFO carries the arrival of the best thread along. -/
theorem foldl_fifoSelectStep (s : FlagState n) (l : List (Fin n)) :
    l.foldl (fifoSelectStep s) (none, 999999)
      = match l.foldl (firstMinStep s.readyFifo fun i => (s.t i).arrival) none with
        | none => (none, 999999)
        | some j => (some j, (s.t j).arrival) := by
  induction l using List.reverseRecOn with
  | nil => rfl
  | append_singleton l i ih =>
    rw [List.foldl_append, List.foldl_append, ih, List.foldl_cons, List.foldl_nil, List.foldl_cons,
      List.foldl_nil]
    have hspec := foldl_firstMinStep s.readyFifo (fun i => (s.t i).arrival) l
    cases hbest : l.foldl (firstMinStep s.readyFifo fun i => (s.t i).arrival) none with
    | none =>
      by_cases hready : s.ready i = true <;> by_cases hlt : (s.t i).arrival < 999999 <;>
        simp [fifoSelectStep, firstMinStep, FlagState.readyFifo, fifoSees, ← ready_iff, hready, hlt]
    | some j =>
      rw [hbest] at hspec
      have hj : (s.t j).arrival < 999999 := by
        have h := hspec.candidate
        rw [FlagState.readyFifo, Bool.and_eq_true, decide_eq_true_iff] at h
        exact h.2
      by_cases hready : s.ready i = true <;> by_cases hlt : (s.t i).arrival < (s.t j).arrival
      · have hlt' : (s.t i).arrival < 999999 := hlt.trans hj
        simp [fifoSelectStep, firstMinStep, FlagState.readyFifo, fifoSees, ← ready_iff, hready,
          hlt, hlt']
      · by_cases hlt' : (s.t i).arrival < 999999 <;>
          simp [fifoSelectStep, firstMinStep, FlagState.readyFifo, fifoSees, ← ready_iff, hready,
            hlt, hlt']
      · simp [fifoSelectStep, firstMinStep, FlagState.readyFifo, ← ready_iff, hready]
      · simp [fifoSelectStep, firstMinStep, FlagState.readyFifo, ← ready_iff, hready]

/-- What the selection of `scheduler_fifo` settles on. -/
theorem fifoSelect_spec (s : FlagState n) :
    match fifoSelect s with
    | none => ∀ i, s.readyFifo i = false
    | some sel => IsFirstMin s.readyFifo (fun i => (s.t i).arrival) (List.finRange n) sel := by
  have h := firstMin_finRange s.readyFifo fun i => (s.t i).arrival
  unfold fifoSelect
  rw [foldl_fifoSelectStep]
  cases hsel : (List.finRange n).foldl (firstMinStep s.readyFifo fun i => (s.t i).arrival) none with
  | none =>
    rw [hsel] at h
    exact h
  | some sel =>
    rw [hsel] at h
    exact h

/-! ### One round -/

/-- A thread that was run through from `time`. -/
def Thread.ranThrough (th : Thread) (time : ℤ) : Thread :=
  { th with
    remaining := 0
    start := time
    waiting := time - th.arrival
    finish := time + th.remaining
    turnaround := time + th.remaining - th.arrival }

/-- The state after `sel` was run through, with `elog` the log. -/
def FlagState.ranThrough (s : FlagState n) (sel : Fin n) (elog : List Event) : FlagState n where
  t := update s.t sel ((s.t sel).ranThrough s.time)
  threads := update s.threads sel ((s.t sel).ranThrough s.time)
  gantt := ganttPush s.gantt (s.t sel).id s.time (s.time + (s.t sel).remaining)
  elog := elog
  time := s.time + (s.t sel).remaining
  done := s.done + 1
  doneFlag := update s.doneFlag sel true

section Round

variable {w : Fin n → Thread} {s : FlagState n} {sel : Fin n}

theorem fifoBody_idle (hw : SameThreads w s.t) (hsel : fifoSelect s = none) :
    fifoBody s
      = { s with
          gantt := ganttPush s.gantt (-1) s.time (s.time + 1)
          elog := s.elog ++ arrivalsAt w s.time
          time := s.time + 1 } := by
  unfold fifoBody
  simp only [hsel, Sched.arrivals, Sched.idle, checkArrivals_eq hw, arrivalsIn_self]

theorem fifoBody_run (hw : SameThreads w s.t) (hsel : fifoSelect s = some sel)
    (hstart : (s.t sel).start = -1) :
    fifoBody s
      = s.ranThrough sel (s.elog ++ [startedWaitedEvent w sel s.time]
          ++ arrivalsIn w s.time (s.time + (s.t sel).remaining - 1)
          ++ [completedEvent w sel (s.time + (s.t sel).remaining)]) := by
  have hw' (th : Thread) (hid : th.id = (s.t sel).id) (hb : th.burst = (s.t sel).burst)
      (ha : th.arrival = (s.t sel).arrival) : SameThreads w (update s.t sel th) :=
    hw.update hid hb ha
  unfold fifoBody
  simp only [hsel, Sched.startWaited, hstart, if_true, Sched.modify, Sched.log, Sched.runThrough,
    Sched.arrivals, Sched.complete, update_self, update_idem, logEvent]
  rw [checkArrivals_eq (hw' { s.t sel with
    remaining := 0, start := s.time, waiting := s.time - (s.t sel).arrival } rfl rfl rfl)]
  simp only [FlagState.ranThrough, Thread.ranThrough, startedWaitedEvent, completedEvent,
    hw.id sel, hw.burst sel, hw.arrival sel]

theorem sjfBody_idle (hw : SameThreads w s.t) (hsel : sjfSelect s = none) :
    sjfBody s
      = { s with
          gantt := ganttPush s.gantt (-1) s.time (s.time + 1)
          elog := s.elog ++ arrivalsAt w s.time
          time := s.time + 1 } := by
  -- the selection does not look at the log
  have hsel' : sjfSelect { s with elog := s.elog ++ arrivalsAt w s.time } = none := hsel
  unfold sjfBody
  simp only [Sched.arrivals, checkArrivals_eq hw, arrivalsIn_self, hsel', Sched.idle]

theorem sjfBody_run (hw : SameThreads w s.t) (hsel : sjfSelect s = some sel)
    (hstart : (s.t sel).start = -1) :
    sjfBody s
      = s.ranThrough sel (s.elog ++ arrivalsAt w s.time ++ [startedWaitedEvent w sel s.time]
          ++ arrivalsIn w (s.time + 1) (s.time + (s.t sel).remaining - 1)
          ++ arrivalsAt w (s.time + (s.t sel).remaining)
          ++ [completedEvent w sel (s.time + (s.t sel).remaining)]) := by
  have hw' (th : Thread) (hid : th.id = (s.t sel).id) (hb : th.burst = (s.t sel).burst)
      (ha : th.arrival = (s.t sel).arrival) : SameThreads w (update s.t sel th) :=
    hw.update hid hb ha
  have hsel' : sjfSelect { s with elog := s.elog ++ arrivalsAt w s.time } = some sel := hsel
  unfold sjfBody
  simp only [Sched.arrivals, checkArrivals_eq hw, arrivalsIn_self, hsel', Sched.startWaited, hstart,
    if_true, Sched.modify, Sched.log, Sched.runThrough, Sched.complete, update_self, update_idem,
    logEvent]
  rw [checkArrivals_eq (hw' { s.t sel with
      remaining := 0, start := s.time, waiting := s.time - (s.t sel).arrival } rfl rfl rfl),
    checkArrivals_eq (hw' { s.t sel with
      remaining := 0, start := s.time, waiting := s.time - (s.t sel).arrival
      finish := s.time + (s.t sel).remaining
      turnaround := s.time + (s.t sel).remaining - (s.t sel).arrival } rfl rfl rfl),
    arrivalsIn_self]
  simp only [FlagState.ranThrough, Thread.ranThrough, startedWaitedEvent, completedEvent,
    hw.id sel, hw.burst sel, hw.arrival sel]

end Round

/-! ### The simulation -/

/-- A thread has not run, or is finished. -/
structure BatchInv (c : Chart n) (s : FlagState n) : Prop where
  finished : ∀ i, s.doneFlag i = true → (s.t i).remaining = 0
  fresh : ∀ i, s.doneFlag i = false → some i ∉ c

theorem CoreInv.sameThreads {w : Fin n → Thread} {c : Chart n} {s : Sched n}
    (h : CoreInv w c s) : SameThreads w s.t := ⟨h.id, h.burst, h.arrival⟩

theorem CoreInv.start_of_fresh {w : Fin n → Thread} {c : Chart n} {s : Sched n}
    (h : CoreInv w c s) {i : Fin n} (hi : some i ∉ c) :
    (s.t i).start = -1 ∧ (s.t i).remaining = (w i).burst := by
  have hrem := h.remaining i
  rw [List.count_eq_zero.mpr hi] at hrem
  exact ⟨by rw [h.start i, if_neg hi], by simpa using hrem⟩

/-! ### The selected thread -/

section Selected

variable {w : Fin n → Thread} {c : Chart n} {s : FlagState n} {sel : Fin n}

theorem ready_arrival (hcore : CoreInv w c s.toSched) (h : s.ready sel = true) :
    s.doneFlag sel = false ∧ (w sel).arrival ≤ s.time := by
  rw [← hcore.arrival sel]
  exact ready_iff.mp h

theorem fifoSelect_some (hcore : CoreInv w c s.toSched) (hsel : fifoSelect s = some sel) :
    s.doneFlag sel = false ∧ (w sel).arrival ≤ s.time := by
  have hspec := fifoSelect_spec s
  rw [hsel] at hspec
  have hready := hspec.candidate
  rw [FlagState.readyFifo, Bool.and_eq_true] at hready
  exact ready_arrival hcore hready.1

theorem sjfSelect_some (hcore : CoreInv w c s.toSched) (hsel : sjfSelect s = some sel) :
    s.doneFlag sel = false ∧ (w sel).arrival ≤ s.time := by
  have hspec := sjfSelect_spec s
  rw [hsel] at hspec
  exact ready_arrival hcore hspec.candidate

theorem srtfSelect_some (hcore : CoreInv w c s.toSched) (hsel : srtfSelect s = some sel) :
    s.doneFlag sel = false ∧ (w sel).arrival ≤ s.time := by
  have hspec := srtfSelect_spec s
  rw [hsel] at hspec
  exact ready_arrival hcore hspec.candidate

end Selected

/-- A thread that has not arrived, or arrives now, has all its work left. -/
theorem CoreInv.remaining_of_arriving {w : Fin n → Thread} {c : Chart n} {s : Sched n}
    (h : CoreInv w c s) {i : Fin n} (hi : s.time ≤ (w i).arrival) :
    (s.t i).remaining = (w i).burst := by
  have hnot : some i ∉ c := by
    intro hmem
    obtain ⟨k, hk⟩ := List.getElem?_of_mem hmem
    obtain ⟨hlt, -⟩ := List.getElem?_eq_some_iff.mp hk
    have harr := h.released k _ hk i rfl
    rw [List.length_take] at harr
    rw [h.time] at hi
    omega
  exact (h.start_of_fresh hnot).2

/-- Running a fresh thread through is a step of the machine. -/
theorem FlagState.ran_ranThrough {w : Fin n → Thread} {c : Chart n} {s : FlagState n}
    {sel : Fin n} (h : CoreInv w c s.toSched) (hburst : 1 ≤ (w sel).burst) (hfresh : some sel ∉ c)
    (elog : List Event) :
    ∃ k : ℕ, 0 < k ∧ (s.t sel).remaining = k ∧
      Ran sel k s.toSched (s.ranThrough sel elog).toSched := by
  obtain ⟨hstart, hrem⟩ := h.start_of_fresh hfresh
  obtain ⟨k, hk⟩ : ∃ k : ℕ, (s.t sel).remaining = k := ⟨_, (Int.toNat_of_nonneg (by omega)).symm⟩
  have hself : (s.ranThrough sel elog).t sel = (s.t sel).ranThrough s.time := update_self ..
  refine ⟨k, by omega, hk, ?_⟩
  refine ⟨fun i hi => ⟨update_of_ne hi .., update_of_ne hi ..⟩, ?_, ?_, ?_, ?_, ?_, ?_, ?_, ?_, ?_⟩
  · rw [hself]
    rfl
  · rw [hself]
    rfl
  · rw [hself]
    rfl
  · rw [hself]
    show 0 = (s.t sel).remaining - k
    omega
  · rw [hself, if_pos hstart]
    rfl
  · rw [← hk]
    rfl
  · rw [← hk]
    rfl
  · exact fun hne => absurd hk hne
  · intro _
    refine ⟨rfl, (update_self ..).trans hself.symm, ?_, ?_, ?_⟩ <;> rw [hself]
    · rfl
    · rfl
    · have hb := h.burst sel
      show s.time - (s.t sel).arrival
        = s.time + (s.t sel).remaining - (s.t sel).arrival - (s.t sel).burst
      omega

theorem BatchInv.ranThrough {c : Chart n} {s : FlagState n} {sel : Fin n}
    (h : BatchInv c s) (elog : List Event) (k : ℕ) :
    BatchInv (c ++ List.replicate k (some sel)) (s.ranThrough sel elog) where
  finished i hi := by
    show (update s.t sel _ i).remaining = 0
    have hflag : update s.doneFlag sel true i = true := hi
    by_cases his : i = sel
    · rw [his, update_self]
      rfl
    · rw [update_of_ne his] at hflag ⊢
      exact h.finished i hflag
  fresh i hi := by
    have hflag : update s.doneFlag sel true i = false := hi
    by_cases his : i = sel
    · rw [his, update_self] at hflag
      exact absurd hflag (by decide)
    · rw [update_of_ne his] at hflag
      rw [List.mem_append, not_or]
      refine ⟨h.fresh i hflag, fun hmem => his ?_⟩
      exact Option.some.inj (List.eq_of_mem_replicate hmem)

/-- A thread that has arrived and is not ready is finished. -/
theorem BatchInv.finished_of_not_ready {w : Fin n → Thread} {c : Chart n} {s : FlagState n}
    (hinv : BatchInv c s) (hcore : CoreInv w c s.toSched) {i : Fin n}
    (harr : (w i).arrival ≤ s.time) (hnot : s.ready i = false) : (s.t i).remaining = 0 := by
  apply hinv.finished i
  cases hflag : s.doneFlag i with
  | true => rfl
  | false =>
    have hyes : s.ready i = true := ready_iff.mpr ⟨hflag, by rw [hcore.arrival i]; exact harr⟩
    exact absurd (hnot.symm.trans hyes) (by decide)

/-- The ticks of a round of FIFO. -/
theorem fifoBody_ticks {w : Fin n → Thread} {c b : Chart n} {s : FlagState n} {sees : ℤ → Prop}
    (hcore : CoreInv w c s.toSched) (hinv : BatchInv c s) (hburst : ∀ i, 1 ≤ (w i).burst)
    (hs : MachineStep w sees s.toSched (fifoBody s).toSched b) :
    match fifoSelect s with
    | none => b = [none]
    | some sel => ∃ k : ℕ, (s.t sel).remaining = k ∧ b = List.replicate k (some sel) := by
  cases hsel : fifoSelect s with
  | none =>
    rw [fifoBody_idle hcore.sameThreads hsel] at hs
    exact hs.ticks_of_idled ⟨rfl, rfl, rfl, rfl, rfl⟩
  | some sel =>
    have hfresh := hinv.fresh sel (fifoSelect_some hcore hsel).1
    rw [fifoBody_run hcore.sameThreads hsel (hcore.start_of_fresh hfresh).1] at hs
    obtain ⟨k, hk, hrem, hran⟩ := FlagState.ran_ranThrough hcore (hburst sel) hfresh _
    exact ⟨k, hrem, hs.ticks_of_ran hran hk⟩

/-- The ticks of a round of SJF. -/
theorem sjfBody_ticks {w : Fin n → Thread} {c b : Chart n} {s : FlagState n} {sees : ℤ → Prop}
    (hcore : CoreInv w c s.toSched) (hinv : BatchInv c s) (hburst : ∀ i, 1 ≤ (w i).burst)
    (hs : MachineStep w sees s.toSched (sjfBody s).toSched b) :
    match sjfSelect s with
    | none => b = [none]
    | some sel => ∃ k : ℕ, (s.t sel).remaining = k ∧ b = List.replicate k (some sel) := by
  cases hsel : sjfSelect s with
  | none =>
    rw [sjfBody_idle hcore.sameThreads hsel] at hs
    exact hs.ticks_of_idled ⟨rfl, rfl, rfl, rfl, rfl⟩
  | some sel =>
    have hfresh := hinv.fresh sel (sjfSelect_some hcore hsel).1
    rw [sjfBody_run hcore.sameThreads hsel (hcore.start_of_fresh hfresh).1] at hs
    obtain ⟨k, hk, hrem, hran⟩ := FlagState.ran_ranThrough hcore (hburst sel) hfresh _
    exact ⟨k, hrem, hs.ticks_of_ran hran hk⟩

/-- FIFO as a simulation of the machine. -/
def fifoSimulation (w : Fin n → Thread) (hburst : ∀ i, 1 ≤ (w i).burst) :
    Simulation w FlagState.toSched fifoBody
      ({ toSched := Sched.init w, doneFlag := fun _ => false } : FlagState n) where
  Inv := BatchInv
  sees := fifoSees
  core_init := rfl
  init := ⟨fun i hi => absurd hi (by simp), fun i _ => List.not_mem_nil⟩
  step {c s} hcore hinv _ := by
    have hspec := fifoSelect_spec s
    cases hsel : fifoSelect s with
    | none =>
      rw [hsel] at hspec
      rw [fifoBody_idle hcore.sameThreads hsel]
      refine ⟨[none], .idle ⟨rfl, rfl, rfl, rfl, rfl⟩ fun i hsees harr => ?_, hinv.finished, ?_⟩
      · -- a thread that has arrived and is seen is finished
        have hready := hspec i
        rw [FlagState.readyFifo, Bool.and_eq_false_iff, decide_eq_false_iff_not,
          hcore.arrival i] at hready
        exact hinv.finished_of_not_ready hcore harr (hready.resolve_right (not_not_intro hsees))
      · intro i hi
        simpa using hinv.fresh i hi
    | some sel =>
      rw [hsel] at hspec
      have hready := hspec.candidate
      rw [FlagState.readyFifo, Bool.and_eq_true] at hready
      obtain ⟨hflag, harr⟩ := ready_iff.mp hready.1
      have hfresh := hinv.fresh sel hflag
      rw [hcore.arrival sel] at harr
      rw [fifoBody_run hcore.sameThreads hsel (hcore.start_of_fresh hfresh).1]
      obtain ⟨k, hk, hrem, hran⟩ := FlagState.ran_ranThrough hcore (hburst sel) hfresh _
      exact ⟨_, .run sel k hk hrem.ge harr hran, hinv.ranThrough _ k⟩

/-- SJF as a simulation of the machine. -/
def sjfSimulation (w : Fin n → Thread) (hburst : ∀ i, 1 ≤ (w i).burst) :
    Simulation w FlagState.toSched sjfBody
      ({ toSched := Sched.init w, doneFlag := fun _ => false } : FlagState n) where
  Inv := BatchInv
  sees _ := True
  core_init := rfl
  init := ⟨fun i hi => absurd hi (by simp), fun i _ => List.not_mem_nil⟩
  step {c s} hcore hinv _ := by
    have hspec := sjfSelect_spec s
    cases hsel : sjfSelect s with
    | none =>
      rw [hsel] at hspec
      rw [sjfBody_idle hcore.sameThreads hsel]
      refine ⟨[none], .idle ⟨rfl, rfl, rfl, rfl, rfl⟩ fun i _ harr => ?_, hinv.finished, ?_⟩
      · exact hinv.finished_of_not_ready hcore harr (hspec i)
      · intro i hi
        simpa using hinv.fresh i hi
    | some sel =>
      rw [hsel] at hspec
      obtain ⟨hflag, harr⟩ := ready_iff.mp hspec.candidate
      have hfresh := hinv.fresh sel hflag
      rw [hcore.arrival sel] at harr
      rw [sjfBody_run hcore.sameThreads hsel (hcore.start_of_fresh hfresh).1]
      obtain ⟨k, hk, hrem, hran⟩ := FlagState.ran_ranThrough hcore (hburst sel) hfresh _
      exact ⟨_, .run sel k hk hrem.ge harr hran, hinv.ranThrough _ k⟩

end OsLabs.Scheduling
