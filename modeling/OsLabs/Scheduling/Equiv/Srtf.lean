import OsLabs.Scheduling.Equiv.Batch

/-!
# SRTF drives the machine

Every round is one tick, of the thread with the least remaining time among those that have arrived
and are not finished.  So in every tick of the chart the running thread has the least work left
(`Shortest`).
-/

namespace OsLabs.Scheduling

open Function

variable {n : ℕ}

/-! ### One round -/

/-- What SRTF logs between its arrivals and its tick. -/
def switchEvents (w : Fin n → Thread) (s : SrtfState n) (sel : Option (Fin n)) : List Event :=
  (match s.lastRunning with
    | some last =>
      if some last ≠ sel ∧ (s.t last).remaining > 0 then
        [preemptedEvent w last s.time (s.t last).remaining]
      else []
    | none => []) ++
  match sel with
    | some i =>
      if (s.t i).start = -1 ∨ s.lastRunning ≠ some i then [startedResumedEvent w i s.time] else []
    | none => []

/-- What SRTF logs after its tick. -/
def completionEvents (w : Fin n → Thread) (s : SrtfState n) (sel : Option (Fin n)) : List Event :=
  match sel with
  | some i => if (s.t i).remaining = 1 then [completedEvent w i (s.time + 1)] else []
  | none => []

section Round

variable {w : Fin n → Thread} {s : SrtfState n} {sel : Fin n}

theorem preempt_eq (hw : SameThreads w s.t) (elog : List Event) (o : Option (Fin n)) :
    ({ s.toSched with elog := elog } : Sched n).preempt s.lastRunning o
      = { s.toSched with
          elog := elog ++ match s.lastRunning with
            | some last =>
              if some last ≠ o ∧ (s.t last).remaining > 0 then
                [preemptedEvent w last s.time (s.t last).remaining]
              else []
            | none => [] } := by
  unfold Sched.preempt
  cases s.lastRunning with
  | none => simp
  | some last =>
    by_cases hp : some last ≠ o ∧ (s.t last).remaining > 0
    · simp only [if_pos hp, Sched.log, logEvent, preemptedEvent, hw.id last]
    · simp only [if_neg hp, List.append_nil]

theorem startSrtf_eq (hw : SameThreads w s.t) (elog : List Event) :
    ({ s.toSched with elog := elog } : Sched n).startSrtf s.lastRunning sel
      = { s.toSched with
          t := update s.t sel { s.t sel with
            start := if (s.t sel).start = -1 then s.time else (s.t sel).start }
          elog := elog ++
            if (s.t sel).start = -1 ∨ s.lastRunning ≠ some sel then
              [startedResumedEvent w sel s.time]
            else [] } := by
  have hid : (s.t sel).id = (w sel).id := hw.id sel
  have hb : (s.t sel).burst = (w sel).burst := hw.burst sel
  unfold Sched.startSrtf
  by_cases hstart : (s.t sel).start = -1
  · simp only [hstart, true_or, if_true, Sched.modify, Sched.log, logEvent, update_self,
      startedResumedEvent, hid, hb]
  · -- storing the old start time changes nothing
    have hsame : update s.t sel { s.t sel with
        start := if (s.t sel).start = -1 then s.time else (s.t sel).start } = s.t := by
      rw [if_neg hstart]
      exact update_eq_self sel s.t
    rw [hsame]
    by_cases hlast : s.lastRunning = some sel
    · simp only [hstart, hlast, ne_eq, not_true_eq_false, or_self, if_false, List.append_nil]
    · simp only [hstart, hlast, ne_eq, not_false_eq_true, or_true, if_true, if_false, Sched.log,
        logEvent, startedResumedEvent, hid, hb]

theorem srtfBody_idle (hw : SameThreads w s.t) (hsel : srtfSelect s.toFlagState = none) :
    srtfBody s
      = { s with
          gantt := ganttPush s.gantt (-1) s.time (s.time + 1)
          elog := s.elog ++ arrivalsAt w s.time ++ switchEvents w s none
          time := s.time + 1
          lastRunning := none } := by
  have hsel' : srtfSelect { s.toFlagState with elog := s.elog ++ arrivalsAt w s.time } = none :=
    hsel
  unfold srtfBody
  simp only [Sched.arrivals, checkArrivals_eq hw, arrivalsIn_self, hsel', preempt_eq hw, Sched.idle,
    switchEvents, List.append_nil]

theorem srtfBody_run (hw : SameThreads w s.t) (hsel : srtfSelect s.toFlagState = some sel)
    (hrem : (s.t sel).remaining ≠ 1) :
    srtfBody s
      = { toSched := s.toSched.ranFor sel 1
            (s.elog ++ arrivalsAt w s.time ++ switchEvents w s (some sel))
          doneFlag := s.doneFlag
          lastRunning := some sel } := by
  have hsel' : srtfSelect { s.toFlagState with elog := s.elog ++ arrivalsAt w s.time }
      = some sel := hsel
  have hne : (s.t sel).remaining - 1 ≠ 0 := by omega
  unfold srtfBody
  simp only [Sched.arrivals, checkArrivals_eq hw, arrivalsIn_self, hsel', preempt_eq hw,
    startSrtf_eq hw, Sched.modify, update_self, update_idem, hne, if_false, switchEvents,
    Sched.ranFor, Thread.ranFor, Nat.cast_one, List.append_assoc]

theorem srtfBody_finish (hw : SameThreads w s.t) (hsel : srtfSelect s.toFlagState = some sel)
    (hrem : (s.t sel).remaining = 1) :
    srtfBody s
      = { toSched := s.toSched.ranToEnd sel 1
            (s.elog ++ arrivalsAt w s.time ++ switchEvents w s (some sel)
              ++ [completedEvent w sel (s.time + 1)])
          doneFlag := update s.doneFlag sel true
          lastRunning := some sel } := by
  have hsel' : srtfSelect { s.toFlagState with elog := s.elog ++ arrivalsAt w s.time }
      = some sel := hsel
  have hzero : (s.t sel).remaining - 1 = 0 := by omega
  unfold srtfBody
  simp only [Sched.arrivals, checkArrivals_eq hw, arrivalsIn_self, hsel', preempt_eq hw,
    startSrtf_eq hw, Sched.modify, Sched.complete, Sched.log, logEvent, update_self, update_idem,
    hzero, if_true, switchEvents, Sched.ranToEnd, Thread.ranFor, Thread.finished, completedEvent,
    hw.id sel, Nat.cast_one, List.append_assoc]

/-- The log of a round. -/
theorem srtfBody_elog (hw : SameThreads w s.t) : (srtfBody s).elog = s.elog
    ++ (arrivalsAt w s.time ++ switchEvents w s (srtfSelect s.toFlagState)
      ++ completionEvents w s (srtfSelect s.toFlagState)) := by
  cases hsel : srtfSelect s.toFlagState with
  | none =>
    rw [srtfBody_idle hw hsel]
    simp [completionEvents]
  | some sel =>
    by_cases hrem : (s.t sel).remaining = 1
    · rw [srtfBody_finish hw hsel hrem]
      simp [completionEvents, hrem, Sched.ranToEnd]
    · rw [srtfBody_run hw hsel hrem]
      simp [completionEvents, hrem, Sched.ranFor]

/-- The chart of a round. -/
theorem srtfBody_gantt (hw : SameThreads w s.t) : (srtfBody s).gantt
    = ganttPush s.gantt (owner w (srtfSelect s.toFlagState)) s.time (s.time + 1) := by
  cases hsel : srtfSelect s.toFlagState with
  | none =>
    rw [srtfBody_idle hw hsel]
    rfl
  | some sel =>
    by_cases hrem : (s.t sel).remaining = 1
    · rw [srtfBody_finish hw hsel hrem, owner, ← hw.id sel]
      rfl
    · rw [srtfBody_run hw hsel hrem, owner, ← hw.id sel]
      rfl

/-- The other fields that the next round reads. -/
theorem srtfBody_locals (hw : SameThreads w s.t) :
    (srtfBody s).time = s.time + 1 ∧ (srtfBody s).lastRunning = srtfSelect s.toFlagState ∧
      ∀ i, ((srtfBody s).t i).remaining
        = (s.t i).remaining - if srtfSelect s.toFlagState = some i then 1 else 0 := by
  cases hsel : srtfSelect s.toFlagState with
  | none =>
    rw [srtfBody_idle hw hsel]
    exact ⟨rfl, rfl, fun i => by simp⟩
  | some sel =>
    by_cases hrem : (s.t sel).remaining = 1
    · rw [srtfBody_finish hw hsel hrem]
      refine ⟨rfl, rfl, fun i => ?_⟩
      by_cases hi : i = sel
      · simp [hi, Sched.ranToEnd, Thread.finished, Thread.ranFor]
      · have hne : sel ≠ i := fun heq => hi heq.symm
        simp [hi, hne, Sched.ranToEnd]
    · rw [srtfBody_run hw hsel hrem]
      refine ⟨rfl, rfl, fun i => ?_⟩
      by_cases hi : i = sel
      · simp [hi, Sched.ranFor, Thread.ranFor]
      · have hne : sel ≠ i := fun heq => hi heq.symm
        simp [hi, hne, Sched.ranFor]

end Round

/-! ### The simulation -/

/-- The running thread has the least work left among the arrived unfinished ones. -/
def Shortest (w : Fin n → Thread) (c : Chart n) (x : Option (Fin n)) : Prop :=
  ∀ i, x = some i → ∀ j, (w j).arrival ≤ c.length → (c.count (some j) : ℤ) < (w j).burst →
    (w i).burst - c.count (some i) ≤ (w j).burst - c.count (some j)

/-- The flags mark the finished threads. -/
structure SrtfInv (w : Fin n → Thread) (c : Chart n) (s : SrtfState n) : Prop where
  flag : ∀ i, s.doneFlag i = true ↔ (s.t i).remaining = 0
  shortest : Along (Shortest w) c

/-- A thread with its flag clear has work left. -/
theorem SrtfInv.one_le {w : Fin n → Thread} {c : Chart n} {s : SrtfState n}
    (hinv : SrtfInv w c s) (hcore : CoreInv w c s.toSched) {i : Fin n}
    (hflag : s.doneFlag i = false) : 1 ≤ (s.t i).remaining := by
  have hnonzero : (s.t i).remaining ≠ 0 := fun hzero => by
    have hyes := (hinv.flag i).mpr hzero
    exact absurd (hflag.symm.trans hyes) (by decide)
  have := hcore.remaining_nonneg i
  omega

/-- The thread SRTF selects has the least work left. -/
theorem shortest_of_isFirstMin {w : Fin n → Thread} {c : Chart n} {s : SrtfState n} {sel : Fin n}
    (h : CoreInv w c s.toSched) (hflag : ∀ i, s.doneFlag i = true ↔ (s.t i).remaining = 0)
    (hsel : IsFirstMin s.ready (fun i => (s.t i).remaining) (List.finRange n) sel) :
    Shortest w c (some sel) := by
  intro i hi j harr hleft
  obtain rfl : sel = i := Option.some.inj hi
  have hrem := h.remaining j
  -- a thread with work left that has arrived was a candidate of the selection
  have hready : s.ready j = true := by
    apply ready_iff.mpr
    refine ⟨?_, by rw [h.arrival j, h.time]; exact harr⟩
    cases hd : s.doneFlag j with
    | false => rfl
    | true =>
      have := (hflag j).mp hd
      omega
  have hle := hsel.le (List.mem_finRange j) hready
  rw [h.remaining sel, h.remaining j] at hle
  exact hle

/-- The ticks of a round. -/
theorem srtfBody_ticks {w : Fin n → Thread} {c b : Chart n} {s : SrtfState n} {sees : ℤ → Prop}
    (hcore : CoreInv w c s.toSched)
    (hs : MachineStep w sees s.toSched (srtfBody s).toSched b) :
    b = [srtfSelect s.toFlagState] := by
  cases hsel : srtfSelect s.toFlagState with
  | none =>
    rw [srtfBody_idle hcore.sameThreads hsel] at hs
    exact hs.ticks_of_idled ⟨rfl, rfl, rfl, rfl, rfl⟩
  | some sel =>
    by_cases hone : (s.t sel).remaining = 1
    · rw [srtfBody_finish hcore.sameThreads hsel hone] at hs
      exact hs.ticks_of_ran (k := 1) (Sched.ran_ranToEnd (by exact_mod_cast hone) _) one_pos
    · rw [srtfBody_run hcore.sameThreads hsel hone] at hs
      exact hs.ticks_of_ran (k := 1) (Sched.ran_ranFor (by exact_mod_cast hone) _) one_pos

section Step

variable {w : Fin n → Thread} {c : Chart n} {s : SrtfState n} (hcore : CoreInv w c s.toSched)
  (hinv : SrtfInv w c s)

include hcore hinv

/-- A round in which no thread is ready. -/
theorem srtf_step_idle (hsel : srtfSelect s.toFlagState = none) :
    ∃ b, MachineStep w (fun _ => True) s.toSched (srtfBody s).toSched b ∧
      SrtfInv w (c ++ b) (srtfBody s) := by
  have hspec := srtfSelect_spec s.toFlagState
  rw [hsel] at hspec
  rw [srtfBody_idle hcore.sameThreads hsel]
  refine ⟨[none], .idle ⟨rfl, rfl, rfl, rfl, rfl⟩ fun i _ harr => ?_, hinv.flag,
    hinv.shortest.concat fun i hi => absurd hi (by simp)⟩
  apply (hinv.flag i).mp
  -- an arrived thread with its flag clear would have been selected
  by_contra hflag
  have hyes : s.ready i = true :=
    ready_iff.mpr ⟨by simpa using hflag, by rw [hcore.arrival i]; exact harr⟩
  exact absurd ((hspec i).symm.trans hyes) (by decide)

/-- A round that runs `sel` for one tick. -/
theorem srtf_step_run {sel : Fin n} (hsel : srtfSelect s.toFlagState = some sel) :
    ∃ b, MachineStep w (fun _ => True) s.toSched (srtfBody s).toSched b ∧
      SrtfInv w (c ++ b) (srtfBody s) := by
  have hspec := srtfSelect_spec s.toFlagState
  rw [hsel] at hspec
  obtain ⟨hflag, harr⟩ := srtfSelect_some hcore hsel
  have hone := hinv.one_le hcore hflag
  have hle : ((1 : ℕ) : ℤ) ≤ (s.t sel).remaining := by
    push_cast
    omega
  have hshort := hinv.shortest.concat (shortest_of_isFirstMin hcore hinv.flag hspec)
  refine ⟨List.replicate 1 (some sel), ?_⟩
  by_cases hone : (s.t sel).remaining = 1
  · -- the thread finishes with this tick
    rw [srtfBody_finish hcore.sameThreads hsel hone]
    have hran := Sched.ran_ranToEnd (s := s.toSched) (k := 1) (by exact_mod_cast hone)
      (s.elog ++ arrivalsAt w s.time ++ switchEvents w s (some sel)
        ++ [completedEvent w sel (s.time + 1)])
    refine ⟨.run sel 1 one_pos hle harr hran, fun i => ?_, hshort⟩
    by_cases hi : i = sel
    · have hzero := hran.remaining
      rw [hone, Nat.cast_one, sub_self] at hzero
      rw [hi, hzero]
      simp
    · rw [(hran.others i hi).1, ← hinv.flag i]
      simp [hi]
  · rw [srtfBody_run hcore.sameThreads hsel hone]
    have hran := Sched.ran_ranFor (s := s.toSched) (k := 1) (by exact_mod_cast hone)
      (s.elog ++ arrivalsAt w s.time ++ switchEvents w s (some sel))
    refine ⟨.run sel 1 one_pos hle harr hran, fun i => ?_, hshort⟩
    by_cases hi : i = sel
    · rw [hi, hran.remaining, hinv.flag sel, Nat.cast_one]
      omega
    · rw [(hran.others i hi).1, ← hinv.flag i]

end Step

/-- SRTF as a simulation of the machine. -/
def srtfSimulation (w : Fin n → Thread) (hburst : ∀ i, 1 ≤ (w i).burst) :
    Simulation w (fun s => s.toSched) srtfBody
      ({ toSched := Sched.init w, doneFlag := fun _ => false, lastRunning := none } :
        SrtfState n) where
  Inv := SrtfInv w
  sees _ := True
  core_init := rfl
  init := by
    refine ⟨fun i => ⟨nofun, fun hi => ?_⟩, along_nil _⟩
    have hzero : (w i).burst = 0 := hi
    have := hburst i
    omega
  step {c s} hcore hinv _ := by
    cases hsel : srtfSelect s.toFlagState with
    | none => exact srtf_step_idle hcore hinv hsel
    | some sel => exact srtf_step_run hcore hinv hsel

end OsLabs.Scheduling
