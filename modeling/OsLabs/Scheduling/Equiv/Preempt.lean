import OsLabs.Scheduling.Equiv.Policy

/-!
# The preemptions of SRTF

SRTF selects by remaining time and then by index, without regard to the thread that ran last.  A
running thread has less work left than every other thread that had arrived by its last tick, so
only an arrival can preempt it (`lastRunning_least`).  The preemption is for a shorter thread,
except when the shortest arrival ties with the running thread and has the smaller index
(`preempts_shorter_iff`).
-/

namespace OsLabs.Scheduling

open Function UnitSchedule

variable {n : ℕ} {w : Fin n → Thread} {c : Chart n} {s : SrtfState n}

/-! ### The rounds of SRTF -/

/-- The states in which `scheduler_srtf` starts a round, and the last one. -/
def SrtfReaches (w : Fin n → Thread) (s : SrtfState n) : Prop :=
  LoopState (fun s => s.running) srtfBody
    { toSched := Sched.init w, doneFlag := fun _ => false, lastRunning := none } s

/-- The round from `s` logs that thread `i` is preempted. -/
def Preempts (s : SrtfState n) (i : Fin n) : Prop :=
  s.lastRunning = some i ∧ ∃ remaining,
    { time := s.time, threadId := (s.t i).id, message := .preempted (s.t i).id remaining }
      ∈ (srtfBody s).elog.drop s.elog.length

/-- What the round from `s` preempts, it preempts for a strictly shorter thread. -/
def PreemptsForShorter (s : SrtfState n) : Prop :=
  ∀ i, Preempts s i → ∃ sel, srtfSelect s.toFlagState = some sel ∧
    (s.t sel).remaining < (s.t i).remaining

/-- No thread of smaller index that arrives now is as long as what the running thread has left,
unless a shorter one arrives with it. -/
def Untied (s : SrtfState n) : Prop :=
  ∀ i j, s.lastRunning = some i → 0 < (s.t i).remaining → j < i → (s.t j).arrival = s.time →
    (s.t j).burst = (s.t i).remaining →
      ∃ k, (s.t k).arrival = s.time ∧ (s.t k).burst < (s.t i).remaining

/-- What is known of a state of SRTF: the chart so far follows the policy, and its last tick is of
`last_running`. -/
structure SrtfChart (w : Fin n → Thread) (c : Chart n) (s : SrtfState n) : Prop where
  core : CoreInv w c s.toSched
  flag : ∀ i, s.doneFlag i = true ↔ (s.t i).remaining = 0
  least : Along (LeastLeft w) c
  last : s.lastRunning = c.getLast?.join

theorem SrtfReaches.chart (hburst : ∀ i, 1 ≤ (w i).burst) (hs : SrtfReaches w s) :
    ∃ c, SrtfChart w c s := by
  let S := ((srtfSimulation w hburst).also (fun c _ => Along (LeastLeft w) c) (along_nil _)
    fun hcore hinv _ ih hs => leastLeft_step_srtf hcore hinv ih hs).also
    (fun c s => s.lastRunning = c.getLast?.join) rfl fun hcore _ _ _ hs => by
      rw [srtfBody_ticks hcore hs, (srtfBody_locals hcore.sameThreads).2.1, List.getLast?_concat]
      rfl
  obtain ⟨c, hcore, hinv, -, -⟩ := S.invariant hburst hs
  exact ⟨c, hcore, hinv.1.1.flag, hinv.1.2, hinv.2⟩

section State

variable (h : SrtfChart w c s)

include h

/-- An arrived unfinished thread is a candidate. -/
theorem SrtfChart.ready_iff {i : Fin n} :
    s.ready i = true ↔ 0 < (s.t i).remaining ∧ (s.t i).arrival ≤ s.time := by
  have hnonneg := h.core.remaining_nonneg i
  rw [Scheduling.ready_iff, ← Bool.not_eq_true, h.flag i]
  omega

/-- A thread that arrives now has not run. -/
theorem SrtfChart.remaining_of_arriving {i : Fin n} (hi : s.time ≤ (s.t i).arrival) :
    (s.t i).remaining = (s.t i).burst := by
  rw [h.core.arrival] at hi
  rw [h.core.remaining_of_arriving hi, h.core.burst]

/-- The thread that ran last has less work left than the others that had arrived by then. -/
theorem SrtfChart.lastRunning_least {i : Fin n} (hi : s.lastRunning = some i) :
    (s.t i).arrival < s.time ∧ ∀ j ≠ i, (s.t j).arrival < s.time → 0 < (s.t j).remaining →
      (s.t i).remaining < (s.t j).remaining := by
  -- the last tick
  obtain ⟨d, rfl⟩ : ∃ d, c = d ++ [some i] := by
    rw [h.last] at hi
    rcases List.eq_nil_or_concat c with rfl | ⟨d, x, rfl⟩
    · exact absurd hi (by simp)
    · rw [List.concat_eq_append, List.getLast?_concat] at hi
      obtain rfl : x = some i := hi
      exact ⟨d, List.concat_eq_append⟩
  have htime := h.core.time
  rw [List.length_append, List.length_singleton] at htime
  push_cast at htime
  have htick : (d ++ [some i])[d.length]? = some (some i) := by simp
  have harr := h.core.released _ _ htick i rfl
  have hleast := h.least _ _ htick i rfl
  rw [List.take_left] at harr hleast
  refine ⟨by rw [h.core.arrival]; omega, fun j hji hj hleft => ?_⟩
  have hcount := count_while_running (c := d) hji 1
  rw [List.replicate_one] at hcount
  have hself : (d ++ [some i]).count (some i) = d.count (some i) + 1 := by
    rw [List.count_append, List.count_singleton_self]
  have hri := h.core.remaining i
  have hrj := h.core.remaining j
  rw [h.core.arrival] at hj
  rcases hleast j (by omega) (by omega) with hlt | ⟨heq, -⟩ <;> omega

/-- The `Preempted` event of a round. -/
theorem SrtfChart.preempts_iff {i : Fin n} : Preempts s i ↔
    s.lastRunning = some i ∧ srtfSelect s.toFlagState ≠ some i ∧ 0 < (s.t i).remaining := by
  unfold Preempts
  apply and_congr_right
  intro hi
  have hw := h.core.sameThreads
  rw [srtfBody_elog hw, List.drop_left]
  constructor
  · rintro ⟨remaining, hmem⟩
    by_contra hnot
    rcases List.mem_append.mp hmem with hmem | hmem
    · rcases List.mem_append.mp hmem with hmem | hmem
      · obtain ⟨j, -, hj⟩ := List.mem_map.mp hmem
        exact absurd (congrArg Event.message hj) (by simp [arrivedEvent])
      · -- the condition of the event fails, and a start is not a preemption
        have hcond : ¬(some i ≠ srtfSelect s.toFlagState ∧ (s.t i).remaining > 0) :=
          fun hboth => hnot ⟨hboth.1.symm, hboth.2⟩
        unfold switchEvents at hmem
        simp only [hi, if_neg hcond, List.nil_append] at hmem
        cases hsel : srtfSelect s.toFlagState with
        | none =>
          rw [hsel] at hmem
          exact List.not_mem_nil hmem
        | some sel =>
          simp only [hsel] at hmem
          split at hmem
          · have heq := List.mem_singleton.mp hmem
            exact absurd (congrArg Event.message heq) (by simp [startedResumedEvent])
          · exact List.not_mem_nil hmem
    · unfold completionEvents at hmem
      cases hsel : srtfSelect s.toFlagState with
      | none =>
        rw [hsel] at hmem
        exact List.not_mem_nil hmem
      | some sel =>
        simp only [hsel] at hmem
        split at hmem
        · have heq := List.mem_singleton.mp hmem
          exact absurd (congrArg Event.message heq) (by simp [completedEvent])
        · exact List.not_mem_nil hmem
  · rintro ⟨hsel, hrem⟩
    refine ⟨(s.t i).remaining, ?_⟩
    rw [List.append_assoc]
    apply List.mem_append_right
    apply List.mem_append_left
    unfold switchEvents
    simp only [hi, if_pos (show some i ≠ srtfSelect s.toFlagState ∧ (s.t i).remaining > 0 from
      ⟨hsel.symm, hrem⟩)]
    rw [hw.id i]
    exact List.mem_append_left _ List.mem_cons_self

/-- A round preempts for a shorter thread exactly if no arrival ties. -/
theorem SrtfChart.preempts_shorter_iff (hburst : ∀ i, 1 ≤ (w i).burst) :
    PreemptsForShorter s ↔ Untied s := by
  have hspec := srtfSelect_spec s.toFlagState
  have hlex {sel : Fin n} (hsel : srtfSelect s.toFlagState = some sel) {k : Fin n}
      (hrem : 0 < (s.t k).remaining) (harr : (s.t k).arrival ≤ s.time) :
      (s.t sel).remaining < (s.t k).remaining ∨
        ((s.t sel).remaining = (s.t k).remaining ∧ sel ≤ k) := by
    rw [hsel] at hspec
    exact hspec.lex (List.pairwise_lt_finRange n) (List.mem_finRange k)
      (h.ready_iff.mpr ⟨hrem, harr⟩)
  constructor
  · intro hshort i j hi hrem hji harr hburst
    by_contra hnone
    push Not at hnone
    have hj := h.remaining_of_arriving harr.ge
    -- `j` keeps `i` from being selected
    have hne : srtfSelect s.toFlagState ≠ some i := by
      intro hsel
      rcases hlex hsel (k := j) (by omega) harr.le with hlt | ⟨-, hle⟩
      · omega
      · exact absurd hji (not_lt.mpr hle)
    obtain ⟨sel, hsel, hlt⟩ := hshort i (h.preempts_iff.mpr ⟨hi, hne, hrem⟩)
    rw [hsel] at hspec
    obtain ⟨hpos, hnow⟩ := h.ready_iff.mp hspec.candidate
    have hneq : sel ≠ i := fun heq => hne (by rw [hsel, heq])
    rcases lt_or_eq_of_le hnow with hearly | hsame
    · have := (h.lastRunning_least hi).2 sel hneq hearly hpos
      omega
    · have := hnone sel hsame
      have := h.remaining_of_arriving hsame.ge
      omega
  · intro huntied i hpre
    obtain ⟨hi, hne, hrem⟩ := h.preempts_iff.mp hpre
    obtain ⟨harr, hleast⟩ := h.lastRunning_least hi
    cases hsel : srtfSelect s.toFlagState with
    | none =>
      -- `i` itself is a candidate
      rw [hsel] at hspec
      have hready := h.ready_iff.mpr ⟨hrem, harr.le⟩
      exact absurd (hspec i) (by simp [hready])
    | some sel =>
      refine ⟨sel, rfl, ?_⟩
      have hneq : sel ≠ i := fun heq => hne (by rw [hsel, heq])
      rw [hsel] at hspec
      obtain ⟨hpos, hnow⟩ := h.ready_iff.mp hspec.candidate
      rcases hlex hsel hrem harr.le with hlt | ⟨heq, hle⟩
      · exact hlt
      · rcases lt_or_eq_of_le hnow with hearly | hsame
        · have := hleast sel hneq hearly hpos
          omega
        · -- a tie: then a shorter arrival would have been selected
          have hfresh := h.remaining_of_arriving hsame.ge
          obtain ⟨k, hk, hshort⟩ := huntied i sel hi hrem (lt_of_le_of_ne hle hneq) hsame (by omega)
          have hkrem := h.remaining_of_arriving hk.ge
          have hkburst := h.core.burst k
          have := hburst k
          rcases hlex hsel (k := k) (by omega) hk.le with hlt | ⟨heq', -⟩ <;> omega

end State

/-- **When SRTF preempts only for a shorter thread**: throughout a run if and only if no arrival of
the run ties with the running thread. -/
theorem srtf_preempts_shorter_iff (w : Fin n → Thread) (hburst : ∀ i, 1 ≤ (w i).burst) :
    (∀ s, SrtfReaches w s → s.running = true → PreemptsForShorter s) ↔
      ∀ s, SrtfReaches w s → s.running = true → Untied s := by
  refine forall_congr' fun s => forall_congr' fun hs => forall_congr' fun _ => ?_
  obtain ⟨c, h⟩ := hs.chart hburst
  exact h.preempts_shorter_iff hburst

theorem srtf_preempts_shorter_iff_two :
    (∀ s, SrtfReaches (orig ![2, 3] ![1, 0]) s → s.running = true → PreemptsForShorter s) ↔
      ∀ s, SrtfReaches (orig ![2, 3] ![1, 0]) s → s.running = true → Untied s :=
  srtf_preempts_shorter_iff (orig ![2, 3] ![1, 0]) (by decide)

/-- Thread 1 has two ticks left when thread 0 arrives with a burst of two, and is preempted. -/
theorem not_srtf_preempts_shorter :
    ¬∀ w : Fin 2 → Thread, (∀ i, 1 ≤ (w i).burst) → (∀ i, 0 ≤ (w i).arrival) →
      ∀ s, SrtfReaches w s → s.running = true → PreemptsForShorter s := by
  intro hall
  -- the state after the first tick
  have hshort := hall (orig ![2, 3] ![1, 0]) (by decide) (by decide) _
    (LoopState.start.next rfl) rfl
  obtain ⟨sel, hsel, hlt⟩ := hshort 1 ⟨rfl, 2, by decide⟩
  obtain rfl : 0 = sel := Option.some.inj hsel
  exact absurd hlt (by decide)

end OsLabs.Scheduling
