import Mathlib.Algebra.BigOperators.Group.Finset.Basic
import Mathlib.Algebra.BigOperators.Ring.Finset
import Mathlib.Algebra.Order.BigOperators.Group.Finset
import Mathlib.Data.Fintype.BigOperators
import Mathlib.Data.Nat.Count

/-!
# Preemptive scheduling of one machine in unit ticks

A schedule says for every tick which job runs, if any.  Job `j` is released at `r j` and needs
`p j` ticks.

* All work-conserving schedules are idle at the same ticks (`idle_iff`): the work left over at any
  time is the same for all of them.
* A schedule that always runs a job with the least work left has the least total completion time
  (`sum_completion_le`).  The proof compares two schedules by what is left over when some jobs are
  set aside: whatever jobs are set aside in the one, as many can be set aside in the other so that
  no more is left over (`Dominates`).  Serving the shortest job keeps this up
  (`Dominates.serve`), and so does the release of jobs (`Dominates.add`).
-/

namespace OsLabs.UnitSchedule

open Finset

variable {J : Type*} [DecidableEq J]

/-- The ticks job `j` got before time `t`. -/
def work (S : ℕ → Option J) (j : J) (t : ℕ) : ℕ := Nat.count (fun k => S k = some j) t

/-- Only released jobs run, and none for longer than it needs. -/
structure Feasible (r p : J → ℕ) (S : ℕ → Option J) : Prop where
  released : ∀ t j, S t = some j → r j ≤ t
  work_le : ∀ t j, work S j t ≤ p j

/-- The work of job `j` that is released and not done at time `t`. -/
def left (r p : J → ℕ) (S : ℕ → Option J) (t : ℕ) (j : J) : ℕ :=
  if r j ≤ t then p j - work S j t else 0

/-- The machine idles only when nothing is left to do. -/
def WorkConserving (r p : J → ℕ) (S : ℕ → Option J) : Prop :=
  ∀ t, S t = none → ∀ j, left r p S t j = 0

/-- The job that runs has the least work left. -/
def ShortestFirst (r p : J → ℕ) (S : ℕ → Option J) : Prop :=
  ∀ t j, S t = some j → ∀ k, 0 < left r p S t k → left r p S t j ≤ left r p S t k

/-- Job `j` is done at time `c` and not before. -/
structure IsCompletion (p : J → ℕ) (S : ℕ → Option J) (j : J) (c : ℕ) : Prop where
  done : work S j c = p j
  first : ∀ t < c, work S j t < p j

/-- What is left of `α` after a tick of the job `o`. -/
def served (α : J → ℕ) (o : Option J) (j : J) : ℕ := α j - if o = some j then 1 else 0

section Basic

variable {r p : J → ℕ} {S : ℕ → Option J}

@[simp] theorem work_zero (S : ℕ → Option J) (j : J) : work S j 0 = 0 := Nat.count_zero _

theorem work_succ (S : ℕ → Option J) (j : J) (t : ℕ) :
    work S j (t + 1) = work S j t + if S t = some j then 1 else 0 := Nat.count_succ _ t

theorem work_mono (S : ℕ → Option J) (j : J) : Monotone (work S j) := Nat.count_monotone _

/-- A job does not run before its release. -/
theorem Feasible.work_of_le (h : Feasible r p S) {j : J} {t : ℕ} (ht : t ≤ r j) :
    work S j t = 0 := by
  induction t with
  | zero => exact work_zero S j
  | succ t ih =>
    rw [work_succ, ih (by omega), if_neg]
    intro hrun
    have := h.released t j hrun
    omega

theorem Feasible.left_pos (h : Feasible r p S) {t : ℕ} {j : J} (hrun : S t = some j) :
    0 < left r p S t j := by
  have hwork := h.work_le (t + 1) j
  rw [work_succ, if_pos hrun] at hwork
  rw [left, if_pos (h.released t j hrun)]
  omega

/-- One tick: the job that runs loses one unit, and the jobs released at its end come in. -/
theorem Feasible.left_succ (h : Feasible r p S) (t : ℕ) (j : J) :
    left r p S (t + 1) j
      = served (left r p S t) (S t) j + if r j = t + 1 then p j else 0 := by
  simp only [left, served]
  by_cases hle : r j ≤ t
  · have hne : r j ≠ t + 1 := by omega
    rw [if_pos (by omega : r j ≤ t + 1), if_pos hle, if_neg hne, work_succ]
    omega
  · by_cases heq : r j = t + 1
    · rw [if_pos (by omega), if_neg hle, if_pos heq, h.work_of_le heq.ge]
      omega
    · rw [if_neg (by omega), if_neg hle, if_neg heq]
      omega

end Basic

/-! ### Idle ticks -/

section Idle

variable [Fintype J] {r p : J → ℕ} {S S' : ℕ → Option J}

theorem sum_served {α : J → ℕ} {o : Option J} (ho : ∀ j, o = some j → 0 < α j) :
    ∑ j, served α o j + (if o = none then 0 else 1) = ∑ j, α j := by
  cases o with
  | none => simp [served]
  | some i =>
    have hi := ho i rfl
    have hpoint (j : J) : served α (some i) j + (if i = j then 1 else 0) = α j := by
      unfold served
      by_cases hij : i = j
      · subst hij
        simp only [if_true]
        omega
      · simp [hij]
    rw [if_neg (by simp), ← Finset.sum_congr rfl fun j _ => hpoint j, sum_add_distrib,
      sum_ite_eq, if_pos (mem_univ i)]

theorem WorkConserving.idle_iff_left (h : Feasible r p S) (hw : WorkConserving r p S) (t : ℕ) :
    S t = none ↔ ∑ j, left r p S t j = 0 := by
  rw [sum_eq_zero_iff]
  refine ⟨fun hidle j _ => hw t hidle j, fun hzero => ?_⟩
  cases hrun : S t with
  | none => rfl
  | some j => exact absurd (hzero j (mem_univ j)) (h.left_pos hrun).ne'

/-- The total work left over does not depend on the schedule. -/
theorem sum_left_eq (h : Feasible r p S) (hw : WorkConserving r p S) (h' : Feasible r p S')
    (hw' : WorkConserving r p S') (t : ℕ) :
    ∑ j, left r p S t j = ∑ j, left r p S' t j := by
  induction t with
  | zero => simp [left]
  | succ t ih =>
    have hS := sum_served (α := left r p S t) fun j hrun => h.left_pos hrun
    have hS' := sum_served (α := left r p S' t) fun j hrun => h'.left_pos hrun
    have hidle : S t = none ↔ S' t = none := by
      rw [hw.idle_iff_left h, hw'.idle_iff_left h', ih]
    have hite : (if S t = none then 0 else 1) = if S' t = none then 0 else 1 := by
      simp only [hidle]
    simp only [h.left_succ, h'.left_succ, sum_add_distrib]
    omega

/-- **Work-conserving schedules are idle at the same ticks.** -/
theorem idle_iff (h : Feasible r p S) (hw : WorkConserving r p S) (h' : Feasible r p S')
    (hw' : WorkConserving r p S') (t : ℕ) : S t = none ↔ S' t = none := by
  rw [hw.idle_iff_left h, hw'.idle_iff_left h', sum_left_eq h hw h' hw']

end Idle

/-! ### Setting jobs aside -/

section Dominates

variable [Fintype J] {α β : J → ℕ}

/-- What is left over when the jobs of `A` are set aside. -/
def leftover (α : J → ℕ) (A : Finset J) : ℕ := ∑ j ∈ Aᶜ, α j

/-- Setting aside jobs of `α`, one can always leave over as little as with as many jobs of `β`. -/
def Dominates (α β : J → ℕ) : Prop :=
  ∀ B : Finset J, ∃ A : Finset J, A.card ≤ B.card ∧ leftover α A ≤ leftover β B

theorem leftover_add_sum (α : J → ℕ) (A : Finset J) : leftover α A + ∑ j ∈ A, α j = ∑ j, α j :=
  sum_compl_add_sum A α

theorem leftover_served {o : Option J} (ho : ∀ j, o = some j → 0 < α j) (A : Finset J) :
    leftover (served α o) A + (if ∃ j ∉ A, o = some j then 1 else 0) = leftover α A := by
  unfold leftover
  cases o with
  | none => simp [served]
  | some i =>
    have hi := ho i rfl
    have hpoint (j : J) : served α (some i) j + (if i = j then 1 else 0) = α j := by
      unfold served
      by_cases hij : i = j
      · subst hij
        simp only [if_true]
        omega
      · simp [hij]
    rw [← Finset.sum_congr (rfl : Aᶜ = Aᶜ) fun j _ => hpoint j, sum_add_distrib, sum_ite_eq]
    congr 1
    by_cases hmem : i ∈ A <;> simp [hmem]

theorem leftover_served_le (o : Option J) (A : Finset J) :
    leftover (served α o) A ≤ leftover α A :=
  sum_le_sum fun _ _ => Nat.sub_le _ _

/-- Setting `c` aside instead of `a`. -/
theorem leftover_exchange {A : Finset J} {a c : J} (ha : a ∈ A) (hc : c ∉ A) :
    leftover α (insert c (A.erase a)) + α c = leftover α A + α a := by
  have h1 := leftover_add_sum α (insert c (A.erase a))
  have h2 := leftover_add_sum α A
  have hnotin : c ∉ A.erase a := fun h => hc (mem_of_mem_erase h)
  have h3 : ∑ j ∈ insert c (A.erase a), α j = α c + ∑ j ∈ A.erase a, α j := sum_insert hnotin
  have h4 := add_sum_erase A α ha
  omega

/-- **Serving the shortest job keeps the schedule ahead**, whatever the other one serves. -/
theorem Dominates.serve (h : Dominates α β) {o o' : Option J}
    (ho : ∀ j, o = some j → 0 < α j) (hmin : ∀ j, o = some j → ∀ k, 0 < α k → α j ≤ α k)
    (hidle : o = none → ∀ j, α j = 0) (ho' : ∀ j, o' = some j → 0 < β j) :
    Dominates (served α o) (served β o') := by
  intro B
  obtain ⟨A, hcard, hle⟩ := h B
  have hβ := leftover_served ho' B
  by_cases hb : ∃ j ∉ B, o' = some j
  · -- the other schedule works on a job that is not set aside
    rw [if_pos hb] at hβ
    rcases Nat.eq_zero_or_pos (leftover α A) with hzero | hpos
    · exact ⟨A, hcard, by have := leftover_served_le (α := α) o A; omega⟩
    · obtain ⟨c, hc, hcpos⟩ : ∃ c ∉ A, 0 < α c := by
        by_contra hcon
        push Not at hcon
        refine hpos.ne' (sum_eq_zero fun j hj => ?_)
        have := hcon j (mem_compl.mp hj)
        omega
      cases ho_eq : o with
      | none => exact absurd (hidle ho_eq c) hcpos.ne'
      | some a =>
        rw [← ho_eq]
        by_cases ha : a ∈ A
        · -- the shortest job was set aside: set aside one with more work instead
          have hac := hmin a ho_eq c hcpos
          have hex := leftover_exchange (α := α) ha hc
          have ha' : ∃ j ∉ insert c (A.erase a), o = some j := by
            refine ⟨a, ?_, ho_eq⟩
            have hne : a ≠ c := fun heq => hc (heq ▸ ha)
            simp [hne]
          have hα := leftover_served ho (insert c (A.erase a))
          rw [if_pos ha'] at hα
          refine ⟨insert c (A.erase a), ?_, by omega⟩
          rw [card_insert_of_notMem fun h => hc (mem_of_mem_erase h), card_erase_add_one ha]
          exact hcard
        · have hα := leftover_served ho A
          rw [if_pos ⟨a, ha, ho_eq⟩] at hα
          exact ⟨A, hcard, by omega⟩
  · rw [if_neg hb] at hβ
    exact ⟨A, hcard, by have := leftover_served_le (α := α) o A; omega⟩

/-- Jobs that come in for both schedules. -/
theorem Dominates.add (h : Dominates α β) {π : J → ℕ} (hα : ∀ j, π j ≠ 0 → α j = 0)
    (hβ : ∀ j, π j ≠ 0 → β j = 0) :
    Dominates (fun j => α j + π j) (fun j => β j + π j) := by
  intro B
  -- the jobs that come in
  obtain ⟨R, hR⟩ : ∃ R : Finset J, ∀ j, j ∈ R ↔ π j ≠ 0 :=
    ⟨univ.filter fun j => π j ≠ 0, by simp⟩
  obtain ⟨A, hcard, hle⟩ := h (B \ R)
  refine ⟨(A \ R) ∪ (B ∩ R), ?_, ?_⟩
  · have h1 := card_union_le (A \ R) (B ∩ R)
    have h2 := card_le_card (sdiff_subset (s := A) (t := R))
    have h3 := card_sdiff_add_card_inter B R
    omega
  · have hold (γ : J → ℕ) (hγ : ∀ j, π j ≠ 0 → γ j = 0) (X Y : Finset J) (hXY : X \ R = Y \ R) :
        leftover γ X = leftover γ Y := by
      unfold leftover
      rw [← sum_subset (filter_subset (· ∉ R) Xᶜ),
        ← sum_subset (filter_subset (· ∉ R) Yᶜ)]
      · refine sum_congr ?_ fun _ _ => rfl
        ext j
        have hj := Finset.ext_iff.mp hXY j
        simp only [mem_sdiff] at hj
        simp only [mem_filter, mem_compl]
        tauto
      all_goals
        intro j hj hj'
        refine hγ j ((hR j).mp ?_)
        by_contra hcon
        exact hj' (mem_filter.mpr ⟨hj, hcon⟩)
    have hnew (X Y : Finset J) (hXY : X ∩ R = Y ∩ R) : leftover π X = leftover π Y := by
      unfold leftover
      rw [← sum_subset (filter_subset (· ∈ R) Xᶜ),
        ← sum_subset (filter_subset (· ∈ R) Yᶜ)]
      · refine sum_congr ?_ fun _ _ => rfl
        ext j
        have hj := Finset.ext_iff.mp hXY j
        simp only [mem_inter] at hj
        simp only [mem_filter, mem_compl]
        tauto
      all_goals
        intro j hj hj'
        by_contra hcon
        exact hj' (mem_filter.mpr ⟨hj, (hR j).mpr hcon⟩)
    have hsplit (γ : J → ℕ) (X : Finset J) :
        leftover (fun j => γ j + π j) X = leftover γ X + leftover π X := sum_add_distrib
    rw [hsplit, hsplit, hold α hα _ A (by ext; simp; tauto),
      hnew ((A \ R) ∪ (B ∩ R)) B (by ext; simp; tauto),
      hold β hβ B (B \ R) (by ext; simp)]
    omega

/-- With nothing left over when the unfinished jobs of `β` are set aside, `α` has at most as many
unfinished jobs. -/
theorem Dominates.card_le (h : Dominates α β) :
    (univ.filter fun j => 0 < α j).card ≤ (univ.filter fun j => 0 < β j).card := by
  obtain ⟨A, hcard, hle⟩ := h (univ.filter fun j => 0 < β j)
  have hβ : leftover β (univ.filter fun j => 0 < β j) = 0 := by
    apply sum_eq_zero
    intro j hj
    rw [mem_compl, mem_filter] at hj
    by_contra hne
    exact hj ⟨mem_univ j, Nat.pos_of_ne_zero hne⟩
  have hα : leftover α A = 0 := by omega
  refine le_trans (card_le_card fun j hj => ?_) hcard
  by_contra hnot
  have hzero := (sum_eq_zero_iff.mp hα) j (mem_compl.mpr hnot)
  have hpos := (mem_filter.mp hj).2
  omega

end Dominates

/-! ### The shortest job first -/

section Optimality

variable [Fintype J] {r p : J → ℕ} {S S' : ℕ → Option J}

/-- At every time the schedule that serves the shortest job is ahead. -/
theorem dominates_of_shortestFirst (h : Feasible r p S) (hw : WorkConserving r p S)
    (hs : ShortestFirst r p S) (h' : Feasible r p S') (t : ℕ) :
    Dominates (left r p S t) (left r p S' t) := by
  induction t with
  | zero =>
    intro B
    refine ⟨B, le_rfl, le_of_eq (sum_congr rfl fun j _ => ?_)⟩
    simp [left]
  | succ t ih =>
    have hserve := ih.serve (fun j hrun => h.left_pos hrun) (hs t) (hw t)
      (fun j hrun => h'.left_pos hrun)
    have hrelease (X : ℕ → Option J) (j : J) (hj : (if r j = t + 1 then p j else 0) ≠ 0) :
        served (left r p X t) (X t) j = 0 := by
      have hr : r j = t + 1 := by
        by_contra hne
        rw [if_neg hne] at hj
        exact hj rfl
      rw [served, left, if_neg (by omega)]
      omega
    have hadd := hserve.add (π := fun j => if r j = t + 1 then p j else 0) (hrelease S)
      (hrelease S')
    have heq : left r p S (t + 1) = _ := funext (h.left_succ t)
    have heq' : left r p S' (t + 1) = _ := funext (h'.left_succ t)
    rw [heq, heq']
    exact hadd

/-- Fewer jobs are unfinished, at every time. -/
theorem card_unfinished_le (hp : ∀ j, 0 < p j) (h : Feasible r p S) (hw : WorkConserving r p S)
    (hs : ShortestFirst r p S) (h' : Feasible r p S') (t : ℕ) :
    (univ.filter fun j => work S j t < p j).card
      ≤ (univ.filter fun j => work S' j t < p j).card := by
  -- the unfinished jobs are those not released and those with work left
  have hsplit {X : ℕ → Option J} (hX : Feasible r p X) :
      (univ.filter fun j => work X j t < p j).card
        = (univ.filter fun j => ¬ r j ≤ t).card
          + (univ.filter fun j => 0 < left r p X t j).card := by
    rw [← card_union_of_disjoint]
    · congr 1
      ext j
      simp only [mem_filter, mem_univ, true_and, mem_union]
      by_cases hr : r j ≤ t
      · have hleft : left r p X t j = p j - work X j t := if_pos hr
        rw [hleft]
        omega
      · have hzero := hX.work_of_le (show t ≤ r j by omega)
        have := hp j
        simp only [hr, not_false_eq_true, true_or, iff_true]
        omega
    · rw [disjoint_filter]
      intro j _ hr
      simp [left, hr]
  rw [hsplit h, hsplit h']
  exact Nat.add_le_add_left (dominates_of_shortestFirst h hw hs h' t).card_le _

omit [Fintype J] in
/-- A job is completed once. -/
theorem IsCompletion.unique {j : J} {c c' : ℕ} (h : IsCompletion p S j c)
    (h' : IsCompletion p S j c') : c = c' := by
  have hdone := h.done
  have hdone' := h'.done
  rcases lt_trichotomy c c' with hlt | heq | hgt
  · have := h'.first c hlt
    omega
  · exact heq
  · have := h.first c' hgt
    omega

omit [Fintype J] in
/-- A completion time counts the ticks at which the job is unfinished. -/
theorem IsCompletion.eq_sum {j : J} {c T : ℕ} (h : IsCompletion p S j c) (hT : c ≤ T) :
    c = ∑ t ∈ range T, if work S j t < p j then 1 else 0 := by
  have hset : (range T).filter (fun t => work S j t < p j) = range c := by
    ext t
    rw [mem_filter, mem_range, mem_range]
    constructor
    · rintro ⟨-, hlt⟩
      by_contra hge
      have := work_mono S j (show c ≤ t by omega)
      have := h.done
      omega
    · exact fun htc => ⟨by omega, h.first t htc⟩
  rw [← card_filter, hset, card_range]

/-- **Shortest remaining time first is optimal** for the sum of the completion times. -/
theorem sum_completion_le (hp : ∀ j, 0 < p j) (h : Feasible r p S) (hw : WorkConserving r p S)
    (hs : ShortestFirst r p S) (h' : Feasible r p S') {c c' : J → ℕ}
    (hc : ∀ j, IsCompletion p S j (c j)) (hc' : ∀ j, IsCompletion p S' j (c' j)) :
    ∑ j, c j ≤ ∑ j, c' j := by
  obtain ⟨T, hT, hT'⟩ : ∃ T, (∀ j, c j ≤ T) ∧ ∀ j, c' j ≤ T :=
    ⟨∑ j, c j + ∑ j, c' j,
      fun j => (single_le_sum (fun _ _ => Nat.zero_le _) (mem_univ j)).trans (Nat.le_add_right _ _),
      fun j => (single_le_sum (fun _ _ => Nat.zero_le _) (mem_univ j)).trans (Nat.le_add_left _ _)⟩
  calc ∑ j, c j
      = ∑ j, ∑ t ∈ range T, (if work S j t < p j then 1 else 0) :=
        sum_congr rfl fun j _ => (hc j).eq_sum (hT j)
    _ = ∑ t ∈ range T, (univ.filter fun j => work S j t < p j).card := by
        rw [sum_comm]
        exact sum_congr rfl fun t _ => (card_filter _ _).symm
    _ ≤ ∑ t ∈ range T, (univ.filter fun j => work S' j t < p j).card :=
        sum_le_sum fun t _ => card_unfinished_le hp h hw hs h' t
    _ = ∑ j, ∑ t ∈ range T, (if work S' j t < p j then 1 else 0) := by
        rw [sum_comm]
        exact sum_congr rfl fun t _ => card_filter _ _
    _ = ∑ j, c' j := sum_congr rfl fun j _ => ((hc' j).eq_sum (hT' j)).symm

end Optimality

end OsLabs.UnitSchedule
