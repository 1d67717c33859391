import OsLabs.Scheduling.Scheduler
import Mathlib.Data.List.Sort

/-!
# The order of arrival

`Before w i j` compares threads by arrival, ties by index; `arrivalOrder w` lists all threads in
that order.  FIFO and the ready queue of Round Robin are specified with it.
-/

namespace OsLabs.Scheduling

variable {n : ℕ} {w : Fin n → Thread}

/-- Thread `i` arrives before `j`, or at the same time and has the smaller index. -/
def Before (w : Fin n → Thread) (i j : Fin n) : Prop :=
  (w i).arrival < (w j).arrival ∨ ((w i).arrival = (w j).arrival ∧ i < j)

instance (w : Fin n → Thread) (i j : Fin n) : Decidable (Before w i j) :=
  inferInstanceAs (Decidable (_ ∨ _))

theorem Before.asymm {i j : Fin n} (h : Before w i j) : ¬Before w j i := by
  unfold Before at h ⊢
  omega

/-- The threads, sorted stably by their arrivals. -/
def arrivalOrder (w : Fin n → Thread) : List (Fin n) :=
  (List.finRange n).insertionSort fun i j => (w i).arrival ≤ (w j).arrival

theorem perm_arrivalOrder (w : Fin n → Thread) : (arrivalOrder w).Perm (List.finRange n) :=
  List.perm_insertionSort _ _

theorem mem_arrivalOrder (w : Fin n → Thread) (i : Fin n) : i ∈ arrivalOrder w :=
  (perm_arrivalOrder w).mem_iff.mpr (List.mem_finRange i)

theorem nodup_arrivalOrder (w : Fin n → Thread) : (arrivalOrder w).Nodup :=
  (perm_arrivalOrder w).nodup_iff.mpr (List.nodup_finRange n)

/-- Inserting a thread of smaller index before the first one that does not arrive earlier. -/
theorem pairwise_orderedInsert {i : Fin n} {l : List (Fin n)} (h : l.Pairwise (Before w))
    (hi : ∀ j ∈ l, i < j) :
    (l.orderedInsert (fun i j => (w i).arrival ≤ (w j).arrival) i).Pairwise (Before w) := by
  induction l with
  | nil => exact List.pairwise_singleton _ _
  | cons j l ih =>
    rw [List.orderedInsert_cons]
    by_cases hle : (w i).arrival ≤ (w j).arrival
    · rw [if_pos hle]
      refine h.cons fun k hk => ?_
      have hik := hi k hk
      rcases List.mem_cons.mp hk with rfl | hk
      · unfold Before
        omega
      · have hjk := List.rel_of_pairwise_cons h hk
        unfold Before at hjk ⊢
        omega
    · rw [if_neg hle]
      refine (ih h.of_cons fun k hk => hi k (List.mem_cons_of_mem j hk)).cons fun k hk => ?_
      rw [List.mem_orderedInsert] at hk
      rcases hk with rfl | hk
      · exact Or.inl (not_le.mp hle)
      · exact List.rel_of_pairwise_cons h hk

/-- The sort is stable: threads that arrive together stay in the order of their indices. -/
theorem pairwise_arrivalOrder (w : Fin n → Thread) : (arrivalOrder w).Pairwise (Before w) := by
  -- over any increasing list of threads
  have hsort (l : List (Fin n)) (hl : l.Pairwise (· < ·)) :
      (l.insertionSort fun i j => (w i).arrival ≤ (w j).arrival).Pairwise (Before w) := by
    induction l with
    | nil => exact List.Pairwise.nil
    | cons i l ih =>
      rw [List.insertionSort_cons]
      refine pairwise_orderedInsert (ih hl.of_cons) fun j hj => ?_
      exact List.rel_of_pairwise_cons hl ((List.mem_insertionSort _).mp hj)
  exact hsort _ (List.pairwise_lt_finRange n)

/-- A list in the order of arrival is determined by its members. -/
theorem eq_of_pairwise_before {l l' : List (Fin n)} (h : l.Pairwise (Before w))
    (h' : l'.Pairwise (Before w)) (hmem : ∀ i, i ∈ l ↔ i ∈ l') : l = l' := by
  have : Std.Antisymm (Before w) := ⟨fun _ _ hij hji => absurd hji hij.asymm⟩
  have : Std.Irrefl (Before w) := ⟨fun _ hii => hii.asymm hii⟩
  exact List.Pairwise.eq_of_mem_iff h h' hmem

end OsLabs.Scheduling
