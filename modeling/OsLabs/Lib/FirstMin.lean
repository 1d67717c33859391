import Mathlib.Data.List.Induction
import Mathlib.Order.Lattice

/-!
# The first minimum of a scan

A loop that keeps the best candidate so far, and replaces it only by a strictly smaller one, ends
with the first of the smallest candidates.
-/

namespace OsLabs

variable {α κ : Type*} [LinearOrder κ]

/-- The best candidate after `i`: only elements with `ok` are candidates. -/
def firstMinStep (ok : α → Bool) (key : α → κ) (best : Option α) (i : α) : Option α :=
  if ok i then
    match best with
    | none => some i
    | some j => if key i < key j then some i else some j
  else best

/-- `j` is the first of the smallest candidates of `l`. -/
structure IsFirstMin (ok : α → Bool) (key : α → κ) (l : List α) (j : α) : Prop where
  candidate : ok j = true
  split : ∃ as bs, l = as ++ j :: bs ∧ (∀ i ∈ as, ok i = true → key j < key i) ∧
    ∀ i ∈ bs, ok i = true → key j ≤ key i

theorem IsFirstMin.mem {ok : α → Bool} {key : α → κ} {l : List α} {j : α}
    (h : IsFirstMin ok key l j) : j ∈ l := by
  obtain ⟨as, bs, rfl, -⟩ := h.split
  simp

theorem IsFirstMin.le {ok : α → Bool} {key : α → κ} {l : List α} {j : α}
    (h : IsFirstMin ok key l j) {i : α} (hi : i ∈ l) (hok : ok i = true) : key j ≤ key i := by
  obtain ⟨as, bs, rfl, has, hbs⟩ := h.split
  rcases List.mem_append.mp hi with hi | hi
  · exact (has i hi hok).le
  · rcases List.mem_cons.mp hi with rfl | hi
    · exact le_rfl
    · exact hbs i hi hok

/-- In an increasing list it is the smallest of the smallest candidates. -/
theorem IsFirstMin.lex [PartialOrder α] {ok : α → Bool} {key : α → κ} {l : List α} {j : α}
    (h : IsFirstMin ok key l j) (hl : l.Pairwise (· < ·)) {i : α} (hi : i ∈ l) (hok : ok i = true) :
    key j < key i ∨ (key j = key i ∧ j ≤ i) := by
  obtain ⟨as, bs, rfl, has, hbs⟩ := h.split
  rcases List.mem_append.mp hi with hi | hi
  · exact Or.inl (has i hi hok)
  · rcases List.mem_cons.mp hi with rfl | hi
    · exact Or.inr ⟨rfl, le_rfl⟩
    · have hlt := List.rel_of_pairwise_cons (List.pairwise_append.mp hl).2.1 hi
      rcases lt_or_eq_of_le (hbs i hi hok) with hkey | hkey
      · exact Or.inl hkey
      · exact Or.inr ⟨hkey, hlt.le⟩

/-- What the scan of a list ends with. -/
theorem foldl_firstMinStep (ok : α → Bool) (key : α → κ) (l : List α) :
    match l.foldl (firstMinStep ok key) none with
    | none => ∀ i ∈ l, ok i = false
    | some j => IsFirstMin ok key l j := by
  induction l using List.reverseRecOn with
  | nil => exact fun i hi => absurd hi List.not_mem_nil
  | append_singleton l i ih =>
    rw [List.foldl_append, List.foldl_cons, List.foldl_nil]
    cases hbest : l.foldl (firstMinStep ok key) none with
    | none =>
      rw [hbest] at ih
      cases hok : ok i with
      | false =>
        simp only [firstMinStep, hok, Bool.false_eq_true, if_false]
        intro j hj
        rcases List.mem_append.mp hj with hj | hj
        · exact ih j hj
        · rw [List.mem_singleton.mp hj]
          exact hok
      | true =>
        simp only [firstMinStep, hok, if_true]
        refine ⟨hok, l, [], rfl, fun j hj hj' => ?_, fun j hj => absurd hj List.not_mem_nil⟩
        rw [ih j hj] at hj'
        exact absurd hj' (by decide)
    | some j =>
      rw [hbest] at ih
      -- a later candidate that is not smaller changes nothing
      have hkeep (hi : ok i = true → key j ≤ key i) : IsFirstMin ok key (l ++ [i]) j := by
        obtain ⟨hok, as, bs, rfl, has, hbs⟩ := ih
        refine ⟨hok, as, bs ++ [i], by simp, has, fun k hk hk' => ?_⟩
        rcases List.mem_append.mp hk with hk | hk
        · exact hbs k hk hk'
        · rw [List.mem_singleton] at hk
          subst hk
          exact hi hk'
      cases hok : ok i with
      | false =>
        simp only [firstMinStep, hok, Bool.false_eq_true, if_false]
        exact hkeep fun h => absurd (hok.symm.trans h) (by decide)
      | true =>
        by_cases hlt : key i < key j
        · simp only [firstMinStep, hok, if_true, hlt]
          refine ⟨hok, l, [], rfl, fun k hk hk' => ?_, fun k hk => absurd hk List.not_mem_nil⟩
          exact lt_of_lt_of_le hlt (ih.le hk hk')
        · simp only [firstMinStep, hok, if_true, hlt, if_false]
          exact hkeep fun _ => not_lt.mp hlt

end OsLabs
