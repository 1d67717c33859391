import OsLabs.Lib.Paging

/-!
# The inclusion property of priority replacement

A strategy that, when all frames are taken, drops the resident page that comes last in an order of
the pages which may change with time but does not depend on the frames (`IsPriority`) keeps a
subset of what it would keep with more frames, and so misses no less often.
-/

namespace OsLabs.Paging

open Finset

variable {Page : Type*} [DecidableEq Page]

/-- The misses of a strategy that always keeps more are fewer. -/
theorem misses_le_of_subset {refs : ℕ → Page} {A B : ℕ → Finset Page} {t : ℕ}
    (h : ∀ τ < t, A τ ⊆ B τ) : misses refs B t ≤ misses refs A t := by
  apply card_le_card
  intro τ hτ
  rw [mem_filter] at hτ ⊢
  exact ⟨hτ.1, fun hmem => hτ.2 (h τ (mem_range.mp hτ.1) hmem)⟩

/-- A strategy with `N` frames that drops, when all of them are taken, the resident page which
`drops t` puts before all the others. -/
structure IsPriority (N : ℕ) (refs : ℕ → Page) (L : ℕ) (drops : ℕ → Page → Page → Prop)
    (S : ℕ → Finset Page) : Prop where
  empty : S 0 = ∅
  hit : ∀ t < L, refs t ∈ S t → S (t + 1) = S t
  miss : ∀ t < L, refs t ∉ S t →
    ((S t).card < N ∧ S (t + 1) = insert (refs t) (S t)) ∨
    ((S t).card = N ∧ ∃ v ∈ S t, S (t + 1) = insert (refs t) ((S t).erase v) ∧
      ∀ a ∈ S t, a ≠ v → drops t v a)

section Inclusion

variable {N M L : ℕ} {refs : ℕ → Page} {drops : ℕ → Page → Page → Prop} {A B : ℕ → Finset Page}

/-- While the smaller memory is not full, the larger one holds the same pages. -/
structure Included (N : ℕ) (a b : Finset Page) : Prop where
  subset : a ⊆ b
  eq_of_lt : a.card < N → a = b

/-- One reference keeps the inclusion. -/
theorem Included.step (hasymm : ∀ t a b, drops t a b → ¬drops t b a) (hNM : N ≤ M)
    (hA : IsPriority N refs L drops A) (hB : IsPriority M refs L drops B) {t : ℕ} (ht : t < L)
    (h : Included N (A t) (B t)) : Included N (A (t + 1)) (B (t + 1)) := by
  by_cases hpA : refs t ∈ A t
  · rw [hA.hit t ht hpA, hB.hit t ht (h.subset hpA)]
    exact h
  have hcardA : A (t + 1) ⊆ insert (refs t) (A t) ∧
      ((A (t + 1)).card < N → (A t).card < N ∧ A (t + 1) = insert (refs t) (A t)) := by
    rcases hA.miss t ht hpA with ⟨hlt, hA'⟩ | ⟨hfull, v, hv, hA', -⟩
    · exact ⟨hA'.subset, fun _ => ⟨hlt, hA'⟩⟩
    · refine ⟨hA'.trans_subset (insert_subset_insert _ (erase_subset _ _)), fun hlt => ?_⟩
      rw [hA', card_insert_of_notMem fun hm => hpA (mem_of_mem_erase hm),
        card_erase_add_one hv] at hlt
      omega
  by_cases hpB : refs t ∈ B t
  · -- a miss only in the smaller memory, which is therefore full
    rw [hB.hit t ht hpB]
    refine ⟨hcardA.1.trans (insert_subset hpB h.subset), fun hlt => ?_⟩
    rw [h.eq_of_lt (hcardA.2 hlt).1] at hpA
    exact absurd hpB hpA
  rcases hB.miss t ht hpB with ⟨-, hB'⟩ | ⟨hfullB, w, hw, hB', hlast⟩
  · rw [hB']
    refine ⟨hcardA.1.trans (insert_subset_insert _ h.subset), fun hlt => ?_⟩
    rw [(hcardA.2 hlt).2, h.eq_of_lt (hcardA.2 hlt).1]
  · -- the larger memory is full, so the smaller one is too, and drops `w` if it has it
    rcases hA.miss t ht hpA with ⟨hltA, -⟩ | ⟨-, v, hv, hA', hfirst⟩
    · rw [← h.eq_of_lt hltA] at hfullB
      omega
    have hwv : w ∈ A t → w = v := by
      intro hwA
      by_contra hne
      exact hasymm t v w (hfirst w hwA hne) (hlast v (h.subset hv) (Ne.symm hne))
    refine ⟨?_, fun hlt => ?_⟩
    · rw [hA', hB']
      apply insert_subset_insert
      intro a ha
      rw [mem_erase] at ha ⊢
      refine ⟨?_, h.subset ha.2⟩
      rintro rfl
      exact ha.1 (hwv ha.2)
    · have hlt' := (hcardA.2 hlt).1
      rw [h.eq_of_lt hlt'] at hlt'
      omega

/-- **The inclusion property**: with fewer frames, fewer pages are resident at every time. -/
theorem IsPriority.subset (hasymm : ∀ t a b, drops t a b → ¬drops t b a) (hNM : N ≤ M)
    (hA : IsPriority N refs L drops A) (hB : IsPriority M refs L drops B) {t : ℕ} (ht : t ≤ L) :
    A t ⊆ B t := by
  suffices h : Included N (A t) (B t) from h.subset
  induction t with
  | zero =>
    rw [hA.empty, hB.empty]
    exact ⟨Subset.rfl, fun _ => rfl⟩
  | succ t ih => exact (ih (by omega)).step hasymm hNM hA hB ht

end Inclusion

end OsLabs.Paging
