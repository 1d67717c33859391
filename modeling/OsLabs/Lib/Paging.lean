import Mathlib.Data.Finset.Card
import Mathlib.Data.Finset.Image
import Mathlib.Algebra.Order.Interval.Finset.SuccPred
import Mathlib.Data.Nat.SuccPred
import Mathlib.Order.Interval.Finset.Nat
import Mathlib.Tactic.Ring

/-!
# Demand paging and the optimality of farthest-in-future eviction

A demand-paging strategy with `N` frames serves the references `refs 0, …, refs (L - 1)` with a
sequence of resident sets `S 0 = ∅, S 1, …, S L` (`IsDemandPaging`): `S (t + 1)` holds the page
just referenced, has at most `N` pages, and holds nothing that was not resident before except
that page.  Reference `t` is a miss when `refs t ∉ S t`; `misses` counts them.

`IsFarthest` says that a strategy drops a page only when all `N` frames are taken, and then one
whose next use is not before the next use of any other resident page.  `IsFarthest.misses_le`:
such a strategy misses at most as often as any other.

The proof compares the two runs step by step through one potential.  For a deadline `u`,
`needed A t u` counts the pages of `A` that are referenced at some time in `[t, u)`.  The
invariant (`IsFarthest.potential`) is that for every deadline

  `needed (S t) t u + misses of the farthest strategy ≤ needed (A t) t u + misses of the other`

where `A` is the farthest strategy and `S` the other one; the deadline `u = t` is the theorem.
-/

namespace OsLabs.Paging

open Finset

variable {Page : Type*} [DecidableEq Page]

/-! ### Strategies -/

/-- `S` is the sequence of resident sets of a demand-paging strategy with `N` frames on the first
`L` references of `refs`; `S t` is what is resident before reference `t`. -/
structure IsDemandPaging (N : ℕ) (refs : ℕ → Page) (L : ℕ) (S : ℕ → Finset Page) : Prop where
  /-- Nothing is resident at the start. -/
  empty : S 0 = ∅
  /-- The referenced page is resident after its reference. -/
  loads : ∀ t < L, refs t ∈ S (t + 1)
  /-- There are `N` frames. -/
  capacity : ∀ t < L, (S (t + 1)).card ≤ N
  /-- No page but the referenced one is brought in. -/
  demand : ∀ t < L, S (t + 1) ⊆ insert (refs t) (S t)

/-- The misses among the first `t` references. -/
def misses (refs : ℕ → Page) (S : ℕ → Finset Page) (t : ℕ) : ℕ :=
  ((range t).filter fun τ => refs τ ∉ S τ).card

@[simp] theorem misses_zero (refs : ℕ → Page) (S : ℕ → Finset Page) : misses refs S 0 = 0 := by
  simp [misses]

theorem misses_succ (refs : ℕ → Page) (S : ℕ → Finset Page) (t : ℕ) :
    misses refs S (t + 1) = misses refs S t + (if refs t ∈ S t then 0 else 1) := by
  unfold misses
  rw [range_add_one, filter_insert]
  by_cases h : refs t ∈ S t
  · simp [h]
  · rw [if_pos h, if_neg h, card_insert_of_notMem (by simp)]

/-- The pages referenced at some time in `[t, u)`. -/
def usedIn (refs : ℕ → Page) (t u : ℕ) : Finset Page := (Ico t u).image refs

@[simp] theorem mem_usedIn {refs : ℕ → Page} {t u : ℕ} {a : Page} :
    a ∈ usedIn refs t u ↔ ∃ j, t ≤ j ∧ j < u ∧ refs j = a := by
  simp [usedIn, and_assoc]

theorem usedIn_eq_insert {refs : ℕ → Page} {t u : ℕ} (h : t < u) :
    usedIn refs t u = insert (refs t) (usedIn refs (t + 1) u) := by
  unfold usedIn
  rw [← Finset.insert_Ico_add_one_left_eq_Ico h, image_insert]

theorem usedIn_self (refs : ℕ → Page) (t : ℕ) : usedIn refs t t = ∅ := by
  simp [usedIn]

/-- A farthest-in-future strategy: a hit changes nothing; a miss brings the page in, and drops a
page only when `N` pages are resident, namely one that is not needed before any other. -/
structure IsFarthest (N : ℕ) (refs : ℕ → Page) (L : ℕ) (A : ℕ → Finset Page) : Prop where
  empty : A 0 = ∅
  hit : ∀ t < L, refs t ∈ A t → A (t + 1) = A t
  miss : ∀ t < L, refs t ∉ A t →
    A (t + 1) = insert (refs t) (A t) ∨
    ∃ v ∈ A t, A (t + 1) = insert (refs t) ((A t).erase v) ∧ (A t).card = N ∧
      ∀ u ≤ L, v ∈ usedIn refs (t + 1) u → A t ⊆ usedIn refs (t + 1) u

/-! ### The potential -/

/-- How many pages of `A` are referenced in `[t, u)`. -/
def needed (refs : ℕ → Page) (A : Finset Page) (t u : ℕ) : ℕ := (A ∩ usedIn refs t u).card

theorem needed_self (refs : ℕ → Page) (A : Finset Page) (t : ℕ) : needed refs A t t = 0 := by
  simp [needed, usedIn_self]

/-- Adding a page counts it once, if it is used at all. -/
theorem needed_insert {refs : ℕ → Page} {A : Finset Page} {p : Page} (hp : p ∉ A) (t u : ℕ) :
    needed refs (insert p A) t u
      = needed refs A t u + (if p ∈ usedIn refs t u then 1 else 0) := by
  unfold needed
  by_cases h : p ∈ usedIn refs t u
  · rw [insert_inter_of_mem h, card_insert_of_notMem (by simp [hp]), if_pos h]
  · rw [insert_inter_of_notMem h, if_neg h, Nat.add_zero]

theorem needed_erase (refs : ℕ → Page) {A : Finset Page} {v : Page} (hv : v ∈ A) (t u : ℕ) :
    needed refs (A.erase v) t u + (if v ∈ usedIn refs t u then 1 else 0)
      = needed refs A t u := by
  rw [← needed_insert (notMem_erase v A), insert_erase hv]

theorem needed_mono (refs : ℕ → Page) {A B : Finset Page} (h : A ⊆ B) (t u : ℕ) :
    needed refs A t u ≤ needed refs B t u :=
  card_le_card (inter_subset_inter h Subset.rfl)

theorem needed_le_card (refs : ℕ → Page) (A : Finset Page) (t u : ℕ) :
    needed refs A t u ≤ A.card :=
  card_le_card inter_subset_left

theorem needed_eq_card {refs : ℕ → Page} {A : Finset Page} {t u : ℕ}
    (h : A ⊆ usedIn refs t u) : needed refs A t u = A.card := by
  rw [needed, inter_eq_left.mpr h]

/-- Before its own reference a page is needed by every later deadline; the other pages are
needed after it exactly when they were needed before it. -/
theorem needed_step {refs : ℕ → Page} {t u : ℕ} (h : t < u) (A : Finset Page) :
    needed refs A t u
      = needed refs (A.erase (refs t)) (t + 1) u + (if refs t ∈ A then 1 else 0) := by
  have herase : needed refs (A.erase (refs t)) t u = needed refs (A.erase (refs t)) (t + 1) u := by
    unfold needed
    rw [usedIn_eq_insert h, inter_insert_of_notMem (notMem_erase _ _)]
  have hmem : refs t ∈ usedIn refs t u := by
    rw [usedIn_eq_insert h]
    exact mem_insert_self _ _
  by_cases hp : refs t ∈ A
  · rw [← needed_erase refs hp, herase, if_pos hp, if_pos hmem]
  · rw [if_neg hp, ← herase, erase_eq_of_notMem hp, Nat.add_zero]

/-! ### Optimality -/

section Optimality

variable {N L : ℕ} {refs : ℕ → Page} {A S : ℕ → Finset Page}

/-- What a step of a demand-paging strategy leaves needed: at most the old pages and the
referenced one, and at most `N - 1` pages besides it. -/
theorem IsDemandPaging.needed_succ_le (hS : IsDemandPaging N refs L S) {t : ℕ} (ht : t < L)
    (u : ℕ) :
    needed refs (S (t + 1)) (t + 1) u
        ≤ needed refs ((S t).erase (refs t)) (t + 1) u
          + (if refs t ∈ usedIn refs (t + 1) u then 1 else 0) ∧
      needed refs (S (t + 1)) (t + 1) u + 1
        ≤ N + (if refs t ∈ usedIn refs (t + 1) u then 1 else 0) := by
  have hload := hS.loads t ht
  have herase := needed_erase refs hload (t + 1) u
  have hsub : (S (t + 1)).erase (refs t) ⊆ (S t).erase (refs t) := by
    intro a ha
    rw [mem_erase] at ha ⊢
    refine ⟨ha.1, ?_⟩
    rcases mem_insert.mp (hS.demand t ht ha.2) with h | h
    · exact absurd h ha.1
    · exact h
  have hcard : ((S (t + 1)).erase (refs t)).card + 1 ≤ N := by
    rw [card_erase_add_one hload]
    exact hS.capacity t ht
  have h1 := needed_mono refs hsub (t + 1) u
  have h2 := needed_le_card refs ((S (t + 1)).erase (refs t)) (t + 1) u
  omega

/-- The potential, at every time and for every deadline from then on. -/
theorem IsFarthest.potential (hA : IsFarthest N refs L A) (hS : IsDemandPaging N refs L S) :
    ∀ t ≤ L, ∀ u, t ≤ u → u ≤ L →
      needed refs (S t) t u + misses refs A t ≤ needed refs (A t) t u + misses refs S t := by
  intro t
  induction t with
  | zero =>
    intro _ u _ _
    simp [hA.empty, hS.empty]
  | succ t ih =>
    intro htL u htu huL
    have ht : t < L := htL
    have hI := ih ht.le u (by omega) huL
    -- The deadline right after the reference: the misses alone are already ordered.
    have hI1 := ih ht.le (t + 1) (Nat.le_succ t) htL
    rw [needed_step (by omega) (S t), needed_step (by omega) (A t)] at hI hI1
    rw [needed_self, needed_self] at hI1
    obtain ⟨hS1, hS2⟩ := hS.needed_succ_le ht u
    rw [misses_succ, misses_succ]
    by_cases hp : refs t ∈ A t
    · -- A hit leaves `A t` as it is; the page leaves and enters the count together.
      have hA' := needed_erase refs hp (t + 1) u
      rw [hA.hit t ht hp]
      simp only [hp, if_true] at hI hI1 ⊢
      split_ifs at * <;> omega
    · simp only [hp, if_false, erase_eq_of_notMem hp] at hI hI1 ⊢
      rcases hA.miss t ht hp with h | ⟨v, hv, h, hfull, hfar⟩
      · rw [h, needed_insert hp]
        split_ifs at * <;> omega
      · have hp' : refs t ∉ (A t).erase v := fun hmem => hp (mem_of_mem_erase hmem)
        have hev := needed_erase refs hv (t + 1) u
        rw [h, needed_insert hp']
        by_cases hvu : v ∈ usedIn refs (t + 1) u
        · -- The victim is needed by the deadline, so every resident page is: the count was `N`.
          have hall := needed_eq_card (hfar u huL hvu)
          rw [if_pos hvu] at hev
          split_ifs at * <;> omega
        · rw [if_neg hvu] at hev
          split_ifs at * <;> omega

/-- **Farthest-in-future eviction is optimal**: it misses at most as often as any demand-paging
strategy with the same number of frames. -/
theorem IsFarthest.misses_le (hA : IsFarthest N refs L A) (hS : IsDemandPaging N refs L S)
    {t : ℕ} (ht : t ≤ L) : misses refs A t ≤ misses refs S t := by
  have h := hA.potential hS t ht t le_rfl ht
  rwa [needed_self, needed_self, Nat.zero_add, Nat.zero_add] at h

end Optimality

end OsLabs.Paging
