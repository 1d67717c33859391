import OsLabs.Lib.Paging

/-!
# Requests that an online strategy does not hold

On one page more than there are frames, some page is always missing.  A strategy that does not see
the future can therefore be asked for a missing page every time (`exists_adversary`).  A
farthest-in-future strategy with `N` frames drops, on the same `N + 1` pages, a page that is not
asked for before all others were, so it misses only once in `N` references
(`IsFarthest.misses_le_div`).
-/

namespace OsLabs.Paging

open Finset

variable {Page : Type*}

/-- References among `pages`, each to a page that is not resident after those before it. -/
theorem exists_adversary {pages : Finset Page} {L : ℕ} (resident : List Page → Finset Page)
    (hcard : ∀ query : List Page, query.length < L → (∀ p ∈ query, p ∈ pages) →
      (resident query).card < pages.card) :
    ∃ query : List Page, query.length = L ∧ (∀ p ∈ query, p ∈ pages) ∧
      ∀ t (ht : t < query.length), query[t] ∉ resident (query.take t) := by
  induction L with
  | zero => exact ⟨[], rfl, by simp, by simp⟩
  | succ L ih =>
    obtain ⟨query, hlen, hpages, hmiss⟩ :=
      ih fun query hquery hall => hcard query (hquery.trans (Nat.lt_succ_self L)) hall
    obtain ⟨p, hp, hnot⟩ := exists_mem_notMem_of_card_lt_card
      (hcard query (by omega) hpages)
    refine ⟨query ++ [p], by simp [hlen], ?_, fun t ht => ?_⟩
    · intro a ha
      obtain ha | ha := List.mem_append.mp ha
      · exact hpages a ha
      · exact List.mem_singleton.mp ha ▸ hp
    · rw [List.length_append, List.length_singleton] at ht
      obtain hlt | rfl := Nat.lt_succ_iff_lt_or_eq.mp ht
      · rw [List.getElem_append_left hlt, List.take_append_of_le_length hlt.le]
        exact hmiss t hlt
      · rw [List.getElem_concat_length rfl, List.take_left]
        exact hnot

section Farthest

variable [DecidableEq Page] {N L : ℕ} {refs : ℕ → Page} {A : ℕ → Finset Page} {pages : Finset Page}

/-- The misses before time `t`: all loads of free frames, or the memory is full and the missing
page is not used in the next references. -/
inductive Spread (N L : ℕ) (refs : ℕ → Page) (A : ℕ → Finset Page) (pages : Finset Page)
    (t : ℕ) : Prop where
  | filling (hmisses : misses refs A t = (A t).card) (hle : (A t).card ≤ t) (hlt : (A t).card < N)
  | full (e : ℕ) (hmisses : misses refs A t = N + e) (hcard : (A t).card = N) (he : N * e < t)
    (hnext : ∀ a ∈ pages, a ∉ A t → ∀ u ≤ L, a ∈ usedIn refs t u → N * (e + 1) < u)

variable (hA : IsFarthest N refs L A) (hrefs : ∀ t < L, refs t ∈ pages)

include hA hrefs

theorem IsFarthest.subset_pages {t : ℕ} (ht : t ≤ L) : A t ⊆ pages := by
  induction t with
  | zero =>
    rw [hA.empty]
    exact empty_subset _
  | succ t ih =>
    have htL : t < L := ht
    have hsub := ih htL.le
    by_cases hp : refs t ∈ A t
    · rwa [hA.hit t htL hp]
    obtain heq | ⟨v, -, heq, -⟩ := hA.miss t htL hp
    · rw [heq]
      exact insert_subset (hrefs t htL) hsub
    · rw [heq]
      exact insert_subset (hrefs t htL) ((erase_subset _ _).trans hsub)

variable (hS : IsDemandPaging N refs L A) (hN : 1 ≤ N) (hpages : pages.card = N + 1)

include hS hN hpages

theorem IsFarthest.spread {t : ℕ} (ht : t ≤ L) : Spread N L refs A pages t := by
  induction t with
  | zero =>
    refine .filling ?_ ?_ ?_
    · rw [misses_zero, hA.empty, card_empty]
    · rw [hA.empty, card_empty]
    · rw [hA.empty, card_empty]
      exact hN
  | succ t ih =>
    have htL : t < L := ht
    have hsub := hA.subset_pages hrefs htL.le
    have hmisses := misses_succ refs A t
    by_cases hp : refs t ∈ A t
    · -- a hit changes nothing, and less is used from the next reference on
      rw [if_pos hp, Nat.add_zero] at hmisses
      obtain ⟨hm, hle, hlt⟩ | ⟨e, hm, hcard, he, hnext⟩ := ih htL.le
      · refine .filling ?_ ?_ ?_
        · rw [hmisses, hm, hA.hit t htL hp, Nat.add_zero]
        · rw [hA.hit t htL hp]
          omega
        · rwa [hA.hit t htL hp]
      · refine .full e (hmisses.trans hm) ?_ (by omega) fun a ha hnot u hu hused => ?_
        · rwa [hA.hit t htL hp]
        · rw [hA.hit t htL hp] at hnot
          apply hnext a ha hnot u hu
          obtain ⟨j, hj, hju, hja⟩ := mem_usedIn.mp hused
          exact mem_usedIn.mpr ⟨j, by omega, hju, hja⟩
    · rw [if_neg hp] at hmisses
      have hpt := hrefs t htL
      obtain ⟨hm, hle, hlt⟩ | ⟨e, hm, hcard, he, hnext⟩ := ih htL.le
      · -- a load of a free frame
        have heq : A (t + 1) = insert (refs t) (A t) := by
          obtain heq | ⟨v, -, -, hfull, -⟩ := hA.miss t htL hp
          · exact heq
          · omega
        have hcard' : (A (t + 1)).card = (A t).card + 1 := by
          rw [heq, card_insert_of_notMem hp]
        by_cases hfull : (A t).card + 1 < N
        · exact .filling (by omega) (by omega) (by omega)
        · refine .full 0 (by omega) (by omega) (by omega) fun a _ _ u _ hused => ?_
          obtain ⟨j, hj, hju, -⟩ := mem_usedIn.mp hused
          omega
      · -- an eviction: the page that was missing is asked for, and now the victim is missing
        have ht' : N * (e + 1) < t + 1 := by
          apply hnext _ hpt hp (t + 1) htL
          exact mem_usedIn.mpr ⟨t, le_rfl, Nat.lt_succ_self t, rfl⟩
        have hall : insert (refs t) (A t) = pages := by
          apply eq_of_subset_of_card_le (insert_subset hpt hsub)
          rw [card_insert_of_notMem hp, hcard, hpages]
        obtain heq | ⟨v, hv, heq, -, hfar⟩ := hA.miss t htL hp
        · -- there is no frame for one more page
          have hcap := hS.capacity t htL
          rw [heq, card_insert_of_notMem hp] at hcap
          omega
        · have hcard' : (A (t + 1)).card = N := by
            rw [heq, card_insert_of_notMem fun h => hp (mem_of_mem_erase h), card_erase_of_mem hv]
            have := card_pos.mpr ⟨v, hv⟩
            omega
          refine .full (e + 1) (by omega) hcard' ht' fun a ha hnot u hu hused => ?_
          have hav : a = v := by
            rw [← hall, mem_insert] at ha
            rw [heq, mem_insert, mem_erase, not_or, not_and'] at hnot
            obtain rfl | ha := ha
            · exact absurd rfl hnot.1
            · by_contra hne
              exact hnot.2 ha hne
          rw [hav] at hused
          have hsubset := card_le_card (hfar u hu hused)
          have hle : (usedIn refs (t + 1) u).card ≤ u - (t + 1) := by
            rw [← Nat.card_Ico]
            exact card_image_le
          rw [Nat.mul_add N (e + 1) 1, Nat.mul_one]
          omega

/-- **On `N + 1` pages a farthest-in-future strategy misses once in `N` references.** -/
theorem IsFarthest.misses_le_div : misses refs A L ≤ N + (L - 1) / N := by
  obtain ⟨hm, -, hlt⟩ | ⟨e, hm, -, he, -⟩ := hA.spread hrefs hS hN hpages le_rfl
  · rw [hm]
    exact hlt.le.trans (Nat.le_add_right _ _)
  · rw [hm]
    apply Nat.add_le_add_left
    rw [Nat.le_div_iff_mul_le hN, Nat.mul_comm]
    omega

end Farthest

end OsLabs.Paging
