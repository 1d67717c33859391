import OsLabs.Lib.Paging
import Mathlib.Data.Nat.Find

/-!
# Conservative replacement is competitive

A strategy with `N` frames is conservative (`IsConservative`) when it drops a page only from a
full memory, and no page loaded at `τ` before all other resident pages were referenced since `τ`.
On references to at most `N` distinct pages it therefore loads no page twice
(`IsConservative.missesIn_le`).

Any other strategy with `h ≤ N` frames has to load, after a reference that starts a stretch with
`N + 1` distinct pages, all but `h` of them (`IsDemandPaging.le_missesIn`).  Cutting the
references into the longest stretches with `N` distinct pages compares the two: for every strategy
with `h` frames,

  `(N + 1 - h) * misses of the conservative one ≤ N * misses of the other + N * (N - h)`,

so with as many frames the conservative one misses at most `N` times as often.
-/

namespace OsLabs.Paging

open Finset

variable {Page : Type*} [DecidableEq Page] {N h L : ℕ} {refs : ℕ → Page} {A S : ℕ → Finset Page}

/-! ### Misses of a stretch -/

/-- The misses at the times in `[a, b)`. -/
def missesIn (refs : ℕ → Page) (S : ℕ → Finset Page) (a b : ℕ) : ℕ :=
  ((Ico a b).filter fun τ => refs τ ∉ S τ).card

theorem misses_eq_missesIn (refs : ℕ → Page) (S : ℕ → Finset Page) (t : ℕ) :
    misses refs S t = missesIn refs S 0 t := by
  rw [misses, missesIn, range_eq_Ico]

theorem missesIn_add (refs : ℕ → Page) (S : ℕ → Finset Page) {a b c : ℕ} (hab : a ≤ b)
    (hbc : b ≤ c) : missesIn refs S a b + missesIn refs S b c = missesIn refs S a c := by
  unfold missesIn
  rw [← Ico_union_Ico_eq_Ico hab hbc, filter_union, card_union_of_disjoint]
  exact disjoint_filter_filter (Ico_disjoint_Ico_consecutive a b c)

theorem usedIn_mono (refs : ℕ → Page) {a b c d : ℕ} (hab : a ≤ b) (hcd : c ≤ d) :
    usedIn refs b c ⊆ usedIn refs a d :=
  image_subset_image (Ico_subset_Ico hab hcd)

theorem usedIn_succ (refs : ℕ → Page) {a b : ℕ} (hab : a ≤ b) :
    usedIn refs a (b + 1) = insert (refs b) (usedIn refs a b) := by
  unfold usedIn
  rw [← insert_Ico_right_eq_Ico_add_one hab, image_insert]

/-! ### Conservative strategies -/

/-- A strategy that drops nothing on a hit and nothing while a frame is free, and a page loaded at
`τ` only when all resident pages were referenced since `τ`. -/
structure IsConservative (N : ℕ) (refs : ℕ → Page) (L : ℕ) (A : ℕ → Finset Page) : Prop where
  empty : A 0 = ∅
  hit : ∀ t < L, refs t ∈ A t → A (t + 1) = A t
  miss : ∀ t < L, refs t ∉ A t →
    A (t + 1) = insert (refs t) (A t) ∨
    ∃ v ∈ A t, A (t + 1) = insert (refs t) ((A t).erase v) ∧ (A t).card = N ∧
      ∀ τ < t, refs τ = v → refs τ ∉ A τ → A t ⊆ usedIn refs τ t

section Conservative

variable (hA : IsConservative N refs L A)

include hA

theorem IsConservative.mem_succ {t : ℕ} (ht : t < L) : refs t ∈ A (t + 1) := by
  by_cases hp : refs t ∈ A t
  · rw [hA.hit t ht hp]
    exact hp
  · obtain heq | ⟨v, -, heq, -⟩ := hA.miss t ht hp
    · exact heq ▸ mem_insert_self _ _
    · exact heq ▸ mem_insert_self _ _

/-- A page loaded at `τ` is resident until `N + 1` distinct pages were referenced from `τ` on. -/
theorem IsConservative.stays {τ t : ℕ} (hτ : refs τ ∉ A τ) (hτt : τ < t) (ht : t ≤ L)
    (hfew : (usedIn refs τ t).card ≤ N) : refs τ ∈ A t := by
  induction t, hτt using Nat.le_induction with
  | base => exact hA.mem_succ ht
  | succ t hτt ih =>
    have htL : t < L := ht
    have hin := ih htL.le ((card_le_card (usedIn_mono refs le_rfl (Nat.le_succ t))).trans hfew)
    by_cases hp : refs t ∈ A t
    · rw [hA.hit t htL hp]
      exact hin
    obtain heq | ⟨v, -, heq, hfull, hused⟩ := hA.miss t htL hp
    · exact heq ▸ mem_insert_of_mem hin
    rw [heq]
    apply mem_insert_of_mem
    rw [mem_erase]
    refine ⟨fun hv => ?_, hin⟩
    -- if it is the victim, the full memory and the page that misses were all referenced since
    have hmore : insert (refs t) (A t) ⊆ usedIn refs τ (t + 1) := by
      rw [usedIn_succ refs (by omega)]
      exact insert_subset_insert _ (hused τ hτt hv hτ)
    have hcard := card_le_card hmore
    rw [card_insert_of_notMem hp] at hcard
    omega

/-- **On at most `N` distinct pages a conservative strategy loads no page twice.** -/
theorem IsConservative.missesIn_le {a b : ℕ} (hb : b ≤ L) (hfew : (usedIn refs a b).card ≤ N) :
    missesIn refs A a b ≤ (usedIn refs a b).card := by
  have hinj : ∀ τ ∈ Ico a b, ∀ σ ∈ Ico a b, refs τ ∉ A τ → refs σ ∉ A σ → refs τ = refs σ →
      ¬τ < σ := by
    intro τ hτ σ hσ hmiss hmiss' heq hlt
    rw [mem_Ico] at hτ hσ
    apply hmiss'
    rw [← heq]
    apply hA.stays hmiss hlt (by omega)
    exact (card_le_card (usedIn_mono refs hτ.1 hσ.2.le)).trans hfew
  apply card_le_card_of_injOn refs
  · intro τ hτ
    exact mem_image_of_mem refs (mem_of_mem_filter τ hτ)
  · intro τ hτ σ hσ heq
    rw [mem_coe, mem_filter] at hτ hσ
    have h₁ := hinj τ hτ.1 σ hσ.1 hτ.2 hσ.2 heq
    have h₂ := hinj σ hσ.1 τ hτ.1 hσ.2 hτ.2 heq.symm
    omega

end Conservative

/-! ### Any other strategy -/

section Other

variable (hS : IsDemandPaging h refs L S)

include hS

/-- A page that is not resident at `a` is not resident before its next reference. -/
theorem IsDemandPaging.notMem_of_notUsed {p : Page} {a b : ℕ} (hab : a ≤ b) (hb : b ≤ L)
    (hp : p ∉ S a) (hnot : p ∉ usedIn refs a b) : p ∉ S b := by
  induction b, hab using Nat.le_induction with
  | base => exact hp
  | succ b hab ih =>
    rw [usedIn_succ refs hab, mem_insert, not_or] at hnot
    intro hmem
    obtain heq | hmem := mem_insert.mp (hS.demand b hb hmem)
    · exact hnot.1 heq
    · exact ih (by omega) hnot.2 hmem

/-- Every page that is referenced and was not resident is loaded. -/
theorem IsDemandPaging.card_sdiff_le {a b : ℕ} (hb : b ≤ L) :
    (usedIn refs a b \ S a).card ≤ missesIn refs S a b := by
  apply le_trans (card_le_card _) (card_image_le (f := refs))
  intro p hp
  rw [mem_sdiff, mem_usedIn] at hp
  obtain ⟨hused, hnot⟩ := hp
  -- at its first reference in the stretch it is still absent
  obtain ⟨haj, hjb, hj⟩ := Nat.find_spec hused
  have hfirst : p ∉ usedIn refs a (Nat.find hused) := by
    rw [mem_usedIn]
    rintro ⟨i, hai, hij, hi⟩
    exact Nat.find_min hused hij ⟨hai, by omega, hi⟩
  rw [mem_image]
  refine ⟨Nat.find hused, ?_, hj⟩
  rw [mem_filter, mem_Ico, hj]
  exact ⟨⟨haj, hjb⟩, hS.notMem_of_notUsed haj (by omega) hnot hfirst⟩

/-- **After a reference that starts a stretch with `N + 1` distinct pages, at least `N + 1 - h` of
them are loaded.** -/
theorem IsDemandPaging.le_missesIn {s e : ℕ} (hse : s < e) (he : e ≤ L)
    (hmany : N + 1 ≤ (usedIn refs s e).card) :
    N + 1 ≤ missesIn refs S (s + 1) e + h := by
  have hsL : s < L := by omega
  have hload := hS.loads s hsL
  have hcap := hS.capacity s hsL
  have hrest := hS.card_sdiff_le (a := s + 1) he
  -- the page of the first reference is resident, so the absent ones are referenced after it
  have hsub : usedIn refs s e \ S (s + 1) ⊆ usedIn refs (s + 1) e \ S (s + 1) := by
    rw [usedIn_eq_insert hse, insert_sdiff_of_mem _ hload]
  have hsplit := le_card_sdiff (S (s + 1)) (usedIn refs s e)
  have := card_le_card hsub
  omega

end Other

/-! ### The comparison -/

/-- The end of the longest stretch from `s` with at most `N` distinct pages. -/
theorem exists_stretch (refs : ℕ → Page) (hN : 1 ≤ N) {s : ℕ} (hs : s < L) :
    ∃ e, s < e ∧ e ≤ L ∧ (usedIn refs s e).card ≤ N ∧
      (e < L → N + 1 ≤ (usedIn refs s (e + 1)).card) := by
  have hone : (usedIn refs s (s + 1)).card ≤ N := by
    rw [usedIn_succ refs le_rfl, usedIn_self, insert_empty, card_singleton]
    exact hN
  have hle : s + 1 ≤ Nat.findGreatest (fun e => (usedIn refs s e).card ≤ N) L :=
    Nat.le_findGreatest hs hone
  refine ⟨_, hle, Nat.findGreatest_le L,
    Nat.findGreatest_spec (P := fun e => (usedIn refs s e).card ≤ N) hs hone, fun heL => ?_⟩
  exact Nat.lt_of_not_le (Nat.findGreatest_is_greatest
    (P := fun e => (usedIn refs s e).card ≤ N) (Nat.lt_succ_self _) heL)

/-- The comparison from the start `s` of a stretch on. -/
theorem IsConservative.missesIn_mul_le (hN : 1 ≤ N) (hh : h ≤ N) (hA : IsConservative N refs L A)
    (hS : IsDemandPaging h refs L S) {s : ℕ} (hs : s < L) :
    (N + 1 - h) * missesIn refs A s L
      ≤ N * missesIn refs S (s + 1) L + N * (N + 1 - h) := by
  induction hd : L - s using Nat.strong_induction_on generalizing s with
  | _ d ih =>
    obtain ⟨e, hse, heL, hfew, hmore⟩ := exists_stretch refs hN hs
    have hfirst := (hA.missesIn_le heL hfew).trans hfew
    obtain rfl | heL := heL.eq_or_lt
    · -- the last stretch
      calc (N + 1 - h) * missesIn refs A s e ≤ (N + 1 - h) * N := Nat.mul_le_mul_left _ hfirst
        _ = N * (N + 1 - h) := Nat.mul_comm _ _
        _ ≤ _ := Nat.le_add_left _ _
    have hrest := ih (L - e) (by omega) heL rfl
    have hloads := hS.le_missesIn (show s < e + 1 by omega) heL (hmore heL)
    calc (N + 1 - h) * missesIn refs A s L
        = (N + 1 - h) * missesIn refs A s e + (N + 1 - h) * missesIn refs A e L := by
          rw [← missesIn_add refs A hse.le heL.le, Nat.mul_add]
      _ ≤ (N + 1 - h) * N + (N * missesIn refs S (e + 1) L + N * (N + 1 - h)) :=
          Nat.add_le_add (Nat.mul_le_mul_left _ hfirst) hrest
      _ = N * ((N + 1 - h) + missesIn refs S (e + 1) L) + N * (N + 1 - h) := by ring
      _ ≤ N * (missesIn refs S (s + 1) (e + 1) + missesIn refs S (e + 1) L)
            + N * (N + 1 - h) := by
          apply Nat.add_le_add_right
          apply Nat.mul_le_mul_left
          omega
      _ = N * missesIn refs S (s + 1) L + N * (N + 1 - h) := by
          rw [missesIn_add refs S (by omega) (by omega)]

/-- **A conservative strategy is competitive**: with `N` frames against any strategy with
`h ≤ N`. -/
theorem IsConservative.misses_mul_le (hN : 1 ≤ N) (hh : h ≤ N) (hA : IsConservative N refs L A)
    (hS : IsDemandPaging h refs L S) :
    (N + 1 - h) * misses refs A L ≤ N * misses refs S L + N * (N - h) := by
  obtain rfl | hL := Nat.eq_zero_or_pos L
  · simp
  -- the first reference is a miss of both
  have hfirst : missesIn refs S 0 1 = 1 := by
    rw [← misses_eq_missesIn, misses_succ, misses_zero, hS.empty, if_neg (notMem_empty _)]
  have h := hA.missesIn_mul_le hN hh hS hL
  rw [misses_eq_missesIn, misses_eq_missesIn, ← missesIn_add refs S (Nat.zero_le 1) hL, hfirst]
  calc _ ≤ N * missesIn refs S (0 + 1) L + N * (N + 1 - _) := h
    _ = N * missesIn refs S 1 L + N * (1 + (N - _)) := by
      rw [Nat.zero_add, Nat.add_comm N 1, Nat.add_sub_assoc hh]
    _ = _ := by ring

end OsLabs.Paging
