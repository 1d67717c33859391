import OsLabs.PageReplace.Scheduler
import Mathlib.Data.Fintype.Card

/-!
# The frame array under an access

`FrameStep page f r f'` is the replacement machine all four policies refine: a page that is in
some frame is a hit and changes nothing; a page that is not is loaded into an empty frame, or,
when no frame is empty, into the frame of a victim.  Which empty frame and which victim is left
open.

The second half is what the code computes on the array: `find_page` and `find_empty` return the
first frame that fits, as a number from 0 to 127, as long as there are at most 128 frames
(`findPage_spec`), and the checked reads and writes succeed on the indices of frames.
-/

namespace OsLabs.PageReplace

open Function Finset

variable {N : ℕ}

/-- Storing under an index that is not in the list. -/
theorem map_update_of_notMem {α β : Type*} [DecidableEq α] {xs : List α} {g : α → β} {a : α} {b : β}
    (h : a ∉ xs) : xs.map (update g a b) = xs.map g := by
  apply List.map_congr_left
  intro x hx
  apply update_of_ne
  rintro rfl
  exact h hx

/-! ### Occupied frames -/

/-- The number of frames that hold a page. -/
def occupied (f : Fin N → UInt8) : ℕ := (univ.filter fun i => f i ≠ FRAME_EMPTY).card

/-- No page is in two frames. -/
def Distinct (f : Fin N → UInt8) : Prop :=
  ∀ i j, f i ≠ FRAME_EMPTY → f i = f j → i = j

/-- The pages in the frames. -/
def resident (f : Fin N → UInt8) : Finset UInt8 := (univ.image f).erase FRAME_EMPTY

@[simp] theorem mem_resident {f : Fin N → UInt8} {p : UInt8} :
    p ∈ resident f ↔ p ≠ FRAME_EMPTY ∧ ∃ i, f i = p := by
  simp [resident]

theorem occupied_le (f : Fin N → UInt8) : occupied f ≤ N := by
  have h := card_le_univ (univ.filter fun i => f i ≠ FRAME_EMPTY)
  rwa [Fintype.card_fin] at h

theorem occupied_eq_of_full {f : Fin N → UInt8} (h : ∀ i, f i ≠ FRAME_EMPTY) :
    occupied f = N := by
  rw [occupied, filter_true_of_mem fun i _ => h i, card_univ, Fintype.card_fin]

theorem occupied_lt_of_empty {f : Fin N → UInt8} {i : Fin N} (h : f i = FRAME_EMPTY) :
    occupied f < N := by
  -- the empty frame is not counted
  have hss : (univ.filter fun i => f i ≠ FRAME_EMPTY) ⊂ univ := by
    apply ssubset_univ_iff.mpr
    intro heq
    have hi := mem_univ i
    rw [← heq, mem_filter] at hi
    exact hi.2 h
  have hlt := card_lt_card hss
  rwa [card_univ, Fintype.card_fin] at hlt

theorem occupied_fill {f : Fin N → UInt8} {i : Fin N} {p : UInt8} (h : f i = FRAME_EMPTY)
    (hp : p ≠ FRAME_EMPTY) : occupied (update f i p) = occupied f + 1 := by
  have hset : (univ.filter fun j => update f i p j ≠ FRAME_EMPTY)
      = insert i (univ.filter fun j => f j ≠ FRAME_EMPTY) := by
    ext j
    rw [mem_insert, mem_filter, mem_filter]
    by_cases hj : j = i
    · subst hj
      simp [hp]
    · simp [hj]
  rw [occupied, hset, card_insert_of_notMem (by simp [h])]
  rfl

theorem occupied_replace {f : Fin N → UInt8} {i : Fin N} {p : UInt8} (h : f i ≠ FRAME_EMPTY)
    (hp : p ≠ FRAME_EMPTY) : occupied (update f i p) = occupied f := by
  unfold occupied
  congr 1
  ext j
  by_cases hj : j = i
  · subst hj
    simp [h, hp]
  · simp [hj]

/-- A page that was nowhere keeps the pages distinct wherever it is put. -/
theorem Distinct.update {f : Fin N → UInt8} (h : Distinct f) {i : Fin N} {p : UInt8}
    (habsent : ∀ j, f j ≠ p) : Distinct (update f i p) := by
  -- two frames other than `i` hold what they held, and `i` holds what no other frame does
  intro a b ha hab
  by_cases hai : a = i
  · by_cases hbi : b = i
    · rw [hai, hbi]
    · rw [hai, update_self, update_of_ne hbi] at hab
      exact absurd hab.symm (habsent b)
  · rw [update_of_ne hai] at ha hab
    by_cases hbi : b = i
    · rw [hbi, update_self] at hab
      exact absurd hab (habsent a)
    · rw [update_of_ne hbi] at hab
      exact h a b ha hab

theorem card_resident {f : Fin N → UInt8} (h : Distinct f) : (resident f).card = occupied f := by
  have himage : resident f = (univ.filter fun i => f i ≠ FRAME_EMPTY).image f := by
    ext p
    rw [mem_resident, mem_image]
    constructor
    · rintro ⟨hp, i, rfl⟩
      exact ⟨i, mem_filter.mpr ⟨mem_univ i, hp⟩, rfl⟩
    · rintro ⟨i, hi, rfl⟩
      exact ⟨(mem_filter.mp hi).2, i, rfl⟩
  rw [himage, occupied, card_image_of_injOn]
  intro i hi j _ hij
  exact h i j (mem_filter.mp hi).2 hij

/-! ### The replacement machine -/

/-- One access to the frames, by any policy. -/
inductive FrameStep (page : UInt8) (f : Fin N → UInt8) :
    AccessResult → (Fin N → UInt8) → Prop where
  | hit (i : Fin N) (h : f i = page) :
    FrameStep page f ⟨1, FRAME_EMPTY, page, .ofNat i⟩ f
  | fill (i : Fin N) (absent : ∀ j, f j ≠ page) (h : f i = FRAME_EMPTY) :
    FrameStep page f ⟨0, FRAME_EMPTY, page, .ofNat i⟩ (update f i page)
  | evict (i : Fin N) (absent : ∀ j, f j ≠ page) (full : ∀ j, f j ≠ FRAME_EMPTY) :
    FrameStep page f ⟨0, f i, page, .ofNat i⟩ (update f i page)

namespace FrameStep

private theorem miss_ne_hit : (0 : UInt8) ≠ 1 := by decide

variable {page : UInt8} {f f' : Fin N → UInt8} {r : AccessResult}

theorem hit_eq (h : FrameStep page f r f') : r.hit = 1 ∨ r.hit = 0 := by
  cases h with
  | hit => exact Or.inl rfl
  | fill => exact Or.inr rfl
  | evict => exact Or.inr rfl

theorem hit_iff (h : FrameStep page f r f') : r.hit = 1 ↔ ∃ i, f i = page := by
  cases h with
  | hit i h => exact ⟨fun _ => ⟨i, h⟩, fun _ => rfl⟩
  | fill i absent h => exact ⟨fun h => absurd h miss_ne_hit, fun ⟨j, hj⟩ => absurd hj (absent j)⟩
  | evict i absent full =>
    exact ⟨fun h => absurd h miss_ne_hit, fun ⟨j, hj⟩ => absurd hj (absent j)⟩

/-- No page is loaded but the one accessed. -/
theorem mem (h : FrameStep page f r f') {p : UInt8} (hp : ∃ i, f' i = p) :
    p = page ∨ ∃ i, f i = p := by
  have hupdate (i : Fin N) (hp : ∃ j, update f i page j = p) : p = page ∨ ∃ j, f j = p := by
    obtain ⟨j, rfl⟩ := hp
    by_cases hji : j = i
    · rw [hji, update_self]
      exact Or.inl rfl
    · rw [update_of_ne hji]
      exact Or.inr ⟨j, rfl⟩
  cases h with
  | hit => exact Or.inr hp
  | fill i absent h => exact hupdate i hp
  | evict i absent full => exact hupdate i hp

theorem distinct (h : FrameStep page f r f') (hf : Distinct f) : Distinct f' := by
  cases h with
  | hit => exact hf
  | fill i absent h => exact hf.update absent
  | evict i absent full => exact hf.update absent

/-- The frame the result names holds the page, and every other frame is as before. -/
theorem loaded (hN : N ≤ 256) (h : FrameStep page f r f') :
    ∃ i : Fin N, r.frameIdx.toNat = i ∧ f' i = page ∧ ∀ j, j ≠ i → f' j = f j := by
  have hidx (i : Fin N) : (UInt8.ofNat i).toNat = i := by
    rw [UInt8.toNat_ofNat']
    exact Nat.mod_eq_of_lt (lt_of_lt_of_le i.isLt hN)
  cases h with
  | hit i h => exact ⟨i, hidx i, h, fun _ _ => rfl⟩
  | fill i absent h => exact ⟨i, hidx i, update_self .., fun j hj => update_of_ne hj ..⟩
  | evict i absent full => exact ⟨i, hidx i, update_self .., fun j hj => update_of_ne hj ..⟩

theorem loaded_eq (h : FrameStep page f r f') : r.loaded = page := by
  cases h with
  | hit | fill | evict => rfl

theorem frames_eq_of_hit (h : FrameStep page f r f') (hr : r.hit = 1) : f' = f := by
  cases h with
  | hit => rfl
  | fill => exact absurd hr miss_ne_hit
  | evict => exact absurd hr miss_ne_hit

/-- On a miss the result reports what the frame held, which is `FRAME_EMPTY` exactly when some
frame was empty. -/
theorem evicted (hN : N ≤ 256) (h : FrameStep page f r f') (hr : r.hit = 0) :
    (∃ i : Fin N, r.frameIdx.toNat = i ∧ r.evicted = f i) ∧
      (r.evicted = FRAME_EMPTY ↔ ∃ i, f i = FRAME_EMPTY) := by
  have hidx (i : Fin N) : (UInt8.ofNat i).toNat = i := by
    rw [UInt8.toNat_ofNat']
    exact Nat.mod_eq_of_lt (lt_of_lt_of_le i.isLt hN)
  cases h with
  | hit => exact absurd hr.symm miss_ne_hit
  | fill i absent h => exact ⟨⟨i, hidx i, h.symm⟩, fun _ => ⟨i, h⟩, fun _ => rfl⟩
  | evict i absent full =>
    exact ⟨⟨i, hidx i, rfl⟩, fun h => absurd h (full i), fun ⟨j, hj⟩ => absurd hj (full j)⟩

theorem occupied_eq (hp : page ≠ FRAME_EMPTY) (h : FrameStep page f r f') :
    occupied f' = if r.hit = 1 then occupied f else min N (occupied f + 1) := by
  cases h with
  | hit => rfl
  | fill i absent h =>
    have hlt := occupied_lt_of_empty h
    rw [occupied_fill h hp, if_neg miss_ne_hit, min_eq_right hlt]
  | evict i absent full =>
    rw [occupied_replace (full i) hp, occupied_eq_of_full full, if_neg miss_ne_hit]
    omega

/-- The pages in the frames after an access. -/
theorem resident_eq (hp : page ≠ FRAME_EMPTY) (hf : Distinct f) (h : FrameStep page f r f') :
    (page ∈ resident f ∧ r.hit = 1 ∧ resident f' = resident f) ∨
    (page ∉ resident f ∧ r.hit = 0 ∧ occupied f < N ∧ resident f' = insert page (resident f)) ∨
    (page ∉ resident f ∧ r.hit = 0 ∧ occupied f = N ∧ r.evicted ∈ resident f ∧
      resident f' = insert page ((resident f).erase r.evicted)) := by
  cases h with
  | hit i h => exact Or.inl ⟨mem_resident.mpr ⟨hp, i, h⟩, rfl, rfl⟩
  | fill i absent h =>
    refine Or.inr (Or.inl ⟨fun hm => ?_, rfl, occupied_lt_of_empty h, ?_⟩)
    · obtain ⟨-, j, hj⟩ := mem_resident.mp hm
      exact absent j hj
    · ext q
      rw [mem_insert, mem_resident, mem_resident]
      constructor
      · rintro ⟨hq, j, hj⟩
        by_cases hji : j = i
        · rw [hji, update_self] at hj
          exact Or.inl hj.symm
        · rw [update_of_ne hji] at hj
          exact Or.inr ⟨hq, j, hj⟩
      · rintro (rfl | ⟨hq, j, hj⟩)
        · exact ⟨hp, i, update_self ..⟩
        · have hji : j ≠ i := by
            rintro rfl
            exact hq (hj ▸ h)
          exact ⟨hq, j, by rw [update_of_ne hji, hj]⟩
  | evict i absent full =>
    refine Or.inr (Or.inr ⟨fun hm => ?_, rfl, occupied_eq_of_full full,
      mem_resident.mpr ⟨full i, i, rfl⟩, ?_⟩)
    · obtain ⟨-, j, hj⟩ := mem_resident.mp hm
      exact absent j hj
    · ext q
      rw [mem_insert, mem_erase, mem_resident, mem_resident]
      constructor
      · rintro ⟨hq, j, hj⟩
        by_cases hji : j = i
        · rw [hji, update_self] at hj
          exact Or.inl hj.symm
        · rw [update_of_ne hji] at hj
          exact Or.inr ⟨fun h => hji (hf j i (full j) (hj.trans h)), hq, j, hj⟩
      · rintro (rfl | ⟨hne, hq, j, hj⟩)
        · exact ⟨hp, i, update_self ..⟩
        · have hji : j ≠ i := by
            rintro rfl
            exact hne hj.symm
          exact ⟨hq, j, by rw [update_of_ne hji, hj]⟩

end FrameStep

/-! ### What the code computes on the array -/

theorem getFrame_fin (f : Fin N → UInt8) (i : Fin N) : getFrame f (i : ℕ) = .ok (f i) := by
  unfold getFrame
  rw [dif_pos ⟨Int.natCast_nonneg _, by simp⟩]
  rfl

theorem setFrame_fin (f : Fin N → UInt8) (i : Fin N) (p : UInt8) :
    setFrame f (i : ℕ) p = .ok (update f i p) := by
  unfold setFrame
  rw [dif_pos ⟨Int.natCast_nonneg _, by simp⟩]
  rfl

/-- `find_page` returns the index of a frame with the page, or `-1` when there is none. -/
theorem findPage_spec (hN : N ≤ 128) (f : Fin N → UInt8) (page : UInt8) :
    (∃ i : Fin N, f i = page ∧ findPage f page = (i : ℕ)) ∨
    ((∀ i, f i ≠ page) ∧ findPage f page = -1) := by
  unfold findPage
  cases h : (List.finRange N).find? fun i => f i == page with
  | none =>
    refine Or.inr ⟨fun i => ?_, rfl⟩
    have hi := List.find?_eq_none.mp h i (List.mem_finRange i)
    simpa using hi
  | some i =>
    have hi := List.find?_some h
    refine Or.inl ⟨i, by simpa using hi, ?_⟩
    exact int8_of_lt (Int.natCast_nonneg _) (by have := i.isLt; omega)

/-- `find_empty` is `find_page` of the empty-frame marker. -/
theorem findEmpty_spec (hN : N ≤ 128) (f : Fin N → UInt8) :
    (∃ i : Fin N, f i = FRAME_EMPTY ∧ findEmpty f = (i : ℕ)) ∨
    ((∀ i, f i ≠ FRAME_EMPTY) ∧ findEmpty f = -1) :=
  findPage_spec hN f FRAME_EMPTY

/-- `find_page` returns the first frame with the page, narrowed to `int8_t`. -/
theorem findPage_first {f : Fin N → UInt8} {page : UInt8} {i : Fin N} (hi : f i = page)
    (hmin : ∀ j < i, f j ≠ page) : findPage f page = int8 (i : ℕ) := by
  have hfind : (List.finRange N).find? (fun i => f i == page) = some i := by
    rw [List.find?_eq_some_iff_getElem]
    -- frames are searched in the order of their indices
    refine ⟨by simpa using hi, i, by simp, by simp, fun j hj => ?_⟩
    simpa using hmin ⟨j, by omega⟩ hj
  rw [findPage, hfind]

/-- With at most 255 frames the not-found value is not the index of a frame, although indices from
128 on come out negative. -/
theorem findPage_ne_iff (hN : N ≤ 255) {f : Fin N → UInt8} {page : UInt8} :
    findPage f page ≠ -1 ↔ ∃ i, f i = page := by
  unfold findPage
  cases h : (List.finRange N).find? fun i => f i == page with
  | none =>
    refine ⟨fun hne => absurd rfl hne, fun ⟨i, hi⟩ => ?_⟩
    have hi' := List.find?_eq_none.mp h i (List.mem_finRange i)
    rw [hi, beq_self_eq_true] at hi'
    exact absurd rfl hi'
  | some i =>
    have hi := List.find?_some h
    have hlt := i.isLt
    refine ⟨fun _ => ⟨i, by simpa using hi⟩, fun _ => ?_⟩
    rcases Nat.lt_or_ge (i : ℕ) 128 with h128 | h128
    · have hval := int8_of_lt (Int.natCast_nonneg (i : ℕ)) (by omega)
      simp only [hval]
      omega
    · -- narrowed to a negative number, which is not -1 below 255
      have hval := int8_of_ge (x := (i : ℕ)) (by omega) (by omega)
      simp only [hval]
      omega

/-- The index `find_page` returns, as the `uint8_t` it is stored in. -/
theorem ofInt_fin (i : Fin N) : UInt8.ofInt (i : ℕ) = UInt8.ofNat i := by
  unfold UInt8.ofInt
  apply UInt8.toNat_inj.mp
  rw [UInt8.toNat_ofNat', UInt8.toNat_ofNat']
  omega

theorem fin_ne_neg_one (i : Fin N) : ((i : ℕ) : ℤ) ≠ -1 := by omega

end OsLabs.PageReplace
