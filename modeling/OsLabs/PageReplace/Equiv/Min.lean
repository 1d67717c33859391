import OsLabs.Lib.Paging
import OsLabs.PageReplace.Equiv.Run

/-!
# MIN refines the replacement machine, and its victim is needed last

The victim search of `scheduler_min` scans the frames for the largest key, and among equal keys
for the smallest page (`IsVictim`, `foldl_victimStep`).  It always names a frame, so MIN is a
`Refinement` for any reference sequence.

For sequences of at most `MAX_QUERY` references the key orders the pages by their next use, with
`30000` for a page that is not used again (`minKey_lt_iff`); so a page needed by some deadline is
chosen only when all resident pages are (`schedulerMin_victim`).
-/

namespace OsLabs.PageReplace

open Function Paging

variable {N : ℕ}

/-! ### The victim search -/

/-- The victim after the frames in `l`, of frames with contents `f` and keys `key`: still frame 0
with key `-1`, or one of `l`; and no frame of `l` has a larger key, or the same key and a smaller
page. -/
structure IsVictim (f : Fin N → UInt8) (key : Fin N → ℤ) (l : List (Fin N)) (v : Victim) :
    Prop where
  chosen : (v.fi = 0 ∧ v.farthest = -1) ∨
    ∃ i ∈ l, v.fi = int8 (i : ℕ) ∧ v.farthest = key i ∧ v.page = f i
  best : ∀ i ∈ l, key i < v.farthest ∨ (key i = v.farthest ∧ v.page ≤ f i)

theorem IsVictim.step {f : Fin N → UInt8} {refSeq : List UInt8} {step : UInt16}
    {l : List (Fin N)} {v : Victim}
    (h : IsVictim f (fun i => minKey refSeq step (f i)) l v) (i : Fin N) :
    IsVictim f (fun i => minKey refSeq step (f i)) (l ++ [i]) (victimStep f refSeq step v i) := by
  unfold victimStep
  simp only
  by_cases hi : minKey refSeq step (f i) > v.farthest ∨
      (minKey refSeq step (f i) = v.farthest ∧ f i < v.page)
  · rw [if_pos hi]
    refine ⟨Or.inr ⟨i, by simp, by dsimp only, by dsimp only, by dsimp only⟩, ?_⟩
    intro j hj
    rcases List.mem_append.mp hj with hj | hj
    · -- `j` lost to `v`, and `v` loses to `i`
      rcases h.best j hj with hlt | ⟨heq, hle⟩
      · rcases hi with hi | ⟨hi, -⟩
        · exact Or.inl (lt_trans hlt hi)
        · exact Or.inl (hi.symm ▸ hlt)
      · rcases hi with hi | ⟨hi, hpage⟩
        · exact Or.inl (lt_of_eq_of_lt heq hi)
        · exact Or.inr ⟨heq.trans hi.symm, UInt8.le_trans (UInt8.le_of_lt hpage) hle⟩
    · rw [List.mem_singleton] at hj
      rw [hj]
      exact Or.inr ⟨by dsimp only, UInt8.le_refl _⟩
  · -- `v` stays, and is at least as good as `i`
    rw [if_neg hi]
    push Not at hi
    refine ⟨?_, ?_⟩
    · rcases h.chosen with hc | ⟨j, hj, hc⟩
      · exact Or.inl hc
      · exact Or.inr ⟨j, List.mem_append_left _ hj, hc⟩
    · intro j hj
      rcases List.mem_append.mp hj with hj | hj
      · exact h.best j hj
      · rw [List.mem_singleton] at hj
        rw [hj]
        rcases lt_or_eq_of_le hi.1 with hlt | heq
        · exact Or.inl hlt
        · exact Or.inr ⟨heq, UInt8.not_lt.mp (hi.2 heq)⟩

theorem foldl_victimStep {f : Fin N → UInt8} {refSeq : List UInt8} {step : UInt16}
    (l l' : List (Fin N)) {v : Victim}
    (h : IsVictim f (fun i => minKey refSeq step (f i)) l' v) :
    IsVictim f (fun i => minKey refSeq step (f i)) (l' ++ l)
      (l.foldl (victimStep f refSeq step) v) := by
  induction l generalizing l' v with
  | nil => simpa using h
  | cons i l ih =>
    have hstep := ih (l' ++ [i]) (h.step i)
    rwa [List.append_assoc, List.singleton_append] at hstep

theorem isVictim_minVictim (f : Fin N → UInt8) (refSeq : List UInt8) (step : UInt16) (p : UInt8) :
    IsVictim f (fun i => minKey refSeq step (f i)) (List.finRange N)
      (minVictim f refSeq step p) := by
  have h0 : IsVictim f (fun i => minKey refSeq step (f i)) []
      { fi := 0, farthest := -1, page := p } := ⟨Or.inl ⟨rfl, rfl⟩, by simp⟩
  have h := foldl_victimStep (List.finRange N) [] h0
  rwa [List.nil_append] at h

/-- The victim is always the index of a frame. -/
theorem minVictim_fi (hN : 1 ≤ N) (hN' : N ≤ 128) (f : Fin N → UInt8) (refSeq : List UInt8)
    (step : UInt16) (p : UInt8) : ∃ i : Fin N, (minVictim f refSeq step p).fi = (i : ℕ) := by
  rcases (isVictim_minVictim f refSeq step p).chosen with ⟨h, -⟩ | ⟨i, -, h, -⟩
  · exact ⟨⟨0, hN⟩, h⟩
  · have := i.isLt
    exact ⟨i, h.trans (int8_of_lt (Int.natCast_nonneg _) (by omega))⟩

/-- With non-negative keys the victim has the largest key, and the smallest page among those
with that key. -/
theorem minVictim_best (hN' : N ≤ 128) {f : Fin N → UInt8} {refSeq : List UInt8} {step : UInt16}
    {p : UInt8} (hkey : ∀ i, 0 ≤ minKey refSeq step (f i)) {i : Fin N}
    (hi : (minVictim f refSeq step p).fi = (i : ℕ)) (a : Fin N) :
    minKey refSeq step (f a) < minKey refSeq step (f i) ∨
      (minKey refSeq step (f a) = minKey refSeq step (f i) ∧ f i ≤ f a) := by
  have hv := isVictim_minVictim f refSeq step p
  have ha := hv.best a (List.mem_finRange a)
  rcases hv.chosen with ⟨-, hfar⟩ | ⟨j, -, hfi, hfar, hpage⟩
  · -- some key was seen and it is not below `-1`
    have := hkey a
    omega
  · have hj := j.isLt
    rw [int8_of_lt (Int.natCast_nonneg _) (by omega), hi] at hfi
    obtain rfl : i = j := Fin.ext (by exact_mod_cast hfi)
    rwa [hfar, hpage] at ha

/-! ### The step -/

theorem schedulerMin_hit {s : State N} {page : UInt8} {i : Fin N}
    (hidx : findPage s.frames page = (i : ℕ)) (step : UInt16) :
    schedulerMin s page step
      = .ok (⟨1, FRAME_EMPTY, page, .ofNat i⟩, { s with hits := s.hits + 1 }) := by
  unfold schedulerMin
  simp only [hidx, ne_eq, fin_ne_neg_one, not_false_eq_true, if_true, ofInt_fin]

theorem schedulerMin_fill {s : State N} {page : UInt8} {i : Fin N}
    (hidx : findPage s.frames page = -1) (hfree : findEmpty s.frames = (i : ℕ)) (step : UInt16) :
    schedulerMin s page step
      = .ok (⟨0, FRAME_EMPTY, page, .ofNat i⟩,
          { s with misses := s.misses + 1, frames := update s.frames i page }) := by
  unfold schedulerMin
  simp only [hidx, hfree, ne_eq, not_true, if_false, fin_ne_neg_one, not_false_eq_true, if_true,
    setFrame_fin, ofInt_fin]
  rfl

theorem schedulerMin_evict (hN : 1 ≤ N) {s : State N} {page : UInt8} {i : Fin N}
    (hidx : findPage s.frames page = -1) (hfree : findEmpty s.frames = -1) (step : UInt16)
    (hi : (minVictim s.frames s.refSeq step (s.frames ⟨0, hN⟩)).fi = (i : ℕ)) :
    schedulerMin s page step
      = .ok (⟨0, s.frames i, page, .ofNat i⟩,
          { s with misses := s.misses + 1, frames := update s.frames i page }) := by
  have h0 : getFrame s.frames 0 = .ok (s.frames ⟨0, hN⟩) := getFrame_fin s.frames ⟨0, hN⟩
  unfold schedulerMin
  simp only [hidx, hfree, ne_eq, not_true, if_false, h0, bind, Except.bind, hi, getFrame_fin,
    setFrame_fin, ofInt_fin]
  rfl

/-- What a miss on a full memory drops is what the victim search settled on. -/
theorem schedulerMin_evicted (hN : 1 ≤ N) (hN' : N ≤ 128) {s s' : State N} {page : UInt8}
    {r : AccessResult} {step : UInt16} (habsent : ∀ i, s.frames i ≠ page)
    (hfull : ∀ i, s.frames i ≠ FRAME_EMPTY) (hfn : schedulerMin s page step = .ok (r, s')) :
    ∃ i : Fin N, (minVictim s.frames s.refSeq step (s.frames ⟨0, hN⟩)).fi = (i : ℕ) ∧
      r.evicted = s.frames i := by
  have hidx : findPage s.frames page = -1 :=
    ((findPage_spec hN' s.frames page).resolve_left fun ⟨i, hi, _⟩ => habsent i hi).2
  have hfree : findEmpty s.frames = -1 :=
    ((findEmpty_spec hN' s.frames).resolve_left fun ⟨i, hi, _⟩ => hfull i hi).2
  obtain ⟨i, hi⟩ := minVictim_fi hN hN' s.frames s.refSeq step (s.frames ⟨0, hN⟩)
  rw [schedulerMin_evict hN hidx hfree step hi] at hfn
  obtain ⟨rfl, -⟩ := Prod.mk.inj (Except.ok.inj hfn)
  exact ⟨i, hi, rfl⟩

/-- MIN needs no invariant of its own. -/
def minRefinement (hN : 1 ≤ N) (hN' : N ≤ 128) : Refinement (schedulerMin (N := N)) where
  Inv _ := True
  reset _ := trivial
  step {s page} step _ _ := by
    rcases findPage_spec hN' s.frames page with ⟨i, hi, hidx⟩ | ⟨habsent, hidx⟩
    · exact ⟨_, _, schedulerMin_hit hidx step, ⟨.hit i hi, rfl, rfl, rfl⟩, trivial⟩
    rcases findEmpty_spec hN' s.frames with ⟨i, hi, hfree⟩ | ⟨hfull, hfree⟩
    · exact ⟨_, _, schedulerMin_fill hidx hfree step, ⟨.fill i habsent hi, rfl, rfl, rfl⟩, trivial⟩
    · obtain ⟨i, hi⟩ := minVictim_fi hN hN' s.frames s.refSeq step (s.frames ⟨0, hN⟩)
      exact ⟨_, _, schedulerMin_evict hN hidx hfree step hi,
        ⟨.evict i habsent hfull, rfl, rfl, rfl⟩, trivial⟩

/-! ### The key and the next use -/

/-- For a sequence that fits `MAX_QUERY`, the key of a page is below a deadline exactly when the
page is referenced between the current step and the deadline. -/
theorem minKey_lt_iff {refSeq : List UInt8} (hlen : refSeq.length ≤ 1024) {k u : ℕ}
    (hk : k < refSeq.length) (hu : u ≤ refSeq.length) (p : UInt8) :
    minKey refSeq (UInt16.ofNat k) p < u ↔
      p ∈ usedIn (fun t => refSeq.getD t 0) (k + 1) u := by
  have hj : ((UInt16.ofNat k).toNat + 1) % 65536 = k + 1 := by
    rw [UInt16.toNat_ofNat']
    omega
  rw [mem_usedIn]
  unfold minKey nextUse
  simp only [hj]
  cases hf : (refSeq.drop (k + 1)).findIdx? (fun q => q == p) with
  | none =>
    have hnone := List.findIdx?_eq_none_iff.mp hf
    simp only [if_true]
    refine ⟨fun h => by omega, ?_⟩
    rintro ⟨j, hkj, hju, hjp⟩
    have hj' : j < refSeq.length := by omega
    have hmem : refSeq[j] ∈ refSeq.drop (k + 1) :=
      List.mem_drop_iff_getElem.mpr ⟨j - (k + 1), by omega, by congr 1; omega⟩
    rw [List.getD_eq_getElem _ _ hj'] at hjp
    simpa [hjp] using hnone _ hmem
  | some d =>
    obtain ⟨hd, hdp, hmin⟩ := List.findIdx?_eq_some_iff_getElem.mp hf
    rw [List.length_drop] at hd
    have hcast : ((k + 1 : ℕ) : ℤ) + (d : ℤ) = ((k + 1 + d : ℕ) : ℤ) := by push_cast; ring
    have h16 : int16 (((k + 1 : ℕ) : ℤ) + d) = ((k + 1 + d : ℕ) : ℤ) := by
      rw [hcast]
      exact int16_of_lt (Int.natCast_nonneg _) (by omega)
    simp only [h16]
    rw [if_neg (by omega)]
    constructor
    · intro h
      refine ⟨k + 1 + d, by omega, by exact_mod_cast h, ?_⟩
      rw [List.getD_eq_getElem _ _ (by omega)]
      rw [List.getElem_drop] at hdp
      simpa using hdp
    · rintro ⟨j, hkj, hju, hjp⟩
      have hj' : j < refSeq.length := by omega
      -- no use before the first one found
      have hdj : d ≤ j - (k + 1) := by
        by_contra hlt
        have hne := hmin (j - (k + 1)) (by omega)
        rw [List.getElem_drop] at hne
        have hidx : k + 1 + (j - (k + 1)) = j := by omega
        rw [List.getD_eq_getElem _ _ hj'] at hjp
        simp only [hidx, hjp, beq_self_eq_true, not_true_eq_false] at hne
      push_cast
      omega

theorem minKey_nonneg {refSeq : List UInt8} (hlen : refSeq.length ≤ 1024) {k : ℕ}
    (hk : k < refSeq.length) (p : UInt8) : 0 ≤ minKey refSeq (UInt16.ofNat k) p := by
  by_contra hneg
  have h0 := (minKey_lt_iff hlen hk (Nat.zero_le _) p).mp (by push_cast; omega)
  obtain ⟨j, -, hj, -⟩ := mem_usedIn.mp h0
  omega

/-- If the victim of step `k` is needed by some deadline, so is every resident page. -/
theorem minVictim_farthest (hN' : N ≤ 128) {f : Fin N → UInt8} {refSeq : List UInt8}
    (hlen : refSeq.length ≤ 1024) {k : ℕ} (hk : k < refSeq.length) {p : UInt8} {i : Fin N}
    (hi : (minVictim f refSeq (UInt16.ofNat k) p).fi = (i : ℕ)) {u : ℕ} (hu : u ≤ refSeq.length)
    (hused : f i ∈ usedIn (fun t => refSeq.getD t 0) (k + 1) u) (a : Fin N) :
    f a ∈ usedIn (fun t => refSeq.getD t 0) (k + 1) u := by
  have hkey := fun j => minKey_nonneg hlen hk (f j)
  have hbest := minVictim_best hN' hkey hi a
  rw [← minKey_lt_iff hlen hk hu] at hused ⊢
  rcases hbest with hlt | ⟨heq, -⟩
  · exact lt_trans hlt hused
  · exact lt_of_eq_of_lt heq hused

end OsLabs.PageReplace
