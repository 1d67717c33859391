import OsLabs.PageReplace.Equiv.AnyPage
import OsLabs.PageReplace.Main

/-!
# From page numbers to hits and misses

The parsers accept any number that is not negative and store its low byte, and the policies
compare bytes.  A page that is found was therefore referenced before, but maybe under another
number with the same low byte; and FIFO and MIN, which search `frames[]`, find `FRAME_EMPTY` in any
empty frame.  `Aliased` collects the two ways to find a page by mistake, and `page_identity_iff`
says that the first references are the misses they should be exactly if none of them is aliased.
-/

namespace OsLabs.PageReplace

variable {N : ℕ}

/-! ### What a run counts -/

/-- Reference `k` is counted as a miss. -/
def CountsMiss (policy : Policy) (s₀ : State N) (query : List UInt8) (k : ℕ) : Prop :=
  ∃ s rs s' rs', runSteps policy.algo s₀ query k = .ok (s, rs) ∧
    runSteps policy.algo s₀ query (k + 1) = .ok (s', rs') ∧
    s'.hits = s.hits ∧ s'.misses = s.misses + 1

/-- Reference `k` is counted as a hit. -/
def CountsHit (policy : Policy) (s₀ : State N) (query : List UInt8) (k : ℕ) : Prop :=
  ∃ s rs s' rs', runSteps policy.algo s₀ query k = .ok (s, rs) ∧
    runSteps policy.algo s₀ query (k + 1) = .ok (s', rs') ∧
    s'.hits = s.hits + 1 ∧ s'.misses = s.misses

/-- Reference `k` is the first one to its page number. -/
def FirstReference (numbers : List ℤ) (k : ℕ) : Prop :=
  ∀ j < k, numbers.getD j 0 ≠ numbers.getD k 0

instance (numbers : List ℤ) (k : ℕ) : Decidable (FirstReference numbers k) :=
  inferInstanceAs (Decidable (∀ j < k, _))

/-- The counters speak of the page numbers: the first reference to each is a miss, and a hit is a
reference to a number referenced earlier. -/
structure PageIdentity (policy : Policy) (s₀ : State N) (numbers : List ℤ)
    (query : List UInt8) : Prop where
  first : ∀ k < numbers.length, FirstReference numbers k → CountsMiss policy s₀ query k
  hit : ∀ k < numbers.length, CountsHit policy s₀ query k →
    ∃ j < k, numbers.getD j 0 = numbers.getD k 0

/-- Page number `k` is found by mistake: as an earlier number with the same low byte that can
still be found, or, when `frames[]` is searched, as the marker of an empty frame. -/
def Aliased (policy : Policy) (numbers : List ℤ) (k : ℕ) (s : State N) : Prop :=
  (Finds policy s (narrow (numbers.getD k 0)) ∧
    ∃ j < k, narrow (numbers.getD j 0) = narrow (numbers.getD k 0)) ∨
  (policy.listBased = false ∧ narrow (numbers.getD k 0) = FRAME_EMPTY ∧ findEmpty s.frames ≠ -1)

theorem finds_array {policy : Policy} (hl : policy.listBased = false) {s : State N} {p : UInt8} :
    Finds policy s p ↔ ∃ i, s.frames i = p := by
  unfold Finds
  rw [hl]
  rfl

/-- After `scheduler_reset` only the marker can be found. -/
theorem finds_reset {policy : Policy} {s : State N} {p : UInt8}
    (h : Finds policy (schedulerReset s) p) : policy.listBased = false ∧ p = FRAME_EMPTY := by
  cases policy with
  | fifo =>
    obtain ⟨i, hi⟩ := h
    exact ⟨rfl, hi.symm⟩
  | min =>
    obtain ⟨i, hi⟩ := h
    exact ⟨rfl, hi.symm⟩
  | lru =>
    obtain ⟨fi, hfi⟩ := h
    exact absurd hfi List.not_mem_nil
  | secondChance =>
    obtain ⟨fi, hfi⟩ := h
    exact absurd hfi List.not_mem_nil

section Run

variable {policy : Policy} (T : Total policy N) (s₀ : State N) (query : List UInt8)

include T

/-- Step `k` of a run, with what it counts. -/
theorem Total.run_step (k : ℕ) : ∃ s rs r s',
    runSteps policy.algo s₀ query k = .ok (s, rs) ∧
    runSteps policy.algo s₀ query (k + 1) = .ok (s', rs ++ [r]) ∧
    Counted policy (query.getD k 0) s r s' := by
  obtain ⟨s, rs, hrun, hinv⟩ := T.run s₀ query k
  obtain ⟨r, s', hfn, hcounted, -⟩ := T.step (query.getD k 0) (UInt16.ofNat k) hinv
  exact ⟨s, rs, r, s', hrun, runSteps_succ_of_ok hrun hfn, hcounted⟩

/-- What is found was referenced earlier, or is the marker. -/
theorem Total.finds_earlier {k : ℕ} {s : State N} {rs : List AccessResult}
    (hrun : runSteps policy.algo s₀ query k = .ok (s, rs)) {p : UInt8} (hp : Finds policy s p) :
    (∃ j < k, query.getD j 0 = p) ∨ (policy.listBased = false ∧ p = FRAME_EMPTY) := by
  induction k generalizing s rs with
  | zero =>
    obtain ⟨rfl, -⟩ := Prod.mk.inj (Except.ok.inj hrun)
    exact Or.inr (finds_reset hp)
  | succ k ih =>
    obtain ⟨s₁, rs₁, r, s', hrun₁, hrun', hcounted⟩ := T.run_step s₀ query k
    obtain ⟨rfl, -⟩ := Prod.mk.inj (Except.ok.inj (hrun'.symm.trans hrun))
    -- a step makes only its own page one that is found
    rcases hcounted.finds p hp with rfl | hp
    · exact Or.inl ⟨k, Nat.lt_succ_self k, rfl⟩
    · refine (ih hrun₁ hp).imp_left ?_
      rintro ⟨j, hj, hjp⟩
      exact ⟨j, hj.trans (Nat.lt_succ_self k), hjp⟩

theorem Total.countsMiss_iff {k : ℕ} {s : State N} {rs : List AccessResult}
    (hrun : runSteps policy.algo s₀ query k = .ok (s, rs)) :
    CountsMiss policy s₀ query k ↔ ¬ Finds policy s (query.getD k 0) := by
  obtain ⟨s₁, rs₁, r, s', hrun₁, hrun', hcounted⟩ := T.run_step s₀ query k
  obtain ⟨rfl, -⟩ := Prod.mk.inj (Except.ok.inj (hrun₁.symm.trans hrun))
  constructor
  · rintro ⟨s₂, rs₂, s₃, rs₃, hrun₂, hrun₃, hhits, -⟩ hfound
    obtain ⟨rfl, -⟩ := Prod.mk.inj (Except.ok.inj (hrun₂.symm.trans hrun))
    obtain ⟨rfl, -⟩ := Prod.mk.inj (Except.ok.inj (hrun₃.symm.trans hrun'))
    -- a found page is counted in `hits`
    rw [(hcounted.hit hfound).2.1] at hhits
    exact absurd hhits (by simp)
  · intro hfound
    exact ⟨_, _, _, _, hrun₁, hrun', (hcounted.miss hfound).2⟩

theorem Total.countsHit_iff {k : ℕ} {s : State N} {rs : List AccessResult}
    (hrun : runSteps policy.algo s₀ query k = .ok (s, rs)) :
    CountsHit policy s₀ query k ↔ Finds policy s (query.getD k 0) := by
  obtain ⟨s₁, rs₁, r, s', hrun₁, hrun', hcounted⟩ := T.run_step s₀ query k
  obtain ⟨rfl, -⟩ := Prod.mk.inj (Except.ok.inj (hrun₁.symm.trans hrun))
  constructor
  · rintro ⟨s₂, rs₂, s₃, rs₃, hrun₂, hrun₃, hhits, -⟩
    obtain ⟨rfl, -⟩ := Prod.mk.inj (Except.ok.inj (hrun₂.symm.trans hrun))
    obtain ⟨rfl, -⟩ := Prod.mk.inj (Except.ok.inj (hrun₃.symm.trans hrun'))
    by_contra hfound
    rw [(hcounted.miss hfound).2.1] at hhits
    exact absurd hhits (by simp)
  · intro hfound
    exact ⟨_, _, _, _, hrun₁, hrun', (hcounted.hit hfound).2⟩

end Run

/-! ### Page numbers and bytes -/

theorem getD_map_narrow {numbers : List ℤ} {k : ℕ} (hk : k < numbers.length) :
    (numbers.map narrow).getD k 0 = narrow (numbers.getD k 0) := by
  rw [List.getD_eq_getElem _ _ (by simpa using hk), List.getD_eq_getElem _ _ hk, List.getElem_map]

/-- `buf` holds the low bytes of the page numbers. -/
theorem Source.pages_eq {source : Source} {numbers : List ℤ}
    (h : source.numbers = .ok numbers) : source.pages = .ok (numbers.map narrow) := by
  cases source with
  | query tmp s =>
    show (queryNumbers tmp s >>= _) = _
    rw [show queryNumbers tmp s = .ok numbers from h]
    rfl
  | file f =>
    show (fileNumbers f >>= _) = _
    rw [show fileNumbers f = .ok numbers from h]
    rfl

section Identity

variable {policy : Policy} (T : Total policy N) (hN : N ≤ 128) (s₀ : State N) {numbers : List ℤ}

include T hN

/-- A first reference that is found is aliased, and conversely an aliased reference is found. -/
theorem Total.aliased_iff {k : ℕ} (hk : k < numbers.length) {s : State N}
    {rs : List AccessResult}
    (hrun : runSteps policy.algo s₀ (numbers.map narrow) k = .ok (s, rs)) :
    Aliased policy numbers k s ↔ Finds policy s ((numbers.map narrow).getD k 0) := by
  have hN255 : N ≤ 255 := by omega
  rw [getD_map_narrow hk]
  constructor
  · rintro (⟨hfound, -⟩ | ⟨hl, hp, hempty⟩)
    · exact hfound
    · rw [hp, finds_array hl]
      exact (findPage_ne_iff hN255).mp hempty
  · intro hfound
    rcases T.finds_earlier s₀ _ hrun hfound with ⟨j, hj, hjp⟩ | ⟨hl, hp⟩
    · rw [getD_map_narrow (hj.trans hk)] at hjp
      exact Or.inl ⟨hfound, j, hj, hjp⟩
    · refine Or.inr ⟨hl, hp, ?_⟩
      rw [hp, finds_array hl] at hfound
      exact (findPage_ne_iff hN255).mpr hfound

/-- Page identity holds when no first reference is aliased, and only then. -/
theorem Total.pageIdentity_iff :
    PageIdentity policy s₀ numbers (numbers.map narrow) ↔
      ∀ k < numbers.length, FirstReference numbers k → ∀ s rs,
        runSteps policy.algo s₀ (numbers.map narrow) k = .ok (s, rs) →
          ¬ Aliased policy numbers k s := by
  constructor
  · intro h k hk hfirst s rs hrun
    rw [T.aliased_iff hN s₀ hk hrun]
    exact (T.countsMiss_iff s₀ _ hrun).mp (h.first k hk hfirst)
  · intro h
    refine ⟨fun k hk hfirst => ?_, fun k hk hhit => ?_⟩
    · obtain ⟨s, rs, hrun, -⟩ := T.run s₀ (numbers.map narrow) k
      rw [T.countsMiss_iff s₀ _ hrun, ← T.aliased_iff hN s₀ hk hrun]
      exact h k hk hfirst s rs hrun
    · -- a hit on a number that was not referenced before would be an aliased first reference
      by_contra hnone
      push Not at hnone
      obtain ⟨s, rs, hrun, -⟩ := T.run s₀ (numbers.map narrow) k
      have hfound := (T.countsHit_iff s₀ _ hrun).mp hhit
      rw [← T.aliased_iff hN s₀ hk hrun] at hfound
      exact h k hk hnone s rs hrun hfound

end Identity

/-- Numbers whose low bytes are different, and are not the marker, are never aliased. -/
theorem not_aliased_of_injective {policy : Policy} {numbers : List ℤ} {k : ℕ}
    (hinj : ∀ v ∈ numbers, ∀ w ∈ numbers, narrow v = narrow w → v = w)
    (hmarker : ∀ v ∈ numbers, narrow v ≠ FRAME_EMPTY) (hk : k < numbers.length)
    (hfirst : FirstReference numbers k) (s : State N) : ¬ Aliased policy numbers k s := by
  have hmem {j : ℕ} (hj : j < numbers.length) : numbers.getD j 0 ∈ numbers := by
    rw [List.getD_eq_getElem _ _ hj]
    exact List.getElem_mem hj
  rintro (⟨-, j, hj, hjk⟩ | ⟨-, hp, -⟩)
  · exact hfirst j hj (hinj _ (hmem (hj.trans hk)) _ (hmem hk) hjk)
  · exact hmarker _ (hmem hk) hp

/-- **Page identity**: for every accepted reference sequence, 1 to 128 frames and each policy, the
first reference to each page number is counted as a miss and only repeated references are counted as
hits, if and only if no first reference is aliased when it is made. -/
theorem page_identity_iff (policy : Policy) (hN : 1 ≤ N) (hN' : N ≤ 128) (s₀ : State N)
    (source : Source) {numbers : List ℤ} (h : source.numbers = .ok numbers) :
    source.pages = .ok (numbers.map narrow) ∧
    (PageIdentity policy s₀ numbers (numbers.map narrow) ↔
      ∀ k < numbers.length, FirstReference numbers k → ∀ s rs,
        runSteps policy.algo s₀ (numbers.map narrow) k = .ok (s, rs) →
          ¬ Aliased policy numbers k s) ∧
    ((∀ v ∈ numbers, ∀ w ∈ numbers, narrow v = narrow w → v = w) →
      (∀ v ∈ numbers, narrow v ≠ FRAME_EMPTY) →
        PageIdentity policy s₀ numbers (numbers.map narrow)) := by
  have hiff : PageIdentity policy s₀ numbers (numbers.map narrow) ↔ _ :=
    (policy.total hN hN').pageIdentity_iff hN' s₀
  refine ⟨source.pages_eq h, hiff, fun hinj hmarker => ?_⟩
  rw [hiff]
  intro k hk hfirst s rs _
  exact not_aliased_of_injective hinj hmarker hk hfirst s

/-- The pages 7 and 0 with two frames. -/
theorem page_identity_iff_two : PageIdentity .lru (zeroMemory 2) [7, 0, 7] [7, 0, 7] :=
  (page_identity_iff .lru (by decide) (by decide) (zeroMemory 2)
    (.query (List.replicate 4096 'x') "7 0 7".toList) rfl).2.2 (by decide) (by decide)

theorem not_pageIdentity {policy : Policy} {s₀ : State N} {numbers : List ℤ} {query : List UInt8}
    {k : ℕ} {m : UInt32} (hk : k < numbers.length) (hfirst : FirstReference numbers k)
    (h : (runSteps policy.algo s₀ query k).map (·.1.misses) = .ok m)
    (h' : (runSteps policy.algo s₀ query (k + 1)).map (·.1.misses) = .ok m) :
    ¬ PageIdentity policy s₀ numbers query := by
  intro hid
  obtain ⟨s, rs, s', rs', hrun, hrun', -, hmisses⟩ := hid.first k hk hfirst
  rw [hrun] at h
  rw [hrun'] at h'
  have hm : s.misses = m := Except.ok.inj h
  have hm' : s'.misses = m := Except.ok.inj h'
  rw [hm, hm'] at hmisses
  exact absurd hmisses (by simp)

/-- The first reference to page 256 is a hit after page 0, with every policy, and so is the very
first reference, to page 255, with FIFO and MIN. -/
theorem page_identity_fails :
    (Source.query (List.replicate 4096 'x') "0 256".toList).numbers = .ok [0, 256] ∧
    ¬ PageIdentity .fifo (zeroMemory 3) [0, 256] [0, 0] ∧
    ¬ PageIdentity .min (zeroMemory 3) [0, 256] [0, 0] ∧
    ¬ PageIdentity .lru (zeroMemory 3) [0, 256] [0, 0] ∧
    ¬ PageIdentity .secondChance (zeroMemory 3) [0, 256] [0, 0] ∧
    (Source.query (List.replicate 4096 'x') "255".toList).numbers = .ok [255] ∧
    ¬ PageIdentity .fifo (zeroMemory 3) [255] [255] ∧
    ¬ PageIdentity .min (zeroMemory 3) [255] [255] := by
  have halias {policy : Policy}
      (h : (runSteps policy.algo (zeroMemory 3) [0, 0] 1).map (·.1.misses) = .ok 1)
      (h' : (runSteps policy.algo (zeroMemory 3) [0, 0] 2).map (·.1.misses) = .ok 1) :
      ¬ PageIdentity policy (zeroMemory 3) [0, 256] [0, 0] :=
    not_pageIdentity (k := 1) (by decide) (by decide) h h'
  have hmarker {policy : Policy}
      (h' : (runSteps policy.algo (zeroMemory 3) [255] 1).map (·.1.misses) = .ok 0) :
      ¬ PageIdentity policy (zeroMemory 3) [255] [255] :=
    not_pageIdentity (k := 0) (by decide) (by decide) rfl h'
  exact ⟨rfl, halias rfl rfl, halias rfl rfl, halias rfl rfl, halias rfl rfl, rfl, hmarker rfl,
    hmarker rfl⟩

end OsLabs.PageReplace
