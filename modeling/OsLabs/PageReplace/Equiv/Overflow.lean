import OsLabs.PageReplace.Equiv.AnyPage

/-!
# From 129 frames on, the index of an empty frame can wrap around

`find_empty` returns an `int8_t`, so the first empty frame is reported as `-128` once frames 0 to
127 are occupied.  With more than 128 frames no page is evicted before that happens: the frames are
filled in order with the distinct pages referenced so far, and every policy finds exactly those
pages again (`Filling`).  The first reference to one more page then writes `frames[-128]`
(`Overflows`, `runOne_of_overflows`), and `frames_subscripts_iff` says that nothing else goes
wrong.
-/

namespace OsLabs.PageReplace

open Function

variable {N : ℕ}

/-- The pages a policy finds at step `t` while nothing has been evicted: those referenced so far,
and the marker of an empty frame when it searches `frames[]`. -/
def known (policy : Policy) (query : List UInt8) (t : ℕ) : Finset UInt8 :=
  (query.take t).toFinset ∪ if policy.listBased then ∅ else {FRAME_EMPTY}

/-- Reference `t` is to a page that is not found, after 128 distinct pages have been loaded. -/
def Overflows (policy : Policy) (query : List UInt8) (t : ℕ) : Prop :=
  query.getD t 0 ∉ known policy query t ∧
    128 ≤ ((known policy query t).erase FRAME_EMPTY).card

instance (policy : Policy) (query : List UInt8) (t : ℕ) : Decidable (Overflows policy query t) :=
  inferInstanceAs (Decidable (_ ∧ _))

theorem known_succ (policy : Policy) {query : List UInt8} {t : ℕ} (ht : t < query.length) :
    known policy query (t + 1) = insert (query.getD t 0) (known policy query t) := by
  ext p
  rw [known, known, List.take_succ_eq_append_getElem ht, List.getD_eq_getElem _ _ ht]
  simp only [Finset.mem_union, List.mem_toFinset, List.mem_append, List.mem_singleton,
    Finset.mem_insert]
  tauto

/-- The 129th distinct page overflows. -/
theorem overflows_of_nodup (policy : Policy) {query : List UInt8} (hnd : query.Nodup)
    (hne : FRAME_EMPTY ∉ query) (hlen : 128 < query.length) : Overflows policy query 128 := by
  have hmem : query.getD 128 0 ∈ query := by
    rw [List.getD_eq_getElem _ _ hlen]
    exact List.getElem_mem hlen
  have hpages : (known policy query 128).erase FRAME_EMPTY = (query.take 128).toFinset := by
    ext p
    rw [known, Finset.mem_erase, Finset.mem_union, List.mem_toFinset]
    constructor
    · rintro ⟨hp, hmem | hmem⟩
      · exact hmem
      · cases policy <;> simp [Policy.listBased] at hmem <;> exact absurd hmem hp
    · intro hp
      exact ⟨fun h => hne (h ▸ List.mem_of_mem_take hp), Or.inl hp⟩
  have hcard : (query.take 128).toFinset.card = 128 := by
    rw [List.toFinset_card_of_nodup (hnd.sublist (List.take_sublist ..)), List.length_take]
    omega
  refine ⟨fun h => ?_, by rw [hpages, hcard]⟩
  have htake : query.getD 128 0 ∈ query.take 128 := by
    rw [← List.mem_toFinset, ← hpages, Finset.mem_erase]
    exact ⟨fun h => hne (h ▸ hmem), h⟩
  -- the reference would be in the list twice
  rw [List.getD_eq_getElem _ _ hlen] at htake
  obtain ⟨j, hj, heq⟩ := List.mem_take_iff_getElem.mp htake
  have hidx := (hnd.getElem_inj_iff).mp heq
  omega

/-! ### Accesses while the frames are being filled -/

/-- How a policy's accesses behave while more than 128 frames are being filled: `Inv P s` is the
policy's bookkeeping when it finds exactly the pages `P`. -/
structure Filling (hN : 128 < N) (fn : Algo N) where
  Inv : Finset UInt8 → State N → Prop
  hit : ∀ {P : Finset UInt8} {s : State N} {page : UInt8} (step : UInt16), Inv P s → page ∈ P →
    ∃ r s', fn s page step = .ok (r, s') ∧ s'.frames = s.frames ∧ Inv P s'
  fill : ∀ {P : Finset UInt8} {s : State N} {page : UInt8} {d : ℕ} (step : UInt16) (hd : d < 128),
    FilledTo d s.frames → Inv P s → page ∉ P →
    ∃ r s', fn s page step = .ok (r, s') ∧
      s'.frames = update s.frames ⟨d, hd.trans hN⟩ page ∧ Inv (insert page P) s'
  overflow : ∀ {P : Finset UInt8} {s : State N} {page : UInt8} (step : UInt16),
    FilledTo 128 s.frames → Inv P s → page ∉ P →
    fn s page step = .error (.frames (-128))

theorem FilledTo.findEmpty_lt {d : ℕ} {f : Fin N → UInt8} (h : FilledTo d f) (hN : 128 < N)
    (hd : d < 128) : findEmpty f = ((⟨d, hd.trans hN⟩ : Fin N) : ℕ) := by
  rw [h.findEmpty_eq (hd.trans hN)]
  exact int8_of_lt (Int.natCast_nonneg d) (by omega)

theorem FilledTo.findEmpty_wraps {f : Fin N → UInt8} (h : FilledTo 128 f) (hN : 128 < N) :
    findEmpty f = -128 := by
  rw [h.findEmpty_eq hN]
  rfl

theorem setFrame_neg (f : Fin N → UInt8) (page : UInt8) :
    setFrame f (-128) page = .error (.frames (-128)) := by
  unfold setFrame
  rw [dif_neg (by omega)]

/-! ### The policies that search `frames[]` -/

/-- The frames hold exactly the pages `P`. -/
def FramesHold (P : Finset UInt8) (s : State N) : Prop := ∀ p, p ∈ P ↔ ∃ i, s.frames i = p

theorem FramesHold.findPage {P : Finset UInt8} {s : State N} (h : FramesHold P s) (hN : N ≤ 255)
    {page : UInt8} : findPage s.frames page ≠ -1 ↔ page ∈ P := by
  rw [findPage_ne_iff hN, h page]

theorem FramesHold.findPage_eq {P : Finset UInt8} {s : State N} (h : FramesHold P s)
    (hN : N ≤ 255) {page : UInt8} (hp : page ∉ P) : PageReplace.findPage s.frames page = -1 := by
  by_contra hne
  exact hp ((h.findPage hN).mp hne)

theorem FramesHold.fill {P : Finset UInt8} {s s' : State N} (h : FramesHold P s) (hN : 128 < N)
    {d : ℕ} (hd : d < 128) (hfill : FilledTo d s.frames) {page : UInt8}
    (hs' : s'.frames = update s.frames ⟨d, hd.trans hN⟩ page) :
    FramesHold (insert page P) s' := by
  intro p
  rw [Finset.mem_insert, h p, hs']
  constructor
  · rintro (rfl | ⟨i, hi⟩)
    · exact ⟨⟨d, hd.trans hN⟩, update_self ..⟩
    · by_cases hid : i = ⟨d, hd.trans hN⟩
      · -- the page filled in replaces the marker, which frame 128 still holds
        have hempty : s.frames ⟨128, hN⟩ = FRAME_EMPTY := hfill.eq_empty hd.le
        have hne : (⟨128, hN⟩ : Fin N) ≠ ⟨d, hd.trans hN⟩ := by
          rw [Ne, Fin.mk.injEq]
          omega
        refine ⟨⟨128, hN⟩, ?_⟩
        rw [update_of_ne hne, hempty, ← hi, hid]
        exact (hfill.eq_empty le_rfl).symm
      · exact ⟨i, by rw [update_of_ne hid, hi]⟩
  · rintro ⟨i, hi⟩
    by_cases hid : i = ⟨d, hd.trans hN⟩
    · rw [hid, update_self] at hi
      exact Or.inl hi.symm
    · rw [update_of_ne hid] at hi
      exact Or.inr ⟨i, hi⟩

/-- FIFO fills the frames in order. -/
def fifoFilling (hN : 128 < N) (hN' : N ≤ 255) : Filling hN (schedulerFifo (N := N)) where
  Inv := FramesHold
  hit {P s page} step hinv hp := by
    have hidx := (hinv.findPage hN').mpr hp
    refine ⟨⟨1, FRAME_EMPTY, page, .ofInt (findPage s.frames page)⟩,
      { s with hits := s.hits + 1 }, ?_, rfl, hinv⟩
    unfold schedulerFifo
    simp only [if_pos hidx]
  fill {P s page d} step hd hfill hinv hp := by
    have hidx := hinv.findPage_eq hN' hp
    exact ⟨_, _, schedulerFifo_fill hidx (hfill.findEmpty_lt hN hd) step, rfl,
      hinv.fill hN hd hfill rfl⟩
  overflow {P s page} step hfill hinv hp := by
    have hidx := hinv.findPage_eq hN' hp
    unfold schedulerFifo
    simp only [hidx, hfill.findEmpty_wraps hN, setFrame_neg]
    rfl

/-- MIN fills the frames in order. -/
def minFilling (hN : 128 < N) (hN' : N ≤ 255) : Filling hN (schedulerMin (N := N)) where
  Inv := FramesHold
  hit {P s page} step hinv hp := by
    have hidx := (hinv.findPage hN').mpr hp
    refine ⟨⟨1, FRAME_EMPTY, page, .ofInt (findPage s.frames page)⟩,
      { s with hits := s.hits + 1 }, ?_, rfl, hinv⟩
    unfold schedulerMin
    simp only [if_pos hidx]
  fill {P s page d} step hd hfill hinv hp := by
    have hidx := hinv.findPage_eq hN' hp
    exact ⟨_, _, schedulerMin_fill hidx (hfill.findEmpty_lt hN hd) step, rfl,
      hinv.fill hN hd hfill rfl⟩
  overflow {P s page} step hfill hinv hp := by
    have hidx := hinv.findPage_eq hN' hp
    unfold schedulerMin
    simp only [hidx, hfill.findEmpty_wraps hN, setFrame_neg]
    rfl

/-! ### The policies that search a list -/

/-- The nodes `xs` hold exactly the pages `P`. -/
def NodesHold (P : Finset UInt8) (page : UInt8 → UInt8) (xs : List UInt8) : Prop :=
  ∀ p, p ∈ P ↔ p ∈ xs.map page

theorem NodesHold.perm {P : Finset UInt8} {page : UInt8 → UInt8} {xs ys : List UInt8}
    (h : NodesHold P page xs) (hxy : xs.Perm ys) : NodesHold P page ys :=
  fun p => (h p).trans (hxy.map page).mem_iff

theorem NodesHold.add {P : Finset UInt8} {page : UInt8 → UInt8} {xs : List UInt8} {n p : UInt8}
    (h : NodesHold P page xs) (hn : n ∉ xs) :
    NodesHold (insert p P) (update page n p) (n :: xs) := by
  intro q
  rw [Finset.mem_insert, h q, List.map_cons, update_self, map_update_of_notMem hn,
    List.mem_cons]

/-- The list of LRU holds exactly the pages `P`. -/
def LruHold (P : Finset UInt8) (s : State N) : Prop :=
  ∃ xs, LruTotal s xs ∧ NodesHold P s.lru.page xs

/-- LRU fills the frames in order. -/
def lruFilling (hN : 128 < N) (hN' : N ≤ 255) : Filling hN (schedulerLru (N := N)) where
  Inv := LruHold
  hit {P s page} step hinv hp := by
    obtain ⟨xs, htotal, hhold⟩ := hinv
    have hpage := (hhold page).mp hp
    obtain ⟨r, s', ys, hfn, hacc, hlist⟩ :=
      schedulerLru_found htotal.isList htotal.nodes.length_le hpage step
    refine ⟨r, s', hfn, ?_⟩
    cases hacc with
    | hit =>
      exact ⟨rfl, _, ⟨hlist, htotal.nodes.perm List.perm_middle⟩, hhold.perm List.perm_middle⟩
    | fill i absent => exact absurd hpage absent
    | evict i absent => exact absurd hpage absent
  fill {P s page d} step hd hfill hinv hp := by
    obtain ⟨xs, htotal, hhold⟩ := hinv
    have hpage : page ∉ xs.map s.lru.page := fun h => hp ((hhold page).mpr h)
    have hsearch := search_of_notMem htotal.isList htotal.nodes.length_le hpage
    have hnew := htotal.nodes.count_notMem hpage
    exact ⟨_, _, schedulerLru_fill hsearch (hfill.findEmpty_lt hN hd) step, rfl, _,
      ⟨htotal.isList.pushFront hnew, htotal.nodes.add (by omega) hpage _⟩, hhold.add hnew⟩
  overflow {P s page} step hfill hinv hp := by
    obtain ⟨xs, htotal, hhold⟩ := hinv
    have hpage : page ∉ xs.map s.lru.page := fun h => hp ((hhold page).mpr h)
    have hsearch := search_of_notMem htotal.isList htotal.nodes.length_le hpage
    unfold schedulerLru
    simp only [hsearch, hfill.findEmpty_wraps hN, setFrame_neg]
    rfl

/-- The queue of Second Chance holds exactly the pages `P`. -/
def ScHold (P : Finset UInt8) (s : State N) : Prop :=
  ∃ xs, ScTotal s xs ∧ NodesHold P s.sc.page xs

/-- Second Chance fills the frames in order. -/
def secondChanceFilling (hN : 128 < N) (hN' : N ≤ 255) :
    Filling hN (schedulerSecondChance (N := N)) where
  Inv := ScHold
  hit {P s page} step hinv hp := by
    obtain ⟨xs, htotal, hhold⟩ := hinv
    have hpage := (hhold page).mp hp
    obtain ⟨r, s', ys, hfn, hacc, hlist⟩ :=
      schedulerSecondChance_found htotal.isList htotal.nodes.length_le hpage step
    refine ⟨r, s', hfn, ?_⟩
    cases hacc with
    | hit => exact ⟨rfl, _, ⟨hlist, htotal.nodes⟩, hhold⟩
    | fill i absent => exact absurd hpage absent
    | evict i absent => exact absurd hpage absent
  fill {P s page d} step hd hfill hinv hp := by
    obtain ⟨xs, htotal, hhold⟩ := hinv
    have hpage : page ∉ xs.map s.sc.page := fun h => hp ((hhold page).mpr h)
    have hsearch := search_of_notMem htotal.isList htotal.nodes.length_le hpage
    have hnew := htotal.nodes.count_notMem hpage
    have hperm : (s.sc.count :: xs).Perm (xs ++ [s.sc.count]) :=
      (List.perm_append_singleton _ _).symm
    exact ⟨_, _, schedulerSecondChance_fill hsearch (hfill.findEmpty_lt hN hd) step, rfl, _,
      ⟨htotal.isList.pushBack hnew, (htotal.nodes.add (by omega) hpage _).perm hperm⟩,
      (hhold.add hnew).perm hperm⟩
  overflow {P s page} step hfill hinv hp := by
    obtain ⟨xs, htotal, hhold⟩ := hinv
    have hpage : page ∉ xs.map s.sc.page := fun h => hp ((hhold page).mpr h)
    have hsearch := search_of_notMem htotal.isList htotal.nodes.length_le hpage
    unfold schedulerSecondChance
    simp only [hsearch, hfill.findEmpty_wraps hN, setFrame_neg]
    rfl

/-- How each of the four policies fills the frames. -/
def Policy.filling (hN : 128 < N) (hN' : N ≤ 255) :
    (policy : Policy) → Filling hN (policy.algo (N := N))
  | .fifo => fifoFilling hN hN'
  | .min => minFilling hN hN'
  | .lru => lruFilling hN hN'
  | .secondChance => secondChanceFilling hN hN'

theorem Policy.filling_reset (hN : 128 < N) (hN' : N ≤ 255) (policy : Policy) (s : State N)
    (query : List UInt8) :
    (policy.filling hN hN').Inv (known policy query 0) (schedulerReset s) := by
  have hframes (p : UInt8) : p ∈ ({FRAME_EMPTY} : Finset UInt8) ↔
      ∃ i, (schedulerReset s).frames i = p := by
    rw [Finset.mem_singleton]
    refine ⟨fun h => ⟨⟨0, by omega⟩, h.symm⟩, fun ⟨i, hi⟩ => hi.symm⟩
  have hnodes (page : UInt8 → UInt8) : NodesHold ∅ page [] := by
    intro p
    simp
  cases policy with
  | fifo => exact hframes
  | min => exact hframes
  | lru => exact ⟨[], ⟨DList.isList_clear _, nodesDistinct_reset s _ _⟩, hnodes _⟩
  | secondChance => exact ⟨[], ⟨DList.isList_clear _, nodesDistinct_reset s _ _⟩, hnodes _⟩

/-! ### Runs -/

section Runs

variable (hN : 128 < N) (hN' : N ≤ 255) (policy : Policy) (s₀ : State N) {query : List UInt8}

include hN hN'

/-- Before the first overflow every step returns, and the frames hold the known pages in order. -/
theorem runSteps_filling {k : ℕ} (hk : k ≤ query.length)
    (hno : ∀ t < k, ¬ Overflows policy query t) :
    ∃ s rs, runSteps policy.algo s₀ query k = .ok (s, rs) ∧
      (policy.filling hN hN').Inv (known policy query k) s ∧
      FilledTo ((known policy query k).erase FRAME_EMPTY).card s.frames ∧
      ((known policy query k).erase FRAME_EMPTY).card ≤ 128 := by
  induction k with
  | zero =>
    have hcard : ((known policy query 0).erase FRAME_EMPTY).card = 0 := by
      cases policy <;> rfl
    refine ⟨_, [], rfl, policy.filling_reset hN hN' _ query, ?_, by omega⟩
    rw [hcard]
    exact filledTo_reset _
  | succ k ih =>
    obtain ⟨s, rs, hrun, hinv, hfill, hcard⟩ := ih (by omega) fun t ht => hno t (by omega)
    rw [known_succ policy hk]
    have hk' := hno k (Nat.lt_succ_self k)
    rw [Overflows] at hk'
    by_cases hp : query.getD k 0 ∈ known policy query k
    · -- a page that is found again
      obtain ⟨r, s', hfn, hframes, hinv'⟩ :=
        (policy.filling hN hN').hit (UInt16.ofNat k) hinv hp
      rw [Finset.insert_eq_of_mem hp]
      exact ⟨s', _, runSteps_succ_of_ok hrun hfn, hinv', hframes ▸ hfill, hcard⟩
    · -- a new page goes to the first empty frame, one of the first 128
      have hd : ((known policy query k).erase FRAME_EMPTY).card < 128 := by
        by_contra hge
        exact hk' ⟨hp, by omega⟩
      obtain ⟨r, s', hfn, hframes, hinv'⟩ :=
        (policy.filling hN hN').fill (UInt16.ofNat k) hd hfill hinv hp
      refine ⟨s', _, runSteps_succ_of_ok hrun hfn, hinv', ?_⟩
      rw [hframes]
      by_cases hpe : query.getD k 0 = FRAME_EMPTY
      · -- the marker leaves its frame empty
        have hsame : update s.frames ⟨_, hd.trans hN⟩ FRAME_EMPTY = s.frames := by
          rw [update_eq_self_iff]
          exact (hfill.eq_empty le_rfl).symm
        rw [hpe, hsame, Finset.erase_insert_eq_erase]
        exact ⟨hfill, hcard⟩
      · have hnew : query.getD k 0 ∉ (known policy query k).erase FRAME_EMPTY :=
          fun hmem => hp (Finset.mem_of_mem_erase hmem)
        rw [Finset.erase_insert_of_ne hpe, Finset.card_insert_of_notMem hnew]
        exact ⟨hfill.fill (hd.trans hN) hpe, hd⟩

/-- The first overflow writes `frames[-128]`. -/
theorem runOne_of_overflows {t : ℕ} (ht : t < query.length) (h : Overflows policy query t) :
    runOne policy.algo s₀ query = .error (.frames (-128)) := by
  -- the first step that overflows
  have hex : ∃ t, t < query.length ∧ Overflows policy query t := ⟨t, ht, h⟩
  obtain ⟨hlt, hover⟩ := Nat.find_spec hex
  have hno : ∀ u < Nat.find hex, ¬ Overflows policy query u :=
    fun u hu hov => Nat.find_min hex hu ⟨hu.trans hlt, hov⟩
  obtain ⟨s, rs, hrun, hinv, hfill, hcard⟩ :=
    runSteps_filling hN hN' policy s₀ hlt.le hno
  have hfull : ((known policy query (Nat.find hex)).erase FRAME_EMPTY).card = 128 :=
    le_antisymm hcard hover.2
  rw [hfull] at hfill
  have hfn := (policy.filling hN hN').overflow (UInt16.ofNat (Nat.find hex)) hfill hinv hover.1
  -- the error stays the outcome of the run
  have hlater (k : ℕ) : runSteps policy.algo s₀ query (Nat.find hex + 1 + k)
      = .error (.frames (-128)) := by
    induction k with
    | zero => exact runSteps_succ_of_step_error hrun hfn
    | succ k ih => exact runSteps_succ_of_error ih
  have hend := hlater (query.length - (Nat.find hex + 1))
  rwa [Nat.add_sub_cancel' hlt] at hend

end Runs

/-- **Frame index safety**, for every number of frames `parseArgs` admits and any references: no
access subscripts `frames[]` out of range if and only if there are at most 128 frames or no
reference overflows. -/
theorem frames_in_range_iff (policy : Policy) (hN : 1 ≤ N) (hN' : N ≤ 255) (s₀ : State N)
    (query : List UInt8) :
    (∀ i, runOne policy.algo s₀ query ≠ .error (.frames i)) ↔
      N ≤ 128 ∨ ∀ t < query.length, ¬ Overflows policy query t := by
  constructor
  · intro h
    by_contra hcon
    push Not at hcon
    obtain ⟨hN128, t, ht, hover⟩ := hcon
    exact h (-128) (runOne_of_overflows hN128 hN' policy s₀ ht hover)
  · intro hcond i
    rcases Nat.lt_or_ge 128 N with hlt | hge
    · have hno := hcond.resolve_left (by omega)
      obtain ⟨s, rs, hrun, -⟩ := runSteps_filling hlt hN' policy s₀ le_rfl hno
      rw [runOne, hrun]
      exact nofun
    · obtain ⟨s, rs, hrun, -⟩ := (policy.total hN hge).run s₀ query query.length
      rw [runOne, hrun]
      exact nofun

/-- Two distinct pages do not overflow 200 frames. -/
theorem frames_in_range_two_pages :
    (∀ i, runOne (Policy.lru).algo (zeroMemory 200) [7, 0, 7] ≠ .error (.frames i)) ↔
      200 ≤ 128 ∨ ∀ t < 3, ¬ Overflows .lru [7, 0, 7] t :=
  frames_in_range_iff .lru (by decide) (by decide) (zeroMemory 200) [7, 0, 7]

/-- 129 frames and the pages 0 to 128: the last reference writes `frames[-128]`. -/
theorem frames_out_of_range :
    runOne (Policy.fifo).algo (zeroMemory 129) ((List.range 129).map UInt8.ofNat)
        = .error (.frames (-128)) ∧
      runOne (Policy.min).algo (zeroMemory 129) ((List.range 129).map UInt8.ofNat)
        = .error (.frames (-128)) ∧
      runOne (Policy.lru).algo (zeroMemory 129) ((List.range 129).map UInt8.ofNat)
        = .error (.frames (-128)) ∧
      runOne (Policy.secondChance).algo (zeroMemory 129) ((List.range 129).map UInt8.ofNat)
        = .error (.frames (-128)) := by
  have hover (policy : Policy) :
      runOne policy.algo (zeroMemory 129) ((List.range 129).map UInt8.ofNat)
        = .error (.frames (-128)) := by
    have hlen : 128 < ((List.range 129).map UInt8.ofNat).length := by simp
    have hnodup : ((List.range 129).map UInt8.ofNat).Nodup := by
      refine List.nodup_range.map_on fun a ha b hb hab => ?_
      rw [List.mem_range] at ha hb
      have hmod := congrArg UInt8.toNat hab
      rw [UInt8.toNat_ofNat', UInt8.toNat_ofNat', Nat.mod_eq_of_lt (by omega),
        Nat.mod_eq_of_lt (by omega)] at hmod
      exact hmod
    apply runOne_of_overflows (by decide) (by decide) policy _ hlen
    exact overflows_of_nodup policy hnodup (by decide) hlen
  exact ⟨hover .fifo, hover .min, hover .lru, hover .secondChance⟩

end OsLabs.PageReplace
