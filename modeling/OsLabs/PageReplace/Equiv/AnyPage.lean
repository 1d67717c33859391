import OsLabs.PageReplace.Equiv.Residency

/-!
# Up to 128 frames, every access returns

The references may be any bytes here, `FRAME_EMPTY` among them.  Loading that page leaves its frame
marked empty, so the frames and the lists no longer agree: a frame can be filled twice, the ring of
FIFO counts beyond `num_frames`, and the lists of LRU and Second Chance grow beyond it.  What
survives is less, and is enough for every access to return (`Total`): the slots of the ring and the
`frame_idx` fields of the nodes hold indices of frames, and the nodes of a list hold different
pages, since a page gets a node only if no node holds it.  There are 256 pages, so the pool is never
used up.

`Finds` is what a policy can find: what the frames hold for FIFO and MIN, and what the nodes of the
list hold for LRU and Second Chance.  An access counts a hit exactly if it finds its page, and
afterwards no other page can be found than before (`Counted`).
-/

namespace OsLabs.PageReplace

open Function

variable {N : ℕ}

/-! ### What an access counts -/

/-- The search of the policy finds page `p`. -/
def Finds (policy : Policy) (s : State N) (p : UInt8) : Prop :=
  if policy.listBased then ∃ fi, (p, fi) ∈ s.nodes policy else ∃ i, s.frames i = p

/-- What an access to `page` counts, and what can be found after it. -/
structure Counted (policy : Policy) (page : UInt8) (s : State N) (r : AccessResult)
    (s' : State N) : Prop where
  hit : Finds policy s page → r.hit = 1 ∧ s'.hits = s.hits + 1 ∧ s'.misses = s.misses
  miss : ¬ Finds policy s page → r.hit = 0 ∧ s'.hits = s.hits ∧ s'.misses = s.misses + 1
  finds : ∀ p, Finds policy s' p → p = page ∨ Finds policy s p

/-- A policy's invariant for arbitrary references, and the proof that its accesses return. -/
structure Total (policy : Policy) (N : ℕ) where
  /-- What holds of the memory between two accesses. -/
  Inv : State N → Prop
  /-- `scheduler_reset` establishes it, whatever the memory held. -/
  reset : ∀ s, Inv (schedulerReset s)
  /-- Every access returns and keeps it. -/
  step : ∀ {s : State N} (page : UInt8) (step : UInt16), Inv s →
    ∃ r s', policy.algo s page step = .ok (r, s') ∧ Counted policy page s r s' ∧ Inv s'

/-- **Every run completes.** -/
theorem Total.run {policy : Policy} (T : Total policy N) (s₀ : State N) (query : List UInt8)
    (k : ℕ) : ∃ s rs, runSteps policy.algo s₀ query k = .ok (s, rs) ∧ T.Inv s := by
  induction k with
  | zero => exact ⟨_, _, rfl, T.reset _⟩
  | succ k ih =>
    obtain ⟨s, rs, hrun, hinv⟩ := ih
    obtain ⟨r, s', hfn, -, hinv'⟩ := T.step (query.getD k 0) (UInt16.ofNat k) hinv
    exact ⟨s', rs ++ [r], runSteps_succ_of_ok hrun hfn, hinv'⟩

/-! ### The frames while they are filled in order -/

/-- Exactly the first `d` frames are occupied. -/
def FilledTo (d : ℕ) (f : Fin N → UInt8) : Prop := ∀ i, f i ≠ FRAME_EMPTY ↔ (i : ℕ) < d

theorem filledTo_reset (s : State N) : FilledTo 0 (schedulerReset s).frames := by
  intro i
  simp [schedulerReset]

theorem FilledTo.eq_empty {d : ℕ} {f : Fin N → UInt8} (h : FilledTo d f) {i : Fin N}
    (hi : d ≤ i) : f i = FRAME_EMPTY := by
  by_contra hne
  have := (h i).mp hne
  omega

theorem FilledTo.findEmpty_eq {d : ℕ} {f : Fin N → UInt8} (h : FilledTo d f) (hd : d < N) :
    findEmpty f = int8 (d : ℕ) := by
  exact findPage_first (i := ⟨d, hd⟩) (h.eq_empty le_rfl) fun j hj => (h j).mpr hj

theorem FilledTo.fill {d : ℕ} {f : Fin N → UInt8} (h : FilledTo d f) (hd : d < N) {p : UInt8}
    (hp : p ≠ FRAME_EMPTY) : FilledTo (d + 1) (update f ⟨d, hd⟩ p) := by
  intro i
  by_cases hi : i = ⟨d, hd⟩
  · subst hi
    rw [update_self]
    exact ⟨fun _ => Nat.lt_succ_self d, fun _ => hp⟩
  · have hne : (i : ℕ) ≠ d := fun heq => hi (Fin.ext heq)
    rw [update_of_ne hi, h i]
    omega

/-! ### FIFO -/

/-- Either the frames are still being filled and so is the ring, or every slot of the ring is in
use. -/
structure FifoSafe (s : State N) : Prop where
  head_lt : s.fifo.head.toNat < N
  slots : (∀ j < N, (s.fifo.queue (UInt8.ofNat j)).toNat < N) ∨
    ∃ d < N, FilledTo d s.frames ∧ s.fifo.head.toNat = 0 ∧ s.fifo.count.toNat = d ∧
      ∀ j < d, (s.fifo.queue (UInt8.ofNat j)).toNat < N

theorem schedulerFifo_total (hN : N ≤ 128) {s : State N} (page : UInt8) (step : UInt16)
    (hinv : FifoSafe s) :
    ∃ r s', schedulerFifo s page step = .ok (r, s') ∧ Accessed page s r s' ∧ FifoSafe s' := by
  obtain ⟨hhead, hslots⟩ := hinv
  rcases findPage_spec hN s.frames page with ⟨i, hi, hidx⟩ | ⟨habsent, hidx⟩
  · exact ⟨_, _, schedulerFifo_hit hidx step, ⟨.hit i hi, rfl, rfl, rfl⟩, hhead, hslots⟩
  rcases findEmpty_spec hN s.frames with ⟨i, hi, hfree⟩ | ⟨hfull, hfree⟩
  · refine ⟨_, _, schedulerFifo_fill hidx hfree step, ⟨.fill i habsent hi, rfl, rfl, rfl⟩,
      hhead, ?_⟩
    -- a lookup of `FRAME_EMPTY` is a hit while a frame is empty
    have hp : page ≠ FRAME_EMPTY := fun h => habsent i (hi.trans h.symm)
    rcases hslots with hall | ⟨d, hd, hfill, hhead0, hcount, hslots⟩
    · exact Or.inl fun j hj => update_ofNat_lt (by omega) fun _ => hall j hj
    · -- the first empty frame is `d`, and the slot written is `d`
      have hfirst := hfill.findEmpty_eq hd
      rw [int8_of_lt (Int.natCast_nonneg d) (by omega)] at hfirst
      obtain rfl : i = ⟨d, hd⟩ := Fin.ext (by exact_mod_cast hfree.symm.trans hfirst)
      have hslot : (s.fifo.head.toNat + s.fifo.count.toNat) % N = d := by
        rw [hhead0, hcount, Nat.zero_add, Nat.mod_eq_of_lt hd]
      have hnew (j : ℕ) (hj : j < d + 1) : (update s.fifo.queue
          (UInt8.ofNat ((s.fifo.head.toNat + s.fifo.count.toNat) % N)) (.ofNat d)
          (UInt8.ofNat j)).toNat < N := by
        rw [hslot]
        refine update_ofNat_lt (i := ⟨d, hd⟩) (by omega) fun hne => hslots j ?_
        have hjd : j ≠ d := fun h => hne (by rw [h])
        omega
      rcases Nat.lt_or_ge (d + 1) N with hlt | hge
      · refine Or.inr ⟨d + 1, hlt, hfill.fill hd hp, hhead0, ?_, hnew⟩
        show (s.fifo.count + 1).toNat = d + 1
        rw [UInt8.toNat_add, hcount, show (1 : UInt8).toNat = 1 from rfl]
        omega
      · exact Or.inl fun j hj => hnew j (by omega)
  · -- no frame is empty: every slot of the ring is in use, the head slot among them
    rcases hslots with hall | ⟨d, hd, hfill, -⟩
    · have hslot := hall s.fifo.head.toNat hhead
      rw [UInt8.ofNat_toNat] at hslot
      have hvictim : (s.fifo.queue s.fifo.head).toNat = (⟨_, hslot⟩ : Fin N) := rfl
      refine ⟨_, _, schedulerFifo_evict hidx hfree hvictim step,
        ⟨.evict _ habsent hfull, rfl, rfl, rfl⟩, ?_, Or.inl hall⟩
      show (UInt8.ofNat ((s.fifo.head.toNat + 1) % N)).toNat < N
      have hmod := Nat.mod_lt (s.fifo.head.toNat + 1) (show 0 < N by omega)
      rw [UInt8.toNat_ofNat']
      omega
    · exact absurd (hfill.eq_empty (i := ⟨d, hd⟩) le_rfl) (hfull _)

/-- For the policies that search `frames[]`, the replacement machine says what is counted. -/
theorem Accessed.counted {policy : Policy} (hl : policy.listBased = false) {page : UInt8}
    {s s' : State N} {r : AccessResult} (h : Accessed page s r s') :
    Counted policy page s r s' := by
  have hfinds (s : State N) (p : UInt8) : Finds policy s p ↔ ∃ i, s.frames i = p := by
    unfold Finds
    rw [hl]
    rfl
  have hhits := h.hits
  have hmisses := h.misses
  refine ⟨fun hp => ?_, fun hp => ?_, fun p hp => ?_⟩
  · have hhit := h.frames.hit_iff.mpr ((hfinds s page).mp hp)
    rw [if_pos hhit] at hhits hmisses
    exact ⟨hhit, hhits, hmisses⟩
  · have hhit : ¬ r.hit = 1 := fun hr => hp ((hfinds s page).mpr (h.frames.hit_iff.mp hr))
    rw [if_neg hhit] at hhits hmisses
    exact ⟨h.frames.hit_eq.resolve_left hhit, hhits, hmisses⟩
  · rw [hfinds] at hp ⊢
    exact h.frames.mem hp

/-- FIFO keeps the indices of frames in its ring. -/
def fifoTotal (hN : 1 ≤ N) (hN' : N ≤ 128) : Total .fifo N where
  Inv := FifoSafe
  reset s := ⟨hN, Or.inr ⟨0, hN, filledTo_reset s, rfl, rfl, fun j hj => absurd hj (by omega)⟩⟩
  step page step hinv := by
    obtain ⟨r, s', hfn, hacc, hinv'⟩ := schedulerFifo_total hN' page step hinv
    exact ⟨r, s', hfn, hacc.counted rfl, hinv'⟩

/-! ### MIN -/

/-- The victim search of MIN names a frame whatever the frames hold. -/
def minTotal (hN : 1 ≤ N) (hN' : N ≤ 128) : Total .min N where
  Inv _ := True
  reset _ := trivial
  step {s} page step _ := by
    rcases findPage_spec hN' s.frames page with ⟨i, hi, hidx⟩ | ⟨habsent, hidx⟩
    · exact ⟨_, _, schedulerMin_hit hidx step,
        Accessed.counted rfl ⟨.hit i hi, rfl, rfl, rfl⟩, trivial⟩
    rcases findEmpty_spec hN' s.frames with ⟨i, hi, hfree⟩ | ⟨hfull, hfree⟩
    · exact ⟨_, _, schedulerMin_fill hidx hfree step,
        Accessed.counted rfl ⟨.fill i habsent hi, rfl, rfl, rfl⟩, trivial⟩
    · obtain ⟨i, hi⟩ := minVictim_fi hN hN' s.frames s.refSeq step (s.frames ⟨0, hN⟩)
      exact ⟨_, _, schedulerMin_evict hN hidx hfree step hi,
        Accessed.counted rfl ⟨.evict i habsent hfull, rfl, rfl, rfl⟩, trivial⟩

/-- What the pairs of the nodes say about the pages. -/
theorem exists_mem_pairs {page frameIdx : UInt8 → UInt8} {xs : List UInt8} {p : UInt8} :
    (∃ fi, (p, fi) ∈ xs.map fun n => (page n, frameIdx n)) ↔ p ∈ xs.map page := by
  simp only [List.mem_map, Prod.mk.injEq]
  constructor
  · rintro ⟨fi, n, hn, hnp, -⟩
    exact ⟨n, hn, hnp⟩
  · rintro ⟨n, hn, hnp⟩
    exact ⟨frameIdx n, n, hn, hnp, rfl⟩

/-! ### LRU -/

/-- The list of LRU is `xs`, of nodes with different pages. -/
structure LruTotal (s : State N) (xs : List UInt8) : Prop where
  isList : DList.IsList s.lru.links xs
  nodes : NodesDistinct s.frames s.lru.count s.lru.page s.lru.frameIdx xs

theorem LruTotal.finds_iff {s : State N} {xs : List UInt8} (h : LruTotal s xs) {p : UInt8} :
    Finds .lru s p ↔ p ∈ xs.map s.lru.page := by
  have hread : DList.read s.lru.links.next POOL_SIZE s.lru.links.head = xs :=
    h.isList.forward.read_eq h.nodes.length_le
  show (∃ fi, (p, fi) ∈ (DList.read s.lru.links.next POOL_SIZE s.lru.links.head).map _) ↔ _
  rw [hread, exists_mem_pairs]

theorem schedulerLru_total (hN : 1 ≤ N) (hN' : N ≤ 128) {s : State N} (page : UInt8)
    (step : UInt16) {xs : List UInt8} (hinv : LruTotal s xs) :
    ∃ r s' ys, schedulerLru s page step = .ok (r, s') ∧ Counted .lru page s r s' ∧
      LruTotal s' ys := by
  obtain ⟨r, s', ys, hfn, hacc, hlist⟩ :=
    schedulerLru_access hN' hinv.isList (hinv.nodes.usable hN) page step
  refine ⟨r, s', ys, hfn, ?_⟩
  cases hacc with
  | @hit as bs n hpage =>
    have hperm : (as ++ n :: bs).Perm (n :: (as ++ bs)) := List.perm_middle
    have hinv' := LruTotal.mk hlist (hinv.nodes.perm hperm)
    have hfound : Finds .lru s page := by
      rw [hinv.finds_iff, ← hpage]
      exact List.mem_map_of_mem (hperm.mem_iff.mpr (List.mem_cons_self ..))
    refine ⟨⟨fun _ => ⟨rfl, rfl, rfl⟩, fun hnot => absurd hfound hnot, fun p hp => ?_⟩, hinv'⟩
    rw [hinv'.finds_iff, ← (hperm.map _).mem_iff] at hp
    exact Or.inr (hinv.finds_iff.mpr hp)
  | fill i absent hi =>
    have hnot : ¬ Finds .lru s page := fun h => absent (hinv.finds_iff.mp h)
    have hinv' := LruTotal.mk hlist (hinv.nodes.add (by omega) absent i)
    refine ⟨⟨fun h => absurd h hnot, fun _ => ⟨rfl, rfl, rfl⟩, fun p hp => ?_⟩, hinv'⟩
    rw [hinv'.finds_iff] at hp
    have hnew := hinv.nodes.count_notMem absent
    exact (NodesDistinct.mem_map_add hnew hp).imp_right hinv.finds_iff.mpr
  | @evict as victim i absent full hi =>
    have hperm : (as ++ [victim]).Perm (victim :: as) := List.perm_append_singleton _ _
    have hnot : ¬ Finds .lru s page := fun h => absent (hinv.finds_iff.mp h)
    have hmem : victim ∈ as ++ [victim] := hperm.mem_iff.mpr (List.mem_cons_self ..)
    have hinv' := LruTotal.mk hlist
      ((hinv.nodes.replace hinv.isList.nodup hmem absent i).perm hperm)
    refine ⟨⟨fun h => absurd h hnot, fun _ => ⟨rfl, rfl, rfl⟩, fun p hp => ?_⟩, hinv'⟩
    rw [hinv'.finds_iff, ← (hperm.map _).mem_iff] at hp
    exact (NodesDistinct.mem_map_update hp).imp_right hinv.finds_iff.mpr

theorem nodesDistinct_reset (s : State N) (page frameIdx : UInt8 → UInt8) :
    NodesDistinct (schedulerReset s).frames 0 page frameIdx [] where
  pages := List.nodup_nil
  allocated _ hn := absurd hn List.not_mem_nil
  count := rfl
  inFrame _ hn := absurd hn List.not_mem_nil
  empty _ _ := rfl

/-- Every access of LRU returns. -/
def lruTotal (hN : 1 ≤ N) (hN' : N ≤ 128) : Total .lru N where
  Inv s := ∃ xs, LruTotal s xs
  reset s := ⟨[], DList.isList_clear _, nodesDistinct_reset s _ _⟩
  step page step hinv := by
    obtain ⟨xs, hxs⟩ := hinv
    obtain ⟨r, s', ys, hfn, hcounted, hys⟩ := schedulerLru_total hN hN' page step hxs
    exact ⟨r, s', hfn, hcounted, ys, hys⟩

/-! ### Second Chance -/

/-- The queue of Second Chance is `xs`, of nodes with different pages. -/
structure ScTotal (s : State N) (xs : List UInt8) : Prop where
  isList : DList.IsList s.sc.links xs
  nodes : NodesDistinct s.frames s.sc.count s.sc.page s.sc.frameIdx xs

theorem ScTotal.finds_iff {s : State N} {xs : List UInt8} (h : ScTotal s xs) {p : UInt8} :
    Finds .secondChance s p ↔ p ∈ xs.map s.sc.page := by
  have hread : DList.read s.sc.links.next POOL_SIZE s.sc.links.head = xs :=
    h.isList.forward.read_eq h.nodes.length_le
  show (∃ fi, (p, fi) ∈ (DList.read s.sc.links.next POOL_SIZE s.sc.links.head).map _) ↔ _
  rw [hread, exists_mem_pairs]

theorem schedulerSecondChance_total (hN : 1 ≤ N) (hN' : N ≤ 128) {s : State N} (page : UInt8)
    (step : UInt16) {xs : List UInt8} (hinv : ScTotal s xs) :
    ∃ r s' ys, schedulerSecondChance s page step = .ok (r, s') ∧
      Counted .secondChance page s r s' ∧ ScTotal s' ys := by
  obtain ⟨r, s', ys, hfn, hacc, hlist⟩ :=
    schedulerSecondChance_access hN' hinv.isList (hinv.nodes.usable hN) page step
  refine ⟨r, s', ys, hfn, ?_⟩
  cases hacc with
  | hit hn hpage =>
    have hinv' := ScTotal.mk hlist hinv.nodes
    have hfound : Finds .secondChance s page := by
      rw [hinv.finds_iff, ← hpage]
      exact List.mem_map_of_mem hn
    refine ⟨⟨fun _ => ⟨rfl, rfl, rfl⟩, fun hnot => absurd hfound hnot, fun p hp => ?_⟩, hinv'⟩
    exact Or.inr (hinv.finds_iff.mpr (hinv'.finds_iff.mp hp))
  | fill i absent hi =>
    have hperm : (xs ++ [s.sc.count]).Perm (s.sc.count :: xs) := List.perm_append_singleton _ _
    have hnot : ¬ Finds .secondChance s page := fun h => absent (hinv.finds_iff.mp h)
    have hinv' := ScTotal.mk hlist ((hinv.nodes.add (by omega) absent i).perm hperm.symm)
    refine ⟨⟨fun h => absurd h hnot, fun _ => ⟨rfl, rfl, rfl⟩, fun p hp => ?_⟩, hinv'⟩
    rw [hinv'.finds_iff, (hperm.map _).mem_iff] at hp
    have hnew := hinv.nodes.count_notMem absent
    exact (NodesDistinct.mem_map_add hnew hp).imp_right hinv.finds_iff.mpr
  | @evict victim zs links refBit i absent full hrotate hbits hi =>
    have hrotated := perm_of_rotate hrotate
    have hperm : xs.Perm (zs ++ [victim]) :=
      hrotated.symm.trans (List.perm_append_singleton _ _).symm
    have hnot : ¬ Finds .secondChance s page := fun h => absent (hinv.finds_iff.mp h)
    have hmem : victim ∈ xs := hrotated.mem_iff.mp (List.mem_cons_self ..)
    have hinv' := ScTotal.mk hlist
      ((hinv.nodes.replace hinv.isList.nodup hmem absent i).perm hperm)
    refine ⟨⟨fun h => absurd h hnot, fun _ => ⟨rfl, rfl, rfl⟩, fun p hp => ?_⟩, hinv'⟩
    rw [hinv'.finds_iff, ← (hperm.map _).mem_iff] at hp
    exact (NodesDistinct.mem_map_update hp).imp_right hinv.finds_iff.mpr

/-- Every access of Second Chance returns. -/
def secondChanceTotal (hN : 1 ≤ N) (hN' : N ≤ 128) : Total .secondChance N where
  Inv s := ∃ xs, ScTotal s xs
  reset s := ⟨[], DList.isList_clear _, nodesDistinct_reset s _ _⟩
  step page step hinv := by
    obtain ⟨xs, hxs⟩ := hinv
    obtain ⟨r, s', ys, hfn, hcounted, hys⟩ := schedulerSecondChance_total hN hN' page step hxs
    exact ⟨r, s', hfn, hcounted, ys, hys⟩

/-- Every access of each of the four policies returns. -/
def Policy.total (hN : 1 ≤ N) (hN' : N ≤ 128) : (policy : Policy) → Total policy N
  | .fifo => fifoTotal hN hN'
  | .min => minTotal hN hN'
  | .lru => lruTotal hN hN'
  | .secondChance => secondChanceTotal hN hN'

end OsLabs.PageReplace
