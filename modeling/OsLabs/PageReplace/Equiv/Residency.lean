import OsLabs.PageReplace.Equiv.Fifo
import OsLabs.PageReplace.Equiv.Lru
import OsLabs.PageReplace.Equiv.Min
import OsLabs.PageReplace.Equiv.SecondChance

/-!
# The residency contract of the four policies

`StepContract` collects what every step of `run_one` does to the frames, the counters and, for
LRU and Second Chance, the list; `residency_contract` proves it for all four policies, for 1 to
128 frames and every reference sequence without `FRAME_EMPTY`, from any memory contents.  The
length of a sequence is a `uint16_t`.
-/

namespace OsLabs.PageReplace

variable {N : ℕ}

/-- The policies that look a page up in a linked list. -/
def Policy.listBased : Policy → Bool
  | .fifo => false
  | .min => false
  | .lru => true
  | .secondChance => true

/-- The `(page, frame_idx)` fields of the list of a policy, read from its head. -/
def State.nodes (s : State N) : Policy → List (UInt8 × UInt8)
  | .lru => (DList.read s.lru.links.next POOL_SIZE s.lru.links.head).map
      fun n => (s.lru.page n, s.lru.frameIdx n)
  | .secondChance => (DList.read s.sc.links.next POOL_SIZE s.sc.links.head).map
      fun n => (s.sc.page n, s.sc.frameIdx n)
  | _ => []

/-- The list of the policy is the occupied frames, each once. -/
structure NodesAgree (policy : Policy) (s : State N) : Prop where
  nodup : ((s.nodes policy).map Prod.snd).Nodup
  iff : ∀ p fi, (p, fi) ∈ s.nodes policy ↔
    p ≠ FRAME_EMPTY ∧ ∃ i : Fin N, fi.toNat = i ∧ s.frames i = p

/-- Step number `k`, an access to `page` that turns `s` into `s'` and reports `r`. -/
structure StepContract (policy : Policy) (page : UInt8) (k : ℕ) (s : State N) (r : AccessResult)
    (s' : State N) : Prop where
  /-- The non-empty frames hold distinct pages. -/
  distinct : Distinct s.frames ∧ Distinct s'.frames
  /-- A hit is reported exactly for a page in some frame. -/
  hit_iff : r.hit = 1 ↔ ∃ i, s.frames i = page
  hit_or_miss : r.hit = 1 ∨ r.hit = 0
  /-- `frames[r.frame_idx]` is the page afterwards, and no other frame changed. -/
  loaded : ∃ i : Fin N, r.frameIdx.toNat = i ∧ s'.frames i = page ∧
    ∀ j, j ≠ i → s'.frames j = s.frames j
  hit_unchanged : r.hit = 1 → s'.frames = s.frames
  /-- `r.evicted` is what `frames[r.frame_idx]` held before a miss. -/
  evicted : r.hit = 0 → ∃ i : Fin N, r.frameIdx.toNat = i ∧ r.evicted = s.frames i
  evicted_empty : r.hit = 0 → (r.evicted = FRAME_EMPTY ↔ ∃ i, s.frames i = FRAME_EMPTY)
  counts : s'.hits.toNat + s'.misses.toNat = k + 1
  occupied : occupied s'.frames = min N s'.misses.toNat
  /-- The list decides hits, and it is the occupied frames. -/
  nodes : policy.listBased → NodesAgree policy s ∧ NodesAgree policy s' ∧
    (r.hit = 1 ↔ ∃ fi, (page, fi) ∈ s.nodes policy)

/-! ### The lists -/

/-- Nodes that match the frames, read off as pairs. -/
theorem NodesMatch.agree {f : Fin N → UInt8} {page frameIdx : UInt8 → UInt8} {xs : List UInt8}
    (h : NodesMatch f page frameIdx xs) (hnd : xs.Nodup) :
    ((xs.map fun n => (page n, frameIdx n)).map Prod.snd).Nodup ∧
      ∀ p fi, (p, fi) ∈ (xs.map fun n => (page n, frameIdx n)) ↔
        p ≠ FRAME_EMPTY ∧ ∃ i : Fin N, fi.toNat = i ∧ f i = p := by
  refine ⟨?_, fun p fi => h.mem_map_iff⟩
  rw [List.map_map]
  exact hnd.map_on fun m hm m' hm' heq => h.inj m hm m' hm' heq

/-- A list of a policy whose nodes match the frames. -/
theorem nodesAgree_of_isList {policy : Policy} {s : State N} {links : DList UInt8}
    {page frameIdx : UInt8 → UInt8} {xs : List UInt8} (hlist : DList.IsList links xs)
    (hlen : xs.length ≤ POOL_SIZE) (h : NodesMatch s.frames page frameIdx xs)
    (hnodes : s.nodes policy
      = (DList.read links.next POOL_SIZE links.head).map fun n => (page n, frameIdx n)) :
    NodesAgree policy s := by
  obtain ⟨hnd, hiff⟩ := h.agree hlist.nodup
  rw [hlist.forward.read_eq hlen] at hnodes
  refine ⟨?_, ?_⟩ <;> rw [hnodes]
  · exact hnd
  · exact hiff

theorem LruInv.nodesAgree (hN : N ≤ 128) {s : State N} {xs : List UInt8} (h : LruInv s xs) :
    NodesAgree .lru s := by
  have hocc := occupied_le s.frames
  have hlen : xs.length ≤ POOL_SIZE := by
    rw [h.length, h.count, POOL_SIZE]
    omega
  exact nodesAgree_of_isList h.isList hlen h.nodes rfl

theorem ScInv.nodesAgree (hN : N ≤ 128) {s : State N} {xs : List UInt8} (h : ScInv s xs) :
    NodesAgree .secondChance s := by
  have hocc := occupied_le s.frames
  have hlen : xs.length ≤ POOL_SIZE := by
    rw [h.length, h.count, POOL_SIZE]
    omega
  exact nodesAgree_of_isList h.isList hlen h.nodes rfl

/-- When the list is the occupied frames, looking a page up in either gives the same answer. -/
theorem NodesAgree.hit_iff {policy : Policy} {s : State N} (h : NodesAgree policy s)
    (hN : N ≤ 256) {page : UInt8} (hp : page ≠ FRAME_EMPTY) :
    (∃ i, s.frames i = page) ↔ ∃ fi, (page, fi) ∈ s.nodes policy := by
  constructor
  · -- the node of a frame has its index as a `uint8_t`
    rintro ⟨i, hi⟩
    refine ⟨.ofNat i, (h.iff page _).mpr ⟨hp, i, ?_, hi⟩⟩
    rw [UInt8.toNat_ofNat']
    exact Nat.mod_eq_of_lt (lt_of_lt_of_le i.isLt hN)
  · rintro ⟨fi, hfi⟩
    obtain ⟨-, i, -, hi⟩ := (h.iff page fi).mp hfi
    exact ⟨i, hi⟩

/-! ### The contract -/

/-- The parts of the contract that do not speak of the list. -/
theorem stepContract_of_accessed {policy : Policy} (hN : N ≤ 256) {query : List UInt8} {k : ℕ}
    {page : UInt8} (hp : page ≠ FRAME_EMPTY) {s s' : State N} {r : AccessResult}
    (h : RunInv query k s) (h' : RunInv query (k + 1) s') (ha : Accessed page s r s')
    (hnodes : policy.listBased → NodesAgree policy s ∧ NodesAgree policy s') :
    StepContract policy page k s r s' where
  distinct := ⟨h.distinct, h'.distinct⟩
  hit_iff := ha.frames.hit_iff
  hit_or_miss := ha.frames.hit_eq
  loaded := ha.frames.loaded hN
  hit_unchanged := ha.frames.frames_eq_of_hit
  evicted hr := (ha.frames.evicted hN hr).1
  evicted_empty hr := (ha.frames.evicted hN hr).2
  counts := h'.counts
  occupied := h'.occupied
  nodes hl := by
    obtain ⟨hs, hs'⟩ := hnodes hl
    exact ⟨hs, hs', ha.frames.hit_iff.trans (hs.hit_iff hN hp)⟩

/-- **The residency contract**: step `k` of `run_one` with any of the four policies returns, and
meets `StepContract`. -/
theorem residency_contract (policy : Policy) (hN : 1 ≤ N) (hN' : N ≤ 128) (s₀ : State N)
    {query : List UInt8} (hlen : query.length < 2 ^ 16) (hq : ∀ p ∈ query, p ≠ FRAME_EMPTY)
    {k : ℕ} (hk : k < query.length) :
    ∃ s rs r s',
      runSteps policy.algo s₀ query k = .ok (s, rs) ∧
      policy.algo s query[k] (UInt16.ofNat k) = .ok (r, s') ∧
      runSteps policy.algo s₀ query (k + 1) = .ok (s', rs ++ [r]) ∧
      StepContract policy query[k] k s r s' := by
  have hlen' : query.length < 2 ^ 32 := by omega
  have hN256 : N ≤ 256 := by omega
  have hp : query[k] ≠ FRAME_EMPTY := hq _ (List.getElem_mem hk)
  cases policy with
  | fifo =>
    obtain ⟨s, rs, r, s', hrun, hfn, hrun', -, -, hri, hri', hacc⟩ :=
      (fifoRefinement hN hN').run_step s₀ hlen' hq hk
    exact ⟨s, rs, r, s', hrun, hfn, hrun', stepContract_of_accessed hN256 hp hri hri' hacc
      fun h => absurd h (by decide)⟩
  | min =>
    obtain ⟨s, rs, r, s', hrun, hfn, hrun', -, -, hri, hri', hacc⟩ :=
      (minRefinement hN hN').run_step s₀ hlen' hq hk
    exact ⟨s, rs, r, s', hrun, hfn, hrun', stepContract_of_accessed hN256 hp hri hri' hacc
      fun h => absurd h (by decide)⟩
  | lru =>
    obtain ⟨s, rs, r, s', hrun, hfn, hrun', ⟨xs, hxs⟩, ⟨ys, hys⟩, hri, hri', hacc⟩ :=
      (lruRefinement hN hN').run_step s₀ hlen' hq hk
    exact ⟨s, rs, r, s', hrun, hfn, hrun', stepContract_of_accessed hN256 hp hri hri' hacc
      fun _ => ⟨hxs.nodesAgree hN', hys.nodesAgree hN'⟩⟩
  | secondChance =>
    obtain ⟨s, rs, r, s', hrun, hfn, hrun', ⟨xs, hxs⟩, ⟨ys, hys⟩, hri, hri', hacc⟩ :=
      (secondChanceRefinement hN hN').run_step s₀ hlen' hq hk
    exact ⟨s, rs, r, s', hrun, hfn, hrun', stepContract_of_accessed hN256 hp hri hri' hacc
      fun _ => ⟨hxs.nodesAgree hN', hys.nodesAgree hN'⟩⟩

/-- LRU with two frames at the third reference of `7 0 1`, which evicts page 7. -/
theorem residency_contract_lru_two :
    ∃ s rs r s',
      runSteps (Policy.lru).algo (zeroMemory 2) [7, 0, 1] 2 = .ok (s, rs) ∧
      (Policy.lru).algo s 1 (UInt16.ofNat 2) = .ok (r, s') ∧
      runSteps (Policy.lru).algo (zeroMemory 2) [7, 0, 1] 3 = .ok (s', rs ++ [r]) ∧
      StepContract .lru 1 2 s r s' :=
  residency_contract .lru (by decide) (by decide) (zeroMemory 2) (by decide)
    (by simp [FRAME_EMPTY]) (by decide)

end OsLabs.PageReplace
