import OsLabs.Lib.Inclusion
import OsLabs.Lib.Recency
import OsLabs.PageReplace.Equiv.Optimal

/-!
# LRU is least recently used

The list of LRU is a prefix of the recency order of the history: after the references `refs` it
holds the first `N` entries of `recency refs` (`LruInv.pages_access` is the step).  So the page it
drops was referenced last before all the others (`LruInv.evicts_oldest`), and more frames hold a
longer prefix of the same order, hence at least the same pages.
-/

namespace OsLabs.PageReplace

open Function Paging

variable {N M : ℕ}

/-- The list of `s` holds the pages `ps`: in this order from `lru_head` along `next`, and in the
reverse order from `lru_tail` along `prev`. -/
structure LruReads (s : State N) (ps : List UInt8) : Prop where
  forward : ∃ xs, DList.Walk s.lru.links.next s.lru.links.head xs none ∧ xs.map s.lru.page = ps
  backward : ∃ xs, DList.Walk s.lru.links.prev s.lru.links.tail xs none ∧
    xs.map s.lru.page = ps.reverse

theorem LruInv.reads {s : State N} {xs ps : List UInt8} (h : LruInv s xs)
    (hpages : xs.map s.lru.page = ps) : LruReads s ps where
  forward := ⟨xs, h.isList.forward, hpages⟩
  backward := ⟨xs.reverse, h.isList.backward, by rw [List.map_reverse, hpages]⟩

/-! ### The step -/

section Step

variable {s s' : State N} {page : UInt8} {r : AccessResult} {xs ys refs : List UInt8}

/-- **An access keeps the list a prefix of the recency order.** -/
theorem LruInv.pages_access (hN : 1 ≤ N) (hinv : LruInv s xs)
    (hpages : xs.map s.lru.page = (recency refs).take N) (hacc : LruAccess page s xs r s' ys) :
    ys.map s'.lru.page = (recency (refs ++ [page])).take N := by
  have hlen := congrArg List.length hpages
  rw [List.length_map, hinv.length, hinv.count] at hlen
  cases hacc with
  | @hit as bs n hpage =>
    -- the page is in the prefix and moves to its front
    have hnd : ((as ++ n :: bs).map s.lru.page).Nodup :=
      hpages ▸ (nodup_recency refs).sublist (List.take_sublist ..)
    rw [List.map_append, List.map_cons, hpage, List.nodup_middle, List.nodup_cons, List.mem_append,
      not_or] at hnd
    have hmem : page ∈ (recency refs).take N := by
      rw [← hpages, List.map_append, List.map_cons, hpage]
      simp
    show (n :: (as ++ bs)).map s.lru.page = _
    rw [take_recency_of_mem hmem, ← hpages, List.map_cons, List.map_append, List.map_append,
      List.map_cons, hpage, List.erase_append_right _ hnd.1.1, List.erase_cons_head]
  | fill i absent hi =>
    -- the prefix is not full, and the page comes before it
    have hnew : s.lru.count ∉ xs := fun hn => lt_irrefl _ (hinv.allocated _ hn)
    have hlt := occupied_lt_of_empty hi
    rw [take_recency_of_lt (hpages ▸ absent) (by omega), ← hpages]
    show (s.lru.count :: xs).map (update s.lru.page s.lru.count page) = _
    rw [List.map_cons, update_self, map_update_of_notMem hnew]
  | @evict as victim i absent full hi =>
    -- the prefix is full: its last page makes room
    have hnew : victim ∉ as := by
      have hnd := hinv.isList.nodup
      rw [List.nodup_middle, List.nodup_cons, List.append_nil] at hnd
      exact hnd.1
    have hfull := occupied_eq_of_full full
    rw [take_recency_of_full hN (hpages ▸ absent) (by omega), ← hpages, List.map_append,
      List.map_singleton, List.dropLast_concat]
    show (victim :: as).map (update s.lru.page victim page) = _
    rw [List.map_cons, update_self, map_update_of_notMem hnew]

/-- The page dropped is resident, and all other resident pages were referenced later. -/
theorem LruInv.evicts_oldest (hinv : LruInv s xs)
    (hpages : xs.map s.lru.page = (recency refs).take N) (hacc : LruAccess page s xs r s' ys)
    (hmiss : r.hit = 0) (hfull : ∀ i, s.frames i ≠ FRAME_EMPTY) :
    r.evicted ∈ resident s.frames ∧
      ∀ p ∈ resident s.frames, p ≠ r.evicted → LaterUse refs p r.evicted := by
  cases hacc with
  | hit hpage => exact absurd hmiss (show ¬(1 : UInt8) = 0 by decide)
  | fill i absent hi => exact absurd hi (hfull i)
  | @evict as victim i absent full hi =>
    -- the victim is the last of a list in the order of last references
    have hord : ((as ++ [victim]).map s.lru.page).Pairwise (LaterUse refs) :=
      hpages ▸ (pairwise_recency refs).sublist (List.take_sublist ..)
    rw [List.map_append, List.map_singleton, List.pairwise_append] at hord
    refine ⟨hinv.nodes.mem_resident_iff.mpr (by simp), fun p hp hne => ?_⟩
    have hmem := hinv.nodes.mem_resident_iff.mp hp
    rw [List.map_append, List.mem_append, List.map_singleton, List.mem_singleton] at hmem
    exact hord.2.2 p (hmem.resolve_right hne) _ (List.mem_singleton_self _)

end Step

/-! ### Runs -/

section Run

variable (s₀ : State N) {query : List UInt8}

/-- After `k` references the list is the first `N` entries of their recency order. -/
theorem lru_run (hN : 1 ≤ N) (hN' : N ≤ 128) (hq : ∀ p ∈ query, p ≠ FRAME_EMPTY) :
    ∀ k ≤ query.length, ∃ s rs xs, runSteps schedulerLru s₀ query k = .ok (s, rs) ∧
      LruInv s xs ∧ xs.map s.lru.page = (recency (query.take k)).take N := by
  intro k
  induction k with
  | zero => exact fun _ => ⟨_, _, [], rfl, lruInv_reset _, by simp⟩
  | succ k ih =>
    intro hk
    obtain ⟨s, rs, xs, hrun, hinv, hpages⟩ := ih (by omega)
    have hp := getD_ne_empty hq (show k < query.length by omega)
    obtain ⟨r, s', ys, hfn, hacc, -, hinv'⟩ := hinv.exists_access hN hN' (UInt16.ofNat k) hp
    refine ⟨s', rs ++ [r], ys, runSteps_succ_of_ok hrun hfn, hinv', ?_⟩
    rw [hinv.pages_access hN hpages hacc, List.getD_eq_getElem _ _ (by omega),
      List.take_concat_get']

/-- More frames hold more pages. -/
theorem lru_inclusion (hN : 1 ≤ N) (hNM : N ≤ M) (hM : M ≤ 128) (t₀ : State M)
    (hq : ∀ p ∈ query, p ≠ FRAME_EMPTY) {k : ℕ} (hk : k ≤ query.length) :
    residentAt schedulerLru s₀ query k ⊆ residentAt schedulerLru t₀ query k := by
  obtain ⟨s, rs, xs, hrun, hinv, hpages⟩ := lru_run s₀ hN (by omega) hq k hk
  obtain ⟨t, ts, ys, hrun', hinv', hpages'⟩ := lru_run t₀ (by omega) hM hq k hk
  rw [residentAt_eq hrun, residentAt_eq hrun']
  intro p hp
  rw [hinv.nodes.mem_resident_iff, hpages] at hp
  rw [hinv'.nodes.mem_resident_iff, hpages']
  exact List.take_subset_take_left _ hNM hp

end Run

/-! ### The stack property -/

/-- LRU on `query` with `N` and with `M` frames. -/
structure LruStack (s₀ : State N) (t₀ : State M) (query : List UInt8) : Prop where
  /-- The list is the `min N d` most recently referenced distinct pages in order of recency, where
  `d` pages were referenced so far. -/
  reads : ∀ k ≤ query.length, ∃ s rs, runSteps schedulerLru s₀ query k = .ok (s, rs) ∧
    LruReads s ((recency (query.take k)).take N) ∧
    ((recency (query.take k)).take N).length = min N (query.take k).toFinset.card
  /-- A page is dropped when all other resident pages were referenced after it. -/
  evicts : ∀ (k : ℕ) (hk : k < query.length), ∃ s rs r s',
    runSteps schedulerLru s₀ query k = .ok (s, rs) ∧
    schedulerLru s query[k] (UInt16.ofNat k) = .ok (r, s') ∧
    (r.hit = 0 → (∀ i, s.frames i ≠ FRAME_EMPTY) → r.evicted ∈ resident s.frames ∧
      ∀ p ∈ resident s.frames, p ≠ r.evicted → LaterUse (query.take k) p r.evicted)
  /-- More frames hold at least the same pages, and miss at most as often. -/
  inclusion : ∀ k ≤ query.length, ∃ s rs t ts, runSteps schedulerLru s₀ query k = .ok (s, rs) ∧
    runSteps schedulerLru t₀ query k = .ok (t, ts) ∧
    resident s.frames ⊆ resident t.frames ∧ t.misses.toNat ≤ s.misses.toNat

/-- **LRU is least recently used and has the stack property.** -/
theorem lru_stack (hN : 1 ≤ N) (hNM : N ≤ M) (hM : M ≤ 128) (s₀ : State N) (t₀ : State M)
    {query : List UInt8} (hlen : query.length < 2 ^ 16) (hq : ∀ p ∈ query, p ≠ FRAME_EMPTY) :
    LruStack s₀ t₀ query := by
  have hN' : N ≤ 128 := by omega
  have hM' : 1 ≤ M := by omega
  refine ⟨fun k hk => ?_, fun k hk => ?_, fun k hk => ?_⟩
  · obtain ⟨s, rs, xs, hrun, hinv, hpages⟩ := lru_run s₀ hN hN' hq k hk
    refine ⟨s, rs, hrun, hinv.reads hpages, ?_⟩
    rw [List.length_take, length_recency]
  · obtain ⟨s, rs, xs, hrun, hinv, hpages⟩ := lru_run s₀ hN hN' hq k hk.le
    obtain ⟨r, s', ys, hfn, hacc, -⟩ :=
      hinv.exists_access hN hN' (UInt16.ofNat k) (hq _ (List.getElem_mem hk))
    exact ⟨s, rs, r, s', hrun, hfn, hinv.evicts_oldest hpages hacc⟩
  · have hlen32 : query.length < 2 ^ 32 := by omega
    obtain ⟨s, rs, xs, hrun, -⟩ := lru_run s₀ hN hN' hq k hk
    obtain ⟨t, ts, ys, hrun', -⟩ := lru_run t₀ hM' hM hq k hk
    refine ⟨s, rs, t, ts, hrun, hrun', ?_, ?_⟩
    · rw [← residentAt_eq hrun, ← residentAt_eq hrun']
      exact lru_inclusion s₀ hN hNM hM t₀ hq hk
    · rw [(lruRefinement hN hN').misses_eq s₀ hlen32 hq hk hrun,
        (lruRefinement hM' hM).misses_eq t₀ hlen32 hq hk hrun']
      apply misses_le_of_subset
      intro τ hτ
      exact lru_inclusion s₀ hN hNM hM t₀ hq (by omega)

/-- Two and three frames on the references `1 2 3 1 2`. -/
theorem lru_stack_two_three : LruStack (zeroMemory 2) (zeroMemory 3) [1, 2, 3, 1, 2] :=
  lru_stack (by decide) (by decide) (by decide) (zeroMemory 2) (zeroMemory 3) (by decide)
    (by simp [FRAME_EMPTY])

end OsLabs.PageReplace
