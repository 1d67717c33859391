import OsLabs.Lib.Recency
import OsLabs.Lib.Ring
import OsLabs.PageReplace.Equiv.Fifo

/-!
# FIFO evicts in load order

The load history of a run is the list of the pages its misses loaded.  The ring of FIFO, read from
`fifo_head` for `fifo_count` entries, names the occupied frames, and what they hold is the first
`N` entries of the recency order of that history, the oldest one first (`FifoOrder`): what LRU is
on the references, FIFO is on the loads.
-/

namespace OsLabs.PageReplace

open Function

variable {N : ℕ}

/-- The pages loaded by a run, in order. -/
def loads (rs : List AccessResult) : List UInt8 :=
  (rs.filter fun r => r.hit == 0).map AccessResult.loaded

/-- `fifo_queue` read circularly from `fifo_head` for `fifo_count` entries. -/
def Fifo.read (N : ℕ) (fifo : Fifo) : List UInt8 :=
  Ring.read N (fun j => fifo.queue (.ofNat j)) fifo.head.toNat fifo.count.toNat

/-- An entry stored behind the last one. -/
theorem Fifo.read_push (hN : N ≤ 128) {fifo : Fifo} (hcount : fifo.count.toNat < N) (v : UInt8) :
    Fifo.read N { fifo with
        queue := update fifo.queue (.ofNat ((fifo.head.toNat + fifo.count.toNat) % N)) v
        count := fifo.count + 1 }
      = fifo.read N ++ [v] := by
  have hsucc : (fifo.count + 1).toNat = fifo.count.toNat + 1 := by
    rw [UInt8.toNat_add, show (1 : UInt8).toNat = 1 from rfl]
    omega
  obtain ⟨m, hm⟩ : ∃ m, m = (fifo.head.toNat + fifo.count.toNat) % N := ⟨_, rfl⟩
  have hmN : m < N := hm ▸ Nat.mod_lt _ (by omega)
  show Ring.read N (fun j => update fifo.queue (.ofNat (_ % N)) v (.ofNat j)) fifo.head.toNat
    (fifo.count + 1).toNat = _
  rw [hsucc, Fifo.read, ← Ring.read_push hcount, ← hm]
  apply Ring.read_congr (by omega)
  intro j hj
  by_cases hjm : j = m
  · rw [hjm, update_self, update_self]
  · -- slots below `N` are different bytes
    rw [update_of_ne hjm, update_of_ne]
    intro heq
    have hval := congrArg UInt8.toNat heq
    rw [UInt8.toNat_ofNat', UInt8.toNat_ofNat'] at hval
    omega

/-- The head of a full ring moves on. -/
theorem Fifo.read_rotate (hN : N ≤ 128) {fifo : Fifo} (hcount : fifo.count.toNat = N)
    (hhead : fifo.head.toNat < N) : ∃ rest, fifo.read N = fifo.queue fifo.head :: rest ∧
      Fifo.read N { fifo with head := .ofNat ((fifo.head.toNat + 1) % N) }
        = rest ++ [fifo.queue fifo.head] := by
  obtain ⟨rest, hread, hrotate⟩ :=
    Ring.read_rotate (q := fun j => fifo.queue (.ofNat j)) hhead
  rw [UInt8.ofNat_toNat] at hread hrotate
  have hmod := Nat.mod_lt (fifo.head.toNat + 1) (show 0 < N by omega)
  have hhead' : (UInt8.ofNat ((fifo.head.toNat + 1) % N)).toNat = (fifo.head.toNat + 1) % N := by
    rw [UInt8.toNat_ofNat']
    omega
  refine ⟨rest, ?_, ?_⟩
  · rw [Fifo.read, hcount, hread]
  · show Ring.read N _ (UInt8.ofNat ((fifo.head.toNat + 1) % N)).toNat fifo.count.toNat = _
    rw [hhead', hcount, hrotate]

/-- The ring names the frames `is`, which are the occupied ones, and their pages were loaded in
this order. -/
structure FifoOrder (s : State N) (ls : List UInt8) (is : List (Fin N)) : Prop where
  ring : s.fifo.read N = is.map fun i : Fin N => UInt8.ofNat i
  nodup : is.Nodup
  occupied : ∀ i, i ∈ is ↔ s.frames i ≠ FRAME_EMPTY
  loaded : is.map s.frames = ((recency ls).take N).reverse

theorem fifoOrder_reset (s : State N) : FifoOrder (schedulerReset s) [] [] where
  ring := rfl
  nodup := List.nodup_nil
  occupied i := by simp [schedulerReset]
  loaded := by simp

theorem loads_concat (rs : List AccessResult) (r : AccessResult) :
    loads (rs ++ [r]) = if r.hit = 0 then loads rs ++ [r.loaded] else loads rs := by
  by_cases h : r.hit = 0
  · simp [loads, h]
  · simp [loads, h]

namespace FifoOrder

variable {s : State N} {ls : List UInt8} {is : List (Fin N)}

theorem length_eq (h : FifoOrder s ls is) : is.length = s.fifo.count.toNat := by
  have hlen := congrArg List.length h.ring
  rw [Fifo.read, Ring.read, List.length_map, List.length_range, List.length_map] at hlen
  exact hlen.symm

theorem mem_map_iff (h : FifoOrder s ls is) {p : UInt8} :
    p ∈ is.map s.frames ↔ p ∈ resident s.frames := by
  rw [List.mem_map, mem_resident]
  constructor
  · rintro ⟨i, hi, rfl⟩
    exact ⟨(h.occupied i).mp hi, i, rfl⟩
  · rintro ⟨hp, i, rfl⟩
    exact ⟨i, (h.occupied i).mpr hp, rfl⟩

/-- The pages in the order of the ring are in the order of their last loads. -/
theorem pairwise (h : FifoOrder s ls is) :
    (is.map s.frames).Pairwise fun p q => LaterUse ls q p := by
  rw [h.loaded, List.pairwise_reverse]
  exact (pairwise_recency ls).sublist (List.take_sublist ..)

theorem notMem_take (h : FifoOrder s ls is) {page : UInt8} (habsent : ∀ i, s.frames i ≠ page) :
    page ∉ (recency ls).take N := by
  intro hm
  rw [← List.mem_reverse, ← h.loaded] at hm
  obtain ⟨i, -, hi⟩ := List.mem_map.mp hm
  exact habsent i hi

theorem length_take (h : FifoOrder s ls is) :
    ((recency ls).take N).length = s.fifo.count.toNat := by
  rw [← h.length_eq, ← List.length_reverse, ← h.loaded, List.length_map]

/-- A page loaded into frame `i` goes to the end of the load order. -/
theorem push {s' : State N} (h : FifoOrder s ls is) {page : UInt8} (hp : page ≠ FRAME_EMPTY)
    {i : Fin N} {js : List (Fin N)} (hi : i ∉ js) (hnd : js.Nodup)
    (hjs : ∀ j, j ≠ i → (j ∈ js ↔ j ∈ is))
    (hring : s'.fifo.read N = (js ++ [i]).map fun i : Fin N => UInt8.ofNat i)
    (hframes : s'.frames = update s.frames i page)
    (hmove : (recency (ls ++ [page])).take N = page :: (js.map s.frames).reverse) :
    FifoOrder s' (ls ++ [page]) (js ++ [i]) where
  ring := hring
  nodup := by
    rw [List.nodup_append]
    refine ⟨hnd, List.nodup_singleton i, fun a ha b hb => ?_⟩
    rw [List.mem_singleton] at hb
    rintro rfl
    exact hi (hb ▸ ha)
  occupied j := by
    rw [hframes, List.mem_append, List.mem_singleton]
    by_cases hji : j = i
    · rw [hji, update_self]
      exact ⟨fun _ => hp, fun _ => Or.inr rfl⟩
    · rw [update_of_ne hji, ← h.occupied j, hjs j hji]
      exact or_iff_left hji
  loaded := by
    rw [hframes, hmove, List.map_append, map_update_of_notMem hi, List.map_singleton, update_self,
      List.reverse_cons, List.reverse_reverse]

end FifoOrder

/-! ### One access -/

/-- What an access does to the load order `is`. -/
structure FifoMoves (page : UInt8) (s : State N) (ls : List UInt8) (r : AccessResult)
    (s' : State N) : Prop where
  order : ∃ is', FifoOrder s' (if r.hit = 0 then ls ++ [r.loaded] else ls) is'
  hit : r.hit = 1 → s' = { s with hits := s.hits + 1 }
  /-- All other resident pages were loaded after the one dropped. -/
  evicts : r.hit = 0 → (∀ i, s.frames i ≠ FRAME_EMPTY) → r.evicted ∈ resident s.frames ∧
    ∀ p ∈ resident s.frames, p ≠ r.evicted → LaterUse ls p r.evicted

theorem FifoOrder.access (hN : N ≤ 128) {s s' : State N} {page : UInt8} {step : UInt16}
    {r : AccessResult} {ls : List UInt8} {is : List (Fin N)} (hinv : FifoInv s)
    (h : FifoOrder s ls is) (hp : page ≠ FRAME_EMPTY)
    (hfn : schedulerFifo s page step = .ok (r, s')) : FifoMoves page s ls r s' := by
  have hlen := h.length_eq
  have hcount := hinv.count
  rcases findPage_spec hN s.frames page with ⟨i, hi, hidx⟩ | ⟨habsent, hidx⟩
  · rw [schedulerFifo_hit hidx] at hfn
    obtain ⟨rfl, rfl⟩ := Prod.mk.inj (Except.ok.inj hfn)
    exact ⟨⟨is, h.ring, h.nodup, h.occupied, h.loaded⟩, fun _ => rfl,
      fun hmiss => absurd hmiss (show ¬(1 : UInt8) = 0 by decide)⟩
  rcases findEmpty_spec hN s.frames with ⟨i, hi, hfree⟩ | ⟨hfull, hfree⟩
  · -- an empty frame: its index goes to the slot behind the last one
    rw [schedulerFifo_fill hidx hfree] at hfn
    obtain ⟨rfl, rfl⟩ := Prod.mk.inj (Except.ok.inj hfn)
    have hlt := occupied_lt_of_empty hi
    refine ⟨⟨is ++ [i], ?_⟩, fun hhit => absurd hhit (show ¬(0 : UInt8) = 1 by decide),
      fun _ hfull => absurd hi (hfull i)⟩
    apply h.push hp (fun hmem => (h.occupied i).mp hmem hi) h.nodup (fun _ _ => Iff.rfl) _ rfl
    · rw [take_recency_of_lt (h.notMem_take habsent) (by rw [h.length_take]; omega), h.loaded,
        List.reverse_reverse]
    · rw [List.map_append, ← h.ring]
      exact Fifo.read_push hN (by omega) (UInt8.ofNat i)
  · -- a full memory: the head slot moves to the end as the head moves on
    have hocc := occupied_eq_of_full hfull
    obtain ⟨rest, hread, hrotate⟩ := Fifo.read_rotate hN (hcount.trans hocc) hinv.head_lt
    have hring := h.ring
    rw [hread] at hring
    cases is with
    | nil => exact absurd hring (List.cons_ne_nil _ _)
    | cons i js =>
      rw [List.map_cons] at hring
      obtain ⟨hqi, hrest⟩ := List.cons.inj hring
      have hslot : (s.fifo.queue s.fifo.head).toNat = i := by
        rw [hqi, UInt8.toNat_ofNat']
        have := i.isLt
        omega
      rw [schedulerFifo_evict hidx hfree hslot] at hfn
      obtain ⟨rfl, rfl⟩ := Prod.mk.inj (Except.ok.inj hfn)
      have hnd := h.nodup
      rw [List.nodup_cons] at hnd
      have hloaded := congrArg List.reverse h.loaded
      rw [List.reverse_reverse, List.map_cons, List.reverse_cons] at hloaded
      refine ⟨⟨js ++ [i], ?_⟩, fun hhit => absurd hhit (show ¬(0 : UInt8) = 1 by decide),
        fun _ _ => ⟨mem_resident.mpr ⟨hfull i, i, rfl⟩, fun p hp hne => ?_⟩⟩
      · -- the frame goes to the end of the order, with its new page
        apply h.push hp hnd.1 hnd.2 (fun j hj => by simp [hj]) _ rfl
        · rw [take_recency_of_full (by omega) (h.notMem_take habsent)
            (by rw [h.length_take]; omega), ← hloaded, List.dropLast_concat]
        · rw [List.map_append, ← hrest, List.map_singleton, ← hqi]
          exact hrotate
      · -- the page dropped was at the head, before all others
        have hord := h.pairwise
        rw [List.map_cons, List.pairwise_cons] at hord
        have hmem := h.mem_map_iff.mpr hp
        rw [List.map_cons, List.mem_cons] at hmem
        exact hord.1 p (hmem.resolve_left hne)

/-! ### Runs -/

/-- The load order after `k` references. -/
theorem fifo_run (hN : 1 ≤ N) (hN' : N ≤ 128) (s₀ : State N) {query : List UInt8}
    (hq : ∀ p ∈ query, p ≠ FRAME_EMPTY) :
    ∀ k ≤ query.length, ∃ s rs is, runSteps schedulerFifo s₀ query k = .ok (s, rs) ∧
      FifoInv s ∧ FifoOrder s (loads rs) is := by
  intro k
  induction k with
  | zero => exact fun _ => ⟨_, _, [], rfl, fifoInv_reset hN _, fifoOrder_reset _⟩
  | succ k ih =>
    intro hk
    obtain ⟨s, rs, is, hrun, hinv, horder⟩ := ih (by omega)
    have hp := getD_ne_empty hq (show k < query.length by omega)
    obtain ⟨r, s', hfn, -, hinv'⟩ := schedulerFifo_step hN' (UInt16.ofNat k) hinv hp
    obtain ⟨is', horder'⟩ := (horder.access hN' hinv hp hfn).order
    refine ⟨s', rs ++ [r], is', runSteps_succ_of_ok hrun hfn, hinv', ?_⟩
    rw [loads_concat]
    exact horder'

/-- **FIFO evicts in load order.**  In every state reached the ring names distinct frames, in the
order of the last loads of their pages, and all frames once none is empty; the next access,
whatever page it is to, changes nothing but the counter when it is a hit, and drops the resident
page loaded earliest when it is a miss on a full memory. -/
theorem fifo_load_order (hN : 1 ≤ N) (hN' : N ≤ 128) (s₀ : State N) {query : List UInt8}
    (hq : ∀ p ∈ query, p ≠ FRAME_EMPTY) {k : ℕ} (hk : k ≤ query.length) {page : UInt8}
    (hp : page ≠ FRAME_EMPTY) (step : UInt16) :
    ∃ s rs is r s', runSteps schedulerFifo s₀ query k = .ok (s, rs) ∧
      FifoOrder s (loads rs) is ∧
      ((is.map s.frames).Pairwise fun p q => LaterUse (loads rs) q p) ∧
      ((∀ i, s.frames i ≠ FRAME_EMPTY) → ∀ i, i ∈ is) ∧
      schedulerFifo s page step = .ok (r, s') ∧
      (r.hit = 1 → s' = { s with hits := s.hits + 1 }) ∧
      (r.hit = 0 → (∀ i, s.frames i ≠ FRAME_EMPTY) → r.evicted ∈ resident s.frames ∧
        ∀ p ∈ resident s.frames, p ≠ r.evicted → LaterUse (loads rs) p r.evicted) := by
  obtain ⟨s, rs, is, hrun, hinv, horder⟩ := fifo_run hN hN' s₀ hq k hk
  obtain ⟨r, s', hfn, -⟩ := schedulerFifo_step hN' step hinv hp
  have hmoves := horder.access hN' hinv hp hfn
  exact ⟨s, rs, is, r, s', hrun, horder, horder.pairwise,
    fun hfull i => (horder.occupied i).mpr (hfull i), hfn, hmoves.hit, hmoves.evicts⟩

/-- Two frames after the references `1 2 1 3`; the next reference is to page `1`. -/
theorem fifo_load_order_two :
    ∃ s rs is r s', runSteps schedulerFifo (zeroMemory 2) [1, 2, 1, 3] 4 = .ok (s, rs) ∧
      FifoOrder s (loads rs) is ∧
      ((is.map s.frames).Pairwise fun p q => LaterUse (loads rs) q p) ∧
      ((∀ i, s.frames i ≠ FRAME_EMPTY) → ∀ i, i ∈ is) ∧
      schedulerFifo s 1 4 = .ok (r, s') ∧
      (r.hit = 1 → s' = { s with hits := s.hits + 1 }) ∧
      (r.hit = 0 → (∀ i, s.frames i ≠ FRAME_EMPTY) → r.evicted ∈ resident s.frames ∧
        ∀ p ∈ resident s.frames, p ≠ r.evicted → LaterUse (loads rs) p r.evicted) :=
  fifo_load_order (by decide) (by decide) (zeroMemory 2) (by simp [FRAME_EMPTY]) (by decide)
    (by decide) 4

end OsLabs.PageReplace
