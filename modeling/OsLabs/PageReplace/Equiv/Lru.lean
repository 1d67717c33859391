import OsLabs.PageReplace.Equiv.Nodes

/-!
# LRU refines the replacement machine

Every access moves one node to the front of the list; `LruAccess` is the three ways to do that.
`LruInv s xs`: the list of `s` is `xs`, most recently used node first; its nodes are the first
`lru_count` of the pool and stand for the occupied frames.
-/

namespace OsLabs.PageReplace

open Function

variable {N : ℕ}

/-- The list read from `lru_head` is `xs`, and its nodes are the occupied frames. -/
structure LruInv (s : State N) (xs : List UInt8) : Prop where
  isList : DList.IsList s.lru.links xs
  nodes : NodesMatch s.frames s.lru.page s.lru.frameIdx xs
  /-- The nodes come from the used part of the pool. -/
  allocated : ∀ n ∈ xs, n.toNat < s.lru.count.toNat
  length : xs.length = s.lru.count.toNat
  count : s.lru.count.toNat = occupied s.frames

theorem lruInv_reset (s : State N) : LruInv (schedulerReset s) [] where
  isList := DList.isList_clear _
  nodes := NodesMatch.nil fun _ => rfl
  allocated := by simp
  length := rfl
  count := (occupied_reset s).symm

/-! ### The three branches -/

theorem schedulerLru_hit {s : State N} {page n : UInt8}
    (hsearch : DList.search s.lru.links.next (fun n => s.lru.page n == page) POOL_SIZE
      s.lru.links.head = some (some n)) (step : UInt16) :
    schedulerLru s page step
      = .ok (⟨1, FRAME_EMPTY, page, s.lru.frameIdx n⟩,
          { s with
            hits := s.hits + 1
            lru := { s.lru with links := (s.lru.links.remove n).pushFront n } }) := by
  unfold schedulerLru
  simp only [hsearch]
  rfl

theorem schedulerLru_fill {s : State N} {page : UInt8} {i : Fin N}
    (hsearch : DList.search s.lru.links.next (fun n => s.lru.page n == page) POOL_SIZE
      s.lru.links.head = some none)
    (hfree : findEmpty s.frames = (i : ℕ)) (step : UInt16) :
    schedulerLru s page step
      = .ok (⟨0, FRAME_EMPTY, page, .ofNat i⟩,
          { s with
            misses := s.misses + 1
            frames := update s.frames i page
            lru :=
              { links := s.lru.links.pushFront s.lru.count
                page := update s.lru.page s.lru.count page
                frameIdx := update s.lru.frameIdx s.lru.count (.ofNat i)
                count := s.lru.count + 1 } }) := by
  unfold schedulerLru
  simp only [hsearch, hfree, ne_eq, fin_ne_neg_one, not_false_eq_true, if_true, setFrame_fin,
    ofInt_fin]
  rfl

theorem schedulerLru_evict {s : State N} {page victim : UInt8} {i : Fin N}
    (hsearch : DList.search s.lru.links.next (fun n => s.lru.page n == page) POOL_SIZE
      s.lru.links.head = some none)
    (hfree : findEmpty s.frames = -1) (htail : s.lru.links.tail = some victim)
    (hi : (s.lru.frameIdx victim).toNat = i) (step : UInt16) :
    schedulerLru s page step
      = .ok (⟨0, s.lru.page victim, page, .ofNat i⟩,
          { s with
            misses := s.misses + 1
            frames := update s.frames i page
            lru := { s.lru with
              links := (s.lru.links.remove victim).pushFront victim
              page := update s.lru.page victim page } }) := by
  have hidx : s.lru.frameIdx victim = .ofNat i := by
    rw [← hi, UInt8.ofNat_toNat]
  unfold schedulerLru
  simp only [hsearch, hfree, ne_eq, not_true, if_false, htail, hi, setFrame_fin]
  rw [hidx]
  rfl

/-- What an access can do to a list `xs`: the result, the memory after it and its list. -/
inductive LruAccess (page : UInt8) (s : State N) :
    List UInt8 → AccessResult → State N → List UInt8 → Prop where
  | hit {as bs : List UInt8} {n : UInt8} (hpage : s.lru.page n = page) :
    LruAccess page s (as ++ n :: bs) ⟨1, FRAME_EMPTY, page, s.lru.frameIdx n⟩
      { s with
        hits := s.hits + 1
        lru := { s.lru with links := (s.lru.links.remove n).pushFront n } } (n :: (as ++ bs))
  | fill {xs : List UInt8} (i : Fin N) (absent : page ∉ xs.map s.lru.page)
    (hi : s.frames i = FRAME_EMPTY) :
    LruAccess page s xs ⟨0, FRAME_EMPTY, page, .ofNat i⟩
      { s with
        misses := s.misses + 1
        frames := update s.frames i page
        lru :=
          { links := s.lru.links.pushFront s.lru.count
            page := update s.lru.page s.lru.count page
            frameIdx := update s.lru.frameIdx s.lru.count (.ofNat i)
            count := s.lru.count + 1 } } (s.lru.count :: xs)
  | evict {as : List UInt8} {victim : UInt8} (i : Fin N)
    (absent : page ∉ (as ++ [victim]).map s.lru.page) (full : ∀ j, s.frames j ≠ FRAME_EMPTY)
    (hi : (s.lru.frameIdx victim).toNat = i) :
    LruAccess page s (as ++ [victim]) ⟨0, s.lru.page victim, page, .ofNat i⟩
      { s with
        misses := s.misses + 1
        frames := update s.frames i page
        lru := { s.lru with
          links := (s.lru.links.remove victim).pushFront victim
          page := update s.lru.page victim page } } (victim :: as)

/-- A page of the list is found, and its node moves to the front. -/
theorem schedulerLru_found {s : State N} {xs : List UInt8}
    (hlist : DList.IsList s.lru.links xs) (hlen : xs.length ≤ POOL_SIZE) {page : UInt8}
    (hpage : page ∈ xs.map s.lru.page) (step : UInt16) :
    ∃ r s' ys, schedulerLru s page step = .ok (r, s') ∧ LruAccess page s xs r s' ys ∧
      DList.IsList s'.lru.links ys := by
  obtain ⟨n, hn, hnp, hsearch⟩ := search_of_mem hlist hlen hpage
  obtain ⟨as, bs, rfl⟩ := List.append_of_mem hn
  exact ⟨_, _, _, schedulerLru_hit hsearch step, .hit hnp, hlist.moveFront⟩

/-- An access to a list of usable nodes returns and does one of these things. -/
theorem schedulerLru_access (hN : N ≤ 128) {s : State N} {xs : List UInt8}
    (hlist : DList.IsList s.lru.links xs)
    (husable : Usable s.frames s.lru.count s.lru.page s.lru.frameIdx xs) (page : UInt8)
    (step : UInt16) :
    ∃ r s' ys, schedulerLru s page step = .ok (r, s') ∧ LruAccess page s xs r s' ys ∧
      DList.IsList s'.lru.links ys := by
  by_cases hpage : page ∈ xs.map s.lru.page
  · exact schedulerLru_found hlist husable.length_le hpage step
  have hsearch := search_of_notMem hlist husable.length_le hpage
  rcases findEmpty_spec hN s.frames with ⟨i, hi, hfree⟩ | ⟨hfull, hfree⟩
  · -- an empty frame: the next node of the pool is new
    exact ⟨_, _, _, schedulerLru_fill hsearch hfree step, .fill i hpage hi,
      hlist.pushFront (husable.fresh page hpage)⟩
  · -- no empty frame: the list has a last node, and it is reused
    rcases List.eq_nil_or_concat xs with hnil | ⟨as, victim, rfl⟩
    · exact absurd hnil (husable.ne_nil hfull)
    rw [List.concat_eq_append] at *
    have htail : s.lru.links.tail = some victim := by
      rw [hlist.tail_eq]
      simp
    obtain ⟨i, hi⟩ := husable.inFrame victim (by simp)
    have hmoved := hlist.moveFront
    rw [List.append_nil] at hmoved
    exact ⟨_, _, _, schedulerLru_evict hsearch hfree htail hi step, .evict i hpage hfull hi, hmoved⟩

/-! ### The step -/

theorem LruInv.usable (hN : 1 ≤ N) (hN' : N ≤ 128) {s : State N} {xs : List UInt8}
    (h : LruInv s xs) : Usable s.frames s.lru.count s.lru.page s.lru.frameIdx xs :=
  h.nodes.usable hN (by omega) h.allocated h.length h.count

/-- What the access does to the frames, and that it keeps the invariant. -/
theorem LruInv.access (hN : 1 ≤ N) (hN' : N ≤ 128) {s s' : State N} {page : UInt8}
    {r : AccessResult} {xs ys : List UInt8} (hinv : LruInv s xs) (hp : page ≠ FRAME_EMPTY)
    (hacc : LruAccess page s xs r s' ys) (hlist : DList.IsList s'.lru.links ys) :
    Accessed page s r s' ∧ LruInv s' ys := by
  have hlen := hinv.length
  have hcount := hinv.count
  cases hacc with
  | @hit as bs n hpage =>
    have hmem (m : UInt8) : m ∈ n :: (as ++ bs) ↔ m ∈ as ++ n :: bs := by
      simp only [List.mem_cons, List.mem_append]
      tauto
    obtain ⟨-, i, hi, hfi⟩ := hinv.nodes.inFrame n ((hmem n).mp (List.mem_cons_self ..))
    have hidx : s.lru.frameIdx n = .ofNat i := by
      rw [← hi, UInt8.ofNat_toNat]
    -- the same nodes in another order: nothing else of the invariant depends on it
    refine ⟨⟨?_, rfl, rfl, rfl⟩, hlist, hinv.nodes.congr hmem, ?_, ?_, hcount⟩
    · rw [hidx]
      exact .hit i (hfi.trans hpage)
    · exact fun m hm => hinv.allocated m ((hmem m).mp hm)
    · simp only [List.length_append, List.length_cons] at hlen ⊢
      omega
  | fill i absent hi =>
    have hlt := occupied_lt_of_empty hi
    have hsucc : (s.lru.count + 1).toNat = s.lru.count.toNat + 1 := by
      rw [UInt8.toNat_add, show (1 : UInt8).toNat = 1 from rfl]
      omega
    refine ⟨⟨.fill i (hinv.nodes.absent hp absent) hi, rfl, rfl, rfl⟩, hlist,
      hinv.nodes.fill (by omega) hp ((hinv.usable hN hN').fresh page absent) hi, ?_, ?_, ?_⟩
    · intro m hm
      show m.toNat < (s.lru.count + 1).toNat
      rw [hsucc]
      rcases List.mem_cons.mp hm with rfl | hm
      · omega
      · have := hinv.allocated m hm
        omega
    · show (s.lru.count :: xs).length = (s.lru.count + 1).toNat
      rw [List.length_cons, hlen, hsucc]
    · show (s.lru.count + 1).toNat = occupied (update s.frames i page)
      rw [hsucc, occupied_fill hi hp, hcount]
  | @evict as victim i absent full hi =>
    have hmem (m : UInt8) : m ∈ victim :: as ↔ m ∈ as ++ [victim] := by
      simp only [List.mem_cons, List.mem_append, List.not_mem_nil, or_false]
      tauto
    have hmemv : victim ∈ as ++ [victim] := by simp
    obtain ⟨-, j, hj, hfj⟩ := hinv.nodes.inFrame victim hmemv
    -- the frame of the victim is the one its node names
    obtain rfl : i = j := Fin.ext (hi.symm.trans hj)
    refine ⟨⟨?_, rfl, rfl, rfl⟩, hlist, (hinv.nodes.replace hp hmemv hi).congr hmem, ?_, ?_, ?_⟩
    · rw [← hfj]
      exact .evict i (hinv.nodes.absent hp absent) full
    · exact fun m hm => hinv.allocated m ((hmem m).mp hm)
    · rw [List.length_append, List.length_singleton] at hlen
      exact hlen
    · exact hcount.trans (occupied_replace (full i) hp).symm

/-- An access from a state that meets the invariant. -/
theorem LruInv.exists_access (hN : 1 ≤ N) (hN' : N ≤ 128) {s : State N} {page : UInt8}
    {xs : List UInt8} (step : UInt16) (hinv : LruInv s xs) (hp : page ≠ FRAME_EMPTY) :
    ∃ r s' ys, schedulerLru s page step = .ok (r, s') ∧ LruAccess page s xs r s' ys ∧
      Accessed page s r s' ∧ LruInv s' ys := by
  obtain ⟨r, s', ys, hfn, hacc, hlist⟩ :=
    schedulerLru_access hN' hinv.isList (hinv.usable hN hN') page step
  exact ⟨r, s', ys, hfn, hacc, hinv.access hN hN' hp hacc hlist⟩

/-- LRU as a refinement of the replacement machine. -/
def lruRefinement (hN : 1 ≤ N) (hN' : N ≤ 128) : Refinement (schedulerLru (N := N)) where
  Inv s := ∃ xs, LruInv s xs
  reset s := ⟨[], lruInv_reset s⟩
  step {s page} step hinv hp := by
    obtain ⟨xs, hxs⟩ := hinv
    obtain ⟨r, s', ys, hfn, -, hacc, hys⟩ := hxs.exists_access hN hN' step hp
    exact ⟨r, s', hfn, hacc, ys, hys⟩

end OsLabs.PageReplace
