import OsLabs.PageReplace.Equiv.Nodes
import Mathlib.Data.List.TakeWhile

/-!
# Second Chance refines the replacement machine

The clock sweep takes the nodes with a set bit from the front of the queue, up to the first one
whose bit is clear, and moves them to the back with their bits cleared (`scSweep_eq`); when all
bits are set it goes once around.  One round at a time this is `scSweep_rotate`, an induction on
the nodes that are moved.  `ScAccess` is the three things an access can do to the queue.

`ScInv s xs`: the queue of `s` is `xs`, next candidate first; its nodes are the first `sc_count`
of the pool and stand for the occupied frames.
-/

namespace OsLabs.PageReplace

open Function

variable {N : ℕ}

/-- The list read from `sc_head` is `xs`, and its nodes are the occupied frames. -/
structure ScInv (s : State N) (xs : List UInt8) : Prop where
  isList : DList.IsList s.sc.links xs
  nodes : NodesMatch s.frames s.sc.page s.sc.frameIdx xs
  /-- The nodes come from the used part of the pool. -/
  allocated : ∀ n ∈ xs, n.toNat < s.sc.count.toNat
  length : xs.length = s.sc.count.toNat
  count : s.sc.count.toNat = occupied s.frames

theorem scInv_reset (s : State N) : ScInv (schedulerReset s) [] where
  isList := DList.isList_clear _
  nodes := NodesMatch.nil fun _ => rfl
  allocated := by simp
  length := rfl
  count := (occupied_reset s).symm

/-! ### The clock sweep -/

/-- Moving the nodes `as` from the front to the back, one by one. -/
theorem scSweep_rotate (as bs : List UInt8) (fuel : ℕ) {sc : SecondChance}
    (hlist : DList.IsList sc.links (as ++ bs)) (hbits : ∀ n ∈ as, sc.refBit n ≠ 0) :
    ∃ links refBit, scSweep (fuel + as.length) sc
        = scSweep fuel { sc with links := links, refBit := refBit } ∧
      DList.IsList links (bs ++ as) ∧ ∀ m, refBit m = if m ∈ as then 0 else sc.refBit m := by
  induction as generalizing bs sc with
  | nil =>
    refine ⟨sc.links, sc.refBit, rfl, ?_, fun m => ?_⟩
    · rw [List.append_nil]
      exact hlist
    · rw [if_neg (List.not_mem_nil)]
  | cons n as ih =>
    have hnd := hlist.nodup
    rw [List.cons_append, List.nodup_cons] at hnd
    -- the head has its bit set: one round of the loop
    have hhead : sc.links.head = some n := by
      rw [hlist.head_eq]
      rfl
    have hbit : sc.refBit n ≠ 0 := hbits n (List.mem_cons_self ..)
    have hround : scSweep (fuel + (n :: as).length) sc
        = scSweep (fuel + as.length)
          { sc with
            links := (sc.links.remove n).pushBack n
            refBit := update sc.refBit n 0 } := by
      rw [show fuel + (n :: as).length = (fuel + as.length) + 1 from rfl, scSweep]
      simp only [hhead, ne_eq, hbit, not_false_eq_true, if_true]
      rfl
    have hlist' : DList.IsList ((sc.links.remove n).pushBack n) (as ++ (bs ++ [n])) := by
      have hrem : DList.IsList (sc.links.remove n) (as ++ bs) :=
        (show DList.IsList sc.links ([] ++ _) from hlist).remove
      rw [← List.append_assoc]
      exact hrem.pushBack hnd.1
    have hbits' : ∀ m ∈ as, update sc.refBit n 0 m ≠ 0 := by
      intro m hm
      have hne : m ≠ n := by
        rintro rfl
        exact hnd.1 (List.mem_append_left _ hm)
      rw [update_of_ne hne]
      exact hbits m (List.mem_cons_of_mem _ hm)
    obtain ⟨links, refBit, hsweep, hl, href⟩ := @ih (bs ++ [n])
      { sc with
        links := (sc.links.remove n).pushBack n
        refBit := update sc.refBit n 0 } hlist' hbits'
    refine ⟨links, refBit, hround.trans hsweep, ?_, fun m => ?_⟩
    · rw [List.append_assoc, List.singleton_append] at hl
      exact hl
    · rw [href m]
      by_cases hm : m ∈ as
      · rw [if_pos hm, if_pos (List.mem_cons_of_mem _ hm)]
      · by_cases hmn : m = n
        · rw [if_neg hm, hmn, if_pos (List.mem_cons_self ..)]
          exact update_self ..
        · rw [if_neg hm, if_neg (by simp [hm, hmn])]
          exact update_of_ne hmn ..

/-- **The sweep**: the nodes before the first one with a clear bit go to the back, with their
bits cleared. -/
theorem scSweep_eq {sc : SecondChance} {xs : List UInt8} (hlist : DList.IsList sc.links xs)
    (hne : xs ≠ []) {fuel : ℕ} (hfuel : xs.length ≤ fuel) :
    ∃ links refBit, scSweep fuel sc = .ok { sc with links := links, refBit := refBit } ∧
      DList.IsList links (xs.dropWhile (sc.refBit · != 0) ++ xs.takeWhile (sc.refBit · != 0)) ∧
      ∀ m, refBit m = if m ∈ xs.takeWhile (sc.refBit · != 0) then 0 else sc.refBit m := by
  obtain ⟨as, has⟩ : ∃ as, as = xs.takeWhile (sc.refBit · != 0) := ⟨_, rfl⟩
  obtain ⟨bs, hbs⟩ : ∃ bs, bs = xs.dropWhile (sc.refBit · != 0) := ⟨_, rfl⟩
  have hsplit : as ++ bs = xs := by rw [has, hbs, List.takeWhile_append_dropWhile]
  have hbits : ∀ n ∈ as, sc.refBit n ≠ 0 := by
    intro n hn
    rw [has] at hn
    simpa using List.mem_takeWhile_imp hn
  have hlen : as.length ≤ fuel := by
    rw [← hsplit, List.length_append] at hfuel
    omega
  rw [← hsplit] at hlist
  rw [← has, ← hbs]
  obtain ⟨links, refBit, hsweep, hl, href⟩ :=
    scSweep_rotate as bs (fuel - as.length) hlist hbits
  rw [Nat.sub_add_cancel hlen] at hsweep
  refine ⟨links, refBit, ?_, hl, href⟩
  -- whichever node is now at the head has a clear bit, so the loop stops
  obtain ⟨v, hv, hclear⟩ : ∃ v, (bs ++ as).head? = some v ∧ refBit v = 0 := by
    cases hb : bs with
    | nil =>
      cases ha : as with
      | nil => exact absurd (by rw [← hsplit, ha, hb, List.append_nil]) hne
      | cons a as' =>
        refine ⟨a, rfl, ?_⟩
        rw [href a, if_pos (by rw [ha]; exact List.mem_cons_self ..)]
    | cons b bs' =>
      have hbit : sc.refBit b = 0 := by
        have h := List.head?_dropWhile_not (sc.refBit · != 0) xs
        rw [← hbs, hb, List.head?_cons] at h
        simpa using h
      refine ⟨b, rfl, ?_⟩
      rw [href b, hbit, ite_self]
  have hhead : links.head = some v := by rw [hl.head_eq, hv]
  rw [hsweep, scSweep.eq_def]
  simp only [hhead, hclear, ne_eq, not_true_eq_false, if_false]

/-! ### The three branches -/

theorem schedulerSecondChance_hit {s : State N} {page n : UInt8}
    (hsearch : DList.search s.sc.links.next (fun n => s.sc.page n == page) POOL_SIZE
      s.sc.links.head = some (some n)) (step : UInt16) :
    schedulerSecondChance s page step
      = .ok (⟨1, FRAME_EMPTY, page, s.sc.frameIdx n⟩,
          { s with
            hits := s.hits + 1
            sc := { s.sc with refBit := update s.sc.refBit n 1 } }) := by
  unfold schedulerSecondChance
  simp only [hsearch]

theorem schedulerSecondChance_fill {s : State N} {page : UInt8} {i : Fin N}
    (hsearch : DList.search s.sc.links.next (fun n => s.sc.page n == page) POOL_SIZE
      s.sc.links.head = some none)
    (hfree : findEmpty s.frames = (i : ℕ)) (step : UInt16) :
    schedulerSecondChance s page step
      = .ok (⟨0, FRAME_EMPTY, page, .ofNat i⟩,
          { s with
            misses := s.misses + 1
            frames := update s.frames i page
            sc :=
              { links := s.sc.links.pushBack s.sc.count
                page := update s.sc.page s.sc.count page
                frameIdx := update s.sc.frameIdx s.sc.count (.ofNat i)
                refBit := update s.sc.refBit s.sc.count 0
                count := s.sc.count + 1 } }) := by
  unfold schedulerSecondChance
  simp only [hsearch, hfree, ne_eq, fin_ne_neg_one, not_false_eq_true, if_true, setFrame_fin,
    ofInt_fin]
  rfl

theorem schedulerSecondChance_evict {s : State N} {page victim : UInt8} {sc : SecondChance}
    {i : Fin N}
    (hsearch : DList.search s.sc.links.next (fun n => s.sc.page n == page) POOL_SIZE
      s.sc.links.head = some none)
    (hfree : findEmpty s.frames = -1) (hsweep : scSweep POOL_SIZE s.sc = .ok sc)
    (hhead : sc.links.head = some victim) (hi : (sc.frameIdx victim).toNat = i) (step : UInt16) :
    schedulerSecondChance s page step
      = .ok (⟨0, sc.page victim, page, .ofNat i⟩,
          { s with
            misses := s.misses + 1
            frames := update s.frames i page
            sc := { sc with
              links := (sc.links.remove victim).pushBack victim
              page := update sc.page victim page
              refBit := update sc.refBit victim 0 } }) := by
  have hidx : sc.frameIdx victim = .ofNat i := by
    rw [← hi, UInt8.ofNat_toNat]
  unfold schedulerSecondChance
  simp only [hsearch, hfree, ne_eq, not_true, if_false, hsweep, bind, Except.bind, hhead, hi,
    setFrame_fin]
  rw [hidx]
  rfl

/-- What an access can do to a queue `xs`: the result, the memory after it and its queue. -/
inductive ScAccess (page : UInt8) (s : State N) (xs : List UInt8) :
    AccessResult → State N → List UInt8 → Prop where
  | hit {n : UInt8} (hn : n ∈ xs) (hpage : s.sc.page n = page) :
    ScAccess page s xs ⟨1, FRAME_EMPTY, page, s.sc.frameIdx n⟩
      { s with
        hits := s.hits + 1
        sc := { s.sc with refBit := update s.sc.refBit n 1 } } xs
  | fill (i : Fin N) (absent : page ∉ xs.map s.sc.page) (hi : s.frames i = FRAME_EMPTY) :
    ScAccess page s xs ⟨0, FRAME_EMPTY, page, .ofNat i⟩
      { s with
        misses := s.misses + 1
        frames := update s.frames i page
        sc :=
          { links := s.sc.links.pushBack s.sc.count
            page := update s.sc.page s.sc.count page
            frameIdx := update s.sc.frameIdx s.sc.count (.ofNat i)
            refBit := update s.sc.refBit s.sc.count 0
            count := s.sc.count + 1 } } (xs ++ [s.sc.count])
  /-- `links` and `refBit` are what the sweep leaves. -/
  | evict {victim : UInt8} {zs : List UInt8} {links : DList UInt8} {refBit : UInt8 → UInt8}
    (i : Fin N) (absent : page ∉ xs.map s.sc.page) (full : ∀ j, s.frames j ≠ FRAME_EMPTY)
    (hrotate : xs.dropWhile (s.sc.refBit · != 0) ++ xs.takeWhile (s.sc.refBit · != 0)
      = victim :: zs)
    (hbits : ∀ m, refBit m
      = if m ∈ xs.takeWhile (s.sc.refBit · != 0) then 0 else s.sc.refBit m)
    (hi : (s.sc.frameIdx victim).toNat = i) :
    ScAccess page s xs ⟨0, s.sc.page victim, page, .ofNat i⟩
      { s with
        misses := s.misses + 1
        frames := update s.frames i page
        sc :=
          { links := (links.remove victim).pushBack victim
            page := update s.sc.page victim page
            frameIdx := s.sc.frameIdx
            refBit := update refBit victim 0
            count := s.sc.count } } (zs ++ [victim])

theorem perm_of_rotate {xs ys : List UInt8} {p : UInt8 → Bool}
    (h : xs.dropWhile p ++ xs.takeWhile p = ys) : ys.Perm xs := by
  rw [← h]
  apply List.perm_append_comm.trans
  rw [List.takeWhile_append_dropWhile]

/-- A page of the queue is found, and only its reference bit changes. -/
theorem schedulerSecondChance_found {s : State N} {xs : List UInt8}
    (hlist : DList.IsList s.sc.links xs) (hlen : xs.length ≤ POOL_SIZE) {page : UInt8}
    (hpage : page ∈ xs.map s.sc.page) (step : UInt16) :
    ∃ r s' ys, schedulerSecondChance s page step = .ok (r, s') ∧ ScAccess page s xs r s' ys ∧
      DList.IsList s'.sc.links ys := by
  obtain ⟨n, hn, hnp, hsearch⟩ := search_of_mem hlist hlen hpage
  exact ⟨_, _, xs, schedulerSecondChance_hit hsearch step, .hit hn hnp, hlist⟩

/-- An access to a queue of usable nodes returns and does one of these things. -/
theorem schedulerSecondChance_access (hN : N ≤ 128) {s : State N} {xs : List UInt8}
    (hlist : DList.IsList s.sc.links xs)
    (husable : Usable s.frames s.sc.count s.sc.page s.sc.frameIdx xs) (page : UInt8)
    (step : UInt16) :
    ∃ r s' ys, schedulerSecondChance s page step = .ok (r, s') ∧ ScAccess page s xs r s' ys ∧
      DList.IsList s'.sc.links ys := by
  by_cases hpage : page ∈ xs.map s.sc.page
  · exact schedulerSecondChance_found hlist husable.length_le hpage step
  have hsearch := search_of_notMem hlist husable.length_le hpage
  rcases findEmpty_spec hN s.frames with ⟨i, hi, hfree⟩ | ⟨hfull, hfree⟩
  · -- an empty frame: the next node of the pool is new
    exact ⟨_, _, _, schedulerSecondChance_fill hsearch hfree step, .fill i hpage hi,
      hlist.pushBack (husable.fresh page hpage)⟩
  · -- no empty frame: the queue has a head after the sweep, and it is reused
    have hne := husable.ne_nil hfull
    obtain ⟨links, refBit, hsweep, hswept, hbits⟩ := scSweep_eq hlist hne husable.length_le
    cases hrotate : xs.dropWhile (s.sc.refBit · != 0) ++ xs.takeWhile (s.sc.refBit · != 0) with
    | nil => exact absurd (List.perm_nil.mp (perm_of_rotate hrotate).symm) hne
    | cons victim zs =>
      rw [hrotate] at hswept
      have hhead : links.head = some victim := hswept.head_eq
      obtain ⟨i, hi⟩ := husable.inFrame victim
        ((perm_of_rotate hrotate).mem_iff.mp (List.mem_cons_self ..))
      have hrem : DList.IsList (links.remove victim) zs :=
        (show DList.IsList links ([] ++ _) from hswept).remove
      exact ⟨_, _, _, schedulerSecondChance_evict hsearch hfree hsweep hhead hi step,
        .evict i hpage hfull hrotate hbits hi,
        hrem.pushBack (List.nodup_cons.mp hswept.nodup).1⟩

/-! ### The step -/

theorem ScInv.usable (hN : 1 ≤ N) (hN' : N ≤ 128) {s : State N} {xs : List UInt8}
    (h : ScInv s xs) : Usable s.frames s.sc.count s.sc.page s.sc.frameIdx xs :=
  h.nodes.usable hN (by omega) h.allocated h.length h.count

/-- What the access does to the frames, and that it keeps the invariant. -/
theorem ScInv.access (hN : 1 ≤ N) (hN' : N ≤ 128) {s s' : State N} {page : UInt8}
    {r : AccessResult} {xs ys : List UInt8} (hinv : ScInv s xs) (hp : page ≠ FRAME_EMPTY)
    (hacc : ScAccess page s xs r s' ys) (hlist : DList.IsList s'.sc.links ys) :
    Accessed page s r s' ∧ ScInv s' ys := by
  have hlen := hinv.length
  have hcount := hinv.count
  cases hacc with
  | @hit n hn hpage =>
    obtain ⟨-, i, hi, hfi⟩ := hinv.nodes.inFrame n hn
    have hidx : s.sc.frameIdx n = .ofNat i := by
      rw [← hi, UInt8.ofNat_toNat]
    refine ⟨⟨?_, rfl, rfl, rfl⟩, hlist, hinv.nodes, hinv.allocated, hlen, hcount⟩
    rw [hidx]
    exact .hit i (hfi.trans hpage)
  | fill i absent hi =>
    have hlt := occupied_lt_of_empty hi
    have hsucc : (s.sc.count + 1).toNat = s.sc.count.toNat + 1 := by
      have hocc := occupied_le s.frames
      rw [UInt8.toNat_add, show (1 : UInt8).toNat = 1 from rfl]
      omega
    have hmem (m : UInt8) : m ∈ xs ++ [s.sc.count] ↔ m ∈ s.sc.count :: xs := by
      simp only [List.mem_cons, List.mem_append, List.not_mem_nil, or_false]
      tauto
    refine ⟨⟨.fill i (hinv.nodes.absent hp absent) hi, rfl, rfl, rfl⟩, hlist,
      (hinv.nodes.fill (by omega) hp ((hinv.usable hN hN').fresh page absent) hi).congr hmem,
      ?_, ?_, ?_⟩
    · intro m hm
      show m.toNat < (s.sc.count + 1).toNat
      rw [hsucc]
      rcases List.mem_cons.mp ((hmem m).mp hm) with rfl | hm
      · omega
      · have := hinv.allocated m hm
        omega
    · show (xs ++ [s.sc.count]).length = (s.sc.count + 1).toNat
      rw [List.length_append, List.length_singleton, hlen, hsucc]
    · show (s.sc.count + 1).toNat = occupied (update s.frames i page)
      rw [hsucc, occupied_fill hi hp, hcount]
  | @evict victim zs links refBit i absent full hrotate hbits hi =>
    have hperm := perm_of_rotate hrotate
    have hmemv : victim ∈ xs := hperm.mem_iff.mp (List.mem_cons_self ..)
    have hmem (m : UInt8) : m ∈ zs ++ [victim] ↔ m ∈ xs := by
      rw [← hperm.mem_iff]
      simp only [List.mem_cons, List.mem_append, List.not_mem_nil, or_false]
      tauto
    obtain ⟨-, j, hj, hfj⟩ := hinv.nodes.inFrame victim hmemv
    obtain rfl : i = j := Fin.ext (hi.symm.trans hj)
    refine ⟨⟨?_, rfl, rfl, rfl⟩, hlist, (hinv.nodes.replace hp hmemv hi).congr hmem, ?_, ?_, ?_⟩
    · rw [← hfj]
      exact .evict i (hinv.nodes.absent hp absent) full
    · exact fun m hm => hinv.allocated m ((hmem m).mp hm)
    · have hl := hperm.length_eq
      rw [List.length_append, List.length_singleton]
      exact hl.trans hlen
    · exact hcount.trans (occupied_replace (full i) hp).symm

/-- An access from a state that meets the invariant. -/
theorem ScInv.exists_access (hN : 1 ≤ N) (hN' : N ≤ 128) {s : State N} {page : UInt8}
    {xs : List UInt8} (step : UInt16) (hinv : ScInv s xs) (hp : page ≠ FRAME_EMPTY) :
    ∃ r s' ys, schedulerSecondChance s page step = .ok (r, s') ∧ ScAccess page s xs r s' ys ∧
      Accessed page s r s' ∧ ScInv s' ys := by
  obtain ⟨r, s', ys, hfn, hacc, hlist⟩ :=
    schedulerSecondChance_access hN' hinv.isList (hinv.usable hN hN') page step
  exact ⟨r, s', ys, hfn, hacc, hinv.access hN hN' hp hacc hlist⟩

/-- Second Chance as a refinement of the replacement machine. -/
def secondChanceRefinement (hN : 1 ≤ N) (hN' : N ≤ 128) :
    Refinement (schedulerSecondChance (N := N)) where
  Inv s := ∃ xs, ScInv s xs
  reset s := ⟨[], scInv_reset s⟩
  step {s page} step hinv hp := by
    obtain ⟨xs, hxs⟩ := hinv
    obtain ⟨r, s', ys, hfn, -, hacc, hys⟩ := hxs.exists_access hN hN' step hp
    exact ⟨r, s', hfn, hacc, ys, hys⟩

end OsLabs.PageReplace
