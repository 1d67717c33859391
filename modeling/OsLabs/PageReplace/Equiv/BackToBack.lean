import OsLabs.PageReplace.Equiv.Fifo
import OsLabs.PageReplace.Equiv.Lru
import OsLabs.PageReplace.Equiv.Min
import OsLabs.PageReplace.Equiv.SecondChance
import OsLabs.PageReplace.Logger
import Mathlib.Data.List.Find

/-!
# Algorithms run back to back

`scheduler_reset` leaves the node pools as they are.  Two memories that differ only in nodes that
are not on the lists, and in the data of the other policies, cannot be told apart by a policy: an
`Agreement` is such a relation, with the proof that related memories give the same result and
remain related.  Each policy has one, so from whatever the memory held before, a run shows what it
shows in a fresh process (`Agreement.run`).
-/

namespace OsLabs.PageReplace

open Function

variable {N : ℕ}

/-- A relation between memories that accesses preserve and cannot see. -/
structure Agreement (fn : Algo N) where
  Rel : State N → State N → Prop
  /-- Related memories agree on what a run shows. -/
  view : ∀ {s t}, Rel s t → t.frames = s.frames ∧ t.hits = s.hits ∧ t.misses = s.misses
  /-- `scheduler_reset` relates all memories with the same reference sequence. -/
  reset : ∀ s t, t.refSeq = s.refSeq → Rel (schedulerReset s) (schedulerReset t)
  step : ∀ {s t : State N} {page : UInt8} (step : UInt16), Rel s t → page ≠ FRAME_EMPTY →
    ∃ r s' t', fn s page step = .ok (r, s') ∧ fn t page step = .ok (r, t') ∧ Rel s' t' ∧
      s'.refSeq = s.refSeq

/-! ### FIFO and MIN -/

/-- FIFO reads nothing of the lists. -/
def fifoAgreement (hN : 1 ≤ N) (hN' : N ≤ 128) : Agreement (schedulerFifo (N := N)) where
  Rel s t := FifoInv s ∧ ∃ lru sc, t = { s with lru := lru, sc := sc }
  view := by
    rintro s t ⟨-, lru, sc, rfl⟩
    exact ⟨rfl, rfl, rfl⟩
  reset s t href := by
    refine ⟨fifoInv_reset hN s, (schedulerReset t).lru, (schedulerReset t).sc, ?_⟩
    rw [schedulerReset, schedulerReset, href]
  step {s t page} step hrel hp := by
    obtain ⟨hinv, lru, sc, rfl⟩ := hrel
    -- each branch reads and stores what is the same in both memories
    have hstep := schedulerFifo_step hN' step hinv hp
    rcases findPage_spec hN' s.frames page with ⟨i, hi, hidx⟩ | ⟨habsent, hidx⟩
    · rw [schedulerFifo_hit hidx] at hstep ⊢
      obtain ⟨r, s', hfn, -, hinv'⟩ := hstep
      obtain ⟨rfl, rfl⟩ := Prod.mk.inj (Except.ok.inj hfn)
      exact ⟨_, _, _, rfl, schedulerFifo_hit (s := { s with lru := lru, sc := sc }) hidx step,
        ⟨hinv', lru, sc, rfl⟩, rfl⟩
    rcases findEmpty_spec hN' s.frames with ⟨i, hi, hfree⟩ | ⟨hfull, hfree⟩
    · rw [schedulerFifo_fill hidx hfree] at hstep ⊢
      obtain ⟨r, s', hfn, -, hinv'⟩ := hstep
      obtain ⟨rfl, rfl⟩ := Prod.mk.inj (Except.ok.inj hfn)
      exact ⟨_, _, _, rfl,
        schedulerFifo_fill (s := { s with lru := lru, sc := sc }) hidx hfree step,
        ⟨hinv', lru, sc, rfl⟩, rfl⟩
    · obtain ⟨i, hi⟩ := hinv.victim hfull
      rw [schedulerFifo_evict hidx hfree hi] at hstep ⊢
      obtain ⟨r, s', hfn, -, hinv'⟩ := hstep
      obtain ⟨rfl, rfl⟩ := Prod.mk.inj (Except.ok.inj hfn)
      exact ⟨_, _, _, rfl,
        schedulerFifo_evict (s := { s with lru := lru, sc := sc }) hidx hfree hi step,
        ⟨hinv', lru, sc, rfl⟩, rfl⟩

/-- MIN reads the frames and the reference sequence alone. -/
def minAgreement (hN : 1 ≤ N) (hN' : N ≤ 128) : Agreement (schedulerMin (N := N)) where
  Rel s t := ∃ fifo lru sc, t = { s with fifo := fifo, lru := lru, sc := sc }
  view := by
    rintro s t ⟨fifo, lru, sc, rfl⟩
    exact ⟨rfl, rfl, rfl⟩
  reset s t href := by
    refine ⟨(schedulerReset t).fifo, (schedulerReset t).lru, (schedulerReset t).sc, ?_⟩
    rw [schedulerReset, schedulerReset, href]
  step {s t page} step hrel hp := by
    obtain ⟨fifo, lru, sc, rfl⟩ := hrel
    rcases findPage_spec hN' s.frames page with ⟨i, hi, hidx⟩ | ⟨habsent, hidx⟩
    · exact ⟨_, _, _, schedulerMin_hit hidx step,
        schedulerMin_hit (s := { s with fifo := fifo, lru := lru, sc := sc }) hidx step,
        ⟨fifo, lru, sc, rfl⟩, rfl⟩
    rcases findEmpty_spec hN' s.frames with ⟨i, hi, hfree⟩ | ⟨hfull, hfree⟩
    · exact ⟨_, _, _, schedulerMin_fill hidx hfree step,
        schedulerMin_fill (s := { s with fifo := fifo, lru := lru, sc := sc }) hidx hfree step,
        ⟨fifo, lru, sc, rfl⟩, rfl⟩
    · -- the victim is searched in `frames` with `ref_seq`
      obtain ⟨i, hi⟩ := minVictim_fi hN hN' s.frames s.refSeq step (s.frames ⟨0, hN⟩)
      exact ⟨_, _, _, schedulerMin_evict hN hidx hfree step hi,
        schedulerMin_evict (s := { s with fifo := fifo, lru := lru, sc := sc }) hN hidx hfree step
          hi,
        ⟨fifo, lru, sc, rfl⟩, rfl⟩

/-! ### The lists -/

/-- The fields `g` and `g'` agree on the nodes `xs`. -/
def AgreeOn (xs : List UInt8) (g g' : UInt8 → UInt8) : Prop := ∀ n ∈ xs, g' n = g n

namespace AgreeOn

variable {xs ys : List UInt8} {g g' : UInt8 → UInt8} {n v : UInt8}

theorem subset (h : AgreeOn xs g g') (hsub : ys ⊆ xs) : AgreeOn ys g g' :=
  fun m hm => h m (hsub hm)

/-- Storing the same value in the same node. -/
theorem update (h : ∀ m ∈ ys, m ≠ n → m ∈ xs) (hagree : AgreeOn xs g g') :
    AgreeOn ys (update g n v) (update g' n v) := by
  intro m hm
  by_cases hmn : m = n
  · rw [hmn, update_self, update_self]
  · rw [update_of_ne hmn, update_of_ne hmn]
    exact hagree m (h m hm hmn)

/-- The search loop finds the same node. -/
theorem search_eq {links links' : DList UInt8} (hlist : DList.IsList links xs)
    (hlist' : DList.IsList links' xs) (hlen : xs.length ≤ POOL_SIZE) (h : AgreeOn xs g g')
    (page : UInt8) :
    DList.search links'.next (fun n => g' n == page) POOL_SIZE links'.head
      = DList.search links.next (fun n => g n == page) POOL_SIZE links.head := by
  rw [hlist.forward.search_eq hlen, hlist'.forward.search_eq hlen]
  congr 1
  apply List.find?_congr
  intro n hn
  rw [h n hn]

theorem takeWhile_eq (h : AgreeOn xs g g') :
    xs.takeWhile (g' · != 0) = xs.takeWhile (g · != 0) := by
  induction xs with
  | nil => rfl
  | cons x xs ih =>
    rw [List.takeWhile_cons, List.takeWhile_cons, h x (List.mem_cons_self ..),
      ih fun n hn => h n (List.mem_cons_of_mem _ hn)]

theorem dropWhile_eq (h : AgreeOn xs g g') :
    xs.dropWhile (g' · != 0) = xs.dropWhile (g · != 0) := by
  induction xs with
  | nil => rfl
  | cons x xs ih =>
    rw [List.dropWhile_cons, List.dropWhile_cons, h x (List.mem_cons_self ..),
      ih fun n hn => h n (List.mem_cons_of_mem _ hn)]

end AgreeOn

/-! ### LRU -/

/-- Two LRU lists with the nodes `xs`, which have the same fields. -/
structure LruAgree (l l' : Lru) (xs : List UInt8) : Prop where
  isList : DList.IsList l'.links xs
  page : AgreeOn xs l.page l'.page
  frameIdx : AgreeOn xs l.frameIdx l'.frameIdx
  count : l'.count = l.count

theorem schedulerLru_agree (hN : 1 ≤ N) (hN' : N ≤ 128) {s : State N} {page : UInt8}
    {xs : List UInt8} {fifo : Fifo} {l : Lru} {sc : SecondChance} (step : UInt16)
    (hinv : LruInv s xs) (hagree : LruAgree s.lru l xs) (hp : page ≠ FRAME_EMPTY) :
    ∃ r s' l' ys, schedulerLru s page step = .ok (r, s') ∧
      schedulerLru { s with fifo := fifo, lru := l, sc := sc } page step
        = .ok (r, { s' with fifo := fifo, lru := l', sc := sc }) ∧
      LruInv s' ys ∧ LruAgree s'.lru l' ys ∧ s'.refSeq = s.refSeq := by
  have hlist := hinv.isList
  have husable := hinv.usable hN hN'
  have hsame := AgreeOn.search_eq hlist hagree.isList husable.length_le hagree.page page
  -- under a name of its own the second memory is not opened by the rewriting
  obtain ⟨t, ht⟩ : ∃ t : State N, t = { s with fifo := fifo, lru := l, sc := sc } := ⟨_, rfl⟩
  rw [← ht]
  by_cases hpage : page ∈ xs.map s.lru.page
  · -- a hit: the same node moves to the front of both lists
    obtain ⟨n, hn, hnp, hsearch⟩ := search_of_mem hlist husable.length_le hpage
    have hsearch' : DList.search t.lru.links.next (fun n => t.lru.page n == page) POOL_SIZE
        t.lru.links.head = some (some n) := ht ▸ hsame.trans hsearch
    have hfn' := schedulerLru_hit hsearch' step
    rw [ht, hagree.frameIdx n hn] at hfn'
    obtain ⟨as, bs, rfl⟩ := List.append_of_mem hn
    have hsub : n :: (as ++ bs) ⊆ as ++ n :: bs := List.perm_middle.symm.subset
    refine ⟨_, _, { l with links := (l.links.remove n).pushFront n }, n :: (as ++ bs),
      schedulerLru_hit hsearch step, ht ▸ hfn',
      (hinv.access hN hN' hp (.hit hnp) hlist.moveFront).2, ⟨hagree.isList.moveFront,
      hagree.page.subset hsub, hagree.frameIdx.subset hsub, hagree.count⟩, rfl⟩
  have hsearch := search_of_notMem hlist husable.length_le hpage
  have hsearch' : DList.search t.lru.links.next (fun n => t.lru.page n == page) POOL_SIZE
      t.lru.links.head = some none := ht ▸ hsame.trans hsearch
  have hframes : t.frames = s.frames := by rw [ht]
  rcases findEmpty_spec hN' s.frames with ⟨i, hi, hfree⟩ | ⟨hfull, hfree⟩
  · -- both take the next node of their pool, which is the same one
    have hnew := husable.fresh page hpage
    have hfn' := schedulerLru_fill hsearch' (hframes ▸ hfree) step
    rw [ht, hagree.count] at hfn'
    have hmem (m : UInt8) (hm : m ∈ s.lru.count :: xs) (hne : m ≠ s.lru.count) : m ∈ xs :=
      (List.mem_cons.mp hm).resolve_left hne
    refine ⟨_, _,
      { links := l.links.pushFront s.lru.count
        page := update l.page s.lru.count page
        frameIdx := update l.frameIdx s.lru.count (.ofNat i)
        count := s.lru.count + 1 },
      s.lru.count :: xs, schedulerLru_fill hsearch hfree step, ht ▸ hfn',
      (hinv.access hN hN' hp (.fill i hpage hi) (hlist.pushFront hnew)).2,
      ⟨hagree.isList.pushFront hnew, hagree.page.update hmem, hagree.frameIdx.update hmem, rfl⟩,
      rfl⟩
  · -- both reuse the last node of the list
    rcases List.eq_nil_or_concat xs with hnil | ⟨as, victim, rfl⟩
    · exact absurd hnil (husable.ne_nil hfull)
    rw [List.concat_eq_append] at *
    have htail {links : DList UInt8} (h : DList.IsList links (as ++ [victim])) :
        links.tail = some victim := by
      rw [h.tail_eq]
      simp
    have hmoved {links : DList UInt8} (h : DList.IsList links (as ++ [victim])) :
        DList.IsList ((links.remove victim).pushFront victim) (victim :: as) := by
      have hm := h.moveFront
      rwa [List.append_nil] at hm
    have hmemv : victim ∈ as ++ [victim] := by simp
    obtain ⟨i, hi⟩ := husable.inFrame victim hmemv
    have htail' : t.lru.links.tail = some victim := ht ▸ htail hagree.isList
    have hi' : (t.lru.frameIdx victim).toNat = i := by
      rw [ht]
      exact (hagree.frameIdx victim hmemv).symm ▸ hi
    have hfn' := schedulerLru_evict hsearch' (hframes ▸ hfree) htail' hi' step
    rw [ht, hagree.page victim hmemv] at hfn'
    have hsub : victim :: as ⊆ as ++ [victim] := by
      intro m hm
      rw [List.mem_append, List.mem_singleton]
      exact (List.mem_cons.mp hm).symm
    exact ⟨_, _,
      { l with
        links := (l.links.remove victim).pushFront victim
        page := update l.page victim page },
      victim :: as, schedulerLru_evict hsearch hfree (htail hlist) hi step, ht ▸ hfn',
      (hinv.access hN hN' hp (.evict i hpage hfull hi) (hmoved hlist)).2, ⟨hmoved hagree.isList,
      hagree.page.update fun m hm _ => hsub hm, hagree.frameIdx.subset hsub, hagree.count⟩, rfl⟩

/-- LRU cannot tell lists with the same fields apart. -/
def lruAgreement (hN : 1 ≤ N) (hN' : N ≤ 128) : Agreement (schedulerLru (N := N)) where
  Rel s t := ∃ xs fifo l sc, t = { s with fifo := fifo, lru := l, sc := sc } ∧ LruInv s xs ∧
    LruAgree s.lru l xs
  view := by
    rintro s t ⟨xs, fifo, l, sc, rfl, -⟩
    exact ⟨rfl, rfl, rfl⟩
  reset s t href := by
    refine ⟨[], (schedulerReset t).fifo, (schedulerReset t).lru, (schedulerReset t).sc, ?_,
      lruInv_reset s, DList.isList_clear _, by simp [AgreeOn], by simp [AgreeOn], rfl⟩
    rw [schedulerReset, schedulerReset, href]
  step {s t page} step hrel hp := by
    obtain ⟨xs, fifo, l, sc, rfl, hinv, hagree⟩ := hrel
    obtain ⟨r, s', l', ys, hfn, hfn', hinv', hagree', href⟩ :=
      schedulerLru_agree hN hN' step hinv hagree hp
    exact ⟨r, s', _, hfn, hfn', ⟨ys, fifo, l', sc, rfl, hinv', hagree'⟩, href⟩

/-! ### Second Chance -/

/-- Two queues with the nodes `xs`, which have the same fields. -/
structure ScAgree (c c' : SecondChance) (xs : List UInt8) : Prop where
  isList : DList.IsList c'.links xs
  page : AgreeOn xs c.page c'.page
  frameIdx : AgreeOn xs c.frameIdx c'.frameIdx
  refBit : AgreeOn xs c.refBit c'.refBit
  count : c'.count = c.count

/-- The sweep turns both queues in the same way. -/
theorem ScAgree.sweep {c c' : SecondChance} {xs : List UInt8} (hlist : DList.IsList c.links xs)
    (h : ScAgree c c' xs) (hne : xs ≠ []) {fuel : ℕ} (hfuel : xs.length ≤ fuel) :
    ∃ links links' refBit refBit',
      scSweep fuel c = .ok { c with links := links, refBit := refBit } ∧
      scSweep fuel c' = .ok { c' with links := links', refBit := refBit' } ∧
      DList.IsList links (xs.dropWhile (c.refBit · != 0) ++ xs.takeWhile (c.refBit · != 0)) ∧
      DList.IsList links' (xs.dropWhile (c.refBit · != 0) ++ xs.takeWhile (c.refBit · != 0)) ∧
      (∀ m, refBit m = if m ∈ xs.takeWhile (c.refBit · != 0) then 0 else c.refBit m) ∧
      AgreeOn xs refBit refBit' := by
  obtain ⟨links, refBit, hsweep, hl, hbits⟩ := scSweep_eq hlist hne hfuel
  obtain ⟨links', refBit', hsweep', hl', hbits'⟩ := scSweep_eq h.isList hne hfuel
  rw [h.refBit.takeWhile_eq, h.refBit.dropWhile_eq] at hl'
  refine ⟨links, links', refBit, refBit', hsweep, hsweep', hl, hl', hbits, fun m hm => ?_⟩
  rw [hbits m, hbits' m, h.refBit.takeWhile_eq, h.refBit m hm]

theorem schedulerSecondChance_agree (hN : 1 ≤ N) (hN' : N ≤ 128) {s : State N} {page : UInt8}
    {xs : List UInt8} {fifo : Fifo} {lru : Lru} {c : SecondChance} (step : UInt16)
    (hinv : ScInv s xs) (hagree : ScAgree s.sc c xs) (hp : page ≠ FRAME_EMPTY) :
    ∃ r s' c' ys, schedulerSecondChance s page step = .ok (r, s') ∧
      schedulerSecondChance { s with fifo := fifo, lru := lru, sc := c } page step
        = .ok (r, { s' with fifo := fifo, lru := lru, sc := c' }) ∧
      ScInv s' ys ∧ ScAgree s'.sc c' ys ∧ s'.refSeq = s.refSeq := by
  have hlist := hinv.isList
  have husable := hinv.usable hN hN'
  have hsame := AgreeOn.search_eq hlist hagree.isList husable.length_le hagree.page page
  obtain ⟨t, ht⟩ : ∃ t : State N, t = { s with fifo := fifo, lru := lru, sc := c } := ⟨_, rfl⟩
  rw [← ht]
  by_cases hpage : page ∈ xs.map s.sc.page
  · -- a hit: both set the bit of the same node
    obtain ⟨n, hn, hnp, hsearch⟩ := search_of_mem hlist husable.length_le hpage
    have hsearch' : DList.search t.sc.links.next (fun n => t.sc.page n == page) POOL_SIZE
        t.sc.links.head = some (some n) := ht ▸ hsame.trans hsearch
    have hfn' := schedulerSecondChance_hit hsearch' step
    rw [ht, hagree.frameIdx n hn] at hfn'
    exact ⟨_, _, { c with refBit := update c.refBit n 1 }, xs,
      schedulerSecondChance_hit hsearch step, ht ▸ hfn',
      (hinv.access hN hN' hp (.hit hn hnp) hlist).2, ⟨hagree.isList, hagree.page, hagree.frameIdx,
      hagree.refBit.update fun m hm _ => hm, hagree.count⟩, rfl⟩
  have hsearch := search_of_notMem hlist husable.length_le hpage
  have hsearch' : DList.search t.sc.links.next (fun n => t.sc.page n == page) POOL_SIZE
      t.sc.links.head = some none := ht ▸ hsame.trans hsearch
  have hframes : t.frames = s.frames := by rw [ht]
  rcases findEmpty_spec hN' s.frames with ⟨i, hi, hfree⟩ | ⟨hfull, hfree⟩
  · -- both take the next node of their pool, which is the same one
    have hnew := husable.fresh page hpage
    have hfn' := schedulerSecondChance_fill hsearch' (hframes ▸ hfree) step
    rw [ht, hagree.count] at hfn'
    have hmem (m : UInt8) (hm : m ∈ xs ++ [s.sc.count]) (hne : m ≠ s.sc.count) : m ∈ xs :=
      (List.mem_append.mp hm).resolve_right (by simpa using hne)
    exact ⟨_, _,
      { links := c.links.pushBack s.sc.count
        page := update c.page s.sc.count page
        frameIdx := update c.frameIdx s.sc.count (.ofNat i)
        refBit := update c.refBit s.sc.count 0
        count := s.sc.count + 1 },
      xs ++ [s.sc.count], schedulerSecondChance_fill hsearch hfree step, ht ▸ hfn',
      (hinv.access hN hN' hp (.fill i hpage hi) (hlist.pushBack hnew)).2,
      ⟨hagree.isList.pushBack hnew, hagree.page.update hmem, hagree.frameIdx.update hmem,
      hagree.refBit.update hmem, rfl⟩, rfl⟩
  · -- both sweep, and reuse the node that is then at the head
    have hne := husable.ne_nil hfull
    obtain ⟨links, links', refBit, refBit', hsweep, hsweep', hl, hl', hbits, hrefBit⟩ :=
      hagree.sweep hlist hne husable.length_le
    cases hrotate : xs.dropWhile (s.sc.refBit · != 0) ++ xs.takeWhile (s.sc.refBit · != 0) with
    | nil => exact absurd (List.perm_nil.mp (perm_of_rotate hrotate).symm) hne
    | cons victim zs =>
      rw [hrotate] at hl hl'
      have hperm := perm_of_rotate hrotate
      have hmemv : victim ∈ xs := hperm.mem_iff.mp (List.mem_cons_self ..)
      have hsub : zs ++ [victim] ⊆ xs := fun m hm =>
        hperm.subset (List.perm_append_singleton victim zs |>.subset hm)
      have hmoved {l : DList UInt8} (h : DList.IsList l (victim :: zs)) :
          DList.IsList ((l.remove victim).pushBack victim) (zs ++ [victim]) :=
        (show DList.IsList l ([] ++ _) from h).remove.pushBack (List.nodup_cons.mp h.nodup).1
      obtain ⟨i, hi⟩ := husable.inFrame victim hmemv
      have hsweepT : scSweep POOL_SIZE t.sc
          = .ok { c with links := links', refBit := refBit' } := ht ▸ hsweep'
      have hi' : (c.frameIdx victim).toNat = i := (hagree.frameIdx victim hmemv).symm ▸ hi
      have hfn' :=
        schedulerSecondChance_evict hsearch' (hframes ▸ hfree) hsweepT hl'.head_eq hi' step
      rw [ht, hagree.page victim hmemv] at hfn'
      exact ⟨_, _,
        { c with
          links := (links'.remove victim).pushBack victim
          page := update c.page victim page
          refBit := update refBit' victim 0 },
        zs ++ [victim], schedulerSecondChance_evict hsearch hfree hsweep hl.head_eq hi step,
        ht ▸ hfn',
        (hinv.access hN hN' hp (.evict i hpage hfull hrotate hbits hi) (hmoved hl)).2,
        ⟨hmoved hl', hagree.page.update fun m hm _ => hsub hm, hagree.frameIdx.subset hsub,
        hrefBit.update fun m hm _ => hsub hm, hagree.count⟩, rfl⟩

/-- Second Chance cannot tell queues with the same fields apart. -/
def secondChanceAgreement (hN : 1 ≤ N) (hN' : N ≤ 128) :
    Agreement (schedulerSecondChance (N := N)) where
  Rel s t := ∃ xs fifo lru c, t = { s with fifo := fifo, lru := lru, sc := c } ∧ ScInv s xs ∧
    ScAgree s.sc c xs
  view := by
    rintro s t ⟨xs, fifo, lru, c, rfl, -⟩
    exact ⟨rfl, rfl, rfl⟩
  reset s t href := by
    refine ⟨[], (schedulerReset t).fifo, (schedulerReset t).lru, (schedulerReset t).sc, ?_,
      scInv_reset s, DList.isList_clear _, by simp [AgreeOn], by simp [AgreeOn],
      by simp [AgreeOn], rfl⟩
    rw [schedulerReset, schedulerReset, href]
  step {s t page} step hrel hp := by
    obtain ⟨xs, fifo, lru, c, rfl, hinv, hagree⟩ := hrel
    obtain ⟨r, s', c', ys, hfn, hfn', hinv', hagree', href⟩ :=
      schedulerSecondChance_agree hN hN' step hinv hagree hp
    exact ⟨r, s', _, hfn, hfn', ⟨ys, fifo, lru, c', rfl, hinv', hagree'⟩, href⟩

/-- Every policy has an agreement. -/
def Policy.agreement (hN : 1 ≤ N) (hN' : N ≤ 128) : (policy : Policy) →
    Agreement (policy.algo (N := N))
  | .fifo => fifoAgreement hN hN'
  | .min => minAgreement hN hN'
  | .lru => lruAgreement hN hN'
  | .secondChance => secondChanceAgreement hN hN'

/-! ### Runs -/

namespace Logger

/-- The results of the steps shown are those of `runSteps`. -/
theorem runSteps_eq_showSteps (fn : Algo N) (s₀ : State N) (query : List UInt8) (k : ℕ) :
    runSteps fn s₀ query k = (showSteps fn query (schedulerInit s₀ query) k).map
      fun p => (p.1, p.2.map Shown.result) := by
  induction k with
  | zero => rfl
  | succ k ih =>
    rw [runSteps, ih, showSteps]
    cases showSteps fn query (schedulerInit s₀ query) k with
    | error e => rfl
    | ok p =>
      show (fn p.1 (query.getD k 0) (UInt16.ofNat k) >>= _)
        = Except.map _ (fn p.1 (query.getD k 0) (UInt16.ofNat k) >>= _)
      cases fn p.1 (query.getD k 0) (UInt16.ofNat k) with
      | error e => rfl
      | ok q =>
        -- of what is shown, `runSteps` keeps the result
        show Except.ok (q.2, p.2.map Shown.result ++ [q.1])
          = Except.ok (q.2, (p.2 ++ [Shown.mk p.1.frames q.1 q.2.frames]).map Shown.result)
        rw [List.map_append, List.map_singleton]

section Run

variable {fn : Algo N} (A : Agreement fn) {query : List UInt8}
  (hq : ∀ p ∈ query, p ≠ FRAME_EMPTY) {s t : State N} (href : t.refSeq = s.refSeq)

include A hq href

/-- Every round shows the same in both runs. -/
theorem showSteps_agree : ∀ k ≤ query.length, ∃ s' t' shown,
    showSteps fn query s k = .ok (s', shown) ∧ showSteps fn query t k = .ok (t', shown) ∧
    A.Rel s' t' ∧ s'.refSeq = s.refSeq := by
  intro k
  induction k with
  | zero => exact fun _ => ⟨_, _, _, rfl, rfl, A.reset s t href, rfl⟩
  | succ k ih =>
    intro hk
    obtain ⟨s₁, t₁, shown, hs, ht, hrel, hseq⟩ := ih (by omega)
    have hp := getD_ne_empty hq (show k < query.length by omega)
    obtain ⟨r, s₂, t₂, hfs, hft, hrel', hseq'⟩ := A.step (UInt16.ofNat k) hrel hp
    refine ⟨s₂, t₂, shown ++ [{ before := s₁.frames, result := r, after := s₂.frames }], ?_, ?_,
      hrel', hseq'.trans hseq⟩
    · rw [showSteps, hs]
      show (fn s₁ (query.getD k 0) (UInt16.ofNat k) >>= _) = _
      rw [hfs]
      rfl
    · -- the frames shown before and after the step are those of the first run
      rw [showSteps, ht, ← (A.view hrel).1, ← (A.view hrel').1]
      show (fn t₁ (query.getD k 0) (UInt16.ofNat k) >>= _) = _
      rw [hft]
      rfl

/-- So does `run_one`. -/
theorem runOne_agree (name : String) : ∃ s' t' shown, runOne name fn query s = .ok (s', shown) ∧
    runOne name fn query t = .ok (t', shown) ∧ s'.refSeq = s.refSeq := by
  obtain ⟨s', t', shown, hs, ht, hrel, hseq⟩ := showSteps_agree A hq href query.length le_rfl
  refine ⟨s', t', { name := name, steps := shown, hits := s'.hits, misses := s'.misses }, ?_, ?_,
    hseq⟩
  · rw [runOne, hs]
    rfl
  · rw [runOne, ht, ← (A.view hrel).2.1, ← (A.view hrel).2.2]
    rfl

end Run

/-! ### `logger_run` -/

/-- The argument that selects one policy. -/
def flag : Policy → String
  | .fifo => "fifo"
  | .min => "min"
  | .lru => "lru"
  | .secondChance => "second_chance"

/-- The name `logger_run` shows for a policy. -/
def title : Policy → String
  | .fifo => "FIFO"
  | .min => "MIN (Optimal)"
  | .lru => "LRU"
  | .secondChance => "Second Chance"

theorem runIf_true {name : String} {fn : Algo N} {query : List UInt8} {s s' : State N}
    {shown : Section N} (h : runOne name fn query s = .ok (s', shown)) :
    runIf true name fn query s = .ok (s', [shown]) := by
  rw [runIf, if_pos rfl, h]
  rfl

/-- With the argument of one policy, `logger_run` runs that policy alone. -/
theorem run_flag {policy : Policy} {query : List UInt8} {s s' : State N} {shown : Section N}
    (h : runOne (title policy) policy.algo query s = .ok (s', shown)) :
    run (flag policy) query s = .ok (s', [shown]) := by
  -- the arguments are different strings
  have hsel (q : Policy) : selects (flag policy) q = (q == policy) := by
    cases policy <;> cases q <;> decide
  rw [run, hsel, hsel, hsel, hsel]
  cases policy with
  | fifo =>
    show (runIf true (title .fifo) (Policy.algo .fifo) query s >>= _) = _
    rw [runIf_true h]
    rfl
  | min =>
    show (runIf true (title .min) (Policy.algo .min) query s >>= _) = _
    rw [runIf_true h]
    rfl
  | lru =>
    show (runIf true (title .lru) (Policy.algo .lru) query s >>= _) = _
    rw [runIf_true h]
    rfl
  | secondChance =>
    show (runIf true (title .secondChance) (Policy.algo .secondChance) query s >>= _) = _
    rw [runIf_true h]
    rfl

/-- With `"all"` it runs the four policies one after the other. -/
theorem run_all {query : List UInt8} {s s₁ s₂ s₃ s₄ : State N} {fifo min lru sc : Section N}
    (hfifo : runOne (title .fifo) schedulerFifo query s = .ok (s₁, fifo))
    (hmin : runOne (title .min) schedulerMin query s₁ = .ok (s₂, min))
    (hlru : runOne (title .lru) schedulerLru query s₂ = .ok (s₃, lru))
    (hsc : runOne (title .secondChance) schedulerSecondChance query s₃ = .ok (s₄, sc)) :
    run "all" query s = .ok (s₄, [fifo, min, lru, sc]) := by
  have hsel (q : Policy) : selects "all" q = true := by
    cases q <;> decide
  rw [run, hsel, hsel, hsel, hsel]
  show (runIf true (title .fifo) schedulerFifo query s >>= _) = _
  rw [runIf_true hfifo]
  show (runIf true (title .min) schedulerMin query s₁ >>= _) = _
  rw [runIf_true hmin]
  show (runIf true (title .lru) schedulerLru query s₂ >>= _) = _
  rw [runIf_true hlru]
  show (runIf true (title .secondChance) schedulerSecondChance query s₃ >>= _) = _
  rw [runIf_true hsc]
  rfl

/-- What a run shows does not depend on what the memory `s₀` holds before it. -/
structure BackToBack (s₀ : State N) (query : List UInt8) : Prop where
  /-- Every step of every policy, and the counters, are as in a fresh process. -/
  steps : ∀ policy : Policy, ∀ k ≤ query.length, ∃ s t shown,
    showSteps policy.algo query (schedulerInit s₀ query) k = .ok (s, shown) ∧
    showSteps policy.algo query (init (zeroMemory N) query) k = .ok (t, shown) ∧
    s.frames = t.frames ∧ s.hits = t.hits ∧ s.misses = t.misses
  /-- The sections of `logger_run("all")` are what the four algorithms show alone. -/
  sections : ∃ sections : Policy → Section N,
    (∀ policy, ∃ s, run (flag policy) query (init (zeroMemory N) query)
      = .ok (s, [sections policy])) ∧
    ∃ s, run "all" query (init s₀ query)
      = .ok (s, [sections .fifo, sections .min, sections .lru, sections .secondChance])

/-- **Algorithms run back to back do not influence each other.** -/
theorem back_to_back (hN : 1 ≤ N) (hN' : N ≤ 128) (s₀ : State N) {query : List UInt8}
    (hq : ∀ p ∈ query, p ≠ FRAME_EMPTY) : BackToBack s₀ query := by
  refine ⟨fun policy k hk => ?_, ?_⟩
  · obtain ⟨s, t, shown, hs, ht, hrel, -⟩ := showSteps_agree (policy.agreement hN hN') hq
      (s := schedulerInit s₀ query) (t := init (zeroMemory N) query) rfl k hk
    obtain ⟨hframes, hhits, hmisses⟩ := (policy.agreement hN hN').view hrel
    exact ⟨s, t, shown, hs, ht, hframes.symm, hhits.symm, hmisses.symm⟩
  · -- each run starts where the one before it stopped; `ref_seq` is all they share
    have hagree (policy : Policy) {s : State N} (hs : s.refSeq = query) :=
      runOne_agree (policy.agreement hN hN') hq (s := s) (t := init (zeroMemory N) query) hs.symm
        (title policy)
    obtain ⟨s₁, t₁, fifo, hf, hf', hq₁⟩ := hagree .fifo (s := init s₀ query) rfl
    obtain ⟨s₂, t₂, min, hm, hm', hq₂⟩ := hagree .min hq₁
    obtain ⟨s₃, t₃, lru, hl, hl', hq₃⟩ := hagree .lru (hq₂.trans hq₁)
    obtain ⟨s₄, t₄, sc, hc, hc', -⟩ := hagree .secondChance (hq₃.trans (hq₂.trans hq₁))
    refine ⟨fun | .fifo => fifo | .min => min | .lru => lru | .secondChance => sc, ?_, s₄,
      run_all hf hm hl hc⟩
    intro policy
    cases policy with
    | fifo => exact ⟨t₁, run_flag hf'⟩
    | min => exact ⟨t₂, run_flag hm'⟩
    | lru => exact ⟨t₃, run_flag hl'⟩
    | secondChance => exact ⟨t₄, run_flag hc'⟩

/-- Three frames and the references `1 2 3 4 1`, on a memory with other contents. -/
theorem back_to_back_three :
    BackToBack
      ({ zeroMemory 3 with
        frames := fun _ => 7
        hits := 5
        fifo := { queue := fun _ => 9, head := 4, count := 200 }
        lru := { (zeroMemory 3).lru with page := fun _ => 1, count := 3 } } : State 3)
      [1, 2, 3, 4, 1] :=
  back_to_back (by decide) (by decide) _ (by simp [FRAME_EMPTY])

end Logger

end OsLabs.PageReplace
