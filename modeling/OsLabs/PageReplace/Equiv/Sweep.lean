import OsLabs.PageReplace.Equiv.SecondChance

/-!
# The clock of Second Chance

The queue as a list of entries: page, frame and reference bit.  `ScReads` says which entries the
queue holds and that its two pointer directions agree; `Sweeps` is what a miss on a full memory
does to them.  The sweep loop ends after at most as many rounds as the queue has nodes
(`scSweep_eq`), so after at most `N`.
-/

namespace OsLabs.PageReplace

open Function

variable {N : ℕ}

/-- The fields of a node other than its pointers. -/
structure ScEntry where
  page : UInt8
  frameIdx : UInt8
  refBit : UInt8
  deriving DecidableEq, Repr

/-- The fields of node `n`. -/
def SecondChance.entry (sc : SecondChance) (n : UInt8) : ScEntry :=
  { page := sc.page n, frameIdx := sc.frameIdx n, refBit := sc.refBit n }

/-- The entry with its bit cleared. -/
def ScEntry.clear (e : ScEntry) : ScEntry := { e with refBit := 0 }

/-- The queue of `s` holds the entries `es`, next candidate first. -/
structure ScReads (s : State N) (es : List ScEntry) : Prop where
  /-- The nodes from `sc_head` along `next` hold them, and from `sc_tail` along `prev` the same
  nodes come in the reverse order. -/
  links : ∃ xs, DList.Walk s.sc.links.next s.sc.links.head xs none ∧
    DList.Walk s.sc.links.prev s.sc.links.tail xs.reverse none ∧ xs.map s.sc.entry = es
  /-- Every resident page is there once. -/
  once : (es.map ScEntry.page).Nodup ∧ ∀ p, p ∈ es.map ScEntry.page ↔ p ∈ resident s.frames
  bits : ∀ e ∈ es, e.refBit = 0 ∨ e.refBit = 1

/-- A miss on a full memory: the queue before, the victim and the queue after. -/
inductive Sweeps (page : UInt8) : List ScEntry → ScEntry → List ScEntry → Prop where
  /-- The first entry with a clear bit goes; those before it lose their bits and go to the back. -/
  | first (as : List ScEntry) (v : ScEntry) (bs : List ScEntry) (hset : ∀ e ∈ as, e.refBit = 1)
    (hclear : v.refBit = 0) :
    Sweeps page (as ++ v :: bs) v (bs ++ as.map ScEntry.clear ++ [⟨page, v.frameIdx, 0⟩])
  /-- All bits are set: the head goes, and all others lose their bits. -/
  | head (v : ScEntry) (es : List ScEntry) (hset : ∀ e ∈ v :: es, e.refBit = 1) :
    Sweeps page (v :: es) v (es.map ScEntry.clear ++ [⟨page, v.frameIdx, 0⟩])

/-! ### The queue of a reachable state -/

theorem SecondChance.entry_eq {sc : SecondChance} {n : UInt8} {e : ScEntry}
    (hpage : sc.page n = e.page) (hframe : sc.frameIdx n = e.frameIdx)
    (hbit : sc.refBit n = e.refBit) : sc.entry n = e := by
  rw [SecondChance.entry, hpage, hframe, hbit]

theorem pages_entry (sc : SecondChance) (xs : List UInt8) :
    (xs.map sc.entry).map ScEntry.page = xs.map sc.page := by
  rw [List.map_map]
  rfl

theorem ScInv.reads {s : State N} {xs : List UInt8} (h : ScInv s xs) (hd : Distinct s.frames)
    (hbits : ∀ n ∈ xs, s.sc.refBit n = 0 ∨ s.sc.refBit n = 1) :
    ScReads s (xs.map s.sc.entry) where
  links := ⟨xs, h.isList.forward, h.isList.backward, rfl⟩
  once := by
    rw [pages_entry]
    refine ⟨h.isList.nodup.map_on fun n hn m hm heq => ?_, fun p => h.nodes.mem_resident_iff.symm⟩
    -- nodes of the same page are in the same frame
    obtain ⟨hpn, i, hi, hfi⟩ := h.nodes.inFrame n hn
    obtain ⟨-, j, hj, hfj⟩ := h.nodes.inFrame m hm
    obtain rfl : i = j := hd i j (hfi ▸ hpn) (by rw [hfi, hfj, heq])
    exact h.nodes.inj n hn m hm (UInt8.toNat_inj.mp (hi.trans hj.symm))
  bits e he := by
    obtain ⟨n, hn, rfl⟩ := List.mem_map.mp he
    exact hbits n hn

/-- The list that the sweep rotates, as entries before and after. -/
theorem sweeps_of_rotate {e e' : UInt8 → ScEntry} {xs zs : List UInt8} {victim page : UInt8}
    (hnd : xs.Nodup) (hbits : ∀ n ∈ xs, (e n).refBit = 0 ∨ (e n).refBit = 1)
    (hrotate : xs.dropWhile (fun n => (e n).refBit != 0)
      ++ xs.takeWhile (fun n => (e n).refBit != 0) = victim :: zs)
    (hnew : e' victim = ⟨page, (e victim).frameIdx, 0⟩)
    (hother : ∀ m, m ≠ victim → e' m
      = if m ∈ xs.takeWhile (fun n => (e n).refBit != 0) then (e m).clear else e m) :
    Sweeps page (xs.map e) (e victim) ((zs ++ [victim]).map e') := by
  obtain ⟨as, has⟩ : ∃ as, as = xs.takeWhile fun n => (e n).refBit != 0 := ⟨_, rfl⟩
  have hsplit : xs = as ++ xs.dropWhile fun n => (e n).refBit != 0 := by
    rw [has]
    exact List.takeWhile_append_dropWhile.symm
  rw [← has] at hrotate hother
  have hset : ∀ x ∈ as.map e, x.refBit = 1 := by
    intro x hx
    obtain ⟨n, hn, rfl⟩ := List.mem_map.mp hx
    rw [has] at hn
    have hne : (e n).refBit ≠ 0 := by simpa using List.mem_takeWhile_imp hn
    exact (hbits n ((List.takeWhile_sublist _).subset hn)).resolve_left hne
  -- the bits that the sweep has cleared
  have hcleared {l : List UInt8} (hl : ∀ m ∈ l, m ≠ victim ∧ m ∈ as) :
      l.map e' = (l.map e).map ScEntry.clear := by
    rw [List.map_map]
    apply List.map_congr_left
    intro m hm
    rw [hother m (hl m hm).1, if_pos (hl m hm).2]
    rfl
  rw [List.map_append, List.map_singleton, hnew]
  cases hbs : xs.dropWhile fun n => (e n).refBit != 0 with
  | nil =>
    -- all bits are set: the sweep went once around
    rw [hbs, List.nil_append] at hrotate
    rw [hbs, List.append_nil, hrotate] at hsplit
    rw [hsplit, List.nodup_cons] at hnd
    rw [hrotate] at hset
    have hzs : ∀ m ∈ zs, m ≠ victim ∧ m ∈ as := by
      intro m hm
      rw [hrotate]
      exact ⟨fun heq => hnd.1 (heq ▸ hm), List.mem_cons_of_mem victim hm⟩
    rw [hsplit, hcleared hzs, List.map_cons]
    exact .head _ _ hset
  | cons v bs =>
    -- `v` is the first entry with a clear bit
    rw [hbs, List.cons_append] at hrotate
    obtain ⟨rfl, rfl⟩ := List.cons.inj hrotate
    rw [hbs] at hsplit
    have hclear : (e v).refBit = 0 := by
      have h := List.head?_dropWhile_not (fun n => (e n).refBit != 0) xs
      rw [hbs, List.head?_cons] at h
      simpa using h
    rw [hsplit, List.nodup_append, List.nodup_cons] at hnd
    obtain ⟨-, ⟨hvbs, -⟩, hdisj⟩ := hnd
    have hbs' : bs.map e' = bs.map e := by
      apply List.map_congr_left
      intro m hm
      rw [hother m fun h => hvbs (h ▸ hm),
        if_neg fun h => hdisj m h m (List.mem_cons_of_mem v hm) rfl]
    rw [hsplit, List.map_append, List.map_append, List.map_cons, hbs',
      hcleared fun m hm => ⟨hdisj m hm v List.mem_cons_self, hm⟩]
    exact .first _ _ _ hset hclear

/-! ### One access -/

section Access

variable {s s' : State N} {page : UInt8} {r : AccessResult} {xs ys : List UInt8}

theorem ScAccess.bits (hacc : ScAccess page s xs r s' ys)
    (hbits : ∀ n ∈ xs, s.sc.refBit n = 0 ∨ s.sc.refBit n = 1) :
    ∀ n ∈ ys, s'.sc.refBit n = 0 ∨ s'.sc.refBit n = 1 := by
  cases hacc with
  | @hit n hn hpage =>
    intro m hm
    show update s.sc.refBit n 1 m = 0 ∨ update s.sc.refBit n 1 m = 1
    by_cases hmn : m = n
    · rw [hmn, update_self]
      exact Or.inr rfl
    · rw [update_of_ne hmn]
      exact hbits m hm
  | fill i absent hi =>
    intro m hm
    show update s.sc.refBit s.sc.count 0 m = 0 ∨ update s.sc.refBit s.sc.count 0 m = 1
    by_cases hmn : m = s.sc.count
    · rw [hmn, update_self]
      exact Or.inl rfl
    · rw [update_of_ne hmn]
      exact hbits m ((List.mem_append.mp hm).resolve_right (by simpa using hmn))
  | @evict victim zs links refBit i absent full hrotate hrefBit hi =>
    intro m hm
    show update refBit victim 0 m = 0 ∨ update refBit victim 0 m = 1
    by_cases hmn : m = victim
    · rw [hmn, update_self]
      exact Or.inl rfl
    · have hmem : m ∈ xs := by
        rw [← (perm_of_rotate hrotate).mem_iff]
        rw [List.mem_append, List.mem_singleton] at hm
        exact List.mem_cons_of_mem _ (hm.resolve_right hmn)
      rw [update_of_ne hmn, hrefBit m]
      split_ifs
      · exact Or.inl rfl
      · exact hbits m hmem

/-- **A hit** sets the bit of the page's entry and changes nothing else. -/
theorem ScAccess.hit_entries (hnd : xs.Nodup) (hacc : ScAccess page s xs r s' ys)
    (hhit : r.hit = 1) :
    ∃ as v bs, xs.map s.sc.entry = as ++ v :: bs ∧ v.page = page ∧
      ys.map s'.sc.entry = as ++ { v with refBit := 1 } :: bs ∧
      s' = { s with hits := s.hits + 1, sc := { s.sc with refBit := s'.sc.refBit } } := by
  cases hacc with
  | @hit n hn hpage =>
    obtain ⟨as, bs, rfl⟩ := List.append_of_mem hn
    rw [List.nodup_middle, List.nodup_cons, List.mem_append, not_or] at hnd
    have hother (m : UInt8) (hm : m ≠ n) :
        ({ s.sc with refBit := update s.sc.refBit n 1 } : SecondChance).entry m = s.sc.entry m :=
      SecondChance.entry_eq rfl rfl (update_of_ne hm ..)
    have hself : ({ s.sc with refBit := update s.sc.refBit n 1 } : SecondChance).entry n
        = { s.sc.entry n with refBit := 1 } :=
      SecondChance.entry_eq rfl rfl (update_self ..)
    refine ⟨as.map s.sc.entry, s.sc.entry n, bs.map s.sc.entry, by simp, hpage, ?_, rfl⟩
    rw [List.map_append, List.map_cons, hself]
    congr 1
    · exact List.map_congr_left fun m hm => hother m fun h => hnd.1.1 (h ▸ hm)
    · congr 1
      exact List.map_congr_left fun m hm => hother m fun h => hnd.1.2 (h ▸ hm)
  | fill => exact absurd hhit (show ¬(0 : UInt8) = 1 by decide)
  | evict => exact absurd hhit (show ¬(0 : UInt8) = 1 by decide)

/-- **A miss on a full memory** is a sweep of the entries. -/
theorem ScAccess.sweeps (hnd : xs.Nodup) (hacc : ScAccess page s xs r s' ys)
    (hbits : ∀ n ∈ xs, s.sc.refBit n = 0 ∨ s.sc.refBit n = 1) (hmiss : r.hit = 0)
    (hfull : ∀ i, s.frames i ≠ FRAME_EMPTY) :
    ∃ v, Sweeps page (xs.map s.sc.entry) v (ys.map s'.sc.entry) ∧ r.evicted = v.page ∧
      r.frameIdx = v.frameIdx ∧
      ∃ i : Fin N, v.frameIdx.toNat = i ∧ s'.frames = update s.frames i page := by
  cases hacc with
  | hit => exact absurd hmiss (show ¬(1 : UInt8) = 0 by decide)
  | fill i absent hi => exact absurd hi (hfull i)
  | @evict victim zs links refBit i absent full hrotate hrefBit hi =>
    -- the node keeps its frame, and the page is stored there
    have hidx : s.sc.frameIdx victim = .ofNat i := by
      rw [← hi, UInt8.ofNat_toNat]
    refine ⟨s.sc.entry victim, ?_, rfl, hidx.symm, i, hi, rfl⟩
    obtain ⟨sc', hsc'⟩ : ∃ sc' : SecondChance, sc' =
        { links := (links.remove victim).pushBack victim
          page := update s.sc.page victim page
          frameIdx := s.sc.frameIdx
          refBit := update refBit victim 0
          count := s.sc.count } := ⟨_, rfl⟩
    show Sweeps page (xs.map s.sc.entry) (s.sc.entry victim) ((zs ++ [victim]).map _)
    rw [← hsc']
    apply sweeps_of_rotate hnd hbits hrotate
    · rw [hsc']
      exact SecondChance.entry_eq (update_self ..) rfl (update_self ..)
    · intro m hm
      have hbit : update refBit victim 0 m = refBit m := update_of_ne hm ..
      have hpage : update s.sc.page victim page m = s.sc.page m := update_of_ne hm ..
      rw [hrefBit m] at hbit
      rw [hsc']
      show _ = if m ∈ xs.takeWhile (s.sc.refBit · != 0) then _ else _
      split_ifs with h
      · exact SecondChance.entry_eq hpage rfl (hbit.trans (if_pos h))
      · exact SecondChance.entry_eq hpage rfl (hbit.trans (if_neg h))

end Access

/-! ### Runs -/

/-- The queue after `k` references. -/
theorem secondChance_run (hN : 1 ≤ N) (hN' : N ≤ 128) (s₀ : State N) {query : List UInt8}
    (hq : ∀ p ∈ query, p ≠ FRAME_EMPTY) :
    ∀ k ≤ query.length, ∃ s rs xs, runSteps schedulerSecondChance s₀ query k = .ok (s, rs) ∧
      ScInv s xs ∧ Distinct s.frames ∧ ∀ n ∈ xs, s.sc.refBit n = 0 ∨ s.sc.refBit n = 1 := by
  intro k
  induction k with
  | zero =>
    exact fun _ => ⟨_, _, [], rfl, scInv_reset _, fun i j hi _ => absurd rfl hi, by simp⟩
  | succ k ih =>
    intro hk
    obtain ⟨s, rs, xs, hrun, hinv, hd, hbits⟩ := ih (by omega)
    have hp := getD_ne_empty hq (show k < query.length by omega)
    obtain ⟨r, s', ys, hfn, hacc, haccd, hinv'⟩ :=
      hinv.exists_access hN hN' (UInt16.ofNat k) hp
    exact ⟨s', rs ++ [r], ys, runSteps_succ_of_ok hrun hfn, hinv', haccd.frames.distinct hd,
      hacc.bits hbits⟩

/-- **The sweep of Second Chance.**  In every state reached the queue is well linked and holds each
resident page once, and the next access, whatever page it is to, leaves such a queue again: a hit
sets one bit and changes nothing else; a miss on a full memory takes at most `N` rounds of the loop
and sweeps the entries. -/
theorem secondChance_sweep (hN : 1 ≤ N) (hN' : N ≤ 128) (s₀ : State N) {query : List UInt8}
    (hq : ∀ p ∈ query, p ≠ FRAME_EMPTY) {k : ℕ} (hk : k ≤ query.length) {page : UInt8}
    (hp : page ≠ FRAME_EMPTY) (step : UInt16) :
    ∃ s rs es r s' es', runSteps schedulerSecondChance s₀ query k = .ok (s, rs) ∧
      schedulerSecondChance s page step = .ok (r, s') ∧ ScReads s es ∧ ScReads s' es' ∧
      (r.hit = 1 → ∃ as v bs, es = as ++ v :: bs ∧ v.page = page ∧
        es' = as ++ { v with refBit := 1 } :: bs ∧
        s' = { s with hits := s.hits + 1, sc := { s.sc with refBit := s'.sc.refBit } }) ∧
      (r.hit = 0 → (∀ i, s.frames i ≠ FRAME_EMPTY) → (∃ sc, scSweep N s.sc = .ok sc) ∧
        ∃ v, Sweeps page es v es' ∧ r.evicted = v.page ∧ r.frameIdx = v.frameIdx ∧
          ∃ i : Fin N, v.frameIdx.toNat = i ∧ s'.frames = update s.frames i page) := by
  obtain ⟨s, rs, xs, hrun, hinv, hd, hbits⟩ := secondChance_run hN hN' s₀ hq k hk
  obtain ⟨r, s', ys, hfn, hacc, haccd, hinv'⟩ := hinv.exists_access hN hN' step hp
  refine ⟨s, rs, _, r, s', _, hrun, hfn, hinv.reads hd hbits,
    hinv'.reads (haccd.frames.distinct hd) (hacc.bits hbits), hacc.hit_entries hinv.isList.nodup,
    fun hmiss hfull => ⟨?_, hacc.sweeps hinv.isList.nodup hbits hmiss hfull⟩⟩
  -- a round for each node is enough, and a full memory has `N` of them
  have hlen : xs.length = N := by
    rw [hinv.length, hinv.count, occupied_eq_of_full hfull]
  have hne : xs ≠ [] := by
    rintro rfl
    rw [List.length_nil] at hlen
    omega
  obtain ⟨links, refBit, hsweep, -⟩ := scSweep_eq hinv.isList hne hlen.le
  exact ⟨_, hsweep⟩

/-- Three frames after the references `1 2 3 1 2`, which leave the bits of `1` and `2` set; the
next reference is to page `4`. -/
theorem secondChance_sweep_three :
    ∃ s rs es r s' es', runSteps schedulerSecondChance (zeroMemory 3) [1, 2, 3, 1, 2] 5
        = .ok (s, rs) ∧
      schedulerSecondChance s 4 5 = .ok (r, s') ∧ ScReads s es ∧ ScReads s' es' ∧
      (r.hit = 1 → ∃ as v bs, es = as ++ v :: bs ∧ v.page = 4 ∧
        es' = as ++ { v with refBit := 1 } :: bs ∧
        s' = { s with hits := s.hits + 1, sc := { s.sc with refBit := s'.sc.refBit } }) ∧
      (r.hit = 0 → (∀ i, s.frames i ≠ FRAME_EMPTY) → (∃ sc, scSweep 3 s.sc = .ok sc) ∧
        ∃ v, Sweeps 4 es v es' ∧ r.evicted = v.page ∧ r.frameIdx = v.frameIdx ∧
          ∃ i : Fin 3, v.frameIdx.toNat = i ∧ s'.frames = update s.frames i 4) :=
  secondChance_sweep (by decide) (by decide) (zeroMemory 3) (by simp [FRAME_EMPTY]) (by decide)
    (by decide) 5

end OsLabs.PageReplace
