import OsLabs.PageReplace.Equiv.Run

/-!
# List nodes and frames

LRU and Second Chance test residency on their list but allocate from `frames[]`.  `NodesMatch`
ties the two together: the nodes `xs` of the list stand for the occupied frames one to one, and
a node names the page its frame holds.  The lemmas say how the relation moves through the three
branches of an access; they mention only the members of `xs`, not their order.

References to `FRAME_EMPTY` break this relation.  `NodesDistinct` is what is left then: the nodes
name frames and hold different pages.  Either is enough for the accesses to return (`Usable`).
-/

namespace OsLabs.PageReplace

open Function

variable {N : ℕ}

/-- Storing the index of a frame where the indices of frames are kept. -/
theorem update_ofNat_lt {g : UInt8 → UInt8} {n m : UInt8} {i : Fin N} (hN : N ≤ 256)
    (h : m ≠ n → (g m).toNat < N) : (update g n (.ofNat i) m).toNat < N := by
  by_cases hmn : m = n
  · have hi := i.isLt
    rw [hmn, update_self, UInt8.toNat_ofNat']
    omega
  · rw [update_of_ne hmn]
    exact h hmn

/-- What an access has to know of the nodes `xs` of a list. -/
structure Usable (f : Fin N → UInt8) (count : UInt8) (page frameIdx : UInt8 → UInt8)
    (xs : List UInt8) : Prop where
  length_le : xs.length ≤ POOL_SIZE
  inFrame : ∀ n ∈ xs, ∃ i : Fin N, (frameIdx n).toNat = i
  /-- While some page has no node, the pool has a node left. -/
  fresh : ∀ p ∉ xs.map page, count ∉ xs
  ne_nil : (∀ i, f i ≠ FRAME_EMPTY) → xs ≠ []

/-- The search loop finds a page that some node of the list holds, in the first such node. -/
theorem search_of_mem {links : DList UInt8} {page : UInt8 → UInt8} {xs : List UInt8} {p : UInt8}
    (hlist : DList.IsList links xs) (hlen : xs.length ≤ POOL_SIZE) (hp : p ∈ xs.map page) :
    ∃ n ∈ xs, page n = p ∧
      DList.search links.next (fun n => page n == p) POOL_SIZE links.head = some (some n) := by
  rw [hlist.forward.search_eq hlen]
  cases hfind : xs.find? fun n => page n == p with
  | some n =>
    have hn := List.find?_some hfind
    rw [beq_iff_eq] at hn
    exact ⟨n, List.mem_of_find?_eq_some hfind, hn, rfl⟩
  | none =>
    obtain ⟨n, hn, rfl⟩ := List.mem_map.mp hp
    exact absurd (List.find?_eq_none.mp hfind n hn) (by simp)

theorem search_of_notMem {links : DList UInt8} {page : UInt8 → UInt8} {xs : List UInt8}
    {p : UInt8} (hlist : DList.IsList links xs) (hlen : xs.length ≤ POOL_SIZE)
    (hp : p ∉ xs.map page) :
    DList.search links.next (fun n => page n == p) POOL_SIZE links.head = some none := by
  rw [hlist.forward.search_eq hlen, Option.some_inj, List.find?_eq_none]
  intro n hn hnp
  rw [beq_iff_eq] at hnp
  exact hp (hnp ▸ List.mem_map_of_mem hn)

/-! ### The nodes are the occupied frames -/

/-- The nodes `xs`, with their `page` and `frame_idx` fields, are the occupied frames. -/
structure NodesMatch (f : Fin N → UInt8) (page frameIdx : UInt8 → UInt8) (xs : List UInt8) :
    Prop where
  inFrame : ∀ n ∈ xs, page n ≠ FRAME_EMPTY ∧ ∃ i : Fin N, (frameIdx n).toNat = i ∧ f i = page n
  inj : ∀ n ∈ xs, ∀ m ∈ xs, frameIdx n = frameIdx m → n = m
  onto : ∀ i, f i ≠ FRAME_EMPTY → ∃ n ∈ xs, (frameIdx n).toNat = (i : ℕ)

namespace NodesMatch

variable {f : Fin N → UInt8} {page frameIdx : UInt8 → UInt8} {xs ys : List UInt8} {n : UInt8}
  {p : UInt8}

theorem nil (hf : ∀ i, f i = FRAME_EMPTY) : NodesMatch f page frameIdx [] :=
  ⟨by simp, by simp, fun i hi => absurd (hf i) hi⟩

/-- Only the members of the list matter. -/
theorem congr (h : NodesMatch f page frameIdx xs) (hxy : ∀ m, m ∈ ys ↔ m ∈ xs) :
    NodesMatch f page frameIdx ys where
  inFrame m hm := h.inFrame m ((hxy m).mp hm)
  inj m hm m' hm' := h.inj m ((hxy m).mp hm) m' ((hxy m').mp hm')
  onto i hi := by
    obtain ⟨m, hm, hmi⟩ := h.onto i hi
    exact ⟨m, (hxy m).mpr hm, hmi⟩

/-- The node of an occupied frame names the page in it. -/
theorem exists_node (h : NodesMatch f page frameIdx xs) {i : Fin N} (hi : f i ≠ FRAME_EMPTY) :
    ∃ n ∈ xs, (frameIdx n).toNat = i ∧ page n = f i := by
  obtain ⟨n, hn, hni⟩ := h.onto i hi
  obtain ⟨-, j, hj, hfj⟩ := h.inFrame n hn
  have hij : j = i := Fin.ext (hj.symm.trans hni)
  exact ⟨n, hn, hni, by rw [← hfj, hij]⟩

/-- The pairs of the nodes are exactly the contents of the frames. -/
theorem mem_map_iff (h : NodesMatch f page frameIdx xs) {p fi : UInt8} :
    (p, fi) ∈ xs.map (fun n => (page n, frameIdx n)) ↔
      p ≠ FRAME_EMPTY ∧ ∃ i : Fin N, fi.toNat = i ∧ f i = p := by
  rw [List.mem_map]
  constructor
  · rintro ⟨n, hn, heq⟩
    obtain ⟨rfl, rfl⟩ := Prod.mk.inj heq
    exact h.inFrame n hn
  · rintro ⟨hp, i, hi, rfl⟩
    obtain ⟨n, hn, hni, hpage⟩ := h.exists_node hp
    exact ⟨n, hn, Prod.ext hpage (UInt8.toNat_inj.mp (hni.trans hi.symm))⟩

/-- The pages of the nodes are the resident pages. -/
theorem mem_resident_iff (h : NodesMatch f page frameIdx xs) :
    p ∈ resident f ↔ p ∈ xs.map page := by
  rw [mem_resident, List.mem_map]
  constructor
  · rintro ⟨hp, i, rfl⟩
    obtain ⟨n, hn, -, hpage⟩ := h.exists_node hp
    exact ⟨n, hn, hpage⟩
  · rintro ⟨n, hn, rfl⟩
    obtain ⟨hp, i, -, hi⟩ := h.inFrame n hn
    exact ⟨hp, i, hi⟩

/-- A page no node names is in no frame. -/
theorem absent (h : NodesMatch f page frameIdx xs) (hp : p ≠ FRAME_EMPTY)
    (hmiss : p ∉ xs.map page) (i : Fin N) : f i ≠ p := by
  intro hi
  apply hmiss
  apply h.mem_resident_iff.mp
  exact mem_resident.mpr ⟨hp, i, hi⟩

/-- A new node for an empty frame. -/
theorem fill (h : NodesMatch f page frameIdx xs) (hN : N ≤ 256) (hp : p ≠ FRAME_EMPTY)
    (hn : n ∉ xs) {i : Fin N} (hi : f i = FRAME_EMPTY) :
    NodesMatch (update f i p) (update page n p) (update frameIdx n (.ofNat i)) (n :: xs) := by
  have hidx : (UInt8.ofNat i).toNat = i := by
    rw [UInt8.toNat_ofNat']
    exact Nat.mod_eq_of_lt (lt_of_lt_of_le i.isLt hN)
  have hne (m : UInt8) (hm : m ∈ xs) : m ≠ n := fun h => hn (h ▸ hm)
  -- no old node names the empty frame
  have hfree (m : UInt8) (hm : m ∈ xs) : (frameIdx m).toNat ≠ i := by
    intro hmi
    obtain ⟨hpm, j, hj, hfj⟩ := h.inFrame m hm
    have hij : j = i := Fin.ext (hj.symm.trans hmi)
    exact hpm (by rw [← hfj, hij, hi])
  refine ⟨?_, ?_, ?_⟩
  · intro m hm
    rcases List.mem_cons.mp hm with rfl | hm
    · rw [update_self, update_self]
      exact ⟨hp, i, hidx, update_self ..⟩
    · rw [update_of_ne (hne m hm), update_of_ne (hne m hm)]
      obtain ⟨hpm, j, hj, hfj⟩ := h.inFrame m hm
      refine ⟨hpm, j, hj, ?_⟩
      rw [update_of_ne, hfj]
      rintro rfl
      exact hfree m hm hj
  · intro m hm m' hm' heq
    rcases List.mem_cons.mp hm with hmn | hmx <;> rcases List.mem_cons.mp hm' with hmn' | hmx'
    · rw [hmn, hmn']
    · rw [hmn, update_self, update_of_ne (hne m' hmx')] at heq
      exact absurd (heq ▸ hidx) (hfree m' hmx')
    · rw [hmn', update_self, update_of_ne (hne m hmx)] at heq
      exact absurd (heq ▸ hidx) (hfree m hmx)
    · rw [update_of_ne (hne m hmx), update_of_ne (hne m' hmx')] at heq
      exact h.inj m hmx m' hmx' heq
  · intro j hj
    by_cases hji : j = i
    · exact ⟨n, List.mem_cons_self .., by rw [update_self, hidx, hji]⟩
    · rw [update_of_ne hji] at hj
      obtain ⟨m, hm, hmj⟩ := h.onto j hj
      exact ⟨m, List.mem_cons_of_mem _ hm, by rw [update_of_ne (hne m hm), hmj]⟩

/-- A node whose frame gets another page. -/
theorem replace (h : NodesMatch f page frameIdx xs) (hp : p ≠ FRAME_EMPTY) (hn : n ∈ xs)
    {i : Fin N} (hi : (frameIdx n).toNat = i) :
    NodesMatch (update f i p) (update page n p) frameIdx xs := by
  -- the other nodes name other frames
  have hother (m : UInt8) (hm : m ∈ xs) (hmn : m ≠ n) : (frameIdx m).toNat ≠ i := by
    intro hmi
    exact hmn (h.inj m hm n hn (UInt8.toNat_inj.mp (hmi.trans hi.symm)))
  refine ⟨?_, h.inj, ?_⟩
  · intro m hm
    by_cases hmn : m = n
    · rw [hmn, update_self]
      exact ⟨hp, i, hi, update_self ..⟩
    · rw [update_of_ne hmn]
      obtain ⟨hpm, j, hj, hfj⟩ := h.inFrame m hm
      refine ⟨hpm, j, hj, ?_⟩
      rw [update_of_ne, hfj]
      rintro rfl
      exact hother m hm hmn hj
  · intro j hj
    by_cases hji : j = i
    · exact ⟨n, hn, by rw [hi, hji]⟩
    · rw [update_of_ne hji] at hj
      exact h.onto j hj

/-- Nodes that match the frames, one for each of the `count` occupied ones. -/
theorem usable (h : NodesMatch f page frameIdx xs) {count : UInt8} (hN : 1 ≤ N) (hN' : N ≤ 256)
    (halloc : ∀ n ∈ xs, n.toNat < count.toNat) (hlen : xs.length = count.toNat)
    (hcount : count.toNat = occupied f) : Usable f count page frameIdx xs where
  length_le := by
    have hle := occupied_le f
    rw [hlen, hcount, POOL_SIZE]
    omega
  inFrame n hn := by
    obtain ⟨-, i, hi, -⟩ := h.inFrame n hn
    exact ⟨i, hi⟩
  fresh _ _ hn := lt_irrefl _ (halloc count hn)
  ne_nil hfull hnil := by
    rw [hnil, hcount, occupied_eq_of_full hfull, List.length_nil] at hlen
    omega

end NodesMatch

/-! ### The nodes hold different pages -/

/-- The nodes `xs` are the first ones of the pool.  They name frames and hold different pages. -/
structure NodesDistinct (f : Fin N → UInt8) (count : UInt8) (page frameIdx : UInt8 → UInt8)
    (xs : List UInt8) : Prop where
  pages : (xs.map page).Nodup
  allocated : ∀ n ∈ xs, n.toNat < xs.length
  count : count = UInt8.ofNat xs.length
  inFrame : ∀ n ∈ xs, (frameIdx n).toNat < N
  empty : xs = [] → ∀ i, f i = FRAME_EMPTY

/-- There are 256 bytes. -/
theorem length_le_of_nodup {xs : List UInt8} (h : xs.Nodup) : xs.length ≤ 256 := by
  have hnd : (xs.map UInt8.toNat).Nodup := h.map fun a b hab => UInt8.toNat_inj.mp hab
  have hsub : xs.map UInt8.toNat ⊆ List.range 256 := by
    intro k hk
    obtain ⟨n, -, rfl⟩ := List.mem_map.mp hk
    exact List.mem_range.mpr n.toNat_lt
  have hle := (hnd.subperm hsub).length_le
  rwa [List.length_map, List.length_range] at hle

namespace NodesDistinct

variable {f : Fin N → UInt8} {count : UInt8} {page frameIdx : UInt8 → UInt8} {xs ys : List UInt8}
  {n p : UInt8}

theorem perm (h : NodesDistinct f count page frameIdx xs) (hxy : xs.Perm ys) :
    NodesDistinct f count page frameIdx ys where
  pages := (hxy.map page).nodup_iff.mp h.pages
  allocated n hn := by
    rw [← hxy.length_eq]
    exact h.allocated n (hxy.mem_iff.mpr hn)
  count := by rw [← hxy.length_eq, h.count]
  inFrame n hn := h.inFrame n (hxy.mem_iff.mpr hn)
  empty hys := h.empty (List.perm_nil.mp (hys ▸ hxy))

/-- While some page has no node, the pool has a node left. -/
theorem count_toNat (h : NodesDistinct f count page frameIdx xs) (hp : p ∉ xs.map page) :
    count.toNat = xs.length := by
  have hle := length_le_of_nodup (List.nodup_cons.mpr ⟨hp, h.pages⟩)
  rw [List.length_cons, List.length_map] at hle
  rw [h.count, UInt8.toNat_ofNat']
  omega

theorem count_notMem (h : NodesDistinct f count page frameIdx xs) (hp : p ∉ xs.map page) :
    count ∉ xs := by
  intro hn
  have hlt := h.allocated count hn
  rw [h.count_toNat hp] at hlt
  exact lt_irrefl _ hlt

theorem length_le (h : NodesDistinct f count page frameIdx xs) : xs.length ≤ POOL_SIZE := by
  have hle := length_le_of_nodup h.pages
  rwa [List.length_map] at hle

theorem usable (h : NodesDistinct f count page frameIdx xs) (hN : 1 ≤ N) :
    Usable f count page frameIdx xs where
  length_le := h.length_le
  inFrame n hn := ⟨⟨_, h.inFrame n hn⟩, rfl⟩
  fresh _ hp := h.count_notMem hp
  ne_nil hfull hnil := hfull ⟨0, hN⟩ (h.empty hnil ⟨0, hN⟩)

/-- A new node for a page that no node holds. -/
theorem add (h : NodesDistinct f count page frameIdx xs) (hN : N ≤ 256) (hp : p ∉ xs.map page)
    (i : Fin N) :
    NodesDistinct (update f i p) (count + 1) (update page count p)
      (update frameIdx count (.ofNat i)) (count :: xs) := by
  have hcount := h.count_toNat hp
  have hnew := h.count_notMem hp
  refine ⟨?_, ?_, ?_, ?_, fun hnil => absurd hnil (List.cons_ne_nil _ _)⟩
  · rw [List.map_cons, map_update_of_notMem hnew, update_self]
    exact List.nodup_cons.mpr ⟨hp, h.pages⟩
  · intro m hm
    rw [List.length_cons]
    rcases List.mem_cons.mp hm with rfl | hm
    · omega
    · have := h.allocated m hm
      omega
  · rw [h.count, List.length_cons, UInt8.ofNat_add]
    rfl
  · intro m hm
    apply update_ofNat_lt hN
    intro hne
    exact h.inFrame m ((List.mem_cons.mp hm).resolve_left hne)

/-- A node gets a page that no node holds. -/
theorem replace (h : NodesDistinct f count page frameIdx xs) (hnd : xs.Nodup) (hn : n ∈ xs)
    (hp : p ∉ xs.map page) (i : Fin N) :
    NodesDistinct (update f i p) count (update page n p) frameIdx xs := by
  refine ⟨?_, h.allocated, h.count, h.inFrame, fun hnil => ?_⟩
  · -- move `n` to the front
    obtain ⟨as, bs, rfl⟩ := List.append_of_mem hn
    have hperm : (as ++ n :: bs).Perm (n :: (as ++ bs)) := List.perm_middle
    have hrest : n ∉ as ++ bs := (List.nodup_cons.mp (hperm.nodup_iff.mp hnd)).1
    have hpages := (hperm.map page).nodup_iff.mp h.pages
    rw [List.map_cons, List.nodup_cons] at hpages
    rw [(hperm.map _).nodup_iff, List.map_cons, map_update_of_notMem hrest, update_self]
    refine List.nodup_cons.mpr ⟨fun hm => hp ?_, hpages.2⟩
    rw [(hperm.map page).mem_iff]
    exact List.mem_cons_of_mem _ hm
  · rw [hnil] at hn
    exact absurd hn (List.not_mem_nil)

theorem mem_map_add {q : UInt8} (hn : n ∉ xs) (hq : q ∈ (n :: xs).map (update page n p)) :
    q = p ∨ q ∈ xs.map page := by
  rw [List.map_cons, update_self, map_update_of_notMem hn, List.mem_cons] at hq
  exact hq

theorem mem_map_update {q : UInt8} (hq : q ∈ xs.map (update page n p)) :
    q = p ∨ q ∈ xs.map page := by
  obtain ⟨m, hm, rfl⟩ := List.mem_map.mp hq
  by_cases hmn : m = n
  · rw [hmn, update_self]
    exact Or.inl rfl
  · rw [update_of_ne hmn]
    exact Or.inr (List.mem_map_of_mem hm)

end NodesDistinct

end OsLabs.PageReplace
