import OsLabs.VirtualMemory.Equiv.Load

/-!
# Addresses out of range

`pt_get_pfn` rejects a page number that is greater than `num_vpages`, so the first page number out
of range passes: its entry is read past the end of the table.  Every other page number out of range
is rejected (`out_of_range_rejected_iff`).
-/

namespace OsLabs.VirtualMemory

/-- `va` is rejected: `translate` returns -1, and no entry outside the table is read. -/
structure Rejected (m : Mmu) (va : UInt16) : Prop where
  translate : translate m va = .ok (-1)
  inside : ∀ i, ptGetPfn m.table (.ofNat (va.toNat / 256)) ≠ .error (.entry i)

/-! ### The size of the table -/

/-- The loop body stores into the table and does not resize it. -/
theorem loadPage_size {m m' : Mmu} {i : ℕ} (h : loadPage m i = .ok m') :
    m'.table.entries.length = m.table.entries.length ∧
      m'.table.numVpages = m.table.numVpages := by
  unfold loadPage ptSetEntry at h
  by_cases hfree : allocateFrame m.frames ≠ -1
  · rw [if_pos hfree] at h
    by_cases hlt : (UInt8.ofNat i).toNat < m.table.entries.length
    · rw [if_pos hlt] at h
      cases hset : setFrame m.frames (allocateFrame m.frames)
          { state := .occupied, vPage := .ofNat i } with
      | error e =>
        rw [hset] at h
        exact absurd h nofun
      | ok frames =>
        rw [hset] at h
        obtain rfl := Except.ok.inj h
        exact ⟨List.length_set, rfl⟩
    · rw [if_neg hlt] at h
      exact absurd h nofun
  · rw [if_neg hfree] at h
    exact absurd h nofun

/-- Nor does the whole loop. -/
theorem foldlM_loadPage_size {pages : List ℕ} {m m' : Mmu}
    (h : pages.foldlM loadPage m = .ok m') :
    m'.table.entries.length = m.table.entries.length ∧
      m'.table.numVpages = m.table.numVpages := by
  induction pages generalizing m with
  | nil =>
    obtain rfl := Except.ok.inj h
    exact ⟨rfl, rfl⟩
  | cons i pages ih =>
    rw [List.foldlM_cons] at h
    cases hpage : loadPage m i with
    | error e =>
      rw [hpage] at h
      exact absurd h nofun
    | ok m₁ =>
      rw [hpage] at h
      obtain ⟨hlen, hnum⟩ := ih h
      obtain ⟨hlen₁, hnum₁⟩ := loadPage_size hpage
      exact ⟨hlen.trans hlen₁, hnum.trans hnum₁⟩

/-- The table of a loaded process has the size it was created with. -/
theorem loadProcess_size {frames₀ : Fin NUM_FRAMES → Frame} {n : UInt8} {m : Mmu}
    (h : loadProcess { frames := frames₀, table := ptCreate n } n = .ok m) :
    m.table.entries.length = n.toNat ∧ m.table.numVpages = n := by
  obtain ⟨hlen, hnum⟩ := foldlM_loadPage_size h
  exact ⟨hlen.trans List.length_replicate, hnum⟩

/-- A process that is loaded found a free frame for every page. -/
theorem loaded_of_loadProcess {frames₀ : Fin NUM_FRAMES → Frame} {n : UInt8} {m : Mmu}
    (h : loadProcess { frames := frames₀, table := ptCreate n } n = .ok m) :
    n.toNat ≤ (freeFrames frames₀).length ∧ Loaded frames₀ n m := by
  have hfree : n.toNat ≤ (freeFrames frames₀).length := by
    by_contra hlt
    rw [loadProcess_of_gt (not_le.mp hlt)] at h
    exact absurd h nofun
  obtain ⟨m', hload, hinv⟩ := exists_loadProcess _ _ hfree
  have heq : m' = m := Except.ok.inj (hload.symm.trans h)
  exact ⟨hfree, heq ▸ hinv.loaded hfree⟩

/-! ### Page numbers out of range -/

/-- A page number greater than `num_vpages` is rejected. -/
theorem rejected_of_gt {m : Mmu} {va : UInt16}
    (h : UInt8.ofNat (va.toNat / 256) > m.table.numVpages) : Rejected m va := by
  have hmod : va.toNat / 256 % 256 = va.toNat / 256 := by
    have := va.toNat_lt
    omega
  have hget : ptGetPfn m.table (.ofNat (va.toNat / 256)) = .ok (-1) := if_pos h
  refine ⟨?_, fun i hi => ?_⟩
  · unfold translate
    simp only [hmod, hget]
    rfl
  · rw [hget] at hi
    exact absurd hi nofun

/-- The first page number out of range passes the check, and there is no entry for it. -/
theorem ptGetPfn_first {table : PageTable} {vpn : UInt8} (hnum : vpn = table.numVpages)
    (hlen : table.entries.length = vpn.toNat) :
    ptGetPfn table vpn = .error (.entry vpn.toNat) := by
  have hle : ¬vpn > table.numVpages := by
    rw [hnum]
    exact UInt8.lt_irrefl _
  have hnone : table.entries[vpn.toNat]? = none := List.getElem?_eq_none hlen.le
  unfold ptGetPfn
  rw [if_neg hle, hnone]

/-- **Out-of-range addresses**: in a process of `n` pages an address with a page number from `n` on
is rejected, without a read past the end of the page table, if and only if the page number is not
`n` itself. -/
theorem out_of_range_rejected_iff (frames₀ : Fin NUM_FRAMES → Frame) (n : UInt8) {m : Mmu}
    (h : loadProcess { frames := frames₀, table := ptCreate n } n = .ok m) (va : UInt16)
    (hva : n.toNat ≤ va.toNat / 256) : Rejected m va ↔ va.toNat / 256 ≠ n.toNat := by
  obtain ⟨hlen, hnum⟩ := loadProcess_size h
  have hvpn : (UInt8.ofNat (va.toNat / 256)).toNat = va.toNat / 256 := by
    have := va.toNat_lt
    rw [UInt8.toNat_ofNat']
    omega
  constructor
  · intro hrej heq
    have hfirst : UInt8.ofNat (va.toNat / 256) = n := UInt8.toNat_inj.mp (hvpn.trans heq)
    exact hrej.inside _ (ptGetPfn_first (hfirst.trans hnum.symm) (by rw [hlen, hfirst]))
  · intro hne
    apply rejected_of_gt
    rw [gt_iff_lt, UInt8.lt_iff_toNat_lt, hvpn, hnum]
    omega

/-- A process of two pages and its page number 3. -/
theorem out_of_range_rejected_iff_two :
    ∃ m, loadProcess { frames := fun _ => ⟨.free, 0⟩, table := ptCreate 2 } 2 = .ok m ∧
      (Rejected m 768 ↔ (768 : UInt16).toNat / 256 ≠ (2 : UInt8).toNat) :=
  ⟨_, rfl, out_of_range_rejected_iff (fun _ => ⟨.free, 0⟩) 2 rfl 768 (by decide)⟩

/-- Page number 2 of a process of two pages is not rejected. -/
theorem not_out_of_range_rejected :
    ¬∀ (frames₀ : Fin NUM_FRAMES → Frame) (n : UInt8) (m : Mmu),
      loadProcess { frames := frames₀, table := ptCreate n } n = .ok m →
        ∀ va : UInt16, n.toNat ≤ va.toNat / 256 → Rejected m va := by
  intro hall
  obtain ⟨m, hload, hfault⟩ :
      ∃ m, loadProcess { frames := fun _ => ⟨.free, 0⟩, table := ptCreate 2 } 2 = .ok m ∧
        ptGetPfn m.table 2 = .error (.entry 2) := ⟨_, rfl, rfl⟩
  exact (hall _ 2 m hload 512 (by decide)).inside 2 hfault

end OsLabs.VirtualMemory
