import OsLabs.VirtualMemory.Mmu

/-!
# Loading and translation isolate the process

`freeFrames` lists the free frames in the order `allocate_frame` finds them.  An iteration of
`load_process` takes the first of them away (`freeFrames_update`), so after `k` iterations the
list has lost its first `k` frames and virtual page `i < k` is in the `i`-th frame of the original
list; this is the loop invariant `LoadInv`.  Translation then reads a frame number below
`NUM_FRAMES`, which none of the narrowing conversions changes.
-/

namespace OsLabs.VirtualMemory

open Function

/-- The free frames, in increasing order. -/
def freeFrames (frames : Fin NUM_FRAMES → Frame) : List (Fin NUM_FRAMES) :=
  (List.finRange NUM_FRAMES).filter fun i => (frames i).state = .free

theorem fin_lt (i : Fin NUM_FRAMES) : (i : ℕ) < 100 := i.isLt

theorem nodup_freeFrames (frames : Fin NUM_FRAMES → Frame) : (freeFrames frames).Nodup :=
  (List.nodup_finRange NUM_FRAMES).filter _

/-- `allocate_frame` finds the first free frame. -/
theorem allocateFrame_eq {frames : Fin NUM_FRAMES → Frame} {i : Fin NUM_FRAMES}
    {rest : List (Fin NUM_FRAMES)} (h : freeFrames frames = i :: rest) :
    allocateFrame frames = (i : ℕ) := by
  have hfind : (List.finRange NUM_FRAMES).find? (fun i => (frames i).state = .free) = some i := by
    rw [← List.head?_filter]
    show (freeFrames frames).head? = some i
    rw [h, List.head?_cons]
  have hi := fin_lt i
  rw [allocateFrame, hfind]
  exact int8_of_lt (Int.natCast_nonneg _) (by omega)

/-- A frame that is taken is no longer listed. -/
theorem freeFrames_update_eq (frames : Fin NUM_FRAMES → Frame) (i : Fin NUM_FRAMES) {f : Frame}
    (hf : f.state ≠ .free) : freeFrames (update frames i f) = (freeFrames frames).erase i := by
  rw [(nodup_freeFrames frames).erase_eq_filter]
  unfold freeFrames
  rw [List.filter_filter]
  apply List.filter_congr
  intro j _
  by_cases hj : j = i
  · subst hj
    simp [hf]
  · simp [hj]

/-- Taking the first free frame leaves the others. -/
theorem freeFrames_update {frames : Fin NUM_FRAMES → Frame} {i : Fin NUM_FRAMES}
    {rest : List (Fin NUM_FRAMES)} (h : freeFrames frames = i :: rest) {f : Frame}
    (hf : f.state ≠ .free) : freeFrames (update frames i f) = rest := by
  rw [freeFrames_update_eq frames i hf, h, List.erase_cons_head]

/-- A frame is free or counted as occupied; the count does not wrap around. -/
theorem occupiedCount_add_free (frames : Fin NUM_FRAMES → Frame) :
    (occupiedCount frames).toNat + (freeFrames frames).length = NUM_FRAMES := by
  -- over any list of frames and from any count
  have hfold (l : List (Fin NUM_FRAMES)) (c : UInt8) (hc : c.toNat + l.length < 256) :
      (l.foldl (fun count i => if (frames i).state = .free then count else count + 1) c).toNat
        + (l.filter fun i => (frames i).state = .free).length = c.toNat + l.length := by
    induction l generalizing c with
    | nil => rfl
    | cons i l ih =>
      rw [List.length_cons] at hc
      rw [List.foldl_cons, List.length_cons]
      by_cases hi : (frames i).state = .free
      · rw [if_pos hi, List.filter_cons_of_pos (by simpa using hi), List.length_cons]
        have := ih c (by omega)
        omega
      · have hsucc : (c + 1).toNat = c.toNat + 1 := by
          rw [UInt8.toNat_add, show (1 : UInt8).toNat = 1 from rfl]
          omega
        rw [if_neg hi, List.filter_cons_of_neg (by simpa using hi), ih (c + 1) (by omega), hsucc]
        omega
  have h := hfold (List.finRange NUM_FRAMES) 0 (by simp [NUM_FRAMES])
  rw [List.length_finRange] at h
  simpa [occupiedCount, freeFrames] using h

/-! ### The loop of `load_process` -/

/-- The entry that maps a page to frame `i`. -/
def mapped (i : Fin NUM_FRAMES) : PtEntry := { pfn := .ofNat i, valid := 1 }

/-- The state after `k` iterations of `load_process`, with `l` the free frames it started from. -/
structure LoadInv (frames₀ : Fin NUM_FRAMES → Frame) (n k : ℕ) (m : Mmu) : Prop where
  free : freeFrames m.frames = (freeFrames frames₀).drop k
  entries : m.table.entries
    = ((freeFrames frames₀).take k).map mapped ++ List.replicate (n - k) { pfn := 0, valid := 0 }
  numVpages : m.table.numVpages.toNat = n
  /-- Page `i` is in the `i`-th free frame. -/
  taken : ∀ i (hi : i < (freeFrames frames₀).length), i < k →
    m.frames (freeFrames frames₀)[i] = { state := .occupied, vPage := .ofNat i }
  others : ∀ j ∉ (freeFrames frames₀).take k, m.frames j = frames₀ j

/-- Before the first iteration. -/
theorem loadInv_start (frames₀ : Fin NUM_FRAMES → Frame) (n : UInt8) :
    LoadInv frames₀ n.toNat 0 { frames := frames₀, table := ptCreate n } where
  free := rfl
  entries := rfl
  numVpages := rfl
  taken i _ hi := absurd hi (Nat.not_lt_zero i)
  others _ _ := rfl

theorem setFrame_fin (frames : Fin NUM_FRAMES → Frame) (i : Fin NUM_FRAMES) (f : Frame) :
    setFrame frames (i : ℕ) f = .ok (update frames i f) := by
  unfold setFrame
  rw [dif_pos ⟨Int.natCast_nonneg _, by simp⟩]
  rfl

/-- One iteration, when a frame is free. -/
theorem LoadInv.step {frames₀ : Fin NUM_FRAMES → Frame} {n k : ℕ} {m : Mmu}
    (h : LoadInv frames₀ n k m) (hn : n < 256) (hk : k < n)
    (hfree : k < (freeFrames frames₀).length) :
    ∃ m', loadPage m k = .ok m' ∧ LoadInv frames₀ n (k + 1) m' := by
  obtain ⟨i, hi⟩ : ∃ i, (freeFrames frames₀)[k] = i := ⟨_, rfl⟩
  have hhead : freeFrames m.frames = i :: (freeFrames frames₀).drop (k + 1) := by
    rw [h.free, List.drop_eq_getElem_cons hfree, hi]
  have htake : (freeFrames frames₀).take (k + 1) = (freeFrames frames₀).take k ++ [i] := by
    rw [List.take_succ_eq_append_getElem hfree, hi]
  have hpage : (UInt8.ofNat k).toNat = k := by
    rw [UInt8.toNat_ofNat']
    omega
  -- the entry of page `k` is the first one not set yet
  have hlen : (((freeFrames frames₀).take k).map mapped).length = k := by
    rw [List.length_map, List.length_take]
    omega
  have hentries : m.table.entries.set k (mapped i)
      = ((freeFrames frames₀).take (k + 1)).map mapped
        ++ List.replicate (n - (k + 1)) { pfn := 0, valid := 0 } := by
    rw [h.entries, List.set_append_right _ _ hlen.le, hlen, Nat.sub_self, htake, List.map_append,
      show n - k = (n - (k + 1)) + 1 by omega, List.replicate_succ, List.set_cons_zero,
      List.append_assoc]
    rfl
  have hlt : k < m.table.entries.length := by
    rw [h.entries, List.length_append, hlen, List.length_replicate]
    omega
  have hpfn : UInt8.ofInt ((i : ℕ) : ℤ) = .ofNat i := by
    apply UInt8.toNat_inj.mp
    have hi := fin_lt i
    rw [toNat_ofInt_of_lt (by omega) (by omega), UInt8.toNat_ofNat']
    omega
  have hne : ((i : ℕ) : ℤ) ≠ -1 := by omega
  refine ⟨{ frames := update m.frames i { state := .occupied, vPage := .ofNat k }
            table := { m.table with entries := m.table.entries.set k (mapped i) } }, ?_, ?_⟩
  · unfold loadPage ptSetEntry
    rw [allocateFrame_eq hhead, hpage]
    simp only [if_pos hne, if_pos hlt, hpfn, setFrame_fin]
    rfl
  · refine ⟨freeFrames_update hhead (by simp), hentries, h.numVpages, ?_, ?_⟩
    · intro j hj hjk
      by_cases heq : j = k
      · subst heq
        rw [hi]
        exact update_self ..
      · have hij : (freeFrames frames₀)[j] ≠ i := by
          rw [← hi]
          exact fun hcon => heq ((nodup_freeFrames frames₀).getElem_inj_iff.mp hcon)
        have hold := h.taken j hj (by omega)
        rw [← hold]
        exact update_of_ne hij ..
    · intro j hj
      rw [htake, List.mem_append, List.mem_singleton, not_or] at hj
      rw [← h.others j hj.1]
      exact update_of_ne hj.2 ..

/-- The whole loop, as long as there are free frames. -/
theorem LoadInv.loop {frames₀ : Fin NUM_FRAMES → Frame} {n : ℕ} (hn : n < 256) {m : Mmu}
    (h : LoadInv frames₀ n 0 m) :
    ∀ k ≤ n, k ≤ (freeFrames frames₀).length →
      ∃ m', (List.range k).foldlM loadPage m = .ok m' ∧ LoadInv frames₀ n k m' := by
  intro k
  induction k with
  | zero => exact fun _ _ => ⟨m, rfl, h⟩
  | succ k ih =>
    intro hk hfree
    obtain ⟨m₁, hm₁, hinv⟩ := ih (by omega) (by omega)
    obtain ⟨m₂, hm₂, hinv'⟩ := hinv.step hn hk (by omega)
    refine ⟨m₂, ?_, hinv'⟩
    rw [List.range_succ, List.foldlM_append, hm₁]
    show (loadPage m₁ k >>= pure) = _
    rw [hm₂]
    rfl

/-- The process is loaded when there are enough free frames. -/
theorem exists_loadProcess (frames₀ : Fin NUM_FRAMES → Frame) (n : UInt8)
    (hfree : n.toNat ≤ (freeFrames frames₀).length) :
    ∃ m, loadProcess { frames := frames₀, table := ptCreate n } n = .ok m ∧
      LoadInv frames₀ n.toNat n.toNat m :=
  LoadInv.loop n.toNat_lt (loadInv_start frames₀ n) n.toNat le_rfl hfree

/-- Without a free frame the iteration stops the program. -/
theorem loadPage_of_full {m : Mmu} (h : freeFrames m.frames = []) (i : ℕ) :
    loadPage m i = .error .noFreeFrame := by
  have hfind : (List.finRange NUM_FRAMES).find? (fun i => (m.frames i).state = .free) = none := by
    rw [← List.head?_filter]
    show (freeFrames m.frames).head? = none
    rw [h, List.head?_nil]
  have hfull : allocateFrame m.frames = -1 := by
    rw [allocateFrame, hfind]
  unfold loadPage
  simp only [hfull]
  rfl

/-- A process with more pages than there are free frames is not loaded. -/
theorem loadProcess_of_gt {frames₀ : Fin NUM_FRAMES → Frame} {n : UInt8}
    (h : (freeFrames frames₀).length < n.toNat) :
    loadProcess { frames := frames₀, table := ptCreate n } n = .error .noFreeFrame := by
  -- the loop stops in the iteration after the last free frame
  have hstop (k : ℕ) (hk : (freeFrames frames₀).length + 1 ≤ k) :
      (List.range k).foldlM loadPage { frames := frames₀, table := ptCreate n }
        = .error .noFreeFrame := by
    induction k, hk using Nat.le_induction with
    | base =>
      obtain ⟨m, hm, hinv⟩ := LoadInv.loop n.toNat_lt (loadInv_start frames₀ n)
        (freeFrames frames₀).length h.le le_rfl
      have hfull : freeFrames m.frames = [] := by rw [hinv.free, List.drop_length]
      rw [List.range_succ, List.foldlM_append, hm]
      show (loadPage m _ >>= pure) = _
      rw [loadPage_of_full hfull]
      rfl
    | succ k _ ih =>
      rw [List.range_succ, List.foldlM_append, ih]
      rfl
  exact hstop n.toNat h

/-! ### Translation -/

/-- `pt_get_pfn` for a page of the process. -/
theorem LoadInv.ptGetPfn_eq {frames₀ : Fin NUM_FRAMES → Frame} {n : ℕ} {m : Mmu}
    (h : LoadInv frames₀ n n m) {vpn : UInt8} {i : ℕ} (hvpn : vpn.toNat = i) (hin : i < n)
    (hi : i < (freeFrames frames₀).length) :
    ptGetPfn m.table vpn = .ok (((freeFrames frames₀)[i] : ℕ) : ℤ) := by
  obtain ⟨f, hf⟩ : ∃ f, (freeFrames frames₀)[i] = f := ⟨_, rfl⟩
  have hentry : m.table.entries[i]? = some (mapped f) := by
    rw [h.entries, List.getElem?_append_left (by rw [List.length_map, List.length_take]; omega),
      List.getElem?_map, List.getElem?_take_of_lt hin, List.getElem?_eq_getElem hi, hf]
    rfl
  have hlt := fin_lt f
  have hpfn : (mapped f).pfn.toNat = f := by
    rw [mapped, UInt8.toNat_ofNat']
    omega
  have hle : ¬ vpn > m.table.numVpages := by
    rw [gt_iff_lt, UInt8.lt_iff_toNat_lt, hvpn, h.numVpages]
    omega
  unfold ptGetPfn
  rw [if_neg hle, hvpn, hentry]
  show Except.ok (int8 ((mapped f).pfn.toNat : ℤ)) = _
  rw [hpfn, int8_of_lt (by omega) (by omega), hf]

/-- Frame numbers are too small for any of the narrowing conversions to change the result. -/
theorem translate_of_ptGetPfn {m : Mmu} {va : UInt16} {f : ℕ} (hf : f < 100)
    (h : ptGetPfn m.table (.ofNat (va.toNat / 256 % 256)) = .ok (f : ℤ)) :
    translate m va = .ok ((256 * f + va.toNat % 256 : ℕ) : ℤ) := by
  have h16 : int16 (f : ℤ) = f := int16_of_lt (by omega) (by omega)
  have hpa : int16 ((f : ℤ) * 256 + va.toNat % 256) = ((256 * f + va.toNat % 256 : ℕ) : ℤ) := by
    rw [int16_of_lt (by omega) (by omega)]
    omega
  unfold translate
  simp only [h, bind, Except.bind, pure, Except.pure, h16, hpa]
  rw [if_neg (by omega)]

/-! ### The process in memory -/

/-- `m` is `frames₀` with a process of `n` pages in its first `n` free frames. -/
structure Loaded (frames₀ : Fin NUM_FRAMES → Frame) (n : UInt8) (m : Mmu) : Prop where
  /-- Virtual page `i` is mapped to the `i`-th free frame. -/
  mapped : ∀ i (hi : i < (freeFrames frames₀).length), i < n.toNat →
    ptGetPfn m.table (.ofNat i) = .ok (((freeFrames frames₀)[i] : ℕ) : ℤ)
  taken : ∀ i (hi : i < (freeFrames frames₀).length), i < n.toNat →
    m.frames (freeFrames frames₀)[i] = { state := .occupied, vPage := .ofNat i }
  others : ∀ j ∉ (freeFrames frames₀).take n.toNat, m.frames j = frames₀ j
  count : (occupiedCount m.frames).toNat = (occupiedCount frames₀).toNat + n.toNat

/-- The virtual address `va` is at the physical address `pa`, in frame `f`. -/
structure Translated (m : Mmu) (va : UInt16) (f : Fin NUM_FRAMES) (pa : ℤ) : Prop where
  translate : translate m va = .ok pa
  pfn : ptGetPfn m.table (.ofNat (va.toNat / 256)) = .ok ((f : ℕ) : ℤ)
  value : pa = 256 * ((f : ℕ) : ℤ) + va.toNat % 256
  /-- It is not taken for an error. -/
  valid : pa ≠ -1
  offset : pa % 256 = va.toNat % 256
  frame : pa / 256 = ((f : ℕ) : ℤ)
  /-- In particular the frame is not a preoccupied one. -/
  occupied : (m.frames f).state = .occupied

/-- After the last iteration the process is in memory. -/
theorem LoadInv.loaded {frames₀ : Fin NUM_FRAMES → Frame} {n : UInt8} {m : Mmu}
    (h : LoadInv frames₀ n.toNat n.toNat m) (hfree : n.toNat ≤ (freeFrames frames₀).length) :
    Loaded frames₀ n m where
  mapped i hi hin := by
    have hvpn : (UInt8.ofNat i).toNat = i := by
      have := n.toNat_lt
      rw [UInt8.toNat_ofNat']
      omega
    exact h.ptGetPfn_eq hvpn hin hi
  taken := h.taken
  others := h.others
  count := by
    have hbefore := occupiedCount_add_free frames₀
    have hafter := occupiedCount_add_free m.frames
    rw [h.free, List.length_drop] at hafter
    omega

/-- An address of the process is in the frame of its page. -/
theorem Loaded.translated {frames₀ : Fin NUM_FRAMES → Frame} {n : UInt8} {m : Mmu}
    (h : Loaded frames₀ n m) {va : UInt16} (hva : va.toNat < 256 * n.toNat)
    (hpage : va.toNat / 256 < (freeFrames frames₀).length) :
    Translated m va (freeFrames frames₀)[va.toNat / 256]
      ((256 * ((freeFrames frames₀)[va.toNat / 256] : ℕ) + va.toNat % 256 : ℕ) : ℤ) := by
  have hdiv : va.toNat / 256 < n.toNat := by omega
  have hmod : va.toNat / 256 % 256 = va.toNat / 256 := by
    have := va.toNat_lt
    omega
  have hget := h.mapped _ hpage hdiv
  have htr := translate_of_ptGetPfn (fin_lt _) (by rw [hmod]; exact hget)
  refine ⟨htr, hget, ?_, ?_, ?_, ?_, ?_⟩
  · push_cast
    rfl
  · omega
  · omega
  · omega
  · rw [h.taken _ hpage hdiv]

/-- **Loading and translation isolate the process.**  With enough free frames `load_process`
returns on a fresh page table, puts page `i` into the `i`-th free frame, and every address of the
process translates to its own address in one of these frames. -/
theorem load_isolates (frames₀ : Fin NUM_FRAMES → Frame) (n : UInt8)
    (hfree : n.toNat ≤ (freeFrames frames₀).length) :
    ∃ m, loadProcess { frames := frames₀, table := ptCreate n } n = .ok m ∧ Loaded frames₀ n m ∧
      (∀ va : UInt16, va.toNat < 256 * n.toNat → ∃ f pa, Translated m va f pa) ∧
      ∀ va va' : UInt16, va.toNat < 256 * n.toNat → va'.toNat < 256 * n.toNat →
        translate m va = translate m va' → va = va' := by
  obtain ⟨m, hload, hinv⟩ := exists_loadProcess _ _ hfree
  have hloaded := hinv.loaded hfree
  refine ⟨m, hload, hloaded, fun va hva => ⟨_, _, hloaded.translated hva (by omega)⟩, ?_⟩
  intro va va' hva hva' heq
  have hpage : va.toNat / 256 < (freeFrames frames₀).length := by omega
  have hpage' : va'.toNat / 256 < (freeFrames frames₀).length := by omega
  -- equal physical addresses have equal frames and equal offsets
  rw [(hloaded.translated hva hpage).translate, (hloaded.translated hva' hpage').translate] at heq
  have hpa := Except.ok.inj heq
  have hframe : (freeFrames frames₀)[va.toNat / 256] = (freeFrames frames₀)[va'.toNat / 256] := by
    apply Fin.ext
    omega
  have hvpn := (nodup_freeFrames frames₀).getElem_inj_iff.mp hframe
  apply UInt16.toNat_inj.mp
  omega

/-- A RAM whose even frames are preoccupied, and a process of two pages. -/
theorem load_isolates_two :
    ∃ m, loadProcess { frames := fun i => ⟨if i.val % 2 = 0 then .preoccupied else .free, 0⟩
                       table := ptCreate 2 } 2 = .ok m ∧
      Loaded (fun i => ⟨if i.val % 2 = 0 then .preoccupied else .free, 0⟩) 2 m ∧
      (∀ va : UInt16, va.toNat < 512 → ∃ f pa, Translated m va f pa) ∧
      ∀ va va' : UInt16, va.toNat < 512 → va'.toNat < 512 →
        translate m va = translate m va' → va = va' :=
  load_isolates _ 2 (by decide)

end OsLabs.VirtualMemory
