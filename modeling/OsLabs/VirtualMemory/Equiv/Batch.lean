import OsLabs.Lib.Numerals
import OsLabs.VirtualMemory.Main
import OsLabs.VirtualMemory.Equiv.Range

/-!
# Batch translation

`batch_translate` narrows the value of a line to 16 bits before anything is rejected, so a line for
`v` is translated as the address `v % 65536` (`translateLine_eq`).  A value out of range is rejected
if and only if the page number of that address is greater than the number of pages
(`translateLine_meets_iff`).
-/

namespace OsLabs.VirtualMemory

/-- The line holds the integer `v`, which fits a `long`. -/
def HoldsInt (line : List Char) (v : ℤ) : Prop :=
  ∃ blanks cs rest, line = blanks ++ cs ++ rest ∧ (∀ c ∈ blanks, isSpace c ∧ c ≠ '\n') ∧
    Signed cs v ∧ (∀ c ∈ rest, isSpace c) ∧ -LONG_MAX - 1 ≤ v ∧ v ≤ LONG_MAX

theorem ne_NUL_of_isSpace {c : Char} (h : isSpace c) : c ≠ NUL := by
  rintro rfl
  exact absurd h (by decide)

/-- A line is translated as the low 16 bits of its value. -/
theorem translateLine_eq (m : Mmu) {line : List Char} {v : ℤ} (h : HoldsInt line v) :
    translateLine m line = addrTranslate m (.ofInt v) := by
  obtain ⟨blanks, cs, rest, rfl, hblanks, hcs, hrest, hmin, hmax⟩ := h
  -- the line is a string without a NUL, and the number ends before its newline
  have hstring : cString (blanks ++ cs ++ rest) = blanks ++ cs ++ rest := by
    refine List.takeWhile_eq_self_iff.mpr fun c hc => ?_
    rw [decide_eq_true_eq]
    rcases List.mem_append.mp hc with hc | hc
    · rcases List.mem_append.mp hc with hc | hc
      · exact ne_NUL_of_isSpace (hblanks c hc).1
      · exact (hcs.ne hc).1
    · exact ne_NUL_of_isSpace (hrest c hc)
  have hcut : (blanks ++ cs ++ rest).takeWhile (· ≠ '\n')
      = blanks ++ cs ++ rest.takeWhile (· ≠ '\n') := by
    refine List.takeWhile_append_of_pos fun c hc => ?_
    rw [decide_eq_true_eq]
    rcases List.mem_append.mp hc with hc | hc
    · exact (hblanks c hc).2
    · exact (hcs.ne hc).2
  have hstop : Stops (rest.takeWhile (· ≠ '\n')) :=
    stops_of_isSpace fun c hc => hrest c (List.takeWhile_prefix _ |>.subset hc)
  unfold translateLine
  rw [hstring, hcut]
  show addrTranslate m (.ofInt (strtol _)) = _
  rw [strtol_signed (fun c hc => (hblanks c hc).1) hcs hstop hmin hmax]

/-- The low 16 bits of an integer. -/
theorem toNat_ofInt16 (v : ℤ) : ((UInt16.ofInt v).toNat : ℤ) = v % 65536 := by
  unfold UInt16.ofInt
  rw [UInt16.toNat_ofNat']
  omega

/-- What is printed for `v` is right: its translation if it is an address of the process, and the
error if it is not. -/
def Meets (m : Mmu) (numVpage : UInt8) (v : ℤ) (out : Except Fault Printed) : Prop :=
  if 0 ≤ v ∧ v < 256 * numVpage.toNat then
    ∃ va f pa, (va.toNat : ℤ) = v ∧ Translated m va f pa ∧
      out = .ok (.address va (va.toNat / 256) (va.toNat % 256) f pa)
  else out = .ok .outOfRange

/-! ### What is printed for an address -/

/-- The narrowing of what is printed does not change it. -/
theorem Translated.addrTranslate_eq {m : Mmu} {va : UInt16} {f : Fin NUM_FRAMES} {pa : ℤ}
    (h : Translated m va f pa) :
    addrTranslate m va = .ok (.address va (va.toNat / 256) (va.toNat % 256) f pa) := by
  have hf := fin_lt f
  have hva := va.toNat_lt
  have hpage : va.toNat / 256 % 256 = va.toNat / 256 := by omega
  have hpfn : (pa / 256 % 256).toNat = f := by
    rw [h.frame]
    omega
  unfold addrTranslate
  rw [h.translate]
  show (if pa = -1 then _ else _) = _
  rw [if_neg h.valid, hpage, hpfn]
  rfl

theorem Rejected.addrTranslate_eq {m : Mmu} {va : UInt16} (h : Rejected m va) :
    addrTranslate m va = .ok .outOfRange := by
  unfold addrTranslate
  rw [h.translate]
  rfl

/-- For the first page number out of range the page table is read past its end. -/
theorem addrTranslate_first {m : Mmu} {va : UInt16}
    (hnum : UInt8.ofNat (va.toNat / 256) = m.table.numVpages)
    (hlen : m.table.entries.length = (UInt8.ofNat (va.toNat / 256)).toNat) :
    addrTranslate m va = .error (.entry (UInt8.ofNat (va.toNat / 256)).toNat) := by
  have hmod : va.toNat / 256 % 256 = va.toNat / 256 := by
    have := va.toNat_lt
    omega
  unfold addrTranslate translate
  simp only [hmod, ptGetPfn_first hnum hlen]
  rfl

section Loaded

variable {frames₀ : Fin NUM_FRAMES → Frame} {n : UInt8} {m : Mmu}
  (hload : loadProcess { frames := frames₀, table := ptCreate n } n = .ok m)

include hload

/-- What is printed for the low 16 bits of `v`, by the page number of these bits. -/
theorem addrTranslate_meets_iff (v : ℤ) : Meets m n v (addrTranslate m (.ofInt v)) ↔
    (0 ≤ v ∧ v < 256 * n.toNat) ∨ (n.toNat : ℤ) < v % 65536 / 256 := by
  have hva := toNat_ofInt16 v
  obtain ⟨va, hva'⟩ : ∃ va, UInt16.ofInt v = va := ⟨_, rfl⟩
  rw [hva'] at hva ⊢
  have hn := n.toNat_lt
  have hlt := va.toNat_lt
  have hvpn : (UInt8.ofNat (va.toNat / 256)).toNat = va.toNat / 256 := by
    rw [UInt8.toNat_ofNat']
    omega
  obtain ⟨hfree, hloaded⟩ := loaded_of_loadProcess hload
  obtain ⟨hlen, hnum⟩ := loadProcess_size hload
  unfold Meets
  rcases Nat.lt_trichotomy (va.toNat / 256) n.toNat with hpage | hpage | hpage
  · -- the address is one of the process: right if and only if it is `v`
    have htr := hloaded.translated (show va.toNat < 256 * n.toNat by omega) (by omega)
    split_ifs with hv
    · exact iff_of_true ⟨va, _, _, by omega, htr, htr.addrTranslate_eq⟩ (.inl hv)
    · rw [htr.addrTranslate_eq]
      exact iff_of_false nofun (by omega)
  · -- the first page number out of range: an entry behind the table is read
    have hfirst : UInt8.ofNat (va.toNat / 256) = n := UInt8.toNat_inj.mp (hvpn.trans hpage)
    rw [if_neg (by omega), addrTranslate_first (hfirst.trans hnum.symm) (by rw [hlen, hfirst])]
    exact iff_of_false nofun (by omega)
  · -- a greater page number is rejected, and `v` is out of range with it
    have hrej : Rejected m va := by
      apply rejected_of_gt
      rw [gt_iff_lt, UInt8.lt_iff_toNat_lt, hvpn, hnum]
      exact hpage
    rw [if_neg (by omega), hrej.addrTranslate_eq]
    exact iff_of_true rfl (.inr (by omega))

/-- **Batch translation**: `batch_translate` translates one line after the other, and what it prints
for a line that holds an integer `v` is right if and only if `v` is an address of the process or the
page number of `v % 65536` is greater than the number of pages. -/
theorem batchTranslate_meets_iff (file : List Char) :
    batchTranslate m file
      = translateLines m ((lines file).flatMap (reads LINE_SIZE (by decide))) ∧
    ∀ line ∈ lines file, line.length < LINE_SIZE → ∀ v, HoldsInt line v →
      reads LINE_SIZE (by decide) line = [line] ∧
      (Meets m n v (translateLine m line) ↔
        (0 ≤ v ∧ v < 256 * n.toNat) ∨ (n.toNat : ℤ) < v % 65536 / 256) := by
  refine ⟨?_, fun line hline hfits v hv => ⟨reads_of_mem_lines _ hline hfits, ?_⟩⟩
  · rw [batchTranslate, reads_eq_flatMap]
  · rw [translateLine_eq m hv]
    exact addrTranslate_meets_iff hload v

end Loaded

theorem holdsInt_70000 : HoldsInt "70000\n".toList 70000 :=
  ⟨[], "70000".toList, ['\n'], by decide, by simp, .plain (numeral_toDigits 70000),
    List.forall_mem_singleton.mpr (by decide), by decide, by decide⟩

/-- The line `70000`, for a process of 49 pages. -/
theorem batchTranslate_meets_iff_70000 :
    ∃ m, loadProcess { frames := fun _ => ⟨.free, 0⟩, table := ptCreate 49 } 49 = .ok m ∧
      (Meets m 49 70000 (translateLine m "70000\n".toList) ↔
        (0 ≤ (70000 : ℤ) ∧ (70000 : ℤ) < 256 * (49 : UInt8).toNat) ∨
          ((49 : UInt8).toNat : ℤ) < 70000 % 65536 / 256) := by
  obtain ⟨m, hload, -⟩ := exists_loadProcess (fun _ => ⟨.free, 0⟩) 49 (by decide)
  exact ⟨m, hload, ((batchTranslate_meets_iff hload "70000\n".toList).2 "70000\n".toList
    (by decide) (by decide) 70000 holdsInt_70000).2⟩

/-- The line `70000`, for a process of 49 pages: the address 4464 of the process is printed. -/
theorem not_batchTranslate_meets :
    ¬∀ (frames₀ : Fin NUM_FRAMES → Frame) (n : UInt8) (m : Mmu),
      loadProcess { frames := frames₀, table := ptCreate n } n = .ok m →
        ∀ file, ∀ line ∈ lines file, line.length < LINE_SIZE → ∀ v, HoldsInt line v →
          Meets m n v (translateLine m line) := by
  intro hall
  obtain ⟨m, hload, -⟩ := exists_loadProcess (fun _ => ⟨.free, 0⟩) 49 (by decide)
  have hmeets := hall _ 49 m hload "70000\n".toList "70000\n".toList (by decide) (by decide) 70000
    holdsInt_70000
  rw [translateLine_eq m holdsInt_70000, addrTranslate_meets_iff hload] at hmeets
  exact absurd hmeets (by decide)

end OsLabs.VirtualMemory
