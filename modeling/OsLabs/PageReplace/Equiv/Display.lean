import OsLabs.Lib.Numerals
import OsLabs.PageReplace.Display

/-!
# The frames on the screen

`print_ram` counts the frames in a byte, in steps of ten, so that it passes 255 when there are more
than 250 frames.  What it prints is read back: the words of the visible text are the labels of the
frames.
-/

namespace OsLabs.PageReplace.Display

variable {N : ℕ}

/-! ### Labels -/

theorem length_dec0 {n : ℕ} (hn : n < 1000) : (dec0 n).length = 3 := by
  have hle : (dec n).length ≤ 3 :=
    (Nat.length_toDigits_le_iff (by decide) (by decide)).mpr (by simpa using hn)
  rw [dec0, List.length_leftpad]
  omega

theorem digitsIn_dec0 (n : ℕ) : digitsIn 10 (dec0 n) = n := by
  have hzeros (k : ℕ) : digitsIn 10 (List.replicate k '0' ++ dec n) = digitsIn 10 (dec n) := by
    induction k with
    | zero => rfl
    | succ k ih => exact ih
  rw [dec0, List.leftpad, hzeros]
  exact digitsIn_toDigits n

theorem isDigit_dec0 {n : ℕ} {c : Char} (hc : c ∈ dec0 n) : c.isDigit := by
  rw [dec0, List.leftpad, List.mem_append] at hc
  obtain hc | hc := hc
  · rw [List.eq_of_mem_replicate hc]
    rfl
  · exact isDigit_toDigits hc

/-- The number of the frame and its page in a label. -/
def readLabel (w : List Char) : ℕ × UInt8 :=
  (digitsIn 10 (w.take 3),
    if w.drop 4 = "   ".toList then FRAME_EMPTY else .ofNat (digitsIn 10 (w.drop 4)))

theorem readLabel_label (hN : N ≤ 255) (view : Fin N → UInt8) (i : Fin N) :
    readLabel (label view i) = ((i : ℕ), view i) := by
  have hi : (dec0 i).length = 3 := length_dec0 (by omega)
  have htake (w : List Char) : (dec0 i ++ ':' :: w).take 3 = dec0 i := List.take_left' hi
  have hdrop (w : List Char) : (dec0 i ++ ':' :: w).drop 4 = w := by
    rw [List.append_cons, List.drop_left' (by rw [List.length_append, hi]; rfl)]
  rw [readLabel, label, htake, hdrop, digitsIn_dec0]
  by_cases hempty : view i = FRAME_EMPTY
  · rw [if_pos hempty, if_pos rfl, hempty]
  · have hblank : dec0 (view i).toNat ≠ "   ".toList := by
      intro heq
      have hc := isDigit_dec0 (heq ▸ (by decide : ' ' ∈ "   ".toList))
      exact absurd hc (by decide)
    rw [if_neg hempty, if_neg hblank, digitsIn_dec0, UInt8.ofNat_toNat]

/-- The separators between labels. -/
def cellSep (c : Char) : Bool := c ∈ ['|', '/', '\\', '-', '\n']

theorem mem_label {view : Fin N → UInt8} {i : Fin N} {c : Char} (hc : c ∈ label view i) :
    c.isDigit ∨ c = ':' ∨ c = ' ' := by
  rw [label, List.mem_append, List.mem_cons] at hc
  obtain hc | hc | hc := hc
  · exact .inl (isDigit_dec0 hc)
  · exact .inr (.inl hc)
  · split at hc
    · exact .inr (.inr (by simpa using hc))
    · exact .inl (isDigit_dec0 hc)

theorem cellSep_label {view : Fin N → UInt8} {i : Fin N} {c : Char} (hc : c ∈ label view i) :
    cellSep c = false := by
  obtain hd | rfl | rfl := mem_label hc
  · obtain ⟨h0, h9⟩ := isDigit_iff.mp hd
    simp only [cellSep, decide_eq_false_iff_not, List.mem_cons, List.not_mem_nil, or_false, not_or]
    refine ⟨?_, ?_, ?_, ?_, ?_⟩ <;> rintro rfl <;> simp at h0 h9
  · rfl
  · rfl

theorem esc_notMem_label (view : Fin N → UInt8) (i : Fin N) : ESC ∉ label view i := by
  intro hc
  obtain hd | heq | heq := mem_label hc
  · exact absurd hd (by decide)
  · exact absurd heq (by decide)
  · exact absurd heq (by decide)

/-! ### Boxes -/

/-- A text whose visible words are these. -/
def Cells (text : List Char) (ws : List (List Char)) : Prop :=
  ∃ shown, Shows text shown ∧ HasFields cellSep shown ws

theorem Cells.append {text text' : List Char} {ws ws' : List (List Char)} (h : Cells text ws)
    (h' : Cells text' ws') : Cells (text ++ text') (ws ++ ws') := by
  obtain ⟨shown, hshow, hfields⟩ := h
  obtain ⟨shown', hshow', hfields'⟩ := h'
  exact ⟨_, hshow.append hshow', hfields.append hfields'⟩

theorem Cells.fields_eq {text : List Char} {ws : List (List Char)} (h : Cells text ws) :
    fields cellSep (visible text) = ws := by
  obtain ⟨shown, hshow, hfields⟩ := h
  rw [hshow.visible_eq, hfields.fields_eq]

theorem cells_nil : Cells [] [] := ⟨[], shows_nil, hasFields_nil⟩

theorem cells_seps {text : List Char} (h : ∀ c ∈ text, cellSep c = true) : Cells text [] := by
  refine ⟨text, shows_plain fun hesc => ?_, hasFields_seps h⟩
  exact absurd (h ESC hesc) (by decide)

theorem Cells.flatMap {α : Type*} {xs : List α} {f : α → List Char} {g : α → List Char}
    (h : ∀ x ∈ xs, Cells (f x) [g x]) : Cells (xs.flatMap f) (xs.map g) := by
  induction xs with
  | nil => exact cells_nil
  | cons x xs ih =>
    exact (h x List.mem_cons_self).append (ih fun y hy => h y (List.mem_cons_of_mem x hy))

theorem cells_border (count : UInt8) {opening closing : Char} (ho : cellSep opening = true)
    (hc : cellSep closing = true) : Cells (printBorder count opening closing) [] := by
  refine cells_seps fun c hmem => ?_
  simp only [printBorder, List.cons_append, List.mem_cons, List.mem_append, List.not_mem_nil,
    or_false] at hmem
  obtain rfl | hmem | rfl | rfl := hmem
  · exact ho
  · rw [List.eq_of_mem_replicate hmem]
    rfl
  · exact hc
  · rfl

section Box

variable (view : Fin N → UInt8) {h : Highlight} (hcolor : Shows h.color [])

include hcolor

theorem cells_cell (i : Fin N) : Cells (printCell view h i) [label view i] := by
  have hreset : Shows CLR_RST [] := fun _ => rfl
  have hhighlight (text : List Char) (htext : Shows text []) :
      Shows (if (i : ℕ) = h.fi.toNat then text else []) [] := by
    split
    · exact htext
    · exact shows_nil
  have hbar : Shows ['|'] ['|'] := shows_plain (by decide)
  have hlabel : Shows ('|' :: label view i) ('|' :: label view i) :=
    hbar.append (shows_plain (esc_notMem_label view i))
  have hshow : Shows (printCell view h i) ([] ++ '|' :: label view i ++ ['|'] ++ []) :=
    (((hhighlight h.color hcolor).append hlabel).append hbar).append (hhighlight CLR_RST hreset)
  have hstart : HasFields cellSep ['|'] [] := hasFields_seps (by simp [cellSep])
  have hword : HasFields cellSep (label view i ++ ['|']) [label view i] :=
    hasFields_word (by simp [label]) (fun c hc => cellSep_label hc) rfl
  have hfields := hstart.append hword
  exact ⟨_, hshow, by simpa using hfields⟩

theorem cells_box (start count : UInt8) : Cells (printBox view start count h)
    ((framesFrom N start.toNat count.toNat).map (label view)) := by
  have hopen : Cells ['|'] [] := cells_seps (by simp [cellSep])
  have hclose : Cells ['|', '\n'] [] := cells_seps (by simp [cellSep])
  have htop : Cells (printBorder count '/' '\\') [] := cells_border count rfl rfl
  have hbottom : Cells (printBorder count '\\' '/') [] := cells_border count rfl rfl
  have hcells : Cells ((framesFrom N start.toNat count.toNat).flatMap (printCell view h))
      ((framesFrom N start.toNat count.toNat).map (label view)) :=
    Cells.flatMap fun i _ => cells_cell view hcolor i
  have hbox := (htop.append ((hopen.append hcells).append hclose)).append hbottom
  simpa [printBox, printRow] using hbox

end Box

/-! ### The loop -/

theorem framesFrom_add (start m n : ℕ) :
    framesFrom N start (m + n) = framesFrom N start m ++ framesFrom N (start + m) n := by
  rw [framesFrom, framesFrom, framesFrom, List.take_add, List.drop_drop]

theorem framesFrom_of_le {start m n : ℕ} (hm : N ≤ start + m) (hn : N ≤ start + n) :
    framesFrom N start m = framesFrom N start n := by
  rw [framesFrom, framesFrom, List.take_of_length_le, List.take_of_length_le] <;>
    rw [List.length_drop, List.length_finRange] <;> omega

theorem framesFrom_zero {n : ℕ} (hn : N ≤ n) : framesFrom N 0 n = List.finRange N := by
  rw [framesFrom, List.drop_zero, List.take_of_length_le]
  rwa [List.length_finRange]

/-- The test of the loop of `print_ram` -/
def more (N : ℕ) (s : UInt8 × List Char) : Bool := decide (s.1.toNat < N)

section Loop

variable (hN : N ≤ 255) (view : Fin N → UInt8) {h : Highlight} (hcolor : Shows h.color [])

include hN hcolor

/-- A round prints the next ten frames, or those that are left. -/
theorem ramBody_eq (s : UInt8 × List Char) : ∃ box, ramBody view h s = (s.1 + cols, s.2 ++ box) ∧
    Cells box ((framesFrom N s.1.toNat 10).map (label view)) := by
  refine ⟨_, rfl, ?_⟩
  have hbox := cells_box view hcolor s.1
  split
  · rename_i hlt
    have hlt' : N - s.1.toNat < 10 := hlt
    have hcount : (UInt8.ofNat (N - s.1.toNat)).toNat = N - s.1.toNat :=
      UInt8.toNat_ofNat_of_lt' (lt_of_lt_of_le hlt' (by decide))
    have hrest := hbox (.ofNat (N - s.1.toNat))
    rwa [hcount, framesFrom_of_le (n := 10) (by omega) (by omega)] at hrest
  · exact hbox cols

/-- `k` rounds that do not pass 255. -/
theorem ramLoop_rounds (k : ℕ) {s : UInt8 × List Char} (hk : s.1.toNat + 10 * k ≤ 255)
    (hmore : s.1.toNat + 10 * k < N + 10) : ∃ i text, i.toNat = s.1.toNat + 10 * k ∧
      Cells text ((framesFrom N s.1.toNat (10 * k)).map (label view)) ∧
      ∀ fuel, whileLoop (more N) (ramBody view h) (fuel + k) s
        = whileLoop (more N) (ramBody view h) fuel (i, s.2 ++ text) := by
  induction k generalizing s with
  | zero =>
    refine ⟨s.1, [], rfl, ?_, fun fuel => by rw [List.append_nil]; rfl⟩
    simpa [framesFrom] using cells_nil
  | succ k ih =>
    obtain ⟨box, hbody, hbox⟩ := ramBody_eq hN view hcolor s
    have hnext : (s.1 + cols).toNat = s.1.toNat + 10 := by
      rw [UInt8.toNat_add, show cols.toNat = 10 from rfl]
      omega
    obtain ⟨i, text, hi, htext, hloop⟩ := ih (s := (s.1 + cols, s.2 ++ box))
      (show (s.1 + cols).toNat + 10 * k ≤ 255 by omega)
      (show (s.1 + cols).toNat + 10 * k < N + 10 by omega)
    simp only [hnext] at hi htext
    refine ⟨i, box ++ text, by omega, ?_, fun fuel => ?_⟩
    · rw [Nat.mul_succ, Nat.add_comm, framesFrom_add, List.map_append]
      exact hbox.append htext
    · have hlt : more N s = true := decide_eq_true (by omega)
      rw [← Nat.add_assoc, whileLoop_succ hlt, hbody, hloop, List.append_assoc]

/-- With at most 250 frames each of them is printed once.  Up to 254 the counter goes on at 4 and
stops at 254. -/
theorem printRam_eq (hmax : N ≤ 254) : ∃ out, (∀ fuel ≥ 51, printRam fuel view h = some out) ∧
    Cells out ((List.finRange N).map (label view) ++
      if 250 < N then ((List.finRange N).drop 4).map (label view) else []) := by
  have hstop {s : UInt8 × List Char} (hs : N ≤ s.1.toNat) : more N s = false :=
    decide_eq_false (by omega)
  by_cases hbig : 250 < N
  · obtain ⟨i₁, text₁, hi₁, htext₁, hloop₁⟩ := ramLoop_rounds hN view hcolor 25
      (s := (0, [])) (by decide) (show 0 + 10 * 25 < N + 10 by omega)
    have hi₁' : i₁.toNat = 250 := hi₁
    -- the round at 250 wraps to 4
    obtain ⟨box, hbody, hbox⟩ := ramBody_eq hN view hcolor (i₁, [] ++ text₁)
    have hwrap : (i₁ + cols).toNat = 4 := by
      rw [UInt8.toNat_add, hi₁']
      rfl
    obtain ⟨i₂, text₂, hi₂, htext₂, hloop₂⟩ := ramLoop_rounds hN view hcolor 25
      (s := (i₁ + cols, [] ++ text₁ ++ box)) (by rw [hwrap]; decide) (by rw [hwrap]; omega)
    simp only [hwrap] at hi₂ htext₂
    refine ⟨text₁ ++ box ++ text₂, fun fuel hfuel => ?_, ?_⟩
    · obtain ⟨k, rfl⟩ := Nat.exists_eq_add_of_le' hfuel
      have hlt : more N (i₁, [] ++ text₁) = true := decide_eq_true (by rw [hi₁']; exact hbig)
      have hend : more N (i₂, [] ++ text₁ ++ box ++ text₂) = false :=
        hstop (by rw [hi₂]; exact hmax)
      rw [printRam, show k + 51 = k + 25 + 1 + 25 from rfl]
      have hrun := hloop₁ (k + 25 + 1)
      rw [whileLoop_succ hlt, hbody, hloop₂, whileLoop_of_not hend] at hrun
      exact congrArg (Option.map Prod.snd) hrun
    · rw [if_pos hbig]
      have hall := htext₁.append hbox
      rw [← List.map_append, hi₁', show (((0 : UInt8), ([] : List Char)).1.toNat) = 0 from rfl,
        ← framesFrom_add, framesFrom_zero (by omega)] at hall
      have hagain : framesFrom N 4 (10 * 25) = (List.finRange N).drop 4 := by
        rw [framesFrom, List.take_of_length_le]
        rw [List.length_drop, List.length_finRange]
        omega
      rw [hagain] at htext₂
      exact hall.append htext₂
  · obtain ⟨i, text, hi, htext, hloop⟩ := ramLoop_rounds hN view hcolor ((N + 9) / 10)
      (s := (0, [])) (show 0 + 10 * ((N + 9) / 10) ≤ 255 by omega)
      (show 0 + 10 * ((N + 9) / 10) < N + 10 by omega)
    have hi' : i.toNat = 10 * ((N + 9) / 10) := hi.trans (Nat.zero_add _)
    refine ⟨text, fun fuel hfuel => ?_, ?_⟩
    · have hend : more N (i, [] ++ text) = false := hstop (by rw [hi']; omega)
      have hrun := hloop (fuel - (N + 9) / 10)
      rw [Nat.sub_add_cancel (by omega), whileLoop_of_not hend] at hrun
      exact congrArg (Option.map Prod.snd) hrun
    · rw [if_neg hbig, List.append_nil]
      rwa [show (((0 : UInt8), ([] : List Char)).1.toNat) = 0 from rfl,
        framesFrom_zero (by omega)] at htext

end Loop

/-- With 255 frames the counter, an even number, stays below. -/
theorem printRam_forever (view : Fin 255 → UInt8) (h : Highlight) (fuel : ℕ) :
    printRam fuel view h = none := by
  rw [printRam, Option.map_eq_none_iff]
  by_contra hsome
  obtain ⟨s, hs⟩ := Option.ne_none_iff_exists'.mp hsome
  obtain ⟨hstate, hend⟩ := loopState_of_whileLoop hs
  have heven : s.1.toNat % 2 = 0 := by
    clear hend hs
    induction hstate with
    | start => rfl
    | @next s _ _ ih =>
      show (s.1 + cols).toNat % 2 = 0
      rw [UInt8.toNat_add, show cols.toNat = 10 from rfl]
      omega
  have hlt := s.1.toNat_lt
  exact absurd hend (by simp; omega)

/-- `print_ram` returns unless there are 255 frames.  It prints the number and the page of each
frame in order, and again from frame 4 on when there are more than 250. -/
theorem print_ram_frames (hN : N ≤ 255) (view : Fin N → UInt8) {h : Highlight}
    (hcolor : Shows h.color []) :
    ((∃ fuel out, printRam fuel view h = some out) ↔ N ≠ 255) ∧
      ∀ fuel out, printRam fuel view h = some out →
        (fields cellSep (visible out)).map readLabel =
          (List.finRange N ++ if 250 < N then (List.finRange N).drop 4 else []).map
            fun i => (i.val, view i) := by
  have hlabels (frames : List (Fin N)) :
      (frames.map (label view)).map readLabel = frames.map fun i => (i.val, view i) := by
    rw [List.map_map]
    exact List.map_congr_left fun i _ => readLabel_label hN view i
  obtain rfl | hne := eq_or_ne N 255
  · have hnone := printRam_forever view h
    refine ⟨⟨fun ⟨fuel, out, hout⟩ => ?_, fun hne => absurd rfl hne⟩, fun fuel out hout => ?_⟩
    · exact absurd (hnone fuel ▸ hout) (by simp)
    · exact absurd (hnone fuel ▸ hout) (by simp)
  · obtain ⟨text, htext, hcells⟩ := printRam_eq hN view hcolor (by omega)
    refine ⟨⟨fun _ => hne, fun _ => ⟨51, text, htext 51 le_rfl⟩⟩, fun fuel out hout => ?_⟩
    -- enough rounds print the same
    have hsame : out = text := by
      obtain ⟨s, hs, rfl⟩ := Option.map_eq_some_iff.mp hout
      have hmore := htext (fuel + 51) (Nat.le_add_left ..)
      rw [printRam, whileLoop_add hs] at hmore
      exact Option.some.inj hmore
    rw [hsame, hcells.fields_eq, List.map_append, List.map_append, hlabels]
    split
    · rw [hlabels]
    · rfl

theorem print_ram_frames_wraps : ∃ fuel out,
    printRam fuel (fun i : Fin 252 => UInt8.ofNat i) ⟨0, CLR_GREEN⟩ = some out ∧
      (fields cellSep (visible out)).map readLabel =
        (List.finRange 252 ++ (List.finRange 252).drop 4).map
          fun i : Fin 252 => (i.val, UInt8.ofNat i.val) := by
  have hcolor : Shows CLR_GREEN [] := fun _ => rfl
  obtain ⟨hreturns, hread⟩ := print_ram_frames (by decide) (fun i : Fin 252 => UInt8.ofNat i)
    (h := ⟨0, CLR_GREEN⟩) hcolor
  obtain ⟨fuel, out, hout⟩ := hreturns.mpr (by decide)
  refine ⟨fuel, out, hout, (hread fuel out hout).trans ?_⟩
  rw [if_pos (by decide)]

end OsLabs.PageReplace.Display
