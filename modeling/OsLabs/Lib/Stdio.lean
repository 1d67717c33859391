import Mathlib.Data.List.TakeWhile
import Mathlib.Order.Basic

/-!
# Reading lines and fields (`fgets`, `sscanf`)

Characters are `Char` and a stream is the list of its remaining characters.  `sscanf` takes its
format as a list of directives and returns the values of the conversions up to the first one that
fails; storing them is left to the caller.  `lines` splits a stream after every newline, and
`fgets` reads a line whole if it fits the buffer (`fgets_eq`).
-/

namespace OsLabs

/-! ### `fgets` -/

/-- At most `k` characters, up to and including a newline, and the rest of the stream. -/
def takeLine : ℕ → List Char → List Char × List Char
  | 0, cs => ([], cs)
  | _ + 1, [] => ([], [])
  | k + 1, c :: cs =>
    if c = '\n' then ([c], cs)
    else
      let (line, rest) := takeLine k cs
      (c :: line, rest)

/-- `fgets(buffer, size, file)`: the buffer and the rest of the stream, unless it has ended. -/
def fgets (size : ℕ) (file : List Char) : Option (List Char × List Char) :=
  if file = [] then none else some (takeLine (size - 1) file)

/-- The lines of a stream, each with its newline. -/
def lines : List Char → List (List Char)
  | [] => []
  | c :: cs =>
    if c = '\n' then [c] :: lines cs
    else
      match lines cs with
      | [] => [[c]]
      | line :: rest => (c :: line) :: rest

theorem lines_eq_nil {cs : List Char} : lines cs = [] ↔ cs = [] := by
  cases cs with
  | nil => simp [lines]
  | cons c cs =>
    unfold lines
    split
    · simp
    · cases lines cs <;> simp

theorem takeLine_eq {k : ℕ} {cs line : List Char} {rest : List (List Char)}
    (h : lines cs = line :: rest) (hk : line.length ≤ k) :
    ∃ cs', takeLine k cs = (line, cs') ∧ lines cs' = rest := by
  induction cs generalizing k line with
  | nil => simp [lines] at h
  | cons c cs ih =>
    unfold lines at h
    by_cases hc : c = '\n'
    · rw [if_pos hc, List.cons.injEq] at h
      obtain ⟨rfl, hrest⟩ := h
      obtain ⟨k, rfl⟩ := Nat.exists_eq_add_of_le hk
      rw [List.length_singleton, Nat.add_comm, takeLine, if_pos hc]
      exact ⟨cs, rfl, hrest⟩
    · rw [if_neg hc] at h
      cases hcs : lines cs with
      | nil =>
        rw [hcs, List.cons.injEq] at h
        obtain ⟨rfl, rfl⟩ := h
        obtain rfl := lines_eq_nil.mp hcs
        obtain ⟨k, rfl⟩ := Nat.exists_eq_add_of_le hk
        rw [List.length_singleton, Nat.add_comm, takeLine, if_neg hc]
        refine ⟨[], ?_, rfl⟩
        cases k <;> rfl
      | cons line' rest' =>
        rw [hcs, List.cons.injEq] at h
        obtain ⟨rfl, rfl⟩ := h
        obtain ⟨k, rfl⟩ := Nat.exists_eq_add_of_le hk
        obtain ⟨cs', htake, hrest⟩ := ih hcs (k := line'.length + k) (Nat.le_add_right ..)
        rw [List.length_cons, Nat.add_right_comm, takeLine, if_neg hc, htake]
        exact ⟨cs', rfl, hrest⟩

/-- A line that fits the buffer is read whole. -/
theorem fgets_eq {size : ℕ} {cs line : List Char} {rest : List (List Char)}
    (h : lines cs = line :: rest) (hsize : line.length < size) :
    ∃ cs', fgets size cs = some (line, cs') ∧ lines cs' = rest := by
  obtain ⟨cs', htake, hrest⟩ := takeLine_eq h (Nat.le_sub_one_of_lt hsize)
  refine ⟨cs', ?_, hrest⟩
  have hne : cs ≠ [] := fun hnil => by
    rw [lines_eq_nil.mpr hnil] at h
    exact absurd h (by simp)
  rw [fgets, if_neg hne, htake]

theorem fgets_eq_none {size : ℕ} {cs : List Char} : fgets size cs = none ↔ cs = [] := by
  unfold fgets
  split <;> simp [*]

theorem length_takeLine (k : ℕ) (cs : List Char) :
    (takeLine k cs).1.length + (takeLine k cs).2.length = cs.length := by
  induction cs generalizing k with
  | nil => cases k <;> rfl
  | cons c cs ih =>
    cases k with
    | zero => simp [takeLine]
    | succ k =>
      unfold takeLine
      split
      · simp only [List.length_cons, List.length_nil]
        omega
      · have := ih k
        simp only [List.length_cons]
        omega

/-- Every call reads something. -/
theorem length_lt_of_fgets {size : ℕ} {cs line cs' : List Char} (hsize : 2 ≤ size)
    (h : fgets size cs = some (line, cs')) : cs'.length < cs.length := by
  unfold fgets at h
  split at h
  · exact absurd h (by simp)
  · have hlen := length_takeLine (size - 1) cs
    rw [Option.some_inj] at h
    rw [h] at hlen
    obtain ⟨k, hk⟩ : ∃ k, size - 1 = k + 1 := ⟨size - 2, by omega⟩
    obtain ⟨c, cs, rfl⟩ := List.exists_cons_of_ne_nil ‹_›
    rw [hk, takeLine] at h
    have hpos : 0 < line.length := by
      split at h
      · obtain ⟨rfl, -⟩ := Prod.mk.inj h
        simp
      · obtain ⟨rfl, -⟩ := Prod.mk.inj h
        simp
    dsimp only at hlen
    omega

/-! ### Successive reads -/

/-- The buffers of successive calls of `fgets`, until the stream ends. -/
def reads (size : ℕ) (hsize : 2 ≤ size) (file : List Char) : List (List Char) :=
  match _hread : fgets size file with
  | none => []
  | some (buffer, rest) => buffer :: reads size hsize rest
termination_by file.length
decreasing_by exact length_lt_of_fgets hsize _hread

section Reads

variable {size : ℕ} (hsize : 2 ≤ size)

theorem reads_nil : reads size hsize [] = [] := by
  rw [reads]
  split
  · rfl
  · rename_i h
    exact absurd h (by simp [fgets])

theorem reads_of_fgets {file buffer rest : List Char} (h : fgets size file = some (buffer, rest)) :
    reads size hsize file = buffer :: reads size hsize rest := by
  rw [reads]
  split
  · rename_i hnone
    rw [h] at hnone
    exact absurd hnone (by simp)
  · rename_i hread
    rw [h, Option.some_inj] at hread
    obtain ⟨rfl, rfl⟩ := Prod.mk.inj hread
    rfl

theorem reads_ne_nil {file : List Char} (hne : file ≠ []) : reads size hsize file ≠ [] := by
  have hread : fgets size file = some (takeLine (size - 1) file) := if_neg hne
  rw [reads_of_fgets hsize hread]
  exact List.cons_ne_nil _ _

theorem takeLine_line {body : List Char} (hbody : '\n' ∉ body) (k : ℕ) (cs : List Char) :
    takeLine k (body ++ '\n' :: cs) = if body.length < k then (body ++ ['\n'], cs)
      else (body.take k, body.drop k ++ '\n' :: cs) := by
  induction body generalizing k with
  | nil => cases k <;> simp [takeLine]
  | cons c body ih =>
    rw [List.mem_cons, not_or] at hbody
    cases k with
    | zero => simp [takeLine]
    | succ k =>
      rw [List.cons_append, takeLine, if_neg (Ne.symm hbody.1), ih hbody.2]
      simp only [List.length_cons, Nat.add_lt_add_iff_right]
      split <;> simp

theorem lines_line {body : List Char} (hbody : '\n' ∉ body) (cs : List Char) :
    lines (body ++ '\n' :: cs) = (body ++ ['\n']) :: lines cs := by
  induction body with
  | nil => simp [lines]
  | cons c body ih =>
    rw [List.mem_cons, not_or] at hbody
    rw [List.cons_append, lines, if_neg (Ne.symm hbody.1), ih hbody.2]
    rfl

theorem lines_last {body : List Char} (hbody : '\n' ∉ body) (hne : body ≠ []) :
    lines body = [body] := by
  induction body with
  | nil => exact absurd rfl hne
  | cons c body ih =>
    rw [List.mem_cons, not_or] at hbody
    rw [lines, if_neg (Ne.symm hbody.1)]
    rcases List.eq_nil_or_concat body with rfl | ⟨_, _, hconcat⟩
    · rfl
    · rw [ih hbody.2 (by rw [hconcat]; simp)]

/-- No read goes past the end of a line. -/
theorem reads_line {body : List Char} (hbody : '\n' ∉ body) (cs : List Char) :
    reads size hsize (body ++ '\n' :: cs)
      = reads size hsize (body ++ ['\n']) ++ reads size hsize cs := by
  induction hlen : body.length using Nat.strongRecOn generalizing body with
  | _ len ih =>
    have hread (cs : List Char) :
        fgets size (body ++ '\n' :: cs) = some (takeLine (size - 1) (body ++ '\n' :: cs)) :=
      if_neg (by simp)
    by_cases hfits : body.length < size - 1
    · -- one read takes the line
      simp only [takeLine_line hbody, if_pos hfits] at hread
      rw [reads_of_fgets hsize (hread cs), reads_of_fgets hsize (hread []), reads_nil]
      rfl
    · -- a read fills the buffer, and leaves a shorter line
      simp only [takeLine_line hbody, if_neg hfits] at hread
      rw [reads_of_fgets hsize (hread cs), reads_of_fgets hsize (hread []), List.cons_append]
      congr 1
      apply ih (body.drop (size - 1)).length
      · rw [List.length_drop]
        omega
      · exact fun hmem => hbody (List.mem_of_mem_drop hmem)
      · rfl

/-- The stream is read line by line. -/
theorem reads_eq_flatMap (file : List Char) :
    reads size hsize file = (lines file).flatMap (reads size hsize) := by
  induction hlen : file.length using Nat.strongRecOn generalizing file with
  | _ len ih =>
    by_cases hnewline : '\n' ∈ file
    · -- up to the first newline it is a line, and then a shorter stream
      obtain ⟨body, cs, rfl, hbody⟩ := List.eq_append_cons_of_mem hnewline
      rw [reads_line hsize hbody, lines_line hbody, List.flatMap_cons]
      congr 1
      apply ih cs.length
      · rw [← hlen, List.length_append, List.length_cons]
        omega
      · rfl
    · rcases List.eq_nil_or_concat file with rfl | ⟨_, _, hconcat⟩
      · rw [reads_nil]
        rfl
      · rw [lines_last hnewline (by rw [hconcat]; simp), List.flatMap_singleton]

end Reads

theorem flatten_lines (file : List Char) : (lines file).flatten = file := by
  induction file with
  | nil => rfl
  | cons c file ih =>
    unfold lines
    split
    · rw [List.flatten_cons, ih]
      rfl
    · cases hlines : lines file with
      | nil => simp [lines_eq_nil.mp hlines]
      | cons line rest =>
        rw [hlines] at ih
        show c :: line ++ rest.flatten = c :: file
        rw [← ih]
        rfl

theorem ne_nil_of_mem_lines {file line : List Char} (h : line ∈ lines file) : line ≠ [] := by
  induction file generalizing line with
  | nil => exact absurd h List.not_mem_nil
  | cons c file ih =>
    unfold lines at h
    split at h
    · rcases List.mem_cons.mp h with rfl | h
      · simp
      · exact ih h
    · cases hlines : lines file with
      | nil =>
        rw [hlines] at h
        obtain rfl := List.mem_singleton.mp h
        simp
      | cons first rest =>
        rw [hlines] at h
        rcases List.mem_cons.mp h with rfl | h
        · simp
        · exact ih (by rw [hlines]; exact List.mem_cons_of_mem first h)

/-- A line is its only line. -/
theorem lines_of_mem_lines {file line : List Char} (h : line ∈ lines file) :
    lines line = [line] := by
  induction file generalizing line with
  | nil => exact absurd h List.not_mem_nil
  | cons c file ih =>
    unfold lines at h
    split at h
    · rename_i hc
      rcases List.mem_cons.mp h with rfl | h
      · rw [lines, if_pos hc]
        rfl
      · exact ih h
    · rename_i hc
      cases hlines : lines file with
      | nil =>
        rw [hlines] at h
        obtain rfl := List.mem_singleton.mp h
        rw [lines, if_neg hc]
        rfl
      | cons first rest =>
        rw [hlines] at h
        rcases List.mem_cons.mp h with rfl | h
        · rw [lines, if_neg hc, ih (by rw [hlines]; exact List.mem_cons_self)]
        · exact ih (by rw [hlines]; exact List.mem_cons_of_mem first h)

/-- One read takes a line that fits the buffer. -/
theorem reads_of_mem_lines {size : ℕ} (hsize : 2 ≤ size) {file line : List Char}
    (h : line ∈ lines file) (hfits : line.length < size) : reads size hsize line = [line] := by
  obtain ⟨cs, hread, hrest⟩ := fgets_eq (lines_of_mem_lines h) hfits
  rw [reads_of_fgets hsize hread, lines_eq_nil.mp hrest, reads_nil]

/-- A stream put together from lines. -/
theorem lines_of_flatten {ls : List (List Char)}
    (h : ∀ line ∈ ls, ∃ body, '\n' ∉ body ∧ line = body ++ ['\n']) : lines ls.flatten = ls := by
  induction ls with
  | nil => rfl
  | cons line ls ih =>
    obtain ⟨body, hbody, rfl⟩ := h line List.mem_cons_self
    have hsplit : ((body ++ ['\n']) :: ls).flatten = body ++ '\n' :: ls.flatten := by
      rw [List.flatten_cons, List.append_assoc]
      rfl
    rw [hsplit, lines_line hbody, ih fun line hline => h line (List.mem_cons_of_mem _ hline)]

theorem length_takeLine_le (k : ℕ) (cs : List Char) : (takeLine k cs).1.length ≤ k := by
  induction cs generalizing k with
  | nil => cases k <;> simp [takeLine]
  | cons c cs ih =>
    cases k with
    | zero => simp [takeLine]
    | succ k =>
      unfold takeLine
      split
      · simp
      · have := ih k
        simp only [List.length_cons]
        omega

section Fits

variable {size : ℕ} (hsize : 2 ≤ size)

/-- A line that does not fit the buffer takes more than one read. -/
theorem two_le_length_reads {line : List Char} (hlong : size ≤ line.length) :
    2 ≤ (reads size hsize line).length := by
  have hne : line ≠ [] := List.ne_nil_of_length_pos (by omega)
  have hread : fgets size line = some (takeLine (size - 1) line) := if_neg hne
  have hrest : (takeLine (size - 1) line).2 ≠ [] := by
    have hlen := length_takeLine (size - 1) line
    have hle := length_takeLine_le (size - 1) line
    apply List.ne_nil_of_length_pos
    omega
  have hpos := List.length_pos_iff.mpr (reads_ne_nil hsize hrest)
  rw [reads_of_fgets hsize hread, List.length_cons]
  omega

/-- When every line fits, the reads are the lines. -/
theorem reads_eq_lines {file : List Char} (hfits : ∀ line ∈ lines file, line.length < size) :
    reads size hsize file = lines file := by
  have hsingle (ls : List (List Char)) (hmem : ∀ line ∈ ls, line ∈ lines file) :
      ls.flatMap (reads size hsize) = ls := by
    induction ls with
    | nil => rfl
    | cons line ls ih =>
      have hline := hmem line List.mem_cons_self
      rw [List.flatMap_cons, reads_of_mem_lines hsize hline (hfits line hline),
        ih fun line h => hmem line (List.mem_cons_of_mem _ h)]
      rfl
  rw [reads_eq_flatMap, hsingle (lines file) fun _ h => h]

/-- There are as many reads as lines if and only if every line fits. -/
theorem length_reads_iff (file : List Char) :
    (reads size hsize file).length = (lines file).length ↔
      ∀ line ∈ lines file, line.length < size := by
  refine ⟨fun hlen long hmem => ?_, fun hfits => by rw [reads_eq_lines hsize hfits]⟩
  by_contra hlong
  -- every line takes a read, and the long one takes two
  have hcount (ls : List (List Char)) (hne : ∀ line ∈ ls, line ≠ []) :
      ls.length ≤ (ls.flatMap (reads size hsize)).length ∧
        (long ∈ ls → ls.length < (ls.flatMap (reads size hsize)).length) := by
    induction ls with
    | nil => simp
    | cons line ls ih =>
      obtain ⟨hle, hlt⟩ := ih fun line h => hne line (List.mem_cons_of_mem _ h)
      have hpos := List.length_pos_iff.mpr (reads_ne_nil hsize (hne line List.mem_cons_self))
      rw [List.flatMap_cons, List.length_append, List.length_cons]
      refine ⟨by omega, fun hmem => ?_⟩
      rcases List.mem_cons.mp hmem with rfl | hmem
      · have htwo := two_le_length_reads hsize (not_lt.mp hlong)
        omega
      · have := hlt hmem
        omega
  rw [reads_eq_flatMap] at hlen
  have := (hcount (lines file) fun _ => ne_nil_of_mem_lines).2 hmem
  omega

end Fits

/-! ### `sscanf` -/

/-- `isspace` -/
def isSpace (c : Char) : Bool := c = ' ' || ('\t'.toNat ≤ c.toNat && c.toNat ≤ '\r'.toNat)

/-- The directives of a format. -/
inductive Directive where
  /-- White space. -/
  | space
  /-- An ordinary character. -/
  | lit (c : Char)
  /-- `%s`, with a width, and with `*` unless `assign`. -/
  | word (width : Option ℕ) (assign : Bool)
  /-- `%256[^"]` with its width and character. -/
  | upTo (width : ℕ) (stop : Char)
  /-- `%hd` -/
  | short
  deriving DecidableEq, Repr

/-- What a conversion stores. -/
inductive Value where
  | str (s : List Char)
  | int (v : ℤ)
  deriving DecidableEq, Repr

/-- The value of a list of decimal digits. -/
def digitsValue (ds : List Char) : ℕ := ds.foldl (fun v d => 10 * v + (d.toNat - '0'.toNat)) 0

/-- A decimal integer with an optional sign, and the rest of the string. -/
def scanInt (cs : List Char) : Option (ℤ × List Char) :=
  let (neg, cs) := match cs with
    | '-' :: cs => (true, cs)
    | '+' :: cs => (false, cs)
    | cs => (false, cs)
  let digits := cs.takeWhile Char.isDigit
  if digits = [] then none
  else
    let v : ℤ := digitsValue digits
    some (if neg then -v else v, cs.drop digits.length)

/-- At most `width` characters of `cs`. -/
def limit (width : Option ℕ) (cs : List Char) : List Char :=
  match width with
  | some k => cs.take k
  | none => cs

/-- The conversions of a string, in order, up to the first directive that fails. -/
def scan : List Directive → List Char → List Value
  | [], _ => []
  | .space :: format, cs => scan format (cs.dropWhile isSpace)
  | .lit c :: format, cs =>
    match cs with
    | [] => []
    | c' :: cs => if c' = c then scan format cs else []
  | .word width assign :: format, cs =>
    let cs := cs.dropWhile isSpace
    let s := limit width (cs.takeWhile fun c => !isSpace c)
    if s = [] then []
    else
      let values := scan format (cs.drop s.length)
      if assign then .str s :: values else values
  | .upTo width stop :: format, cs =>
    let s := (cs.takeWhile (· ≠ stop)).take width
    if s = [] then [] else .str s :: scan format (cs.drop s.length)
  | .short :: format, cs =>
    match scanInt (cs.dropWhile isSpace) with
    | none => []
    | some (v, cs) => .int v :: scan format cs

/-- `sscanf(buffer, format, ..)`: the buffer ends at its first null character. -/
def sscanf (buffer : List Char) (format : List Directive) : List Value :=
  scan format (buffer.takeWhile (· ≠ Char.ofNat 0))

/-! ### Scanning a text in the format -/

/-- The characters of a word: no white space, and no null character. -/
def Visible (c : Char) : Prop := ¬isSpace c ∧ c ≠ Char.ofNat 0

theorem visible_of_all {cs : List Char}
    (h : cs.all (fun c => !isSpace c && c != Char.ofNat 0) = true) : ∀ c ∈ cs, Visible c := by
  intro c hc
  have hc' := List.all_eq_true.mp h c hc
  rw [Bool.and_eq_true, Bool.not_eq_true', bne_iff_ne] at hc'
  exact ⟨by rw [hc'.1]; decide, hc'.2⟩

/-- `rest` does not go on a word. -/
def EndsWord (rest : List Char) : Prop := ∀ c ∈ rest.head?, isSpace c

theorem takeWhile_word {s rest : List Char} (hs : ∀ c ∈ s, Visible c) (hrest : EndsWord rest) :
    (s ++ rest).takeWhile (fun c => !isSpace c) = s := by
  have hstop : rest.takeWhile (fun c => !isSpace c) = [] := by
    cases rest with
    | nil => rfl
    | cons c rest => exact List.takeWhile_cons_of_neg (by simpa using hrest c rfl)
  rw [List.takeWhile_append_of_pos fun c hc => by simpa using (hs c hc).1, hstop, List.append_nil]

theorem dropWhile_word {s rest : List Char} (hs : ∀ c ∈ s, Visible c) (hne : s ≠ []) :
    (s ++ rest).dropWhile isSpace = s ++ rest := by
  obtain ⟨c, s, rfl⟩ := List.exists_cons_of_ne_nil hne
  exact List.dropWhile_cons_of_neg (hs c List.mem_cons_self).1

theorem endsWord_blank (rest : List Char) : EndsWord (' ' :: rest) := by
  intro c hc
  obtain rfl := Option.some.inj hc
  rfl

section Word

variable {format : List Directive} {s rest : List Char} (hs : ∀ c ∈ s, Visible c) (hne : s ≠ [])
  (hrest : EndsWord rest)

include hs hne hrest

/-- `%16s` takes a word that its width has room for. -/
theorem scan_word {width : ℕ} (hwidth : s.length ≤ width) :
    scan (.word (some width) true :: format) (s ++ rest) = .str s :: scan format rest := by
  have hlimit : limit (some width) s = s := List.take_of_length_le hwidth
  rw [scan]
  simp only [dropWhile_word hs hne, takeWhile_word hs hrest, hlimit, if_neg hne, List.drop_left]
  rfl

/-- `%*s` skips a word. -/
theorem scan_word_skip :
    scan (.word none false :: format) (s ++ rest) = scan format rest := by
  have hlimit : limit none s = s := rfl
  rw [scan]
  simp only [dropWhile_word hs hne, takeWhile_word hs hrest, hlimit, if_neg hne, List.drop_left]
  rfl

end Word

/-- White space in the format skips a blank before a character that is none. -/
theorem scan_space {format : List Directive} {rest : List Char}
    (hrest : ∀ c ∈ rest.head?, ¬isSpace c) :
    scan (.space :: format) (' ' :: rest) = scan format rest := by
  have hdrop : rest.dropWhile isSpace = rest := by
    cases rest with
    | nil => rfl
    | cons c rest => exact List.dropWhile_cons_of_neg (hrest c rfl)
  rw [scan, List.dropWhile_cons_of_pos (by decide), hdrop]

theorem scan_space_cons {format : List Directive} {c : Char} (hc : ¬isSpace c)
    (rest : List Char) : scan (.space :: format) (' ' :: c :: rest) = scan format (c :: rest) := by
  refine scan_space fun d hd => ?_
  obtain rfl := Option.some.inj hd
  exact hc

theorem scan_lit {format : List Directive} (c : Char) (rest : List Char) :
    scan (.lit c :: format) (c :: rest) = scan format rest := by
  rw [scan]
  exact if_pos rfl

/-- `%256[^"]` takes a text up to its stop character. -/
theorem scan_upTo {width : ℕ} {stop : Char} {format : List Directive} {s rest : List Char}
    (hs : stop ∉ s) (hne : s ≠ []) (hwidth : s.length ≤ width) :
    scan (.upTo width stop :: format) (s ++ stop :: rest)
      = .str s :: scan format (stop :: rest) := by
  have htake : (s ++ stop :: rest).takeWhile (· ≠ stop) = s := by
    rw [List.takeWhile_append_of_pos, List.takeWhile_cons_of_neg (by simp), List.append_nil]
    intro c hc
    have hstop : c ≠ stop := fun heq => hs (heq ▸ hc)
    simpa using hstop
  rw [scan]
  simp only [htake, List.take_of_length_le hwidth, if_neg hne, List.drop_left]

end OsLabs
