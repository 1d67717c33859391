import OsLabs.Terminal.Stdio
import Mathlib.Data.List.Infix
import Mathlib.Data.List.Forall2

/-!
# `READ` and the lines of the input

A `READ` with one conversion reads a word of at most 19 characters and then, unless the word ended
the line, at most 19 more.  So it ends with its line if and only if the line is short enough for
that (`Fits`): otherwise the rest of the line is left for the next `READ`.  No `READ` of
002Calculadora takes more than one terminator, so once a line has been left unfinished all later
calls stay behind (`readAll_behind`), and the `k`-th call reads the `k`-th line if and only if every
line up to it fits (`read_framed_iff`).
-/

namespace OsLabs.Terminal

/-! ### Lines -/

/-- A line of the input with its terminator. -/
structure Line where
  text : List Char
  stop : Char
  text_ok : ∀ c ∈ text, isTerminator c = false
  stop_ok : isTerminator stop = true

theorem isTerminator_newline : isTerminator '\n' = true := rfl

theorem text_ok_of_all {text : List Char} (h : (text.all fun c => !isTerminator c) = true) :
    ∀ c ∈ text, isTerminator c = false := by
  intro c hc
  simpa using List.all_eq_true.mp h c hc

def Line.chars (line : Line) : List Char := line.text ++ [line.stop]

/-- The characters of the lines. -/
def stream (lines : List Line) : List Char := lines.flatMap Line.chars

theorem stream_cons (line : Line) (lines : List Line) (rest : List Char) :
    stream (line :: lines) ++ rest = line.text ++ line.stop :: (stream lines ++ rest) := by
  simp [stream, Line.chars]

/-! ### The loops of the driver -/

theorem getUntilWhitespaceLoop_full {maxLength i : ℕ} (hfull : ¬i < maxLength - 1) (endsInNL : ℤ)
    (tx rx : List Char) : getUntilWhitespaceLoop maxLength i endsInNL tx rx
      = some ([], endsInNL, { rx := rx, tx := tx }) := by
  unfold getUntilWhitespaceLoop
  exact if_neg hfull

theorem getsInputLoop_full {maxLength i : ℕ} (hfull : ¬i < maxLength - 1) (tx rx : List Char) :
    getsInputLoop maxLength i tx rx = some ([], { rx := rx, tx := tx }) := by
  unfold getsInputLoop
  exact if_neg hfull

section Step

variable {maxLength i : ℕ} (hi : i < maxLength - 1) (tx rx : List Char) {c : Char}

include hi

theorem getUntilWhitespaceLoop_char (endsInNL : ℤ) (hterm : isTerminator c = false)
    (hblank : isBlank c = false) : getUntilWhitespaceLoop maxLength i endsInNL tx (c :: rx)
      = (getUntilWhitespaceLoop maxLength (i + 1) endsInNL (tx ++ [c]) rx).map
        fun r => (c :: r.1, r.2) := by
  rw [getUntilWhitespaceLoop, if_pos hi]
  simp only [hterm, hblank, Bool.false_eq_true, if_false]
  cases getUntilWhitespaceLoop maxLength (i + 1) endsInNL (tx ++ [c]) rx <;> rfl

theorem getsInputLoop_char (hterm : isTerminator c = false) :
    getsInputLoop maxLength i tx (c :: rx)
      = (getsInputLoop maxLength (i + 1) (tx ++ [c]) rx).map fun r => (c :: r.1, r.2) := by
  rw [getsInputLoop, if_pos hi]
  simp only [hterm, Bool.false_eq_true, if_false]
  cases getsInputLoop maxLength (i + 1) (tx ++ [c]) rx <;> rfl

end Step

/-- The characters of a word are stored one after the other. -/
theorem getUntilWhitespaceLoop_append {word : List Char}
    (hword : ∀ c ∈ word, isTerminator c = false ∧ isBlank c = false) {maxLength i : ℕ}
    (hlen : i + word.length ≤ maxLength - 1) (endsInNL : ℤ) (tx rx : List Char) :
    getUntilWhitespaceLoop maxLength i endsInNL tx (word ++ rx)
      = (getUntilWhitespaceLoop maxLength (i + word.length) endsInNL (tx ++ word) rx).map
        fun r => (word ++ r.1, r.2) := by
  induction word generalizing i tx with
  | nil => simp
  | cons c word ih =>
    have hc := hword c List.mem_cons_self
    rw [List.length_cons] at hlen ⊢
    have hrest := ih (fun d hd => hword d (List.mem_cons_of_mem c hd))
      (show i + 1 + word.length ≤ maxLength - 1 by omega) (tx ++ [c])
    rw [List.cons_append, getUntilWhitespaceLoop_char (by omega) _ _ _ hc.1 hc.2, hrest,
      Option.map_map, List.append_assoc, List.singleton_append, Nat.add_right_comm i 1,
      ← Nat.add_assoc]
    rfl

/-- So are all characters of a line. -/
theorem getsInputLoop_append {text : List Char} (htext : ∀ c ∈ text, isTerminator c = false)
    {maxLength i : ℕ} (hlen : i + text.length ≤ maxLength - 1) (tx rx : List Char) :
    getsInputLoop maxLength i tx (text ++ rx)
      = (getsInputLoop maxLength (i + text.length) (tx ++ text) rx).map
        fun r => (text ++ r.1, r.2) := by
  induction text generalizing i tx with
  | nil => simp
  | cons c text ih =>
    rw [List.length_cons] at hlen ⊢
    have hrest := ih (fun d hd => htext d (List.mem_cons_of_mem c hd))
      (show i + 1 + text.length ≤ maxLength - 1 by omega) (tx ++ [c])
    rw [List.cons_append, getsInputLoop_char (by omega) _ _ (htext c List.mem_cons_self), hrest,
      Option.map_map, List.append_assoc, List.singleton_append, Nat.add_right_comm i 1,
      ← Nat.add_assoc]
    rfl

/-- The first characters of a line, and the rest of it. -/
theorem append_eq_take_append (text tail : List Char) (n : ℕ) :
    text ++ tail = text.take n ++ (text.drop n ++ tail) := by
  rw [← List.append_assoc, List.take_append_drop]

section Word

variable {text : List Char} (hword : ∀ c ∈ text, isTerminator c = false ∧ isBlank c = false)
variable {c : Char} {rx : List Char} (endsInNL : ℤ) {u : Uart}

include hword

/-- A word that a terminator ends. -/
theorem uartGetUntilWhitespace_terminator (hlen : text.length ≤ 18) (hc : isTerminator c = true)
    (hu : u.rx = text ++ c :: rx) : uartGetUntilWhitespace READ_BUFFER_SIZE endsInNL u
      = some (text ++ [NUL], 1, { u with rx := rx, tx := u.tx ++ text ++ ['\n'] }) := by
  unfold uartGetUntilWhitespace READ_BUFFER_SIZE
  rw [hu, getUntilWhitespaceLoop_append hword (by omega), getUntilWhitespaceLoop,
    if_pos (by omega)]
  simp [hc]

/-- A word that a blank ends. -/
theorem uartGetUntilWhitespace_blank (hlen : text.length ≤ 18) (hterm : isTerminator c = false)
    (hblank : isBlank c = true) (hu : u.rx = text ++ c :: rx) :
    uartGetUntilWhitespace READ_BUFFER_SIZE endsInNL u
      = some (text ++ [NUL], 0, { u with rx := rx, tx := u.tx ++ text ++ [c] }) := by
  unfold uartGetUntilWhitespace READ_BUFFER_SIZE
  rw [hu, getUntilWhitespaceLoop_append hword (by omega), getUntilWhitespaceLoop,
    if_pos (by omega)]
  simp [hterm, hblank]

/-- Characters of a word that fill the buffer: `*endsInNL` is not set. -/
theorem uartGetUntilWhitespace_full (hlen : text.length = 19) (hu : u.rx = text ++ rx) :
    ∃ buffer u', uartGetUntilWhitespace READ_BUFFER_SIZE endsInNL u = some (buffer, endsInNL, u') ∧
      u'.rx = rx := by
  unfold uartGetUntilWhitespace READ_BUFFER_SIZE
  rw [hu, getUntilWhitespaceLoop_append hword (by omega), getUntilWhitespaceLoop_full (by omega)]
  simp

end Word

/-- A line that fits the buffer of `uart_gets_input`. -/
theorem uartGetsInput_terminator {text : List Char} (htext : ∀ c ∈ text, isTerminator c = false)
    (hlen : text.length ≤ 18) {stop : Char} (hstop : isTerminator stop = true)
    {rest : List Char} {u : Uart} (hu : u.rx = text ++ stop :: rest) :
    uartGetsInput READ_BUFFER_SIZE u
      = some (text ++ [NUL], { u with rx := rest, tx := u.tx ++ text ++ ['\n'] }) := by
  unfold uartGetsInput READ_BUFFER_SIZE
  rw [hu, getsInputLoop_append htext (by omega), getsInputLoop, if_pos (by omega)]
  simp [hstop]

/-- What `uart_gets_input` leaves of a line. -/
theorem uartGetsInput_line {text : List Char} (htext : ∀ c ∈ text, isTerminator c = false)
    {stop : Char} (hstop : isTerminator stop = true) {rest : List Char} {u : Uart}
    (hu : u.rx = text ++ stop :: rest) :
    ∃ buffer u', uartGetsInput READ_BUFFER_SIZE u = some (buffer, u') ∧
      (if text.length ≤ 18 then u'.rx = rest
        else u'.rx = text.drop 19 ++ stop :: rest) := by
  by_cases hfits : text.length ≤ 18
  · refine ⟨_, _, uartGetsInput_terminator htext hfits hstop hu, ?_⟩
    rw [if_pos hfits]
  · have hlen : (text.take 19).length = 19 := List.length_take_of_le (by omega)
    have htake : ∀ c ∈ text.take 19, isTerminator c = false :=
      fun c hc => htext c (List.mem_of_mem_take hc)
    unfold uartGetsInput READ_BUFFER_SIZE
    rw [hu, append_eq_take_append text _ 19, getsInputLoop_append htake (by omega), hlen,
      getsInputLoop_full (by omega)]
    simp [hfits]

/-! ### One `READ` -/

/-- The conversions of a format. -/
inductive Conversion where
  | s
  | d
  | f
  deriving DecidableEq, Repr

/-- The format with one conversion. -/
def Conversion.format : Conversion → List Char
  | .s => ['%', 's']
  | .d => ['%', 'd']
  | .f => ['%', 'f']

variable {F : Type} (atof : List Char → F)

/-- What the conversion stores. -/
def Conversion.value (buffer : List Char) : Conversion → Value F
  | .s => .str (myStrncpy buffer buffer.length)
  | .d => .int (atoi buffer)
  | .f => .float (atof buffer)

theorem readLoop_conversion (conversion : Conversion) (endsInNL : ℤ) (u : Uart) :
    readLoop atof conversion.format endsInNL u
      = (uartGetUntilWhitespace READ_BUFFER_SIZE endsInNL u).map
        fun r => ([conversion.value atof r.1], r.2) := by
  cases hread : uartGetUntilWhitespace READ_BUFFER_SIZE endsInNL u with
  | none => cases conversion <;> simp [readLoop, Conversion.format, hread]
  | some r => cases conversion <;> simp [readLoop, Conversion.format, Conversion.value, hread]

section ReadWith

variable {readLine : ℕ → Uart → Option (List Char × Uart)} (conversion : Conversion)
variable {endsInNL flag : ℤ} {u u' : Uart} {buffer : List Char}
variable (hread : uartGetUntilWhitespace READ_BUFFER_SIZE endsInNL u = some (buffer, flag, u'))

include hread

/-- `READ` with one conversion returns when the word has ended the line. -/
theorem readWith_of_ne_zero (hflag : flag ≠ 0) :
    readWith atof readLine conversion.format endsInNL u
      = some ([conversion.value atof buffer], u') := by
  simp [readWith, readLoop_conversion, hread, hflag]

/-- Otherwise it reads on. -/
theorem readWith_of_zero (hflag : flag = 0) :
    readWith atof readLine conversion.format endsInNL u
      = (readLine READ_BUFFER_SIZE u').map fun r => ([conversion.value atof buffer], r.2) := by
  cases hline : readLine READ_BUFFER_SIZE u' <;>
    simp [readWith, readLoop_conversion, hread, hflag, hline]

end ReadWith

/-- The first word of a line. -/
def word (text : List Char) : List Char := text.takeWhile fun c => !isBlank c

/-- A `READ` reads all of this line: the word and what follows the blank after it fit the buffer;
or the word alone fills the buffer, `endsInNL` happens to be 0 and what follows fits. -/
def Fits (text : List Char) (endsInNL : ℤ) : Prop :=
  if (word text).length ≤ 18 then text.length ≤ (word text).length + 19
  else endsInNL = 0 ∧ text.length ≤ 37

instance (text : List Char) (endsInNL : ℤ) : Decidable (Fits text endsInNL) := by
  unfold Fits
  infer_instance

/-- What `uart_get_until_whitespace` leaves of a line. -/
inductive WordRead (text : List Char) (stop : Char) (rest : List Char) (endsInNL : ℤ) :
    ℤ → List Char → Prop where
  /-- The word is the line. -/
  | line (hword : word text = text) (hlen : text.length ≤ 18) :
    WordRead text stop rest endsInNL 1 rest
  /-- The word ends at a blank. -/
  | blank (blank : Char) (rem : List Char) (htext : text = word text ++ blank :: rem)
    (hblank : isBlank blank = true) (hlen : (word text).length ≤ 18) :
    WordRead text stop rest endsInNL 0 (rem ++ stop :: rest)
  /-- The word fills the buffer. -/
  | full (hlen : 19 ≤ (word text).length) :
    WordRead text stop rest endsInNL endsInNL (text.drop 19 ++ stop :: rest)

theorem length_word_le (text : List Char) : (word text).length ≤ text.length :=
  (List.takeWhile_prefix _).length_le

/-- A line is its first word, or has a blank after it. -/
theorem word_split (text : List Char) : word text = text ∨
    ∃ blank rem, text = word text ++ blank :: rem ∧ isBlank blank = true := by
  have hsplit : word text ++ text.dropWhile (fun c => !isBlank c) = text :=
    List.takeWhile_append_dropWhile
  cases hdrop : text.dropWhile fun c => !isBlank c with
  | nil =>
    rw [hdrop, List.append_nil] at hsplit
    exact Or.inl hsplit
  | cons blank rem =>
    have hhead := List.head?_dropWhile_not (fun c => !isBlank c) text
    rw [hdrop] at hsplit hhead
    exact Or.inr ⟨blank, rem, hsplit.symm, by simpa using hhead⟩

/-- `READ` of 002Calculadora after a word that has left `rem` of the line. -/
theorem read_of_zero (conversion : Conversion) {endsInNL flag : ℤ} {u u' : Uart}
    {buffer : List Char}
    (hread : uartGetUntilWhitespace READ_BUFFER_SIZE endsInNL u = some (buffer, flag, u'))
    (hflag : flag = 0) {rem : List Char} (hrem : ∀ c ∈ rem, isTerminator c = false) {stop : Char}
    (hstop : isTerminator stop = true) {rest : List Char} (hrx : u'.rx = rem ++ stop :: rest) :
    ∃ values u'', Calculadora.read atof conversion.format endsInNL u = some (values, u'') ∧
      (rem.length ≤ 18 ∧ u''.rx = rest ∨
        ¬rem.length ≤ 18 ∧ ∃ rem', rem' <:+ rem ∧ u''.rx = rem' ++ stop :: rest) := by
  obtain ⟨buffer', u'', hinput, hafter⟩ := uartGetsInput_line hrem hstop hrx
  rw [Calculadora.read, readWith_of_zero atof conversion hread hflag, hinput]
  refine ⟨[conversion.value atof buffer], u'', rfl, ?_⟩
  by_cases hlen : rem.length ≤ 18
  · rw [if_pos hlen] at hafter
    exact Or.inl ⟨hlen, hafter⟩
  · rw [if_neg hlen] at hafter
    exact Or.inr ⟨hlen, rem.drop 19, List.drop_suffix 19 rem, hafter⟩

section Line

variable {text : List Char} (htext : ∀ c ∈ text, isTerminator c = false)
variable {stop : Char} (hstop : isTerminator stop = true) {rest : List Char} {u : Uart}
variable (hu : u.rx = text ++ stop :: rest)

include htext

theorem word_ok {c : Char} (hc : c ∈ word text) : isTerminator c = false ∧ isBlank c = false := by
  refine ⟨htext c ((List.takeWhile_prefix _).subset hc), ?_⟩
  have hnot := List.mem_takeWhile_imp hc
  simpa using hnot

include hstop hu

theorem uartGetUntilWhitespace_line (endsInNL : ℤ) : ∃ buffer flag u',
    uartGetUntilWhitespace READ_BUFFER_SIZE endsInNL u = some (buffer, flag, u') ∧
      WordRead text stop rest endsInNL flag u'.rx := by
  by_cases hlen : (word text).length ≤ 18
  · rcases word_split text with hsame | ⟨blank, rem, hsplit, hblank⟩
    · have hword (c : Char) (hc : c ∈ text) : isTerminator c = false ∧ isBlank c = false := by
        rw [← hsame] at hc
        exact word_ok htext hc
      rw [hsame] at hlen
      exact ⟨_, _, _, uartGetUntilWhitespace_terminator hword endsInNL hlen hstop hu,
        .line hsame hlen⟩
    · have hterm : isTerminator blank = false := by
        apply htext
        rw [hsplit]
        simp
      rw [hsplit, List.append_assoc, List.cons_append] at hu
      exact ⟨_, _, _, uartGetUntilWhitespace_blank (fun c hc => word_ok htext hc) endsInNL hlen
        hterm hblank hu, .blank blank rem hsplit hblank hlen⟩
  · -- the first 19 characters are in the word
    have hsame : text.take 19 = (word text).take 19 := by
      have hsplit : word text ++ text.dropWhile (fun c => !isBlank c) = text :=
        List.takeWhile_append_dropWhile
      conv_lhs => rw [← hsplit]
      exact List.take_append_of_le_length (by omega)
    have htake : ∀ c ∈ text.take 19, isTerminator c = false ∧ isBlank c = false := by
      intro c hc
      rw [hsame] at hc
      exact word_ok htext (List.mem_of_mem_take hc)
    have hcount : (text.take 19).length = 19 := by
      rw [hsame]
      exact List.length_take_of_le (by omega)
    rw [append_eq_take_append text _ 19] at hu
    obtain ⟨buffer, u', hread, hrx⟩ := uartGetUntilWhitespace_full htake endsInNL hcount hu
    refine ⟨buffer, endsInNL, u', hread, ?_⟩
    rw [hrx]
    exact .full (by omega)

/-- **One `READ` of 002Calculadora**: it reads the line, or leaves an end of it. -/
theorem read_line (conversion : Conversion) (endsInNL : ℤ) :
    ∃ values u', Calculadora.read atof conversion.format endsInNL u = some (values, u') ∧
      (Fits text endsInNL ∧ u'.rx = rest ∨
        ¬Fits text endsInNL ∧ ∃ rem, rem <:+ text ∧ u'.rx = rem ++ stop :: rest) := by
  obtain ⟨buffer, flag, u', hread, hrest⟩ := uartGetUntilWhitespace_line htext hstop hu endsInNL
  have hword := length_word_le text
  -- for what the word has left of the line
  have hon (rem : List Char) (hrem : rem <:+ text) (hflag : flag = 0)
      (hrx : u'.rx = rem ++ stop :: rest) (hfits : Fits text endsInNL ↔ rem.length ≤ 18) :
      ∃ values u'', Calculadora.read atof conversion.format endsInNL u = some (values, u'') ∧
        (Fits text endsInNL ∧ u''.rx = rest ∨
          ¬Fits text endsInNL ∧ ∃ rem', rem' <:+ text ∧ u''.rx = rem' ++ stop :: rest) := by
    obtain ⟨values, u'', hvalues, hafter⟩ := read_of_zero atof conversion hread hflag
      (fun c hc => htext c (hrem.subset hc)) hstop hrx
    rw [hfits]
    refine ⟨values, u'', hvalues, ?_⟩
    rcases hafter with hdone | ⟨hlong, rem', hrem', hrx'⟩
    · exact Or.inl hdone
    · exact Or.inr ⟨hlong, rem', hrem'.trans hrem, hrx'⟩
  generalize hrx : u'.rx = after at hrest
  cases hrest with
  | line hsame hlen =>
    rw [Calculadora.read, readWith_of_ne_zero atof conversion hread (by decide)]
    refine ⟨_, u', rfl, Or.inl ⟨?_, hrx⟩⟩
    rw [Fits, hsame, if_pos hlen]
    omega
  | blank blank rem hsame hblank hlen =>
    have hsuffix : rem <:+ text := by
      rw [hsame]
      exact (List.suffix_cons blank rem).trans (List.suffix_append _ _)
    have hcount : text.length = (word text).length + (rem.length + 1) := by
      conv_lhs => rw [hsame]
      simp
    apply hon rem hsuffix rfl hrx
    rw [Fits, if_pos hlen]
    omega
  | full hlen =>
    -- `READ` tests an `endsInNL` that nothing has set
    have hfits : Fits text endsInNL ↔ endsInNL = 0 ∧ text.length ≤ 37 := by
      rw [Fits, if_neg (by omega)]
    by_cases hzero : endsInNL = 0
    · apply hon (text.drop 19) (List.drop_suffix 19 text) hzero hrx
      rw [hfits, List.length_drop]
      omega
    · rw [Calculadora.read, readWith_of_ne_zero atof conversion hread hzero]
      refine ⟨_, u', rfl, Or.inr ⟨fun h => hzero (hfits.mp h).1, ?_⟩⟩
      exact ⟨text.drop 19, List.drop_suffix 19 text, hrx⟩

end Line

/-! ### Successive `READ`s -/

/-- A call of `READ` with one conversion, and what its uninitialised `endsInNL` holds. -/
structure Call where
  conversion : Conversion
  endsInNL : ℤ
  deriving DecidableEq, Repr

/-- Successive calls of `READ` of 002Calculadora. -/
def readAll : List Call → Uart → Option Uart
  | [], u => some u
  | call :: calls, u =>
    match Calculadora.read atof call.conversion.format call.endsInNL u with
    | none => none
    | some (_, u) => readAll calls u

theorem readAll_append (calls calls' : List Call) (u : Uart) :
    readAll atof (calls ++ calls') u = (readAll atof calls u).bind (readAll atof calls') := by
  induction calls generalizing u with
  | nil => rfl
  | cons call calls ih =>
    rw [List.cons_append, readAll, readAll]
    cases Calculadora.read atof call.conversion.format call.endsInNL u with
    | none => rfl
    | some r => exact ih r.2

/-- Once a line has been left unfinished, as many calls as there are lines after it do not reach the
end of these: a call takes at most one terminator. -/
theorem readAll_behind {calls : List Call} {lines : List Line} (hlen : calls.length ≤ lines.length)
    {rem : List Char} (hrem : ∀ c ∈ rem, isTerminator c = false) {stop : Char}
    (hstop : isTerminator stop = true) {rest : List Char} {u : Uart}
    (hu : u.rx = rem ++ stop :: (stream lines ++ rest)) :
    ∃ u', readAll atof calls u = some u' ∧ rest.length < u'.rx.length := by
  induction calls generalizing lines rem stop u with
  | nil =>
    refine ⟨u, rfl, ?_⟩
    rw [hu]
    simp only [List.length_append, List.length_cons]
    omega
  | cons call calls ih =>
    obtain ⟨values, u', hread, hline⟩ := read_line atof hrem hstop hu call.conversion call.endsInNL
    simp only [readAll, hread]
    rw [List.length_cons] at hlen
    rcases hline with ⟨-, hrx⟩ | ⟨-, rem', hsuffix, hrx⟩
    · -- this line is finished now, one call too late
      cases lines with
      | nil => exact absurd hlen (by simp)
      | cons line lines =>
        rw [stream_cons] at hrx
        exact ih (Nat.le_of_succ_le_succ hlen) line.text_ok line.stop_ok hrx
    · -- it has still not been finished
      exact ih (by omega) (fun c hc => hrem c (hsuffix.subset hc)) hstop hrx

/-- Every line fits the call that should read it. -/
def AllFit (lines : List Line) (calls : List Call) : Prop :=
  List.Forall₂ (fun line call => Fits line.text call.endsInNL) lines calls

/-- As many calls as there are lines read exactly these if and only if all of them fit. -/
theorem readAll_iff {lines : List Line} {calls : List Call} (hlen : calls.length = lines.length)
    {rest : List Char} {u : Uart} (hu : u.rx = stream lines ++ rest) :
    ∃ u', readAll atof calls u = some u' ∧ (u'.rx = rest ↔ AllFit lines calls) := by
  induction lines generalizing calls u with
  | nil =>
    obtain rfl := List.length_eq_zero_iff.mp hlen
    refine ⟨u, rfl, ?_⟩
    rw [hu]
    exact iff_of_true rfl .nil
  | cons line lines ih =>
    cases calls with
    | nil => exact absurd hlen (by simp)
    | cons call calls =>
      rw [List.length_cons, List.length_cons, Nat.add_right_cancel_iff] at hlen
      rw [stream_cons] at hu
      obtain ⟨values, u', hread, hline⟩ :=
        read_line atof line.text_ok line.stop_ok hu call.conversion call.endsInNL
      simp only [readAll, hread, AllFit, List.forall₂_cons]
      rcases hline with ⟨hfits, hrx⟩ | ⟨hfits, rem, hsuffix, hrx⟩
      · obtain ⟨u'', hrest, hiff⟩ := ih hlen hrx
        refine ⟨u'', hrest, ?_⟩
        rw [hiff]
        exact ⟨fun hall => ⟨hfits, hall⟩, fun hall => hall.2⟩
      · -- this call leaves an end of its line, and the others do not catch up
        obtain ⟨u'', hrest, hlt⟩ := readAll_behind atof hlen.le
          (fun c hc => line.text_ok c (hsuffix.subset hc)) line.stop_ok hrx
        refine ⟨u'', hrest, iff_of_false ?_ fun hall => hfits hall.1⟩
        intro heq
        rw [heq] at hlt
        exact absurd hlt (lt_irrefl _)

/-- After `calls`, the next `call` takes its characters only from `line`, which `rest` follows, and
ends with the terminator of the line. -/
def Framed (u : Uart) (calls : List Call) (call : Call) (line : Line) (rest : List Char) : Prop :=
  ∃ before after taken, readAll atof calls u = some before ∧
    readAll atof [call] before = some after ∧
      taken <:+ line.chars ∧ before.rx = taken ++ rest ∧ after.rx = rest

/-- **`READ` is framed by lines as long as the lines fit**: a call reads the line of its number if
and only if this line and all those before fit the calls that should read them. -/
theorem read_framed_iff (lines : List Line) (calls : List Call)
    (hlen : calls.length = lines.length) (line : Line) (call : Call) (rest : List Char) (u : Uart)
    (hu : u.rx = stream (lines ++ [line]) ++ rest) :
    Framed atof u calls call line rest ↔ AllFit (lines ++ [line]) (calls ++ [call]) := by
  obtain ⟨after, hafter, hiff⟩ := readAll_iff atof
    (show (calls ++ [call]).length = (lines ++ [line]).length by simp [hlen]) hu
  rw [readAll_append] at hafter
  constructor
  · rintro ⟨before, after', taken, hbefore, hread, -, -, hrx⟩
    rw [hbefore, Option.bind_some, hread, Option.some_inj] at hafter
    rw [hafter] at hrx
    exact hiff.mp hrx
  · intro hall
    have hsplit : u.rx = stream lines ++ (line.chars ++ rest) := by
      rw [hu, stream, List.flatMap_append, List.flatMap_singleton, List.append_assoc]
      rfl
    obtain ⟨before, hbefore, hiff'⟩ := readAll_iff atof hlen hsplit
    have hfirst : AllFit lines calls := by
      have htake := List.forall₂_take_append _ calls [call] hall
      rwa [hlen, List.take_left] at htake
    rw [hbefore, Option.bind_some] at hafter
    -- the call starts where the line starts
    exact ⟨before, after, line.chars, hbefore, hafter, List.suffix_rfl, hiff'.mpr hfirst,
      hiff.mpr hall⟩

/-- A line of the digits 1 to 9, 0 and 1 to 9. -/
def nineteenDigits : Line where
  text := ['1', '2', '3', '4', '5', '6', '7', '8', '9', '0',
    '1', '2', '3', '4', '5', '6', '7', '8', '9']
  stop := '\n'
  text_ok := text_ok_of_all rfl
  stop_ok := isTerminator_newline

theorem read_framed_iff_nineteen :
    Framed (fun _ => ()) { rx := stream [nineteenDigits], tx := [] } [] ⟨.d, 0⟩ nineteenDigits [] ↔
      AllFit [nineteenDigits] [⟨.d, 0⟩] :=
  read_framed_iff (fun _ => ()) [] [] rfl nineteenDigits ⟨.d, 0⟩ []
    { rx := stream [nineteenDigits], tx := [] } (by simp)

/-- With another value in `endsInNL`, the newline after the 19 digits is left. -/
theorem not_read_framed : ¬∀ (lines : List Line) (calls : List Call),
    calls.length = lines.length → ∀ (line : Line) (call : Call) (rest : List Char) (u : Uart),
      u.rx = stream (lines ++ [line]) ++ rest →
        Framed (fun _ => ()) u calls call line rest := by
  intro hall
  obtain ⟨before, after, taken, hbefore, hread, -, -, hrx⟩ := hall [] [] rfl nineteenDigits
    ⟨.d, 1⟩ [] { rx := stream [nineteenDigits], tx := [] } (by simp)
  rw [readAll, Option.some_inj] at hbefore
  obtain ⟨after', hafter, hiff⟩ := readAll_iff (fun _ => ())
    (show [Call.mk .d 1].length = [nineteenDigits].length from rfl)
    (show before.rx = stream [nineteenDigits] ++ [] by rw [← hbefore, List.append_nil])
  rw [hread, Option.some_inj] at hafter
  rw [← hafter] at hiff
  have hfits := List.forall₂_cons.mp (hiff.mp hrx)
  exact absurd hfits.1 (by decide)

end OsLabs.Terminal
