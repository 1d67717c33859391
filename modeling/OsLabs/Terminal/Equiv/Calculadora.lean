import OsLabs.Terminal.Calculadora
import OsLabs.Terminal.Equiv.Framing
import OsLabs.Terminal.Equiv.Print

/-!
# A session with the calculator

When every line typed is short enough for its `READ` (`Short`) and the integers on them and their
sums are in range (`Entry.Ok`), a session of any number of rounds uses up exactly the lines of its
rounds, and the terminal shows the dialogue of each (`Entry.screen`): what is typed is echoed and
the sum printed is that of the two integers (`calculadora_session`).
-/

namespace OsLabs.Terminal

/-! ### The number on a line -/

/-- The number whose digits a text starts with. -/
def leadingNat (text : List Char) : ℕ := Nat.ofDigitChars 10 (text.takeWhile Char.isDigit) 0

/-- The number that a text starts with, after a sign or without. -/
def leadingInt (text : List Char) : ℤ :=
  match text with
  | '-' :: text => -leadingNat text
  | '+' :: text => leadingNat text
  | text => leadingNat text

/-- What ends the digits does not matter. -/
theorem atoiLoopChecked_stop {stop : Char} (hstop : ¬stop.isDigit) (num : ℤ) (ds : List Char)
    (rest : List Char) :
    atoiLoopChecked num (ds ++ stop :: rest) = atoiLoopChecked num (ds ++ [NUL]) := by
  induction ds generalizing num with
  | nil =>
    have hnot : ¬('0' ≤ stop ∧ stop ≤ '9') := fun h =>
      hstop (isDigit_iff.mpr ⟨char_le_iff.mp h.1, char_le_iff.mp h.2⟩)
    rw [List.nil_append, atoiLoopChecked, if_neg hnot]
    rfl
  | cons d ds ih =>
    rw [List.cons_append, List.cons_append, atoiLoopChecked, atoiLoopChecked]
    simp only [ih]

theorem atoiLoopChecked_eq {text : List Char} (hmax : leadingNat text ≤ 2147483647) :
    atoiLoopChecked 0 (text ++ [NUL]) = some (leadingNat text : ℤ) := by
  have hsplit : text.takeWhile Char.isDigit ++ text.dropWhile Char.isDigit = text :=
    List.takeWhile_append_dropWhile
  have hdigits : atoiLoopChecked ((0 : ℕ) : ℤ) (text.takeWhile Char.isDigit ++ [NUL])
      = some (leadingNat text : ℤ) :=
    atoiLoopChecked_digits (fun d hd => List.mem_takeWhile_imp hd) hmax []
  rw [Nat.cast_zero] at hdigits
  cases hdrop : text.dropWhile Char.isDigit with
  | nil =>
    rw [hdrop, List.append_nil] at hsplit
    rwa [hsplit] at hdigits
  | cons stop rest =>
    have hstop : ¬stop.isDigit := by
      have hhead := List.head?_dropWhile_not Char.isDigit text
      rw [hdrop] at hhead
      simpa using hhead
    rw [hdrop] at hsplit
    conv_lhs => rw [← hsplit]
    rw [List.append_assoc, List.cons_append, atoiLoopChecked_stop hstop, hdigits]

/-- `atoi` of a word in range. -/
theorem atoi_eq {text : List Char} (hrange : |leadingInt text| ≤ 2147483647) :
    atoi (text ++ [NUL]) = leadingInt text := by
  apply atoi_of_checked
  unfold leadingInt at hrange ⊢
  split at hrange
  · rename_i text
    rw [abs_neg, Nat.abs_cast] at hrange
    show (atoiLoopChecked 0 (text ++ [NUL])).bind _ = _
    rw [atoiLoopChecked_eq (by omega), Option.bind_some, checked_eq (by omega) (by omega)]
  · rename_i text
    rw [Nat.abs_cast] at hrange
    exact atoiLoopChecked_eq (by omega)
  · rename_i hminus hplus
    rw [Nat.abs_cast] at hrange
    have hmax : leadingNat text ≤ 2147483647 := by omega
    have hloop := atoiLoopChecked_eq hmax
    unfold atoiChecked
    split
    · rename_i heq
      cases text with
      | nil => exact absurd (List.cons.inj heq).1 (by decide)
      | cons c cs => exact absurd (congrArg (· :: cs) (List.cons.inj heq).1) (hminus cs)
    · rename_i heq
      cases text with
      | nil => exact absurd (List.cons.inj heq).1 (by decide)
      | cons c cs => exact absurd (congrArg (· :: cs) (List.cons.inj heq).1) (hplus cs)
    · exact hloop

/-! ### One `READ` -/

/-- The word of a line fits the buffer of `READ`, and so does what follows the blank after it. -/
def Short (text : List Char) : Prop :=
  (word text).length ≤ 18 ∧ text.length ≤ (word text).length + 19

instance (text : List Char) : Decidable (Short text) := inferInstanceAs (Decidable (_ ∧ _))

/-- The screen after a line is typed. -/
def Line.echo (line : Line) : List Char := line.text ++ ['\n']

namespace Calculadora

variable {F : Type}

/-- A `READ` takes the word of its line, and echoes the line. -/
theorem read_line_eq (atof : List Char → F) (conversion : Conversion) (endsInNL : ℤ) {line : Line}
    (hshort : Short line.text) (rest tx : List Char) :
    read atof conversion.format endsInNL { rx := line.chars ++ rest, tx := tx }
      = some ([conversion.value atof (word line.text ++ [NUL])],
        { rx := rest, tx := tx ++ line.echo }) := by
  obtain ⟨hword, hline⟩ := hshort
  have hok (c : Char) (hc : c ∈ word line.text) := word_ok line.text_ok hc
  rcases word_split line.text with hsame | ⟨blank, rem, hsplit, hblank⟩
  · -- the line is one word
    have hchars : line.chars ++ rest = word line.text ++ line.stop :: rest := by
      rw [Line.chars, hsame, List.append_assoc, List.singleton_append]
    have hecho : tx ++ line.echo = tx ++ word line.text ++ ['\n'] := by
      rw [Line.echo, hsame, List.append_assoc]
    rw [hchars, hecho]
    exact readWith_of_ne_zero atof conversion
      (uartGetUntilWhitespace_terminator hok endsInNL hword line.stop_ok rfl) (by decide)
  · -- what follows the blank is read and dropped
    have hchars : line.chars ++ rest
        = word line.text ++ blank :: (rem ++ line.stop :: rest) := by
      rw [Line.chars]
      conv_lhs => rw [hsplit]
      simp
    have hecho : tx ++ line.echo = tx ++ word line.text ++ [blank] ++ rem ++ ['\n'] := by
      rw [Line.echo]
      conv_lhs => rw [hsplit]
      simp
    have hrem (c : Char) (hc : c ∈ rem) : isTerminator c = false := by
      apply line.text_ok
      rw [hsplit]
      simp [hc]
    have hterm : isTerminator blank = false := by
      apply line.text_ok
      rw [hsplit]
      simp
    have hlen : rem.length ≤ 18 := by
      rw [hsplit, List.length_append, List.length_cons, ← hsplit] at hline
      omega
    have hread := uartGetUntilWhitespace_blank hok endsInNL hword hterm hblank
      (u := { rx := word line.text ++ blank :: (rem ++ line.stop :: rest), tx := tx }) rfl
    rw [hchars, hecho, read, readWith_of_zero atof conversion hread rfl,
      uartGetsInput_terminator hrem hlen line.stop_ok rfl]
    rfl

theorem readInt_line (A : Floats F) (endsInNL : ℤ) {line : Line} (hshort : Short line.text)
    (hrange : |leadingInt (word line.text)| ≤ 2147483647) (rest tx : List Char) :
    readInt A endsInNL { rx := line.chars ++ rest, tx := tx }
      = some (leadingInt (word line.text), { rx := rest, tx := tx ++ line.echo }) := by
  unfold readInt
  rw [show "%d".toList = Conversion.d.format from rfl, read_line_eq A.atof .d _ hshort,
    Conversion.value, atoi_eq hrange]

theorem readFloat_line (A : Floats F) (endsInNL : ℤ) {line : Line} (hshort : Short line.text)
    (rest tx : List Char) : readFloat A endsInNL { rx := line.chars ++ rest, tx := tx }
      = some (A.atof (word line.text ++ [NUL]), { rx := rest, tx := tx ++ line.echo }) := by
  unfold readFloat
  rw [show "%f".toList = Conversion.f.format from rfl, read_line_eq A.atof .f _ hshort]
  rfl

/-! ### A round -/

/-- The text of a number. -/
def Floats.text (A : Floats F) (x : F) : List Char := cString ((A.ftoa x).getD [])

/-- The text of a number fits `conversion`. -/
def Floats.Shows (A : Floats F) (x : F) : Prop :=
  ∃ conversion, A.ftoa x = some conversion ∧ conversion.length ≤ CONVERSION_SIZE

theorem prints_float (A : Floats F) {x : F} (hx : A.Shows x) :
    Prints A.ftoa 'f' (.float x) (A.text x) := by
  intro format args u
  obtain ⟨conversion, hftoa, hlen⟩ := hx
  rw [print, Floats.text, hftoa]
  show (if _ then _ else none : Option Uart).bind _ = _
  rw [if_pos hlen]
  rfl

/-- The line with the sum. -/
def equation (x y z : List Char) : List Char :=
  x ++ " + ".toList ++ y ++ " = ".toList ++ z ++ " \n".toList

theorem print_equation (A : Floats F) {spec : Char} {a b c : Value F} {x y z : List Char}
    (ha : Prints A.ftoa spec a x) (hb : Prints A.ftoa spec b y) (hc : Prints A.ftoa spec c z)
    (u : Uart) :
    print A.ftoa ('%' :: spec :: (" + ".toList ++ '%' :: spec :: (" = ".toList ++
        '%' :: spec :: " \n".toList))) [a, b, c] u
      = some { u with tx := u.tx ++ equation x y z } := by
  have hplus : '%' ∉ " + ".toList := by decide
  have hequals : '%' ∉ " = ".toList := by decide
  have hend : '%' ∉ " \n".toList := by decide
  rw [ha, print_append _ hplus, hb, print_append _ hequals, hc, print_text _ hend]
  simp only [equation, List.append_assoc]

/-- What is typed in a round. -/
structure Entry where
  int1 : Line
  int2 : Line
  float1 : Line
  float2 : Line

namespace Entry

variable (A : Floats F) (e : Entry)

def lines : List Line := [e.int1, e.int2, e.float1, e.float2]

def num1 : ℤ := leadingInt (word e.int1.text)

def num2 : ℤ := leadingInt (word e.int2.text)

def real1 : F := A.atof (word e.float1.text ++ [NUL])

def real2 : F := A.atof (word e.float2.text ++ [NUL])

/-- The lines are short, and the numbers and their sums can be printed. -/
structure Ok : Prop where
  short : ∀ line ∈ e.lines, Short line.text
  num1 : |e.num1| ≤ 2147483647
  num2 : |e.num2| ≤ 2147483647
  sum : |e.num1 + e.num2| ≤ 2147483647
  real1 : A.Shows (e.real1 A)
  real2 : A.Shows (e.real2 A)
  sum2 : A.Shows (A.add (e.real1 A) (e.real2 A))

/-- The dialogue of the round. -/
def screen : List Char :=
  "------------------------------\n".toList ++
    "Enter first number: ".toList ++ e.int1.echo ++
    "Enter second number: ".toList ++ e.int2.echo ++
    equation (decimal e.num1) (decimal e.num2) (decimal (e.num1 + e.num2)) ++
    "Enter first float number: ".toList ++ e.float1.echo ++
    "Enter second float number: ".toList ++ e.float2.echo ++
    equation (A.text (e.real1 A)) (A.text (e.real2 A)) (A.text (A.add (e.real1 A) (e.real2 A)))

end Entry

/-- A round takes its four lines and shows its dialogue. -/
theorem round_eq (A : Floats F) (endsInNL : Flags) {e : Entry} (he : e.Ok A)
    (rest tx : List Char) : round A endsInNL { rx := stream e.lines ++ rest, tx := tx }
      = some { rx := rest, tx := tx ++ e.screen A } := by
  have hrule : '%' ∉ "------------------------------\n".toList := by decide
  have hfirst : '%' ∉ "Enter first number: ".toList := by decide
  have hsecond : '%' ∉ "Enter second number: ".toList := by decide
  have hfirstFloat : '%' ∉ "Enter first float number: ".toList := by decide
  have hsecondFloat : '%' ∉ "Enter second float number: ".toList := by decide
  have hstream : stream e.lines ++ rest = e.int1.chars ++ (e.int2.chars ++ (e.float1.chars ++
      (e.float2.chars ++ rest))) := by simp [stream, Entry.lines]
  have hints := print_equation A (prints_int _ he.num1) (prints_int _ he.num2)
    (prints_int _ he.sum)
  have hfloats := print_equation A (prints_float A he.real1) (prints_float A he.real2)
    (prints_float A he.sum2)
  have hshort (line : Line) (hline : line ∈ [e.int1, e.int2, e.float1, e.float2]) :
      Short line.text := he.short line hline
  have hint : "%d + %d = %d \n".toList = '%' :: 'd' :: (" + ".toList ++ '%' :: 'd' ::
      (" = ".toList ++ '%' :: 'd' :: " \n".toList)) := by decide
  have hfloat : "%f + %f = %f \n".toList = '%' :: 'f' :: (" + ".toList ++ '%' :: 'f' ::
      (" = ".toList ++ '%' :: 'f' :: " \n".toList)) := by decide
  have hsum : checked (e.num1 + e.num2) = some (e.num1 + e.num2) := by
    obtain ⟨hmin, hmax⟩ := abs_le.mp he.sum
    exact checked_eq (by omega) hmax
  have hread1 (rest tx : List Char) : readInt A endsInNL.int1 ⟨e.int1.chars ++ rest, tx⟩
      = some (e.num1, ⟨rest, tx ++ e.int1.echo⟩) :=
    readInt_line A _ (hshort e.int1 (by simp)) he.num1 rest tx
  have hread2 (rest tx : List Char) : readInt A endsInNL.int2 ⟨e.int2.chars ++ rest, tx⟩
      = some (e.num2, ⟨rest, tx ++ e.int2.echo⟩) :=
    readInt_line A _ (hshort e.int2 (by simp)) he.num2 rest tx
  have hread3 (rest tx : List Char) : readFloat A endsInNL.float1 ⟨e.float1.chars ++ rest, tx⟩
      = some (e.real1 A, ⟨rest, tx ++ e.float1.echo⟩) :=
    readFloat_line A _ (hshort e.float1 (by simp)) rest tx
  have hread4 (rest tx : List Char) : readFloat A endsInNL.float2 ⟨e.float2.chars ++ rest, tx⟩
      = some (e.real2 A, ⟨rest, tx ++ e.float2.echo⟩) :=
    readFloat_line A _ (hshort e.float2 (by simp)) rest tx
  rw [hstream]
  unfold round
  simp only [Option.bind_eq_bind]
  rw [print_text _ hrule, Option.bind_some, print_text _ hfirst, Option.bind_some, hread1,
    Option.bind_some, print_text _ hsecond, Option.bind_some, hread2, Option.bind_some]
  dsimp only
  rw [hsum, Option.bind_some, hint, hints, Option.bind_some, print_text _ hfirstFloat,
    Option.bind_some, hread3, Option.bind_some, print_text _ hsecondFloat, Option.bind_some, hread4,
    Option.bind_some, hfloat]
  dsimp only
  rw [hfloats]
  unfold Entry.screen
  simp only [List.append_assoc]

theorem stream_append (lines lines' : List Line) :
    stream (lines ++ lines') = stream lines ++ stream lines' := List.flatMap_append

theorem rounds_eq (A : Floats F) (endsInNL : ℕ → Flags) {entries : List Entry}
    (hall : ∀ e ∈ entries, e.Ok A) (rest tx : List Char) :
    rounds A endsInNL entries.length
        { rx := stream (entries.flatMap Entry.lines) ++ rest, tx := tx }
      = some { rx := rest, tx := tx ++ entries.flatMap (Entry.screen A) } := by
  induction entries using List.reverseRecOn generalizing rest with
  | nil =>
    rw [List.flatMap_nil, List.flatMap_nil, List.append_nil]
    rfl
  | append_singleton entries e ih =>
    have hprev : ∀ e' ∈ entries, e'.Ok A := fun e' he' => hall e' (List.mem_append_left _ he')
    have hlast : e.Ok A := hall e (by simp)
    rw [List.length_append, List.length_singleton, List.flatMap_append, List.flatMap_singleton,
      stream_append, List.append_assoc, rounds, ih hprev, Option.bind_eq_bind, Option.bind_some,
      round_eq A _ hlast, List.append_assoc, List.flatMap_append, List.flatMap_singleton]

/-- **A session with the calculator**: when the lines of its rounds are short and their numbers in
range, `main` takes exactly these lines and shows the title and the dialogue of each round, whatever
the uninitialised variables hold. -/
theorem calculadora_session (A : Floats F) (endsInNL : ℕ → Flags) (entries : List Entry)
    (hall : ∀ e ∈ entries, e.Ok A) (rest tx : List Char) :
    main A endsInNL entries.length
        { rx := stream (entries.flatMap Entry.lines) ++ rest, tx := tx }
      = some { rx := rest, tx := tx ++ "Program: Add Two Numbers\n".toList ++
          entries.flatMap (Entry.screen A) } := by
  have htitle : '%' ∉ "Program: Add Two Numbers\n".toList := by decide
  unfold main
  rw [Option.bind_eq_bind, print_text _ htitle, Option.bind_some, rounds_eq A _ hall]

/-- Rational numbers, where `atof` only reads integers. -/
def rationals : Floats ℚ where
  atof text := leadingInt text
  ftoa := ftoa
  add := (· + ·)

/-- The lines `12 apples`, `-5`, `2` and `3`. -/
def apples : Entry where
  int1 := ⟨"12 apples".toList, '\n', text_ok_of_all rfl, isTerminator_newline⟩
  int2 := ⟨"-5".toList, '\n', text_ok_of_all rfl, isTerminator_newline⟩
  float1 := ⟨"2".toList, '\n', text_ok_of_all rfl, isTerminator_newline⟩
  float2 := ⟨"3".toList, '\n', text_ok_of_all rfl, isTerminator_newline⟩

theorem apples_ok : apples.Ok rationals where
  short := by decide
  num1 := by decide
  num2 := by decide
  sum := by decide
  real1 := ⟨"2.0\x00".toList, by decide +kernel, by decide⟩
  real2 := ⟨"3.0\x00".toList, by decide +kernel, by decide⟩
  sum2 := ⟨"5.0\x00".toList, by decide +kernel, by decide⟩

theorem calculadora_session_apples :
    main rationals (fun _ => ⟨0, 0, 0, 0⟩) [apples].length
        { rx := stream ([apples].flatMap Entry.lines) ++ [], tx := [] }
      = some { rx := [], tx := [] ++ "Program: Add Two Numbers\n".toList ++
          [apples].flatMap (Entry.screen rationals) } :=
  calculadora_session rationals (fun _ => ⟨0, 0, 0, 0⟩) [apples]
    (fun _ he => List.mem_singleton.mp he ▸ apples_ok) [] []

end Calculadora

end OsLabs.Terminal
