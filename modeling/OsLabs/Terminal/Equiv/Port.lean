import OsLabs.Terminal.Equiv.Framing

/-!
# The `READ` of 003InterruptHandler and that of 002Calculadora

The port reads on to the end of a line with `os_read` instead of `uart_gets_input`.  The two differ
on a terminator that comes before any other character: `os_read` skips it.  When the first blank of
a line is its last character, nothing but the terminator is left after the word, and `READ` goes on
into the next line; on all other lines of at most 18 characters it takes exactly the line, as the
`READ` of 002Calculadora does (`read_one_line_iff`).
-/

namespace OsLabs.Terminal

/-! ### `os_read` and `uart_gets_input` -/

section OsRead

variable {maxLength i : ℕ} (hi : i < maxLength - 1) (tx rx : List Char) {c : Char}

include hi

theorem osReadLoop_terminator (hc : isTerminator c = true) :
    osReadLoop maxLength i tx (c :: rx) =
      if i > 0 then some ([], { rx := rx, tx := tx ++ ['\n'] })
      else osReadLoop maxLength i tx rx := by
  rw [osReadLoop, if_pos hi]
  exact if_pos hc

theorem osReadLoop_char (hc : isTerminator c = false) :
    osReadLoop maxLength i tx (c :: rx)
      = (osReadLoop maxLength (i + 1) (tx ++ [c]) rx).map fun r => (c :: r.1, r.2) := by
  rw [osReadLoop, if_pos hi]
  simp only [hc, Bool.false_eq_true, if_false]
  cases osReadLoop maxLength (i + 1) (tx ++ [c]) rx <;> rfl

end OsRead

theorem osReadLoop_full {maxLength i : ℕ} (hfull : ¬i < maxLength - 1) (tx rx : List Char) :
    osReadLoop maxLength i tx rx = some ([], { rx := rx, tx := tx }) := by
  unfold osReadLoop
  exact if_neg hfull

/-- They agree when a character has been stored. -/
theorem osReadLoop_of_pos {maxLength i : ℕ} (hi : 0 < i) (tx rx : List Char) :
    osReadLoop maxLength i tx rx = getsInputLoop maxLength i tx rx := by
  induction rx generalizing i tx with
  | nil =>
    unfold osReadLoop getsInputLoop
    rfl
  | cons c rx ih =>
    by_cases hlt : i < maxLength - 1
    · cases hc : isTerminator c with
      | true =>
        rw [osReadLoop_terminator hlt tx rx hc, if_pos hi, getsInputLoop, if_pos hlt]
        exact (if_pos hc).symm
      | false =>
        rw [osReadLoop_char hlt tx rx hc, getsInputLoop_char hlt tx rx hc, ih (Nat.succ_pos i)]
    · rw [osReadLoop_full hlt, getsInputLoop_full hlt]

/-- They agree on what does not start with a terminator. -/
theorem osRead_of_not_terminator {c : Char} (hc : isTerminator c = false) {rx : List Char}
    {u : Uart} (hu : u.rx = c :: rx) :
    osRead READ_BUFFER_SIZE u = uartGetsInput READ_BUFFER_SIZE u := by
  have hpos : 0 < READ_BUFFER_SIZE - 1 := by decide
  unfold osRead uartGetsInput
  rw [hu, osReadLoop_char hpos u.tx rx hc, getsInputLoop_char hpos u.tx rx hc,
    osReadLoop_of_pos (Nat.succ_pos 0)]

/-- `os_read` takes a character, and ends or goes on. -/
theorem osReadLoop_cons {maxLength i : ℕ} (hi : i < maxLength - 1) {c : Char}
    {tx rx cs : List Char} {u : Uart} (h : osReadLoop maxLength i tx (c :: rx) = some (cs, u)) :
    u.rx = rx ∨ ∃ j tx' cs', osReadLoop maxLength j tx' rx = some (cs', u) := by
  cases hc : isTerminator c with
  | true =>
    rw [osReadLoop_terminator hi tx rx hc] at h
    split at h
    · rw [Option.some_inj, Prod.mk.injEq] at h
      exact Or.inl (by rw [← h.2])
    · exact Or.inr ⟨i, tx, cs, h⟩
  | false =>
    rw [osReadLoop_char hi tx rx hc] at h
    obtain ⟨r, hrest, heq⟩ := Option.map_eq_some_iff.mp h
    rw [Prod.mk.injEq] at heq
    exact Or.inr ⟨i + 1, tx ++ [c], r.1, by rw [hrest, ← heq.2]⟩

theorem length_rx_le {maxLength i : ℕ} {tx rx cs : List Char} {u : Uart}
    (h : osReadLoop maxLength i tx rx = some (cs, u)) : u.rx.length ≤ rx.length := by
  by_cases hi : i < maxLength - 1
  · induction rx generalizing i tx cs with
    | nil =>
      rw [osReadLoop, if_pos hi] at h
      exact absurd h (by simp)
    | cons c rx ih =>
      rw [List.length_cons]
      rcases osReadLoop_cons hi h with hrx | ⟨j, tx', cs', hrest⟩
      · rw [hrx]
        omega
      · by_cases hj : j < maxLength - 1
        · exact (ih hrest hj).trans (Nat.le_succ _)
        · rw [osReadLoop_full hj, Option.some_inj, Prod.mk.injEq] at hrest
          rw [← hrest.2]
          exact Nat.le_succ _
  · rw [osReadLoop_full hi, Option.some_inj, Prod.mk.injEq] at h
    rw [← h.2]

/-- As long as there is room in the buffer, `os_read` does not return without a character. -/
theorem length_rx_lt {maxLength i : ℕ} (hi : i < maxLength - 1) {tx rx cs : List Char} {u : Uart}
    (h : osReadLoop maxLength i tx rx = some (cs, u)) : u.rx.length < rx.length := by
  cases rx with
  | nil =>
    rw [osReadLoop, if_pos hi] at h
    exact absurd h (by simp)
  | cons c rx =>
    rw [List.length_cons]
    rcases osReadLoop_cons hi h with hrx | ⟨j, tx', cs', hrest⟩
    · rw [hrx]
      omega
    · exact Nat.lt_succ_of_le (length_rx_le hrest)

/-- `os_read` skips a terminator that comes first, and takes more. -/
theorem osRead_of_terminator {stop : Char} (hstop : isTerminator stop = true) {rest : List Char}
    {u u' : Uart} (hu : u.rx = stop :: rest) {buffer : List Char}
    (h : osRead READ_BUFFER_SIZE u = some (buffer, u')) : u'.rx.length < rest.length := by
  have hpos : 0 < READ_BUFFER_SIZE - 1 := by decide
  unfold osRead at h
  rw [hu, osReadLoop_terminator hpos _ _ hstop, if_neg (lt_irrefl 0)] at h
  cases hloop : osReadLoop READ_BUFFER_SIZE 0 u.tx rest with
  | none =>
    rw [hloop] at h
    exact absurd h (by simp)
  | some r =>
    simp only [hloop, Option.some_inj, Prod.mk.injEq] at h
    rw [← h.2]
    exact length_rx_lt hpos hloop

/-! ### One `READ` -/

/-- The first blank of the line is its last character. -/
def EndsAtBlank (text : List Char) : Prop :=
  ∃ blank, text = word text ++ [blank] ∧ isBlank blank = true

variable {F : Type} (atof : List Char → F)

/-- `READ` of 003InterruptHandler takes exactly the line that `rest` follows, and does what that of
002Calculadora does. -/
structure OneLine (conversion : Conversion) (endsInNL : ℤ) (u : Uart) (rest : List Char) :
    Prop where
  returns : ∃ values u', InterruptHandler.read atof conversion.format endsInNL u
    = some (values, u') ∧ u'.rx = rest
  agrees : InterruptHandler.read atof conversion.format endsInNL u
    = Calculadora.read atof conversion.format endsInNL u

section OneLine

variable (conversion : Conversion) {endsInNL flag : ℤ} {u u' : Uart} {buffer rest : List Char}
variable (hread : uartGetUntilWhitespace READ_BUFFER_SIZE endsInNL u = some (buffer, flag, u'))

include hread

/-- Neither reads on after a word that has ended the line. -/
theorem oneLine_of_ne_zero (hflag : flag ≠ 0) (hrx : u'.rx = rest) :
    OneLine atof conversion endsInNL u rest where
  returns := by
    refine ⟨[conversion.value atof buffer], u', ?_, hrx⟩
    exact readWith_of_ne_zero atof conversion hread hflag
  agrees := by
    rw [InterruptHandler.read, Calculadora.read,
      readWith_of_ne_zero atof conversion hread hflag,
      readWith_of_ne_zero atof conversion hread hflag]

/-- Both read what is left of the line, if there is something before the terminator. -/
theorem oneLine_of_zero (hflag : flag = 0) {c : Char} {rem : List Char}
    (hrem : ∀ d ∈ c :: rem, isTerminator d = false) (hlen : (c :: rem).length ≤ 18) {stop : Char}
    (hstop : isTerminator stop = true) (hrx : u'.rx = c :: rem ++ stop :: rest) :
    OneLine atof conversion endsInNL u rest := by
  have hsame := osRead_of_not_terminator (hrem c List.mem_cons_self) hrx
  obtain ⟨buffer', u'', hinput, hafter⟩ := uartGetsInput_line hrem hstop hrx
  rw [if_pos hlen] at hafter
  constructor
  · refine ⟨[conversion.value atof buffer], u'', ?_, hafter⟩
    rw [InterruptHandler.read, readWith_of_zero atof conversion hread hflag, hsame, hinput]
    rfl
  · rw [InterruptHandler.read, Calculadora.read, readWith_of_zero atof conversion hread hflag,
      readWith_of_zero atof conversion hread hflag, hsame]

/-- When only the terminator is left, the port goes on into `rest`. -/
theorem not_oneLine_of_terminator (hflag : flag = 0) {stop : Char}
    (hstop : isTerminator stop = true) (hrx : u'.rx = stop :: rest) :
    ¬OneLine atof conversion endsInNL u rest := by
  intro hone
  obtain ⟨values, u'', hreturns, hafter⟩ := hone.returns
  rw [InterruptHandler.read, readWith_of_zero atof conversion hread hflag] at hreturns
  obtain ⟨r, hosRead, heq⟩ := Option.map_eq_some_iff.mp hreturns
  have hlt := osRead_of_terminator hstop hrx hosRead
  rw [Prod.mk.injEq] at heq
  rw [heq.2, hafter] at hlt
  exact absurd hlt (lt_irrefl _)

end OneLine

/-- **The port reads one line, unless the first blank of the line is its last character.** -/
theorem read_one_line_iff (line : Line) (hlen : line.text.length ≤ 18) (rest : List Char)
    (conversion : Conversion) (endsInNL : ℤ) (u : Uart) (hu : u.rx = line.chars ++ rest) :
    OneLine atof conversion endsInNL u rest ↔ ¬EndsAtBlank line.text := by
  have hline : u.rx = line.text ++ line.stop :: rest := by
    rw [hu, Line.chars, List.append_assoc]
    rfl
  obtain ⟨buffer, flag, u', hread, hrest⟩ :=
    uartGetUntilWhitespace_line line.text_ok line.stop_ok hline endsInNL
  have hword := length_word_le line.text
  generalize hrx : u'.rx = after at hrest
  -- by what ended the word
  cases hrest with
  | line hsame hshort =>
    apply iff_of_true (oneLine_of_ne_zero atof conversion hread (by decide) hrx)
    rintro ⟨blank, htext, -⟩
    rw [hsame] at htext
    exact absurd (congrArg List.length htext) (by simp)
  | blank blank rem hsame hblank hshort =>
    cases rem with
    | nil =>
      -- the blank is the last character
      apply iff_of_false (not_oneLine_of_terminator atof conversion hread rfl line.stop_ok hrx)
      exact not_not_intro ⟨blank, hsame, hblank⟩
    | cons c rem =>
      have hcount : line.text.length = (word line.text).length + ((c :: rem).length + 1) := by
        conv_lhs => rw [hsame]
        simp
      have hrem : ∀ d ∈ c :: rem, isTerminator d = false := by
        intro d hd
        apply line.text_ok
        rw [hsame]
        exact List.mem_append_right _ (List.mem_cons_of_mem blank hd)
      apply iff_of_true
        (oneLine_of_zero atof conversion hread rfl hrem (by omega) line.stop_ok hrx)
      -- there is a character after the first blank
      rintro ⟨blank', htext, -⟩
      have hcount' := congrArg List.length htext
      rw [List.length_append, List.length_singleton] at hcount'
      rw [List.length_cons] at hcount
      omega
  | full hfull => omega

/-- A number with a blank after it. -/
def numberBlank : Line where
  text := ['1', '2', ' ']
  stop := '\n'
  text_ok := text_ok_of_all rfl
  stop_ok := isTerminator_newline

theorem read_one_line_iff_blank :
    OneLine (fun _ => ()) .d 0 { rx := numberBlank.chars, tx := [] } [] ↔
      ¬EndsAtBlank numberBlank.text :=
  read_one_line_iff (fun _ => ()) numberBlank (by decide) [] .d 0
    { rx := numberBlank.chars, tx := [] } (by simp)

/-- After the number and the blank, `READ` waits for another line. -/
theorem not_read_one_line : ¬∀ (line : Line), line.text.length ≤ 18 →
    ∀ (rest : List Char) (conversion : Conversion) (endsInNL : ℤ) (u : Uart),
      u.rx = line.chars ++ rest → OneLine (fun _ => ()) conversion endsInNL u rest := by
  intro hall
  have hone := hall numberBlank (by decide) [] .d 0 { rx := numberBlank.chars, tx := [] } (by simp)
  obtain ⟨values, u', hreturns, -⟩ := hone.returns
  have hwaits : InterruptHandler.read (fun _ => ()) Conversion.d.format 0
      { rx := numberBlank.chars, tx := [] } = none := rfl
  rw [hwaits] at hreturns
  exact absurd hreturns (by simp)

end OsLabs.Terminal
