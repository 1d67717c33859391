import OsLabs.Lib.Strings

/-!
# The UART driver (`002Calculadora/os/os.c`, `003InterruptHandler/os/drivers/uart.c`)

The UART is the characters that will be received and those that have been sent.  A function that
waits for a character that never comes does not return, which is the outcome `none`.

Every round of a loop takes a received character, so the loops recur on the list `rx` of these; the
sent characters `tx` and the index `i` are their locals.  `uart_get_until_whitespace` and
`uart_get_match` are the same in both labs.
-/

namespace OsLabs.Terminal

/-- The characters still to be received, and those that have been sent. -/
structure Uart where
  rx : List Char
  tx : List Char
  deriving DecidableEq, Repr

/-- `c == '\n' || c == '\r'` -/
def isTerminator (c : Char) : Bool := c = '\n' || c = '\r'

/-- `c == ' ' || c == '\t'` -/
def isBlank (c : Char) : Bool := c = ' ' || c = '\t'

/-- The loop of `uart_get_until_whitespace`: the characters it stores from index `i` on, and what it
leaves in `*endsInNL`. -/
def getUntilWhitespaceLoop (maxLength i : ℕ) (endsInNL : ℤ) (tx rx : List Char) :
    Option (List Char × ℤ × Uart) :=
  if i < maxLength - 1 then
    match rx with
    | [] => none
    | c :: rx =>
      if isTerminator c then some ([], 1, { rx := rx, tx := tx ++ ['\n'] })
      else if isBlank c then some ([], 0, { rx := rx, tx := tx ++ [c] })
      else
        match getUntilWhitespaceLoop maxLength (i + 1) endsInNL (tx ++ [c]) rx with
        | none => none
        | some (cs, result) => some (c :: cs, result)
  -- the buffer is full, and nothing is known of the rest of the line
  else some ([], endsInNL, { rx := rx, tx := tx })

/-- `uart_get_until_whitespace`: the buffer up to its null character, and `*endsInNL`.  The length
of this is the result. -/
def uartGetUntilWhitespace (maxLength : ℕ) (endsInNL : ℤ) (u : Uart) :
    Option (List Char × ℤ × Uart) :=
  match getUntilWhitespaceLoop maxLength 0 endsInNL u.tx u.rx with
  | none => none
  | some (cs, result) => some (cs ++ [NUL], result)

/-- The loop of `uart_get_match`. -/
def getMatchLoop (expected : Char) (tx rx : List Char) : Option (Bool × Uart) :=
  match rx with
  | [] => none
  | c :: rx =>
    if isTerminator c || isBlank c then getMatchLoop expected (tx ++ [c]) rx
    else some (c = expected, { rx := rx, tx := tx ++ [c] })

/-- `uart_get_match` -/
def uartGetMatch (expected : Char) (u : Uart) : Option (Bool × Uart) :=
  getMatchLoop expected u.tx u.rx

/-- The loop of `uart_gets_input`: the characters it stores from index `i` on. -/
def getsInputLoop (maxLength i : ℕ) (tx rx : List Char) : Option (List Char × Uart) :=
  if i < maxLength - 1 then
    match rx with
    | [] => none
    | c :: rx =>
      if isTerminator c then some ([], { rx := rx, tx := tx ++ ['\n'] })
      else
        match getsInputLoop maxLength (i + 1) (tx ++ [c]) rx with
        | none => none
        | some (cs, u) => some (c :: cs, u)
  else some ([], { rx := rx, tx := tx })

/-- `uart_gets_input` of 002Calculadora: the buffer up to its null character. -/
def uartGetsInput (maxLength : ℕ) (u : Uart) : Option (List Char × Uart) :=
  match getsInputLoop maxLength 0 u.tx u.rx with
  | none => none
  | some (cs, u) => some (cs ++ [NUL], u)

/-- The loop of `os_read`: the characters it stores from index `i` on. -/
def osReadLoop (maxLength i : ℕ) (tx rx : List Char) : Option (List Char × Uart) :=
  if i < maxLength - 1 then
    match rx with
    | [] => none
    | c :: rx =>
      if isTerminator c then
        if i > 0 then some ([], { rx := rx, tx := tx ++ ['\n'] })
        else osReadLoop maxLength i tx rx
      else
        match osReadLoop maxLength (i + 1) (tx ++ [c]) rx with
        | none => none
        | some (cs, u) => some (c :: cs, u)
  else some ([], { rx := rx, tx := tx })

/-- `os_read` of 003InterruptHandler: the buffer up to its null character. -/
def osRead (maxLength : ℕ) (u : Uart) : Option (List Char × Uart) :=
  match osReadLoop maxLength 0 u.tx u.rx with
  | none => none
  | some (cs, u) => some (cs ++ [NUL], u)

end OsLabs.Terminal
