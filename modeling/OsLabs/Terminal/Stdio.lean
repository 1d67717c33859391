import OsLabs.Lib.CInt
import OsLabs.Terminal.Uart

/-!
# Formatted input (`lib/stdio.c`, `lib/stdlib.c`, `lib/string.c` of both labs)

`READ` is the same in 002Calculadora and 003InterruptHandler up to the function that reads on to the
end of the line (`readWith`).  It stores through its arguments in the order of the conversions; the
model returns the stored values.  `atof` works with floating-point numbers and is a parameter.
-/

namespace OsLabs.Terminal

/-! ### Conversions (`lib/stdlib.c`, `lib/string.c`) -/

/-- The loop of `atoi`. -/
def atoiLoop (num : ℤ) : List Char → ℤ
  | [] => num
  | c :: cs =>
    if '0' ≤ c ∧ c ≤ '9' then
      atoiLoop (int32 (int32 (num * 10) + ((c.toNat : ℤ) - ('0'.toNat : ℤ)))) cs
    else num

/-- `atoi` -/
def atoi (s : List Char) : ℤ :=
  match s with
  | '-' :: cs => int32 (-atoiLoop 0 cs)
  | '+' :: cs => atoiLoop 0 cs
  | cs => atoiLoop 0 cs

/-- What `my_strncpy` writes to the destination. -/
def myStrncpy (src : List Char) (n : ℕ) : List Char := strncpy [] src n

/-! ### `READ` (`lib/stdio.c`) -/

/-- What a conversion stores, where floating-point numbers are `F`. -/
inductive Value (F : Type) where
  | str (s : List Char)
  | int (d : ℤ)
  | float (f : F)
  deriving DecidableEq, Repr

variable {F : Type} (atof : List Char → F)

/-- The size of `buffer` in `READ`. -/
def READ_BUFFER_SIZE : ℕ := 20

/-- The loop of `READ` over its format: the stored values and `endsInNL`. -/
def readLoop (format : List Char) (endsInNL : ℤ) (u : Uart) :
    Option (List (Value F) × ℤ × Uart) :=
  match format with
  | [] => some ([], endsInNL, u)
  | '%' :: 's' :: format =>
    match uartGetUntilWhitespace READ_BUFFER_SIZE endsInNL u with
    | none => none
    | some (buffer, endsInNL, u) =>
      match readLoop format endsInNL u with
      | none => none
      | some (values, result) => some (.str (myStrncpy buffer buffer.length) :: values, result)
  | '%' :: 'd' :: format =>
    match uartGetUntilWhitespace READ_BUFFER_SIZE endsInNL u with
    | none => none
    | some (buffer, endsInNL, u) =>
      match readLoop format endsInNL u with
      | none => none
      | some (values, result) => some (.int (atoi buffer) :: values, result)
  | '%' :: 'f' :: format =>
    match uartGetUntilWhitespace READ_BUFFER_SIZE endsInNL u with
    | none => none
    | some (buffer, endsInNL, u) =>
      match readLoop format endsInNL u with
      | none => none
      | some (values, result) => some (.float (atof buffer) :: values, result)
  | c :: format =>
    if c = ' ' ∨ c = '\t' ∨ c = '%' then readLoop format endsInNL u
    else
      match uartGetMatch c u with
      | none => none
      | some (true, u) => readLoop format endsInNL u
      | some (false, u) => some ([], endsInNL, u)

/-- `READ`, with the function that reads on to the end of the line and the value that the
uninitialised `endsInNL` holds. -/
def readWith (readLine : ℕ → Uart → Option (List Char × Uart)) (format : List Char)
    (endsInNL : ℤ) (u : Uart) : Option (List (Value F) × Uart) :=
  match readLoop atof format endsInNL u with
  | none => none
  | some (values, endsInNL, u) =>
    if endsInNL = 0 then
      match readLine READ_BUFFER_SIZE u with
      | none => none
      | some (_, u) => some (values, u)
    else some (values, u)

namespace Calculadora

/-- `READ` of 002Calculadora. -/
def read (format : List Char) (endsInNL : ℤ) (u : Uart) : Option (List (Value F) × Uart) :=
  readWith atof uartGetsInput format endsInNL u

end Calculadora

namespace InterruptHandler

/-- `READ` of 003InterruptHandler. -/
def read (format : List Char) (endsInNL : ℤ) (u : Uart) : Option (List (Value F) × Uart) :=
  readWith atof osRead format endsInNL u

end InterruptHandler

end OsLabs.Terminal
