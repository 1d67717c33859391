import OsLabs.Lib.Reverse
import OsLabs.Lib.Strings
import Mathlib.Data.Rat.Floor

/-!
# Numbers as text (`lib/stdlib.c`)

`itoa` is the same in 002Calculadora and 003InterruptHandler, and `ftoa` is that of
003InterruptHandler with its float arithmetic read as that of rational numbers.  Both return what
they write to the buffer, with the null character; `none` is a signed operation that overflows, or
a conversion to `int` that does.  `atoi` with its operations checked is `atoiChecked`.
-/

namespace OsLabs.Terminal

/-- The size of `conversion` in `PRINT`. -/
def CONVERSION_SIZE : ℕ := 15

/-- The result of a signed operation, unless it overflows. -/
def checked (x : ℤ) : Option ℤ := if -2147483648 ≤ x ∧ x ≤ 2147483647 then some x else none

/-! ### `atoi` -/

/-- The loop of `atoi`. -/
def atoiLoopChecked (num : ℤ) : List Char → Option ℤ
  | [] => some num
  | c :: cs =>
    if '0' ≤ c ∧ c ≤ '9' then do
      let tens ← checked (num * 10)
      let num ← checked (tens + ((c.toNat : ℤ) - ('0'.toNat : ℤ)))
      atoiLoopChecked num cs
    else some num

/-- `atoi`, unless an operation overflows. -/
def atoiChecked (s : List Char) : Option ℤ :=
  match s with
  | '-' :: cs => do
    let num ← atoiLoopChecked 0 cs
    checked (-num)
  | '+' :: cs => atoiLoopChecked 0 cs
  | cs => atoiLoopChecked 0 cs

/-! ### `itoa` -/

/-- `'0' + num % 10` -/
def digitOf (num : ℤ) : Char := Char.ofNat ('0'.toNat + (num.tmod 10).toNat)

/-- The loop that writes the digits of `num`, from the last one, while `i` is less than 14; `k` is
`14 - i`. -/
def digitLoop : ℕ → ℤ → List Char → List Char
  | 0, _, buffer => buffer
  | k + 1, num, buffer =>
    if num > 0 then digitLoop k (num.tdiv 10) (buffer ++ [digitOf num]) else buffer

/-- The digits of `num`, and a sign; then the buffer is reversed. -/
def signedDigits (num : ℤ) (isNegative : Bool) : List Char :=
  let buffer := digitLoop 14 num []
  let buffer := if isNegative then buffer ++ ['-'] else buffer
  reverseLoop 0 (buffer.length - 1) buffer

/-- `itoa` -/
def itoa (num : ℤ) : Option (List Char) :=
  if num = 0 then some ['0', NUL]
  else do
    let magnitude ← if num < 0 then checked (-num) else some num
    return signedDigits magnitude (num < 0) ++ [NUL]

/-! ### `ftoa` -/

/-- `(int)num` -/
def truncate (num : ℚ) : Option ℤ := checked (num.num.tdiv num.den)

/-- The loop of the decimal part, with room for `k` more digits. -/
def fractionLoop : ℕ → ℚ → ℤ → List Char → Option (List Char)
  | 0, _, _, buffer => some buffer
  | k + 1, num, tempNum, buffer =>
    if num - tempNum ≠ 0 then do
      let tempNum ← truncate (num * 10)
      fractionLoop k (num * 10) tempNum (buffer ++ [digitOf tempNum])
    else some buffer

/-- `ftoa` of 003InterruptHandler. -/
def ftoa (num : ℚ) : Option (List Char) := do
  let integer ← truncate num
  if num = 0 then return ['0', '.', '0', '0', NUL]
  let magnitude := if num < 0 then -num else num
  let buffer := signedDigits integer (num < 0)
  let buffer ← fractionLoop 5 magnitude 0 (buffer ++ ['.'])
  return buffer ++ [NUL]

end OsLabs.Terminal
