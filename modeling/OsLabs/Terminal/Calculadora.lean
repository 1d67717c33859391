import OsLabs.Terminal.Print

/-!
# The calculator (`002Calculadora/source/main.c`)

`main` never returns, so the model is its first `n` rounds.  The floating-point arithmetic is a
parameter, and so is what the uninitialised `endsInNL` of each `READ` holds.

`atof` and `ftoa` read variables that they have not initialised (`num`, `isFraction`, `temp_num`).
They are functions of their arguments here, as when a call finds in them what the calls before have
found.
-/

namespace OsLabs.Terminal.Calculadora

/-- `atof`, `ftoa` and the sum of two numbers; a text always has the same number, and a number
always the same text. -/
structure Floats (F : Type) where
  atof : List Char → F
  ftoa : F → Option (List Char)
  add : F → F → F

variable {F : Type} (A : Floats F)

/-- `READ("%d", &num)` -/
def readInt (endsInNL : ℤ) (u : Uart) : Option (ℤ × Uart) :=
  match read A.atof "%d".toList endsInNL u with
  | some ([.int num], u) => some (num, u)
  | _ => none

/-- `READ("%f", &num)` -/
def readFloat (endsInNL : ℤ) (u : Uart) : Option (F × Uart) :=
  match read A.atof "%f".toList endsInNL u with
  | some ([.float num], u) => some (num, u)
  | _ => none

/-- The values that the variable `endsInNL` of the four `READ`s has when they are called. -/
structure Flags where
  int1 : ℤ
  int2 : ℤ
  float1 : ℤ
  float2 : ℤ

/-- The body of the loop of `main`. -/
def round (endsInNL : Flags) (u : Uart) : Option Uart := do
  let u ← print A.ftoa "------------------------------\n".toList [] u
  let u ← print A.ftoa "Enter first number: ".toList [] u
  let (num1, u) ← readInt A endsInNL.int1 u
  let u ← print A.ftoa "Enter second number: ".toList [] u
  let (num2, u) ← readInt A endsInNL.int2 u
  let sum ← checked (num1 + num2)
  let u ← print A.ftoa "%d + %d = %d \n".toList [.int num1, .int num2, .int sum] u
  let u ← print A.ftoa "Enter first float number: ".toList [] u
  let (float1, u) ← readFloat A endsInNL.float1 u
  let u ← print A.ftoa "Enter second float number: ".toList [] u
  let (float2, u) ← readFloat A endsInNL.float2 u
  let sum2 := A.add float1 float2
  print A.ftoa "%f + %f = %f \n".toList [.float float1, .float float2, .float sum2] u

/-- The first `n` rounds of the loop of `main`. -/
def rounds (endsInNL : ℕ → Flags) : ℕ → Uart → Option Uart
  | 0, u => some u
  | n + 1, u => do
    let u ← rounds endsInNL n u
    round A (endsInNL n) u

/-- `main` up to the end of round `n`. -/
def main (endsInNL : ℕ → Flags) (n : ℕ) (u : Uart) : Option Uart := do
  let u ← print A.ftoa "Program: Add Two Numbers\n".toList [] u
  rounds A endsInNL n u

end OsLabs.Terminal.Calculadora
