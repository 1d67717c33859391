import OsLabs.Lib.Stdio

/-!
# Strings in memory (`strncpy`, `strtok`, `strtol`)

A `char` array is the list of its characters, and a string in it ends at its first null character.
A function that looks for the end of a string in an array without one reads beyond the array, which
is the outcome `none`.  A `long` has 64 bits.
-/

namespace OsLabs

/-- The null character. -/
def NUL : Char := Char.ofNat 0

/-- The string at the start of an array. -/
def cString (mem : List Char) : List Char := mem.takeWhile (· ≠ NUL)

/-- `strncpy(dst, src, n)`: the first `n` characters of `dst` are written. -/
def strncpy (dst src : List Char) (n : ℕ) : List Char :=
  (cString src).take n ++ List.replicate (n - (cString src).length) NUL ++ dst.drop n

/-- `strtok` with one delimiter, on the array from the saved pointer on: the next token, if any,
and the array from the new pointer on. -/
def strtok (delim : Char) (mem : List Char) : Option (Option (List Char × List Char)) :=
  match mem.dropWhile (· = delim) with
  | [] => none
  | c :: cs =>
    if c = NUL then some none
    else
      let token := (c :: cs).takeWhile fun c => c ≠ delim ∧ c ≠ NUL
      match (c :: cs).drop token.length with
      | [] => none
      | stop :: rest => some (some (token, if stop = NUL then stop :: rest else rest))

section Strtok

variable {delim : Char} {tok : List Char} (hne : tok ≠ [])
  (htok : ∀ c ∈ tok, c ≠ delim ∧ c ≠ NUL)

include hne htok

/-- A token ends at a delimiter or at the end of the string. -/
theorem strtok_append {stop : Char} (hstop : stop = delim ∨ stop = NUL) (rest : List Char) :
    strtok delim (tok ++ stop :: rest)
      = some (some (tok, if stop = NUL then stop :: rest else rest)) := by
  have htake : (tok ++ stop :: rest).takeWhile (fun c => c ≠ delim ∧ c ≠ NUL) = tok := by
    rw [List.takeWhile_append_of_pos fun c hc => by simpa using htok c hc,
      List.takeWhile_cons_of_neg, List.append_nil]
    rcases hstop with rfl | rfl <;> simp
  obtain ⟨c, cs, rfl⟩ := List.exists_cons_of_ne_nil hne
  have hc := htok c List.mem_cons_self
  have hdrop : (c :: cs ++ stop :: rest).dropWhile (· = delim) = c :: (cs ++ stop :: rest) :=
    List.dropWhile_cons_of_neg (by simpa using hc.1)
  rw [List.cons_append] at htake
  unfold strtok
  rw [hdrop]
  simp only [if_neg hc.2, htake]
  rw [← List.cons_append, List.drop_left]

/-- A token that goes to the end of the array is read beyond it. -/
theorem strtok_outside : strtok delim tok = none := by
  have htake : tok.takeWhile (fun c => c ≠ delim ∧ c ≠ NUL) = tok :=
    List.takeWhile_eq_self_iff.mpr fun c hc => by simpa using htok c hc
  obtain ⟨c, cs, rfl⟩ := List.exists_cons_of_ne_nil hne
  have hc := htok c List.mem_cons_self
  have hdrop : (c :: cs).dropWhile (· = delim) = c :: cs :=
    List.dropWhile_cons_of_neg (by simpa using hc.1)
  unfold strtok
  rw [hdrop]
  simp only [if_neg hc.2, htake, List.drop_length]

end Strtok

/-- The value of a character as a digit, 36 for other characters. -/
def digitVal (c : Char) : ℕ :=
  if '0' ≤ c ∧ c ≤ '9' then c.toNat - '0'.toNat
  else if 'a' ≤ c ∧ c ≤ 'z' then c.toNat - 'a'.toNat + 10
  else if 'A' ≤ c ∧ c ≤ 'Z' then c.toNat - 'A'.toNat + 10
  else 36

/-- The value of the digits that `cs` starts with. -/
def scanDigits (base : ℕ) (cs : List Char) : ℕ :=
  (cs.takeWhile fun c => digitVal c < base).foldl (fun v c => base * v + digitVal c) 0

/-- An integer without a sign, in the base that its prefix says. -/
def scanUnsigned (cs : List Char) : ℕ :=
  match cs with
  | '0' :: x :: d :: cs =>
    if (x = 'x' ∨ x = 'X') ∧ digitVal d < 16 then scanDigits 16 (d :: cs)
    else scanDigits 8 (x :: d :: cs)
  | '0' :: cs => scanDigits 8 cs
  | cs => scanDigits 10 cs

/-- `LONG_MAX` -/
def LONG_MAX : ℕ := 9223372036854775807

/-- `strtol(s, NULL, 0)`; `LONG_MIN` is `-LONG_MAX - 1`. -/
def strtol (s : List Char) : ℤ :=
  let (neg, cs) := match s.dropWhile isSpace with
    | '-' :: cs => (true, cs)
    | '+' :: cs => (false, cs)
    | cs => (false, cs)
  let v := scanUnsigned cs
  if neg then if LONG_MAX < v then -LONG_MAX - 1 else -v
  else if LONG_MAX < v then LONG_MAX else v

end OsLabs
