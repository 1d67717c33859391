import OsLabs.Lib.Strings
import Mathlib.Tactic.IntervalCases

/-!
# Numerals

The numerals that `strtol` reads with base 0, other than octal ones: decimal digits without a
leading zero, or hexadecimal digits after `0x`.  `Signed cs v` says that `cs` is such a numeral for
`v`, with a sign or without, and `strtol_signed` that `strtol` reads it.  The decimal numeral of a
natural number is `Nat.toDigits 10 n` (`numeral_toDigits`).
-/

namespace OsLabs

/-! ### Characters -/

theorem char_le_iff {c d : Char} : c ≤ d ↔ c.toNat ≤ d.toNat := by
  rw [Char.le_def, UInt32.le_iff_toNat_le]
  rfl

theorem isDigit_iff {c : Char} : c.isDigit ↔ 48 ≤ c.toNat ∧ c.toNat ≤ 57 := by
  unfold Char.isDigit
  rw [Bool.and_eq_true, decide_eq_true_eq, decide_eq_true_eq]
  exact and_congr UInt32.le_iff_toNat_le UInt32.le_iff_toNat_le

theorem isSpace_iff {c : Char} : isSpace c ↔ c.toNat = 32 ∨ 9 ≤ c.toNat ∧ c.toNat ≤ 13 := by
  have hblank : c = ' ' ↔ c.toNat = 32 := Char.toNat_inj.symm
  unfold isSpace
  rw [Bool.or_eq_true, Bool.and_eq_true, decide_eq_true_eq, decide_eq_true_eq, decide_eq_true_eq,
    hblank]
  rfl

theorem digitVal_eq (c : Char) : digitVal c =
    if 48 ≤ c.toNat ∧ c.toNat ≤ 57 then c.toNat - 48
    else if 97 ≤ c.toNat ∧ c.toNat ≤ 122 then c.toNat - 97 + 10
    else if 65 ≤ c.toNat ∧ c.toNat ≤ 90 then c.toNat - 65 + 10
    else 36 := by
  unfold digitVal
  simp only [char_le_iff]
  rfl

theorem digitVal_lt_ten {c : Char} : digitVal c < 10 ↔ c.isDigit := by
  rw [isDigit_iff, digitVal_eq]
  split_ifs <;> omega

theorem digitVal_of_isDigit {c : Char} (h : c.isDigit) : digitVal c = c.toNat - 48 := by
  rw [digitVal_eq, if_pos (isDigit_iff.mp h)]

/-- White space is no digit in any base. -/
theorem digitVal_of_isSpace {c : Char} (h : isSpace c) : digitVal c = 36 := by
  rw [isSpace_iff] at h
  rw [digitVal_eq]
  split_ifs <;> omega

/-! ### Digits and what follows them -/

/-- The value of digits in a base. -/
def digitsIn (base : ℕ) (ds : List Char) : ℕ := ds.foldl (fun v d => base * v + digitVal d) 0

/-- `rest` does not go on a numeral. -/
def Stops (rest : List Char) : Prop := ∀ c ∈ rest.head?, digitVal c = 36

theorem stops_nil : Stops [] := by simp [Stops]

theorem stops_of_isSpace {rest : List Char} (h : ∀ c ∈ rest, isSpace c) : Stops rest :=
  fun c hc => digitVal_of_isSpace (h c (List.mem_of_mem_head? hc))

theorem scanDigits_append {base : ℕ} (hbase : base ≤ 36) {ds rest : List Char}
    (hds : ∀ c ∈ ds, digitVal c < base) (hrest : Stops rest) :
    scanDigits base (ds ++ rest) = digitsIn base ds := by
  have hstop : rest.takeWhile (fun c => digitVal c < base) = [] := by
    cases rest with
    | nil => rfl
    | cons c rest =>
      have hc := hrest c rfl
      exact List.takeWhile_cons_of_neg (by simpa [hc] using hbase)
  have hall : (ds ++ rest).takeWhile (fun c => digitVal c < base) = ds := by
    rw [List.takeWhile_append_of_pos (by simpa using hds), hstop, List.append_nil]
  rw [scanDigits, hall, digitsIn]

/-! ### Numerals -/

/-- `cs` is a numeral for `n`: decimal, or hexadecimal. -/
inductive Numeral : List Char → ℕ → Prop where
  | zero : Numeral ['0'] 0
  | decimal {d : Char} {ds : List Char} (hd : d ≠ '0') (hds : ∀ c ∈ d :: ds, digitVal c < 10) :
    Numeral (d :: ds) (digitsIn 10 (d :: ds))
  | hex {x d : Char} {ds : List Char} (hx : x = 'x' ∨ x = 'X')
      (hds : ∀ c ∈ d :: ds, digitVal c < 16) :
    Numeral ('0' :: x :: d :: ds) (digitsIn 16 (d :: ds))

/-- `cs` is a numeral for `v`, with a sign if it is negative. -/
inductive Signed : List Char → ℤ → Prop where
  | plain {cs : List Char} {n : ℕ} (h : Numeral cs n) : Signed cs n
  | plus {cs : List Char} {n : ℕ} (h : Numeral cs n) : Signed ('+' :: cs) n
  | minus {cs : List Char} {n : ℕ} (h : Numeral cs n) : Signed ('-' :: cs) (-n)

/-- A numeral starts with a digit. -/
theorem Numeral.exists_cons {cs : List Char} {n : ℕ} (h : Numeral cs n) :
    ∃ d ds, cs = d :: ds ∧ digitVal d < 10 := by
  cases h with
  | zero => exact ⟨_, _, rfl, by decide⟩
  | decimal _ hds => exact ⟨_, _, rfl, hds _ List.mem_cons_self⟩
  | hex => exact ⟨_, _, rfl, by decide⟩

theorem Numeral.digitVal_lt {cs : List Char} {n : ℕ} (h : Numeral cs n) :
    ∀ c ∈ cs, digitVal c < 36 := by
  cases h with
  | zero => exact List.forall_mem_singleton.mpr (by decide)
  | decimal _ hds => exact fun c hc => (hds c hc).trans (by decide)
  | hex hx hds =>
    intro c hc
    rcases List.mem_cons.mp hc with rfl | hc
    · decide
    · rcases List.mem_cons.mp hc with rfl | hc
      · rcases hx with rfl | rfl <;> decide
      · exact (hds c hc).trans (by decide)

/-- A numeral consists of digits and signs. -/
theorem Signed.mem {cs : List Char} {v : ℤ} (h : Signed cs v) {c : Char} (hc : c ∈ cs) :
    c = '+' ∨ c = '-' ∨ digitVal c < 36 := by
  cases h with
  | plain hn => exact .inr (.inr (hn.digitVal_lt c hc))
  | plus hn =>
    rcases List.mem_cons.mp hc with rfl | hc
    · exact .inl rfl
    · exact .inr (.inr (hn.digitVal_lt c hc))
  | minus hn =>
    rcases List.mem_cons.mp hc with rfl | hc
    · exact .inr (.inl rfl)
    · exact .inr (.inr (hn.digitVal_lt c hc))

theorem Signed.ne {cs : List Char} {v : ℤ} (h : Signed cs v) {c : Char} (hc : c ∈ cs) :
    c ≠ NUL ∧ c ≠ '\n' := by
  constructor
  all_goals
    rintro rfl
    rcases h.mem hc with heq | heq | heq <;> exact absurd heq (by decide)

theorem scanUnsigned_numeral {cs rest : List Char} {n : ℕ} (h : Numeral cs n)
    (hrest : Stops rest) : scanUnsigned (cs ++ rest) = n := by
  cases h with
  | zero =>
    have hnone : ∀ c ∈ ([] : List Char), digitVal c < 8 := by simp
    have hoctal : scanDigits 8 rest = 0 := scanDigits_append (by decide) hnone hrest
    match rest, hrest with
    | [], _ => rfl
    | [x], _ => exact hoctal
    | x :: d :: rest, hrest =>
      have hx : ¬(x = 'x' ∨ x = 'X') := by
        have hstop := hrest x rfl
        rintro (rfl | rfl) <;> exact absurd hstop (by decide)
      show (if _ then _ else _) = 0
      rw [if_neg fun hcon => hx hcon.1]
      exact hoctal
  | @decimal d ds hd hds =>
    have hscan : scanUnsigned (d :: ds ++ rest) = scanDigits 10 (d :: ds ++ rest) := by
      unfold scanUnsigned
      split
      · rename_i heq
        exact absurd (List.cons.inj heq).1 hd
      · rename_i heq
        exact absurd (List.cons.inj heq).1 hd
      · rfl
    rw [hscan, scanDigits_append (by decide) hds hrest]
  | @hex x d ds hx hds =>
    show (if _ then _ else _) = _
    rw [if_pos ⟨hx, hds d List.mem_cons_self⟩]
    exact scanDigits_append (by decide) hds hrest

theorem strtol_of_minus {s cs : List Char} {n : ℕ} (hdrop : s.dropWhile isSpace = '-' :: cs)
    (hscan : scanUnsigned cs = n) :
    strtol s = if LONG_MAX < n then -(LONG_MAX : ℤ) - 1 else -(n : ℤ) := by
  unfold strtol
  rw [hdrop]
  simp [hscan]

theorem strtol_of_plus {s cs : List Char} {n : ℕ} (hdrop : s.dropWhile isSpace = '+' :: cs)
    (hscan : scanUnsigned cs = n) : strtol s = if LONG_MAX < n then (LONG_MAX : ℤ) else n := by
  unfold strtol
  rw [hdrop]
  simp [hscan]

theorem strtol_of_digit {s cs : List Char} {d : Char} {n : ℕ} (hd : digitVal d < 10)
    (hdrop : s.dropWhile isSpace = d :: cs) (hscan : scanUnsigned (d :: cs) = n) :
    strtol s = if LONG_MAX < n then (LONG_MAX : ℤ) else n := by
  have hminus : d ≠ '-' := by
    rintro rfl
    exact absurd hd (by decide)
  have hplus : d ≠ '+' := by
    rintro rfl
    exact absurd hd (by decide)
  unfold strtol
  rw [hdrop]
  simp [hminus, hplus, hscan]

/-- `strtol` reads a numeral for a `long`, after blanks and up to a character that is no digit. -/
theorem strtol_signed {blanks cs rest : List Char} {v : ℤ} (hblanks : ∀ c ∈ blanks, isSpace c)
    (h : Signed cs v) (hrest : Stops rest) (hmin : -LONG_MAX - 1 ≤ v) (hmax : v ≤ LONG_MAX) :
    strtol (blanks ++ cs ++ rest) = v := by
  have hdrop (c : Char) (cs : List Char) (hc : ¬isSpace c) :
      (blanks ++ c :: cs).dropWhile isSpace = c :: cs := by
    rw [List.dropWhile_append_of_pos hblanks, List.dropWhile_cons_of_neg hc]
  rw [List.append_assoc]
  cases h with
  | plain hn =>
    obtain ⟨d, ds, rfl, hd⟩ := hn.exists_cons
    have hspace : ¬isSpace d := fun hcon => by
      rw [digitVal_of_isSpace hcon] at hd
      exact absurd hd (by decide)
    rw [List.cons_append, strtol_of_digit hd (hdrop d (ds ++ rest) hspace)
      (scanUnsigned_numeral hn hrest), if_neg (by omega)]
  | plus hn =>
    rw [List.cons_append, strtol_of_plus (hdrop '+' _ (by decide))
      (scanUnsigned_numeral hn hrest), if_neg (by omega)]
  | @minus cs n hn =>
    rw [List.cons_append, strtol_of_minus (hdrop '-' _ (by decide))
      (scanUnsigned_numeral hn hrest)]
    split_ifs <;> omega

/-! ### Decimal numerals -/

theorem isDigit_toDigits {n : ℕ} {c : Char} (hc : c ∈ Nat.toDigits 10 n) : c.isDigit :=
  Nat.isDigit_of_mem_toDigits (by decide) le_rfl hc

theorem digitsIn_toDigits (n : ℕ) : digitsIn 10 (Nat.toDigits 10 n) = n := by
  have hfold (ds : List Char) (hds : ∀ c ∈ ds, c.isDigit) (v : ℕ) :
      ds.foldl (fun v d => 10 * v + digitVal d) v = Nat.ofDigitChars 10 ds v := by
    induction ds generalizing v with
    | nil => rfl
    | cons d ds ih =>
      rw [List.foldl_cons, digitVal_of_isDigit (hds d List.mem_cons_self),
        ih fun c hc => hds c (List.mem_cons_of_mem d hc)]
      rfl
  rw [digitsIn, hfold _ (fun c hc => isDigit_toDigits hc), Nat.ofDigitChars_ten_toDigits]

/-- The first digit is not 0, unless the number is. -/
theorem head_toDigits {n : ℕ} (hn : 0 < n) : (Nat.toDigits 10 n).head? ≠ some '0' := by
  induction n using Nat.strongRecOn with
  | _ n ih =>
    by_cases hlt : n < 10
    · rw [Nat.toDigits_of_lt_base hlt]
      interval_cases n <;> decide
    · have hdiv := ih (n / 10) (by omega) (by omega)
      rw [Nat.toDigits_of_base_le (by decide) (by omega), List.head?_append]
      cases hhead : (Nat.toDigits 10 (n / 10)).head? with
      | none => exact absurd (List.head?_eq_none_iff.mp hhead) Nat.toDigits_ne_nil
      | some c =>
        rw [hhead] at hdiv
        exact hdiv

/-- The decimal numeral of a number. -/
theorem numeral_toDigits (n : ℕ) : Numeral (Nat.toDigits 10 n) n := by
  rcases Nat.eq_zero_or_pos n with rfl | hn
  · exact .zero
  · obtain ⟨d, ds, hds⟩ := List.exists_cons_of_ne_nil (Nat.toDigits_ne_nil (n := n) (b := 10))
    have hhead := head_toDigits hn
    have hvalue := digitsIn_toDigits n
    rw [hds] at hhead hvalue ⊢
    have hdigits : ∀ c ∈ d :: ds, digitVal c < 10 := by
      intro c hc
      rw [← hds] at hc
      exact digitVal_lt_ten.mpr (isDigit_toDigits hc)
    have h := Numeral.decimal (fun hd => hhead (by rw [hd]; rfl)) hdigits
    rwa [hvalue] at h

/-- The decimal numeral of an integer. -/
def decimal (v : ℤ) : List Char :=
  if v < 0 then '-' :: Nat.toDigits 10 v.natAbs else Nat.toDigits 10 v.natAbs

theorem mem_decimal {x : ℤ} {c : Char} (hc : c ∈ decimal x) : c.isDigit ∨ c = '-' := by
  rw [decimal] at hc
  split at hc
  · obtain rfl | hc := List.mem_cons.mp hc
    · exact .inr rfl
    · exact .inl (isDigit_toDigits hc)
  · exact .inl (isDigit_toDigits hc)

theorem decimal_ne_nil (x : ℤ) : decimal x ≠ [] := by
  rw [decimal]
  split
  · exact List.cons_ne_nil _ _
  · exact Nat.toDigits_ne_nil

theorem decimal_injective : Function.Injective decimal := by
  have hdigits {a b : ℕ} (h : Nat.toDigits 10 a = Nat.toDigits 10 b) : a = b := by
    rw [← digitsIn_toDigits a, h, digitsIn_toDigits]
  have hminus {a b : ℕ} (h : '-' :: Nat.toDigits 10 a = Nat.toDigits 10 b) : False := by
    have hc : '-' ∈ Nat.toDigits 10 b := h ▸ List.mem_cons_self
    exact absurd (isDigit_toDigits hc) (by decide)
  intro x y h
  unfold decimal at h
  split at h <;> split at h
  · have := hdigits (List.cons.inj h).2
    omega
  · exact (hminus h).elim
  · exact (hminus h.symm).elim
  · have := hdigits h
    omega

theorem scanInt_of_isDigit {cs digits : List Char} (hdigits : cs.takeWhile Char.isDigit = digits)
    (hne : digits ≠ []) :
    scanInt cs = some ((digitsValue digits : ℤ), cs.drop digits.length) := by
  unfold scanInt
  split
  · -- a sign is no digit
    rename_i cs' heq
    split at heq
    · exact absurd hdigits.symm hne
    · exact absurd hdigits.symm hne
    · obtain ⟨rfl, rfl⟩ := Prod.mk.inj heq
      simp only [hdigits, if_neg hne]
      rfl

/-- `%d` reads a decimal numeral up to a character that is no digit. -/
theorem scanInt_toDigits (n : ℕ) {rest : List Char} (hrest : ∀ c ∈ rest.head?, ¬c.isDigit) :
    scanInt (Nat.toDigits 10 n ++ rest) = some ((n : ℤ), rest) := by
  have hstop : rest.takeWhile Char.isDigit = [] := by
    cases rest with
    | nil => rfl
    | cons c rest => exact List.takeWhile_cons_of_neg (hrest c rfl)
  have htake : (Nat.toDigits 10 n ++ rest).takeWhile Char.isDigit = Nat.toDigits 10 n := by
    rw [List.takeWhile_append_of_pos fun c hc => isDigit_toDigits hc, hstop, List.append_nil]
  have hvalue : digitsValue (Nat.toDigits 10 n) = n := Nat.ofDigitChars_ten_toDigits
  rw [scanInt_of_isDigit htake Nat.toDigits_ne_nil, hvalue, List.drop_left]

end OsLabs
