import OsLabs.Terminal.Equiv.Itoa

/-!
# Fractions as text

The loop of the decimal part multiplies the number by 10 in every round and writes the last digit of
its integer part, so after `j` rounds it has written the first `j` decimal digits, and it stops when
the number is an integer (`fractionLoop_eq`).  The digits of the integer part are taken from a value
that still has its sign; for a number of at most -1 there are none (`not_renders_of_le`).
-/

namespace OsLabs.Terminal

/-! ### The text of a rational number -/

/-- The `j`-th decimal digit of the fractional part of `q`. -/
def fractionDigit (q : ℚ) (j : ℕ) : Char := (⌊Int.fract |q| * 10 ^ j⌋.toNat % 10).digitChar

/-- The least number `k` of digits, from 1 on, for which `q * 10 ^ k` is an integer, capped at 5. -/
def FractionLength (q : ℚ) (k : ℕ) : Prop :=
  1 ≤ k ∧ k ≤ 5 ∧ (k < 5 → ∃ z : ℤ, q * 10 ^ k = z) ∧
    ∀ j, 1 ≤ j → j < k → ¬∃ z : ℤ, q * 10 ^ j = z

/-- The sign, the integer part, which is empty if it is 0, and `k` decimal digits. -/
def decimalText (q : ℚ) (k : ℕ) : List Char :=
  (if q < 0 then ['-'] else []) ++ (if ⌊|q|⌋ = 0 then [] else Nat.toDigits 10 ⌊|q|⌋.toNat)
    ++ ['.'] ++ (List.range k).map fun j => fractionDigit q (j + 1)

/-- `ftoa` writes the text of `q`, in the 15 bytes that `PRINT` has for it. -/
def Renders (q : ℚ) : Prop :=
  ∃ k, FractionLength q k ∧ ftoa q = some (decimalText q k ++ [NUL]) ∧
    (decimalText q k ++ [NUL]).length ≤ CONVERSION_SIZE

/-! ### The decimal part -/

theorem truncate_eq {a : ℚ} (h0 : 0 ≤ a) (hmax : a < 2147483648) : truncate a = some ⌊a⌋ := by
  have htdiv : a.num.tdiv a.den = ⌊a⌋ := by
    rw [Int.tdiv_eq_ediv_of_nonneg (Rat.num_nonneg.mpr h0), Rat.floor_def']
  have hpos : 0 ≤ ⌊a⌋ := Int.floor_nonneg.mpr h0
  have hlt : ⌊a⌋ < 2147483648 := Int.floor_lt.mpr (by exact_mod_cast hmax)
  rw [truncate, htdiv, checked_eq (by omega) (by omega)]

/-- Up to five digits, the conversions to `int` are in range. -/
theorem truncate_mul_pow {q : ℚ} (hq : |q| < 20000) {j : ℕ} (hj : j ≤ 5) :
    truncate (|q| * 10 ^ j) = some ⌊|q| * 10 ^ j⌋ := by
  have hpow : (10 : ℚ) ^ j ≤ 10 ^ 5 := pow_le_pow_right₀ (by norm_num) hj
  refine truncate_eq (by positivity) ?_
  calc |q| * 10 ^ j ≤ |q| * 10 ^ 5 := mul_le_mul_of_nonneg_left hpow (abs_nonneg q)
    _ < 20000 * 10 ^ 5 := mul_lt_mul_of_pos_right hq (by norm_num)
    _ < 2147483648 := by norm_num

section Fraction

variable {q : ℚ}

/-- The digit that is written after `j + 1` multiplications. -/
theorem digitOf_floor (q : ℚ) (j : ℕ) :
    digitOf ⌊|q| * 10 ^ (j + 1)⌋ = fractionDigit q (j + 1) := by
  have hsplit : |q| * 10 ^ (j + 1)
      = Int.fract |q| * 10 ^ (j + 1) + ((⌊|q|⌋ * 10 ^ (j + 1) : ℤ) : ℚ) := by
    have := Int.fract_add_floor |q|
    push_cast
    rw [← add_mul, this]
  have hfloor : ⌊|q| * 10 ^ (j + 1)⌋
      = ⌊Int.fract |q| * 10 ^ (j + 1)⌋ + ⌊|q|⌋ * 10 ^ (j + 1) := by
    rw [hsplit, Int.floor_add_intCast]
  have hpos : 0 ≤ ⌊|q| * 10 ^ (j + 1)⌋ := Int.floor_nonneg.mpr (by positivity)
  have hpos' : 0 ≤ ⌊Int.fract |q| * 10 ^ (j + 1)⌋ :=
    Int.floor_nonneg.mpr (mul_nonneg (Int.fract_nonneg _) (by positivity))
  have hten : ⌊|q|⌋ * 10 ^ (j + 1) = 10 * (⌊|q|⌋ * 10 ^ j) := by ring
  obtain ⟨m, hm⟩ := Int.eq_ofNat_of_zero_le hpos
  rw [hm, digitOf_natCast, fractionDigit]
  congr 1
  omega

/-- The loop of the decimal part, after `j` digits. -/
theorem fractionLoop_eq (hq : |q| < 20000) (base : List Char) {r j : ℕ} (hr : j + r = 5)
    (hj : 1 ≤ j) :
    ∃ k, j ≤ k ∧ k ≤ 5 ∧ (k < 5 → ∃ z : ℤ, |q| * 10 ^ k = z) ∧
      (∀ i, j ≤ i → i < k → ¬∃ z : ℤ, |q| * 10 ^ i = z) ∧
      fractionLoop r (|q| * 10 ^ j) ⌊|q| * 10 ^ j⌋
        (base ++ (List.range j).map fun i => fractionDigit q (i + 1))
          = some (base ++ (List.range k).map fun i => fractionDigit q (i + 1)) := by
  induction r generalizing j with
  | zero => exact ⟨5, by omega, le_rfl, by omega, by omega, by rw [← hr]; rfl⟩
  | succ r ih =>
    unfold fractionLoop
    by_cases hint : |q| * 10 ^ j - ⌊|q| * 10 ^ j⌋ = 0
    · rw [if_neg (not_not.mpr hint)]
      exact ⟨j, le_rfl, by omega, fun _ => ⟨_, sub_eq_zero.mp hint⟩, by omega, rfl⟩
    · obtain ⟨k, hk, hk5, hstop, hbefore, hloop⟩ := ih (j := j + 1) (by omega) (by omega)
      have hpow : |q| * 10 ^ j * 10 = |q| * 10 ^ (j + 1) := by rw [pow_succ, mul_assoc]
      have htrunc := truncate_mul_pow hq (show j + 1 ≤ 5 by omega)
      refine ⟨k, by omega, hk5, hstop, fun i hi hik => ?_, ?_⟩
      · rcases Nat.eq_or_lt_of_le hi with rfl | hlt
        · rintro ⟨z, hz⟩
          rw [hz, Int.floor_intCast, sub_self] at hint
          exact hint rfl
        · exact hbefore i hlt hik
      · rw [if_pos hint, hpow, htrunc]
        show fractionLoop r _ _ (_ ++ [digitOf _]) = _
        rw [digitOf_floor, ← hloop, List.range_succ, List.map_append, List.append_assoc]
        rfl

theorem exists_int_abs (q : ℚ) (j : ℕ) :
    (∃ z : ℤ, |q| * 10 ^ j = z) ↔ ∃ z : ℤ, q * 10 ^ j = z := by
  rcases abs_choice q with hq | hq
  · rw [hq]
  · rw [hq]
    constructor
    · rintro ⟨z, hz⟩
      exact ⟨-z, by rw [Int.cast_neg, ← hz, neg_mul, neg_neg]⟩
    · rintro ⟨z, hz⟩
      exact ⟨-z, by rw [Int.cast_neg, ← hz, neg_mul]⟩

/-- The whole decimal part: the first digit is always written. -/
theorem fractionLoop_start (hne : q ≠ 0) (hq : |q| < 20000) (base : List Char) :
    ∃ k, FractionLength q k ∧ fractionLoop 5 |q| 0 base
      = some (base ++ (List.range k).map fun i => fractionDigit q (i + 1)) := by
  obtain ⟨k, hk, hk5, hstop, hbefore, hloop⟩ := fractionLoop_eq hq base (r := 4) (j := 1) rfl le_rfl
  simp only [exists_int_abs] at hstop hbefore
  refine ⟨k, ⟨hk, hk5, hstop, hbefore⟩, ?_⟩
  have hfirst := truncate_mul_pow hq (show 1 ≤ 5 by decide)
  rw [pow_one] at hfirst
  have habs : |q| - ((0 : ℤ) : ℚ) ≠ 0 := by
    rw [Int.cast_zero, sub_zero]
    exact abs_ne_zero.mpr hne
  unfold fractionLoop
  rw [if_pos habs, hfirst]
  show fractionLoop 4 _ _ (base ++ [digitOf _]) = _
  have hdigit := digitOf_floor q 0
  rw [Nat.zero_add, pow_one] at hdigit
  rw [← hloop, hdigit, pow_one]
  rfl

end Fraction

/-! ### The integer part -/

/-- The conversion of the number with its sign. -/
theorem truncate_signed {q : ℚ} (hq : |q| < 20000) :
    truncate q = some (if q < 0 then -⌊|q|⌋ else ⌊|q|⌋) := by
  have habs := truncate_mul_pow hq (Nat.zero_le 5)
  rw [pow_zero, mul_one] at habs
  split_ifs with hneg
  · have hpos : 0 ≤ -q := by linarith
    rw [abs_of_neg hneg] at hq ⊢
    have htdiv : q.num.tdiv q.den = -⌊-q⌋ := by
      have hfloor : (-q).num.tdiv (-q).den = ⌊-q⌋ := by
        rw [Int.tdiv_eq_ediv_of_nonneg (Rat.num_nonneg.mpr hpos), Rat.floor_def']
      rw [← hfloor, Rat.neg_num, Rat.neg_den, Int.neg_tdiv, neg_neg]
    have hfloor : 0 ≤ ⌊-q⌋ := Int.floor_nonneg.mpr hpos
    have hlt : ⌊-q⌋ < 20000 := Int.floor_lt.mpr (by exact_mod_cast hq)
    rw [truncate, htdiv, checked_eq (by omega) (by omega)]
  · rw [abs_of_nonneg (not_lt.mp hneg)] at habs ⊢
    exact habs

theorem ftoa_eq {q : ℚ} (hne : q ≠ 0) (hq : |q| < 20000) : ∃ k, FractionLength q k ∧
    ftoa q = some (signedDigits (if q < 0 then -⌊|q|⌋ else ⌊|q|⌋) (q < 0) ++ ['.']
      ++ ((List.range k).map fun i => fractionDigit q (i + 1)) ++ [NUL]) := by
  have hmag : (if q < 0 then -q else q) = |q| := by
    split_ifs with hneg
    · rw [abs_of_neg hneg]
    · rw [abs_of_nonneg (not_lt.mp hneg)]
  obtain ⟨k, hk, hloop⟩ := fractionLoop_start hne hq
    (signedDigits (if q < 0 then -⌊|q|⌋ else ⌊|q|⌋) (q < 0) ++ ['.'])
  refine ⟨k, hk, ?_⟩
  unfold ftoa
  rw [truncate_signed hq, hmag]
  show (if q = 0 then _ else _) = _
  rw [if_neg hne]
  show (fractionLoop 5 |q| 0 _).bind _ = _
  rw [hloop]
  rfl

/-- Without a positive integer part there are no digits. -/
theorem signedDigits_of_nonpos {n : ℤ} (hn : n ≤ 0) (isNegative : Bool) :
    signedDigits n isNegative = if isNegative then ['-'] else [] := by
  have hloop : digitLoop 14 n [] = [] := if_neg (not_lt.mpr hn)
  unfold signedDigits
  simp only [hloop, reverseLoop_eq]
  cases isNegative <;> rfl

/-- Above -1 the digits are those of the integer part. -/
theorem signedDigits_floor {q : ℚ} (hq : |q| < 20000) (h : -1 < q) :
    signedDigits (if q < 0 then -⌊|q|⌋ else ⌊|q|⌋) (q < 0)
      = (if q < 0 then ['-'] else []) ++ if ⌊|q|⌋ = 0 then [] else Nat.toDigits 10 ⌊|q|⌋.toNat := by
  have hpos : 0 ≤ ⌊|q|⌋ := Int.floor_nonneg.mpr (abs_nonneg q)
  have hlt : ⌊|q|⌋ < 20000 := Int.floor_lt.mpr (by exact_mod_cast hq)
  by_cases hneg : q < 0
  · have hzero : ⌊|q|⌋ = 0 := by
      rw [abs_of_neg hneg, Int.floor_eq_zero_iff]
      exact ⟨by linarith, by linarith⟩
    rw [hzero, neg_zero, ite_self, signedDigits_of_nonpos le_rfl, decide_eq_true hneg, if_pos hneg]
    rfl
  · obtain ⟨m, hm⟩ := Int.eq_ofNat_of_zero_le hpos
    rw [hm] at hlt ⊢
    rw [if_neg hneg, if_neg hneg, decide_eq_false hneg, signedDigits_eq (by omega),
      Int.toNat_natCast]
    simp only [Nat.cast_eq_zero]
    rfl

theorem length_decimalText {q : ℚ} (hq : |q| < 20000) {k : ℕ} (hk : k ≤ 5) :
    (decimalText q k ++ [NUL]).length ≤ CONVERSION_SIZE := by
  have hlt : ⌊|q|⌋ < 20000 := Int.floor_lt.mpr (by exact_mod_cast hq)
  have hsign : (if q < 0 then ['-'] else []).length ≤ 1 := by
    split_ifs <;> decide
  have hdigits : (if ⌊|q|⌋ = 0 then [] else Nat.toDigits 10 ⌊|q|⌋.toNat).length ≤ 5 := by
    split_ifs
    · decide
    · exact (Nat.length_toDigits_le_iff (by decide) (by decide)).mpr (by omega)
  simp only [decimalText, List.length_append, List.length_map, List.length_range,
    List.length_singleton, CONVERSION_SIZE]
  omega

/-! ### Both parts -/

/-- From -1 down the digits of the integer part are missing. -/
theorem not_renders_of_le {q : ℚ} (hq : |q| < 20000) (h : q ≤ -1) : ¬Renders q := by
  have hneg : q < 0 := by linarith
  have hpos : 0 < ⌊|q|⌋ := by
    rw [abs_of_neg hneg]
    exact Int.floor_pos.mpr (by linarith)
  rintro ⟨k', -, htext, -⟩
  obtain ⟨k, -, heq⟩ := ftoa_eq hneg.ne hq
  rw [htext, if_pos hneg, signedDigits_of_nonpos (by omega), decide_eq_true hneg, if_pos rfl,
    decimalText, if_pos hneg, if_neg hpos.ne'] at heq
  -- the character after the sign is a digit, and not the point
  obtain ⟨d, ds, hds⟩ :=
    List.exists_cons_of_ne_nil (Nat.toDigits_ne_nil (n := ⌊|q|⌋.toNat) (b := 10))
  have hd : d.isDigit := isDigit_toDigits (hds ▸ List.mem_cons_self)
  rw [hds] at heq
  have hpoint : d = '.' := (List.cons.inj (List.cons.inj (Option.some.inj heq)).2).1
  rw [hpoint] at hd
  exact absurd hd (by decide)

/-- **Decimal rendering of fractions**: for nonzero numbers between -20000 and 20000 `ftoa` writes
the text of the number if and only if it is greater than -1. -/
theorem ftoa_renders_iff (q : ℚ) (hne : q ≠ 0) (hq : |q| < 20000) : Renders q ↔ -1 < q := by
  constructor
  · intro h
    by_contra hle
    exact not_renders_of_le hq (not_lt.mp hle) h
  · intro h
    obtain ⟨k, hk, heq⟩ := ftoa_eq hne hq
    refine ⟨k, hk, ?_, length_decimalText hq hk.2.1⟩
    rw [heq, signedDigits_floor hq h]
    rfl

theorem ftoa_renders_iff_half : Renders (1 / 2) ↔ (-1 : ℚ) < 1 / 2 :=
  ftoa_renders_iff (1 / 2) (by norm_num) (by norm_num [abs_of_pos])

/-- -5/2 is written as `-.5`. -/
theorem not_ftoa_renders : ¬∀ q : ℚ, q ≠ 0 → |q| < 20000 → Renders q := by
  intro hall
  have hq : |(-5 / 2 : ℚ)| < 20000 := by norm_num [abs_of_neg]
  exact not_renders_of_le hq (by norm_num) (hall _ (by norm_num) hq)

end OsLabs.Terminal
