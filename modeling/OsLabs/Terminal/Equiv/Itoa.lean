import OsLabs.Lib.Numerals
import OsLabs.Terminal.Stdio
import OsLabs.Terminal.Stdlib

/-!
# Integers as text

The first loop of `itoa` writes the decimal digits from the last to the first (`digitLoop_eq`), and
the reversal puts them in order (`signedDigits_eq`).  `atoi` adds them up again
(`atoiLoopChecked_digits`).  Only the least `int` has no negation, and there both overflow
(`itoa_roundTrip_iff`).
-/

namespace OsLabs.Terminal

/-! ### Checked operations -/

theorem checked_eq {x : ℤ} (hmin : -2147483648 ≤ x) (hmax : x ≤ 2147483647) :
    checked x = some x := if_pos ⟨hmin, hmax⟩

theorem checked_eq_some {x y : ℤ} (h : checked x = some y) : y = x ∧ int32 x = x := by
  unfold checked at h
  split at h
  · rename_i hx
    refine ⟨(Option.some.inj h).symm, ?_⟩
    rw [int32, Int.bmod_def]
    split_ifs <;> omega
  · exact absurd h (by simp)

theorem atoiLoop_of_checked {num v : ℤ} {s : List Char} (h : atoiLoopChecked num s = some v) :
    atoiLoop num s = v := by
  induction s generalizing num with
  | nil => exact Option.some.inj h
  | cons c cs ih =>
    unfold atoiLoopChecked at h
    unfold atoiLoop
    split at h
    · rename_i hc
      rw [if_pos hc]
      obtain ⟨tens, htens, h⟩ := Option.bind_eq_some_iff.mp h
      obtain ⟨num', hnum, h⟩ := Option.bind_eq_some_iff.mp h
      obtain ⟨rfl, hint⟩ := checked_eq_some htens
      obtain ⟨rfl, hint'⟩ := checked_eq_some hnum
      rw [hint, hint']
      exact ih h
    · rename_i hc
      rw [if_neg hc]
      exact Option.some.inj h

/-- Without a sign the digits start at once. -/
theorem atoi_of_unsigned {s : List Char} (hminus : ∀ cs, s ≠ '-' :: cs)
    (hplus : ∀ cs, s ≠ '+' :: cs) : atoi s = atoiLoop 0 s := by
  unfold atoi
  split
  · exact absurd rfl (hminus _)
  · exact absurd rfl (hplus _)
  · rfl

/-- Without an overflow the checked `atoi` is `atoi`. -/
theorem atoi_of_checked {v : ℤ} {s : List Char} (h : atoiChecked s = some v) : atoi s = v := by
  unfold atoiChecked at h
  split at h
  · obtain ⟨num, hnum, h⟩ := Option.bind_eq_some_iff.mp h
    obtain ⟨rfl, hv⟩ := checked_eq_some h
    rw [atoi, atoiLoop_of_checked hnum, hv]
  · exact atoiLoop_of_checked h
  · rename_i hminus hplus
    exact (atoi_of_unsigned hminus hplus).trans (atoiLoop_of_checked h)

/-! ### The digits of `itoa` -/

theorem digitOf_natCast (m : ℕ) : digitOf (m : ℤ) = (m % 10).digitChar := by
  have hmod : ((m : ℤ).tmod 10).toNat = m % 10 := by
    rw [Int.tmod_eq_emod_of_nonneg (Int.natCast_nonneg m)]
    omega
  have hlt : m % 10 < 10 := Nat.mod_lt _ (by decide)
  rw [digitOf, hmod]
  generalize m % 10 = d at hlt
  interval_cases d <;> rfl

/-- The digits of a number, the last one first. -/
theorem digitLoop_eq {k m : ℕ} (hm : m < 10 ^ k) (buffer : List Char) :
    digitLoop k (m : ℤ) buffer
      = buffer ++ if m = 0 then [] else (Nat.toDigits 10 m).reverse := by
  induction k generalizing m buffer with
  | zero =>
    rw [if_pos (by omega), List.append_nil]
    rfl
  | succ k ih =>
    unfold digitLoop
    rcases Nat.eq_zero_or_pos m with rfl | hpos
    · simp
    · have hdiv : (m : ℤ).tdiv 10 = ((m / 10 : ℕ) : ℤ) := rfl
      have hlt : m / 10 < 10 ^ k := by
        rw [pow_succ] at hm
        omega
      rw [if_pos (by omega), hdiv, ih hlt, digitOf_natCast, if_neg hpos.ne', List.append_assoc]
      congr 1
      by_cases hsmall : m < 10
      · rw [if_pos (by omega), Nat.toDigits_of_lt_base hsmall, Nat.mod_eq_of_lt hsmall]
        rfl
      · have hsplit : Nat.toDigits 10 m = Nat.toDigits 10 (m / 10) ++ [(m % 10).digitChar] :=
          Nat.toDigits_of_base_le (by decide) (by omega)
        rw [if_neg (by omega), hsplit, List.reverse_append]
        rfl

/-- The digits in order, after a sign. -/
theorem signedDigits_eq {m : ℕ} (hm : m < 10 ^ 14) (isNegative : Bool) :
    signedDigits (m : ℤ) isNegative
      = (if isNegative then ['-'] else []) ++ if m = 0 then [] else Nat.toDigits 10 m := by
  have hdigits : (if m = 0 then [] else (Nat.toDigits 10 m).reverse).reverse
      = if m = 0 then [] else Nat.toDigits 10 m := by
    split_ifs
    · rfl
    · rw [List.reverse_reverse]
  unfold signedDigits
  simp only [digitLoop_eq hm, List.nil_append, reverseLoop_eq]
  cases isNegative with
  | false => simpa using hdigits
  | true => simpa using hdigits

/-- `itoa` writes the decimal numeral. -/
theorem itoa_eq {n : ℤ} (hmin : -2147483648 < n) (hmax : n ≤ 2147483647) :
    itoa n = some (decimal n ++ [NUL]) := by
  rcases lt_trichotomy n 0 with hneg | rfl | hpos
  · have habs : -n = (n.natAbs : ℤ) := by omega
    unfold itoa decimal
    rw [if_neg hneg.ne, if_pos hneg, if_pos hneg, checked_eq (by omega) (by omega), habs]
    show some (signedDigits _ (decide (n < 0)) ++ [NUL]) = _
    rw [signedDigits_eq (by omega), decide_eq_true hneg, if_pos rfl, if_neg (by omega)]
    rfl
  · rfl
  · obtain ⟨m, rfl⟩ := Int.eq_ofNat_of_zero_le hpos.le
    have hnot : ¬(m : ℤ) < 0 := by omega
    unfold itoa decimal
    rw [if_neg hpos.ne', if_neg hnot, if_neg hnot]
    show some (signedDigits m (decide ((m : ℤ) < 0)) ++ [NUL]) = _
    rw [decide_eq_false hnot, signedDigits_eq (by omega), if_neg Bool.false_ne_true,
      if_neg (by omega)]
    rfl

/-! ### Reading the digits -/

theorem le_ofDigitChars (ds : List Char) (num : ℕ) : num ≤ Nat.ofDigitChars 10 ds num := by
  induction ds generalizing num with
  | nil => exact le_rfl
  | cons d ds ih =>
    have hstep := ih (10 * num + (d.toNat - '0'.toNat))
    rw [Nat.ofDigitChars_cons]
    omega

/-- No step overflows when the number fits an `int`. -/
theorem atoiLoopChecked_digits {ds : List Char} (hds : ∀ d ∈ ds, d.isDigit) {num : ℕ}
    (hmax : Nat.ofDigitChars 10 ds num ≤ 2147483647) (rest : List Char) :
    atoiLoopChecked num (ds ++ NUL :: rest) = some ((Nat.ofDigitChars 10 ds num : ℕ) : ℤ) := by
  induction ds generalizing num with
  | nil => rfl
  | cons d ds ih =>
    have hd := isDigit_iff.mp (hds d List.mem_cons_self)
    have hzero : '0'.toNat = 48 := rfl
    have hdigit : '0' ≤ d ∧ d ≤ '9' := ⟨char_le_iff.mpr hd.1, char_le_iff.mpr hd.2⟩
    rw [Nat.ofDigitChars_cons] at hmax ⊢
    have hle := le_ofDigitChars ds (10 * num + (d.toNat - '0'.toNat))
    have hnext : (num : ℤ) * 10 + ((d.toNat : ℤ) - ('0'.toNat : ℤ))
        = ((10 * num + (d.toNat - '0'.toNat) : ℕ) : ℤ) := by omega
    rw [List.cons_append, atoiLoopChecked, if_pos hdigit, checked_eq (by omega) (by omega)]
    show (checked (num * 10 + _)).bind _ = _
    rw [hnext, checked_eq (by omega) (by omega)]
    exact ih (fun c hc => hds c (List.mem_cons_of_mem d hc)) hmax

theorem atoiLoopChecked_toDigits {m : ℕ} (hm : m ≤ 2147483647) (rest : List Char) :
    atoiLoopChecked 0 (Nat.toDigits 10 m ++ NUL :: rest) = some (m : ℤ) := by
  have hmax : Nat.ofDigitChars 10 (Nat.toDigits 10 m) 0 ≤ 2147483647 := by
    rwa [Nat.ofDigitChars_ten_toDigits]
  have h := atoiLoopChecked_digits (fun d hd => isDigit_toDigits hd) hmax rest
  rwa [Nat.ofDigitChars_ten_toDigits] at h

/-- `atoi` reads the decimal numeral. -/
theorem atoiChecked_decimal {n : ℤ} (hmin : -2147483648 < n) (hmax : n ≤ 2147483647) :
    atoiChecked (decimal n ++ [NUL]) = some n := by
  unfold decimal
  by_cases hneg : n < 0
  · rw [if_pos hneg]
    show (atoiLoopChecked 0 (Nat.toDigits 10 n.natAbs ++ [NUL])).bind _ = _
    rw [atoiLoopChecked_toDigits (by omega)]
    show checked (-(n.natAbs : ℤ)) = _
    rw [show -(n.natAbs : ℤ) = n by omega, checked_eq (by omega) (by omega)]
  · obtain ⟨m, rfl⟩ := Int.eq_ofNat_of_zero_le (not_lt.mp hneg)
    obtain ⟨d, ds, hds⟩ := List.exists_cons_of_ne_nil (Nat.toDigits_ne_nil (n := m) (b := 10))
    have hread := atoiLoopChecked_toDigits (m := m) (by omega) []
    have hd : d.isDigit := isDigit_toDigits (hds ▸ List.mem_cons_self)
    rw [if_neg hneg]
    show atoiChecked (Nat.toDigits 10 m ++ [NUL]) = _
    rw [hds] at hread ⊢
    unfold atoiChecked
    -- a sign is no digit
    split
    · rename_i heq
      obtain ⟨rfl, -⟩ := List.cons.inj heq
      exact absurd hd (by decide)
    · rename_i heq
      obtain ⟨rfl, -⟩ := List.cons.inj heq
      exact absurd hd (by decide)
    · exact hread

/-! ### The round trip -/

/-- `itoa` writes the decimal numeral of `n`, in the 15 bytes that `PRINT` has for it, `atoi` reads
`n` back, and nothing overflows. -/
structure RoundTrip (n : ℤ) : Prop where
  itoa : itoa n = some (decimal n ++ [NUL])
  fits : (decimal n ++ [NUL]).length ≤ CONVERSION_SIZE
  atoi : atoi (decimal n ++ [NUL]) = n
  atoiChecked : atoiChecked (decimal n ++ [NUL]) = some n

theorem length_decimal {n : ℤ} (hmin : -2147483648 ≤ n) (hmax : n ≤ 2147483647) :
    (decimal n).length ≤ 11 := by
  have hdigits : (Nat.toDigits 10 n.natAbs).length ≤ 10 :=
    (Nat.length_toDigits_le_iff (by decide) (by decide)).mpr (by omega)
  unfold decimal
  split_ifs
  · rw [List.length_cons]
    omega
  · omega

/-- The negation of the least `int` overflows. -/
theorem itoa_least : Terminal.itoa (-2147483648) = none := by decide

/-- **Integer conversion round trip**: it holds for every `int` but the least one. -/
theorem itoa_roundTrip_iff (n : ℤ) (hmin : -2147483648 ≤ n) (hmax : n ≤ 2147483647) :
    RoundTrip n ↔ n ≠ -2147483648 := by
  constructor
  · rintro h rfl
    exact absurd (itoa_least.symm.trans h.itoa) nofun
  · intro hne
    have hread := atoiChecked_decimal (n := n) (by omega) hmax
    refine ⟨itoa_eq (by omega) hmax, ?_, atoi_of_checked hread, hread⟩
    have hlen := length_decimal hmin hmax
    rw [List.length_append, List.length_singleton, CONVERSION_SIZE]
    omega

theorem itoa_roundTrip_iff_minus : RoundTrip (-2147483647) ↔ (-2147483647 : ℤ) ≠ -2147483648 :=
  itoa_roundTrip_iff (-2147483647) (by decide) (by decide)

theorem not_itoa_roundTrip :
    ¬∀ n : ℤ, -2147483648 ≤ n → n ≤ 2147483647 → RoundTrip n := by
  intro hall
  have h := hall (-2147483648) (by decide) (by decide)
  exact absurd (itoa_least.symm.trans h.itoa) nofun

end OsLabs.Terminal
