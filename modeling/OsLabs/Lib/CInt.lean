import Mathlib.Algebra.Order.Group.Unbundled.Int
import Mathlib.Data.UInt

/-!
# Conversions to narrow signed integers

`int8 x`, `int16 x` and `int32 x` are the values of an integer `x` after the conversion to an 8-bit,
a 16-bit and a 32-bit signed type, with the usual wrap-around.
-/

namespace OsLabs

/-- `(int8_t)x` -/
def int8 (x : ℤ) : ℤ := Int.bmod x 256

/-- `(int16_t)x` -/
def int16 (x : ℤ) : ℤ := Int.bmod x 65536

/-- `(int32_t)x` -/
def int32 (x : ℤ) : ℤ := Int.bmod x 4294967296

theorem int8_of_lt {x : ℤ} (h0 : 0 ≤ x) (h : x < 128) : int8 x = x := by
  rw [int8, Int.bmod_def]
  split_ifs <;> omega

/-- The upper half of the unsigned range becomes negative. -/
theorem int8_of_ge {x : ℤ} (h0 : 128 ≤ x) (h : x < 256) : int8 x = x - 256 := by
  rw [int8, Int.bmod_def]
  split_ifs <;> omega

theorem int16_of_lt {x : ℤ} (h0 : 0 ≤ x) (h : x < 32768) : int16 x = x := by
  rw [int16, Int.bmod_def]
  split_ifs <;> omega

theorem int32_of_lt {x : ℤ} (h0 : 0 ≤ x) (h : x < 2147483648) : int32 x = x := by
  rw [int32, Int.bmod_def]
  split_ifs <;> omega

theorem toNat_ofInt_of_lt {x : ℤ} (h0 : 0 ≤ x) (h : x < 256) :
    (UInt8.ofInt x).toNat = x.toNat := by
  unfold UInt8.ofInt
  rw [UInt8.toNat_ofNat']
  omega

end OsLabs
