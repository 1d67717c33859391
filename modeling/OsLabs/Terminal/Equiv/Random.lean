import OsLabs.Lib.Lcg
import OsLabs.Terminal.InterruptHandler
import Mathlib.Data.Int.CardIntervalMod

/-!
# The numbers of the interrupt lab

`seed` modulo a power of two is a linear congruential generator (`cast_seedAt`), so its `k` low bits
go through all values in every `2 ^ k` steps (`seedAt_bijOn`).  For `k = 31` this counts how often
each number is printed, and for `k = 3` it is the pattern of the numbers modulo 8
(`number_period`).
-/

namespace OsLabs.Terminal.InterruptHandler

open Function

/-- `seed` after `k` calls of `rand`. -/
def seedAt (k : ℕ) : UInt32 := rand^[k] 12345

/-- The number that is printed first, second and so on. -/
def number (k : ℕ) : ℕ := (seedAt (k + 1)).toNat % 1000

theorem toNat_rand (seed : UInt32) :
    (rand seed).toNat = (1103515245 * seed.toNat + 12345) % 2 ^ 31 := by
  unfold rand
  rw [UInt32.toNat_and, UInt32.toNat_add, UInt32.toNat_mul]
  show _ &&& (2 ^ 31 - 1) = _
  rw [Nat.and_two_pow_sub_one_eq_mod]
  show (seed.toNat * 1103515245 % 2 ^ 32 + 12345) % 2 ^ 32 % 2 ^ 31 = _
  omega

theorem seedAt_succ (n : ℕ) : seedAt (n + 1) = rand (seedAt n) := iterate_succ_apply' rand n _

theorem toNat_seedAt_succ_lt (n : ℕ) : (seedAt (n + 1)).toNat < 2 ^ 31 := by
  rw [seedAt_succ, toNat_rand]
  exact Nat.mod_lt _ (by decide)

section LowBits

variable {k : ℕ} (hk : k ≤ 31)

include hk

/-- The low bits of `seed`. -/
theorem cast_seedAt (n : ℕ) : ((seedAt n).toNat : ZMod (2 ^ k))
    = (lcg (1 + 4 * 275878811) (1 + 2 * 6172))^[n] 12345 := by
  have hdvd : 2 ^ k ∣ 2 ^ 31 := pow_dvd_pow 2 hk
  induction n with
  | zero => rfl
  | succ n ih =>
    rw [iterate_succ_apply', ← ih, seedAt_succ, toNat_rand,
      (ZMod.natCast_eq_natCast_iff' _ _ _).mpr (Nat.mod_mod_of_dvd _ hdvd), lcg]
    push_cast
    norm_num

theorem cast_seedAt_add (start i : ℕ) : ((seedAt (start + i)).toNat : ZMod (2 ^ k))
    = (lcg (1 + 4 * 275878811) (1 + 2 * 6172))^[i] ((seedAt start).toNat : ZMod (2 ^ k)) := by
  rw [cast_seedAt hk, cast_seedAt hk, Nat.add_comm, iterate_add_apply]

/-- In any `2 ^ k` successive states the `k` low bits take each value once. -/
theorem seedAt_bijOn (start : ℕ) : Set.BijOn (fun i => (seedAt (start + i)).toNat % 2 ^ k)
    (Set.Iio (2 ^ k)) (Set.Iio (2 ^ k)) := by
  have hbij := lcg_bijective (275878811 : ZMod (2 ^ k)) 6172 ((seedAt start).toNat : ZMod (2 ^ k))
  have hpos : 0 < 2 ^ k := Nat.two_pow_pos k
  refine ⟨fun i _ => Nat.mod_lt _ hpos, ?_, ?_⟩
  · intro i hi j hj h
    have hcast := (ZMod.natCast_eq_natCast_iff' _ _ (2 ^ k)).mpr h
    rw [cast_seedAt_add hk, cast_seedAt_add hk] at hcast
    have heq : (⟨i, hi⟩ : Fin (2 ^ k)) = ⟨j, hj⟩ := hbij.injective hcast
    exact congrArg Fin.val heq
  · intro y hy
    obtain ⟨i, hi⟩ := hbij.surjective (y : ZMod (2 ^ k))
    refine ⟨i, i.isLt, ?_⟩
    dsimp only at hi
    rw [← cast_seedAt_add hk] at hi
    show _ % 2 ^ k = y
    rw [(ZMod.natCast_eq_natCast_iff' _ _ _).mp hi, Nat.mod_eq_of_lt hy]

end LowBits

/-- In any `2 ^ 31` successive states `seed` takes each value once. -/
theorem toNat_seedAt_bijOn (start : ℕ) : Set.BijOn (fun i => (seedAt (start + i + 1)).toNat)
    (Set.Iio (2 ^ 31)) (Set.Iio (2 ^ 31)) := by
  refine (seedAt_bijOn le_rfl (start + 1)).congr fun i _ => ?_
  dsimp only
  rw [Nat.add_right_comm, Nat.mod_eq_of_lt (toNat_seedAt_succ_lt _)]

/-- The `2 ^ 31` values of `seed` are spread over the numbers below 1000. -/
theorem card_number_eq (start : ℕ) {v : ℕ} (hv : v < 1000) :
    (Finset.filter (fun i => number (start + i) = v) (Finset.range (2 ^ 31))).card
      = 2147483 + if v < 648 then 1 else 0 := by
  have hbij := toNat_seedAt_bijOn start
  have hcount : (Finset.filter (fun i => number (start + i) = v) (Finset.range (2 ^ 31))).card
      = (Finset.filter (· ≡ v [MOD 1000]) (Finset.range (2 ^ 31))).card := by
    apply Finset.card_nbij fun i => (seedAt (start + i + 1)).toNat
    · intro i hi
      obtain ⟨hlt, hnumber⟩ := Finset.mem_filter.mp hi
      refine Finset.mem_filter.mpr ⟨Finset.mem_range.mpr (toNat_seedAt_succ_lt _), ?_⟩
      rwa [Nat.ModEq, Nat.mod_eq_of_lt hv]
    · intro i hi j hj h
      exact hbij.injOn (Finset.mem_range.mp (Finset.mem_filter.mp hi).1)
        (Finset.mem_range.mp (Finset.mem_filter.mp hj).1) h
    · intro seed hseed
      obtain ⟨hlt, hmod⟩ := Finset.mem_filter.mp hseed
      obtain ⟨i, hi, rfl⟩ := hbij.surjOn (Finset.mem_range.mp hlt)
      refine ⟨i, Finset.mem_filter.mpr ⟨Finset.mem_range.mpr hi, ?_⟩, rfl⟩
      rwa [Nat.ModEq, Nat.mod_eq_of_lt hv] at hmod
  rw [hcount, ← Nat.count_eq_card_filter_range, Nat.count_modEq_card _ (by decide),
    Nat.mod_eq_of_lt hv]
  norm_num

/-- **The numbers that the interrupt lab prints**: in any `2 ^ 31` successive lines each number
below 1000 is printed 2147483 times, and those below 648 once more; then they start again.  In any
eight successive lines each remainder modulo 8 occurs once, so they alternate between even and
odd. -/
theorem number_period (start : ℕ) :
    (∀ v < 1000, (Finset.filter (fun i => number (start + i) = v) (Finset.range (2 ^ 31))).card
      = 2147483 + if v < 648 then 1 else 0) ∧
    number (start + 2 ^ 31) = number start ∧
    ∀ r < 8, ∃! i, i < 8 ∧ number (start + i) % 8 = r := by
  refine ⟨fun v hv => card_number_eq start hv, ?_, fun r hr => ?_⟩
  · have hcast : ((seedAt (start + 1 + 2 ^ 31)).toNat : ZMod (2 ^ 31))
        = ((seedAt (start + 1)).toNat : ZMod (2 ^ 31)) := by
      rw [cast_seedAt_add le_rfl, lcg_iterate_period]
    have hmod := (ZMod.natCast_eq_natCast_iff' _ _ _).mp hcast
    rw [Nat.add_right_comm, Nat.mod_eq_of_lt (toNat_seedAt_succ_lt _),
      Nat.mod_eq_of_lt (toNat_seedAt_succ_lt _)] at hmod
    rw [number, number, hmod]
  · have hbij := seedAt_bijOn (show 3 ≤ 31 by decide) (start + 1)
    have hmod (i : ℕ) : number (start + i) % 8 = (seedAt (start + 1 + i)).toNat % 2 ^ 3 := by
      rw [number, Nat.add_right_comm start 1, Nat.mod_mod_of_dvd _ (by decide)]
      rfl
    obtain ⟨i, hi, hri⟩ := hbij.surjOn hr
    refine ⟨i, ⟨hi, (hmod i).trans hri⟩, ?_⟩
    rintro j ⟨hj, hrj⟩
    exact hbij.injOn hj hi ((hmod j).symm.trans (hrj.trans hri.symm))

end OsLabs.Terminal.InterruptHandler
