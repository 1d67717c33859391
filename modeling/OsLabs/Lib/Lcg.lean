import Mathlib.Data.ZMod.Basic
import Mathlib.Logic.Function.Iterate
import Mathlib.Tactic.Ring

/-!
# Linear congruential generators

`lcg a c` is the map `x ↦ a * x + c` of a commutative ring.  When `a` is 1 modulo 4 and `c` is 1
modulo 2, `2 ^ k` steps add `2 ^ k` to a state modulo `2 ^ (k + 1)` (`lcg_two_pow`).  Going from one
power of two to the next, the generator therefore comes from any state to any other in fewer than
`2 ^ k` steps modulo `2 ^ k` (`lcg_reaches_mod`), and to the state itself where `2 ^ k` is zero
(`lcg_reaches`), as in the integers modulo `2 ^ k` (`lcg_bijective`).
-/

namespace OsLabs

open Function

variable {R : Type*} [CommRing R]

/-- The next state of the generator. -/
def lcg (a c x : R) : R := a * x + c

section Reaches

variable (t s : R)

/-- The map after `2 ^ k` steps is of the same kind, with a multiplier closer to 1. -/
theorem lcg_iterate_two_pow (k : ℕ) :
    ∃ t' s', ∀ x, (lcg (1 + 4 * t) (1 + 2 * s))^[2 ^ k] x
      = (1 + 2 ^ (k + 2) * t') * x + 2 ^ k * (1 + 2 * s') := by
  induction k with
  | zero =>
    refine ⟨t, s, fun x => ?_⟩
    show (1 + 4 * t) * x + (1 + 2 * s) = _
    ring
  | succ k ih =>
    obtain ⟨t', s', hk⟩ := ih
    refine ⟨t' + 2 ^ (k + 1) * t' ^ 2, s' + 2 ^ k * t' * (1 + 2 * s'), fun x => ?_⟩
    rw [pow_succ, mul_two, iterate_add_apply, hk, hk]
    ring

theorem lcg_two_pow (k : ℕ) (x : R) :
    ∃ m, (lcg (1 + 4 * t) (1 + 2 * s))^[2 ^ k] x = x + 2 ^ k + 2 ^ (k + 1) * m := by
  obtain ⟨t', s', hk⟩ := lcg_iterate_two_pow t s k
  refine ⟨s' + 2 * t' * x, ?_⟩
  rw [hk]
  ring

/-- Any state is reached from any other modulo `2 ^ k`, in a ring whose elements are even or
odd. -/
theorem lcg_reaches_mod (hparity : ∀ e : R, ∃ d, e = 2 * d ∨ e = 2 * d + 1) (x y : R) (k : ℕ) :
    ∃ n < 2 ^ k, ∃ m, y = (lcg (1 + 4 * t) (1 + 2 * s))^[n] x + 2 ^ k * m := by
  induction k with
  | zero =>
    refine ⟨0, Nat.one_pos, y - x, ?_⟩
    show y = x + _
    ring
  | succ k ih =>
    obtain ⟨n, hn, m, hm⟩ := ih
    obtain ⟨d, hd | hd⟩ := hparity m
    · refine ⟨n, by omega, d, ?_⟩
      rw [hm, hd]
      ring
    · -- the state differs in bit `k`, which `2 ^ k` more steps change
      obtain ⟨e, he⟩ := lcg_two_pow t s k ((lcg (1 + 4 * t) (1 + 2 * s))^[n] x)
      refine ⟨2 ^ k + n, by omega, d - e, ?_⟩
      rw [iterate_add_apply, he, hm, hd]
      ring

/-- **Full period**: where `2 ^ k` is zero, any state is reached from any other in fewer than
`2 ^ k` steps. -/
theorem lcg_reaches (hparity : ∀ e : R, ∃ d, e = 2 * d ∨ e = 2 * d + 1) {k : ℕ}
    (hk : (2 : R) ^ k = 0) (x y : R) :
    ∃ n < 2 ^ k, (lcg (1 + 4 * t) (1 + 2 * s))^[n] x = y := by
  obtain ⟨n, hn, m, hm⟩ := lcg_reaches_mod t s hparity x y k
  refine ⟨n, hn, ?_⟩
  rw [hm, hk]
  ring

end Reaches

/-! ### Modulo a power of two -/

section ZMod

variable {k : ℕ}

theorem zmod_two_pow : (2 : ZMod (2 ^ k)) ^ k = 0 := by
  have h := ZMod.natCast_self (2 ^ k)
  push_cast at h
  exact h

theorem zmod_parity (e : ZMod (2 ^ k)) : ∃ d, e = 2 * d ∨ e = 2 * d + 1 := by
  have hne : NeZero (2 ^ k) := ⟨pow_ne_zero k two_ne_zero⟩
  obtain ⟨m, rfl⟩ : ∃ m : ℕ, (m : ZMod (2 ^ k)) = e := ⟨e.val, ZMod.natCast_zmod_val e⟩
  obtain ⟨d, rfl | rfl⟩ := m.even_or_odd'
  · exact ⟨d, .inl (by push_cast; rfl)⟩
  · exact ⟨d, .inr (by push_cast; rfl)⟩

variable (t s x : ZMod (2 ^ k))

/-- In any `2 ^ k` successive states each value occurs once. -/
theorem lcg_bijective :
    Bijective fun n : Fin (2 ^ k) => (lcg (1 + 4 * t) (1 + 2 * s))^[n.val] x := by
  have hne : NeZero (2 ^ k) := ⟨pow_ne_zero k two_ne_zero⟩
  refine (Fintype.bijective_iff_surjective_and_card _).mpr ⟨?_, ?_⟩
  · intro y
    obtain ⟨n, hn, hy⟩ := lcg_reaches t s zmod_parity zmod_two_pow x y
    exact ⟨⟨n, hn⟩, hy⟩
  · rw [Fintype.card_fin, ZMod.card]

/-- After `2 ^ k` steps the generator starts again. -/
theorem lcg_iterate_period : (lcg (1 + 4 * t) (1 + 2 * s))^[2 ^ k] x = x := by
  obtain ⟨m, hm⟩ := lcg_two_pow t s k x
  rw [hm, pow_succ, zmod_two_pow]
  ring

end ZMod

end OsLabs
