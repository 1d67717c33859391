import Mathlib.Data.List.Range
import Mathlib.Data.Nat.ModEq
import Mathlib.Logic.Function.Basic

/-!
# Ring buffers

A ring of `N` slots is a function on slot numbers, of which those below `N` are used, a head and
a count; `read` lists its contents from the head on.  A value stored behind the last one comes
last (`read_push`), and moving the head of a full ring on moves the first value to the end
(`read_rotate`).
-/

namespace OsLabs.Ring

open Function

variable {α : Type*} {N : ℕ} {q q' : ℕ → α} {head count : ℕ}

/-- The contents of the ring, from the head on. -/
def read (N : ℕ) (q : ℕ → α) (head count : ℕ) : List α :=
  (List.range count).map fun j => q ((head + j) % N)

theorem read_succ :
    read N q head (count + 1) = read N q head count ++ [q ((head + count) % N)] := by
  simp [read, List.range_succ]

/-- Only the slots below `N` matter. -/
theorem read_congr (hN : 0 < N) (h : ∀ j < N, q' j = q j) :
    read N q' head count = read N q head count := by
  apply List.map_congr_left
  intro j _
  exact h _ (Nat.mod_lt _ hN)

theorem slot_inj {i j : ℕ} (hi : i < N) (hj : j < N) (h : (head + i) % N = (head + j) % N) :
    i = j := by
  have hmod : i ≡ j [MOD N] := Nat.ModEq.add_left_cancel' head h
  rwa [Nat.ModEq, Nat.mod_eq_of_lt hi, Nat.mod_eq_of_lt hj] at hmod

/-- Storing a value in the slot behind the last one. -/
theorem read_push (hcount : count < N) (v : α) :
    read N (update q ((head + count) % N) v) head (count + 1) = read N q head count ++ [v] := by
  rw [read_succ, update_self]
  congr 1
  apply List.map_congr_left
  intro j hj
  apply update_of_ne
  intro heq
  have hlt := List.mem_range.mp hj
  have := slot_inj (by omega) hcount heq
  omega

/-- The head of a full ring moves on. -/
theorem read_rotate (hhead : head < N) : ∃ rest, read N q head N = q head :: rest ∧
    read N q ((head + 1) % N) N = rest ++ [q head] := by
  obtain ⟨n, rfl⟩ : ∃ n, N = n + 1 := ⟨N - 1, by omega⟩
  refine ⟨read (n + 1) q ((head + 1) % (n + 1)) n, ?_, ?_⟩
  · rw [read, List.range_succ_eq_map, List.map_cons, List.map_map, Nat.add_zero,
      Nat.mod_eq_of_lt hhead]
    congr 1
    apply List.map_congr_left
    intro j _
    show q ((head + (j + 1)) % (n + 1)) = q (((head + 1) % (n + 1) + j) % (n + 1))
    rw [Nat.mod_add_mod, Nat.add_assoc, Nat.add_comm 1 j]
  · rw [read_succ, Nat.mod_add_mod, Nat.add_assoc, Nat.add_comm 1 n, Nat.add_mod_right,
      Nat.mod_eq_of_lt hhead]

end OsLabs.Ring
