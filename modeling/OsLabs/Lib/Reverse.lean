import Mathlib.Data.List.Induction
import Mathlib.Order.Basic

/-!
# Reversal in place

`reverseLoop start stop l` swaps the elements at `start` and `stop` and goes on inwards, until the
two meet.  It reverses the segment between them and leaves the rest (`reverseLoop_segment`).
-/

namespace OsLabs

variable {α : Type*}

/-- The elements at `i` and `j` swapped. -/
def swapAt (l : List α) (i j : ℕ) : List α :=
  match l[i]?, l[j]? with
  | some a, some b => (l.set i b).set j a
  | _, _ => l

/-- `while (start < stop) { swap; start++; stop--; }` -/
def reverseLoop (start stop : ℕ) (l : List α) : List α :=
  if start < stop then reverseLoop (start + 1) (stop - 1) (swapAt l start stop) else l
termination_by stop - start

theorem swapAt_segment (xs mid zs : List α) (a b : α) :
    swapAt (xs ++ (a :: mid ++ [b]) ++ zs) xs.length (xs.length + mid.length + 1)
      = xs ++ (b :: mid ++ [a]) ++ zs := by
  have hstart : (xs ++ (a :: mid ++ [b]) ++ zs)[xs.length]? = some a := by simp
  have hstop : (xs ++ (a :: mid ++ [b]) ++ zs)[xs.length + mid.length + 1]? = some b := by
    rw [List.append_assoc, Nat.add_assoc, List.getElem?_append_right (by omega)]
    simp
  rw [swapAt, hstart, hstop]
  simp only [List.append_assoc, List.cons_append, List.nil_append]
  rw [List.set_append_right _ _ (Nat.le_refl _), Nat.sub_self, List.set_cons_zero, Nat.add_assoc,
    List.set_append_right _ _ (by omega), Nat.add_sub_cancel_left, List.set_cons_succ,
    List.set_append_right _ _ (Nat.le_refl _), Nat.sub_self, List.set_cons_zero]

/-- The segment between the two indices is reversed. -/
theorem reverseLoop_segment (xs ys zs : List α) :
    reverseLoop xs.length (xs.length + ys.length - 1) (xs ++ ys ++ zs)
      = xs ++ ys.reverse ++ zs := by
  induction ys using List.bidirectionalRec generalizing xs zs with
  | nil =>
    rw [reverseLoop, if_neg (by simp)]
    rfl
  | singleton a =>
    rw [reverseLoop, if_neg (by simp)]
    rfl
  | cons_append a mid b ih =>
    have hstop : xs.length + (a :: (mid ++ [b])).length - 1 = xs.length + mid.length + 1 := by
      simp only [List.length_cons, List.length_append, List.length_nil]
      omega
    have hinner := ih (xs ++ [b]) ([a] ++ zs)
    have hstart' : (xs ++ [b]).length = xs.length + 1 := by simp
    rw [hstart', show xs.length + 1 + mid.length - 1 = xs.length + mid.length + 1 - 1 by omega]
      at hinner
    have hsplit : xs ++ (b :: mid ++ [a]) ++ zs = xs ++ [b] ++ mid ++ ([a] ++ zs) := by simp
    have hjoin : xs ++ (a :: (mid ++ [b])).reverse ++ zs
        = xs ++ [b] ++ mid.reverse ++ ([a] ++ zs) := by simp
    rw [hstop, hjoin, reverseLoop, if_pos (by omega), ← List.cons_append, swapAt_segment, hsplit,
      hinner]

/-- A whole list. -/
theorem reverseLoop_eq (l : List α) : reverseLoop 0 (l.length - 1) l = l.reverse := by
  have h := reverseLoop_segment [] l []
  rwa [List.length_nil, Nat.zero_add, List.nil_append, List.append_nil, List.nil_append,
    List.append_nil] at h

end OsLabs
