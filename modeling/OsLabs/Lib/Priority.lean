import OsLabs.Lib.UnitSchedule

/-!
# Priority schedules of one machine

A schedule follows a priority when the job that runs comes first among the jobs with work left.
What comes first may depend on the work that is left.  A work-conserving schedule that follows a
priority is unique (`eq_of_followsPriority`): up to any tick two of them have done the same work, so
at that tick both are idle or both run the job that comes first.
-/

namespace OsLabs.UnitSchedule

variable {J : Type*} [DecidableEq J]

/-- The job that runs comes before all other jobs with work left. -/
def FollowsPriority (prec : (J → ℕ) → J → J → Prop) (r p : J → ℕ) (S : ℕ → Option J) : Prop :=
  ∀ t j, S t = some j → ∀ k, k ≠ j → 0 < left r p S t k → prec (left r p S t) j k

/-- The work done before a tick depends on the ticks before it only. -/
theorem work_congr {S S' : ℕ → Option J} {t : ℕ} (h : ∀ m < t, S m = S' m) (j : J) :
    work S j t = work S' j t := by
  induction t with
  | zero => simp
  | succ t ih =>
    rw [work_succ, work_succ, ih fun m hm => h m (hm.trans (Nat.lt_succ_self t)),
      h t (Nat.lt_succ_self t)]

section Unique

variable [Fintype J] {prec : (J → ℕ) → J → J → Prop} {r p : J → ℕ} {S S' : ℕ → Option J}

/-- **A work-conserving schedule that follows a priority is unique.** -/
theorem eq_of_followsPriority (hasymm : ∀ α j k, prec α j k → ¬prec α k j)
    (h : Feasible r p S) (hw : WorkConserving r p S) (hp : FollowsPriority prec r p S)
    (h' : Feasible r p S') (hw' : WorkConserving r p S') (hp' : FollowsPriority prec r p S')
    (t : ℕ) : S t = S' t := by
  induction t using Nat.strong_induction_on with
  | _ t ih =>
    -- the same work is left in both
    have hleft : left r p S t = left r p S' t := by
      funext j
      unfold left
      rw [work_congr ih j]
    have hidle := idle_iff h hw h' hw' t
    cases hS : S t with
    | none => exact (hidle.mp hS).symm
    | some j =>
      cases hS' : S' t with
      | none => exact absurd (hidle.mpr hS') (by simp [hS])
      | some k =>
        by_contra hne
        have hkj : k ≠ j := fun heq => hne (by rw [heq])
        have hk := h'.left_pos hS'
        rw [← hleft] at hk
        have hjk := hp t j hS k hkj hk
        have hkj' := hp' t k hS' j hkj.symm (by rw [← hleft]; exact h.left_pos hS)
        rw [← hleft] at hkj'
        exact hasymm _ j k hjk hkj'

end Unique

end OsLabs.UnitSchedule
