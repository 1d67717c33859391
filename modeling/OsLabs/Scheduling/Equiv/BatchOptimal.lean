import OsLabs.Scheduling.Equiv.Policy
import Mathlib.Algebra.BigOperators.Fin

/-!
# SJF is optimal for batch workloads

When all threads arrive at the same time, `totalWaiting` is what they wait in total when they are
run through one after another, in some order.  SJF always runs the thread with the least work left,
so its total is the smallest over all orders (`sjf_batch_optimal`); the comparison is that of
`Lib.UnitSchedule`, which covers all schedules of unit ticks.
-/

namespace OsLabs.Scheduling

open Function UnitSchedule

variable {n : ℕ} {w : Fin n → Thread} {c : Chart n}

/-- The total waiting time when the threads of a list are run to completion one after another, from
time `t` on and without idling. -/
def totalWaiting (w : Fin n → Thread) : ℤ → List (Fin n) → ℤ
  | _, [] => 0
  | t, i :: l => (t - (w i).arrival) + totalWaiting w (t + (w i).burst) l

/-- Running the least work left is running the shortest thread. -/
theorem Along.shortest (h : Along (LeastLeft w) c) : Along (Shortest w) c := by
  intro k x hx i hi j harr hleft
  rcases h k x hx i hi j harr hleft with hlt | ⟨heq, -⟩
  · exact hlt.le
  · exact heq.le

section Order

variable {a : ℤ} {l : List (Fin n)} {completion : Fin n → ℕ} (hburst : ∀ i, 1 ≤ (w i).burst)
  (hsame : ∀ i, (w i).arrival = a) (hnd : l.Nodup)
  (hcompletion : ∀ i ∈ l, IsCompletion (need w) (ofChart (sequential (release w) (need w) l)) i
    (completion i))

include hburst hsame hnd hcompletion

/-- The total waiting time of the last threads of an order, by their completions. -/
theorem totalWaiting_eq {pre suf : List (Fin n)} (hl : l = pre ++ suf) :
    totalWaiting w (max (finishAfter (release w) (need w) pre) a) suf
      = (suf.map fun i => (completion i : ℤ) - (w i).arrival - (w i).burst).sum := by
  induction suf generalizing pre with
  | nil => rfl
  | cons i suf ih =>
    have hdone := hcompletion i (by rw [hl]; exact List.mem_append_right _ List.mem_cons_self)
    rw [hl] at hdone hnd
    have hlast := hdone.unique (isCompletion_sequential hnd (need_pos hburst i))
    have hnext : totalWaiting w (max (finishAfter (release w) (need w) (pre ++ [i])) a) suf
        = (suf.map fun i => (completion i : ℤ) - (w i).arrival - (w i).burst).sum :=
      ih (by rw [hl, List.append_cons])
    have hneed : (need w i : ℤ) = (w i).burst := Int.toNat_of_nonneg (by have := hburst i; omega)
    have hrelease : (release w i : ℤ) = max a 0 := by rw [release, hsame i, Int.ofNat_toNat]
    have harr := hsame i
    -- the next thread starts when this one is completed
    have htime : max ((finishAfter (release w) (need w) pre : ℤ)) a + (w i).burst
        = max (finishAfter (release w) (need w) (pre ++ [i]) : ℤ) a := by
      rw [finishAfter_concat]
      omega
    rw [finishAfter_concat] at hlast
    rw [totalWaiting, htime, hnext, List.map_cons, List.sum_cons]
    omega

end Order

/-- **SJF is optimal for batch workloads**: no order of the threads has a smaller total waiting
time, and in particular not that of FIFO. -/
theorem sjf_batch_optimal (w : Fin n → Thread) (hburst : ∀ i, 1 ≤ (w i).burst) (a : ℤ)
    (hsame : ∀ i, (w i).arrival = a) :
    (∃ fuel out, schedulerSjf fuel w = some out) ∧
    ∀ fuel out, schedulerSjf fuel w = some out →
      (∀ l : List (Fin n), l.Perm (List.finRange n) →
        ∑ i, (out.threads i).waiting ≤ totalWaiting w (max 0 a) l) ∧
      (a < 999999 → ∃ fuel' out', schedulerFifo fuel' w = some out') ∧
      ∀ fuel' out', schedulerFifo fuel' w = some out' →
        ∑ i, (out.threads i).waiting ≤ ∑ i, (out'.threads i).waiting := by
  refine ⟨Algorithm.sjf.terminates hburst fun _ => trivial, fun fuel out hout => ?_⟩
  obtain ⟨c, h, hcons, hleast⟩ :=
    schedulerSjf_leastLeft hburst (fun i j => (hsame i).trans (hsame j).symm) hout
  refine ⟨fun l hl => ?_, fun hlt => ?_, fun fuel' out' hout' => ?_⟩
  · have hnd : l.Nodup := hl.nodup_iff.mpr (List.nodup_finRange n)
    -- the order as a schedule of unit ticks
    have hexists (i : Fin n) :
        ∃ e, IsCompletion (need w) (ofChart (sequential (release w) (need w) l)) i e := by
      obtain ⟨pre, suf, rfl⟩ := List.append_of_mem (hl.mem_iff.mpr (List.mem_finRange i))
      exact ⟨_, isCompletion_sequential hnd (need_pos hburst i)⟩
    choose completion hcompletion using hexists
    have hwait := (h.sum_waiting_le hburst hcons hleast.shortest (feasible_sequential hnd)
      hcompletion).2
    have htotal :=
      totalWaiting_eq hburst hsame hnd (fun i _ => hcompletion i) (List.nil_append l).symm
    calc ∑ i, (out.threads i).waiting
        ≤ ∑ i, ((completion i : ℤ) - (w i).arrival - (w i).burst) := hwait
      _ = ((List.finRange n).map fun i => (completion i : ℤ) - (w i).arrival - (w i).burst).sum :=
          Fin.sum_univ_def _
      _ = (l.map fun i => (completion i : ℤ) - (w i).arrival - (w i).burst).sum :=
          (hl.symm.map _).sum_eq
      _ = totalWaiting w (max 0 a) l := htotal.symm
  · exact Algorithm.fifo.terminates hburst fun i => (hsame i).trans_lt hlt
  · obtain ⟨c', h', -⟩ := Algorithm.fifo.final hburst hout'
    have hwait := (h.sum_waiting_le hburst hcons hleast.shortest h'.feasible
      (h'.isCompletion hburst)).2
    simp only [← h'.turnaround_eq, ← h'.waiting_eq] at hwait
    exact hwait

theorem sjf_batch_optimal_two :
    (∃ fuel out, schedulerSjf fuel (orig ![3, 1] ![2, 2]) = some out) ∧
    ∀ fuel out, schedulerSjf fuel (orig ![3, 1] ![2, 2]) = some out →
      (∀ l : List (Fin 2), l.Perm (List.finRange 2) →
        ∑ i, (out.threads i).waiting ≤ totalWaiting (orig ![3, 1] ![2, 2]) (max 0 2) l) ∧
      ((2 : ℤ) < 999999 → ∃ fuel' out', schedulerFifo fuel' (orig ![3, 1] ![2, 2]) = some out') ∧
      ∀ fuel' out', schedulerFifo fuel' (orig ![3, 1] ![2, 2]) = some out' →
        ∑ i, (out.threads i).waiting ≤ ∑ i, (out'.threads i).waiting :=
  sjf_batch_optimal (orig ![3, 1] ![2, 2]) (by decide) 2 (by decide)

end OsLabs.Scheduling
