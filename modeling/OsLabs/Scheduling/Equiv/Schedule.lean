import OsLabs.Lib.Sequential
import OsLabs.Scheduling.Equiv.Outputs
import Mathlib.Algebra.Order.Field.Basic
import Mathlib.Algebra.Order.Ring.Rat
import Mathlib.Algebra.Order.Ring.Cast

/-!
# The charts as unit-tick schedules

The chart of a run is a schedule of unit ticks in the sense of `Lib.UnitSchedule`: jobs are
threads, released at their arrival.  The charts of all four schedulers are feasible and, as they
see all arrivals, work-conserving, so they are idle at the same ticks (`idle_ticks_agree`).  That
of SRTF runs the shortest job first, so no schedule has a smaller sum of turnarounds
(`srtf_optimal`).
-/

namespace OsLabs.Scheduling

open Function UnitSchedule

variable {n : ℕ} {w : Fin n → Thread} {c : Chart n}

/-! ### The schedule of a chart -/

/-- The schedule of a chart, which is idle after its end. -/
def Chart.sched (c : Chart n) (t : ℕ) : Option (Fin n) := c.getD t none

/-- The release time of a thread. -/
def release (w : Fin n → Thread) (i : Fin n) : ℕ := (w i).arrival.toNat

/-- The work of a thread. -/
def need (w : Fin n → Thread) (i : Fin n) : ℕ := (w i).burst.toNat

theorem need_pos (hburst : ∀ i, 1 ≤ (w i).burst) (i : Fin n) : 0 < need w i := by
  have := hburst i
  unfold need
  omega

theorem Chart.sched_of_lt {d : Chart n} {t : ℕ} (ht : t < d.length) :
    d[t]? = some (d.sched t) :=
  getElem?_eq_ofChart ht

theorem Chart.sched_of_ge {t : ℕ} (ht : c.length ≤ t) : c.sched t = none :=
  ofChart_of_ge ht

theorem Chart.lt_of_sched {t : ℕ} {i : Fin n} (h : c.sched t = some i) : t < c.length :=
  lt_of_ofChart h

/-- The ticks a thread got are counted along the chart. -/
theorem work_sched (c : Chart n) (i : Fin n) (t : ℕ) :
    work c.sched i t = (c.take t).count (some i) :=
  work_ofChart c i t

theorem shortestFirst_sched (hs : Along (Shortest w) c) :
    ShortestFirst (release w) (need w) c.sched := by
  intro t i hrun j hleft
  have ht := Chart.lt_of_sched hrun
  have hget := Chart.sched_of_lt ht
  rw [hrun] at hget
  have hlen : (c.take t).length = t := List.length_take_of_le ht.le
  unfold left release need at hleft ⊢
  rw [work_sched] at hleft ⊢
  rw [work_sched]
  split at hleft
  · rename_i harr
    have hle := hs t _ hget i rfl j (by omega) (by omega)
    split <;> omega
  · omega

section Final

variable {out : Output n} (h : Final w c out)

include h

theorem Final.feasible : Feasible (release w) (need w) c.sched where
  released t i hrun := by
    have ht := Chart.lt_of_sched hrun
    have hget := Chart.sched_of_lt ht
    rw [hrun] at hget
    have harr := h.released t _ hget i rfl
    have := List.length_take_le t c
    unfold release
    omega
  work_le t i := by
    rw [work_sched]
    have hle := (List.take_sublist t c).count_le (some i)
    have := h.complete i
    unfold need
    omega

theorem Final.workConserving (hc : Along (Conserving w) c) :
    WorkConserving (release w) (need w) c.sched := by
  intro t hidle i
  have hcount := h.complete i
  unfold left release need
  rw [work_sched]
  split
  · rename_i harr
    rcases Nat.lt_or_ge t c.length with ht | ht
    · have hget := Chart.sched_of_lt ht
      rw [hidle] at hget
      have hlen : (c.take t).length = t := List.length_take_of_le ht.le
      have hdone := hc t none hget rfl i (by omega)
      omega
    · rw [List.take_of_length_le ht]
      omega
  · rfl

/-- A thread is done at the end of its last tick. -/
theorem Final.isCompletion (hburst : ∀ i, 1 ≤ (w i).burst) (i : Fin n) :
    IsCompletion (need w) c.sched i (out.threads i).finish.toNat := by
  have hcount := h.complete i
  have hmem : some i ∈ c.reverse := by
    rw [List.mem_reverse]
    apply List.count_pos_iff.mp
    have := hburst i
    omega
  -- the chart around that tick
  obtain ⟨after, before, hsplit, hnot⟩ := List.eq_append_cons_of_mem hmem
  have hchart : c = before.reverse ++ some i :: after.reverse := by
    rw [← List.reverse_inj, hsplit]
    simp
  have hfinish : (out.threads i).finish.toNat = before.length + 1 := by
    rw [(h.reported i).finish, lastTick, hsplit, List.idxOf_append_of_notMem hnot,
      List.idxOf_cons_self, hchart]
    simp
    omega
  have hnone : after.reverse.count (some i) = 0 := by
    rw [List.count_eq_zero, List.mem_reverse]
    exact hnot
  have htotal : before.reverse.count (some i) + 1 = need w i := by
    rw [hchart, List.count_append, List.count_cons_self, hnone] at hcount
    unfold need
    omega
  rw [hfinish]
  refine ⟨?_, fun t ht => ?_⟩
  · have htake : c.take (before.length + 1) = before.reverse ++ [some i] := by
      rw [hchart, List.append_cons]
      exact List.take_left' (by simp)
    rw [work_sched, htake, List.count_append, List.count_singleton_self]
    exact htotal
  · have hle : t ≤ before.reverse.length := by
      rw [List.length_reverse]
      omega
    rw [work_sched, hchart, List.take_append_of_le_length hle]
    have := (List.take_sublist t before.reverse).count_le (some i)
    omega

end Final

/-! ### Idle ticks -/

/-- The idle ticks of the Gantt chart. -/
theorem Final.runsAt_idle_iff {out : Output n} (h : Final w c out) (hid : ∀ i, (w i).id ≠ -1)
    {t : ℤ} : RunsAt out.gantt (-1) t ↔ 0 ≤ t ∧ t < c.length ∧ c.sched t.toNat = none := by
  have hown (x : Option (Fin n)) (hx : owner w x = owner w none) : x = none := by
    cases x with
    | none => rfl
    | some i => exact absurd hx (hid i)
  have hruns := h.runsAt_owner_iff hown (t := t)
  constructor
  · intro hidle
    obtain ⟨hnonneg, hget⟩ := hruns.mp hidle
    obtain ⟨hlt, -⟩ := List.getElem?_eq_some_iff.mp hget
    rw [Chart.sched_of_lt hlt] at hget
    exact ⟨hnonneg, by omega, Option.some.inj hget⟩
  · rintro ⟨hnonneg, hlt, hnone⟩
    refine hruns.mpr ⟨hnonneg, ?_⟩
    rw [Chart.sched_of_lt (by omega), hnone]

/-- A thread is finished when it has all its ticks. -/
theorem Final.finish_le_iff {out : Output n} (h : Final w c out) (hburst : ∀ i, 1 ≤ (w i).burst)
    (i : Fin n) (t : ℕ) :
    (out.threads i).finish ≤ t ↔ need w i ≤ work c.sched i t := by
  have hdone := h.isCompletion hburst i
  constructor
  · intro hle
    rw [← hdone.done]
    exact work_mono _ i (by omega)
  · intro hneed
    by_contra hlt
    have := hdone.first t (by omega)
    omega

/-- A tick is idle if and only if every thread that has arrived by then is finished. -/
theorem Final.idle_iff {out : Output n} (h : Final w c out) (hc : Along (Conserving w) c)
    (hburst : ∀ i, 1 ≤ (w i).burst) (t : ℕ) :
    c.sched t = none ↔ ∀ i, (w i).arrival ≤ t → (out.threads i).finish ≤ t := by
  rw [(h.workConserving hc).idle_iff_left h.feasible, Finset.sum_eq_zero_iff]
  refine ⟨fun hleft i harr => ?_, fun hall i _ => ?_⟩
  · have hzero := hleft i (Finset.mem_univ i)
    rw [left, if_pos (by unfold release; omega)] at hzero
    exact (h.finish_le_iff hburst i t).mpr (by omega)
  · unfold left
    split
    · rename_i harr
      have hle := (h.finish_le_iff hburst i t).mp (hall i (by unfold release at harr; omega))
      omega
    · rfl

/-- Charts that are idle at the same ticks have the same length. -/
theorem Chart.length_le {c c' : Chart n} (hends : c'.getLast? ≠ some none)
    (hidle : ∀ t, c.sched t = none ↔ c'.sched t = none) : c'.length ≤ c.length := by
  by_contra hlt
  have hlast : c'.length - 1 < c'.length := by omega
  have hnone : c'.sched (c'.length - 1) = none :=
    (hidle _).mp (Chart.sched_of_ge (by omega))
  apply hends
  rw [List.getLast?_eq_getElem?, Chart.sched_of_lt hlast, hnone]

/-- **All four schedulers are work-conserving**, and so agree on when the CPU is idle. -/
theorem idle_ticks_agree (w : Fin n → Thread) (hw : Workload w) (hid : ∀ i, (w i).id ≠ -1) :
    (∀ alg : Algorithm, ∃ fuel out, alg.sched fuel w = some out) ∧
    (∀ (alg : Algorithm) fuel out, alg.sched fuel w = some out →
      ∀ t, 0 ≤ t → t < makespan out.gantt →
        (RunsAt out.gantt (-1) t ↔ ∀ i, (w i).arrival ≤ t → (out.threads i).finish ≤ t)) ∧
    ∀ (alg alg' : Algorithm) fuel fuel' out out',
      alg.sched fuel w = some out → alg'.sched fuel' w = some out' →
        slotsOf (-1) out.gantt = slotsOf (-1) out'.gantt ∧
          makespan out.gantt = makespan out'.gantt := by
  refine ⟨fun alg => alg.terminates hw.burst (hw.sees alg),
    fun alg fuel out hout t hnonneg hlt => ?_, fun alg alg' fuel fuel' out out' hout hout' => ?_⟩
  · obtain ⟨c, h, hcons⟩ := alg.final hw.burst hout
    lift t to ℕ using hnonneg
    rw [h.tiles.makespan_eq, Nat.cast_lt] at hlt
    rw [h.runsAt_idle_iff hid, ← h.idle_iff (hcons (hw.sees alg)) hw.burst t, Int.toNat_natCast]
    simp [hlt]
  · obtain ⟨c, h, hcons⟩ := alg.final hw.burst hout
    obtain ⟨c', h', hcons'⟩ := alg'.final hw.burst hout'
    have hidle := idle_iff h.feasible (h.workConserving (hcons (hw.sees alg))) h'.feasible
      (h'.workConserving (hcons' (hw.sees alg')))
    have hlen : c.length = c'.length :=
      le_antisymm (Chart.length_le h.ends fun t => (hidle t).symm) (Chart.length_le h'.ends hidle)
    refine ⟨slotsOf_eq h.tiles h.merged h'.tiles h'.merged fun t => ?_, ?_⟩
    · rw [h.runsAt_idle_iff hid, h'.runsAt_idle_iff hid, hidle, hlen]
    · rw [h.tiles.makespan_eq, h'.tiles.makespan_eq, hlen]

theorem idle_ticks_agree_two :
    (∀ alg : Algorithm, ∃ fuel out, alg.sched fuel (orig ![2, 1] ![1, 5]) = some out) ∧
    (∀ (alg : Algorithm) fuel out, alg.sched fuel (orig ![2, 1] ![1, 5]) = some out →
      ∀ t, 0 ≤ t → t < makespan out.gantt →
        (RunsAt out.gantt (-1) t ↔
          ∀ i, (orig ![2, 1] ![1, 5] i).arrival ≤ t → (out.threads i).finish ≤ t)) ∧
    ∀ (alg alg' : Algorithm) fuel fuel' out out',
      alg.sched fuel (orig ![2, 1] ![1, 5]) = some out →
        alg'.sched fuel' (orig ![2, 1] ![1, 5]) = some out' →
          slotsOf (-1) out.gantt = slotsOf (-1) out'.gantt ∧
            makespan out.gantt = makespan out'.gantt :=
  idle_ticks_agree (orig ![2, 1] ![1, 5]) (orig_workload (by decide) (by decide)) (by decide)

/-! ### Optimality -/

/-- A schedule of the workload in unit ticks, preemptive or not, and when it completes each
thread. -/
structure IsSchedule (w : Fin n → Thread) (S : ℕ → Option (Fin n)) (completion : Fin n → ℕ) :
    Prop where
  /-- Only arrived threads run. -/
  arrived : ∀ t i, S t = some i → (w i).arrival ≤ t
  /-- The completion is the end of the last tick. -/
  last : ∀ i, IsGreatest {e | ∃ t, S t = some i ∧ e = t + 1} (completion i)
  /-- Every thread gets exactly its burst. -/
  burst : ∀ i, (Nat.count (fun t => S t = some i) (completion i) : ℤ) = (w i).burst

theorem IsSchedule.work_le {S : ℕ → Option (Fin n)} {completion : Fin n → ℕ}
    (h : IsSchedule w S completion) (i : Fin n) (t : ℕ) :
    work S i t ≤ work S i (completion i) := by
  rcases Nat.le_total t (completion i) with hle | hge
  · exact work_mono S i hle
  · induction t, hge using Nat.le_induction with
    | base => exact le_rfl
    | succ t hge ih =>
      have hnot : S t ≠ some i := fun hrun => by
        have := (h.last i).2 ⟨t, hrun, rfl⟩
        omega
      rw [work_succ, if_neg hnot, Nat.add_zero]
      exact ih

theorem IsSchedule.feasible {S : ℕ → Option (Fin n)} {completion : Fin n → ℕ}
    (h : IsSchedule w S completion) : Feasible (release w) (need w) S where
  released t i hrun := by
    have := h.arrived t i hrun
    unfold release
    omega
  work_le t i := by
    have hle := h.work_le i t
    have hburst := h.burst i
    unfold work at hle
    unfold need work
    omega

theorem IsSchedule.isCompletion {S : ℕ → Option (Fin n)} {completion : Fin n → ℕ}
    (h : IsSchedule w S completion) (i : Fin n) : IsCompletion (need w) S i (completion i) := by
  have hburst : work S i (completion i) = need w i := by
    have := h.burst i
    unfold need work
    omega
  refine ⟨hburst, fun t ht => ?_⟩
  obtain ⟨last, hrun, heq⟩ := (h.last i).1
  have hle := work_mono S i (show t ≤ last by omega)
  have hsucc := work_succ S i last
  rw [if_pos hrun, ← heq] at hsucc
  omega

/-- The chart of a run is a schedule, with the completions it reports. -/
theorem Final.isSchedule {out : Output n} (h : Final w c out) (hburst : ∀ i, 1 ≤ (w i).burst) :
    IsSchedule w c.sched (fun i => (out.threads i).finish.toNat) where
  arrived t i hrun := by
    have := h.feasible.released t i hrun
    unfold release at this
    omega
  last i := by
    have hcomp := h.isCompletion hburst i
    have hneed := need_pos hburst i
    have hdone := hcomp.done
    constructor
    · obtain ⟨m, hm⟩ : ∃ m, (out.threads i).finish.toNat = m + 1 := by
        apply Nat.exists_eq_add_one_of_ne_zero
        intro hzero
        rw [hzero, work_zero] at hdone
        omega
      -- the thread is unfinished before tick `m`
      have hbefore := hcomp.first m (by omega)
      rw [hm, work_succ] at hdone
      refine ⟨m, ?_, hm⟩
      by_contra hnot
      rw [if_neg hnot] at hdone
      omega
    · rintro e ⟨t, hrun, rfl⟩
      by_contra hlt
      have hmore := work_succ c.sched i t
      rw [if_pos hrun] at hmore
      have := work_mono c.sched i (show (out.threads i).finish.toNat ≤ t by omega)
      have := h.feasible.work_le (t + 1) i
      omega
  burst i := by
    have hdone := (h.isCompletion hburst i).done
    have := hburst i
    unfold work need at hdone
    omega

theorem Final.finish_nonneg {out : Output n} (h : Final w c out) (i : Fin n) :
    0 ≤ (out.threads i).finish := by
  rw [(h.reported i).finish, lastTick]
  have := List.idxOf_le_length (a := some i) (l := c.reverse)
  rw [List.length_reverse] at this
  omega

theorem Final.turnaround_eq {out : Output n} (h : Final w c out) (i : Fin n) :
    (out.threads i).turnaround = ((out.threads i).finish.toNat : ℤ) - (w i).arrival := by
  rw [(h.reported i).turnaround, Int.toNat_of_nonneg (h.finish_nonneg i)]

theorem Final.waiting_eq {out : Output n} (h : Final w c out) (i : Fin n) :
    (out.threads i).waiting = (out.threads i).turnaround - (w i).burst := (h.reported i).waiting

/-- A work-conserving chart that runs the shortest thread has the smallest sums. -/
theorem Final.sum_waiting_le {out : Output n} (h : Final w c out) (hburst : ∀ i, 1 ≤ (w i).burst)
    (hc : Along (Conserving w) c) (hs : Along (Shortest w) c) {S : ℕ → Option (Fin n)}
    {completion : Fin n → ℕ} (hS : Feasible (release w) (need w) S)
    (hcompletion : ∀ i, IsCompletion (need w) S i (completion i)) :
    ∑ i, (out.threads i).turnaround ≤ ∑ i, ((completion i : ℤ) - (w i).arrival) ∧
      ∑ i, (out.threads i).waiting
        ≤ ∑ i, ((completion i : ℤ) - (w i).arrival - (w i).burst) := by
  have hsum : ∑ i, (out.threads i).finish.toNat ≤ ∑ i, completion i :=
    sum_completion_le (need_pos hburst) h.feasible (h.workConserving hc) (shortestFirst_sched hs) hS
      (h.isCompletion hburst) hcompletion
  have hcast : ∑ i, ((out.threads i).finish.toNat : ℤ) ≤ ∑ i, (completion i : ℤ) := by
    exact_mod_cast hsum
  simp only [h.waiting_eq, h.turnaround_eq, Finset.sum_sub_distrib]
  omega

/-- **SRTF is optimal**: no schedule has a smaller sum of turnarounds, or of waiting times. -/
theorem srtf_optimal (w : Fin n → Thread) (hburst : ∀ i, 1 ≤ (w i).burst) :
    (∃ fuel out, schedulerSrtf fuel w = some out) ∧
    ∀ fuel out, schedulerSrtf fuel w = some out →
      (∀ S completion, IsSchedule w S completion →
        ∑ i, (out.threads i).turnaround ≤ ∑ i, ((completion i : ℤ) - (w i).arrival) ∧
        ∑ i, (out.threads i).waiting
          ≤ ∑ i, ((completion i : ℤ) - (w i).arrival - (w i).burst)) ∧
      ∀ (alg : Algorithm) fuel' out', alg.sched fuel' w = some out' →
        ∑ i, (out.threads i).turnaround ≤ ∑ i, (out'.threads i).turnaround ∧
        ∑ i, (out.threads i).waiting ≤ ∑ i, (out'.threads i).waiting ∧
        out.stats.avgTurnaround ≤ out'.stats.avgTurnaround ∧
        out.stats.avgWaiting ≤ out'.stats.avgWaiting := by
  refine ⟨Algorithm.srtf.terminates hburst fun _ => trivial, fun fuel out hout => ?_⟩
  obtain ⟨c, h, hcons, hshort⟩ := schedulerSrtf_final hburst hout
  have hbest (S : ℕ → Option (Fin n)) (completion : Fin n → ℕ) (hS : IsSchedule w S completion) :
      ∑ i, (out.threads i).turnaround ≤ ∑ i, ((completion i : ℤ) - (w i).arrival) ∧
      ∑ i, (out.threads i).waiting
        ≤ ∑ i, ((completion i : ℤ) - (w i).arrival - (w i).burst) :=
    h.sum_waiting_le hburst hcons hshort hS.feasible hS.isCompletion
  refine ⟨hbest, fun alg fuel' out' hout' => ?_⟩
  obtain ⟨c', h', -⟩ := alg.final hburst hout'
  obtain ⟨hturn, hwait⟩ := hbest _ _ (h'.isSchedule hburst)
  simp only [← h'.turnaround_eq, ← h'.waiting_eq] at hturn hwait
  refine ⟨hturn, hwait, ?_, ?_⟩ <;> rw [h.stats, h'.stats]
  · exact div_le_div_of_nonneg_right (Int.cast_le.mpr hturn) (Nat.cast_nonneg n)
  · exact div_le_div_of_nonneg_right (Int.cast_le.mpr hwait) (Nat.cast_nonneg n)

theorem srtf_optimal_two :
    (∃ fuel out, schedulerSrtf fuel (orig ![3, 1] ![0, 1]) = some out) ∧
    ∀ fuel out, schedulerSrtf fuel (orig ![3, 1] ![0, 1]) = some out →
      (∀ S completion, IsSchedule (orig ![3, 1] ![0, 1]) S completion →
        ∑ i, (out.threads i).turnaround
          ≤ ∑ i, ((completion i : ℤ) - (orig ![3, 1] ![0, 1] i).arrival) ∧
        ∑ i, (out.threads i).waiting
          ≤ ∑ i, ((completion i : ℤ) - (orig ![3, 1] ![0, 1] i).arrival
            - (orig ![3, 1] ![0, 1] i).burst)) ∧
      ∀ (alg : Algorithm) fuel' out', alg.sched fuel' (orig ![3, 1] ![0, 1]) = some out' →
        ∑ i, (out.threads i).turnaround ≤ ∑ i, (out'.threads i).turnaround ∧
        ∑ i, (out.threads i).waiting ≤ ∑ i, (out'.threads i).waiting ∧
        out.stats.avgTurnaround ≤ out'.stats.avgTurnaround ∧
        out.stats.avgWaiting ≤ out'.stats.avgWaiting :=
  srtf_optimal (orig ![3, 1] ![0, 1]) (by decide)

end OsLabs.Scheduling
