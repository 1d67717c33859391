import OsLabs.Scheduling.Equiv.Schedule
import Mathlib.Data.Nat.Count

/-!
# Reported times and the Gantt chart

The schedulers compute `waiting` at dispatch (FIFO, SJF) or at completion (RR, SRTF), with two
different formulas.  Both are the number of ticks between a thread's arrival and its completion in
which the chart does not show it (`Final.waiting_eq_waitedTicks`): in that time the CPU is never
idle, so every tick is the thread's own or another thread's, and the thread's own are its burst.
-/

namespace OsLabs.Scheduling

open Function UnitSchedule

variable {n : ℕ} {w : Fin n → Thread} {c : Chart n} {out : Output n}

instance (g : List GanttSlot) (tid t : ℤ) : Decidable (RunsAt g tid t) :=
  inferInstanceAs (Decidable (∃ slot ∈ g, slot.threadId = tid ∧ slot.start ≤ t ∧ t < slot.stop))

/-- The number of ticks in `[a, b)` in which the chart shows thread `tid`. -/
def ranTicks (g : List GanttSlot) (tid a b : ℤ) : ℕ :=
  Nat.count (fun k : ℕ => RunsAt g tid (a + k)) (b - a).toNat

/-- The number of ticks in `[a, b)` in which the chart does not show thread `tid`. -/
def waitedTicks (g : List GanttSlot) (tid a b : ℤ) : ℕ :=
  Nat.count (fun k : ℕ => ¬RunsAt g tid (a + k)) (b - a).toNat

/-- What the outputs say about times is what the chart shows. -/
structure TimesAgree (w : Fin n → Thread) (out : Output n) : Prop where
  /-- The threads are in their original order. -/
  id : ∀ i, (out.threads i).id = (w i).id
  /-- The finish is the end of a tick of the thread, which has had all its ticks by then. -/
  finish : ∀ i, RunsAt out.gantt (w i).id ((out.threads i).finish - 1) ∧
    (ranTicks out.gantt (w i).id (w i).arrival (out.threads i).finish : ℤ) = (w i).burst
  turnaround : ∀ i, (out.threads i).turnaround = (out.threads i).finish - (w i).arrival
  waiting : ∀ i, (out.threads i).waiting
    = waitedTicks out.gantt (w i).id (w i).arrival (out.threads i).finish
  waiting_nonneg : ∀ i, 0 ≤ (out.threads i).waiting
  split : ∀ i, (out.threads i).turnaround = (out.threads i).waiting + (w i).burst
  stats : ∀ i, out.stats.waiting i = (out.threads i).waiting ∧
    out.stats.turnaround i = (out.threads i).turnaround
  mean : out.stats.avgTurnaround - out.stats.avgWaiting = ((∑ i, (w i).burst : ℤ) : ℚ) / n

/-! ### The ticks of a thread -/

theorem count_congr {p q : ℕ → Prop} [DecidablePred p] [DecidablePred q] {n : ℕ}
    (h : ∀ k < n, (p k ↔ q k)) : Nat.count p n = Nat.count q n :=
  le_antisymm (Nat.count_mono_left fun k hk => (h k hk).mp)
    (Nat.count_mono_left fun k hk => (h k hk).mpr)

theorem count_add_count_not (p : ℕ → Prop) [DecidablePred p] (n : ℕ) :
    Nat.count p n + Nat.count (fun k => ¬p k) n = n := by
  induction n with
  | zero => simp
  | succ n ih =>
    rw [Nat.count_succ, Nat.count_succ]
    by_cases hp : p n
    · rw [if_pos hp, if_neg (not_not_intro hp)]
      omega
    · rw [if_neg hp, if_pos hp]
      omega

/-- Every tick is a tick of the thread or not. -/
theorem ranTicks_add_waitedTicks (g : List GanttSlot) (tid : ℤ) {a b : ℤ} (hab : a ≤ b) :
    (ranTicks g tid a b : ℤ) + waitedTicks g tid a b = b - a := by
  have h := count_add_count_not (fun k : ℕ => RunsAt g tid (a + k)) (b - a).toNat
  unfold ranTicks waitedTicks
  omega

section Final

variable (h : Final w c out)

include h

theorem Final.finish_le_length (i : Fin n) : (out.threads i).finish ≤ c.length := by
  rw [(h.reported i).finish, lastTick]
  omega

variable (hc : Along (Conserving w) c) (hw : Workload w) (hinj : Injective fun i => (w i).id)

include hw

/-- A thread is not finished before it has arrived. -/
theorem Final.arrival_le_finish (i : Fin n) : (w i).arrival ≤ (out.threads i).finish := by
  have harr := hw.arrival_nonneg i
  have hburst := hw.burst i
  have hnonneg := h.finish_nonneg i
  have hdone := (h.isCompletion hw.burst i).done
  by_contra hlt
  -- it would have no ticks by its finish
  have hbefore : work c.sched i (out.threads i).finish.toNat = 0 := by
    apply h.feasible.work_of_le
    unfold release
    omega
  unfold need at hdone
  omega

include hc hinj

/-- Between its arrival and its completion the chart shows a thread in the ticks it gets. -/
theorem Final.runsAt_iff_sched {i : Fin n} {t : ℕ} (harr : (w i).arrival ≤ t)
    (hfin : (t : ℤ) < (out.threads i).finish) :
    RunsAt out.gantt (w i).id t ↔ c.sched t = some i := by
  have hlen := h.finish_le_length i
  -- the tick is not idle, as the thread has arrived and is not finished
  have hbusy : c.sched t ≠ none := by
    intro hidle
    have := (h.idle_iff hc hw.burst t).mp hidle i harr
    omega
  obtain ⟨j, hj⟩ := Option.ne_none_iff_exists'.mp hbusy
  rw [h.tiles.runsAt_iff (Int.natCast_nonneg t), h.ticks, List.getElem?_map, sub_zero,
    Int.toNat_natCast, Chart.sched_of_lt (by omega), hj, Option.map_some, Option.some_inj,
    Option.some_inj]
  exact hinj.eq_iff

/-- The thread's own ticks in that time are its burst. -/
theorem Final.ranTicks_eq (i : Fin n) :
    (ranTicks out.gantt (w i).id (w i).arrival (out.threads i).finish : ℤ) = (w i).burst := by
  have harr := hw.arrival_nonneg i
  have hburst := hw.burst i
  have hle := h.arrival_le_finish hw i
  have hdone := (h.isCompletion hw.burst i).done
  have hbefore : work c.sched i (w i).arrival.toNat = 0 :=
    h.feasible.work_of_le (show (w i).arrival.toNat ≤ release w i from le_rfl)
  -- in this interval the chart shows the ticks of the schedule
  have hsched : ranTicks out.gantt (w i).id (w i).arrival (out.threads i).finish
      = Nat.count (fun k => c.sched ((w i).arrival.toNat + k) = some i)
        ((out.threads i).finish - (w i).arrival).toNat := by
    apply count_congr
    intro k hk
    have htime : (w i).arrival + (k : ℤ) = (((w i).arrival.toNat + k : ℕ) : ℤ) := by omega
    rw [htime]
    exact h.runsAt_iff_sched hc hw hinj (by omega) (by omega)
  -- the ticks up to the finish are those before the arrival and these
  have hsum := Nat.count_add (fun t => c.sched t = some i) (w i).arrival.toNat
    ((out.threads i).finish - (w i).arrival).toNat
  have htime : (w i).arrival.toNat + ((out.threads i).finish - (w i).arrival).toNat
      = (out.threads i).finish.toNat := by omega
  rw [htime, ← hsched] at hsum
  unfold work at hdone hbefore
  unfold need at hdone
  omega

/-- **The waiting time is what the chart shows.** -/
theorem Final.waiting_eq_waitedTicks (i : Fin n) : (out.threads i).waiting
    = waitedTicks out.gantt (w i).id (w i).arrival (out.threads i).finish := by
  have hruns := h.ranTicks_eq hc hw hinj i
  have htotal := ranTicks_add_waitedTicks out.gantt (w i).id (h.arrival_le_finish hw i)
  rw [h.waiting_eq, (h.reported i).turnaround]
  omega

/-- The tick before its finish is the thread's own. -/
theorem Final.runsAt_finish (i : Fin n) :
    RunsAt out.gantt (w i).id ((out.threads i).finish - 1) := by
  have hlast := ((h.isSchedule hw.burst).last i).1
  have hnonneg := h.finish_nonneg i
  obtain ⟨t, hrun, heq⟩ := hlast
  have harr := (h.isSchedule hw.burst).arrived t i hrun
  -- `t` is its last tick
  have ht : (out.threads i).finish - 1 = (t : ℤ) := by omega
  rw [ht]
  exact (h.runsAt_iff_sched hc hw hinj harr (by omega)).mpr hrun

theorem Final.timesAgree : TimesAgree w out where
  id i := (h.reported i).id
  finish i := ⟨h.runsAt_finish hc hw hinj i, h.ranTicks_eq hc hw hinj i⟩
  turnaround i := (h.reported i).turnaround
  waiting i := h.waiting_eq_waitedTicks hc hw hinj i
  waiting_nonneg i := by
    rw [h.waiting_eq_waitedTicks hc hw hinj i]
    exact Int.natCast_nonneg _
  split i := by
    rw [h.waiting_eq]
    omega
  stats i := by
    rw [h.stats]
    exact ⟨rfl, rfl⟩
  mean := by
    -- thread by thread the difference is the burst
    have hsum : ∑ i, (out.threads i).turnaround - ∑ i, (out.threads i).waiting
        = ∑ i, (w i).burst := by
      rw [← Finset.sum_sub_distrib]
      apply Finset.sum_congr rfl
      intro i _
      rw [h.waiting_eq]
      omega
    rw [h.stats]
    show ((∑ i, (out.threads i).turnaround : ℤ) : ℚ) / n
      - ((∑ i, (out.threads i).waiting : ℤ) : ℚ) / n = ((∑ i, (w i).burst : ℤ) : ℚ) / n
    rw [← sub_div, ← Int.cast_sub, hsum]

end Final

/-- **The reported times agree with the chart**, for each of the four schedulers. -/
theorem times_agree (alg : Algorithm) (w : Fin n → Thread) (hw : Workload w)
    (hinj : Injective fun i => (w i).id) :
    (∃ fuel out, alg.sched fuel w = some out) ∧
    ∀ fuel out, alg.sched fuel w = some out → TimesAgree w out := by
  refine ⟨alg.terminates hw.burst (hw.sees alg), ?_⟩
  intro fuel out hout
  obtain ⟨c, h, hcons⟩ := alg.final hw.burst hout
  exact h.timesAgree (hcons (hw.sees alg)) hw hinj

theorem times_agree_two :
    (∃ fuel out, Algorithm.srtf.sched fuel (orig ![3, 2] ![0, 1]) = some out) ∧
    ∀ fuel out, Algorithm.srtf.sched fuel (orig ![3, 2] ![0, 1]) = some out →
      TimesAgree (orig ![3, 2] ![0, 1]) out :=
  times_agree .srtf (orig ![3, 2] ![0, 1]) (orig_workload (by decide) (by decide))
    (orig_identified _ _).injective

end OsLabs.Scheduling
