import OsLabs.Scheduling.Equiv.ReadyQueue
import OsLabs.Scheduling.Equiv.Schedule

/-!
# RR is fair

Round Robin is the ready queue of `OsLabs.RoundRobin`, which is fair (`run_fair`).  So from the
arrival of a thread, or from the end of a slice of it, until its next dispatch every other thread is
dispatched at most once, for at most a quantum.  What a thread waits in total is bounded by its
number of slices (`rr_fair`).
-/

namespace OsLabs.Scheduling

open RoundRobin

variable {n : ℕ}

/-- **RR is fair.** -/
theorem rr_fair (w : Fin n → Thread) (hburst : ∀ i, 1 ≤ (w i).burst)
    (harr : ∀ i, 0 ≤ (w i).arrival) :
    (∃ fuel out, schedulerRr fuel w = some out) ∧
    ∀ fuel out, schedulerRr fuel w = some out →
      (∀ before slice after, rrDispatches fuel w = before ++ slice :: after →
        let ready := (jobs w hburst harr).readyAt before slice.job
        ready ≤ slice.start ∧
        (∀ k, k ≠ slice.job → turnsSince before k ready ≤ 1) ∧
        slice.start - ready ≤ (n - 1) * RR_QUANTUM) ∧
      ∀ i, (out.threads i).waiting
        ≤ (n - 1) * RR_QUANTUM * ⌈((w i).burst : ℚ) / RR_QUANTUM⌉ := by
  refine ⟨Algorithm.rr.terminates hburst fun _ => trivial, fun fuel out h => ?_⟩
  obtain ⟨c, hfinal, -⟩ := Algorithm.rr.final hburst h
  obtain ⟨S, hrun, hslices, hfinish⟩ := schedulerRr_serves hburst harr h
  obtain ⟨hfair, hdelay⟩ := run_fair hrun
  have hbound : (jobs w hburst harr).quantum * (Fintype.card (Fin n) - 1)
      = (n - 1) * RR_QUANTUM := by
    rw [Fintype.card_fin, mul_comm]
    rfl
  refine ⟨fun before slice after hsplit => ?_, fun i => ?_⟩
  · obtain ⟨hready, honce, hwait⟩ := hfair before slice after (hslices.symm.trans hsplit)
    rw [hbound] at hwait
    exact ⟨hready, honce, hwait⟩
  · obtain ⟨finish, hi, hle⟩ := hdelay i
    obtain rfl := Option.some.inj ((hfinish i).symm.trans hi)
    rw [hbound] at hle
    rw [(hfinal.reported i).waiting, (hfinal.reported i).turnaround]
    exact hle

theorem rr_fair_two :
    (∃ fuel out, schedulerRr fuel (orig ![3, 1] ![0, 1]) = some out) ∧
    ∀ fuel out, schedulerRr fuel (orig ![3, 1] ![0, 1]) = some out →
      (∀ before slice after,
        rrDispatches fuel (orig ![3, 1] ![0, 1]) = before ++ slice :: after →
        let ready := (jobs (orig ![3, 1] ![0, 1]) (by decide) (by decide)).readyAt before slice.job
        ready ≤ slice.start ∧
        (∀ k, k ≠ slice.job → turnsSince before k ready ≤ 1) ∧
        slice.start - ready ≤ ((2 : ℕ) - 1) * RR_QUANTUM) ∧
      ∀ i, (out.threads i).waiting
        ≤ ((2 : ℕ) - 1) * RR_QUANTUM * ⌈((orig ![3, 1] ![0, 1] i).burst : ℚ) / RR_QUANTUM⌉ :=
  rr_fair (orig ![3, 1] ![0, 1]) (by decide) (by decide)

end OsLabs.Scheduling
