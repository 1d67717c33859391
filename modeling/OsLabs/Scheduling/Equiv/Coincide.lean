import OsLabs.Scheduling.Equiv.Policy
import OsLabs.Scheduling.Equiv.ReadyQueue

/-!
# When two schedulers coincide

Two schedulers whose charts follow the same priority leave the same outputs.  Without staggered
arrivals SJF and SRTF both run the thread with the least work left (`sjf_srtf_coincide`).  If no
burst exceeds the quantum, nobody is preempted by Round Robin, so its queue stays in the order of
arrival and it runs what FIFO selects (`rr_fifo_coincide`).
-/

namespace OsLabs.Scheduling

open Function UnitSchedule

variable {n : ℕ} {w : Fin n → Thread}

/-! ### SJF and SRTF -/

theorem LessLeft.asymm (α : Fin n → ℕ) (i j : Fin n) (h : LessLeft α i j) : ¬LessLeft α j i := by
  unfold LessLeft at h ⊢
  omega

/-- **SJF and SRTF coincide without staggered arrivals.** -/
theorem sjf_srtf_coincide (w : Fin n → Thread) (hburst : ∀ i, 1 ≤ (w i).burst)
    (hsame : ∀ i j, (w i).arrival = (w j).arrival) :
    (∃ fuel out, schedulerSjf fuel w = some out) ∧
    (∃ fuel out, schedulerSrtf fuel w = some out) ∧
    ∀ fuel fuel' out out', schedulerSjf fuel w = some out → schedulerSrtf fuel' w = some out' →
      SameOutputs out out' := by
  refine ⟨Algorithm.sjf.terminates hburst fun _ => trivial,
    Algorithm.srtf.terminates hburst fun _ => trivial, ?_⟩
  intro fuel fuel' out out' hout hout'
  obtain ⟨c, h, hcons, hleast⟩ := schedulerSjf_leastLeft hburst hsame hout
  obtain ⟨c', h', hcons', hleast'⟩ := schedulerSrtf_leastLeft hburst hout'
  have hchart : c = c' :=
    h.chart_eq h' LessLeft.asymm hcons (followsPriority_of_leastLeft h hleast)
      hcons' (followsPriority_of_leastLeft h' hleast')
  rw [← hchart] at h'
  exact h.sameOutputs h'

theorem sjf_srtf_coincide_two :
    (∃ fuel out, schedulerSjf fuel (orig ![2, 2] ![1, 1]) = some out) ∧
    (∃ fuel out, schedulerSrtf fuel (orig ![2, 2] ![1, 1]) = some out) ∧
    ∀ fuel fuel' out out', schedulerSjf fuel (orig ![2, 2] ![1, 1]) = some out →
      schedulerSrtf fuel' (orig ![2, 2] ![1, 1]) = some out' → SameOutputs out out' :=
  sjf_srtf_coincide (orig ![2, 2] ![1, 1]) (by decide) (by decide)

/-! ### RR and FIFO -/

section Rr

variable {c : Chart n} {s : RrState n} {b : Chart n} {sees : ℤ → Prop}

/-- A round of RR runs the thread that arrived first if the queue is in the order of arrival. -/
theorem firstArrived_step_rr (hcore : CoreInv w c s.toSched) (hq : QueueInv s)
    (h : Along (FirstArrived w) c) (hready : s.ready.Pairwise (Before w))
    (hs : MachineStep w sees s.toSched (rrBody s).toSched b) :
    Along (FirstArrived w) (c ++ b) := by
  refine h.round (rrBody_ticks hcore.sameThreads hq hs) (fun i hi => absurd hi (by simp)) ?_
  intro sel hnext m i hi j hji _ hleft
  obtain rfl := Option.some.inj hi
  rw [next_eq_head?, List.head?_eq_some_iff] at hnext
  obtain ⟨rest, hqueue⟩ := hnext
  rw [hqueue] at hready
  have hsel := (mem_ready_iff hq).mp (hqueue ▸ List.mem_cons_self)
  rw [hcore.arrival, hcore.time] at hsel
  rw [count_while_running hji] at hleft
  rcases lt_or_ge (c.length : ℤ) (w j).arrival with hlate | hearly
  · -- `j` arrives while the thread runs
    exact Or.inl (hsel.1.trans_lt hlate)
  · have hmem : j ∈ s.ready := by
      have hrem := hcore.remaining j
      rw [mem_ready_iff hq, hcore.arrival, hcore.time]
      omega
    rw [hqueue] at hmem
    exact List.rel_of_pairwise_cons hready (List.mem_of_ne_of_mem hji hmem)

/-- The queue stays in the order of arrival if nobody is preempted. -/
theorem pairwise_ready_step (hburst : ∀ i, 1 ≤ (w i).burst)
    (hshort : ∀ i, (w i).burst ≤ RR_QUANTUM) (hcore : CoreInv w c s.toSched) (hq : QueueInv s)
    (hready : s.ready.Pairwise (Before w)) : (rrBody s).ready.Pairwise (Before w) := by
  cases hqueue : s.ready with
  | nil =>
    rw [ready_idle hburst hcore hq hqueue]
    exact pairwise_arriving w _ _
  | cons sel rest =>
    have hle : (s.t sel).remaining ≤ RR_QUANTUM := by
      have := hshort sel
      rw [hcore.remaining sel]
      omega
    have hsel := (mem_ready_iff hq).mp (hqueue ▸ List.mem_cons_self)
    obtain ⟨k, hk⟩ := Int.eq_ofNat_of_zero_le hsel.2.le
    have hrun : runTime (s.t sel) = k := by
      unfold runTime
      split <;> omega
    rw [hqueue] at hready
    rw [ready_run hburst hcore hq hqueue hrun, if_neg (by omega), List.append_nil,
      List.pairwise_append]
    refine ⟨hready.of_cons, pairwise_arriving w _ _, fun i hi j hj => ?_⟩
    have hearly := ((mem_ready_iff hq).mp (hqueue ▸ List.mem_cons_of_mem sel hi)).1
    rw [hcore.arrival i] at hearly
    exact Or.inl (hearly.trans_lt (mem_arriving.mp hj).1)

end Rr

/-- RR runs the thread that arrived first if no burst exceeds the quantum. -/
theorem schedulerRr_firstArrived (hburst : ∀ i, 1 ≤ (w i).burst)
    (hshort : ∀ i, (w i).burst ≤ RR_QUANTUM) (harr : ∀ i, 0 ≤ (w i).arrival) {fuel : ℕ}
    {out : Output n} (h : schedulerRr fuel w = some out) :
    ∃ c, Final w c out ∧ Along (Conserving w) c ∧ Along (FirstArrived w) c := by
  obtain ⟨s, hloop, ⟨⟩⟩ := Option.bind_eq_some_iff.mp h
  have hinit : (RrState.init w).ready.Pairwise (Before w) := by
    rw [← (serves_init hburst harr).queue]
    exact (pairwise_arrivalOrder w).filter _
  let S := (rrSimulation w).also
    (fun c s => Along (FirstArrived w) c ∧ s.ready.Pairwise (Before w)) ⟨along_nil _, hinit⟩
    fun hcore hq _ ih hs => ⟨firstArrived_step_rr hcore hq ih.1 ih.2 hs,
      pairwise_ready_step hburst hshort hcore hq ih.2⟩
  obtain ⟨c, -, hfinal, hinv, hcons⟩ := S.final hburst hloop
  exact ⟨c, hfinal, hcons fun _ => trivial, hinv.2.1⟩

/-- **RR is FIFO when no burst exceeds the quantum.** -/
theorem rr_fifo_coincide (w : Fin n → Thread) (hburst : ∀ i, 1 ≤ (w i).burst)
    (hshort : ∀ i, (w i).burst ≤ RR_QUANTUM)
    (harr : ∀ i, 0 ≤ (w i).arrival ∧ (w i).arrival ≤ 999998) :
    (∃ fuel out, schedulerRr fuel w = some out) ∧
    (∃ fuel out, schedulerFifo fuel w = some out) ∧
    ∀ fuel fuel' out out', schedulerRr fuel w = some out → schedulerFifo fuel' w = some out' →
      SameOutputs out out' := by
  have hsees (i : Fin n) : fifoSees (w i).arrival := Int.lt_of_le_sub_one (harr i).2
  refine ⟨Algorithm.rr.terminates hburst fun _ => trivial,
    Algorithm.fifo.terminates hburst hsees, ?_⟩
  intro fuel fuel' out out' hout hout'
  obtain ⟨c, h, hcons, hfirst⟩ :=
    schedulerRr_firstArrived hburst hshort (fun i => (harr i).1) hout
  obtain ⟨c', h', hcons', hfirst'⟩ := schedulerFifo_firstArrived hburst hsees hout'
  have hasymm (_ : Fin n → ℕ) (i j : Fin n) (hij : Before w i j) : ¬Before w j i := hij.asymm
  have hchart : c = c' :=
    h.chart_eq h' hasymm hcons (followsPriority_of_firstArrived hfirst)
      hcons' (followsPriority_of_firstArrived hfirst')
  rw [← hchart] at h'
  exact h.sameOutputs h'

theorem rr_fifo_coincide_two :
    (∃ fuel out, schedulerRr fuel (orig ![2, 1] ![0, 1]) = some out) ∧
    (∃ fuel out, schedulerFifo fuel (orig ![2, 1] ![0, 1]) = some out) ∧
    ∀ fuel fuel' out out', schedulerRr fuel (orig ![2, 1] ![0, 1]) = some out →
      schedulerFifo fuel' (orig ![2, 1] ![0, 1]) = some out' → SameOutputs out out' :=
  rr_fifo_coincide (orig ![2, 1] ![0, 1]) (by decide) (by decide) (by decide)

end OsLabs.Scheduling
