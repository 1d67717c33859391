import OsLabs.Scheduling.Equiv.Rr
import Mathlib.Data.Fin.VecNotation

/-!
# The outputs of the four schedulers

`Algorithm.final`: what any of the four schedulers leaves in its outputs is what some chart of
ticks determines.  From it follows that the Gantt chart conserves the work of the threads
(`gantt_conserves_work`): its slots cover the time up to the last completion, and every thread has
slots of its burst in total, between the start and the finish it is reported with.
-/

namespace OsLabs.Scheduling

open Function

variable {n : ℕ} {w : Fin n → Thread}

/-! ### The chart of a run -/

/-- The arrivals a scheduler sees. -/
def Algorithm.Sees : Algorithm → ℤ → Prop
  | .fifo => fifoSees
  | .rr => fun _ => True
  | .sjf => fun _ => True
  | .srtf => fun _ => True

/-- The log is not part of what a chart determines. -/
theorem Final.arrivals {c : Chart n} {s : Sched n} (h : Final w c s.output) (a b : ℤ) :
    Final w c (s.arrivals a b).output :=
  ⟨h.tiles, h.merged, h.ticks, h.released, h.complete, h.reported, h.stats, h.ends⟩

/-- **Every scheduler returns.** -/
theorem Algorithm.terminates (alg : Algorithm) (hburst : ∀ i, 1 ≤ (w i).burst)
    (hsees : ∀ i, alg.Sees (w i).arrival) : ∃ fuel out, alg.sched fuel w = some out := by
  cases alg with
  | fifo =>
    obtain ⟨fuel, s, h⟩ := (fifoSimulation w hburst).terminates hburst hsees
    exact ⟨fuel, _, by simp only [sched, schedulerFifo, h]; rfl⟩
  | rr =>
    obtain ⟨fuel, s, h⟩ := (rrSimulation w).terminates hburst hsees
    exact ⟨fuel, _, by simp only [sched, schedulerRr, h]; rfl⟩
  | sjf =>
    obtain ⟨fuel, s, h⟩ := (sjfSimulation w hburst).terminates hburst hsees
    exact ⟨fuel, _, by simp only [sched, schedulerSjf, h]; rfl⟩
  | srtf =>
    obtain ⟨fuel, s, h⟩ := (srtfSimulation w hburst).terminates hburst hsees
    exact ⟨fuel, _, by simp only [sched, schedulerSrtf, h]; rfl⟩

theorem schedulerSrtf_final (hburst : ∀ i, 1 ≤ (w i).burst) {fuel : ℕ} {out : Output n}
    (h : schedulerSrtf fuel w = some out) :
    ∃ c, Final w c out ∧ Along (Conserving w) c ∧ Along (Shortest w) c := by
  obtain ⟨s, hloop, ⟨⟩⟩ := Option.bind_eq_some_iff.mp h
  obtain ⟨c, -, hfinal, hinv, hcons⟩ := (srtfSimulation w hburst).final hburst hloop
  exact ⟨c, hfinal, hcons fun _ => trivial, hinv.shortest⟩

theorem Algorithm.final (alg : Algorithm) (hburst : ∀ i, 1 ≤ (w i).burst) {fuel : ℕ}
    {out : Output n} (h : alg.sched fuel w = some out) :
    ∃ c, Final w c out ∧ ((∀ i, alg.Sees (w i).arrival) → Along (Conserving w) c) := by
  cases alg with
  | fifo =>
    obtain ⟨s, hloop, ⟨⟩⟩ := Option.bind_eq_some_iff.mp h
    obtain ⟨c, -, hfinal, -, hcons⟩ := (fifoSimulation w hburst).final hburst hloop
    exact ⟨c, hfinal.arrivals _ _, hcons⟩
  | rr =>
    obtain ⟨s, hloop, ⟨⟩⟩ := Option.bind_eq_some_iff.mp h
    obtain ⟨c, -, hfinal, -, hcons⟩ := (rrSimulation w).final hburst hloop
    exact ⟨c, hfinal, hcons⟩
  | sjf =>
    obtain ⟨s, hloop, ⟨⟩⟩ := Option.bind_eq_some_iff.mp h
    obtain ⟨c, -, hfinal, -, hcons⟩ := (sjfSimulation w hburst).final hburst hloop
    exact ⟨c, hfinal, hcons⟩
  | srtf =>
    obtain ⟨c, hfinal, hcons, -⟩ := schedulerSrtf_final hburst h
    exact ⟨c, hfinal, fun _ => hcons⟩

/-! ### The ticks of a thread -/

/-- The workloads that all four schedulers finish. -/
structure Workload (w : Fin n → Thread) : Prop where
  burst : ∀ i, 1 ≤ (w i).burst
  arrival_nonneg : ∀ i, 0 ≤ (w i).arrival
  arrival_lt : ∀ i, (w i).arrival < 999999

/-- The identities tell the threads apart, and from an idle slot. -/
structure Identified (w : Fin n → Thread) : Prop where
  nonneg : ∀ i, 0 ≤ (w i).id
  injective : Injective fun i => (w i).id

/-- `main` makes such workloads. -/
theorem orig_workload {burst arrival : Fin n → ℤ}
    (hburst : ∀ i, 1 ≤ burst i ∧ burst i ≤ MAX_BURST)
    (harr : ∀ i, 0 ≤ arrival i ∧ arrival i ≤ MAX_ARRIVAL) : Workload (orig burst arrival) where
  burst i := (hburst i).1
  arrival_nonneg i := (harr i).1
  arrival_lt i := (harr i).2.trans_lt (by decide)

theorem orig_identified (burst arrival : Fin n → ℤ) : Identified (orig burst arrival) where
  nonneg i := Int.natCast_nonneg i
  injective _ _ hij := Fin.ext (Int.ofNat_inj.mp hij)

theorem Workload.sees (hw : Workload w) (alg : Algorithm) (i : Fin n) :
    alg.Sees (w i).arrival := by
  cases alg with
  | fifo => exact hw.arrival_lt i
  | rr => trivial
  | sjf => trivial
  | srtf => trivial

/-- The `thread_id` of a tick tells who runs, unless it is that of an idle slot. -/
theorem owner_injective (hid : ∀ i, (w i).id ≠ -1) (hinj : Injective fun i => (w i).id) :
    Injective (owner w) := by
  intro x y hxy
  cases x with
  | none =>
    cases y with
    | none => rfl
    | some j => exact absurd hxy.symm (hid j)
  | some i =>
    cases y with
    | none => exact absurd hxy (hid i)
    | some j => rw [hinj hxy]

theorem Identified.owner_injective (hid : Identified w) : Injective (owner w) :=
  Scheduling.owner_injective (fun i => by have := hid.nonneg i; omega) hid.injective

theorem idxOf_map_owner (hown : Injective (owner w)) (c : Chart n) (i : Fin n) :
    (c.map (owner w)).idxOf (w i).id = c.idxOf (some i) := by
  unfold List.idxOf
  rw [List.findIdx_map]
  congr 1
  funext x
  have hiff := hown.eq_iff (a := x) (b := some i)
  exact Bool.eq_iff_iff.mpr (by simpa [owner] using hiff)

theorem count_map_owner (hown : Injective (owner w)) (c : Chart n) (i : Fin n) :
    (c.map (owner w)).count (w i).id = c.count (some i) :=
  List.count_map_of_injective c (owner w) hown (some i)

/-- The slots over a tick say who runs in it. -/
theorem Final.runsAt_owner_iff {d : Chart n} {out : Output n} (h : Final w d out)
    {x : Option (Fin n)} (hx : ∀ y, owner w y = owner w x → y = x) {t : ℤ} :
    RunsAt out.gantt (owner w x) t ↔ 0 ≤ t ∧ d[t.toNat]? = some x := by
  constructor
  · intro hruns
    have hnonneg : 0 ≤ t := by
      obtain ⟨slot, hmem, -, hle, -⟩ := hruns
      have := (h.tiles.bounds hmem).1
      omega
    rw [h.tiles.runsAt_iff hnonneg, h.ticks, List.getElem?_map, sub_zero] at hruns
    obtain ⟨y, hy, hyx⟩ := Option.map_eq_some_iff.mp hruns
    rw [hx y hyx] at hy
    exact ⟨hnonneg, hy⟩
  · rintro ⟨hnonneg, hget⟩
    rw [h.tiles.runsAt_iff hnonneg, h.ticks, List.getElem?_map, sub_zero, hget, Option.map_some]

/-- Every thread runs. -/
theorem Final.mem {c : Chart n} {out : Output n} (h : Final w c out) (hw : Workload w)
    (i : Fin n) : some i ∈ c := by
  apply List.count_pos_iff.mp
  have hcount := h.complete i
  have := hw.burst i
  omega

theorem id_mem_ticks {c : Chart n} {out : Output n} (h : Final w c out) (hw : Workload w)
    (i : Fin n) : (w i).id ∈ ticks out.gantt := by
  rw [h.ticks]
  exact List.mem_map_of_mem (f := owner w) (h.mem hw i)

/-! ### Conservation of work -/

/-- Where the chart ends. -/
def makespan (gantt : List GanttSlot) : ℤ := (gantt.getLast?.map GanttSlot.stop).getD 0

theorem Tiles.makespan_eq {b : ℤ} {g : List GanttSlot} (h : Tiles 0 g b) : makespan g = b := by
  unfold makespan
  rcases List.eq_nil_or_concat g with rfl | ⟨g, slot, rfl⟩
  · exact h
  · rw [List.concat_eq_append] at h ⊢
    rw [List.getLast?_concat, Option.map_some, Option.getD_some, h.stop_eq]

/-- The Gantt chart does the work of all threads. -/
structure ConservesWork (w : Fin n → Thread) (out : Output n) : Prop where
  tiles : Tiles 0 out.gantt (makespan out.gantt)
  merged : Merged out.gantt
  total : ∀ i, ((slotsOf (w i).id out.gantt).map fun slot => slot.stop - slot.start).sum
    = (w i).burst
  released : ∀ i, ∀ slot ∈ slotsOf (w i).id out.gantt, (w i).arrival ≤ slot.start
  start : ∀ i, (slotsOf (w i).id out.gantt).head?.map GanttSlot.start
    = some (out.threads i).start
  finish : ∀ i, (slotsOf (w i).id out.gantt).getLast?.map GanttSlot.stop
    = some (out.threads i).finish
  latest : ∀ i, (out.threads i).finish ≤ makespan out.gantt
  last : 0 < n → ∃ i, (out.threads i).finish = makespan out.gantt

theorem Final.conservesWork {c : Chart n} {out : Output n} (h : Final w c out)
    (hw : Workload w) (hid : Identified w) : ConservesWork w out where
  tiles := by
    rw [h.tiles.makespan_eq]
    exact h.tiles
  merged := h.merged
  total i := by
    rw [h.tiles.sum_slotsOf, h.ticks, count_map_owner hid.owner_injective, h.complete i]
  released i slot hslot := by
    obtain ⟨hmem, hslotid⟩ := List.mem_filter.mp hslot
    obtain ⟨hnonneg, hlt, -⟩ := h.tiles.bounds hmem
    -- the first tick of the slot
    have hruns : RunsAt out.gantt (w i).id slot.start :=
      ⟨slot, hmem, of_decide_eq_true hslotid, le_rfl, hlt⟩
    obtain ⟨-, hget⟩ := (h.runsAt_owner_iff (x := some i)
      fun _ heq => hid.owner_injective heq).mp hruns
    have harr := h.released _ _ hget i rfl
    have := List.length_take_le slot.start.toNat c
    omega
  start i := by
    rw [h.tiles.head_slotsOf (id_mem_ticks h hw i), h.ticks, idxOf_map_owner hid.owner_injective,
      (h.reported i).start, zero_add]
    rfl
  finish i := by
    rw [h.tiles.getLast_slotsOf (id_mem_ticks h hw i), h.ticks, ← List.map_reverse,
      idxOf_map_owner hid.owner_injective, (h.reported i).finish]
    rfl
  latest i := by
    rw [h.tiles.makespan_eq, (h.reported i).finish]
    unfold lastTick
    omega
  last hn := by
    -- the last tick is not idle
    have hne : c ≠ [] := List.ne_nil_of_mem (h.mem hw ⟨0, hn⟩)
    obtain ⟨d, x, rfl⟩ := (List.eq_nil_or_concat c).resolve_left hne
    have hends := h.ends
    rw [List.concat_eq_append] at h hends
    rw [List.getLast?_concat] at hends
    obtain ⟨i, rfl⟩ := Option.ne_none_iff_exists'.mp fun hx => hends (congrArg some hx)
    refine ⟨i, ?_⟩
    rw [h.tiles.makespan_eq, (h.reported i).finish, lastTick, List.reverse_append,
      List.reverse_singleton, List.singleton_append, List.idxOf_cons_self]
    simp

/-- **The Gantt chart conserves the work of the threads**, for each of the four schedulers. -/
theorem gantt_conserves_work (alg : Algorithm) (w : Fin n → Thread) (hw : Workload w)
    (hid : Identified w) :
    (∃ fuel out, alg.sched fuel w = some out) ∧
      ∀ fuel out, alg.sched fuel w = some out → ConservesWork w out := by
  refine ⟨alg.terminates hw.burst (hw.sees alg), fun fuel out h => ?_⟩
  obtain ⟨c, hfinal, -⟩ := alg.final hw.burst h
  exact hfinal.conservesWork hw hid

theorem gantt_conserves_work_two :
    (∃ fuel out, Algorithm.rr.sched fuel (orig ![3, 2] ![0, 1]) = some out) ∧
      ∀ fuel out, Algorithm.rr.sched fuel (orig ![3, 2] ![0, 1]) = some out →
        ConservesWork (orig ![3, 2] ![0, 1]) out :=
  gantt_conserves_work .rr _ (orig_workload (by decide) (by decide)) (orig_identified _ _)

end OsLabs.Scheduling
