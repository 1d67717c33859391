import OsLabs.Scheduling.Equiv.Policy
import OsLabs.Scheduling.Equiv.Times

/-!
# SJF and SRTF, as their charts show them

SJF gives every thread one slot, and none that waits at its start is shorter
(`ShortestJobFirst`); in every busy tick SRTF runs the thread with the least remaining time
(`ShortestRemainingTimeFirst`).  Both are statements about the slots.  They follow from the
policies of the ticks, as threads with identities of their own have the slots of their ticks.
-/

namespace OsLabs.Scheduling

open Function UnitSchedule

variable {n : ℕ} {w : Fin n → Thread} {d : Chart n} {out : Output n}

/-! ### What the charts show -/

/-- Thread `i` has no tick before `t`. -/
def NotStarted (w : Fin n → Thread) (g : List GanttSlot) (i : Fin n) (t : ℤ) : Prop :=
  ∀ u < t, ¬RunsAt g (w i).id u

/-- The remaining time of thread `i`: its burst less the ticks before `t`. -/
def remainingAt (w : Fin n → Thread) (g : List GanttSlot) (i : Fin n) (t : ℤ) : ℤ :=
  (w i).burst - ranTicks g (w i).id 0 t

/-- Every thread has one slot; no thread that waits at its start has a smaller burst, or an equal
one and a smaller index. -/
def ShortestJobFirst (w : Fin n → Thread) (g : List GanttSlot) : Prop :=
  ∀ i, ∃ slot, slotsOf (w i).id g = [slot] ∧ slot.stop - slot.start = (w i).burst ∧
    ∀ j, (w j).arrival ≤ slot.start → NotStarted w g j slot.start →
      (w i).burst < (w j).burst ∨ ((w i).burst = (w j).burst ∧ i ≤ j)

/-- The thread of a busy tick has the smallest remaining time of the arrived unfinished ones, and
the smallest index among equals. -/
def ShortestRemainingTimeFirst (w : Fin n → Thread) (g : List GanttSlot) : Prop :=
  ∀ tid t, tid ≠ -1 → RunsAt g tid t →
    ∃ i, (w i).id = tid ∧ (w i).arrival ≤ t ∧ 0 < remainingAt w g i t ∧
      ∀ j, (w j).arrival ≤ t → 0 < remainingAt w g j t →
        remainingAt w g i t < remainingAt w g j t ∨
          (remainingAt w g i t = remainingAt w g j t ∧ i ≤ j)

/-! ### From the ticks to the slots -/

/-- In an unbroken chart a thread runs at all ticks between two of its own. -/
theorem Along.runs_between (h : Along Unbroken d) {i : Fin n} {t k : ℕ}
    (ht : d[t]? = some (some i)) (hk : d[t + k]? = some (some i)) :
    ∀ m ≤ k, d[t + m]? = some (some i) := by
  induction k with
  | zero =>
    intro m hm
    rw [Nat.le_zero.mp hm]
    exact hk
  | succ k ih =>
    -- the tick before the last one is the thread's own
    have hmem : some i ∈ d.take (t + (k + 1)) :=
      List.mem_of_getElem? ((List.getElem?_take_of_lt (by omega)).trans ht)
    have hlast := h _ _ hk i rfl hmem
    rw [List.getLast?_take, if_neg (by omega)] at hlast
    have hprev : d[t + k]? = some (some i) := by
      obtain ⟨hlt, -⟩ := List.getElem?_eq_some_iff.mp hk
      rw [List.getElem?_eq_getElem (show t + k < d.length by omega)]
      simpa [List.getElem?_eq_getElem (show t + k < d.length by omega)] using hlast
    intro m hm
    rcases Nat.lt_or_ge k m with hlt | hge
    · rw [show m = k + 1 by omega]
      exact hk
    · exact ih hprev m hge

section Slots

variable (h : Final w d out) (hown : Injective (owner w))

include h hown

theorem Final.runsAt_thread_iff {i : Fin n} {t : ℤ} :
    RunsAt out.gantt (w i).id t ↔ 0 ≤ t ∧ d[t.toNat]? = some (some i) :=
  h.runsAt_owner_iff (x := some i) fun _ heq => hown heq

/-- The ticks a thread had are counted along the chart. -/
theorem Final.ranTicks_eq_count (i : Fin n) (t : ℤ) :
    ranTicks out.gantt (w i).id 0 t = (d.take t.toNat).count (some i) := by
  rw [← work_sched, work, ranTicks, sub_zero]
  apply count_congr
  intro k _
  rw [h.runsAt_thread_iff hown, zero_add, Int.toNat_natCast]
  constructor
  · rintro ⟨-, hget⟩
    obtain ⟨hlt, -⟩ := List.getElem?_eq_some_iff.mp hget
    rw [Chart.sched_of_lt hlt] at hget
    exact Option.some.inj hget
  · intro hrun
    exact ⟨Int.natCast_nonneg k, getElem?_of_ofChart hrun⟩

theorem Final.notStarted_iff (i : Fin n) {t : ℤ} (ht : 0 ≤ t) :
    NotStarted w out.gantt i t ↔ some i ∉ d.take t.toNat := by
  constructor
  · intro hnot hmem
    obtain ⟨k, hk⟩ := List.getElem?_of_mem hmem
    obtain ⟨hlt, -⟩ := List.getElem?_eq_some_iff.mp hk
    rw [List.length_take] at hlt
    rw [List.getElem?_take_of_lt (by omega)] at hk
    refine hnot k (by omega) ((h.runsAt_thread_iff hown).mpr ⟨Int.natCast_nonneg k, ?_⟩)
    rw [Int.toNat_natCast]
    exact hk
  · intro hnot u hu hruns
    obtain ⟨hnonneg, hget⟩ := (h.runsAt_thread_iff hown).mp hruns
    apply hnot
    exact List.mem_of_getElem? ((List.getElem?_take_of_lt (by omega)).trans hget)

/-- SJF, read off the slots. -/
theorem Final.shortestJobFirst (hburst : ∀ i, 1 ≤ (w i).burst) (hs : Along (ShortestStart w) d)
    (hu : Along Unbroken d) : ShortestJobFirst w out.gantt := by
  intro i
  have htotal : ((slotsOf (w i).id out.gantt).map fun slot => slot.stop - slot.start).sum
      = (Scheduling.ticks out.gantt).count (w i).id := h.tiles.sum_slotsOf
  rw [h.ticks, count_map_owner hown, h.complete i] at htotal
  have hi := hburst i
  obtain ⟨slot, hslot⟩ : ∃ slot, slot ∈ slotsOf (w i).id out.gantt := by
    apply List.exists_mem_of_ne_nil
    intro hnil
    rw [hnil] at htotal
    simp at htotal
    omega
  have hone : slotsOf (w i).id out.gantt = [slot] := by
    refine slotsOf_eq_singleton h.tiles h.merged hslot fun t t' ht ht' m htm hmt => ?_
    obtain ⟨hnonneg, hget⟩ := (h.runsAt_thread_iff hown).mp ht
    obtain ⟨-, hget'⟩ := (h.runsAt_thread_iff hown).mp ht'
    have hbetween := hu.runs_between (k := (t' - t).toNat) hget
      (by rw [show t.toNat + (t' - t).toNat = t'.toNat by omega]; exact hget')
      (m - t).toNat (by omega)
    rw [show t.toNat + (m - t).toNat = m.toNat by omega] at hbetween
    exact (h.runsAt_thread_iff hown).mpr ⟨by omega, hbetween⟩
  rw [hone] at htotal
  refine ⟨slot, hone, by simpa using htotal, fun j harr hnot => ?_⟩
  obtain ⟨hmem, hid⟩ := List.mem_filter.mp hslot
  obtain ⟨hnonneg, hlt, hstop⟩ := h.tiles.bounds hmem
  -- the first tick of the slot
  have hruns : RunsAt out.gantt (w i).id slot.start :=
    ⟨slot, hmem, of_decide_eq_true hid, le_rfl, hlt⟩
  obtain ⟨-, hget⟩ := (h.runsAt_thread_iff hown).mp hruns
  have hlen : ((d.take slot.start.toNat).length : ℤ) = slot.start := by
    rw [List.length_take]
    omega
  have hfresh : some i ∉ d.take slot.start.toNat := by
    rw [← h.notStarted_iff hown i hnonneg]
    rintro u hu' ⟨other, hother, hotherId, hle, hlt'⟩
    have hin : other ∈ slotsOf (w i).id out.gantt :=
      List.mem_filter.mpr ⟨hother, decide_eq_true hotherId⟩
    rw [hone, List.mem_singleton] at hin
    rw [hin] at hle
    omega
  exact hs _ _ hget i rfl hfresh j (by rw [hlen]; exact harr)
    ((h.notStarted_iff hown j hnonneg).mp hnot)

/-- SRTF, read off the slots. -/
theorem Final.shortestRemainingTimeFirst (hs : Along (LeastLeft w) d) :
    ShortestRemainingTimeFirst w out.gantt := by
  intro tid t htid hruns
  -- the tick is of a thread
  have hnonneg : 0 ≤ t := by
    obtain ⟨slot, hmem, -, hle, -⟩ := hruns
    have := (h.tiles.bounds hmem).1
    omega
  have htick := (h.tiles.runsAt_iff hnonneg).mp hruns
  rw [h.ticks, List.getElem?_map, sub_zero] at htick
  obtain ⟨x, hx, rfl⟩ := Option.map_eq_some_iff.mp htick
  obtain ⟨i, rfl⟩ := Option.ne_none_iff_exists'.mp fun hnone : x = none => htid (by rw [hnone]; rfl)
  obtain ⟨hlt, -⟩ := List.getElem?_eq_some_iff.mp hx
  have hlen : ((d.take t.toNat).length : ℤ) = t := by
    rw [List.length_take]
    omega
  have harr := h.released _ _ hx i rfl
  unfold remainingAt
  simp only [h.ranTicks_eq_count hown]
  refine ⟨i, rfl, by omega, ?_, fun j hj hleft => ?_⟩
  · -- the tick itself is one of its burst
    have hcount := h.complete i
    have hle := (List.take_sublist (t.toNat + 1) d).count_le (some i)
    rw [List.take_add_one, hx, Option.toList_some, List.count_append,
      List.count_singleton_self] at hle
    omega
  · exact hs _ _ hx i rfl j (by omega) (by omega)

end Slots

/-- **SJF and SRTF conform to their policies.** -/
theorem sjf_srtf_conform (w : Fin n → Thread) (hburst : ∀ i, 1 ≤ (w i).burst)
    (hid : ∀ i, (w i).id ≠ -1) (hinj : Injective fun i => (w i).id) :
    ((∃ fuel out, schedulerSjf fuel w = some out) ∧
      ∀ fuel out, schedulerSjf fuel w = some out → ShortestJobFirst w out.gantt) ∧
    (∃ fuel out, schedulerSrtf fuel w = some out) ∧
      ∀ fuel out, schedulerSrtf fuel w = some out →
        ShortestRemainingTimeFirst w out.gantt := by
  have hown := owner_injective hid hinj
  refine ⟨⟨Algorithm.sjf.terminates hburst fun _ => trivial, fun fuel out hout => ?_⟩,
    Algorithm.srtf.terminates hburst fun _ => trivial, fun fuel out hout => ?_⟩
  · obtain ⟨d, h, -, hstart, hunbroken⟩ := schedulerSjf_shortestStart hburst hout
    exact h.shortestJobFirst hown hburst hstart hunbroken
  · obtain ⟨d, h, -, hleast⟩ := schedulerSrtf_leastLeft hburst hout
    exact h.shortestRemainingTimeFirst hown hleast

theorem sjf_srtf_conform_two :
    ((∃ fuel out, schedulerSjf fuel (orig ![3, 1] ![0, 1]) = some out) ∧
      ∀ fuel out, schedulerSjf fuel (orig ![3, 1] ![0, 1]) = some out →
        ShortestJobFirst (orig ![3, 1] ![0, 1]) out.gantt) ∧
    (∃ fuel out, schedulerSrtf fuel (orig ![3, 1] ![0, 1]) = some out) ∧
      ∀ fuel out, schedulerSrtf fuel (orig ![3, 1] ![0, 1]) = some out →
        ShortestRemainingTimeFirst (orig ![3, 1] ![0, 1]) out.gantt :=
  sjf_srtf_conform (orig ![3, 1] ![0, 1]) (by decide) (by decide) (by decide)

end OsLabs.Scheduling
