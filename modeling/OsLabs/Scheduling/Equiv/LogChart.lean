import OsLabs.Scheduling.Equiv.Preempt

/-!
# The log of SRTF and its chart

The log of SRTF is written from comparisons of `last_running` and `remaining`, its chart by merging
one-tick slots.  They tell the same story of every thread: between its `Arrived` and its
`Completed` event the log has, for each slot, the start of a turn and, unless it is the last one,
its end with what the thread has left (`srtf_log_matches_chart`).  `Told` is the story so far: a
thread that has not arrived, waits, runs or is completed.
-/

namespace OsLabs.Scheduling

open Function UnitSchedule

variable {n : ℕ} {w : Fin n → Thread} {c : Chart n} {s : SrtfState n} {i : Fin n}

/-! ### The story of a thread -/

/-- The events of thread `tid`. -/
def logOf (tid : ℤ) (elog : List Event) : List Event := elog.filter (·.threadId = tid)

/-- The events of turns that end with a preemption; before them the thread has `left` ticks left. -/
def turnEvents (w : Fin n → Thread) (i : Fin n) : ℤ → List GanttSlot → List Event
  | _, [] => []
  | left, slot :: g =>
    startedResumedEvent w i slot.start
      :: preemptedEvent w i slot.stop (left - (slot.stop - slot.start))
      :: turnEvents w i (left - (slot.stop - slot.start)) g

/-- The total length of slots. -/
def slotTime (g : List GanttSlot) : ℤ := (g.map fun slot => slot.stop - slot.start).sum

/-- The events and the slots of thread `i` before a round. -/
inductive Told (w : Fin n → Thread) (i : Fin n) (s : SrtfState n) :
    List Event → List GanttSlot → Prop where
  | unseen (harr : s.time ≤ (w i).arrival) : Told w i s [] []
  | waiting {g : List GanttSlot} (harr : (w i).arrival < s.time)
    (hlast : s.lastRunning ≠ some i) (hrem : 0 < (s.t i).remaining) :
    Told w i s (arrivedEvent w i :: turnEvents w i (w i).burst g) g
  | running {g : List GanttSlot} {slot : GanttSlot} (harr : (w i).arrival < s.time)
    (hlast : s.lastRunning = some i) (hrem : 0 < (s.t i).remaining) (hstop : slot.stop = s.time) :
    Told w i s (arrivedEvent w i :: turnEvents w i (w i).burst g
      ++ [startedResumedEvent w i slot.start]) (g ++ [slot])
  | completed {g : List GanttSlot} {slot : GanttSlot} (harr : (w i).arrival < s.time)
    (hrem : (s.t i).remaining = 0) :
    Told w i s (arrivedEvent w i :: turnEvents w i (w i).burst g
      ++ [startedResumedEvent w i slot.start, completedEvent w i slot.stop]) (g ++ [slot])

theorem logOf_append (tid : ℤ) (l l' : List Event) :
    logOf tid (l ++ l') = logOf tid l ++ logOf tid l' := List.filter_append ..

theorem logOf_ite (tid : ℤ) (p : Prop) [Decidable p] (e : Event) :
    logOf tid (if p then [e] else []) = if p ∧ e.threadId = tid then [e] else [] := by
  by_cases hp : p
  · simp [hp, logOf, List.filter_singleton]
  · simp [hp, logOf]

theorem turnEvents_concat (w : Fin n → Thread) (i : Fin n) (left : ℤ) (g : List GanttSlot)
    (slot : GanttSlot) : turnEvents w i left (g ++ [slot]) = turnEvents w i left g
      ++ [startedResumedEvent w i slot.start,
        preemptedEvent w i slot.stop (left - slotTime (g ++ [slot]))] := by
  induction g generalizing left with
  | nil => simp [turnEvents, slotTime]
  | cons first g ih =>
    have hsum : left - (first.stop - first.start) - slotTime (g ++ [slot])
        = left - slotTime (first :: (g ++ [slot])) := by
      unfold slotTime
      rw [List.map_cons, List.sum_cons]
      omega
    rw [List.cons_append, turnEvents, ih, hsum, turnEvents]
    rfl

/-! ### One round -/

section Round

variable (hinj : Injective fun i => (w i).id)

include hinj

theorem logOf_arrivalsAt (i : Fin n) (time : ℤ) : logOf (w i).id (arrivalsAt w time)
    = if (w i).arrival = time then [arrivedEvent w i] else [] := by
  have hfilter : ((List.finRange n).filter fun j => (w j).arrival = time).filter (fun j => j = i)
      = if (w i).arrival = time then [i] else [] := by
    rw [List.filter_comm, List.filter_eq, List.count_eq_one_of_mem (List.nodup_finRange n)
      (List.mem_finRange i), List.replicate_one, List.filter_singleton]
    simp
  have hid (j : Fin n) : decide ((w j).id = (w i).id) = decide (j = i) := by
    rw [decide_eq_decide]
    exact ⟨fun heq => hinj heq, fun heq => by rw [heq]⟩
  unfold logOf arrivalsAt
  rw [List.filter_map]
  have hcongr : ((List.finRange n).filter fun j => (w j).arrival = time).filter
      ((fun e : Event => decide (e.threadId = (w i).id)) ∘ arrivedEvent w)
      = ((List.finRange n).filter fun j => (w j).arrival = time).filter (fun j => j = i) :=
    List.filter_congr fun j _ => hid j
  rw [hcongr, hfilter]
  split <;> rfl

/-- The end of a turn of thread `i`, and the start of one. -/
theorem SrtfChart.logOf_switchEvents (h : SrtfChart w c s) (i : Fin n) (sel : Option (Fin n)) :
    logOf (w i).id (switchEvents w s sel)
      = (if s.lastRunning = some i ∧ sel ≠ some i ∧ 0 < (s.t i).remaining then
          [preemptedEvent w i s.time (s.t i).remaining] else [])
        ++ if sel = some i ∧ s.lastRunning ≠ some i then [startedResumedEvent w i s.time]
          else [] := by
  unfold switchEvents
  rw [logOf_append]
  congr 1
  · cases hlast : s.lastRunning with
    | none => rfl
    | some last =>
      by_cases hi : last = i
      · simp only [hi, logOf_ite, preemptedEvent, and_true, true_and, gt_iff_lt, ne_comm]
      · have hid : (w last).id ≠ (w i).id := fun heq => hi (hinj heq)
        simp [logOf_ite, preemptedEvent, hi, hid]
  · cases sel with
    | none => rfl
    | some sel =>
      by_cases hi : sel = i
      · -- a thread that ran last has started
        have hstart : s.lastRunning = some i → (s.t i).start ≠ -1 := by
          intro hlast
          rw [h.last, Option.join_eq_some_iff] at hlast
          rw [h.core.start i, if_pos (List.mem_of_getLast? hlast)]
          unfold firstTick
          omega
        have hiff : ((s.t i).start = -1 ∨ s.lastRunning ≠ some i) ↔ s.lastRunning ≠ some i :=
          ⟨fun hor => hor.elim (fun hs hlast => hstart hlast hs) id, Or.inr⟩
        simp only [hi, logOf_ite, startedResumedEvent, and_true, true_and, hiff]
      · have hid : (w sel).id ≠ (w i).id := fun heq => hi (hinj heq)
        simp [logOf_ite, startedResumedEvent, hi, hid]

theorem logOf_completionEvents (s : SrtfState n) (i : Fin n) (sel : Option (Fin n)) :
    logOf (w i).id (completionEvents w s sel)
      = if sel = some i ∧ (s.t i).remaining = 1 then [completedEvent w i (s.time + 1)] else [] := by
  unfold completionEvents
  cases sel with
  | none => rfl
  | some sel =>
    by_cases hi : sel = i
    · simp only [hi, logOf_ite, completedEvent, and_true, true_and]
    · have hid : (w sel).id ≠ (w i).id := fun heq => hi (hinj heq)
      simp [logOf_ite, completedEvent, hi, hid]

/-- The events of thread `i` in a round. -/
theorem SrtfChart.logOf_round (h : SrtfChart w c s) (i : Fin n) :
    logOf (w i).id (srtfBody s).elog = logOf (w i).id s.elog
      ++ ((if (w i).arrival = s.time then [arrivedEvent w i] else [])
        ++ ((if s.lastRunning = some i ∧ srtfSelect s.toFlagState ≠ some i
              ∧ 0 < (s.t i).remaining then [preemptedEvent w i s.time (s.t i).remaining] else [])
          ++ if srtfSelect s.toFlagState = some i ∧ s.lastRunning ≠ some i then
              [startedResumedEvent w i s.time] else [])
        ++ if srtfSelect s.toFlagState = some i ∧ (s.t i).remaining = 1 then
            [completedEvent w i (s.time + 1)] else []) := by
  rw [srtfBody_elog h.core.sameThreads, logOf_append, logOf_append, logOf_append,
    logOf_arrivalsAt hinj, h.logOf_switchEvents hinj, logOf_completionEvents hinj]

end Round

section Slots

variable (h : SrtfChart w c s) (hown : Injective (owner w))

include h hown

/-- The last slot is of the thread that ran last. -/
theorem SrtfChart.last_slot_iff :
    s.gantt.getLast?.map GanttSlot.threadId = some (w i).id ↔ s.lastRunning = some i := by
  rw [h.core.tiles.getLast?_threadId, h.core.ticks, List.getLast?_map, h.last,
    Option.join_eq_some_iff, Option.map_eq_some_iff]
  constructor
  · rintro ⟨x, hx, hxi⟩
    have hsame : x = some i := hown hxi
    rw [hx, hsame]
  · intro hx
    exact ⟨some i, hx, rfl⟩

theorem SrtfChart.slotsOf_other (hsel : srtfSelect s.toFlagState ≠ some i) :
    slotsOf (w i).id (srtfBody s).gantt = slotsOf (w i).id s.gantt := by
  rw [srtfBody_gantt h.core.sameThreads]
  apply slotsOf_ganttPush_of_ne
  intro heq
  have hsame : srtfSelect s.toFlagState = some i := hown heq
  exact hsel hsame

/-- The remaining time is the burst less the slots so far. -/
theorem SrtfChart.remaining_eq (i : Fin n) :
    (s.t i).remaining = (w i).burst - slotTime (slotsOf (w i).id s.gantt) := by
  rw [slotTime, h.core.tiles.sum_slotsOf, h.core.ticks, count_map_owner hown, h.core.remaining i]

end Slots

/-! ### The story goes on -/

section Step

variable {l : List Event} {g : List GanttSlot}

/-- A thread that is about to start a turn has arrived and has ended its other turns. -/
theorem Told.pending (ht : Told w i s l g) (harr : (w i).arrival ≤ s.time)
    (hlast : s.lastRunning ≠ some i) (hrem : 0 < (s.t i).remaining) :
    l ++ (if (w i).arrival = s.time then [arrivedEvent w i] else [])
      = arrivedEvent w i :: turnEvents w i (w i).burst g := by
  cases ht with
  | unseen hlate =>
    rw [if_pos (le_antisymm harr hlate)]
    rfl
  | waiting hearly _ _ => rw [if_neg hearly.ne, List.append_nil]
  | running _ hrun _ _ => exact absurd hrun hlast
  | completed _ hdone => omega

variable (h : SrtfChart w c s) (hinj : Injective fun i => (w i).id) (hown : Injective (owner w))
  (ht : Told w i s (logOf (w i).id s.elog) (slotsOf (w i).id s.gantt))

include h hinj hown ht

/-- A round that runs thread `i`: its last slot ends with the round. -/
theorem Told.select (hsel : srtfSelect s.toFlagState = some i) (harr : (w i).arrival ≤ s.time)
    (hrem : 0 < (s.t i).remaining) :
    ∃ g slot, slot.stop = s.time + 1 ∧
      slotsOf (w i).id (srtfBody s).gantt = g ++ [slot] ∧
      logOf (w i).id (srtfBody s).elog = arrivedEvent w i :: turnEvents w i (w i).burst g
        ++ [startedResumedEvent w i slot.start]
        ++ if (s.t i).remaining = 1 then [completedEvent w i (s.time + 1)] else [] := by
  have hgantt := srtfBody_gantt h.core.sameThreads
  have hlog := h.logOf_round hinj i
  simp only [hsel, ne_eq, not_true_eq_false, false_and, and_false, if_false, List.nil_append,
    true_and] at hlog
  rw [hsel] at hgantt
  by_cases hlast : s.lastRunning = some i
  · -- the turn goes on
    have hearly := (h.lastRunning_least hlast).1
    rw [h.core.arrival] at hearly
    obtain ⟨g, slot, hslots, hnew⟩ := slotsOf_ganttPush_extend s.time (s.time + 1)
      ((h.last_slot_iff hown).mpr hlast)
    rw [hslots] at ht
    generalize hl : logOf (w i).id s.elog = l at ht
    generalize hg : g ++ [slot] = g' at ht
    cases ht with
    | unseen hlate => omega
    | waiting _ hnot _ => exact absurd hlast hnot
    | running _ _ _ _ =>
      obtain ⟨rfl, hsame⟩ := List.append_inj' hg rfl
      obtain rfl := List.singleton_injective hsame
      refine ⟨g, { slot with stop := s.time + 1 }, rfl, by rw [hgantt]; exact hnew, ?_⟩
      rw [hlog, hl, if_neg hearly.ne, if_neg (not_not_intro hlast), List.nil_append,
        List.nil_append]
    | completed _ hdone => omega
  · -- a turn starts
    have hnew := slotsOf_ganttPush_new s.time (s.time + 1) ((h.last_slot_iff hown).not.mpr hlast)
    have hpending := ht.pending harr hlast hrem
    refine ⟨slotsOf (w i).id s.gantt, _, rfl, by rw [hgantt]; exact hnew, ?_⟩
    rw [hlog, if_pos hlast, ← hpending]
    simp only [List.append_assoc]

theorem Told.step (hburst : ∀ i, 1 ≤ (w i).burst) :
    Told w i (srtfBody s) (logOf (w i).id (srtfBody s).elog)
      (slotsOf (w i).id (srtfBody s).gantt) := by
  obtain ⟨htime, hlast', hrem'⟩ := srtfBody_locals h.core.sameThreads
  have hremi := hrem' i
  by_cases hsel : srtfSelect s.toFlagState = some i
  · have hspec := srtfSelect_spec s.toFlagState
    rw [hsel] at hspec
    obtain ⟨hrem, harr⟩ := h.ready_iff.mp hspec.candidate
    rw [h.core.arrival] at harr
    obtain ⟨g, slot, hstop, hslots, hlog⟩ := Told.select h hinj hown ht hsel harr hrem
    rw [hslots, hlog]
    rw [if_pos hsel] at hremi
    by_cases hone : (s.t i).remaining = 1
    · rw [if_pos hone, ← hstop, List.append_assoc]
      exact .completed (by omega) (by omega)
    · rw [if_neg hone, List.append_nil]
      exact .running (by omega) (hlast'.trans hsel) (by omega) (by omega)
  · have hlog := h.logOf_round hinj i
    have hleft := h.remaining_eq hown i
    simp only [hsel, ne_eq, not_false_eq_true, true_and, false_and, if_false,
      List.append_nil] at hlog
    rw [h.slotsOf_other hown hsel, hlog]
    rw [if_neg hsel, sub_zero] at hremi
    have hne : (srtfBody s).lastRunning ≠ some i := hlast' ▸ hsel
    generalize logOf (w i).id s.elog = l at ht
    generalize slotsOf (w i).id s.gantt = g at ht hleft
    cases ht with
    | unseen hlate =>
      have hnot : s.lastRunning ≠ some i := fun hlast => by
        have hearly := (h.lastRunning_least hlast).1
        rw [h.core.arrival] at hearly
        omega
      have hfresh := h.remaining_of_arriving (i := i) (by rw [h.core.arrival]; exact hlate)
      rw [h.core.burst] at hfresh
      have hnone : ¬(s.lastRunning = some i ∧ 0 < (s.t i).remaining) := fun hand => hnot hand.1
      have := hburst i
      rw [if_neg hnone, List.append_nil, List.nil_append]
      by_cases hnow : (w i).arrival = s.time
      · rw [if_pos hnow]
        exact .waiting (g := []) (by omega) hne (by omega)
      · rw [if_neg hnow]
        exact .unseen (by omega)
    | waiting harr hnot hrem =>
      have hnone : ¬(s.lastRunning = some i ∧ 0 < (s.t i).remaining) := fun hand => hnot hand.1
      rw [if_neg harr.ne, if_neg hnone, List.append_nil, List.append_nil]
      exact .waiting (by omega) hne (by omega)
    | @running g slot harr hlast hrem hstop =>
      -- the turn ends
      rw [if_neg harr.ne, if_pos ⟨hlast, hrem⟩, List.nil_append, hleft, ← hstop]
      have htold := Told.waiting (w := w) (i := i) (s := srtfBody s) (g := g ++ [slot]) (by omega)
        hne (by omega)
      rw [turnEvents_concat] at htold
      simpa using htold
    | completed harr hdone =>
      have hnone : ¬(s.lastRunning = some i ∧ 0 < (s.t i).remaining) := fun hand => by omega
      rw [if_neg harr.ne, if_neg hnone, List.append_nil, List.append_nil]
      exact .completed (by omega) (by omega)

end Step

/-! ### The whole run -/

/-- In every state of the loop the log tells of every thread what the chart shows. -/
theorem SrtfReaches.told (hburst : ∀ i, 1 ≤ (w i).burst) (harr : ∀ i, 0 ≤ (w i).arrival)
    (hinj : Injective fun i => (w i).id) (hown : Injective (owner w)) (hs : SrtfReaches w s)
    (i : Fin n) : Told w i s (logOf (w i).id s.elog) (slotsOf (w i).id s.gantt) := by
  induction hs with
  | start => exact .unseen (harr i)
  | next hs _ ih =>
    obtain ⟨c, h⟩ := SrtfReaches.chart hburst hs
    exact ih.step h hinj hown hburst

/-- The events of thread `i` are those of its slots: the thread is preempted at the end of each but
the last one, with what it then has left, and completed at the end of that. -/
def MatchesChart (w : Fin n → Thread) (out : Output n) (i : Fin n) : Prop :=
  ∃ g slot, slotsOf (w i).id out.gantt = g ++ [slot] ∧
    logOf (w i).id out.elog = arrivedEvent w i :: turnEvents w i (w i).burst g
      ++ [startedResumedEvent w i slot.start, completedEvent w i slot.stop]

/-- **The log of SRTF matches its chart.** -/
theorem srtf_log_matches_chart (w : Fin n → Thread) (hburst : ∀ i, 1 ≤ (w i).burst)
    (harr : ∀ i, 0 ≤ (w i).arrival) (hid : ∀ i, (w i).id ≠ -1)
    (hinj : Injective fun i => (w i).id) :
    (∃ fuel out, schedulerSrtf fuel w = some out) ∧
    ∀ fuel out, schedulerSrtf fuel w = some out → ∀ i, MatchesChart w out i := by
  refine ⟨Algorithm.srtf.terminates hburst fun _ => trivial, fun fuel out hout i => ?_⟩
  obtain ⟨s, hloop, ⟨⟩⟩ := Option.bind_eq_some_iff.mp hout
  obtain ⟨c, hcore, hfinal, -, -⟩ := (srtfSimulation w hburst).final hburst hloop
  have hs : SrtfReaches w s := (loopState_of_whileLoop hloop).1
  have htold := hs.told hburst harr hinj (owner_injective hid hinj) i
  -- every thread is completed
  have hdone : (s.t i).remaining = 0 := by
    rw [hcore.remaining i, hfinal.complete i, sub_self]
  show ∃ g slot, slotsOf (w i).id s.gantt = g ++ [slot] ∧ logOf (w i).id s.elog = _
  generalize logOf (w i).id s.elog = l at htold
  generalize slotsOf (w i).id s.gantt = g at htold
  cases htold with
  | unseen hlate =>
    obtain ⟨c', h⟩ := hs.chart hburst
    have hfresh := h.remaining_of_arriving (i := i) (by rw [h.core.arrival]; exact hlate)
    rw [h.core.burst] at hfresh
    have := hburst i
    omega
  | waiting _ _ hrem => omega
  | running _ _ hrem _ => omega
  | completed _ _ => exact ⟨_, _, rfl, rfl⟩

theorem srtf_log_matches_chart_two :
    (∃ fuel out, schedulerSrtf fuel (orig ![3, 1] ![0, 1]) = some out) ∧
    ∀ fuel out, schedulerSrtf fuel (orig ![3, 1] ![0, 1]) = some out →
      ∀ i, MatchesChart (orig ![3, 1] ![0, 1]) out i :=
  srtf_log_matches_chart (orig ![3, 1] ![0, 1]) (by decide) (by decide) (by decide) (by decide)

end OsLabs.Scheduling
