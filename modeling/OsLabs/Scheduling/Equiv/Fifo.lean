import OsLabs.Scheduling.Equiv.Policy

/-!
# FIFO in closed form

In the order of arrival, with arrivals `a_k` and bursts `b_k`, FIFO starts the `k`-th thread at
`s_k = max (f_{k-1}) a_k` and finishes it at `f_k = s_k + b_k`, where `f_0 = 0`.  `fifoFinish` is
the recurrence and `fifoSlots` lists the slots it gives, an idle one wherever `f_{k-1} < a_k`.

The chart of FIFO runs the threads one after another in that order (`Final.eq_sequential`), because
both are work-conserving and follow the order of arrival.
-/

namespace OsLabs.Scheduling

open Function UnitSchedule

variable {n : ℕ} {w : Fin n → Thread} {c : Chart n} {out : Output n}

/-! ### The recurrence -/

/-- `f_k`, when the first threads `l` of an order have been run. -/
def fifoFinish (w : Fin n → Thread) (l : List (Fin n)) : ℤ :=
  l.foldl (fun f i => max f (w i).arrival + (w i).burst) 0

/-- The slot of thread `i`, and the idle one before it, when the CPU is free from time `f` on. -/
def fifoSlot (w : Fin n → Thread) (f : ℤ) (i : Fin n) : List GanttSlot :=
  if f < (w i).arrival then
    [{ threadId := -1, start := f, stop := (w i).arrival },
      { threadId := (w i).id, start := (w i).arrival, stop := (w i).arrival + (w i).burst }]
  else [{ threadId := (w i).id, start := f, stop := f + (w i).burst }]

/-- The slots of the threads of an order. -/
def fifoSlots (w : Fin n → Thread) : ℤ → List (Fin n) → List GanttSlot
  | _, [] => []
  | f, i :: l => fifoSlot w f i ++ fifoSlots w (max f (w i).arrival + (w i).burst) l

theorem fifoFinish_concat (w : Fin n → Thread) (l : List (Fin n)) (i : Fin n) :
    fifoFinish w (l ++ [i]) = max (fifoFinish w l) (w i).arrival + (w i).burst := by
  rw [fifoFinish, List.foldl_append]
  rfl

theorem fifoSlots_concat (w : Fin n → Thread) (l : List (Fin n)) (i : Fin n) :
    fifoSlots w 0 (l ++ [i]) = fifoSlots w 0 l ++ fifoSlot w (fifoFinish w l) i := by
  -- from any time on
  have hfrom (l : List (Fin n)) (f : ℤ) : fifoSlots w f (l ++ [i]) = fifoSlots w f l ++
      fifoSlot w (l.foldl (fun f i => max f (w i).arrival + (w i).burst) f) i := by
    induction l generalizing f with
    | nil => simp [fifoSlots]
    | cons j l ih => rw [List.cons_append, fifoSlots, ih, fifoSlots, List.foldl_cons,
        List.append_assoc]
  exact hfrom l 0

/-- The outputs of the closed form. -/
structure ClosedForm (w : Fin n → Thread) (out : Output n) : Prop where
  start : ∀ k i, (arrivalOrder w)[k]? = some i →
    (out.threads i).start = max (fifoFinish w ((arrivalOrder w).take k)) (w i).arrival
  finish : ∀ k i, (arrivalOrder w)[k]? = some i →
    (out.threads i).finish = (out.threads i).start + (w i).burst ∧
      (out.threads i).finish = fifoFinish w ((arrivalOrder w).take (k + 1))
  waiting : ∀ i, (out.threads i).waiting = (out.threads i).start - (w i).arrival
  gantt : out.gantt = pushAll (fifoSlots w 0 (arrivalOrder w))
  /-- Threads with identities of their own are not merged. -/
  slots : (∀ i, (w i).id ≠ -1) → (Injective fun i => (w i).id) →
    out.gantt = fifoSlots w 0 (arrivalOrder w)

/-- The recurrence is that of jobs run one after another. -/
theorem finishAfter_eq (hw : Workload w) (l : List (Fin n)) :
    (finishAfter (release w) (need w) l : ℤ) = fifoFinish w l := by
  induction l using List.reverseRecOn with
  | nil => rfl
  | append_singleton l i ih =>
    have harr := hw.arrival_nonneg i
    have hburst := hw.burst i
    rw [finishAfter_concat, fifoFinish_concat, ← ih]
    unfold release need
    omega

theorem fifoSlot_spec {f : ℤ} {i : Fin n} (hburst : 1 ≤ (w i).burst) :
    Tiles f (fifoSlot w f i) (max f (w i).arrival + (w i).burst) ∧
      ticks (fifoSlot w f i) = List.replicate ((w i).arrival - f).toNat (-1)
        ++ List.replicate (w i).burst.toNat (w i).id := by
  unfold fifoSlot
  by_cases hidle : f < (w i).arrival
  · rw [if_pos hidle, max_eq_right hidle.le]
    refine ⟨⟨rfl, hidle, rfl, by simp; omega, rfl⟩, ?_⟩
    rw [ticks_cons, ticks_cons, ticks_nil, List.append_nil, GanttSlot.ticks, GanttSlot.ticks,
      add_sub_cancel_left]
  · have hgap : ((w i).arrival - f).toNat = 0 := by omega
    rw [if_neg hidle, max_eq_left (not_lt.mp hidle), hgap]
    refine ⟨⟨rfl, by simp; omega, rfl⟩, ?_⟩
    rw [ticks_cons, ticks_nil, List.append_nil, GanttSlot.ticks, add_sub_cancel_left]
    rfl

/-- The slots say who runs in each tick. -/
theorem fifoSlots_spec (hw : Workload w) (l : List (Fin n)) :
    Tiles 0 (fifoSlots w 0 l) (fifoFinish w l) ∧
      ticks (fifoSlots w 0 l) = (sequential (release w) (need w) l).map (owner w) := by
  induction l using List.reverseRecOn with
  | nil => exact ⟨rfl, rfl⟩
  | append_singleton l i ih =>
    obtain ⟨htiles, hticks⟩ := ih
    obtain ⟨hslot, hslotTicks⟩ := fifoSlot_spec (f := fifoFinish w l) (hw.burst i)
    have hgap : ((w i).arrival - fifoFinish w l).toNat
        = release w i - (sequential (release w) (need w) l).length := by
      have harr := hw.arrival_nonneg i
      have hfin := finishAfter_eq hw l
      rw [length_sequential]
      unfold release at *
      omega
    rw [fifoSlots_concat, fifoFinish_concat, sequential_concat]
    refine ⟨tiles_append.mpr ⟨_, htiles, hslot⟩, ?_⟩
    rw [ticks_append, hticks, hslotTicks, hgap, List.map_append, List.map_append,
      List.map_replicate, List.map_replicate, List.append_assoc]
    rfl

/-- Threads with identities of their own have slots of their own. -/
theorem merged_fifoSlots (hid : ∀ i, (w i).id ≠ -1) (hinj : Injective fun i => (w i).id)
    {l : List (Fin n)} (hnd : l.Nodup) : Merged (fifoSlots w 0 l) ∧
      ∀ x ∈ ((fifoSlots w 0 l).map GanttSlot.threadId).getLast?, ∃ j ∈ l, x = (w j).id := by
  induction l using List.reverseRecOn with
  | nil => exact ⟨List.isChain_nil, by simp [fifoSlots]⟩
  | append_singleton l i ih =>
    obtain ⟨hchain, hlast⟩ := ih hnd.of_append_left
    -- the new slots are of nobody and of `i`
    have hnew : (fifoSlot w (fifoFinish w l) i).map GanttSlot.threadId = [-1, (w i).id] ∨
        (fifoSlot w (fifoFinish w l) i).map GanttSlot.threadId = [(w i).id] := by
      unfold fifoSlot
      by_cases hidle : fifoFinish w l < (w i).arrival
      · exact Or.inl (by rw [if_pos hidle]; rfl)
      · exact Or.inr (by rw [if_neg hidle]; rfl)
    have hne (j : Fin n) (hj : j ∈ l) : (w j).id ≠ (w i).id := by
      intro heq
      rw [hinj heq] at hj
      exact (List.nodup_append.mp hnd).2.2 i hj i List.mem_cons_self rfl
    unfold Merged at hchain ⊢
    rw [fifoSlots_concat, List.map_append, List.isChain_append]
    refine ⟨⟨hchain, ?_, fun x hx y hy => ?_⟩, fun x hx => ⟨i, by simp, ?_⟩⟩
    · rcases hnew with hnew | hnew <;> rw [hnew]
      · exact List.isChain_pair.mpr (hid i).symm
      · exact List.isChain_singleton _
    · obtain ⟨j, hj, rfl⟩ := hlast x hx
      rcases hnew with hnew | hnew <;> rw [hnew] at hy <;> obtain rfl := Option.some.inj hy
      · exact hid j
      · exact hne j hj
    · rcases hnew with hnew | hnew <;> rw [hnew] at hx <;> simpa using hx.symm

/-! ### The chart of FIFO -/

/-- FIFO runs the threads one after another. -/
theorem Final.eq_sequential (hw : Workload w) (h : Final w c out) (hc : Along (Conserving w) c)
    (hf : Along (FirstArrived w) c) : c = sequential (release w) (need w) (arrivalOrder w) := by
  have hsorted : (arrivalOrder w).Pairwise fun i j => release w i ≤ release w j := by
    refine (pairwise_arrivalOrder w).imp fun {i j} hij => ?_
    unfold Before at hij
    unfold release
    omega
  apply Chart.eq_of_sched h.ends (getLast?_sequential_ne fun i _ => need_pos hw.burst i)
  exact eq_of_followsPriority (fun _ _ _ => Before.asymm) h.feasible (h.workConserving hc)
    (followsPriority_of_firstArrived hf) (feasible_sequential (nodup_arrivalOrder w))
    (workConserving_sequential hsorted (nodup_arrivalOrder w) (mem_arrivalOrder w))
    (followsPriority_sequential (pairwise_arrivalOrder w) (nodup_arrivalOrder w)
      (mem_arrivalOrder w))

section Closed

variable {l l' : List (Fin n)} {i : Fin n} (hw : Workload w) (h : Final w c out)
  (hchart : c = sequential (release w) (need w) (l ++ i :: l')) (hnd : (l ++ i :: l').Nodup)

include hw h hchart hnd

/-- A thread starts when it has arrived and the one before it is finished. -/
theorem Final.start_closed : (out.threads i).start = max (fifoFinish w l) (w i).arrival := by
  obtain ⟨rest, heq, -⟩ := sequential_around (release w) (need w) l l' i
  obtain ⟨m, hm⟩ := Nat.exists_eq_add_one_of_ne_zero (need_pos hw.burst i).ne'
  have hnot : some i ∉ sequential (release w) (need w) l
      ++ List.replicate (release w i - (sequential (release w) (need w) l).length) none := by
    rw [List.mem_append, not_or]
    refine ⟨fun hmem => ?_, fun hmem => absurd (List.eq_of_mem_replicate hmem) (by simp)⟩
    exact (List.nodup_append.mp hnd).2.2 i (mem_sequential hmem) i List.mem_cons_self rfl
  have harr := hw.arrival_nonneg i
  rw [(h.reported i).start, firstTick, hchart, heq, hm, List.replicate_succ, List.append_assoc,
    List.idxOf_append_of_notMem hnot, List.cons_append, List.idxOf_cons_self, List.length_append,
    List.length_replicate, length_sequential, ← finishAfter_eq hw l]
  unfold release at *
  omega

theorem Final.finish_closed : (out.threads i).finish = fifoFinish w (l ++ [i]) := by
  have hdone := h.isCompletion hw.burst i
  rw [hchart] at hdone
  have heq := hdone.unique (isCompletion_sequential hnd (need_pos hw.burst i))
  have := h.finish_nonneg i
  rw [← finishAfter_eq hw]
  omega

end Closed

theorem closedForm_of_sequential (hw : Workload w) (h : Final w c out)
    (hchart : c = sequential (release w) (need w) (arrivalOrder w)) : ClosedForm w out := by
  obtain ⟨htiles, hticks⟩ := fifoSlots_spec hw (arrivalOrder w)
  have hlen : (c.length : ℤ) = fifoFinish w (arrivalOrder w) := by
    rw [hchart, length_sequential, finishAfter_eq hw]
  have htiles' := h.tiles
  rw [hlen] at htiles'
  have hticks' : ticks out.gantt = ticks (fifoSlots w 0 (arrivalOrder w)) := by
    rw [h.ticks, hchart, hticks]
  -- the order around a thread
  have hthread (k : ℕ) (i : Fin n) (hk : (arrivalOrder w)[k]? = some i) :
      (out.threads i).start = max (fifoFinish w ((arrivalOrder w).take k)) (w i).arrival ∧
        (out.threads i).finish = fifoFinish w ((arrivalOrder w).take k ++ [i]) := by
    obtain ⟨hlt, hget⟩ := List.getElem?_eq_some_iff.mp hk
    have hsplit : arrivalOrder w
        = (arrivalOrder w).take k ++ i :: (arrivalOrder w).drop (k + 1) := by
      rw [← hget, ← List.drop_eq_getElem_cons hlt, List.take_append_drop]
    have hnd := nodup_arrivalOrder w
    rw [hsplit] at hchart hnd
    exact ⟨h.start_closed hw hchart hnd, h.finish_closed hw hchart hnd⟩
  have hburst (k : ℕ) (i : Fin n) (hk : (arrivalOrder w)[k]? = some i) :
      (out.threads i).finish = (out.threads i).start + (w i).burst := by
    obtain ⟨hstart, hfinish⟩ := hthread k i hk
    rw [hfinish, fifoFinish_concat, hstart]
  refine ⟨fun k i hk => (hthread k i hk).1, fun k i hk => ⟨hburst k i hk, ?_⟩, fun i => ?_, ?_, ?_⟩
  · rw [(hthread k i hk).2, List.take_add_one, hk]
    rfl
  · obtain ⟨k, hk⟩ := List.getElem?_of_mem (mem_arrivalOrder w i)
    have := hburst k i hk
    rw [h.waiting_eq, (h.reported i).turnaround]
    omega
  · obtain ⟨hpush, hmerged, hsame⟩ := pushAll_spec htiles
    exact gantt_eq htiles' h.merged hpush hmerged (hticks'.trans hsame.symm)
  · intro hid hinj
    obtain ⟨hmerged, -⟩ := merged_fifoSlots hid hinj (nodup_arrivalOrder w)
    exact gantt_eq htiles' h.merged htiles hmerged hticks'

/-- **FIFO in closed form.** -/
theorem fifo_closed_form (w : Fin n → Thread) (hw : Workload w) :
    (arrivalOrder w).Perm (List.finRange n) ∧ (arrivalOrder w).Pairwise (Before w) ∧
    (∃ fuel out, schedulerFifo fuel w = some out) ∧
    ∀ fuel out, schedulerFifo fuel w = some out → ClosedForm w out := by
  refine ⟨perm_arrivalOrder w, pairwise_arrivalOrder w,
    Algorithm.fifo.terminates hw.burst hw.arrival_lt, fun fuel out hout => ?_⟩
  obtain ⟨c, h, hcons, hfirst⟩ := schedulerFifo_firstArrived hw.burst hw.arrival_lt hout
  exact closedForm_of_sequential hw h (h.eq_sequential hw hcons hfirst)

theorem fifo_closed_form_two :
    (arrivalOrder (orig ![2, 1] ![1, 5])).Perm (List.finRange 2) ∧
    (arrivalOrder (orig ![2, 1] ![1, 5])).Pairwise (Before (orig ![2, 1] ![1, 5])) ∧
    (∃ fuel out, schedulerFifo fuel (orig ![2, 1] ![1, 5]) = some out) ∧
    ∀ fuel out, schedulerFifo fuel (orig ![2, 1] ![1, 5]) = some out →
      ClosedForm (orig ![2, 1] ![1, 5]) out :=
  fifo_closed_form (orig ![2, 1] ![1, 5]) (orig_workload (by decide) (by decide))

end OsLabs.Scheduling
