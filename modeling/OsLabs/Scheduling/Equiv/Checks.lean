import OsLabs.Scheduling.Bounded
import OsLabs.Scheduling.Equiv.Gantt

/-!
# The schedulers with arrays of their declared sizes are those without

A round of a scheduler of `Bounded.lean` computes what the round without checks computes, unless it
fails, and it does not fail when the arrays fit after it (`checks_fifoBody` and so on).  So a
scheduler that does not fail leaves the same output (`sched_of_bounded`), whatever the workload.
-/

namespace OsLabs.Scheduling.Bounded

open Function

variable {n : ℕ}

/-- The slots fit their array. -/
def GanttFits (gantt : List GanttSlot) : Prop := gantt.length ≤ SLOTS

/-- The events fit their array and the messages their buffer. -/
def LogFits (elog : List Event) : Prop :=
  elog.length ≤ EVENTS ∧ ∀ e ∈ elog, MsgFits e.message

/-- The slots and the log fit. -/
def Fits (s : Sched n) : Prop := GanttFits s.gantt ∧ LogFits s.elog

/-! ### Helpers -/

theorem checks_ganttPush (tid start stop : ℤ) (gantt : List GanttSlot) :
    Checks GanttFits (ganttPush tid start stop gantt) (Scheduling.ganttPush gantt tid start stop)
      (GanttFits gantt) := by
  refine .guard fun hfit => ?_
  unfold GanttFits at hfit ⊢
  rcases List.eq_nil_or_concat gantt with rfl | ⟨g, slot, rfl⟩
  · exact ⟨Or.inr (by decide), by decide⟩
  · rw [List.concat_eq_append] at hfit ⊢
    rw [ganttPush_concat] at hfit
    by_cases hslot : slot.threadId = tid
    · rw [if_pos hslot, List.length_append] at hfit
      exact ⟨Or.inl (by simp [hslot]), by simpa using hfit⟩
    · rw [if_neg hslot, List.length_append] at hfit
      exact ⟨Or.inr hfit, Nat.le_of_succ_le hfit⟩

theorem checks_logEvent (time tid : ℤ) (msg : Message) (elog : List Event) :
    Checks LogFits (logEvent time tid msg elog) (Scheduling.logEvent elog time tid msg)
      (LogFits elog) := by
  refine .guard ?_
  rintro ⟨hlen, hmsg⟩
  unfold Scheduling.logEvent at *
  rw [List.length_append, List.length_singleton] at hlen
  have hnew := hmsg _ (List.mem_append_right _ (List.mem_singleton_self _))
  exact ⟨⟨hnew, hlen⟩, Nat.le_of_succ_le hlen, fun e he => hmsg e (List.mem_append_left _ he)⟩

theorem checks_checkArrivals (threads : Fin n → Thread) (a b : ℤ) (elog : List Event) :
    Checks LogFits (checkArrivals threads a b elog) (Scheduling.checkArrivals threads a b elog)
      (LogFits elog) :=
  .foldlM (fun _ _ => .foldlM (fun _ _ => .ite (checks_logEvent _ _ _ _) (.pure id)) _ _) _ _

/-- A write to the log. -/
theorem checks_elog {s : Sched n} {x : Option (List Event)} {elog : List Event}
    (h : Checks LogFits x elog (LogFits s.elog)) :
    Checks Fits (x >>= fun elog => some { s with elog := elog }) { s with elog := elog }
      (Fits s) :=
  h.map fun hfits => ⟨hfits.2, fun hlog => ⟨hfits.1, hlog⟩⟩

theorem checks_log (i : Fin n) (msg : Message) (s : Sched n) :
    Checks Fits (log i msg s) (s.log i msg) (Fits s) :=
  checks_elog (checks_logEvent _ _ _ _)

theorem checks_arrivals (a b : ℤ) (s : Sched n) :
    Checks Fits (arrivals a b s) (s.arrivals a b) (Fits s) :=
  checks_elog (checks_checkArrivals _ _ _ _)

theorem checks_slot (tid start stop : ℤ) (s : Sched n) : Checks Fits (slot tid start stop s)
    { s with gantt := Scheduling.ganttPush s.gantt tid start stop } (Fits s) :=
  (checks_ganttPush tid start stop s.gantt).map fun hfits =>
    ⟨hfits.1, fun hgantt => ⟨hgantt, hfits.2⟩⟩

theorem checks_idle (s : Sched n) : Checks Fits (idle s) s.idle (Fits s) :=
  (checks_slot _ _ _ _).bind (.pure id)

theorem checks_complete (sel : Fin n) (s : Sched n) :
    Checks Fits (complete sel s) (s.complete sel) (Fits s) :=
  (checks_log _ _ _).bind (.pure id)

/-! ### Rounds -/

theorem checks_startWaited (sel : Fin n) (s : Sched n) :
    Checks Fits (startWaited sel s) (s.startWaited sel) (Fits s) :=
  .ite (checks_log _ _ _) (.pure id)

theorem checks_runThrough (sel : Fin n) (s : Sched n) :
    Checks Fits (runThrough sel s) (s.runThrough sel) (Fits s) :=
  checks_slot _ _ _ _

theorem checks_fifoBody (s : FlagState n) : Checks (fun s => Fits s.toSched) (fifoBody s)
    (Scheduling.fifoBody s) (Fits s.toSched) := by
  unfold fifoBody Scheduling.fifoBody
  cases fifoSelect s with
  | none => exact (checks_arrivals _ _ _).bind <| (checks_idle _).bind <| .pure id
  | some sel =>
    exact (checks_startWaited _ _).bind <| (checks_runThrough _ _).bind <|
      (checks_arrivals _ _ _).bind <| (checks_complete _ _).bind <| .pure id

theorem checks_sjfBody (s : FlagState n) : Checks (fun s => Fits s.toSched) (sjfBody s)
    (Scheduling.sjfBody s) (Fits s.toSched) := by
  refine (checks_arrivals _ _ _).bind ?_
  unfold Scheduling.sjfBody
  dsimp only
  cases sjfSelect { s with toSched := s.toSched.arrivals s.time s.time } with
  | none => exact (checks_idle _).bind <| .pure id
  | some sel =>
    exact (checks_startWaited _ _).bind <| (checks_runThrough _ _).bind <|
      (checks_arrivals _ _ _).bind <| (checks_arrivals _ _ _).bind <|
      (checks_complete _ _).bind <| .pure id

/-- The queue fits as well. -/
def RrFits (s : RrState n) : Prop := s.q.length ≤ QUEUE ∧ Fits s.toSched

theorem checks_enqueue (i : Fin n) (s : RrState n) :
    Checks RrFits (enqueue i s) (s.enqueue i) (RrFits s) := by
  refine .guard ?_
  rintro ⟨hqueue, hfits⟩
  rw [RrState.enqueue, List.length_append, List.length_singleton] at hqueue
  exact ⟨hqueue, Nat.le_of_succ_le hqueue, hfits⟩

theorem checks_enqueueArrived (s : RrState n) :
    Checks RrFits (enqueueArrived s) s.enqueueArrived (RrFits s) :=
  .foldlM (fun _ _ => .ite (checks_enqueue _ _) (.pure id)) _ _

theorem checks_enqueueArriving (sel : Fin n) (s : RrState n) :
    Checks RrFits (enqueueArriving sel s) (s.enqueueArriving sel) (RrFits s) :=
  .foldlM (fun _ _ => .ite (checks_enqueue _ _) (.pure id)) _ _

theorem checks_onSched {f : Sched n → Option (Sched n)} {s : RrState n} {v : Sched n}
    (h : Checks Fits (f s.toSched) v (Fits s.toSched)) :
    Checks RrFits (onSched f s) { s with toSched := v } (RrFits s) :=
  h.map fun hfits => ⟨hfits.2, fun hsched => ⟨hfits.1, hsched⟩⟩

theorem checks_rrTick (sel : Fin n) (s : RrState n) :
    Checks RrFits (rrTick sel s) (Scheduling.rrTick sel s) (RrFits s) :=
  (checks_onSched (checks_arrivals _ _ _)).bind (checks_enqueueArriving _ _)

theorem checks_startRr (sel : Fin n) (s : Sched n) :
    Checks Fits (startRr sel s) (s.startRr sel) (Fits s) :=
  .ite (checks_log _ _ _) (.pure id)

theorem checks_rrAfterSlice (sel : Fin n) (s : RrState n) :
    Checks RrFits (rrAfterSlice sel s) (Scheduling.rrAfterSlice sel s) (RrFits s) :=
  .ite ((checks_onSched (checks_log _ _ _)).bind (checks_enqueue _ _))
    (checks_onSched (checks_complete _ _))

theorem checks_ticks (sel : Fin n) (k : ℕ) (s : RrState n) :
    Checks RrFits ((List.range k).foldlM (fun s _ => rrTick sel s) s)
      ((Scheduling.rrTick sel)^[k] s) (RrFits s) := by
  have h := Checks.foldlM (fun s (_ : ℕ) => checks_rrTick sel s) (List.range k) s
  rw [List.foldl_const, List.length_range] at h
  exact h

theorem checks_rrBody (s : RrState n) :
    Checks RrFits (rrBody s) (Scheduling.rrBody s) (RrFits s) := by
  refine (checks_onSched (checks_arrivals _ _ _)).bind <| (checks_enqueueArrived _).bind ?_
  unfold Scheduling.rrBody
  dsimp only
  generalize RrState.enqueueArrived { s with toSched := s.toSched.arrivals s.time s.time } = s
  cases s.q[s.head]? with
  | none => exact checks_onSched (checks_idle _)
  | some sel =>
    exact (checks_onSched (checks_startRr _ _)).bind <|
      (checks_onSched (checks_slot _ _ _ _)).bind <|
      (checks_ticks _ _ _).bind (checks_rrAfterSlice _ _)

theorem checks_preempt (lastRunning sel : Option (Fin n)) (s : Sched n) :
    Checks Fits (preempt lastRunning sel s) (s.preempt lastRunning sel) (Fits s) := by
  cases lastRunning with
  | none => exact .pure id
  | some last => exact .ite (checks_log _ _ _) (.pure id)

theorem checks_startSrtf (lastRunning : Option (Fin n)) (sel : Fin n) (s : Sched n) :
    Checks Fits (startSrtf lastRunning sel s) (s.startSrtf lastRunning sel) (Fits s) := by
  refine .ite ?_ (.pure id)
  by_cases hstart : (s.t sel).start = -1
  · simp only [if_pos hstart]
    exact checks_log _ _ _
  · simp only [if_neg hstart]
    exact checks_log _ _ _

theorem checks_srtfBody (s : SrtfState n) : Checks (fun s => Fits s.toSched) (srtfBody s)
    (Scheduling.srtfBody s) (Fits s.toSched) := by
  refine (checks_arrivals _ _ _).bind <| (checks_preempt _ _ _).bind ?_
  unfold Scheduling.srtfBody
  dsimp only
  cases srtfSelect { s.toFlagState with toSched := s.toSched.arrivals s.time s.time } with
  | none => exact (checks_idle _).bind <| .pure id
  | some sel =>
    exact (checks_startSrtf _ _ _).bind <| (checks_slot _ _ _ _).bind <|
      .ite ((checks_complete _ _).bind <| .pure id) (.pure id)

/-! ### Whole runs -/

/-- The output of a loop that does not fail. -/
theorem output_of_checkedLoop {σ : Type} {cond : σ → Bool} {f : σ → Option σ} {F : σ → σ}
    (h : ∀ s y, f s = some y → y = F s) {output : σ → Output n} {fuel : ℕ} {s : σ}
    {out : Option (Output n)}
    (hrun : (checkedLoop cond f fuel s >>= fun result => some (result.map output)) = some out) :
    ((whileLoop cond F fuel s).bind fun s => some (output s)) = out := by
  obtain ⟨result, hloop, hout⟩ := Option.bind_eq_some_iff.mp hrun
  rw [eq_of_checkedLoop h hloop, ← Option.some.inj hout]
  cases result <;> rfl

/-- **A scheduler none of whose writes is out of bounds** leaves the output of the scheduler without
bounds, for any threads whatever and after any number of rounds. -/
theorem sched_of_bounded (alg : Algorithm) {fuel : ℕ} {threads : Fin n → Thread}
    {out : Option (Output n)} (h : sched alg fuel threads = some out) :
    alg.sched fuel threads = out := by
  cases alg with
  | fifo =>
    obtain ⟨result, hloop, hout⟩ := Option.bind_eq_some_iff.mp h
    have hresult := eq_of_checkedLoop (fun s => (checks_fifoBody s).agrees) hloop
    show (whileLoop _ _ _ _).bind _ = out
    rw [hresult]
    cases result with
    | none => exact Option.some.inj hout
    | some s =>
      -- the arrivals after the loop
      obtain ⟨c, hc, hout⟩ := Option.bind_eq_some_iff.mp hout
      rw [(checks_arrivals s.time s.time s.toSched).agrees c hc] at hout
      exact Option.some.inj hout
  | rr => exact output_of_checkedLoop (fun s => (checks_rrBody s).agrees) h
  | sjf => exact output_of_checkedLoop (fun s => (checks_sjfBody s).agrees) h
  | srtf => exact output_of_checkedLoop (fun s => (checks_srtfBody s).agrees) h

end OsLabs.Scheduling.Bounded
