import OsLabs.Lib.RoundRobin
import OsLabs.Scheduling.Equiv.Outputs
import OsLabs.Scheduling.Order

/-!
# RR serves a ready queue

The three enqueueing loops of `scheduler_rr` together append the threads in the order in which they
arrive: the queue of a dispatch is what the last round left of it, then the threads that arrived
during that round (`arriving`), then the thread that was preempted (`ready_run`, `ready_idle`).  So
the scheduler is the ready queue of `OsLabs.RoundRobin` with the quantum `RR_QUANTUM`
(`rr_refines_queue`).
-/

namespace OsLabs.Scheduling

open Function RoundRobin

variable {n : ℕ} {w : Fin n → Thread}

/-! ### Arrivals -/

/-- The threads that arrive after time `a` and up to time `b`, in the order of arrival. -/
def arriving (w : Fin n → Thread) (a b : ℤ) : List (Fin n) :=
  (arrivalOrder w).filter fun i => a < (w i).arrival ∧ (w i).arrival ≤ b

theorem mem_arriving {a b : ℤ} {i : Fin n} :
    i ∈ arriving w a b ↔ a < (w i).arrival ∧ (w i).arrival ≤ b := by
  simp [arriving, mem_arrivalOrder]

theorem pairwise_arriving (w : Fin n → Thread) (a b : ℤ) :
    (arriving w a b).Pairwise (Before w) := (pairwise_arrivalOrder w).filter _

theorem arriving_self (w : Fin n → Thread) (a : ℤ) : arriving w a a = [] := by
  rw [List.eq_nil_iff_forall_not_mem]
  intro i hi
  have := mem_arriving.mp hi
  omega

theorem arriving_append {a b c : ℤ} (hab : a ≤ b) (hbc : b ≤ c) :
    arriving w a b ++ arriving w b c = arriving w a c := by
  refine eq_of_pairwise_before ?_ (pairwise_arriving w a c) fun i => ?_
  · rw [List.pairwise_append]
    refine ⟨pairwise_arriving w a b, pairwise_arriving w b c, fun i hi j hj => ?_⟩
    exact Or.inl ((mem_arriving.mp hi).2.trans_lt (mem_arriving.mp hj).1)
  · rw [List.mem_append, mem_arriving, mem_arriving, mem_arriving]
    omega

/-- Threads that arrive together come in the order of their indices. -/
theorem filter_finRange_eq {l : List (Fin n)} (hl : l.Pairwise (Before w)) {p : Fin n → Prop}
    [DecidablePred p] {t : ℤ} (hp : ∀ i, p i → (w i).arrival = t) (hmem : ∀ i, i ∈ l ↔ p i) :
    (List.finRange n).filter (fun i => p i) = l := by
  refine eq_of_pairwise_before ?_ hl fun i => ?_
  · refine ((List.pairwise_lt_finRange n).filter _).imp_of_mem fun {i j} hi hj hij => ?_
    have hpi := List.of_mem_filter hi
    have hpj := List.of_mem_filter hj
    rw [decide_eq_true_iff] at hpi hpj
    exact Or.inr ⟨(hp i hpi).trans (hp j hpj).symm, hij⟩
  · rw [hmem i]
    simp

/-! ### The queue of a round -/

section Queue

variable {s : RrState n} {sel : Fin n}

theorem enqueueNew_queue {new : Fin n → Prop} [DecidablePred new] (hq : QueueInv s) :
    (s.enqueueNew new).queue
      = s.queue ++ (List.finRange n).filter fun i => new i ∧ s.inQ i = false :=
  List.drop_append_of_le_length hq.head_le

/-- The queue when a round asks for the next thread. -/
def RrState.ready (s : RrState n) : List (Fin n) := s.enqueueArrived.queue

theorem next_eq_head? (s : RrState n) : s.next = s.ready.head? := by
  rw [RrState.next, RrState.ready, RrState.queue, List.head?_drop]

theorem next_of_cons {rest : List (Fin n)} (h : s.ready = sel :: rest) : s.next = some sel := by
  rw [next_eq_head?, h, List.head?_cons]

theorem next_of_nil (h : s.ready = []) : s.next = none := by
  rw [next_eq_head?, h, List.head?_nil]

theorem polled_queue (s : RrState n) (w : Fin n → Thread) : (s.polled w).queue = s.ready := by
  rw [polled_eq]
  rfl

/-- The queue holds the arrived unfinished threads. -/
theorem mem_ready_iff (hq : QueueInv s) {i : Fin n} :
    i ∈ s.ready ↔ (s.t i).arrival ≤ s.time ∧ 0 < (s.t i).remaining := by
  have h := enqueueArrived_spec s
  rw [RrState.ready, (h.queue hq).mem_iff, h.inQ]
  constructor
  · rintro (hin | hnew)
    · exact (hq.live i hin).symm
    · exact hnew
  · exact Or.inr

/-- The ticks of a slice append the threads that arrive. -/
theorem iterate_rrTick_queue (hw : SameThreads w s.t) (hq : QueueInv s)
    (hsel : (w sel).arrival ≤ s.time)
    (hfresh : ∀ i, s.time < (w i).arrival → 0 < (s.t i).remaining) (k : ℕ) :
    ((rrTick sel)^[k] s).queue = s.queue ++ arriving w s.time (s.time + k) := by
  induction k with
  | zero => simp [arriving_self]
  | succ k ih =>
    obtain ⟨hsched, -, hqueue⟩ := iterate_rrTick hw sel k
    rw [iterate_succ_apply']
    generalize (rrTick sel)^[k] s = s₁ at ih hsched hqueue
    have hw₁ : SameThreads w s₁.t := by
      rw [hsched]
      exact hw
    have htime : s₁.time = s.time + k := by rw [hsched]
    have hq₁ : QueueInv { s₁ with
        elog := s₁.elog ++ arrivalsAt w (s₁.time + 1), time := s₁.time + 1 } :=
      (hqueue hq).of_later rfl (Int.le_add_one le_rfl)
    -- nobody who arrives now is in the queue already, or is the running thread
    have hnew : (List.finRange n).filter (fun i => ((s₁.t i).arrival = s₁.time + 1 ∧
        0 < (s₁.t i).remaining ∧ i ≠ sel) ∧ s₁.inQ i = false)
          = arriving w (s.time + k) (s.time + (k + 1 : ℕ)) := by
      refine filter_finRange_eq (pairwise_arriving w _ _) (t := s₁.time + 1)
        (fun i hi => (hw₁.arrival i).symm.trans hi.1.1) fun i => ?_
      rw [mem_arriving, hw₁.arrival i, htime]
      push_cast
      constructor
      · rintro ⟨hlate, harr⟩
        refine ⟨⟨by omega, ?_, ?_⟩, ?_⟩
        · rw [hsched]
          exact hfresh i (by omega)
        · rintro rfl
          omega
        · by_contra hin
          have hlive := (hqueue hq).live i (Bool.not_eq_false _ ▸ hin)
          rw [hw₁.arrival i, htime] at hlive
          omega
      · rintro ⟨⟨harr, -, -⟩, -⟩
        omega
    rw [rrTick_eq hw₁, enqueueArriving_eq, enqueueNew_queue hq₁]
    show s₁.queue ++ (List.finRange n).filter _ = _
    rw [hnew, ih, List.append_assoc, arriving_append (by omega) (by push_cast; omega)]

/-- The queue after a slice of `k` ticks. -/
theorem slice_queue (hw : SameThreads w s.t) (hq : QueueInv s) (hsel : s.q[s.head]? = some sel)
    (hfresh : ∀ i, s.time < (w i).arrival → 0 < (s.t i).remaining) {k : ℕ}
    (hk : runTime (s.t sel) = k) :
    (s.slice sel).queue = s.queue.tail ++ arriving w s.time (s.time + k)
      ++ if k < (s.t sel).remaining then [sel] else [] := by
  have hw₂ : SameThreads w (s.dispatched w sel k).t := hw.update rfl rfl rfl
  have hq₂ : QueueInv (s.dispatched w sel k) := queueInv_dispatched hq hsel k
  obtain ⟨hin, -⟩ := hq.pop hsel
  have harr : (w sel).arrival ≤ s.time := by
    rw [← hw.arrival sel]
    exact (hq.live sel hin).2
  -- the ticks
  have hfresh₂ (i : Fin n) (hi : s.time < (w i).arrival) :
      0 < ((s.dispatched w sel k).t i).remaining := by
    rw [remaining_dispatched]
    exact hfresh i hi
  have hticks := iterate_rrTick_queue hw₂ hq₂ harr hfresh₂ k
  obtain ⟨hsched, -, hqueue⟩ := iterate_rrTick hw₂ sel k
  rw [slice_eq hw hk]
  generalize (rrTick sel)^[k] (s.dispatched w sel k) = s₃ at hticks hsched hqueue
  have hpop : (s.dispatched w sel k).queue = s.queue.tail := by
    unfold RrState.queue
    rw [List.tail_drop]
    rfl
  have hrem₃ : (s₃.t sel).remaining = (s.t sel).remaining := by
    rw [hsched]
    exact remaining_dispatched w s sel k sel
  rw [hpop] at hticks
  -- after the ticks
  unfold rrAfterSlice
  simp only [Sched.modify, update_self, hrem₃]
  by_cases hmore : k < (s.t sel).remaining
  · rw [if_pos hmore, if_pos (by omega)]
    show (s₃.q ++ [sel]).drop s₃.head = _
    rw [List.drop_append_of_le_length (hqueue hq₂).head_le]
    exact congrArg (· ++ [sel]) hticks
  · rw [if_neg hmore, if_neg (by omega), List.append_nil]
    exact hticks

/-- Nobody is enqueued when the queue has everybody already. -/
theorem ready_eq_queue (hq : QueueInv s)
    (h : ∀ i, (s.t i).arrival ≤ s.time → 0 < (s.t i).remaining → i ∈ s.queue) :
    s.ready = s.queue := by
  have hnone : (List.finRange n).filter (fun i => ((s.t i).arrival ≤ s.time ∧
      0 < (s.t i).remaining) ∧ s.inQ i = false) = [] := by
    rw [List.filter_eq_nil_iff]
    intro i _ hi
    rw [decide_eq_true_iff] at hi
    have hin := (hq.mem_iff i).mp (h i hi.1.1 hi.1.2)
    exact absurd (hi.2.symm.trans hin) (by decide)
  rw [RrState.ready, enqueueArrived_eq, enqueueNew_queue hq, hnone, List.append_nil]

end Queue

section Round

variable {c : Chart n} {s : RrState n} {sel : Fin n} {rest : List (Fin n)}

/-- **The queue after a slice**: the threads that arrived during the slice come before the thread
that had it. -/
theorem ready_run (hburst : ∀ i, 1 ≤ (w i).burst) (hcore : CoreInv w c s.toSched)
    (hq : QueueInv s) (hready : s.ready = sel :: rest) {k : ℕ} (hk : runTime (s.t sel) = k) :
    (rrBody s).ready = rest ++ arriving w s.time (s.time + k)
      ++ if k < (s.t sel).remaining then [sel] else [] := by
  have hw := hcore.sameThreads
  have hnext := next_of_cons hready
  obtain ⟨hsched, hpolled, -⟩ := polled_spec (w := w) hq
  have ht : (s.polled w).t = s.t := by rw [hsched]
  have htime : (s.polled w).time = s.time := by rw [hsched]
  have hfresh (i : Fin n) (hi : s.time < (w i).arrival) : 0 < (s.t i).remaining := by
    have := hburst i
    rw [hcore.remaining_of_arriving hi.le]
    omega
  have hqueue : (rrBody s).queue = rest ++ arriving w s.time (s.time + k)
      ++ if k < (s.t sel).remaining then [sel] else [] := by
    have hslice := slice_queue (ht ▸ hw) hpolled ((polled_next s w).trans hnext)
      (by rw [ht, htime]; exact hfresh) (k := k) (by rw [ht]; exact hk)
    rw [rrBody_eq hw, hnext]
    rw [ht, htime, polled_queue, hready, List.tail_cons] at hslice
    exact hslice
  rw [← hqueue]
  apply ready_eq_queue (rrBody_run hw hq hnext).2.1
  -- whoever is unfinished then was in the queue, or has arrived since
  obtain ⟨-, k', -, -, hk', hran⟩ := rrBody_ran hw hq hnext
  obtain rfl : k = k' := by omega
  intro i harr hrem
  rw [hqueue]
  by_cases hi : i = sel
  · rw [hi, hran.remaining] at hrem
    rw [hi, if_pos (by omega)]
    exact List.mem_append_right _ List.mem_cons_self
  · rw [(hran.others i hi).1] at harr hrem
    rw [hran.time] at harr
    rcases le_or_gt (s.t i).arrival s.time with hearly | hlate
    · have hmem := (mem_ready_iff hq).mpr ⟨hearly, hrem⟩
      rw [hready] at hmem
      exact List.mem_append_left _
        (List.mem_append_left _ (List.mem_of_ne_of_mem hi hmem))
    · rw [hcore.arrival i] at hlate harr
      exact List.mem_append_left _ (List.mem_append_right _ (mem_arriving.mpr ⟨hlate, harr⟩))

/-- **The queue after an idle tick.** -/
theorem ready_idle (hburst : ∀ i, 1 ≤ (w i).burst) (hcore : CoreInv w c s.toSched)
    (hq : QueueInv s) (hready : s.ready = []) :
    (rrBody s).ready = arriving w s.time (s.time + 1) := by
  have hw := hcore.sameThreads
  have hnext := next_of_nil hready
  obtain ⟨-, hq', hsched⟩ := rrBody_idle hw hq hnext
  obtain ⟨-, hpolled, -⟩ := polled_spec (w := w) hq
  have hbody : rrBody s = { s.polled w with toSched := (s.polled w).toSched.idle } := by
    rw [rrBody_eq hw, hnext]
  have hqueue : (rrBody s).queue = [] := by
    rw [hbody]
    show (s.polled w).queue = []
    rw [polled_queue, hready]
  have ht : (rrBody s).t = s.t := by rw [hsched]
  have htime : (rrBody s).time = s.time + 1 := by rw [hsched]
  rw [RrState.ready, enqueueArrived_eq, enqueueNew_queue hq', hqueue, List.nil_append, ht, htime]
  -- nobody who had arrived is unfinished
  have hnone (i : Fin n) (harr : (s.t i).arrival ≤ s.time) : ¬0 < (s.t i).remaining := by
    intro hrem
    have hmem := (mem_ready_iff hq).mpr ⟨harr, hrem⟩
    rw [hready] at hmem
    exact absurd hmem List.not_mem_nil
  refine filter_finRange_eq (pairwise_arriving w _ _) (t := s.time + 1) (fun i hi => ?_) fun i => ?_
  · have hlate : ¬(s.t i).arrival ≤ s.time := fun harr => hnone i harr hi.1.2
    rw [← hcore.arrival i]
    omega
  · rw [mem_arriving, ← hcore.arrival i]
    constructor
    · rintro ⟨hlate, harr⟩
      refine ⟨⟨harr, ?_⟩, ?_⟩
      · have := hburst i
        rw [hcore.remaining_of_arriving (by rw [← hcore.arrival i]; exact hlate.le)]
        omega
      · by_contra hin
        have hmem := (hq'.mem_iff i).mpr (Bool.not_eq_false _ ▸ hin)
        rw [hqueue] at hmem
        exact absurd hmem List.not_mem_nil
    · rintro ⟨⟨harr, hrem⟩, -⟩
      exact ⟨not_le.mp fun hearly => hnone i hearly hrem, harr⟩

end Round

/-! ### The run -/

/-- The state before the loop. -/
def RrState.init (w : Fin n → Thread) : RrState n where
  toSched := Sched.init w
  q := []
  head := 0
  inQ _ := false

/-- The dispatch of a round. -/
def RrState.dispatch (s : RrState n) : Option (Slice (Fin n)) :=
  s.atDispatch.q[s.atDispatch.head]?.map fun sel =>
    { job := sel, start := s.time, length := (rrBody s).time - s.time }

/-- The dispatches of `scheduler_rr`. -/
def rrDispatches (fuel : ℕ) (w : Fin n → Thread) : List (Slice (Fin n)) :=
  (loopTrace (fun s => s.running) rrBody fuel (RrState.init w)).filterMap RrState.dispatch

section Run

variable (hburst : ∀ i, 1 ≤ (w i).burst) (harr : ∀ i, 0 ≤ (w i).arrival)

/-- The threads as the jobs of a ready queue. -/
def jobs (w : Fin n → Thread) (hburst : ∀ i, 1 ≤ (w i).burst) (harr : ∀ i, 0 ≤ (w i).arrival) :
    Jobs (Fin n) where
  arrival i := (w i).arrival
  burst i := (w i).burst
  quantum := RR_QUANTUM
  order := arrivalOrder w
  arrival_nonneg := harr
  burst_pos i := by
    have := hburst i
    omega
  quantum_pos := by decide
  nodup := nodup_arrivalOrder w
  mem := mem_arrivalOrder w

/-- The ready queue `S` in the round that starts in `s`, after the dispatches `slices`. -/
structure Serves (w : Fin n → Thread) (slices : List (Slice (Fin n))) (s : RrState n)
    (S : State (Fin n)) : Prop where
  core : ∃ c, CoreInv w c s.toSched
  queueInv : QueueInv s
  time : S.time = s.time
  queue : S.queue = s.ready
  left : ∀ i, S.left i = (s.t i).remaining
  finish : ∀ i, (s.t i).remaining = 0 → S.finish i = some (s.threads i).finish
  slices : S.slices = slices

theorem serves_init : Serves w [] (RrState.init w) (jobs w hburst harr).init where
  core := ⟨[], coreInv_init hburst⟩
  queueInv := (rrSimulation w).init
  time := rfl
  queue := by
    have hq : QueueInv (RrState.init w) := (rrSimulation w).init
    rw [RrState.ready, enqueueArrived_eq, enqueueNew_queue hq]
    symm
    refine filter_finRange_eq ((pairwise_arrivalOrder w).filter _) (t := 0) (fun i hi => ?_)
      fun i => ?_
    · exact le_antisymm hi.1.1 (harr i)
    · have hpos : 0 < (w i).burst := (jobs w hburst harr).burst_pos i
      rw [List.mem_filter, decide_eq_true_iff]
      show i ∈ arrivalOrder w ∧ (w i).arrival ≤ 0
        ↔ ((w i).arrival ≤ 0 ∧ 0 < (w i).burst) ∧ false = false
      simp [mem_arrivalOrder, hpos]
  left _ := rfl
  finish i hi := by
    have hzero : (w i).burst = 0 := hi
    have := hburst i
    omega
  slices := rfl

theorem Serves.running {slices : List (Slice (Fin n))} {s : RrState n} {S : State (Fin n)}
    (h : Serves w slices s S) : (jobs w hburst harr).running S = s.running := by
  obtain ⟨c, hcore⟩ := h.core
  rw [Bool.eq_iff_iff, running_iff, hcore.running_iff]
  exact exists_congr fun i => by rw [h.left i]

theorem Serves.step {slices : List (Slice (Fin n))} {s : RrState n} {S : State (Fin n)}
    (h : Serves w slices s S) (hrun : s.running = true) :
    Serves w (slices ++ s.dispatch.toList) (rrBody s) ((jobs w hburst harr).step S) := by
  obtain ⟨c, hcore⟩ := h.core
  have hw := hcore.sameThreads
  have hq := h.queueInv
  obtain ⟨b, hstep, hq'⟩ := (rrSimulation w).step hcore hq hrun
  have hcore' := hcore.step hburst hstep
  have hnext : s.atDispatch.q[s.atDispatch.head]? = s.next := by
    rw [atDispatch_eq hw, polled_next]
  cases hready : s.ready with
  | nil =>
    have hsel := next_of_nil hready
    have hdispatch : s.dispatch = none := by rw [RrState.dispatch, hnext, hsel, Option.map_none]
    obtain ⟨-, -, hsched⟩ := rrBody_idle hw hq hsel
    rw [hdispatch, step_nil (h.queue.trans hready)]
    refine ⟨⟨_, hcore'⟩, hq', ?_, ?_, fun i => ?_, fun i hi => ?_, ?_⟩
    · show S.time + 1 = _
      rw [hsched, h.time]
    · rw [ready_idle hburst hcore hq hready, ← h.time]
      rfl
    · rw [hsched]
      exact h.left i
    · rw [hsched] at hi ⊢
      exact h.finish i hi
    · rw [Option.toList_none, List.append_nil]
      exact h.slices
  | cons sel rest =>
    have hsel := next_of_cons hready
    obtain ⟨-, k, -, -, hk, hran⟩ := rrBody_ran hw hq hsel
    have hdispatch : s.dispatch = some { job := sel, start := s.time, length := k } := by
      rw [RrState.dispatch, hnext, hsel, Option.map_some, hran.time, add_sub_cancel_left]
    have hlen : min (S.left sel) (jobs w hburst harr).quantum = k := by
      rw [h.left sel, ← hk]
      show min (s.t sel).remaining RR_QUANTUM = runTime (s.t sel)
      unfold runTime
      split <;> omega
    rw [hdispatch, step_cons (h.queue.trans hready), hlen, h.left sel]
    refine ⟨⟨_, hcore'⟩, hq', ?_, ?_, fun i => ?_, fun i hi => ?_, ?_⟩
    · show S.time + k = _
      rw [hran.time, h.time]
    · rw [ready_run hburst hcore hq hready hk, ← h.time]
      rfl
    · show update S.left sel ((s.t sel).remaining - k) i = _
      by_cases his : i = sel
      · rw [his, update_self, hran.remaining]
      · rw [update_of_ne his, (hran.others i his).1, h.left i]
    · show (if k < (s.t sel).remaining then S.finish
        else update S.finish sel (some (S.time + k))) i = _
      by_cases his : i = sel
      · rw [his, hran.remaining] at hi
        obtain ⟨-, hth, hfinish, -⟩ := hran.finished (by omega)
        rw [his, if_neg (by omega), update_self, hth, hfinish, hran.time, h.time]
      · rw [(hran.others i his).1] at hi
        rw [(hran.others i his).2, ← h.finish i hi]
        split
        · rfl
        · rw [update_of_ne his]
    · show S.slices ++ [{ job := sel, start := S.time, length := k }] = _
      rw [h.slices, h.time]
      rfl

/-- The run of `scheduler_rr` and that of the ready queue. -/
theorem exists_serves {fuel : ℕ} {s : RrState n}
    (h : whileLoop (fun s => s.running) rrBody fuel (RrState.init w) = some s) :
    ∃ S, (jobs w hburst harr).run fuel = some S ∧ Serves w (rrDispatches fuel w) s S :=
  whileLoop_record (fun hR => hR.running hburst harr) (fun hR => hR.step hburst harr)
    (serves_init hburst harr) h

/-- What `exists_serves` says of the outputs. -/
theorem schedulerRr_serves {fuel : ℕ} {out : Output n} (h : schedulerRr fuel w = some out) :
    ∃ S, (jobs w hburst harr).run fuel = some S ∧ rrDispatches fuel w = S.slices ∧
      ∀ i, S.finish i = some (out.threads i).finish := by
  obtain ⟨s, hloop, ⟨⟩⟩ := Option.bind_eq_some_iff.mp h
  obtain ⟨S, hrun, hserves⟩ := exists_serves hburst harr hloop
  obtain ⟨c, hcore⟩ := hserves.core
  have hdone := hcore.remaining_of_not_running (loopState_of_whileLoop hloop).2
  exact ⟨S, hrun, hserves.slices.symm, fun i => hserves.finish i (hdone i)⟩

/-- **RR refines the ready queue.** -/
theorem rr_refines_queue (w : Fin n → Thread) (hburst : ∀ i, 1 ≤ (w i).burst)
    (harr : ∀ i, 0 ≤ (w i).arrival) :
    (∃ fuel out, schedulerRr fuel w = some out) ∧
    (∀ fuel out, schedulerRr fuel w = some out →
      ∃ S, (jobs w hburst harr).run fuel = some S ∧ rrDispatches fuel w = S.slices ∧
        ∀ i, S.finish i = some (out.threads i).finish) ∧
    ∀ s, LoopState (fun s => s.running) rrBody (RrState.init w) s → s.running = true →
      s.atDispatch.queue.Nodup ∧ ∀ i,
        (i ∈ s.atDispatch.queue ↔
          (w i).arrival ≤ s.atDispatch.time ∧ 0 < (s.atDispatch.t i).remaining) ∧
        (s.atDispatch.inQ i = true ↔ i ∈ s.atDispatch.queue) := by
  refine ⟨Algorithm.rr.terminates hburst fun _ => trivial,
    fun fuel out h => schedulerRr_serves hburst harr h, fun s hs _ => ?_⟩
  obtain ⟨c, hcore, hq, -, -⟩ := (rrSimulation w).invariant hburst hs
  obtain ⟨hsched, hpolled, -⟩ := polled_spec (w := w) hq
  rw [atDispatch_eq hcore.sameThreads]
  refine ⟨hpolled.nodup, fun i => ⟨?_, (hpolled.mem_iff i).symm⟩⟩
  rw [polled_queue, mem_ready_iff hq, hcore.arrival i, hsched]

theorem rr_refines_queue_two :
    (∃ fuel out, schedulerRr fuel (orig ![3, 1] ![0, 1]) = some out) ∧
    (∀ fuel out, schedulerRr fuel (orig ![3, 1] ![0, 1]) = some out →
      ∃ S, (jobs (orig ![3, 1] ![0, 1]) (by decide) (by decide)).run fuel = some S ∧
        rrDispatches fuel (orig ![3, 1] ![0, 1]) = S.slices ∧
        ∀ i, S.finish i = some (out.threads i).finish) ∧
    ∀ s, LoopState (fun s => s.running) rrBody (RrState.init (orig ![3, 1] ![0, 1])) s →
      s.running = true → s.atDispatch.queue.Nodup ∧ ∀ i,
        (i ∈ s.atDispatch.queue ↔ (orig ![3, 1] ![0, 1] i).arrival ≤ s.atDispatch.time ∧
          0 < (s.atDispatch.t i).remaining) ∧
        (s.atDispatch.inQ i = true ↔ i ∈ s.atDispatch.queue) :=
  rr_refines_queue (orig ![3, 1] ![0, 1]) (by decide) (by decide)

end Run

end OsLabs.Scheduling
