import OsLabs.Scheduling.Equiv.Srtf

/-!
# RR drives the machine

A round enqueues the threads that have arrived, takes the first one off the queue and runs it for
a slice.  During the slice the loop over its ticks enqueues the threads that arrive, and after it
the thread itself goes back to the queue unless it is finished.  `QueueInv` says that the queue
lists, without repetition, the threads with `in_q`, and that these have arrived and are not
finished; as every arrived unfinished thread is enqueued before a dispatch, the queue is empty
only when there is none.
-/

namespace OsLabs.Scheduling

open Function

variable {n : ℕ}

/-! ### The queue -/

/-- The part of `q` that is still to be dispatched. -/
def RrState.queue (s : RrState n) : List (Fin n) := s.q.drop s.head

structure QueueInv (s : RrState n) : Prop where
  head_le : s.head ≤ s.q.length
  nodup : s.queue.Nodup
  mem_iff : ∀ i, i ∈ s.queue ↔ s.inQ i = true
  live : ∀ i, s.inQ i = true → 0 < (s.t i).remaining ∧ (s.t i).arrival ≤ s.time

/-- Threads are appended to the queue. -/
theorem QueueInv.append {s : RrState n} (h : QueueInv s) {l : List (Fin n)} (hl : l.Nodup)
    (hnew : ∀ i ∈ l, s.inQ i = false ∧ 0 < (s.t i).remaining ∧ (s.t i).arrival ≤ s.time)
    {inQ : Fin n → Bool} (hinQ : ∀ i, inQ i = true ↔ s.inQ i = true ∨ i ∈ l) :
    QueueInv { s with q := s.q ++ l, inQ := inQ } := by
  have hqueue : RrState.queue { s with q := s.q ++ l, inQ := inQ } = s.queue ++ l :=
    List.drop_append_of_le_length h.head_le
  refine ⟨?_, ?_, fun i => ?_, fun i hi => ?_⟩
  · show s.head ≤ (s.q ++ l).length
    rw [List.length_append]
    exact h.head_le.trans (Nat.le_add_right ..)
  · rw [hqueue, List.nodup_append]
    refine ⟨h.nodup, hl, ?_⟩
    rintro i hi j hj rfl
    have hin := (h.mem_iff i).mp hi
    exact absurd ((hnew i hj).1.symm.trans hin) (by decide)
  · rw [hqueue, List.mem_append, h.mem_iff i]
    exact (hinQ i).symm
  · rcases (hinQ i).mp hi with hin | hin
    · exact h.live i hin
    · exact (hnew i hin).2

theorem QueueInv.enqueue {s : RrState n} (h : QueueInv s) {i : Fin n} (hi : s.inQ i = false)
    (hrem : 0 < (s.t i).remaining) (harr : (s.t i).arrival ≤ s.time) :
    QueueInv (s.enqueue i) := by
  refine h.append (List.nodup_singleton i) (fun j hj => ?_) fun j => ?_
  · rw [List.mem_singleton.mp hj]
    exact ⟨hi, hrem, harr⟩
  · rw [List.mem_singleton]
    by_cases hji : j = i
    · simp [hji]
    · simp [hji]

/-- The threads with `new` that are not in the queue are appended to it. -/
def RrState.enqueueNew (s : RrState n) (new : Fin n → Prop) [DecidablePred new] : RrState n :=
  { s with
    q := s.q ++ (List.finRange n).filter fun i => new i ∧ s.inQ i = false
    inQ := fun i => s.inQ i || decide (new i) }

/-- Both enqueueing loops. -/
theorem foldl_enqueue {new : Fin n → Prop} [DecidablePred new] {s : RrState n}
    {f : RrState n → Fin n → RrState n}
    (hf : ∀ s' i, s'.toSched = s.toSched →
      f s' i = if new i ∧ s'.inQ i = false then s'.enqueue i else s') :
    (List.finRange n).foldl f s = s.enqueueNew new := by
  -- over any list of threads
  have hfold (l : List (Fin n)) (hl : l.Nodup) : l.foldl f s
      = { s with
          q := s.q ++ l.filter fun i => new i ∧ s.inQ i = false
          inQ := fun i => s.inQ i || decide (i ∈ l ∧ new i) } := by
    induction l using List.reverseRecOn with
    | nil => simp
    | append_singleton l i ih =>
      obtain ⟨hl, -, hdisj⟩ := List.nodup_append.mp hl
      have hnot : i ∉ l := fun hi => hdisj i hi i List.mem_cons_self rfl
      rw [List.foldl_append, List.foldl_cons, List.foldl_nil, hf _ i (by rw [ih hl]), ih hl,
        List.filter_append]
      -- the flag of `i` is still that of `s`
      have hflag : (s.inQ i || decide (i ∈ l ∧ new i)) = s.inQ i := by simp [hnot]
      simp only [hflag]
      by_cases hi : new i ∧ s.inQ i = false
      · rw [if_pos hi, RrState.enqueue]
        have hsingle : [i].filter (fun i => new i ∧ s.inQ i = false) = [i] := by
          simp [hi.1, hi.2]
        rw [hsingle, ← List.append_assoc]
        congr 1
        funext j
        by_cases hji : j = i
        · simp [hji, hi.1]
        · simp [hji]
      · rw [if_neg hi]
        have hsingle : [i].filter (fun i => new i ∧ s.inQ i = false) = [] := by simpa using hi
        rw [hsingle, List.append_nil]
        congr 1
        funext j
        by_cases hji : j = i
        · rw [hji]
          by_cases hnew : new i
          · have hin : s.inQ i = true := by simpa [hnew] using hi
            simp [hin]
          · simp [hnew]
        · simp [hji]
  rw [hfold _ (List.nodup_finRange n), RrState.enqueueNew]
  simp

theorem enqueueArrived_eq (s : RrState n) : s.enqueueArrived
    = s.enqueueNew fun i => (s.t i).arrival ≤ s.time ∧ 0 < (s.t i).remaining := by
  refine foldl_enqueue fun s' i hs' => ?_
  simp only [hs', gt_iff_lt, and_assoc]

theorem enqueueArriving_eq (sel : Fin n) (s : RrState n) : s.enqueueArriving sel
    = s.enqueueNew fun i => (s.t i).arrival = s.time ∧ 0 < (s.t i).remaining ∧ i ≠ sel := by
  refine foldl_enqueue fun s' i hs' => ?_
  simp only [hs', gt_iff_lt, and_assoc]
  congr 1
  grind

/-- The queue after a loop that enqueued, besides those already there, the threads with `new`. -/
structure Enqueued (new : Fin n → Prop) (s s' : RrState n) : Prop where
  toSched : s'.toSched = s.toSched
  inQ : ∀ i, s'.inQ i = true ↔ s.inQ i = true ∨ new i
  queue : QueueInv s → QueueInv s'

theorem enqueueNew_spec {new : Fin n → Prop} [DecidablePred new] {s : RrState n}
    (hlive : ∀ i, new i → 0 < (s.t i).remaining ∧ (s.t i).arrival ≤ s.time) :
    Enqueued new s (s.enqueueNew new) := by
  refine ⟨rfl, fun i => by simp [RrState.enqueueNew], fun h => ?_⟩
  refine h.append ((List.nodup_finRange n).filter _) (fun i hi => ?_) fun i => ?_
  · have hnew := List.of_mem_filter hi
    rw [decide_eq_true_iff] at hnew
    exact ⟨hnew.2, hlive i hnew.1⟩
  · cases hin : s.inQ i <;> simp [hin]

theorem enqueueArrived_spec (s : RrState n) :
    Enqueued (fun i => (s.t i).arrival ≤ s.time ∧ 0 < (s.t i).remaining) s s.enqueueArrived := by
  rw [enqueueArrived_eq]
  exact enqueueNew_spec fun i hi => ⟨hi.2, hi.1⟩

theorem enqueueArriving_spec (sel : Fin n) (s : RrState n) :
    Enqueued (fun i => (s.t i).arrival = s.time ∧ 0 < (s.t i).remaining ∧ i ≠ sel) s
      (s.enqueueArriving sel) := by
  rw [enqueueArriving_eq]
  exact enqueueNew_spec fun i hi => ⟨hi.2.1, hi.1.le⟩

/-- The queue when the other fields change, as long as the enqueued threads stay live. -/
theorem QueueInv.of_toSched {s : RrState n} (h : QueueInv s) {core : Sched n}
    (hlive : ∀ i, s.inQ i = true → 0 < (core.t i).remaining ∧ (core.t i).arrival ≤ core.time) :
    QueueInv { s with toSched := core } where
  head_le := h.head_le
  nodup := h.nodup
  mem_iff := h.mem_iff
  live := hlive

/-- The queue some time later. -/
theorem QueueInv.of_later {s : RrState n} (h : QueueInv s) {core : Sched n} (ht : core.t = s.t)
    (htime : s.time ≤ core.time) : QueueInv { s with toSched := core } := by
  apply h.of_toSched
  intro i hi
  obtain ⟨hrem, harr⟩ := h.live i hi
  rw [ht]
  exact ⟨hrem, harr.trans htime⟩

/-- Taking the first thread off the queue. -/
theorem QueueInv.pop {s : RrState n} (h : QueueInv s) {sel : Fin n}
    (hsel : s.q[s.head]? = some sel) :
    s.inQ sel = true ∧ QueueInv { s with head := s.head + 1, inQ := update s.inQ sel false } := by
  obtain ⟨hlt, hget⟩ := List.getElem?_eq_some_iff.mp hsel
  have hqueue : s.queue = sel :: s.q.drop (s.head + 1) := by
    rw [RrState.queue, List.drop_eq_getElem_cons hlt, hget]
  have hnodup := h.nodup
  rw [hqueue, List.nodup_cons] at hnodup
  have hin : s.inQ sel = true := (h.mem_iff sel).mp (by rw [hqueue]; exact List.mem_cons_self)
  refine ⟨hin, hlt, hnodup.2, fun i => ?_, fun i hi => ?_⟩
  · show i ∈ s.q.drop (s.head + 1) ↔ update s.inQ sel false i = true
    by_cases hi : i = sel
    · simp [hi, hnodup.1]
    · have hmem := h.mem_iff i
      rw [hqueue, List.mem_cons] at hmem
      simpa [hi] using hmem
  · have hflag : update s.inQ sel false i = true := hi
    by_cases his : i = sel
    · rw [his, update_self] at hflag
      exact absurd hflag (by decide)
    · rw [update_of_ne his] at hflag
      exact h.live i hflag

/-! ### The slice -/

/-- The state after `k` ticks of the slice of `sel`. -/
structure Sliced (w : Fin n → Thread) (sel : Fin n) (k : ℕ) (s s' : RrState n) : Prop where
  toSched : s'.toSched = { s.toSched with
    elog := s.elog ++ arrivalsIn w (s.time + 1) (s.time + k), time := s.time + k }
  inQ : s.inQ sel = false → s'.inQ sel = false
  queue : QueueInv s → QueueInv s'

theorem rrTick_eq {w : Fin n → Thread} {s : RrState n} (hw : SameThreads w s.t) (sel : Fin n) :
    rrTick sel s = RrState.enqueueArriving sel
      { s with elog := s.elog ++ arrivalsAt w (s.time + 1), time := s.time + 1 } := by
  unfold rrTick
  simp only [Sched.arrivals, checkArrivals_eq hw, arrivalsIn_self]

theorem iterate_rrTick {w : Fin n → Thread} {s : RrState n} (hw : SameThreads w s.t) (sel : Fin n)
    (k : ℕ) : Sliced w sel k s ((rrTick sel)^[k] s) := by
  induction k with
  | zero =>
    refine ⟨?_, id, id⟩
    rw [arrivalsIn_of_lt w (by simp)]
    simp
  | succ k ih =>
    rw [iterate_succ_apply']
    generalize (rrTick sel)^[k] s = s₁ at ih
    obtain ⟨hsched, hinQ, hqueue⟩ := ih
    have hw₁ : SameThreads w s₁.t := by
      rw [hsched]
      exact hw
    -- the tick before its enqueueing loop
    have hspec := enqueueArriving_spec sel
      { s₁ with elog := s₁.elog ++ arrivalsAt w (s₁.time + 1), time := s₁.time + 1 }
    rw [rrTick_eq hw₁]
    refine ⟨?_, fun hsel => ?_, fun hs => hspec.queue ((hqueue hs).of_later rfl ?_)⟩
    · have hcast : s.time + ((k + 1 : ℕ) : ℤ) = s.time + k + 1 := by
        push_cast
        omega
      rw [hspec.toSched]
      simp only [hsched, hcast, arrivalsIn_succ w (show s.time + 1 ≤ s.time + k + 1 by omega),
        List.append_assoc]
    · have hnot := (hspec.inQ sel).not.mpr (by simp [hinQ hsel])
      simpa using hnot
    · exact Int.le_add_one le_rfl

/-! ### One round -/

/-- The log of RR after a slice of `k` ticks. -/
def sliceLog (w : Fin n → Thread) (s : Sched n) (sel : Fin n) (k : ℕ) : List Event :=
  s.elog ++ (if (s.t sel).start = -1 then [startedEvent w sel s.time] else [])
    ++ arrivalsIn w (s.time + 1) (s.time + k)

/-- The branch of `scheduler_rr` with a thread to run. -/
def RrState.slice (s : RrState n) (sel : Fin n) : RrState n :=
  let s := { s with head := s.head + 1, inQ := update s.inQ sel false }
  let s := { s with toSched := s.toSched.startRr sel }
  let run := runTime (s.t sel)
  let s := { s with gantt := ganttPush s.gantt (s.t sel).id s.time (s.time + run) }
  let s := (rrTick sel)^[run.toNat] s
  let s := { s with
    toSched := s.toSched.modify sel fun th => { th with remaining := th.remaining - run } }
  rrAfterSlice sel s

/-- The thread that a round dispatches. -/
def RrState.next (s : RrState n) : Option (Fin n) := s.enqueueArrived.q[s.enqueueArrived.head]?

/-- The state of a round in which `head < tail` is tested. -/
def RrState.atDispatch (s : RrState n) : RrState n :=
  RrState.enqueueArrived { s with toSched := s.toSched.arrivals s.time s.time }

/-- The same, with the arrivals it has logged. -/
def RrState.polled (s : RrState n) (w : Fin n → Thread) : RrState n :=
  RrState.enqueueArrived { s with elog := s.elog ++ arrivalsAt w s.time }

section Round

variable {w : Fin n → Thread} {s : RrState n} {sel : Fin n}

/-- The enqueueing loop does not look at the log. -/
theorem polled_eq (s : RrState n) (w : Fin n → Thread) : s.polled w
    = { s.enqueueArrived with elog := s.elog ++ arrivalsAt w s.time } := by
  unfold RrState.polled RrState.enqueueArrived
  refine List.foldl_hom (fun s' : RrState n => { s' with elog := s.elog ++ arrivalsAt w s.time })
    fun s' i => ?_
  by_cases hi : (s'.t i).arrival ≤ s'.time ∧ (s'.t i).remaining > 0 ∧ s'.inQ i = false
  · simp only [if_pos hi, RrState.enqueue]
  · simp only [if_neg hi]

theorem polled_next (s : RrState n) (w : Fin n → Thread) :
    (s.polled w).q[(s.polled w).head]? = s.next := by
  rw [polled_eq, RrState.next]

theorem atDispatch_eq (hw : SameThreads w s.t) : s.atDispatch = s.polled w := by
  unfold RrState.atDispatch RrState.polled
  simp only [Sched.arrivals, checkArrivals_eq hw, arrivalsIn_self]

theorem rrBody_eq (hw : SameThreads w s.t) :
    rrBody s
      = match s.next with
        | some sel => (s.polled w).slice sel
        | none => { s.polled w with toSched := (s.polled w).toSched.idle } := by
  rw [← polled_next s w, ← atDispatch_eq hw]
  rfl

theorem polled_spec (hq : QueueInv s) :
    (s.polled w).toSched = { s.toSched with elog := s.elog ++ arrivalsAt w s.time } ∧
      QueueInv (s.polled w) ∧
      ∀ i, (s.t i).arrival ≤ s.time → 0 < (s.t i).remaining → (s.polled w).inQ i = true := by
  have h := enqueueArrived_spec { s with elog := s.elog ++ arrivalsAt w s.time }
  refine ⟨h.toSched, h.queue (hq.of_toSched hq.live), fun i harr hrem => ?_⟩
  exact (h.inQ i).mpr (Or.inr ⟨harr, hrem⟩)

theorem startRr_eq {s : Sched n} (hw : SameThreads w s.t) :
    s.startRr sel
      = { s with
          t := update s.t sel { s.t sel with
            start := if (s.t sel).start = -1 then s.time else (s.t sel).start }
          elog := s.elog ++
            if (s.t sel).start = -1 then [startedEvent w sel s.time] else [] } := by
  have hid : (s.t sel).id = (w sel).id := hw.id sel
  have hb : (s.t sel).burst = (w sel).burst := hw.burst sel
  unfold Sched.startRr
  by_cases hstart : (s.t sel).start = -1
  · simp only [hstart, if_true, Sched.modify, Sched.log, logEvent, update_self, startedEvent, hid,
      hb]
  · have hsame : update s.t sel { s.t sel with
        start := if (s.t sel).start = -1 then s.time else (s.t sel).start } = s.t := by
      rw [if_neg hstart]
      exact update_eq_self sel s.t
    rw [hsame, if_neg hstart, if_neg hstart, List.append_nil]

/-- The state in which the ticks of a slice of length `k` start. -/
def RrState.dispatched (w : Fin n → Thread) (s : RrState n) (sel : Fin n) (k : ℕ) :
    RrState n where
  t := update s.t sel { s.t sel with
    start := if (s.t sel).start = -1 then s.time else (s.t sel).start }
  threads := s.threads
  gantt := ganttPush s.gantt (s.t sel).id s.time (s.time + k)
  elog := s.elog ++ if (s.t sel).start = -1 then [startedEvent w sel s.time] else []
  time := s.time
  done := s.done
  q := s.q
  head := s.head + 1
  inQ := update s.inQ sel false

theorem remaining_dispatched (w : Fin n → Thread) (s : RrState n) (sel : Fin n) (k : ℕ)
    (i : Fin n) :
    ((s.dispatched w sel k).t i).remaining = (s.t i).remaining := by
  show (update s.t sel _ i).remaining = _
  by_cases hi : i = sel
  · rw [hi, update_self]
  · rw [update_of_ne hi]

theorem slice_eq (hw : SameThreads w s.t) {k : ℕ} (hk : runTime (s.t sel) = k) :
    s.slice sel = rrAfterSlice sel { (rrTick sel)^[k] (s.dispatched w sel k) with
      toSched := ((rrTick sel)^[k] (s.dispatched w sel k)).toSched.modify sel fun th =>
        { th with remaining := th.remaining - k } } := by
  have hrun : runTime { s.t sel with
      start := if (s.t sel).start = -1 then s.time else (s.t sel).start } = k := hk
  simp only [RrState.slice, startRr_eq hw, update_self, hrun, Int.toNat_natCast,
    RrState.dispatched]

/-- The thread that is dispatched leaves the queue. -/
theorem queueInv_dispatched (hq : QueueInv s) (hsel : s.q[s.head]? = some sel) (k : ℕ) :
    QueueInv (s.dispatched w sel k) := by
  obtain ⟨hin, hpop⟩ := hq.pop hsel
  obtain ⟨hrem, harr⟩ := hq.live sel hin
  apply hpop.of_toSched
  intro i hi
  show 0 < (update s.t sel _ i).remaining ∧ (update s.t sel _ i).arrival ≤ s.time
  by_cases his : i = sel
  · rw [his, update_self]
    exact ⟨hrem, harr⟩
  · rw [update_of_ne his]
    exact hpop.live i hi

theorem slice_spec (hw : SameThreads w s.t) (hq : QueueInv s) (hsel : s.q[s.head]? = some sel)
    {k : ℕ} (hk : runTime (s.t sel) = k) (hle : (k : ℤ) ≤ (s.t sel).remaining) :
    QueueInv (s.slice sel) ∧
      (s.slice sel).toSched
        = if (s.t sel).remaining = k then
            s.toSched.ranToEnd sel k
              (sliceLog w s.toSched sel k ++ [completedEvent w sel (s.time + k)])
          else
            s.toSched.ranFor sel k (sliceLog w s.toSched sel k
              ++ [preemptedEvent w sel (s.time + k) ((s.t sel).remaining - k)]) := by
  obtain ⟨hin, -⟩ := hq.pop hsel
  obtain ⟨-, harr⟩ := hq.live sel hin
  have hw₂ : SameThreads w (s.dispatched w sel k).t := hw.update rfl rfl rfl
  have hsel₂ : (s.dispatched w sel k).inQ sel = false := update_self ..
  -- the ticks
  obtain ⟨hsched, hinQ, hqueue⟩ := iterate_rrTick hw₂ sel k
  rw [slice_eq hw hk]
  generalize (rrTick sel)^[k] (s.dispatched w sel k) = s₃ at hsched hinQ hqueue
  have hq₃ := hqueue (queueInv_dispatched hq hsel k)
  have hsel₃ := hinQ hsel₂
  have hlive {t : Fin n → Thread} (ht : ∀ i ≠ sel, t i = s₃.t i) {i : Fin n}
      (hi : s₃.inQ i = true) : 0 < (t i).remaining ∧ (t i).arrival ≤ s₃.time := by
    have hne : i ≠ sel := fun heq => by
      rw [heq, hsel₃] at hi
      exact absurd hi (by decide)
    rw [ht i hne]
    exact hq₃.live i hi
  -- after the ticks
  have hid : (s.t sel).id = (w sel).id := hw.id sel
  have hrem₃ : (s₃.t sel).remaining = (s.t sel).remaining := by
    rw [hsched]
    exact remaining_dispatched w s sel k sel
  unfold rrAfterSlice
  simp only [Sched.modify, update_self, hrem₃]
  by_cases hfin : (s.t sel).remaining = k
  · rw [if_pos hfin, if_neg (by omega)]
    refine ⟨hq₃.of_toSched fun i hi => hlive (fun j hj => ?_) hi, ?_⟩
    · simp [Sched.complete, Sched.log, hj]
    · simp only [hsched, RrState.dispatched, Sched.complete, Sched.log, logEvent, update_self,
        update_idem, Sched.ranToEnd, Thread.ranFor, Thread.finished, sliceLog, completedEvent, hid]
  · rw [if_neg hfin, if_pos (by omega)]
    refine ⟨QueueInv.enqueue ?_ hsel₃ ?_ ?_, ?_⟩
    · exact hq₃.of_toSched fun i hi => hlive (fun j hj => by simp [Sched.log, hj]) hi
    · simp [Sched.log]
      omega
    · simp [Sched.log, hsched, RrState.dispatched]
      omega
    · simp only [hsched, RrState.dispatched, RrState.enqueue, Sched.log, logEvent, update_self,
        update_idem, Sched.ranFor, Thread.ranFor, sliceLog, preemptedEvent, hid]

theorem rrBody_idle (hw : SameThreads w s.t) (hq : QueueInv s)
    (hsel : s.next = none) :
    (∀ i, (s.t i).arrival ≤ s.time → (s.t i).remaining ≤ 0) ∧
      QueueInv (rrBody s) ∧
      (rrBody s).toSched
        = { s.toSched with
            gantt := ganttPush s.gantt (-1) s.time (s.time + 1)
            elog := s.elog ++ arrivalsAt w s.time
            time := s.time + 1 } := by
  obtain ⟨hsched, hpolled, hin⟩ := polled_spec (w := w) hq
  rw [rrBody_eq hw, hsel]
  refine ⟨fun i harr => ?_, hpolled.of_later rfl (Int.le_add_one le_rfl), ?_⟩
  · by_contra hrem
    have hmem := (hpolled.mem_iff i).mpr (hin i harr (not_le.mp hrem))
    rw [← polled_next s w] at hsel
    rw [RrState.queue, List.drop_eq_nil_of_le (List.getElem?_eq_none_iff.mp hsel)] at hmem
    exact List.not_mem_nil hmem
  · show (s.polled w).toSched.idle = _
    rw [hsched]
    rfl

theorem rrBody_run (hw : SameThreads w s.t) (hq : QueueInv s)
    (hsel : s.next = some sel) :
    (s.t sel).arrival ≤ s.time ∧ QueueInv (rrBody s) ∧
      ∃ k : ℕ, 0 < k ∧ (k : ℤ) ≤ (s.t sel).remaining ∧ runTime (s.t sel) = k ∧
        (rrBody s).toSched
          = if (s.t sel).remaining = k then
              s.toSched.ranToEnd sel k
                (sliceLog w (s.polled w).toSched sel k ++ [completedEvent w sel (s.time + k)])
            else
              s.toSched.ranFor sel k (sliceLog w (s.polled w).toSched sel k
                ++ [preemptedEvent w sel (s.time + k) ((s.t sel).remaining - k)]) := by
  obtain ⟨hsched, hpolled, -⟩ := polled_spec (w := w) hq
  have ht : (s.polled w).t = s.t := by rw [hsched]
  have htime : (s.polled w).time = s.time := by rw [hsched]
  have hhead := (polled_next s w).trans hsel
  obtain ⟨hrem, harr⟩ := hpolled.live sel (hpolled.pop hhead).1
  rw [ht] at hrem harr
  rw [htime] at harr
  obtain ⟨k, hk⟩ : ∃ k : ℕ, runTime (s.t sel) = k := by
    refine ⟨_, (Int.toNat_of_nonneg ?_).symm⟩
    unfold runTime RR_QUANTUM
    split <;> omega
  have hle : 0 < k ∧ (k : ℤ) ≤ (s.t sel).remaining := by
    unfold runTime RR_QUANTUM at hk
    split at hk <;> omega
  have hw' : SameThreads w (s.polled w).t := ht ▸ hw
  obtain ⟨hq', hs'⟩ := slice_spec hw' hpolled hhead (k := k) (by rw [ht]; exact hk)
    (by rw [ht]; exact hle.2)
  rw [rrBody_eq hw, hsel]
  refine ⟨harr, hq', k, hle.1, hle.2, hk, hs'.trans ?_⟩
  rw [ht, htime]
  simp only [Sched.ranToEnd, Sched.ranFor, hsched]

/-- A round with a thread to run, as a step of the machine. -/
theorem rrBody_ran (hw : SameThreads w s.t) (hq : QueueInv s) (hsel : s.next = some sel) :
    (s.t sel).arrival ≤ s.time ∧
      ∃ k : ℕ, 0 < k ∧ (k : ℤ) ≤ (s.t sel).remaining ∧ runTime (s.t sel) = k ∧
        Ran sel k s.toSched (rrBody s).toSched := by
  obtain ⟨harr, -, k, hk, hrem, hrun, hs'⟩ := rrBody_run hw hq hsel
  refine ⟨harr, k, hk, hrem, hrun, ?_⟩
  rw [hs']
  by_cases hfin : (s.t sel).remaining = k
  · rw [if_pos hfin]
    exact Sched.ran_ranToEnd hfin _
  · rw [if_neg hfin]
    exact Sched.ran_ranFor hfin _

end Round

/-- The ticks of a round. -/
theorem rrBody_ticks {w : Fin n → Thread} {b : Chart n} {s : RrState n} {sees : ℤ → Prop}
    (hw : SameThreads w s.t) (hq : QueueInv s)
    (hs : MachineStep w sees s.toSched (rrBody s).toSched b) :
    match s.next with
    | none => b = [none]
    | some sel => ∃ k : ℕ, runTime (s.t sel) = k ∧ b = List.replicate k (some sel) := by
  cases hsel : s.next with
  | none =>
    obtain ⟨-, -, hs'⟩ := rrBody_idle hw hq hsel
    rw [hs'] at hs
    exact hs.ticks_of_idled ⟨rfl, rfl, rfl, rfl, rfl⟩
  | some sel =>
    obtain ⟨-, k, hk, -, hrun, hran⟩ := rrBody_ran hw hq hsel
    exact ⟨k, hrun, hs.ticks_of_ran hran hk⟩

/-! ### The simulation -/

/-- RR as a simulation of the machine. -/
def rrSimulation (w : Fin n → Thread) :
    Simulation w (fun s => s.toSched) rrBody
      ({ toSched := Sched.init w, q := [], head := 0, inQ := fun _ => false } : RrState n) where
  Inv _ s := QueueInv s
  sees _ := True
  core_init := rfl
  init := ⟨le_rfl, List.nodup_nil, fun i => by simp [RrState.queue], nofun⟩
  step {c s} hcore hq _ := by
    have hw := hcore.sameThreads
    cases hsel : s.next with
    | none =>
      obtain ⟨hdone, hq', hs'⟩ := rrBody_idle hw hq hsel
      refine ⟨[none], ?_, hq'⟩
      simp only [hs']
      refine .idle ⟨rfl, rfl, rfl, rfl, rfl⟩ fun i _ harr => ?_
      have hle := hdone i (by rw [hcore.arrival i]; exact harr)
      exact le_antisymm hle (hcore.remaining_nonneg i)
    | some sel =>
      obtain ⟨harr, k, hk, hrem, -, hran⟩ := rrBody_ran hw hq hsel
      rw [hcore.arrival sel] at harr
      exact ⟨_, .run sel k hk hrem harr hran, (rrBody_run hw hq hsel).2.1⟩

end OsLabs.Scheduling
