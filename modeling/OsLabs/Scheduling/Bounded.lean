import OsLabs.Lib.Checked
import OsLabs.Scheduling.Scheduler

/-!
# The CPU schedulers with arrays of their declared sizes

The functions of `Scheduler.lean` once more, with every array of its declared size: a write outside
of an array fails.  The writes are those of `gantt_push`, of `log_event`, of `sprintf` and of
`q[tail++]`; what a function computes besides them is taken from there.  An `int` is a whole number
here as well.
-/

namespace OsLabs.Scheduling.Bounded

open Function

variable {n : ℕ}

/-! ### The arrays -/

/-- The size of `slots` in `gantt_t`. -/
def SLOTS : ℕ := 1024

/-- The size of `events` in `event_log_t`. -/
def EVENTS : ℕ := 1024

/-- The size of `q` in `scheduler_rr`. -/
def QUEUE : ℕ := 1000

/-- The size of `msg`. -/
def MSG : ℕ := 64

/-- The text of a message and its NUL fit `msg`. -/
def MsgFits (msg : Message) : Prop := msg.text.utf8ByteSize + 1 ≤ MSG

instance (msg : Message) : Decidable (MsgFits msg) := inferInstanceAs (Decidable (_ ≤ _))

/-- `gantt_push` -/
def ganttPush (tid start stop : ℤ) (gantt : List GanttSlot) : Option (List GanttSlot) :=
  -- a slot that is extended is in bounds
  if gantt.getLast?.map GanttSlot.threadId = some tid ∨ gantt.length < SLOTS then
    some (Scheduling.ganttPush gantt tid start stop)
  else none

/-- `sprintf` and `log_event` -/
def logEvent (time tid : ℤ) (msg : Message) (elog : List Event) : Option (List Event) :=
  if MsgFits msg ∧ elog.length < EVENTS then some (Scheduling.logEvent elog time tid msg)
  else none

/-- The inner loop of `check_arrivals`, at one time. -/
def checkArrivalsAt (threads : Fin n → Thread) (time : ℤ) (elog : List Event) :
    Option (List Event) :=
  (List.finRange n).foldlM (fun elog i =>
    if (threads i).arrival = time then
      logEvent time (threads i).id (.arrived (threads i).id (threads i).burst) elog
    else some elog) elog

/-- `check_arrivals` -/
def checkArrivals (threads : Fin n → Thread) (prevTime currentTime : ℤ) (elog : List Event) :
    Option (List Event) :=
  (List.range (currentTime + 1 - prevTime).toNat).foldlM
    (fun elog k => checkArrivalsAt threads (prevTime + (k : ℕ)) elog) elog

/-- `log_event(elog, time, t[i].id, ..)` -/
def log (i : Fin n) (msg : Message) (s : Sched n) : Option (Sched n) := do
  let elog ← logEvent s.time (s.t i).id msg s.elog
  some { s with elog := elog }

/-- `check_arrivals(t, n, .., .., elog)` -/
def arrivals (prevTime currentTime : ℤ) (s : Sched n) : Option (Sched n) := do
  let elog ← checkArrivals s.t prevTime currentTime s.elog
  some { s with elog := elog }

/-- `gantt_push(gantt, .., .., ..)` -/
def slot (tid start stop : ℤ) (s : Sched n) : Option (Sched n) := do
  let gantt ← ganttPush tid start stop s.gantt
  some { s with gantt := gantt }

/-- The branch without a thread to run. -/
def idle (s : Sched n) : Option (Sched n) := do
  let s ← slot (-1) s.time (s.time + 1) s
  some { s with time := s.time + 1 }

/-- `done++`, the `Completed` event and `threads[sel] = t[sel]`. -/
def complete (sel : Fin n) (s : Sched n) : Option (Sched n) := do
  let s ← log sel (.completed (s.t sel).id) { s with done := s.done + 1 }
  some { s with threads := update s.threads sel (s.t sel) }

/-! ### FIFO -/

/-- `Sched.startWaited` -/
def startWaited (sel : Fin n) (s : Sched n) : Option (Sched n) :=
  if (s.t sel).start = -1 then
    let s := s.modify sel fun th => { th with start := s.time, waiting := s.time - th.arrival }
    log sel (.startedWaited (s.t sel).id (s.t sel).burst (s.t sel).waiting) s
  else some s

/-- `Sched.runThrough` -/
def runThrough (sel : Fin n) (s : Sched n) : Option (Sched n) :=
  let startTime := s.time
  let s := { s with time := s.time + (s.t sel).remaining }
  let s := s.modify sel fun th => { th with remaining := 0 }
  slot (s.t sel).id startTime s.time s

/-- The loop body of `scheduler_fifo`. -/
def fifoBody (s : FlagState n) : Option (FlagState n) :=
  match fifoSelect s with
  | none => do
    let c ← arrivals s.time s.time s.toSched
    let c ← idle c
    some { s with toSched := c }
  | some sel => do
    let startTime := s.time
    let c ← startWaited sel s.toSched
    let c ← runThrough sel c
    let c ← arrivals startTime (c.time - 1) c
    let c := c.modify sel fun th =>
      { th with finish := c.time, turnaround := c.time - th.arrival }
    let c ← complete sel c
    some { toSched := c, doneFlag := update s.doneFlag sel true }

/-- `scheduler_fifo` -/
def schedulerFifo (fuel : ℕ) (threads : Fin n → Thread) : Option (Option (Output n)) := do
  let result ← checkedLoop (fun s => s.running) fifoBody fuel
    ({ toSched := Sched.init threads, doneFlag := fun _ => false } : FlagState n)
  match result with
  | none => some none
  | some s => do
    let c ← arrivals s.time s.time s.toSched
    some (some c.output)

/-! ### RR -/

/-- `q[tail++] = i`, `in_q[i] = 1` -/
def enqueue (i : Fin n) (s : RrState n) : Option (RrState n) :=
  if s.q.length < QUEUE then some (s.enqueue i) else none

/-- The enqueueing loop before a dispatch. -/
def enqueueArrived (s : RrState n) : Option (RrState n) :=
  (List.finRange n).foldlM (fun s i =>
    if (s.t i).arrival ≤ s.time ∧ (s.t i).remaining > 0 ∧ s.inQ i = false then enqueue i s
    else some s) s

/-- The enqueueing loop at a tick of the slice of `sel`. -/
def enqueueArriving (sel : Fin n) (s : RrState n) : Option (RrState n) :=
  (List.finRange n).foldlM (fun s i =>
    if (s.t i).arrival = s.time ∧ (s.t i).remaining > 0 ∧ s.inQ i = false ∧ i ≠ sel then enqueue i s
    else some s) s

/-- The functions of `Sched` on the state of `scheduler_rr`. -/
def onSched (f : Sched n → Option (Sched n)) (s : RrState n) : Option (RrState n) := do
  let c ← f s.toSched
  some { s with toSched := c }

/-- One tick of the slice of `sel`. -/
def rrTick (sel : Fin n) (s : RrState n) : Option (RrState n) := do
  let s := { s with time := s.time + 1 }
  let s ← onSched (arrivals s.time s.time) s
  enqueueArriving sel s

/-- `Sched.startRr` -/
def startRr (sel : Fin n) (s : Sched n) : Option (Sched n) :=
  if (s.t sel).start = -1 then
    let s := s.modify sel fun th => { th with start := s.time }
    log sel (.started (s.t sel).id (s.t sel).burst) s
  else some s

/-- `scheduler_rr` after the slice. -/
def rrAfterSlice (sel : Fin n) (s : RrState n) : Option (RrState n) :=
  if (s.t sel).remaining > 0 then do
    let s ← onSched (log sel (.preempted (s.t sel).id (s.t sel).remaining)) s
    enqueue sel s
  else
    onSched (complete sel) { s with toSched := s.toSched.modify sel fun th => th.finished s.time }

/-- The loop body of `scheduler_rr`. -/
def rrBody (s : RrState n) : Option (RrState n) := do
  let s ← onSched (arrivals s.time s.time) s
  let s ← enqueueArrived s
  match s.q[s.head]? with
  | some sel =>
    let s := { s with head := s.head + 1, inQ := update s.inQ sel false }
    let s ← onSched (startRr sel) s
    let run := runTime (s.t sel)
    let s ← onSched (slot (s.t sel).id s.time (s.time + run)) s
    let s ← (List.range run.toNat).foldlM (fun s _ => rrTick sel s) s
    let s := { s with
      toSched := s.toSched.modify sel fun th => { th with remaining := th.remaining - run } }
    rrAfterSlice sel s
  | none => onSched idle s

/-- `scheduler_rr` -/
def schedulerRr (fuel : ℕ) (threads : Fin n → Thread) : Option (Option (Output n)) := do
  let result ← checkedLoop (fun s => s.running) rrBody fuel
    ({ toSched := Sched.init threads, q := [], head := 0, inQ := fun _ => false } : RrState n)
  some (result.map fun s => s.output)

/-! ### SJF -/

/-- The loop body of `scheduler_sjf`. -/
def sjfBody (s : FlagState n) : Option (FlagState n) := do
  let c ← arrivals s.time s.time s.toSched
  let s := { s with toSched := c }
  match sjfSelect s with
  | none =>
    let c ← idle s.toSched
    some { s with toSched := c }
  | some sel =>
    let startTime := s.time
    let c ← startWaited sel s.toSched
    let c ← runThrough sel c
    let c ← arrivals (startTime + 1) (c.time - 1) c
    let c := c.modify sel fun th =>
      { th with finish := c.time, turnaround := c.time - th.arrival }
    let c ← arrivals c.time c.time c
    let c ← complete sel c
    some { toSched := c, doneFlag := update s.doneFlag sel true }

/-- `scheduler_sjf` -/
def schedulerSjf (fuel : ℕ) (threads : Fin n → Thread) : Option (Option (Output n)) := do
  let result ← checkedLoop (fun s => s.running) sjfBody fuel
    ({ toSched := Sched.init threads, doneFlag := fun _ => false } : FlagState n)
  some (result.map fun s => s.output)

/-! ### SRTF -/

/-- `Sched.preempt` -/
def preempt (lastRunning sel : Option (Fin n)) (s : Sched n) : Option (Sched n) :=
  match lastRunning with
  | some last =>
    if some last ≠ sel ∧ (s.t last).remaining > 0 then
      log last (.preempted (s.t last).id (s.t last).remaining) s
    else some s
  | none => some s

/-- `Sched.startSrtf` -/
def startSrtf (lastRunning : Option (Fin n)) (sel : Fin n) (s : Sched n) : Option (Sched n) :=
  if (s.t sel).start = -1 ∨ lastRunning ≠ some sel then
    let s := if (s.t sel).start = -1 then s.modify sel fun th => { th with start := s.time } else s
    log sel (.startedResumed (s.t sel).id (s.t sel).burst) s
  else some s

/-- The loop body of `scheduler_srtf`. -/
def srtfBody (s : SrtfState n) : Option (SrtfState n) := do
  let c ← arrivals s.time s.time s.toSched
  let s := { s with toSched := c }
  let sel := srtfSelect s.toFlagState
  let c ← preempt s.lastRunning sel s.toSched
  let s := { s with toSched := c }
  match sel with
  | none =>
    let c ← idle s.toSched
    some { s with toSched := c, lastRunning := none }
  | some sel =>
    let c ← startSrtf s.lastRunning sel s.toSched
    let c ← slot (c.t sel).id c.time (c.time + 1) c
    let c := c.modify sel fun th => { th with remaining := th.remaining - 1 }
    let c := { c with time := c.time + 1 }
    if (c.t sel).remaining = (0 : ℤ) then
      let c ← complete sel (c.modify sel fun th => th.finished c.time)
      some { toSched := c, doneFlag := update s.doneFlag sel true, lastRunning := some sel }
    else some { s with toSched := c, lastRunning := some sel }

/-- `scheduler_srtf` -/
def schedulerSrtf (fuel : ℕ) (threads : Fin n → Thread) : Option (Option (Output n)) := do
  let result ← checkedLoop (fun s => s.running) srtfBody fuel
    ({ toSched := Sched.init threads, doneFlag := fun _ => false, lastRunning := none } :
      SrtfState n)
  some (result.map fun s => s.output)

/-- The scheduler `main` passes to `run_algo`. -/
def sched : Algorithm → ℕ → (Fin n → Thread) → Option (Option (Output n))
  | .fifo => schedulerFifo
  | .rr => schedulerRr
  | .sjf => schedulerSjf
  | .srtf => schedulerSrtf

end OsLabs.Scheduling.Bounded
