import OsLabs.Lib.Loop
import Mathlib.Algebra.BigOperators.Group.Finset.Basic
import Mathlib.Algebra.Field.Rat
import Mathlib.Data.Fintype.Basic
import Mathlib.Data.List.FinRange

/-!
# The CPU schedulers (`008Scheduling/os/scheduler.c`)

A workload of `n` threads is a function on `Fin n`, and so is every array the schedulers index by
thread.  The locals of a scheduler are a state, one round of its `while` loop is a function on
states, and the scheduler itself runs the loop for at most `fuel` rounds.

* `int` is `ℤ`, and the averages are rationals.  What is computed here is what the code computes as
  long as no `int` overflows; an overflow is undefined.
* The arrays with a counter (`gantt->slots`, `elog->events` and `q`) are lists without a bound on
  their length.  They are the arrays of the code in every run that writes to no array out of its
  declared bounds (`Bounded.sched_of_bounded`), as no run of `main` does (`schedulers_in_bounds`).
* The value `-1` of `sel` and `last_running` is `none`.
* A log message is a `Message` that keeps the numbers it prints; `Message.text` prints it.
-/

namespace OsLabs.Scheduling

open Function

/-! ### Data (`os/scheduler.h`) -/

/-- `RR_QUANTUM` -/
def RR_QUANTUM : ℤ := 2

/-- `thread_t`, without the colour of its output. -/
structure Thread where
  id : ℤ
  burst : ℤ
  arrival : ℤ
  remaining : ℤ
  start : ℤ
  finish : ℤ
  waiting : ℤ
  turnaround : ℤ
  deriving DecidableEq, Repr

/-- `stats_t` for `n` threads. -/
structure Stats (n : ℕ) where
  avgWaiting : ℚ
  avgTurnaround : ℚ
  waiting : Fin n → ℤ
  turnaround : Fin n → ℤ

/-- `gantt_slot_t`; `stop` is its `end`, and `threadId` is `-1` in an idle slot. -/
structure GanttSlot where
  threadId : ℤ
  start : ℤ
  stop : ℤ
  deriving DecidableEq, Repr

/-- What the schedulers print into a message. -/
inductive Message where
  | arrived (id burst : ℤ)
  /-- FIFO and SJF. -/
  | startedWaited (id burst waited : ℤ)
  /-- RR. -/
  | started (id burst : ℤ)
  /-- SRTF. -/
  | startedResumed (id burst : ℤ)
  | preempted (id remaining : ℤ)
  | completed (id : ℤ)
  deriving DecidableEq, Repr

/-- The text of a message. -/
def Message.text : Message → String
  | .arrived id burst => s!"Process {id} (Burst {burst}): Arrived"
  | .startedWaited id burst waited =>
    s!"Process {id} (Burst {burst}): Started (waited {waited} seconds)"
  | .started id burst => s!"Process {id} (Burst {burst}): Started"
  | .startedResumed id burst => s!"Process {id} (Burst {burst}): Started/Resumed"
  | .preempted id remaining => s!"Process {id} (Burst {remaining} remaining): Preempted"
  | .completed id => s!"Process {id}: Completed"

/-- `event_t` -/
structure Event where
  time : ℤ
  threadId : ℤ
  message : Message
  deriving DecidableEq, Repr

variable {n : ℕ}

/-! ### Helpers -/

/-- `compute_stats` -/
def computeStats (threads : Fin n → Thread) : Stats n where
  avgWaiting := ((∑ i, (threads i).waiting : ℤ) : ℚ) / n
  avgTurnaround := ((∑ i, (threads i).turnaround : ℤ) : ℚ) / n
  waiting i := (threads i).waiting
  turnaround i := (threads i).turnaround

/-- `gantt_push` -/
def ganttPush (gantt : List GanttSlot) (tid start stop : ℤ) : List GanttSlot :=
  match gantt.getLast? with
  | some slot =>
    -- a slot of the same thread is extended, whether or not it ends at `start`
    if slot.threadId = tid then gantt.dropLast ++ [{ slot with stop := stop }]
    else gantt ++ [{ threadId := tid, start := start, stop := stop }]
  | none => gantt ++ [{ threadId := tid, start := start, stop := stop }]

/-- `log_event` -/
def logEvent (elog : List Event) (time tid : ℤ) (msg : Message) : List Event :=
  elog ++ [{ time := time, threadId := tid, message := msg }]

/-- `copy_threads` -/
def copyThreads (src : Fin n → Thread) (i : Fin n) : Thread :=
  { src i with remaining := (src i).burst, start := -1 }

/-- The inner loop of `check_arrivals`, at one time. -/
def checkArrivalsAt (threads : Fin n → Thread) (time : ℤ) (elog : List Event) : List Event :=
  (List.finRange n).foldl (fun elog i =>
    if (threads i).arrival = time then
      logEvent elog time (threads i).id (.arrived (threads i).id (threads i).burst)
    else elog) elog

/-- `check_arrivals` -/
def checkArrivals (threads : Fin n → Thread) (prevTime currentTime : ℤ) (elog : List Event) :
    List Event :=
  (List.range (currentTime + 1 - prevTime).toNat).foldl
    (fun elog k => checkArrivalsAt threads (prevTime + (k : ℕ)) elog) elog

/-- The locals and outputs all four schedulers have. -/
structure Sched (n : ℕ) where
  t : Fin n → Thread
  threads : Fin n → Thread
  gantt : List GanttSlot
  elog : List Event
  time : ℤ
  done : ℕ

/-- What a scheduler leaves in its output parameters. -/
structure Output (n : ℕ) where
  threads : Fin n → Thread
  stats : Stats n
  gantt : List GanttSlot
  elog : List Event

/-- The state before the loop. -/
def Sched.init (threads : Fin n → Thread) : Sched n where
  t := copyThreads threads
  threads := threads
  gantt := []
  elog := []
  time := 0
  done := 0

/-- The outputs after the loop. -/
def Sched.output (s : Sched n) : Output n where
  threads := s.threads
  stats := computeStats s.threads
  gantt := s.gantt
  elog := s.elog

/-- The test of all four loops. -/
def Sched.running (s : Sched n) : Bool := s.done < n

/-- `t[i] = f(t[i])` -/
def Sched.modify (s : Sched n) (i : Fin n) (f : Thread → Thread) : Sched n :=
  { s with t := update s.t i (f (s.t i)) }

/-- `log_event(elog, time, t[i].id, ..)` -/
def Sched.log (s : Sched n) (i : Fin n) (msg : Message) : Sched n :=
  { s with elog := logEvent s.elog s.time (s.t i).id msg }

/-- `check_arrivals(t, n, .., .., elog)` -/
def Sched.arrivals (s : Sched n) (prevTime currentTime : ℤ) : Sched n :=
  { s with elog := checkArrivals s.t prevTime currentTime s.elog }

/-- The branch without a thread to run. -/
def Sched.idle (s : Sched n) : Sched n :=
  { s with gantt := ganttPush s.gantt (-1) s.time (s.time + 1), time := s.time + 1 }

/-- `done++`, the `Completed` event and `threads[sel] = t[sel]`. -/
def Sched.complete (s : Sched n) (sel : Fin n) : Sched n :=
  let s := { s with done := s.done + 1 }
  let s := s.log sel (.completed (s.t sel).id)
  { s with threads := update s.threads sel (s.t sel) }

/-- The state of the schedulers with a `done_flag`. -/
structure FlagState (n : ℕ) extends Sched n where
  doneFlag : Fin n → Bool

/-! ### FIFO -/

/-- `sel` and `min_arr` after another thread, in the selection of `scheduler_fifo`. -/
def fifoSelectStep (s : FlagState n) (best : Option (Fin n) × ℤ) (i : Fin n) :
    Option (Fin n) × ℤ :=
  if s.doneFlag i = false ∧ (s.t i).arrival ≤ s.time then
    if (s.t i).arrival < best.2 then (some i, (s.t i).arrival) else best
  else best

/-- The selection of `scheduler_fifo`. -/
def fifoSelect (s : FlagState n) : Option (Fin n) :=
  ((List.finRange n).foldl (fifoSelectStep s) (none, 999999)).1

/-- `start`, `waiting` and the `Started` event, when a thread runs for the first time in
`scheduler_fifo` and `scheduler_sjf`. -/
def Sched.startWaited (s : Sched n) (sel : Fin n) : Sched n :=
  if (s.t sel).start = -1 then
    let s := s.modify sel fun th => { th with start := s.time, waiting := s.time - th.arrival }
    s.log sel (.startedWaited (s.t sel).id (s.t sel).burst (s.t sel).waiting)
  else s

/-- `time += t[sel].remaining`, `t[sel].remaining = 0` and the slot. -/
def Sched.runThrough (s : Sched n) (sel : Fin n) : Sched n :=
  let startTime := s.time
  let s := { s with time := s.time + (s.t sel).remaining }
  let s := s.modify sel fun th => { th with remaining := 0 }
  { s with gantt := ganttPush s.gantt (s.t sel).id startTime s.time }

/-- The loop body of `scheduler_fifo`. -/
def fifoBody (s : FlagState n) : FlagState n :=
  match fifoSelect s with
  | none => { s with toSched := (s.toSched.arrivals s.time s.time).idle }
  | some sel =>
    let startTime := s.time
    let c := (s.toSched.startWaited sel).runThrough sel
    -- the arrivals of the slice, its first tick included, are logged after its `Started` event
    let c := c.arrivals startTime (c.time - 1)
    let c := c.modify sel fun th =>
      { th with finish := c.time, turnaround := c.time - th.arrival }
    { toSched := c.complete sel, doneFlag := update s.doneFlag sel true }

/-- `scheduler_fifo` -/
def schedulerFifo (fuel : ℕ) (threads : Fin n → Thread) : Option (Output n) := do
  let s ← whileLoop (fun s => s.running) fifoBody fuel
    ({ toSched := Sched.init threads, doneFlag := fun _ => false } : FlagState n)
  return (s.toSched.arrivals s.time s.time).output

/-! ### RR -/

/-- The state of `scheduler_rr`: `q[0..tail-1]`, `head` and `in_q`. -/
structure RrState (n : ℕ) extends Sched n where
  q : List (Fin n)
  head : ℕ
  inQ : Fin n → Bool

/-- `q[tail++] = i`, `in_q[i] = 1` -/
def RrState.enqueue (s : RrState n) (i : Fin n) : RrState n :=
  { s with q := s.q ++ [i], inQ := update s.inQ i true }

/-- The enqueueing loop before a dispatch. -/
def RrState.enqueueArrived (s : RrState n) : RrState n :=
  (List.finRange n).foldl (fun s i =>
    if (s.t i).arrival ≤ s.time ∧ (s.t i).remaining > 0 ∧ s.inQ i = false then s.enqueue i
    else s) s

/-- The enqueueing loop at a tick of the slice of `sel`. -/
def RrState.enqueueArriving (sel : Fin n) (s : RrState n) : RrState n :=
  (List.finRange n).foldl (fun s i =>
    if (s.t i).arrival = s.time ∧ (s.t i).remaining > 0 ∧ s.inQ i = false ∧ i ≠ sel then s.enqueue i
    else s) s

/-- One tick of the slice of `sel`. -/
def rrTick (sel : Fin n) (s : RrState n) : RrState n :=
  let s := { s with time := s.time + 1 }
  let s := { s with toSched := s.toSched.arrivals s.time s.time }
  s.enqueueArriving sel

/-- `start` and the `Started` event, when a thread runs for the first time in `scheduler_rr`. -/
def Sched.startRr (s : Sched n) (sel : Fin n) : Sched n :=
  if (s.t sel).start = -1 then
    let s := s.modify sel fun th => { th with start := s.time }
    s.log sel (.started (s.t sel).id (s.t sel).burst)
  else s

/-- `run_time` -/
def runTime (th : Thread) : ℤ := if th.remaining < RR_QUANTUM then th.remaining else RR_QUANTUM

/-- `finish`, `turnaround` and `waiting` in `scheduler_rr` and `scheduler_srtf`. -/
def Thread.finished (th : Thread) (time : ℤ) : Thread :=
  { th with
    finish := time
    turnaround := time - th.arrival
    waiting := time - th.arrival - th.burst }

/-- `scheduler_rr` after the slice: the thread goes back to the queue or is completed. -/
def rrAfterSlice (sel : Fin n) (s : RrState n) : RrState n :=
  if (s.t sel).remaining > 0 then
    let s := { s with toSched := s.toSched.log sel (.preempted (s.t sel).id (s.t sel).remaining) }
    s.enqueue sel
  else
    { s with toSched := (s.toSched.modify sel fun th => th.finished s.time).complete sel }

/-- The loop body of `scheduler_rr`. -/
def rrBody (s : RrState n) : RrState n :=
  let s := { s with toSched := s.toSched.arrivals s.time s.time }
  let s := s.enqueueArrived
  match s.q[s.head]? with
  | some sel =>
    -- `sel` is out of the queue during its slice; `enqueueArriving` leaves it out as well
    let s := { s with head := s.head + 1, inQ := update s.inQ sel false }
    let s := { s with toSched := s.toSched.startRr sel }
    let run := runTime (s.t sel)
    -- the slot is pushed before the ticks, and `remaining` goes down after them
    let s := { s with gantt := ganttPush s.gantt (s.t sel).id s.time (s.time + run) }
    let s := (rrTick sel)^[run.toNat] s
    let s := { s with
      toSched := s.toSched.modify sel fun th => { th with remaining := th.remaining - run } }
    rrAfterSlice sel s
  | none => { s with toSched := s.toSched.idle }

/-- `scheduler_rr` -/
def schedulerRr (fuel : ℕ) (threads : Fin n → Thread) : Option (Output n) := do
  let s ← whileLoop (fun s => s.running) rrBody fuel
    ({ toSched := Sched.init threads, q := [], head := 0, inQ := fun _ => false } : RrState n)
  return s.output

/-! ### SJF -/

/-- `sel` after another thread, in the selections of `scheduler_sjf` and `scheduler_srtf`; `key`
is the field they compare. -/
def selectStep (s : FlagState n) (key : Thread → ℤ) (sel : Option (Fin n)) (i : Fin n) :
    Option (Fin n) :=
  if s.doneFlag i = false ∧ (s.t i).arrival ≤ s.time then
    match sel with
    | none => some i
    | some j => if key (s.t i) < key (s.t j) then some i else some j
  else sel

/-- The selection of `scheduler_sjf`. -/
def sjfSelect (s : FlagState n) : Option (Fin n) :=
  (List.finRange n).foldl (selectStep s Thread.burst) none

/-- The loop body of `scheduler_sjf`. -/
def sjfBody (s : FlagState n) : FlagState n :=
  let s := { s with toSched := s.toSched.arrivals s.time s.time }
  match sjfSelect s with
  | none => { s with toSched := s.toSched.idle }
  | some sel =>
    let startTime := s.time
    let c := (s.toSched.startWaited sel).runThrough sel
    -- the arrivals at `startTime` were logged at the head of the round
    let c := c.arrivals (startTime + 1) (c.time - 1)
    let c := c.modify sel fun th =>
      { th with finish := c.time, turnaround := c.time - th.arrival }
    -- the arrivals at the end of the slice come before its `Completed` event
    let c := c.arrivals c.time c.time
    { toSched := c.complete sel, doneFlag := update s.doneFlag sel true }

/-- `scheduler_sjf` -/
def schedulerSjf (fuel : ℕ) (threads : Fin n → Thread) : Option (Output n) := do
  let s ← whileLoop (fun s => s.running) sjfBody fuel
    ({ toSched := Sched.init threads, doneFlag := fun _ => false } : FlagState n)
  return s.output

/-! ### SRTF -/

/-- The state of `scheduler_srtf`. -/
structure SrtfState (n : ℕ) extends FlagState n where
  lastRunning : Option (Fin n)

/-- The selection of `scheduler_srtf`. -/
def srtfSelect (s : FlagState n) : Option (Fin n) :=
  (List.finRange n).foldl (selectStep s Thread.remaining) none

/-- The `Preempted` event of `scheduler_srtf`. -/
def Sched.preempt (s : Sched n) (lastRunning sel : Option (Fin n)) : Sched n :=
  match lastRunning with
  | some last =>
    if some last ≠ sel ∧ (s.t last).remaining > 0 then
      s.log last (.preempted (s.t last).id (s.t last).remaining)
    else s
  | none => s

/-- `start` and the `Started/Resumed` event of `scheduler_srtf`. -/
def Sched.startSrtf (s : Sched n) (lastRunning : Option (Fin n)) (sel : Fin n) : Sched n :=
  if (s.t sel).start = -1 ∨ lastRunning ≠ some sel then
    let s := if (s.t sel).start = -1 then s.modify sel fun th => { th with start := s.time } else s
    s.log sel (.startedResumed (s.t sel).id (s.t sel).burst)
  else s

/-- The loop body of `scheduler_srtf`. -/
def srtfBody (s : SrtfState n) : SrtfState n :=
  let s := { s with toSched := s.toSched.arrivals s.time s.time }
  let sel := srtfSelect s.toFlagState
  let s := { s with toSched := s.toSched.preempt s.lastRunning sel }
  match sel with
  | none => { s with toSched := s.toSched.idle, lastRunning := none }
  | some sel =>
    let c := s.toSched.startSrtf s.lastRunning sel
    let c := { c with gantt := ganttPush c.gantt (c.t sel).id c.time (c.time + 1) }
    let c := c.modify sel fun th => { th with remaining := th.remaining - 1 }
    let c := { c with time := c.time + 1 }
    -- `last_running` is `sel` also when `sel` is completed
    if (c.t sel).remaining = (0 : ℤ) then
      { toSched := (c.modify sel fun th => th.finished c.time).complete sel
        doneFlag := update s.doneFlag sel true
        lastRunning := some sel }
    else { s with toSched := c, lastRunning := some sel }

/-- `scheduler_srtf` -/
def schedulerSrtf (fuel : ℕ) (threads : Fin n → Thread) : Option (Output n) := do
  let s ← whileLoop (fun s => s.running) srtfBody fuel
    ({ toSched := Sched.init threads, doneFlag := fun _ => false, lastRunning := none } :
      SrtfState n)
  return s.output

/-! ### The workload and the four algorithms (`source/main.c`) -/

/-- `MAX_THREADS` -/
def MAX_THREADS : ℕ := 15

/-- `MAX_BURST` -/
def MAX_BURST : ℤ := 10

/-- `MAX_ARRIVAL` -/
def MAX_ARRIVAL : ℤ := 20

/-- `orig`, with the bursts and arrivals that `main` draws. -/
def orig (burst arrival : Fin n → ℤ) (i : Fin n) : Thread where
  id := i
  burst := burst i
  arrival := arrival i
  remaining := burst i
  start := -1
  finish := 0
  waiting := 0
  turnaround := 0

/-- The algorithms `main` runs. -/
inductive Algorithm where
  | fifo
  | rr
  | sjf
  | srtf
  deriving DecidableEq, Repr

/-- The scheduler `main` passes to `run_algo`. -/
def Algorithm.sched : Algorithm → ℕ → (Fin n → Thread) → Option (Output n)
  | .fifo => schedulerFifo
  | .rr => schedulerRr
  | .sjf => schedulerSjf
  | .srtf => schedulerSrtf

end OsLabs.Scheduling
