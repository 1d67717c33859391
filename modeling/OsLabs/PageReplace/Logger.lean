import OsLabs.PageReplace.Scheduler

/-!
# The logger (`010PageReplace/lib/logger.c`)

What `run_one` shows is a `Section`: each step with its result and the frames before and after it,
and the totals at the end.  The arguments `g_query` and `g_len` are one list.
-/

namespace OsLabs.PageReplace

variable {N : ℕ}

/-- A step as `run_one` shows it. -/
structure Shown (N : ℕ) where
  before : Fin N → UInt8
  result : AccessResult
  after : Fin N → UInt8

/-- The output of `run_one`. -/
structure Section (N : ℕ) where
  name : String
  steps : List (Shown N)
  hits : UInt32
  misses : UInt32

namespace Logger

/-- `logger_init`, with `RAM_init` and `scheduler_init` -/
def init (s : State N) (query : List UInt8) : State N :=
  schedulerInit { s with frames := fun _ => FRAME_EMPTY } query

/-- The first `k` rounds of the loop of `run_one`. -/
def showSteps (fn : Algo N) (query : List UInt8) (s : State N) :
    ℕ → Except Fault (State N × List (Shown N))
  | 0 => .ok (schedulerReset s, [])
  | k + 1 => do
    let (s, shown) ← showSteps fn query s k
    let (r, s') ← fn s (query.getD k 0) (UInt16.ofNat k)
    return (s', shown ++ [{ before := s.frames, result := r, after := s'.frames }])

/-- `run_one` -/
def runOne (name : String) (fn : Algo N) (query : List UInt8) (s : State N) :
    Except Fault (State N × Section N) := do
  let (s, steps) ← showSteps fn query s query.length
  return (s, { name := name, steps := steps, hits := s.hits, misses := s.misses })

/-- `do_fifo`, `do_min`, `do_lru` and `do_sc`, set by one chain of comparisons. -/
def selects (algo : String) (policy : Policy) : Bool :=
  if algo = "all" then true
  else if algo = "fifo" then policy == .fifo
  else if algo = "min" then policy == .min
  else if algo = "lru" then policy == .lru
  else if algo = "second_chance" then policy == .secondChance
  else false

/-- `if (do_..) run_one(name, fn)` -/
def runIf (selected : Bool) (name : String) (fn : Algo N) (query : List UInt8) (s : State N) :
    Except Fault (State N × List (Section N)) :=
  if selected then do
    let (s, shown) ← runOne name fn query s
    return (s, [shown])
  else return (s, [])

/-- `logger_run` -/
def run (algo : String) (query : List UInt8) (s : State N) :
    Except Fault (State N × List (Section N)) := do
  let (s, fifo) ← runIf (selects algo .fifo) "FIFO" schedulerFifo query s
  let (s, min) ← runIf (selects algo .min) "MIN (Optimal)" schedulerMin query s
  let (s, lru) ← runIf (selects algo .lru) "LRU" schedulerLru query s
  let (s, sc) ← runIf (selects algo .secondChance) "Second Chance" schedulerSecondChance query s
  return (s, fifo ++ min ++ lru ++ sc)

end Logger

end OsLabs.PageReplace
