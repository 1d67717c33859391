import OsLabs.Lib.Numerals
import OsLabs.Lib.Screen
import OsLabs.Scheduling.Bounded
import OsLabs.VirtualMemory.Random

/-!
# The program around the schedulers (`008Scheduling/source/main.c`, `source/output.c`)

`main` with its terminal and its two log files.  The `color` of a thread, which the schedulers only
copy, is a function of its own.

* `date` is the text that `localtime` and `strftime` make of a time, between the brackets of the
  format, and `average` is what `%.2f` makes of an average.
* `rand_range` is that of 009VirtualMemory: the two files are the same but for the first `_seed`.
* Nothing is printed for the delays.
-/

namespace OsLabs.Scheduling

/-- What keeps `main` from returning. -/
inductive Stop where
  /-- A subscript outside of its array. -/
  | bounds
  /-- The loop of a scheduler is given up. -/
  | rounds
  deriving DecidableEq, Repr

/-! ### Colours -/

/-- `"\033[%sm"` -/
def sgr (code : String) : List Char := ESC :: '[' :: code.toList ++ ['m']

/-- `COLOR_RESET` -/
def COLOR_RESET : List Char := sgr "0"

/-- `COLORS` -/
def COLORS : List (List Char) := ["91", "92", "93", "94", "95", "96", "97"].map sgr

/-- `N_COLORS` -/
def N_COLORS : ℤ := 7

/-- `thread_color` -/
def threadColor (id : ℤ) : Except Stop (List Char) :=
  let index := id.tmod N_COLORS
  match if index < 0 then none else COLORS[index.toNat]? with
  | some color => .ok color
  | none => .error .bounds

/-! ### The texts of `output.c` -/

variable {n : ℕ}

/-- `%-*d` -/
def padded (width : ℕ) (x : ℤ) : List Char := (decimal x).rightpad width ' '

/-- A line of `output_print_thread_list` -/
def threadLine (th : Thread) : Except Stop (List Char) := do
  let color ← threadColor th.id
  return "│  T".toList ++ padded 5 th.id ++ "  ".toList ++ color ++ "██".toList ++ COLOR_RESET ++
    "     ".toList ++ padded 12 th.arrival ++ "  ".toList ++ padded 12 th.burst ++
    "      │\n".toList

/-- `output_print_thread_list` -/
def outputPrintThreadList (threads : Fin n → Thread) : Except Stop (List Char) := do
  let lines ← (List.finRange n).foldlM
    (fun text i => do return text ++ (← threadLine (threads i))) []
  return "\n┌─────────────────────────────────────────────────┐\n".toList ++
    "│  ID      Color   Arrival(s)    Burst(s)          │\n".toList ++
    "├─────────────────────────────────────────────────┤\n".toList ++ lines ++
    "└─────────────────────────────────────────────────┘\n\n".toList

section Log

variable (date : ℤ → List Char)

/-- `timestamp_str` -/
def timestampStr (simTime : ℤ) : List Char := '[' :: date (1742554800 + simTime) ++ [']']

/-- A line of the log -/
def logLine (e : Event) : List Char :=
  timestampStr date e.time ++ ' ' :: e.message.text.toList ++ ['\n']

/-- `output_print_log`, and what `output_write_log` appends to its file -/
def outputLog (algo : String) (elog : List Event) : List Char :=
  "\n--- ".toList ++ algo.toList ++ " ---\n\n".toList ++ elog.flatMap (logLine date)

end Log

/-- One unit of the bar -/
def ganttCell (color : Fin n → ℤ) (threadId : ℤ) : Except Stop (List Char) :=
  if threadId = -1 then .ok ['.']
  else if h : 0 ≤ threadId ∧ threadId < n then do
    let color ← threadColor (color ⟨threadId.toNat, by omega⟩)
    return color ++ '|' :: COLOR_RESET
  else .error .bounds

/-- The bar after a slot -/
def ganttSlot (color : Fin n → ℤ) (text : List Char) (slot : GanttSlot) :
    Except Stop (List Char) :=
  let dur := slot.stop - slot.start
  (List.replicate dur.toNat slot.threadId).foldlM
    (fun text threadId => do return text ++ (← ganttCell color threadId)) text

/-- `output_print_gantt` -/
def outputPrintGantt (algo : String) (gantt : List GanttSlot) (color : Fin n → ℤ) :
    Except Stop (List Char) := do
  let totalTime := (gantt.getLast?.map GanttSlot.stop).getD 0
  let bar ← gantt.foldlM (ganttSlot color) []
  return "\n  /".toList ++ List.replicate totalTime.toNat '-' ++ "\\\n  |".toList ++ bar ++
    "|\n  \\".toList ++ List.replicate totalTime.toNat '-' ++ "/,,, ".toList ++ algo.toList ++
    "\n\n".toList

/-- `output_print_stats`, and the last two lines that `output_write_stats` appends -/
def outputStats (average : ℚ → List Char) (stats : Stats n) : List Char :=
  "Avg Waiting Time: ".toList ++ average stats.avgWaiting ++ " seconds\n".toList ++
    "Avg Turnaround Time: ".toList ++ average stats.avgTurnaround ++ " seconds\n\n".toList

/-! ### Files -/

/-- A log file, and which calls of `fopen` can open it. -/
structure LogFile where
  text : List Char
  opens : ℕ → Bool
  /-- The number of calls so far. -/
  calls : ℕ

/-- `fopen(path, "w")` and `fclose` -/
def LogFile.clear (f : LogFile) : LogFile :=
  { f with text := if f.opens f.calls then [] else f.text, calls := f.calls + 1 }

/-- `fopen(path, "a")`, `fprintf` and `fclose` -/
def LogFile.append (f : LogFile) (text : List Char) : LogFile :=
  { f with text := if f.opens f.calls then f.text ++ text else f.text, calls := f.calls + 1 }

/-- What `main` writes to. -/
structure System where
  terminal : List Char
  runLog : LogFile
  statsLog : LogFile

/-- `printf` -/
def System.print (s : System) (text : List Char) : System :=
  { s with terminal := s.terminal ++ text }

/-! ### The program (`source/main.c`) -/

/-- `MIN_THREADS` -/
def MIN_THREADS : ℤ := 5

/-- The names that `main` gives to the algorithms. -/
def Algorithm.name : Algorithm → String
  | .fifo => "FIFO Scheduling"
  | .rr => "Round Robin Scheduling (Quantum 2)"
  | .sjf => "SJF Scheduling"
  | .srtf => "SRTF Scheduling"

section Main

variable (fuel : ℕ) (date : ℤ → List Char) (average : ℚ → List Char)

/-- A scheduler of `run_algo`, with arrays of their declared sizes -/
def runSched (alg : Algorithm) (threads : Fin n → Thread) : Except Stop (Output n) :=
  match Bounded.sched alg fuel threads with
  | none => .error .bounds
  | some none => .error .rounds
  | some (some out) => .ok out

/-- `run_algo` -/
def runAlgo (alg : Algorithm) (threads : Fin n → Thread) (color : Fin n → ℤ) (s : System) :
    Except Stop System := do
  let out ← runSched fuel alg threads
  let s := s.print (outputLog date alg.name out.elog)
  let chart ← outputPrintGantt alg.name out.gantt color
  let s := (s.print chart).print (outputStats average out.stats)
  return { s with
    runLog := s.runLog.append (outputLog date alg.name out.elog)
    statsLog := s.statsLog.append
      ("=== ".toList ++ alg.name.toList ++ " ===\n".toList ++ outputStats average out.stats) }

/-- A round of the loop of `main`: the burst and the arrival of a thread -/
def drawThread (seed : UInt32) : (ℤ × ℤ) × UInt32 :=
  let burst := VirtualMemory.randRange 1 MAX_BURST seed
  let arrival := VirtualMemory.randRange 0 MAX_ARRIVAL burst.2
  ((burst.1, arrival.1), arrival.2)

/-- `_seed` before the draws of thread `i` -/
def seedOf (seed : UInt32) : ℕ → UInt32
  | 0 => seed
  | i + 1 => (drawThread (seedOf seed i)).2

/-- `orig`, after the loop of `main` -/
def drawThreads (n : ℕ) (seed : UInt32) : Fin n → Thread :=
  orig (fun i => (drawThread (seedOf seed i)).1.1) (fun i => (drawThread (seedOf seed i)).1.2)

/-- The heading that `main` prints -/
def banner (n : ℤ) : List Char :=
  "\n╔══════════════════════════════════════════════════╗\n".toList ++
    "║         CPU Scheduling Simulation                ║\n".toList ++
    "╚══════════════════════════════════════════════════╝\n".toList ++
    "  Threads: ".toList ++ decimal n ++ "  |  RR Quantum: ".toList ++ decimal RR_QUANTUM ++
    "s\n".toList

/-- `main` after the draw of `n` -/
def runThreads (n : ℕ) (seed : UInt32) (runLog statsLog : LogFile) : Except Stop System := do
  let threads := drawThreads n seed
  let color : Fin n → ℤ := fun i => (i : ℕ)
  let s : System := { terminal := [], runLog := runLog.clear, statsLog := statsLog.clear }
  let s := s.print (banner n)
  let s := s.print (← outputPrintThreadList threads)
  let s ← runAlgo fuel date average .fifo threads color s
  let s ← runAlgo fuel date average .rr threads color s
  let s ← runAlgo fuel date average .sjf threads color s
  runAlgo fuel date average .srtf threads color s

/-- `main`, with the `time` it is started at -/
def main (time : UInt32) (runLog statsLog : LogFile) : Except Stop System :=
  let (n, seed) := VirtualMemory.randRange MIN_THREADS MAX_THREADS time
  runThreads fuel date average n.toNat seed runLog statsLog

end Main

end OsLabs.Scheduling
