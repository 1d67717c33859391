import OsLabs.Lib.Loop
import OsLabs.Lib.Screen
import OsLabs.PageReplace.Logger

/-!
# The display of the logger (`010PageReplace/lib/logger.c`)

`logger_run` with its terminal: what is printed, character by character, and the input it waits
for.  Nothing is printed for the delays.

* In every call of `print_row` the argument `highlight` is 1, and the frames are among the
  `num_frames` frames of the view.
* The loop of `print_ram` is given up after `fuel` rounds.
* The text of the hit rate, a `double`, is the parameter `rate`.
-/

namespace OsLabs.PageReplace

/-- What keeps `logger_run` from returning. -/
inductive Stop where
  | fault (f : Fault)
  /-- `getchar()` does not return a newline any more. -/
  | input
  /-- The loop of `print_ram` is given up. -/
  | rounds
  deriving DecidableEq, Repr

structure Terminal where
  input : List Char
  output : List Char

/-- `printf` -/
def Terminal.print (t : Terminal) (text : List Char) : Terminal :=
  { t with output := t.output ++ text }

namespace Display

variable {N : ℕ}

/-! ### The RAM -/

/-- `"\033[%sm"` -/
def sgr (code : String) : List Char := ESC :: '[' :: code.toList ++ ['m']

/-- `CLR_RST` -/
def CLR_RST : List Char := sgr "0"

/-- `CLR_GREEN` -/
def CLR_GREEN : List Char := sgr "92"

/-- `CLR_RED` -/
def CLR_RED : List Char := sgr "91"

/-- `CLR_YELLOW` -/
def CLR_YELLOW : List Char := sgr "93"

/-- `CLR_BOLD` -/
def CLR_BOLD : List Char := sgr "1"

/-- `%d` -/
def dec (n : ℕ) : List Char := Nat.toDigits 10 n

/-- `%03d` -/
def dec0 (n : ℕ) : List Char := List.leftpad 3 '0' (dec n)

/-- `%3d` -/
def dec3 (n : ℕ) : List Char := List.leftpad 3 ' ' (dec n)

/-- `highlight_fi` and `hl_color` -/
structure Highlight where
  fi : UInt8
  color : List Char

/-- `print_border` -/
def printBorder (rowFrames : UInt8) (opening closing : Char) : List Char :=
  let width := rowFrames * 9 + 2
  opening :: List.replicate width.toNat '-' ++ [closing, '\n']

/-- The number of a frame and its page. -/
def label (view : Fin N → UInt8) (i : Fin N) : List Char :=
  dec0 i ++ ':' :: (if view i = FRAME_EMPTY then "   ".toList else dec0 (view i).toNat)

/-- A frame in `print_row` -/
def printCell (view : Fin N → UInt8) (h : Highlight) (i : Fin N) : List Char :=
  (if (i : ℕ) = h.fi.toNat then h.color else []) ++ '|' :: label view i ++ ['|'] ++
    (if (i : ℕ) = h.fi.toNat then CLR_RST else [])

/-- The frames `from .. from + count - 1`. -/
def framesFrom (N start count : ℕ) : List (Fin N) := ((List.finRange N).drop start).take count

/-- `print_row` -/
def printRow (view : Fin N → UInt8) (start count : UInt8) (h : Highlight) : List Char :=
  '|' :: (framesFrom N start.toNat count.toNat).flatMap (printCell view h) ++ ['|', '\n']

/-- `print_border`, `print_row` and `print_border` -/
def printBox (view : Fin N → UInt8) (start count : UInt8) (h : Highlight) : List Char :=
  printBorder count '/' '\\' ++ printRow view start count h ++ printBorder count '\\' '/'

/-- `cols` -/
def cols : UInt8 := 10

/-- A round of `print_ram` -/
def ramBody (view : Fin N → UInt8) (h : Highlight) (s : UInt8 × List Char) : UInt8 × List Char :=
  let row : UInt8 := if N - s.1.toNat < cols.toNat then .ofNat (N - s.1.toNat) else cols
  (s.1 + cols, s.2 ++ printBox view s.1 row h)

/-- `print_ram` -/
def printRam (fuel : ℕ) (view : Fin N → UInt8) (h : Highlight) : Option (List Char) :=
  (whileLoop (fun s => decide (s.1.toNat < N)) (ramBody view h) fuel (0, [])).map Prod.snd

/-! ### The disk -/

/-- `DISK_ART` -/
def DISK_ART : List String :=
  ["   .---.   ", "  /     \\  ", " | (( )) | ", "  \\     /  ", "   '---'   "]

/-- `animate_arrow` -/
def animateArrow (forward : Bool) : List Char :=
  ["-", "--", "---", if forward then "--->" else "<---"].flatMap
    (fun seq => '\r' :: "   ".toList ++ seq.toList ++ "   ".toList) ++ ['\n']

/-- `show_disk_transfer` -/
def showDiskTransfer (before after : Fin N → UInt8) (fi evicted loaded : UInt8) : List Char :=
  let count : UInt8 := if N < 4 then .ofNat N else 4
  '\n' :: CLR_YELLOW ++ "  [Page Fault — accessing disk...]".toList ++ CLR_RST ++ "\n\n".toList ++
    "  Before:\n".toList ++ printBox before 0 count ⟨fi, CLR_RED⟩ ++
    "  ".toList ++ animateArrow true ++
    DISK_ART.flatMap (fun line => "               ".toList ++ line.toList ++ ['\n']) ++
    "  (evicted: ".toList ++ CLR_RED ++ dec evicted.toNat ++ CLR_RST ++
    "  loaded: ".toList ++ CLR_GREEN ++ dec loaded.toNat ++ CLR_RST ++ ")\n".toList ++
    "  ".toList ++ animateArrow false ++
    "  After:\n".toList ++ printBox after 0 count ⟨fi, CLR_GREEN⟩ ++ ['\n']

/-! ### One algorithm -/

/-- `while (getchar() != '\n');`: the input after it -/
def awaitEnter : List Char → Except Stop (List Char)
  | [] => .error .input
  | c :: cs => if c = '\n' then .ok cs else awaitEnter cs

/-- `Press Enter for next step...` -/
def pause (t : Terminal) : Except Stop Terminal := do
  let t := t.print "Press Enter for next step...".toList
  let input ← awaitEnter t.input
  return { t with input := input }

/-- The lines above the frames of step `i`. -/
def stepHeader (name : String) (len i : ℕ) (page : UInt8) (r : AccessResult) : List Char :=
  CLR_BOLD ++ "  ".toList ++ name.toList ++ "  — Step ".toList ++ dec (i + 1) ++ '/' :: dec len ++
    '\n' :: CLR_RST ++ "Step ".toList ++ dec3 (i + 1) ++ " | Page ".toList ++ dec3 page.toNat ++
    " | ".toList ++
    if r.hit ≠ 0 then CLR_GREEN ++ "HIT ".toList ++ CLR_RST ++ ['\n']
    else CLR_RED ++ "MISS".toList ++ CLR_RST ++
      (if r.evicted ≠ FRAME_EMPTY then "  (evicted: ".toList ++ dec r.evicted.toNat ++ [')']
      else []) ++ ['\n']

/-- The frames after a step: all of them, unless a page was evicted. -/
def stepFrames (fuel : ℕ) (shown : Shown N) : Except Stop (List Char) :=
  let r := shown.result
  if r.hit = 0 ∧ r.evicted ≠ FRAME_EMPTY then
    .ok (showDiskTransfer shown.before shown.after r.frameIdx r.evicted r.loaded)
  else match printRam fuel shown.after ⟨r.frameIdx, CLR_GREEN⟩ with
    | some text => .ok text
    | none => .error .rounds

/-- A result of the scheduler. -/
def liftFault {α : Type*} : Except Fault α → Except Stop α
  | .ok a => .ok a
  | .error f => .error (.fault f)

/-- A round of the loop of `run_one` -/
def showStep (fuel : ℕ) (name : String) (fn : Algo N) (query : List UInt8) (i : ℕ)
    (s : State N) (t : Terminal) : Except Stop (State N × Terminal) := do
  let page := query.getD i 0
  let (r, s') ← liftFault (fn s page (UInt16.ofNat i))
  let t := t.print (stepHeader name query.length i page r)
  let frames ← stepFrames fuel { before := s.frames, result := r, after := s'.frames }
  let t ← pause (t.print frames)
  return (s', t.print (ESC :: "[2J".toList ++ ESC :: "[H".toList))

/-- The first `k` rounds of the loop of `run_one` -/
def showLoop (fuel : ℕ) (name : String) (fn : Algo N) (query : List UInt8) (s : State N)
    (t : Terminal) : ℕ → Except Stop (State N × Terminal)
  | 0 => .ok (s, t)
  | k + 1 => do
    let (s, t) ← showLoop fuel name fn query s t k
    showStep fuel name fn query k s t

/-- The title of `run_one` -/
def titleText (name : String) : List Char :=
  '\n' :: CLR_BOLD ++ "══════════════════════════════════════\n  ".toList ++ name.toList ++
    "\n══════════════════════════════════════".toList ++ CLR_RST ++ "\n\n".toList

/-- The totals of `run_one` -/
def resultsText (rate : UInt32 → UInt32 → List Char) (name : String) (hits misses : UInt32) :
    List Char :=
  '\n' :: CLR_BOLD ++ "Results — ".toList ++ name.toList ++ ':' :: CLR_RST ++
    "\n  Hits:   ".toList ++ dec hits.toNat ++ "\n  Misses: ".toList ++ dec misses.toNat ++
    "\n  Hit rate: ".toList ++ rate hits misses ++ "%\n\n".toList

/-- `run_one` -/
def runOne (fuel : ℕ) (rate : UInt32 → UInt32 → List Char) (name : String) (fn : Algo N)
    (query : List UInt8) (s : State N) (t : Terminal) : Except Stop (State N × Terminal) := do
  let (s, t) ← showLoop fuel name fn query (schedulerReset s) (t.print (titleText name))
    query.length
  let t ← pause (t.print (resultsText rate name s.hits s.misses))
  return (s, t)

/-- `if (do_..) run_one(name, fn)` -/
def runIf (fuel : ℕ) (rate : UInt32 → UInt32 → List Char) (selected : Bool) (name : String)
    (fn : Algo N) (query : List UInt8) (s : State N) (t : Terminal) :
    Except Stop (State N × Terminal) :=
  if selected then runOne fuel rate name fn query s t else .ok (s, t)

/-- `logger_run` -/
def run (fuel : ℕ) (rate : UInt32 → UInt32 → List Char) (algo : String) (query : List UInt8)
    (s : State N) (t : Terminal) : Except Stop (State N × Terminal) := do
  let (s, t) ← runIf fuel rate (Logger.selects algo .fifo) "FIFO" schedulerFifo query s t
  let (s, t) ← runIf fuel rate (Logger.selects algo .min) "MIN (Optimal)" schedulerMin query s t
  let (s, t) ← runIf fuel rate (Logger.selects algo .lru) "LRU" schedulerLru query s t
  runIf fuel rate (Logger.selects algo .secondChance) "Second Chance" schedulerSecondChance query
    s t

end Display

end OsLabs.PageReplace
