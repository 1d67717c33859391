import OsLabs.Terminal.Print
import OsLabs.Terminal.Timer

/-!
# The whole program of the interrupt lab (`003InterruptHandler/source/main.c`, `lib/random.c`)

The steps of main between which an interrupt can be taken: a character that goes to the UART, or
what main does between two calls of `PRINT`.  As in the model of the timer, `timer_irq_handler` is
one step, and the registers of the timer and of the interrupt controller are left out.
-/

namespace OsLabs.Terminal.InterruptHandler

/-- `rand`: the new `seed`, which is the result. -/
def rand (seed : UInt32) : UInt32 := (seed * 1103515245 + 12345) &&& 0x7fffffff

/-- What main does next. -/
inductive Pc where
  /-- The first message. -/
  | starting
  | initializing
  /-- `timer_init(2000)` -/
  | timer
  | enabling
  /-- `enable_irq()` -/
  | enable
  | enabled
  /-- The random number. -/
  | random
  /-- The test of `isTick`. -/
  | test
  /-- `PRINT("Tick\n")` -/
  | tick
  /-- `isTick = 0` -/
  | clear
  | delay
  deriving DecidableEq, Repr

structure MainState where
  pc : Pc
  /-- The characters that the current `PRINT` still sends. -/
  out : List Char
  uart : Uart
  seed : UInt32
  isTick : ℤ
  /-- Interrupts are masked. -/
  masked : Bool
  deriving DecidableEq, Repr

/-- The state in which main is called. -/
def MainState.init : MainState where
  pc := .starting
  out := []
  uart := { rx := [], tx := [] }
  seed := 12345
  isTick := 0
  masked := true

/-- A call of `PRINT`, after which main goes on at `pc`. -/
def MainState.print (s : MainState) (format : List Char) (args : List (Value ℚ)) (pc : Pc) :
    Option MainState := do
  let u ← Terminal.print ftoa format args { s.uart with tx := [] }
  return { s with pc := pc, out := u.tx }

/-- The next step of main. -/
def next (s : MainState) : Option MainState :=
  match s.out with
  | c :: out => some { s with out := out, uart := uartPutc c s.uart }
  | [] =>
    match s.pc with
    | .starting =>
      s.print "---------- Starting Interrupt Handler Process ----------\n".toList [] .initializing
    | .initializing => s.print "Initializing timer...\n".toList [] .timer
    | .timer => some { s with pc := .enabling }
    | .enabling => s.print "Enabling interrupts...\n".toList [] .enable
    | .enable => some { s with pc := .enabled, masked := false }
    | .enabled => s.print "Timer initialized and interrupts enabled.\n".toList [] .random
    | .random =>
      let seed := rand s.seed
      let randomNum := seed % 1000
      { s with seed := seed }.print "%d\n".toList [.int (int32 randomNum.toNat)] .test
    | .test => some { s with pc := if s.isTick ≠ 0 then .tick else .delay }
    | .tick => s.print "Tick\n".toList [] .clear
    | .clear => some { s with pc := .delay, isTick := 0 }
    | .delay => some { s with pc := .random }

/-- `timer_irq_handler` -/
def irq (s : MainState) : MainState := { s with isTick := 1 }

/-- What has happened in a run. -/
structure Trace where
  /-- The steps of main. -/
  steps : ℕ
  interrupts : ℕ
  /-- The interrupts that were taken while `isTick` was set. -/
  merged : ℕ
  deriving DecidableEq, Repr

/-- The states reached by steps of main and interrupts, in any order. -/
inductive Run : MainState → Trace → Prop where
  | start : Run .init { steps := 0, interrupts := 0, merged := 0 }
  | main {s s' : MainState} {t : Trace} (hrun : Run s t) (h : next s = some s') :
    Run s' { t with steps := t.steps + 1 }
  | irq {s : MainState} {t : Trace} (hrun : Run s t) (h : s.masked = false) :
    Run (irq s) { t with
      interrupts := t.interrupts + 1
      merged := if s.isTick ≠ 0 then t.merged + 1 else t.merged }

end OsLabs.Terminal.InterruptHandler
