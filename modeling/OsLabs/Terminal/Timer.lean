import Mathlib.Data.Int.Notation
import Mathlib.Data.Nat.Notation

/-!
# The timer interrupt (`003InterruptHandler/source/main.c`, `os/drivers/timer.c`, `os/root.s`)

The main loop as the steps between which an interrupt can be taken.  `irq_handler` saves and
restores the registers of main and calls `timer_irq_handler`, which is one step; the registers of
the timer and of the interrupt controller that it writes are left out.
-/

namespace OsLabs.Terminal

/-- Where main is. -/
inductive MainPc where
  /-- Outside the `if`: before the loop, at the random number, or in the delay. -/
  | work
  /-- Before the test of `isTick`. -/
  | test
  /-- Before `PRINT("Tick\n")`. -/
  | print
  /-- Before `isTick = 0`. -/
  | clear
  deriving DecidableEq, Repr

/-- Main is in the body of the `if`. -/
def MainPc.InBody (pc : MainPc) : Prop := pc = .print ∨ pc = .clear

instance (pc : MainPc) : Decidable pc.InBody := inferInstanceAs (Decidable (_ ∨ _))

structure TimerState where
  pc : MainPc
  isTick : ℤ
  /-- The number of lines `Tick` printed so far. -/
  ticks : ℕ
  deriving DecidableEq, Repr

/-- The state in which interrupts are enabled. -/
def TimerState.init : TimerState where
  pc := .work
  isTick := 0
  ticks := 0

/-- The next step of main. -/
def mainStep (s : TimerState) : TimerState :=
  match s.pc with
  | .work => { s with pc := .test }
  | .test => if s.isTick ≠ 0 then { s with pc := .print } else { s with pc := .work }
  | .print => { s with pc := .clear, ticks := s.ticks + 1 }
  | .clear => { s with pc := .work, isTick := 0 }

/-- `timer_irq_handler` -/
def timerIrqHandler (s : TimerState) : TimerState := { s with isTick := 1 }

end OsLabs.Terminal
