import OsLabs.Terminal.Timer
import Mathlib.Order.Basic

/-!
# Timer ticks

An interrupt that is taken while main is in the body of the `if` is lost: the flag it sets is
cleared without a line printed for it.  When main has tested the flag between any two interrupts
this is the only way to lose one, so outside the body the lines printed and the flag account for all
interrupts if and only if none was taken inside (`ticks_account_iff`).
-/

namespace OsLabs.Terminal

/-- What has happened in a run so far. -/
structure History where
  interrupts : ℕ
  /-- Main has evaluated the test since the last interrupt, or there was none. -/
  tested : Bool
  /-- The interrupts that were taken while main was in the body of the `if`. -/
  inBody : ℕ
  deriving DecidableEq, Repr

/-- The runs in which main evaluates the test between any two interrupts. -/
inductive Run : TimerState → History → Prop where
  | start : Run .init { interrupts := 0, tested := true, inBody := 0 }
  | main {s : TimerState} {h : History} (hrun : Run s h) :
    Run (mainStep s) { h with tested := h.tested || s.pc = .test }
  | irq {s : TimerState} {h : History} (hrun : Run s h) (htested : h.tested = true) :
    Run (timerIrqHandler s) {
      interrupts := h.interrupts + 1
      tested := false
      inBody := if s.pc.InBody then h.inBody + 1 else h.inBody }

/-- The lines printed, the flag and the interrupts taken in the body add up to the interrupts.  In
the body the flag is set, and before the line is printed it stands for that line. -/
def Accounts (s : TimerState) (h : History) : Prop :=
  match s.pc with
  | .work | .test => (s.isTick = 0 ∨ s.isTick = 1 ∧ h.tested = false) ∧
    s.ticks + s.isTick + h.inBody = h.interrupts
  | .print => s.isTick = 1 ∧ s.ticks + 1 + h.inBody = h.interrupts
  | .clear => s.isTick = 1 ∧ s.ticks + h.inBody = h.interrupts

theorem accounts_mainStep {s : TimerState} {h : History} (hs : Accounts s h) :
    Accounts (mainStep s) { h with tested := h.tested || s.pc = .test } := by
  obtain ⟨pc, isTick, ticks⟩ := s
  cases pc with
  | work =>
    have hflag : isTick = 0 ∨ isTick = 1 ∧ h.tested = false := hs.1
    have hsum : (ticks : ℤ) + isTick + h.inBody = h.interrupts := hs.2
    refine ⟨?_, hsum⟩
    show isTick = 0 ∨ isTick = 1 ∧ (h.tested || decide (MainPc.work = .test)) = false
    simpa using hflag
  | test =>
    have hflag : isTick = 0 ∨ isTick = 1 ∧ h.tested = false := hs.1
    have hsum : (ticks : ℤ) + isTick + h.inBody = h.interrupts := hs.2
    by_cases hzero : isTick = 0
    · subst hzero
      exact ⟨.inl rfl, hsum⟩
    · -- the flag is set: main enters the body
      obtain rfl : isTick = 1 := (hflag.resolve_left hzero).1
      exact ⟨rfl, by exact_mod_cast hsum⟩
  | print =>
    obtain ⟨hflag, hsum⟩ := hs
    exact ⟨hflag, hsum⟩
  | clear =>
    have hsum : ticks + h.inBody = h.interrupts := hs.2
    refine ⟨.inl rfl, ?_⟩
    show (ticks : ℤ) + 0 + h.inBody = h.interrupts
    omega

theorem accounts_timerIrqHandler {s : TimerState} {h : History} (hs : Accounts s h)
    (htested : h.tested = true) :
    Accounts (timerIrqHandler s) {
      interrupts := h.interrupts + 1
      tested := false
      inBody := if s.pc.InBody then h.inBody + 1 else h.inBody } := by
  obtain ⟨pc, isTick, ticks⟩ := s
  -- outside the body the flag was clear, as main has tested it since it was set
  have houtside (hout : (isTick = 0 ∨ isTick = 1 ∧ h.tested = false) ∧
      (ticks : ℤ) + isTick + h.inBody = h.interrupts) :
      (ticks : ℤ) + 1 + h.inBody = ((h.interrupts + 1 : ℕ) : ℤ) := by
    obtain ⟨hzero | ⟨-, hnot⟩, hsum⟩ := hout
    · omega
    · rw [htested] at hnot
      exact absurd hnot (by decide)
  cases pc with
  | work => exact ⟨.inr ⟨rfl, rfl⟩, houtside hs⟩
  | test => exact ⟨.inr ⟨rfl, rfl⟩, houtside hs⟩
  | print =>
    have hsum : ticks + 1 + h.inBody = h.interrupts := hs.2
    refine ⟨rfl, ?_⟩
    show ticks + 1 + (h.inBody + 1) = h.interrupts + 1
    omega
  | clear =>
    have hsum : ticks + h.inBody = h.interrupts := hs.2
    refine ⟨rfl, ?_⟩
    show ticks + (h.inBody + 1) = h.interrupts + 1
    omega

theorem Run.accounts {s : TimerState} {h : History} (hrun : Run s h) : Accounts s h := by
  induction hrun with
  | start => exact ⟨.inl rfl, rfl⟩
  | main _ ih => exact accounts_mainStep ih
  | irq _ htested ih => exact accounts_timerIrqHandler ih htested

/-- **Timer ticks**: in every run in which main tests the flag between any two interrupts, and at
every moment at which main is outside the body of the `if`, the lines printed and the flag account
for all interrupts if and only if none of them was taken in the body. -/
theorem ticks_account_iff {s : TimerState} {h : History} (hrun : Run s h)
    (hout : ¬s.pc.InBody) : s.ticks + s.isTick = h.interrupts ↔ h.inBody = 0 := by
  have hacc := hrun.accounts
  obtain ⟨pc, isTick, ticks⟩ := s
  have hcount (hsum : (ticks : ℤ) + isTick + h.inBody = h.interrupts) :
      (ticks : ℤ) + isTick = h.interrupts ↔ h.inBody = 0 := by omega
  cases pc with
  | work => exact hcount hacc.2
  | test => exact hcount hacc.2
  | print => exact absurd (.inl rfl) hout
  | clear => exact absurd (.inr rfl) hout

/-- An interrupt during the delay, and the pass through the body that prints its line. -/
theorem ticks_account_iff_one :
    (((1 : ℕ) : ℤ) + 0 = ((1 : ℕ) : ℤ)) ↔ (0 : ℕ) = 0 :=
  ticks_account_iff ((Run.start.irq rfl).main.main.main.main) (by decide)

/-- A second interrupt after the test has found the flag set. -/
theorem not_ticks_account : ¬∀ (s : TimerState) (h : History), Run s h → ¬s.pc.InBody →
    s.ticks + s.isTick = h.interrupts := by
  intro hall
  have hcount := hall _ _ (((Run.start.irq rfl).main.main.irq rfl).main.main) (by decide)
  exact absurd hcount (by decide)

end OsLabs.Terminal
