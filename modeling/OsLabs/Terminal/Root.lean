import OsLabs.Lib.Arm

/-!
# The startup code and the interrupt handler (`003InterruptHandler/os/root.s`)

`rootText` is the text of `root.s`, instruction for instruction; it is not in the memory that the
program writes.  The C code is not there as machine code, so it is a parameter of the `Image`: a
step of main and of what it calls is any step of `code`, a relation on what compiled code can see.
It sees its registers, the flags and the memory outside of the IRQ stack (`Visible`); it leaves the
control bits of `cpsr` alone, and the text of `root.s` is entered only at `PUT32`, `GET32` and
`enable_irq`, or at `hang` when main returns.  A call of `timer_irq_handler` in IRQ mode is one
step to any state that the calling convention allows (`Handles`): `r4` to `r11` and `sp` are kept,
the other registers and the flags are arbitrary, the memory has the three stores of the function
and otherwise changes only in at most `depth` bytes below `sp`.

`Run` interleaves all of these with interrupts.  In an `AtomicRun` an interrupt is one step that
does the stores.
-/

namespace OsLabs.Terminal

open Arm Function

/-! ### The text -/

/-- The addresses that the linker chooses. -/
structure Layout where
  vectorTable : Word
  /-- `_stack_bottom` -/
  stackBottom : Word
  main : Word
  timerIrqHandler : Word
  isTick : Word

namespace Layout

variable (P : Layout)

/-- `_stack_top`, which is also `_irq_stack` -/
def stackTop : Word := P.stackBottom + 0x2000#32

/-- `_irq_stack_top` -/
def irqStackTop : Word := P.stackTop + 0x1000#32

/-- The address of an instruction of the text. -/
def addr (i : ℕ) : Word := P.vectorTable + BitVec.ofNat 32 (4 * i)

end Layout

/-! The positions of the labels in the text. -/

def RESET_HANDLER : ℕ := 8
def HANG : ℕ := 15
def UNDEFINED_HANDLER : ℕ := 16
def SWI_HANDLER : ℕ := 17
def PREFETCH_HANDLER : ℕ := 18
def DATA_HANDLER : ℕ := 19
def IRQ_HANDLER : ℕ := 20
def FIQ_HANDLER : ℕ := 24
def PUT32 : ℕ := 25
def GET32 : ℕ := 27
def ENABLE_IRQ : ℕ := 29

/-- `{r0-r12, lr}` -/
def savedRegs : List Reg := (List.finRange 13).map Reg.r ++ [.lr]

/-- `vector_table` -/
def vectorTable (P : Layout) : List Instr :=
  [.b (P.addr RESET_HANDLER), .b (P.addr UNDEFINED_HANDLER), .b (P.addr SWI_HANDLER),
    .b (P.addr PREFETCH_HANDLER), .b (P.addr DATA_HANDLER),
    -- reserved: branches to itself
    .b (P.addr 5), .b (P.addr IRQ_HANDLER), .b (P.addr FIQ_HANDLER)]

/-- `reset_handler` -/
def resetHandler (P : Layout) : List Instr :=
  [.ldrLit .sp P.stackTop, .cps 0x12, .ldrLit .sp P.irqStackTop, .cps 0x13,
    .ldrLit (.r 0) P.vectorTable, .mcrVbar (.r 0), .bl P.main]

/-- `hang`, and the handlers that go there -/
def hang (P : Layout) : List Instr := [.b (P.addr HANG)]

/-- `irq_handler` -/
def irqHandler (P : Layout) : List Instr :=
  [.push savedRegs, .bl P.timerIrqHandler, .pop savedRegs, .subsPcLr 4#32]

/-- `PUT32` -/
def put32 : List Instr := [.str (.r 1) (.r 0), .bx .lr]

/-- `GET32` -/
def get32 : List Instr := [.ldr (.r 0) (.r 0), .bx .lr]

/-- `enable_irq` -/
def enableIrq : List Instr := [.mrs (.r 0), .bic (.r 0) (.r 0) 0x80#32, .msrC (.r 0), .bx .lr]

/-- `root.s`: between `hang` and `irq_handler` stand `undefined_handler`, `swi_handler`,
`prefetch_handler` and `data_handler`, and behind it `fiq_handler`. -/
def rootText (P : Layout) : List Instr :=
  [vectorTable P, resetHandler P, hang P, hang P, hang P, hang P, hang P, irqHandler P, hang P,
    put32, get32, enableIrq].flatten

/-- The instruction of `root.s` at an address. -/
def Layout.fetch (P : Layout) (a : Word) : Option Instr :=
  if (a - P.vectorTable).toNat % 4 = 0 then (rootText P)[(a - P.vectorTable).toNat / 4]? else none

/-! ### The C code -/

/-- `TISR` -/
def TISR : Word := 0x48040028#32

/-- `INTC_CONTROL` -/
def INTC_CONTROL : Word := 0x48200048#32

/-- The stores of `timer_irq_handler`. -/
def Layout.timerStores (P : Layout) (m : Mem) : Mem :=
  ((m.write TISR 2#32).write INTC_CONTROL 1#32).write P.isTick 1#32

/-- A byte of the IRQ stack. -/
def Layout.InIrqStack (P : Layout) (a : Word) : Prop := (a - P.stackTop).toNat < 0x1000

instance (P : Layout) (a : Word) : Decidable (P.InIrqStack a) :=
  inferInstanceAs (Decidable (_ < _))

/-- A word none of whose bytes is in the IRQ stack. -/
def Layout.WordOutside (P : Layout) (a : Word) : Prop :=
  ∀ b : Word, (b - a).toNat < 4 → ¬P.InIrqStack b

/-- Where a function of `root.s` that main calls can return to. -/
def Layout.InCode (P : Layout) (a : Word) : Prop := P.fetch a = none ∨ a = P.addr HANG

/-- What compiled code sees in Supervisor mode. -/
structure Visible where
  r : Fin 13 → Word
  sp : Word
  lr : Word
  pc : Word
  cpsr : Word
  /-- The memory; the IRQ stack reads as 0. -/
  mem : Mem

/-- How compiled code can go on: in C code, in `hang`, or at a function of `root.s`. -/
inductive Layout.Enters (P : Layout) (v : Visible) : Prop where
  | code (h : P.InCode v.pc)
  | put32 (hpc : v.pc = P.addr PUT32) (hlr : P.InCode v.lr) (h : P.WordOutside (v.r 0))
  | get32 (hpc : v.pc = P.addr GET32) (hlr : P.InCode v.lr) (h : P.WordOutside (v.r 0))
  | enableIrq (hpc : v.pc = P.addr ENABLE_IRQ) (hlr : P.InCode v.lr)

/-- The linked program. -/
structure Image extends Layout where
  /-- One step of compiled code. -/
  code : Visible → Visible → Prop
  /-- The stack that `timer_irq_handler` uses. -/
  depth : ℕ
  control : ∀ v v', code v v' → v'.cpsr.setWidth 8 = v.cpsr.setWidth 8
  enters : ∀ v v', code v v' → toLayout.Enters v'
  depth_le : depth + 4 * savedRegs.length ≤ 0x1000
  main_notMem : toLayout.fetch main = none
  timerIrqHandler_notMem : toLayout.fetch timerIrqHandler = none
  isTick_outside : toLayout.WordOutside isTick
  tisr_outside : toLayout.WordOutside TISR
  intcControl_outside : toLayout.WordOutside INTC_CONTROL

namespace Image

variable (P : Image)

/-- What compiled code sees of a state. -/
def visible (s : Cpu) : Visible where
  r := s.r
  sp := s.sp .svc
  lr := s.lr .svc
  pc := s.pc
  cpsr := s.cpsr
  mem a := if P.InIrqStack a then 0 else s.mem a

/-- The state after compiled code went on to `v`. -/
def put (s : Cpu) (v : Visible) : Cpu :=
  { s with
    r := v.r
    sp := update s.sp .svc v.sp
    lr := update s.lr .svc v.lr
    pc := v.pc
    cpsr := v.cpsr
    mem := fun a => if P.InIrqStack a then s.mem a else v.mem a }

/-- A call of `timer_irq_handler` that returns. -/
structure Handles (s s' : Cpu) : Prop where
  entry : s.pc = P.timerIrqHandler
  mode : s.mode = .irq
  pc : s'.pc = s.lr s.mode
  r : ∀ i : Fin 13, 4 ≤ i.val → i.val ≤ 11 → s'.r i = s.r i
  sp : s'.sp = s.sp
  lr : ∀ m, m ≠ s.mode → s'.lr m = s.lr m
  spsr : s'.spsr = s.spsr
  vbar : s'.vbar = s.vbar
  cpsr : s'.cpsr.setWidth 8 = s.cpsr.setWidth 8
  mem : ∀ a, P.depth ≤ (s.sp s.mode - 1#32 - a).toNat → s'.mem a = P.timerStores s.mem a

/-! ### Runs -/

/-- A step of `root.s`, or of compiled code in Supervisor mode. -/
inductive Step : Cpu → Cpu → Prop where
  | root {s : Cpu} {i : Instr} (h : P.fetch s.pc = some i) : Step s (exec s i)
  | code {s : Cpu} {v : Visible} (hpc : P.fetch s.pc = none) (hmode : s.mode = .svc)
    (h : P.code (P.visible s) v) : Step s (P.put s v)

/-- Any step of the machine. -/
def Next (s s' : Cpu) : Prop :=
  P.Step s s' ∨ P.Handles s s' ∨ (s.masked = false ∧ s' = takeIrq s)

/-- The state after `n` instructions of `root.s`. -/
def runRoot : ℕ → Cpu → Option Cpu
  | 0, s => some s
  | n + 1, s => (P.fetch s.pc).bind fun i => runRoot n (exec s i)

/-- The processor starts in the vector table, in Supervisor mode, with interrupts masked. -/
structure Reset (s : Cpu) : Prop where
  pc : s.pc = P.vectorTable
  mode : s.mode = .svc
  masked : s.masked = true

/-- The states reached, and the number of interrupts taken.  A run begins when the eight
instructions up to the call of main are done. -/
inductive Run : Cpu → ℕ → Prop where
  | boot {s s' : Cpu} (hreset : P.Reset s) (h : P.runRoot 8 s = some s') : Run s' 0
  | step {s s' : Cpu} {n : ℕ} (hrun : Run s n) (h : P.Step s s') : Run s' n
  | handler {s s' : Cpu} {n : ℕ} (hrun : Run s n) (h : P.Handles s s') : Run s' n
  | irq {s : Cpu} {n : ℕ} (hrun : Run s n) (h : s.masked = false) : Run (takeIrq s) (n + 1)

/-- The same with interrupts that take one step. -/
inductive AtomicRun : Cpu → ℕ → Prop where
  | boot {s s' : Cpu} (hreset : P.Reset s) (h : P.runRoot 8 s = some s') : AtomicRun s' 0
  | step {s s' : Cpu} {n : ℕ} (hrun : AtomicRun s n) (h : P.Step s s') : AtomicRun s' n
  | irq {s : Cpu} {n : ℕ} (hrun : AtomicRun s n) (h : s.masked = false) :
    AtomicRun { s with mem := P.timerStores s.mem } (n + 1)

end Image

end OsLabs.Terminal
