import Mathlib.Data.List.FinRange
import Mathlib.Logic.Function.Basic
import Mathlib.Tactic.IntervalCases

/-!
# A core of the ARM instruction set

The registers, the banked registers and the memory of an ARM processor in ARM state, and the
instructions that exception handlers are made of.  A mode is the low five bits of the status
register `cpsr`; each mode has its own `sp`, `lr` and `spsr`.  Left out are the other registers
that FIQ mode banks and that User mode shares with System mode, and the bits other than the mode
and the mask that an exception entry can change: returning restores them with the whole of `cpsr`.

A word in memory is four bytes, the lowest one first (`Mem.read_write`).  What `push` has saved,
`pop` brings back, if the block is still there (`get_pop`).
-/

namespace OsLabs.Arm

open Function

abbrev Word := BitVec 32

/-! ### Memory -/

abbrev Mem := Word → BitVec 8

/-- The word at `a`. -/
def Mem.read (m : Mem) (a : Word) : Word := m (a + 3#32) ++ m (a + 2#32) ++ m (a + 1#32) ++ m a

/-- The word `v` stored at `a`. -/
def Mem.write (m : Mem) (a v : Word) : Mem := fun b =>
  if (b - a).toNat < 4 then v.extractLsb' (8 * (b - a).toNat) 8 else m b

/-- The `n` words from `a` on. -/
def Mem.readAll (m : Mem) (a : Word) : ℕ → List Word
  | 0 => []
  | n + 1 => m.read a :: m.readAll (a + 4#32) n

/-- The words `vs` stored from `a` on. -/
def Mem.writeAll (m : Mem) (a : Word) : List Word → Mem
  | [] => m
  | v :: vs => (m.writeAll (a + 4#32) vs).write a v

theorem Mem.write_of_notMem {m : Mem} {a v b : Word} (h : 4 ≤ (b - a).toNat) :
    m.write a v b = m b :=
  if_neg (by omega)

theorem Mem.read_congr {m m' : Mem} {a : Word} (h : ∀ b : Word, (b - a).toNat < 4 → m b = m' b) :
    m.read a = m'.read a := by
  rw [read, read, h (a + 3#32) (by bv_omega), h (a + 2#32) (by bv_omega),
    h (a + 1#32) (by bv_omega), h a (by bv_omega)]

theorem Mem.write_byte (m : Mem) (a v : Word) {k : ℕ} (hk : k < 4) :
    m.write a v (a + BitVec.ofNat 32 k) = v.extractLsb' (8 * k) 8 := by
  have hsub : (a + BitVec.ofNat 32 k - a).toNat = k := by bv_omega
  rw [write, hsub, if_pos hk]

/-- **A word that was stored is read back.** -/
@[simp] theorem Mem.read_write (m : Mem) (a v : Word) : (m.write a v).read a = v := by
  have hzero := m.write_byte a v (show 0 < 4 by decide)
  rw [BitVec.add_zero] at hzero
  rw [read, m.write_byte a v (show 3 < 4 by decide), m.write_byte a v (show 2 < 4 by decide),
    m.write_byte a v (show 1 < 4 by decide), hzero]
  ext i hi
  simp only [BitVec.getElem_append, BitVec.getElem_extractLsb']
  interval_cases i <;> rfl

/-- Storing words changes no other byte. -/
theorem Mem.writeAll_of_notMem {m : Mem} {a b : Word} {vs : List Word}
    (h : 4 * vs.length ≤ (b - a).toNat) : m.writeAll a vs b = m b := by
  induction vs generalizing a with
  | nil => rfl
  | cons v vs ih =>
    rw [List.length_cons] at h
    rw [writeAll, write_of_notMem (by omega)]
    apply ih
    bv_omega

theorem Mem.readAll_congr {m m' : Mem} {a : Word} {n : ℕ} (hn : 4 * n ≤ 2 ^ 32)
    (h : ∀ b : Word, (b - a).toNat < 4 * n → m b = m' b) : m.readAll a n = m'.readAll a n := by
  induction n generalizing a with
  | zero => rfl
  | succ n ih =>
    rw [readAll, readAll, read_congr fun b hb => h b (by omega), ih (by omega)]
    intro b hb
    apply h
    bv_omega

/-- **Words that were stored are read back.** -/
theorem Mem.readAll_writeAll (m : Mem) (a : Word) {vs : List Word} (hn : 4 * vs.length ≤ 2 ^ 32) :
    (m.writeAll a vs).readAll a vs.length = vs := by
  induction vs generalizing a with
  | nil => rfl
  | cons v vs ih =>
    rw [List.length_cons] at hn
    have hrest : ((m.writeAll (a + 4#32) vs).write a v).readAll (a + 4#32) vs.length = vs := by
      rw [← readAll_congr (m := m.writeAll (a + 4#32) vs) (by omega), ih (a + 4#32) (by omega)]
      intro b hb
      rw [write_of_notMem]
      bv_omega
    rw [List.length_cons, readAll, writeAll, read_write, hrest]

/-! ### The processor -/

/-- The registers an instruction names. -/
inductive Reg where
  /-- `r0` to `r12` -/
  | r (i : Fin 13)
  | sp
  | lr
  | pc
  deriving DecidableEq, Repr

abbrev Mode := BitVec 5

/-- IRQ mode -/
def Mode.irq : Mode := 0x12

/-- Supervisor mode -/
def Mode.svc : Mode := 0x13

/-- The state of the processor and the memory. -/
structure Cpu where
  r : Fin 13 → Word
  /-- The stack pointer of each mode. -/
  sp : Mode → Word
  /-- The link register of each mode. -/
  lr : Mode → Word
  /-- The saved status of each mode. -/
  spsr : Mode → Word
  pc : Word
  cpsr : Word
  /-- The base of the exception vectors. -/
  vbar : Word
  mem : Mem

/-- The mode in a status. -/
def modeOf (psr : Word) : Mode := psr.setWidth 5

/-- The I bit of a status: interrupts are masked. -/
def maskedIn (psr : Word) : Bool := psr.getLsbD 7

namespace Cpu

def mode (s : Cpu) : Mode := modeOf s.cpsr

def masked (s : Cpu) : Bool := maskedIn s.cpsr

/-- A register of the current mode. -/
def get (s : Cpu) : Reg → Word
  | .r i => s.r i
  | .sp => s.sp s.mode
  | .lr => s.lr s.mode
  | .pc => s.pc

def set (s : Cpu) (v : Word) : Reg → Cpu
  | .r i => { s with r := update s.r i v }
  | .sp => { s with sp := update s.sp s.mode v }
  | .lr => { s with lr := update s.lr s.mode v }
  | .pc => { s with pc := v }

/-- The registers loaded with the words. -/
def setAll (s : Cpu) : List Reg → List Word → Cpu
  | reg :: regs, v :: vs => (s.set v reg).setAll regs vs
  | _, _ => s

/-- On to the next instruction. -/
def next (s : Cpu) : Cpu := { s with pc := s.pc + 4#32 }

end Cpu

/-! ### Instructions -/

inductive Instr where
  /-- `b target` -/
  | b (target : Word)
  /-- `bl target` -/
  | bl (target : Word)
  /-- `bx rm` -/
  | bx (rm : Reg)
  /-- `ldr rd, =value` -/
  | ldrLit (rd : Reg) (value : Word)
  /-- `ldr rd, [rn]` -/
  | ldr (rd rn : Reg)
  /-- `str rd, [rn]` -/
  | str (rd rn : Reg)
  /-- `push {regs}`, the registers in ascending order -/
  | push (regs : List Reg)
  /-- `pop {regs}` -/
  | pop (regs : List Reg)
  /-- `bic rd, rn, #imm` -/
  | bic (rd rn : Reg) (imm : Word)
  /-- `cps #mode` -/
  | cps (mode : Mode)
  /-- `mrs rd, CPSR` -/
  | mrs (rd : Reg)
  /-- `msr CPSR_c, rn` -/
  | msrC (rn : Reg)
  /-- `mcr p15, 0, rd, c12, c0, 0` -/
  | mcrVbar (rd : Reg)
  /-- `subs pc, lr, #imm` -/
  | subsPcLr (imm : Word)
  deriving DecidableEq, Repr

/-- A status with another mode. -/
def withMode (psr : Word) (mode : Mode) : Word := (psr &&& ~~~0x1F#32) ||| mode.setWidth 32

/-- A status with its low byte from another word. -/
def withControl (psr v : Word) : Word := (psr &&& ~~~0xFF#32) ||| (v &&& 0xFF#32)

/-- One instruction, in a privileged mode. -/
def exec (s : Cpu) : Instr → Cpu
  | .b target => { s with pc := target }
  | .bl target => { s.set (s.pc + 4#32) .lr with pc := target }
  | .bx rm => { s with pc := s.get rm }
  | .ldrLit rd value => (s.set value rd).next
  | .ldr rd rn => (s.set (s.mem.read (s.get rn)) rd).next
  | .str rd rn => { s.next with mem := s.mem.write (s.get rn) (s.get rd) }
  | .push regs =>
    let sp := s.get .sp - BitVec.ofNat 32 (4 * regs.length)
    { (s.set sp .sp).next with mem := s.mem.writeAll sp (regs.map s.get) }
  | .pop regs =>
    let sp := s.get .sp
    ((s.set (sp + BitVec.ofNat 32 (4 * regs.length)) .sp).setAll regs
      (s.mem.readAll sp regs.length)).next
  | .bic rd rn imm => (s.set (s.get rn &&& ~~~imm) rd).next
  | .cps mode => { s.next with cpsr := withMode s.cpsr mode }
  | .mrs rd => (s.set s.cpsr rd).next
  | .msrC rn => { s.next with cpsr := withControl s.cpsr (s.get rn) }
  | .mcrVbar rd => { s.next with vbar := s.get rd }
  | .subsPcLr imm => { s with pc := s.get .lr - imm, cpsr := s.spsr s.mode }

/-- An IRQ is taken: `lr` is four bytes behind the instruction to return to. -/
def takeIrq (s : Cpu) : Cpu :=
  { s with
    spsr := update s.spsr .irq s.cpsr
    lr := update s.lr .irq (s.pc + 4#32)
    cpsr := withMode s.cpsr .irq ||| 0x80#32
    pc := s.vbar + 0x18#32 }

/-! ### Statuses -/

@[simp] theorem modeOf_withMode (psr : Word) (mode : Mode) : modeOf (withMode psr mode) = mode := by
  ext i hi
  simp only [modeOf, withMode, BitVec.getElem_setWidth, BitVec.getLsbD_or, BitVec.getLsbD_and,
    BitVec.getLsbD_not, BitVec.getLsbD_setWidth]
  interval_cases i <;> simp

theorem modeOf_or_mask (psr : Word) : modeOf (psr ||| 0x80#32) = modeOf psr := by
  ext i hi
  simp only [modeOf, BitVec.getElem_setWidth, BitVec.getLsbD_or]
  interval_cases i <;> simp

theorem maskedIn_or_mask (psr : Word) : maskedIn (psr ||| 0x80#32) = true := by
  simp [maskedIn]

@[simp] theorem mode_takeIrq (s : Cpu) : (takeIrq s).mode = .irq := by
  rw [Cpu.mode, takeIrq, modeOf_or_mask, modeOf_withMode]

@[simp] theorem mode_cps (s : Cpu) (mode : Mode) : (exec s (.cps mode)).mode = mode :=
  modeOf_withMode _ _

@[simp] theorem masked_takeIrq (s : Cpu) : (takeIrq s).masked = true := maskedIn_or_mask _

@[simp] theorem spsr_takeIrq (s : Cpu) : (takeIrq s).spsr .irq = s.cpsr := by
  simp [takeIrq]

@[simp] theorem lr_takeIrq (s : Cpu) : (takeIrq s).lr .irq = s.pc + 4#32 := by
  simp [takeIrq]

theorem spsr_takeIrq_of_ne (s : Cpu) {m : Mode} (h : m ≠ .irq) : (takeIrq s).spsr m = s.spsr m := by
  simp [takeIrq, h]

theorem lr_takeIrq_of_ne (s : Cpu) {m : Mode} (h : m ≠ .irq) : (takeIrq s).lr m = s.lr m := by
  simp [takeIrq, h]

/-- The mode and the mask are in the low byte. -/
theorem modeOf_congr {p q : Word} (h : p.setWidth 8 = q.setWidth 8) : modeOf p = modeOf q := by
  rw [modeOf, ← BitVec.setWidth_setWidth_of_le p (show 5 ≤ 8 by decide), h,
    BitVec.setWidth_setWidth_of_le q (show 5 ≤ 8 by decide), modeOf]

theorem maskedIn_congr {p q : Word} (h : p.setWidth 8 = q.setWidth 8) :
    maskedIn p = maskedIn q := by
  have hbit := congrArg (fun b : BitVec 8 => b.getLsbD 7) h
  simpa [maskedIn] using hbit

/-! ### Registers -/

namespace Cpu

variable (s : Cpu)

@[simp] theorem cpsr_set (v : Word) (reg : Reg) : (s.set v reg).cpsr = s.cpsr := by
  cases reg <;> rfl

@[simp] theorem spsr_set (v : Word) (reg : Reg) : (s.set v reg).spsr = s.spsr := by
  cases reg <;> rfl

@[simp] theorem vbar_set (v : Word) (reg : Reg) : (s.set v reg).vbar = s.vbar := by
  cases reg <;> rfl

@[simp] theorem mem_set (v : Word) (reg : Reg) : (s.set v reg).mem = s.mem := by
  cases reg <;> rfl

@[simp] theorem mode_set (v : Word) (reg : Reg) : (s.set v reg).mode = s.mode := by
  rw [mode, mode, cpsr_set]

@[simp] theorem get_set_self (v : Word) (reg : Reg) : (s.set v reg).get reg = v := by
  cases reg with
  | r i => exact update_self ..
  | sp => exact update_self ..
  | lr => exact update_self ..
  | pc => rfl

theorem get_set_of_ne (v : Word) {reg reg' : Reg} (h : reg' ≠ reg) :
    (s.set v reg).get reg' = s.get reg' := by
  cases reg <;> cases reg' <;> try rfl
  case r.r i j => exact update_of_ne (fun hij => h (congrArg Reg.r hij)) ..
  all_goals exact absurd rfl h

/-- The registers of another mode. -/
theorem sp_set_of_ne (v : Word) (reg : Reg) {m : Mode} (h : m ≠ s.mode) :
    (s.set v reg).sp m = s.sp m := by
  cases reg with
  | sp => exact update_of_ne h ..
  | r | lr | pc => rfl

theorem lr_set_of_ne (v : Word) (reg : Reg) {m : Mode} (h : m ≠ s.mode) :
    (s.set v reg).lr m = s.lr m := by
  cases reg with
  | lr => exact update_of_ne h ..
  | r | sp | pc => rfl

variable (regs : List Reg) (vs : List Word)

@[simp] theorem cpsr_setAll : (s.setAll regs vs).cpsr = s.cpsr := by
  fun_induction setAll s regs vs with
  | case1 s reg regs v vs ih => rw [ih, cpsr_set]
  | case2 => rfl

@[simp] theorem spsr_setAll : (s.setAll regs vs).spsr = s.spsr := by
  fun_induction setAll s regs vs with
  | case1 s reg regs v vs ih => rw [ih, spsr_set]
  | case2 => rfl

@[simp] theorem vbar_setAll : (s.setAll regs vs).vbar = s.vbar := by
  fun_induction setAll s regs vs with
  | case1 s reg regs v vs ih => rw [ih, vbar_set]
  | case2 => rfl

@[simp] theorem mem_setAll : (s.setAll regs vs).mem = s.mem := by
  fun_induction setAll s regs vs with
  | case1 s reg regs v vs ih => rw [ih, mem_set]
  | case2 => rfl

@[simp] theorem mode_setAll : (s.setAll regs vs).mode = s.mode := by
  rw [mode, mode, cpsr_setAll]

theorem sp_setAll_of_ne {m : Mode} (h : m ≠ s.mode) : (s.setAll regs vs).sp m = s.sp m := by
  fun_induction setAll s regs vs with
  | case1 s reg regs v vs ih => rw [ih (by rwa [mode_set]), sp_set_of_ne _ _ _ h]
  | case2 => rfl

theorem lr_setAll_of_ne {m : Mode} (h : m ≠ s.mode) : (s.setAll regs vs).lr m = s.lr m := by
  fun_induction setAll s regs vs with
  | case1 s reg regs v vs ih => rw [ih (by rwa [mode_set]), lr_set_of_ne _ _ _ h]
  | case2 => rfl

variable {regs}

theorem get_setAll_of_notMem {reg : Reg} (h : reg ∉ regs) :
    (s.setAll regs vs).get reg = s.get reg := by
  fun_induction setAll s regs vs with
  | case1 s reg' regs v vs ih =>
    rw [List.mem_cons, not_or] at h
    rw [ih h.2, get_set_of_ne _ _ h.1]
  | case2 => rfl

theorem get_setAll_map (hnd : regs.Nodup) (f : Reg → Word) {reg : Reg} (h : reg ∈ regs) :
    (s.setAll regs (regs.map f)).get reg = f reg := by
  induction regs generalizing s with
  | nil => exact absurd h List.not_mem_nil
  | cons reg' regs ih =>
    rw [List.nodup_cons] at hnd
    rw [List.map_cons, setAll]
    obtain rfl | h := List.mem_cons.mp h
    · rw [get_setAll_of_notMem _ _ hnd.1, get_set_self]
    · exact ih _ hnd.2 h

end Cpu

/-! ### `push` and `pop` -/

section Stack

/-- What `push` and `pop` leave alone. -/
structure StackFrame (s s' : Cpu) : Prop where
  pc : s'.pc = s.pc + 4#32
  cpsr : s'.cpsr = s.cpsr
  spsr : s'.spsr = s.spsr
  vbar : s'.vbar = s.vbar
  sp : ∀ m, m ≠ s.mode → s'.sp m = s.sp m
  lr : ∀ m, m ≠ s.mode → s'.lr m = s.lr m

variable (s : Cpu) (regs : List Reg)

theorem stackFrame_push : StackFrame s (exec s (.push regs)) where
  pc := rfl
  cpsr := rfl
  spsr := rfl
  vbar := rfl
  sp _ hm := s.sp_set_of_ne (s.get .sp - BitVec.ofNat 32 (4 * regs.length)) .sp hm
  lr _ _ := rfl

theorem get_sp_push : (exec s (.push regs)).get .sp
    = s.get .sp - BitVec.ofNat 32 (4 * regs.length) :=
  s.get_set_self (s.get .sp - BitVec.ofNat 32 (4 * regs.length)) .sp

variable {regs}

theorem stackFrame_pop (hpc : Reg.pc ∉ regs) : StackFrame s (exec s (.pop regs)) where
  pc := by
    have h := Cpu.get_setAll_of_notMem (s.set (s.get .sp + BitVec.ofNat 32 (4 * regs.length)) .sp)
      (s.mem.readAll (s.get .sp) regs.length) hpc
    exact congrArg (· + 4#32) h
  cpsr := by simp [exec, Cpu.next]
  spsr := by simp [exec, Cpu.next]
  vbar := by simp [exec, Cpu.next]
  sp m hm := by
    show (Cpu.setAll _ _ _).sp m = _
    rw [Cpu.sp_setAll_of_ne _ _ _ (by rwa [Cpu.mode_set]), Cpu.sp_set_of_ne _ _ _ hm]
  lr m hm := by
    show (Cpu.setAll _ _ _).lr m = _
    rw [Cpu.lr_setAll_of_ne _ _ _ (by rwa [Cpu.mode_set]), Cpu.lr_set_of_ne _ _ _ hm]

@[simp] theorem mem_pop : (exec s (.pop regs)).mem = s.mem := by
  simp [exec, Cpu.next]

/-- **`pop` brings back what is in the block**, and moves the stack pointer behind it. -/
theorem get_pop (hnd : regs.Nodup) (hsp : Reg.sp ∉ regs) {f : Reg → Word}
    (hblock : s.mem.readAll (s.get .sp) regs.length = regs.map f) :
    (exec s (.pop regs)).get .sp = s.get .sp + BitVec.ofNat 32 (4 * regs.length) ∧
      ∀ reg ∈ regs, reg ≠ .pc → (exec s (.pop regs)).get reg = f reg := by
  have hnext (u : Cpu) {reg : Reg} (h : reg ≠ .pc) : u.next.get reg = u.get reg := by
    cases reg with
    | r | sp | lr => rfl
    | pc => exact absurd rfl h
  constructor
  · show (Cpu.next _).get .sp = _
    rw [hnext _ (by decide), Cpu.get_setAll_of_notMem _ _ hsp, Cpu.get_set_self]
  · intro reg hreg hpc
    show (Cpu.next (Cpu.setAll _ _ _)).get reg = _
    rw [hnext _ hpc, hblock, Cpu.get_setAll_map _ hnd f hreg]

end Stack

end OsLabs.Arm
