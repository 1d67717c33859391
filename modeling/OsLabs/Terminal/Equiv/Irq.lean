import OsLabs.Terminal.Root

/-!
# An interrupt is one step

Between any two of its instructions main can be interrupted.  `irq_handler` saves `r0` to `r12` and
the return address on the IRQ stack, the other registers of main are banked or in `spsr`, and the
handler cannot be interrupted itself.  So while main runs, the machine differs from one in which
every interrupt is a single step only in what is left behind in the IRQ stack and in the banked
registers of IRQ mode (`Agree`), and while the handler runs, the context of main is in the places
that `InHandler` names.
-/

namespace OsLabs.Terminal

open Arm Function

/-! ### The text -/

namespace Layout

variable (P : Layout)

theorem addr_add_four (i : ℕ) : P.addr i + 4#32 = P.addr (i + 1) := by
  rw [addr, addr, BitVec.add_assoc]
  congr 1
  bv_omega

theorem fetch_addr {i : ℕ} {instr : Instr} (hi : i < 33) (h : (rootText P)[i]? = some instr) :
    P.fetch (P.addr i) = some instr := by
  have hoffset : (P.addr i - P.vectorTable).toNat = 4 * i := by
    rw [addr]
    bv_omega
  rw [fetch, hoffset, Nat.mul_mod_right, if_pos rfl, Nat.mul_div_cancel_left _ (by decide), h]

/-- The instruction at an address of the text. -/
theorem eq_of_fetch {a : Word} {i : ℕ} {instr : Instr} (hfetch : P.fetch a = some instr)
    (ha : a = P.addr i) (hi : i < 33) (instr' : Instr) (h : (rootText P)[i]? = some instr') :
    instr = instr' := by
  rw [ha, P.fetch_addr hi h] at hfetch
  exact (Option.some.inj hfetch).symm

end Layout

/-- A status keeps its mode when the mask is cleared. -/
theorem modeOf_bic (psr : Word) : modeOf (psr &&& ~~~0x80#32) = modeOf psr := by
  ext i hi
  simp only [modeOf, BitVec.getElem_setWidth, BitVec.getLsbD_and, BitVec.getLsbD_not]
  interval_cases i <;> simp

theorem modeOf_withControl (psr v : Word) : modeOf (withControl psr v) = modeOf v := by
  ext i hi
  simp only [modeOf, withControl, BitVec.getElem_setWidth, BitVec.getLsbD_or, BitVec.getLsbD_and,
    BitVec.getLsbD_not]
  interval_cases i <;> simp

theorem svc_ne_irq : Mode.svc ≠ Mode.irq := by decide

/-! ### Main -/

/-- Where main is. -/
inductive At (P : Layout) (t : Cpu) : Prop where
  | code (h : P.InCode t.pc)
  | put32 (hpc : t.pc = P.addr PUT32) (hlr : P.InCode (t.lr .svc)) (h : P.WordOutside (t.r 0))
  | get32 (hpc : t.pc = P.addr GET32) (hlr : P.InCode (t.lr .svc)) (h : P.WordOutside (t.r 0))
  | enableIrq (hpc : t.pc = P.addr ENABLE_IRQ) (hlr : P.InCode (t.lr .svc))
  /-- `r0` holds the status that is to be written. -/
  | bic (hpc : t.pc = P.addr (ENABLE_IRQ + 1)) (hlr : P.InCode (t.lr .svc))
    (h : modeOf (t.r 0) = .svc)
  | msr (hpc : t.pc = P.addr (ENABLE_IRQ + 2)) (hlr : P.InCode (t.lr .svc))
    (h : modeOf (t.r 0) = .svc)
  | ret (h : P.fetch t.pc = some (.bx .lr)) (hlr : P.InCode (t.lr .svc))

/-- What holds whenever main runs. -/
structure Running (P : Layout) (t : Cpu) : Prop where
  mode : t.mode = .svc
  vbar : t.vbar = P.vectorTable
  sp : t.sp .irq = P.irqStackTop
  at_ : At P t

/-- The instructions of `root.s` that main executes. -/
inductive MainInstr (P : Layout) (t : Cpu) : Instr → Prop where
  | b (target : Word) : MainInstr P t (.b target)
  | bx : MainInstr P t (.bx .lr)
  | str (h : P.WordOutside (t.r 0)) : MainInstr P t (.str (.r 1) (.r 0))
  | ldr (h : P.WordOutside (t.r 0)) : MainInstr P t (.ldr (.r 0) (.r 0))
  | mrs : MainInstr P t (.mrs (.r 0))
  | bic : MainInstr P t (.bic (.r 0) (.r 0) 0x80#32)
  | msr : MainInstr P t (.msrC (.r 0))

/-- One instruction of `root.s` that main executes. -/
theorem Running.exec {P : Layout} {t : Cpu} {i : Instr} (h : Running P t)
    (hfetch : P.fetch t.pc = some i) : MainInstr P t i ∧ Running P (exec t i) := by
  obtain ⟨hmode, hvbar, hsp, hat⟩ := h
  have hnext (k : ℕ) (hpc : t.pc = P.addr k) : t.pc + 4#32 = P.addr (k + 1) := by
    rw [hpc, P.addr_add_four]
  cases hat with
  | code h =>
    obtain hnone | hhang := h
    · exact absurd (hnone.symm.trans hfetch) (by simp)
    · obtain rfl := P.eq_of_fetch hfetch hhang (by decide) (.b (P.addr HANG)) rfl
      exact ⟨.b _, hmode, hvbar, hsp, .code (.inr rfl)⟩
  | put32 hpc hlr h =>
    obtain rfl := P.eq_of_fetch hfetch hpc (by decide) (.str (.r 1) (.r 0)) rfl
    refine ⟨.str h, hmode, hvbar, hsp, .ret ?_ hlr⟩
    show P.fetch (t.pc + 4#32) = _
    rw [hnext _ hpc]
    exact P.fetch_addr (by decide) rfl
  | get32 hpc hlr h =>
    obtain rfl := P.eq_of_fetch hfetch hpc (by decide) (.ldr (.r 0) (.r 0)) rfl
    refine ⟨.ldr h, hmode, hvbar, hsp, .ret ?_ hlr⟩
    show P.fetch (t.pc + 4#32) = _
    rw [hnext _ hpc]
    exact P.fetch_addr (by decide) rfl
  | enableIrq hpc hlr =>
    obtain rfl := P.eq_of_fetch hfetch hpc (by decide) (.mrs (.r 0)) rfl
    exact ⟨.mrs, hmode, hvbar, hsp, .bic (hnext _ hpc) hlr hmode⟩
  | bic hpc hlr h =>
    obtain rfl := P.eq_of_fetch hfetch hpc (by decide) (.bic (.r 0) (.r 0) 0x80#32) rfl
    exact ⟨.bic, hmode, hvbar, hsp, .msr (hnext _ hpc) hlr ((modeOf_bic _).trans h)⟩
  | msr hpc hlr h =>
    obtain rfl := P.eq_of_fetch hfetch hpc (by decide) (.msrC (.r 0)) rfl
    refine ⟨.msr, (modeOf_withControl _ _).trans h, hvbar, hsp, .ret ?_ hlr⟩
    show P.fetch (t.pc + 4#32) = _
    rw [hnext _ hpc]
    exact P.fetch_addr (by decide) rfl
  | ret h hlr =>
    obtain rfl : Instr.bx .lr = i := Option.some.inj (h.symm.trans hfetch)
    refine ⟨.bx, hmode, hvbar, hsp, .code ?_⟩
    show P.InCode (t.lr t.mode)
    rw [hmode]
    exact hlr

theorem Running.put {P : Image} {t : Cpu} {v : Visible} (h : Running P.toLayout t)
    (hcode : P.code (P.visible t) v) : Running P.toLayout (P.put t v) := by
  have hlr : (P.put t v).lr .svc = v.lr := by
    show update t.lr .svc v.lr .svc = v.lr
    rw [update_self]
  refine ⟨?_, h.vbar, ?_, ?_⟩
  · exact (modeOf_congr (P.control _ _ hcode)).trans h.mode
  · show update t.sp .svc v.sp .irq = _
    rw [update_of_ne svc_ne_irq.symm]
    exact h.sp
  · cases P.enters _ _ hcode with
    | code h => exact .code h
    | put32 hpc hret h => exact .put32 hpc (hlr ▸ hret) h
    | get32 hpc hret h => exact .get32 hpc (hlr ▸ hret) h
    | enableIrq hpc hret => exact .enableIrq hpc (hlr ▸ hret)

/-! ### Up to what is private to IRQ mode -/

/-- The states are equal up to the IRQ stack and the `lr` and `spsr` of IRQ mode. -/
structure Agree (P : Layout) (s t : Cpu) : Prop where
  r : s.r = t.r
  pc : s.pc = t.pc
  cpsr : s.cpsr = t.cpsr
  vbar : s.vbar = t.vbar
  sp : s.sp = t.sp
  lr : ∀ m, m ≠ .irq → s.lr m = t.lr m
  spsr : ∀ m, m ≠ .irq → s.spsr m = t.spsr m
  mem : ∀ a, ¬P.InIrqStack a → s.mem a = t.mem a

theorem Agree.refl (P : Layout) (t : Cpu) : Agree P t t :=
  ⟨rfl, rfl, rfl, rfl, rfl, fun _ _ => rfl, fun _ _ => rfl, fun _ _ => rfl⟩

/-- A word outside of the IRQ stack is read the same. -/
theorem Layout.WordOutside.read_congr {P : Layout} {a : Word} (h : P.WordOutside a) {m m' : Mem}
    (hm : ∀ a, ¬P.InIrqStack a → m a = m' a) : m.read a = m'.read a :=
  Mem.read_congr fun b hb => hm b (h b hb)

theorem write_congr {m m' : Mem} {a v b : Word} (h : m b = m' b) :
    m.write a v b = m'.write a v b := by
  unfold Mem.write
  rw [h]

theorem Agree.exec {P : Layout} {s t : Cpu} {i : Instr} (h : Agree P s t) (hmode : t.mode = .svc)
    (hi : MainInstr P t i) : Agree P (exec s i) (exec t i) := by
  obtain ⟨hr, hpc, hcpsr, hvbar, hsp, hlr, hspsr, hmem⟩ := h
  have hmode' : s.mode = .svc := by rw [Cpu.mode, hcpsr]; exact hmode
  have hnext : s.pc + 4#32 = t.pc + 4#32 := by rw [hpc]
  cases hi with
  | b target => exact ⟨hr, rfl, hcpsr, hvbar, hsp, hlr, hspsr, hmem⟩
  | bx =>
    refine ⟨hr, ?_, hcpsr, hvbar, hsp, hlr, hspsr, hmem⟩
    show s.lr s.mode = t.lr t.mode
    rw [hmode, hmode']
    exact hlr _ svc_ne_irq
  | str hout =>
    refine ⟨hr, hnext, hcpsr, hvbar, hsp, hlr, hspsr, fun a ha => ?_⟩
    show s.mem.write (s.r 0) (s.r 1) a = t.mem.write (t.r 0) (t.r 1) a
    rw [hr]
    exact write_congr (hmem a ha)
  | ldr hout =>
    refine ⟨?_, hnext, hcpsr, hvbar, hsp, hlr, hspsr, hmem⟩
    show update s.r 0 (s.mem.read (s.r 0)) = update t.r 0 (t.mem.read (t.r 0))
    rw [hr, hout.read_congr hmem]
  | mrs =>
    refine ⟨?_, hnext, hcpsr, hvbar, hsp, hlr, hspsr, hmem⟩
    show update s.r 0 s.cpsr = update t.r 0 t.cpsr
    rw [hr, hcpsr]
  | bic =>
    refine ⟨?_, hnext, hcpsr, hvbar, hsp, hlr, hspsr, hmem⟩
    show update s.r 0 (s.r 0 &&& _) = update t.r 0 (t.r 0 &&& _)
    rw [hr]
  | msr =>
    refine ⟨hr, hnext, ?_, hvbar, hsp, hlr, hspsr, hmem⟩
    show withControl s.cpsr (s.r 0) = withControl t.cpsr (t.r 0)
    rw [hr, hcpsr]

theorem Agree.visible_eq {P : Image} {s t : Cpu} (h : Agree P.toLayout s t) :
    P.visible s = P.visible t := by
  have hmem : (P.visible s).mem = (P.visible t).mem := by
    funext a
    show (if P.InIrqStack a then (0 : BitVec 8) else s.mem a)
      = if P.InIrqStack a then 0 else t.mem a
    by_cases ha : P.InIrqStack a
    · rw [if_pos ha, if_pos ha]
    · rw [if_neg ha, if_neg ha, h.mem a ha]
  rw [Image.visible, Image.visible, Visible.mk.injEq]
  exact ⟨h.r, congrFun h.sp _, h.lr _ svc_ne_irq, h.pc, h.cpsr, hmem⟩

theorem Agree.put {P : Image} {s t : Cpu} (h : Agree P.toLayout s t) (v : Visible) :
    Agree P.toLayout (P.put s v) (P.put t v) where
  r := rfl
  pc := rfl
  cpsr := rfl
  vbar := h.vbar
  sp := by
    show update s.sp .svc v.sp = update t.sp .svc v.sp
    rw [h.sp]
  lr m hm := by
    show update s.lr .svc v.lr m = update t.lr .svc v.lr m
    by_cases hsvc : m = .svc
    · rw [hsvc, update_self, update_self]
    · rw [update_of_ne hsvc, update_of_ne hsvc, h.lr m hm]
  spsr := h.spsr
  mem a ha := by
    show (if P.InIrqStack a then s.mem a else v.mem a) = if P.InIrqStack a then t.mem a else v.mem a
    rw [if_neg ha, if_neg ha]

theorem Running.step {P : Image} {t t' : Cpu} (h : Running P.toLayout t) (hstep : P.Step t t') :
    Running P.toLayout t' := by
  cases hstep with
  | root hfetch => exact (h.exec hfetch).2
  | code hpc hmode hcode => exact h.put hcode

/-- **A step of main** is a step of the other machine. -/
theorem Agree.step {P : Image} {s s' t : Cpu} (h : Agree P.toLayout s t)
    (hrun : Running P.toLayout t) (hstep : P.Step s s') :
    ∃ t', P.Step t t' ∧ Agree P.toLayout s' t' := by
  cases hstep with
  | @root i hfetch =>
    rw [h.pc] at hfetch
    exact ⟨_, .root hfetch, h.exec hrun.mode (hrun.exec hfetch).1⟩
  | @code v hpc hmode hcode =>
    rw [h.pc] at hpc
    rw [h.visible_eq] at hcode
    exact ⟨_, .code hpc hrun.mode hcode, h.put v⟩

/-! ### The handler -/

/-- The value of a register in the interrupted context: `lr` holds the return address. -/
def context (t : Cpu) : Reg → Word
  | .lr => t.pc + 4#32
  | reg => t.get reg

/-- Where the block of the saved registers begins. -/
def Layout.block (P : Layout) : Word := P.irqStackTop - BitVec.ofNat 32 (4 * savedRegs.length)

/-- While the handler runs, what main had in `cpsr` and in its own banked registers is still
there. -/
structure Suspended (P : Layout) (s t : Cpu) : Prop where
  running : Running P t
  unmasked : t.masked = false
  mode : s.mode = .irq
  masked : s.masked = true
  spsr : s.spsr .irq = t.cpsr
  vbar : s.vbar = t.vbar
  banked : ∀ m, m ≠ .irq → s.sp m = t.sp m ∧ s.lr m = t.lr m ∧ s.spsr m = t.spsr m

/-- The handler has interrupted `t`, and has `k` more steps to do. -/
inductive InHandler (P : Layout) (s t : Cpu) : ℕ → Prop where
  | vector (hpc : s.pc = P.addr 6) (hr : s.r = t.r) (hlr : s.lr .irq = t.pc + 4#32)
    (hsp : s.sp .irq = P.irqStackTop) (hmem : ∀ a, ¬P.InIrqStack a → s.mem a = t.mem a) :
    InHandler P s t 6
  | push (hpc : s.pc = P.addr IRQ_HANDLER) (hr : s.r = t.r) (hlr : s.lr .irq = t.pc + 4#32)
    (hsp : s.sp .irq = P.irqStackTop) (hmem : ∀ a, ¬P.InIrqStack a → s.mem a = t.mem a) :
    InHandler P s t 5
  | call (hpc : s.pc = P.addr (IRQ_HANDLER + 1)) (hsp : s.sp .irq = P.block)
    (hblock : s.mem.readAll P.block savedRegs.length = savedRegs.map (context t))
    (hmem : ∀ a, ¬P.InIrqStack a → s.mem a = t.mem a) : InHandler P s t 4
  | handle (hpc : s.pc = P.timerIrqHandler) (hlr : s.lr .irq = P.addr (IRQ_HANDLER + 2))
    (hsp : s.sp .irq = P.block)
    (hblock : s.mem.readAll P.block savedRegs.length = savedRegs.map (context t))
    (hmem : ∀ a, ¬P.InIrqStack a → s.mem a = t.mem a) : InHandler P s t 3
  | pop (hpc : s.pc = P.addr (IRQ_HANDLER + 2)) (hsp : s.sp .irq = P.block)
    (hblock : s.mem.readAll P.block savedRegs.length = savedRegs.map (context t))
    (hmem : ∀ a, ¬P.InIrqStack a → s.mem a = P.timerStores t.mem a) : InHandler P s t 2
  | subs (hpc : s.pc = P.addr (IRQ_HANDLER + 3)) (hr : s.r = t.r) (hlr : s.lr .irq = t.pc + 4#32)
    (hsp : s.sp .irq = P.irqStackTop)
    (hmem : ∀ a, ¬P.InIrqStack a → s.mem a = P.timerStores t.mem a) : InHandler P s t 1

/-- The interrupt is taken. -/
theorem Agree.takeIrq {P : Layout} {s t : Cpu} (h : Agree P s t) (hrun : Running P t)
    (hmask : t.masked = false) :
    Suspended P (takeIrq s) t ∧ InHandler P (takeIrq s) t 6 := by
  refine ⟨⟨hrun, hmask, mode_takeIrq s, masked_takeIrq s, ?_, h.vbar, fun m hm => ?_⟩,
    .vector ?_ h.r ?_ ?_ h.mem⟩
  · rw [spsr_takeIrq, h.cpsr]
  · exact ⟨congrFun h.sp m, (lr_takeIrq_of_ne s hm).trans (h.lr m hm),
      (spsr_takeIrq_of_ne s hm).trans (h.spsr m hm)⟩
  · show s.vbar + 0x18#32 = _
    rw [h.vbar, hrun.vbar]
    rfl
  · rw [lr_takeIrq, h.pc]
  · exact (congrFun h.sp _).trans hrun.sp

theorem Suspended.congr {P : Layout} {s s' t : Cpu} (h : Suspended P s t)
    (hcpsr : s'.cpsr.setWidth 8 = s.cpsr.setWidth 8) (hspsr : s'.spsr = s.spsr)
    (hvbar : s'.vbar = s.vbar) (hbanked : ∀ m, m ≠ .irq → s'.sp m = s.sp m ∧ s'.lr m = s.lr m) :
    Suspended P s' t where
  running := h.running
  unmasked := h.unmasked
  mode := (modeOf_congr hcpsr).trans h.mode
  masked := (maskedIn_congr hcpsr).trans h.masked
  spsr := by rw [hspsr, h.spsr]
  vbar := hvbar.trans h.vbar
  banked m hm := by
    obtain ⟨hsp, hlr⟩ := hbanked m hm
    obtain ⟨hsp', hlr', hspsr'⟩ := h.banked m hm
    exact ⟨hsp.trans hsp', hlr.trans hlr', by rw [hspsr, hspsr']⟩

theorem Suspended.of_stackFrame {P : Layout} {s s' t : Cpu} (h : Suspended P s t)
    (hframe : StackFrame s s') : Suspended P s' t :=
  h.congr (by rw [hframe.cpsr]) hframe.spsr hframe.vbar fun m hm =>
    ⟨hframe.sp m (h.mode ▸ hm), hframe.lr m (h.mode ▸ hm)⟩

/-! ### The IRQ stack -/

theorem length_savedRegs : savedRegs.length = 14 := rfl

/-- The block is in the IRQ stack. -/
theorem Layout.notMem_block {P : Layout} {a : Word} (h : ¬P.InIrqStack a) :
    4 * savedRegs.length ≤ (a - P.block).toNat := by
  rw [InIrqStack] at h
  rw [block, irqStackTop, length_savedRegs]
  bv_omega

theorem Layout.inIrqStack_of_block {P : Layout} {a : Word}
    (h : (a - P.block).toNat < 4 * savedRegs.length) : P.InIrqStack a := by
  by_contra hnot
  exact absurd (notMem_block hnot) (by omega)

/-- The stores of the handler spare the IRQ stack. -/
theorem Image.timerStores_of_inIrqStack (P : Image) (m : Mem) {a : Word} (h : P.InIrqStack a) :
    P.timerStores m a = m a := by
  have hout {b : Word} (hb : P.WordOutside b) : 4 ≤ (a - b).toNat := by
    by_contra hlt
    exact hb a (by omega) h
  rw [Layout.timerStores, Mem.write_of_notMem (hout P.isTick_outside),
    Mem.write_of_notMem (hout P.intcControl_outside), Mem.write_of_notMem (hout P.tisr_outside)]

theorem Layout.timerStores_congr (P : Layout) {m m' : Mem} {a : Word} (h : m a = m' a) :
    P.timerStores m a = P.timerStores m' a :=
  write_congr (write_congr (write_congr h))

/-! ### The steps of the handler -/

section Handler

variable {P : Image} {s s' t : Cpu}

/-- The state of main after the interrupt. -/
def Image.afterIrq (P : Image) (t : Cpu) : Cpu := { t with mem := P.timerStores t.mem }

/-- `push` saves the context. -/
theorem InHandler.exec_push (hsus : Suspended P.toLayout s t)
    (hpc : s.pc = P.addr IRQ_HANDLER) (hr : s.r = t.r) (hlr : s.lr .irq = t.pc + 4#32)
    (hsp : s.sp .irq = P.irqStackTop) (hmem : ∀ a, ¬P.InIrqStack a → s.mem a = t.mem a) :
    Suspended P.toLayout (exec s (.push savedRegs)) t ∧
      InHandler P.toLayout (exec s (.push savedRegs)) t 4 := by
  have hframe := stackFrame_push s savedRegs
  have hsus' := hsus.of_stackFrame hframe
  have hblock : s.get .sp - BitVec.ofNat 32 (4 * savedRegs.length) = P.block := by
    rw [Cpu.get, hsus.mode, hsp, Layout.block]
  have hsaved : savedRegs.map s.get = savedRegs.map (context t) := by
    apply List.map_congr_left
    intro reg hreg
    cases reg with
    | r i => exact congrFun hr i
    | lr => rw [Cpu.get, hsus.mode, hlr, context]
    | sp | pc => exact absurd hreg (by decide)
  have hmem' : (exec s (.push savedRegs)).mem
      = s.mem.writeAll P.block (savedRegs.map (context t)) := by
    rw [← hblock, ← hsaved]
    rfl
  refine ⟨hsus', .call ?_ ?_ ?_ fun a ha => ?_⟩
  · rw [hframe.pc, hpc, P.addr_add_four]
  · have hget := get_sp_push s savedRegs
    rw [hblock, Cpu.get, hsus'.mode] at hget
    exact hget
  · rw [hmem', ← List.length_map (context t)]
    exact Mem.readAll_writeAll _ _ (by rw [List.length_map, length_savedRegs]; decide)
  · rw [hmem', Mem.writeAll_of_notMem, hmem a ha]
    rw [List.length_map]
    exact Layout.notMem_block ha

/-- `pop` restores it. -/
theorem InHandler.exec_pop (hsus : Suspended P.toLayout s t)
    (hpc : s.pc = P.addr (IRQ_HANDLER + 2)) (hsp : s.sp .irq = P.block)
    (hblock : s.mem.readAll P.block savedRegs.length = savedRegs.map (context t))
    (hmem : ∀ a, ¬P.InIrqStack a → s.mem a = P.timerStores t.mem a) :
    Suspended P.toLayout (exec s (.pop savedRegs)) t ∧
      InHandler P.toLayout (exec s (.pop savedRegs)) t 1 := by
  have hframe := stackFrame_pop s (show Reg.pc ∉ savedRegs by decide)
  have hsus' := hsus.of_stackFrame hframe
  have hsp' : s.get .sp = P.block := by
    rw [Cpu.get, hsus.mode, hsp]
  obtain ⟨hgetSp, hget⟩ := get_pop s (show savedRegs.Nodup by decide) (by decide)
    (f := context t) (by rw [hsp', hblock])
  refine ⟨hsus', .subs ?_ ?_ ?_ ?_ ?_⟩
  · rw [hframe.pc, hpc, P.addr_add_four]
  · funext i
    exact hget (.r i) (by simp [savedRegs]) (by simp)
  · have hlr := hget .lr (by decide) (by decide)
    rw [Cpu.get, hsus'.mode] at hlr
    exact hlr
  · rw [Cpu.get, hsus'.mode, hsp', Layout.block] at hgetSp
    rw [hgetSp, BitVec.sub_add_cancel]
  · rw [mem_pop]
    exact hmem

/-- The call of `timer_irq_handler` keeps what was saved. -/
theorem InHandler.exec_handler (hsus : Suspended P.toLayout s t)
    (hlr : s.lr .irq = P.addr (IRQ_HANDLER + 2)) (hsp : s.sp .irq = P.block)
    (hblock : s.mem.readAll P.block savedRegs.length = savedRegs.map (context t))
    (hmem : ∀ a, ¬P.InIrqStack a → s.mem a = t.mem a) (h : P.Handles s s') :
    Suspended P.toLayout s' t ∧ InHandler P.toLayout s' t 2 := by
  have hmode := hsus.mode
  have hdepth := P.depth_le
  rw [length_savedRegs] at hdepth
  have hstores (a : Word) (ha : P.depth ≤ (P.block - 1#32 - a).toNat) :
      s'.mem a = P.timerStores s.mem a := by
    apply h.mem
    rw [hmode, hsp]
    exact ha
  refine ⟨hsus.congr h.cpsr h.spsr h.vbar fun m hm =>
    ⟨congrFun h.sp m, h.lr m (hmode ▸ hm)⟩, .pop ?_ ?_ ?_ ?_⟩
  · rw [h.pc, hmode, hlr]
  · rw [h.sp, hsp]
  · rw [← hblock]
    apply Mem.readAll_congr (by rw [length_savedRegs]; decide)
    intro a ha
    rw [hstores, P.timerStores_of_inIrqStack _ (Layout.inIrqStack_of_block ha)]
    rw [length_savedRegs] at ha
    bv_omega
  · intro a ha
    rw [hstores]
    · exact P.timerStores_congr (hmem a ha)
    · rw [Layout.InIrqStack] at ha
      rw [Layout.block, Layout.irqStackTop, length_savedRegs]
      bv_omega

/-- A step of `root.s` while the handler runs. -/
theorem InHandler.step {k : ℕ} (hsus : Suspended P.toLayout s t)
    (h : InHandler P.toLayout s t k) (hstep : P.Step s s') :
    Suspended P.toLayout s' t ∧ InHandler P.toLayout s' t (k - 1) ∧ 1 < k ∨
      Agree P.toLayout s' (P.afterIrq t) ∧ k = 1 := by
  have hmode := hsus.mode
  cases hstep with
  | code hpc hsvc => exact absurd (hsvc.symm.trans hmode) svc_ne_irq
  | @root instr hfetch =>
    cases h with
    | vector hpc hr hlr hsp hmem =>
      obtain rfl := P.eq_of_fetch hfetch hpc (by decide) (.b (P.addr IRQ_HANDLER)) rfl
      refine .inl ⟨?_, .push rfl hr hlr hsp hmem, by decide⟩
      exact hsus.congr rfl rfl rfl fun m hm => ⟨rfl, rfl⟩
    | push hpc hr hlr hsp hmem =>
      obtain rfl := P.eq_of_fetch hfetch hpc (by decide) (.push savedRegs) rfl
      obtain ⟨hsus', h'⟩ := InHandler.exec_push hsus hpc hr hlr hsp hmem
      exact .inl ⟨hsus', h', by decide⟩
    | call hpc hsp hblock hmem =>
      obtain rfl := P.eq_of_fetch hfetch hpc (by decide) (.bl P.timerIrqHandler) rfl
      refine .inl ⟨?_, .handle rfl ?_ hsp hblock hmem, by decide⟩
      · exact hsus.congr rfl rfl rfl fun m hm => ⟨rfl, s.lr_set_of_ne _ .lr (hmode ▸ hm)⟩
      · have hlr := s.get_set_self (s.pc + 4#32) .lr
        rw [Cpu.get, Cpu.mode_set, hmode, hpc, P.addr_add_four] at hlr
        show (s.set (s.pc + 4#32) .lr).lr .irq = _
        rw [hpc, P.addr_add_four]
        exact hlr
    | handle hpc hlr hsp hblock hmem =>
      rw [hpc, P.timerIrqHandler_notMem] at hfetch
      exact absurd hfetch (by simp)
    | pop hpc hsp hblock hmem =>
      obtain rfl := P.eq_of_fetch hfetch hpc (by decide) (.pop savedRegs) rfl
      obtain ⟨hsus', h'⟩ := InHandler.exec_pop hsus hpc hsp hblock hmem
      exact .inl ⟨hsus', h', by decide⟩
    | subs hpc hr hlr hsp hmem =>
      obtain rfl := P.eq_of_fetch hfetch hpc (by decide) (.subsPcLr 4#32) rfl
      refine .inr ⟨⟨hr, ?_, ?_, hsus.vbar, ?_, ?_, ?_, hmem⟩, rfl⟩
      · show s.lr s.mode - 4#32 = t.pc
        rw [hmode, hlr, BitVec.add_sub_cancel]
      · show s.spsr s.mode = t.cpsr
        rw [hmode, hsus.spsr]
      · funext m
        by_cases hm : m = .irq
        · rw [hm]
          exact hsp.trans hsus.running.sp.symm
        · exact (hsus.banked m hm).1
      · exact fun m hm => (hsus.banked m hm).2.1
      · exact fun m hm => (hsus.banked m hm).2.2

/-- A call of `timer_irq_handler` while the handler runs. -/
theorem InHandler.handles {k : ℕ} (hsus : Suspended P.toLayout s t)
    (hin : InHandler P.toLayout s t k) (h : P.Handles s s') :
    Suspended P.toLayout s' t ∧ InHandler P.toLayout s' t (k - 1) ∧ 1 < k := by
  have habsent {i : ℕ} (hpc : s.pc = P.addr i) (hi : i < 33) {instr : Instr}
      (hinstr : (rootText P.toLayout)[i]? = some instr) : False := by
    have hnone := P.timerIrqHandler_notMem
    rw [← h.entry, hpc, P.fetch_addr hi hinstr] at hnone
    exact absurd hnone (by simp)
  cases hin with
  | vector hpc | push hpc | call hpc | pop hpc | subs hpc =>
    exact (habsent hpc (by decide) rfl).elim
  | handle hpc hlr hsp hblock hmem =>
    obtain ⟨hsus', hin'⟩ := InHandler.exec_handler hsus hlr hsp hblock hmem h
    exact ⟨hsus', hin', by decide⟩

/-- A call of `timer_irq_handler` can return. -/
theorem Image.exists_handles (P : Image) (hpc : s.pc = P.timerIrqHandler) (hmode : s.mode = .irq) :
    ∃ s', P.Handles s s' :=
  ⟨{ s with pc := s.lr s.mode, mem := P.timerStores s.mem },
    hpc, hmode, rfl, fun _ _ _ => rfl, rfl, fun _ _ => rfl, rfl, rfl, rfl, fun _ _ => rfl⟩

/-- While the handler runs the machine can go on. -/
theorem InHandler.exists_next {k : ℕ} (hsus : Suspended P.toLayout s t)
    (hin : InHandler P.toLayout s t k) : ∃ s', P.Next s s' := by
  have hroot {i : ℕ} (hpc : s.pc = P.addr i) (hi : i < 33) {instr : Instr}
      (hinstr : (rootText P.toLayout)[i]? = some instr) : ∃ s', P.Next s s' :=
    ⟨_, .inl (.root (hpc ▸ P.fetch_addr hi hinstr))⟩
  cases hin with
  | vector hpc | push hpc | call hpc | pop hpc | subs hpc => exact hroot hpc (by decide) rfl
  | handle hpc =>
    obtain ⟨s', h⟩ := P.exists_handles hpc hsus.mode
    exact ⟨s', .inr (.inl h)⟩

end Handler

/-! ### Runs -/

section Run

variable {P : Image} {s s' : Cpu}

theorem Image.runRoot_succ {n k : ℕ} {instr : Instr} (hpc : s.pc = P.addr k) (hk : k < 33)
    (h : (rootText P.toLayout)[k]? = some instr) :
    P.runRoot (n + 1) s = P.runRoot n (exec s instr) := by
  rw [runRoot, hpc, P.fetch_addr hk h]
  rfl

/-- An instruction that goes on to the next one. -/
theorem Image.runRoot_next {n k : ℕ} {instr : Instr} (hpc : s.pc = P.addr k) (hk : k < 33)
    (h : (rootText P.toLayout)[k]? = some instr) (hnext : (exec s instr).pc = s.pc + 4#32) :
    P.runRoot (n + 1) s = P.runRoot n (exec s instr) ∧ (exec s instr).pc = P.addr (k + 1) :=
  ⟨Image.runRoot_succ hpc hk h, by rw [hnext, hpc, P.addr_add_four]⟩

/-- The reset handler sets up both stacks and the vectors, and calls main. -/
theorem Image.Reset.running (hreset : P.Reset s) (h : P.runRoot 8 s = some s') :
    Running P.toLayout s' := by
  have hpc₀ : s.pc = P.addr 0 := by
    rw [hreset.pc]
    exact (BitVec.add_zero _).symm
  rw [Image.runRoot_succ hpc₀ (by decide) rfl] at h
  have hpc₁ : (exec s (.b (P.addr RESET_HANDLER))).pc = P.addr 8 := rfl
  obtain ⟨hrun₁, hpc₂⟩ := Image.runRoot_next (n := 6) hpc₁ (by decide) rfl rfl
  obtain ⟨hrun₂, hpc₃⟩ := Image.runRoot_next (n := 5) hpc₂ (by decide) rfl rfl
  obtain ⟨hrun₃, hpc₄⟩ := Image.runRoot_next (n := 4) hpc₃ (by decide) rfl rfl
  obtain ⟨hrun₄, hpc₅⟩ := Image.runRoot_next (n := 3) hpc₄ (by decide) rfl rfl
  obtain ⟨hrun₅, hpc₆⟩ := Image.runRoot_next (n := 2) hpc₅ (by decide) rfl rfl
  obtain ⟨hrun₆, hpc₇⟩ := Image.runRoot_next (n := 1) hpc₆ (by decide) rfl rfl
  rw [hrun₁, hrun₂, hrun₃, hrun₄, hrun₅, hrun₆, Image.runRoot_succ hpc₇ (by decide) rfl] at h
  obtain rfl := Option.some.inj h
  refine ⟨modeOf_withMode _ _, rfl, ?_, .code (.inl P.main_notMem)⟩
  -- the second stack pointer is set in IRQ mode
  have hirq := Cpu.get_set_self
    (exec (exec (exec s (.b (P.addr RESET_HANDLER))) (.ldrLit .sp P.stackTop)) (.cps 0x12))
    P.irqStackTop .sp
  rw [Cpu.get, Cpu.mode_set, mode_cps] at hirq
  exact hirq

theorem Image.Run.runRoot {n k : ℕ} (hrun : P.Run s n) (h : P.runRoot k s = some s') :
    P.Run s' n := by
  induction k generalizing s with
  | zero =>
    obtain rfl := Option.some.inj h
    exact hrun
  | succ k ih =>
    rw [Image.runRoot] at h
    obtain ⟨i, hfetch, h⟩ := Option.bind_eq_some_iff.mp h
    exact ih (hrun.step (.root hfetch)) h

/-- `enable_irq` clears the mask and returns. -/
theorem Image.runRoot_enableIrq (hpc : s.pc = P.addr ENABLE_IRQ) :
    ∃ s', P.runRoot 4 s = some s' ∧ s'.masked = false ∧ s'.pc = s.lr s.mode := by
  obtain ⟨hrun₁, hpc₁⟩ := Image.runRoot_next (n := 3) hpc (by decide) rfl rfl
  obtain ⟨hrun₂, hpc₂⟩ := Image.runRoot_next (n := 2) hpc₁ (by decide) rfl rfl
  obtain ⟨hrun₃, hpc₃⟩ := Image.runRoot_next (n := 1) hpc₂ (by decide) rfl rfl
  have hrun₄ := Image.runRoot_succ (n := 0) hpc₃ (by decide) rfl
  rw [← hrun₃, ← hrun₂, ← hrun₁] at hrun₄
  refine ⟨_, hrun₄, ?_, ?_⟩
  · show maskedIn (withControl s.cpsr (s.cpsr &&& ~~~0x80#32)) = false
    simp [maskedIn, withControl]
  · show s.lr (modeOf (withControl s.cpsr (s.cpsr &&& ~~~0x80#32))) = _
    rw [modeOf_withControl, modeOf_bic]
    rfl

/-- With atomic interrupts the machine is never anywhere but in main. -/
theorem Image.AtomicRun.running {t : Cpu} {n : ℕ} (hrun : P.AtomicRun t n) :
    Running P.toLayout t := by
  induction hrun with
  | boot hreset h => exact hreset.running h
  | step _ hstep ih => exact ih.step hstep
  | irq _ _ ih =>
    obtain ⟨hmode, hvbar, hsp, hat⟩ := ih
    refine ⟨hmode, hvbar, hsp, ?_⟩
    -- where main is does not depend on the memory
    cases hat with
    | code h => exact .code h
    | put32 hpc hlr h => exact .put32 hpc hlr h
    | get32 hpc hlr h => exact .get32 hpc hlr h
    | enableIrq hpc hlr => exact .enableIrq hpc hlr
    | bic hpc hlr h => exact .bic hpc hlr h
    | msr hpc hlr h => exact .msr hpc hlr h
    | ret h hlr => exact .ret h hlr

/-- What a state of a run is, in terms of the machine with atomic interrupts. -/
theorem Image.Run.simulated {n : ℕ} (hrun : P.Run s n) :
    (∃ t, P.AtomicRun t n ∧ Agree P.toLayout s t) ∨
      ∃ t k m, n = m + 1 ∧ P.AtomicRun t m ∧ Suspended P.toLayout s t ∧
        InHandler P.toLayout s t k := by
  induction hrun with
  | @boot s s' hreset h => exact .inl ⟨s', .boot hreset h, .refl _ _⟩
  | step _ hstep ih =>
    obtain ⟨t, ht, hagree⟩ | ⟨t, k, m, rfl, ht, hsus, hin⟩ := ih
    · obtain ⟨t', hstep', hagree'⟩ := hagree.step ht.running hstep
      exact .inl ⟨t', ht.step hstep', hagree'⟩
    · obtain ⟨hsus', hin', -⟩ | ⟨hagree, -⟩ := hin.step hsus hstep
      · exact .inr ⟨t, k - 1, m, rfl, ht, hsus', hin'⟩
      · exact .inl ⟨P.afterIrq t, ht.irq hsus.unmasked, hagree⟩
  | handler _ h ih =>
    obtain ⟨t, ht, hagree⟩ | ⟨t, k, m, rfl, ht, hsus, hin⟩ := ih
    · -- main is not in IRQ mode
      have hsvc := ht.running.mode
      rw [Cpu.mode, ← hagree.cpsr] at hsvc
      exact absurd (hsvc.symm.trans h.mode) svc_ne_irq
    · obtain ⟨hsus', hin', -⟩ := hin.handles hsus h
      exact .inr ⟨t, k - 1, m, rfl, ht, hsus', hin'⟩
  | irq _ hmask ih =>
    obtain ⟨t, ht, hagree⟩ | ⟨t, k, m, rfl, ht, hsus, hin⟩ := ih
    · have hmask' : t.masked = false := by
        rw [Cpu.masked, ← hagree.cpsr]
        exact hmask
      obtain ⟨hsus', hin'⟩ := hagree.takeIrq ht.running hmask'
      exact .inr ⟨t, 6, _, rfl, ht, hsus', hin'⟩
    · -- the handler masks interrupts
      exact absurd (hsus.masked.symm.trans hmask) (by decide)

end Run

/-! ### A program -/

/-- Some addresses. -/
def smallLayout : Layout where
  vectorTable := 0x80000000#32
  stackBottom := 0x80010000#32
  main := 0x80001000#32
  timerIrqHandler := 0x80002000#32
  isTick := 0x80020000#32

theorem fetch_main_smallLayout : smallLayout.fetch smallLayout.main = none := rfl

/-- A main that does nothing but call `enable_irq`. -/
def enableLoop : Image where
  toLayout := smallLayout
  code v v' := v' = { v with pc := smallLayout.addr ENABLE_IRQ, lr := smallLayout.main }
  depth := 16
  control v v' h := by rw [h]
  enters v v' h := by
    subst h
    exact .enableIrq rfl (.inl fetch_main_smallLayout)
  depth_le := by decide
  main_notMem := fetch_main_smallLayout
  timerIrqHandler_notMem := rfl
  isTick_outside b hb := by
    simp only [Layout.InIrqStack, Layout.stackTop, smallLayout] at hb ⊢
    bv_omega
  tisr_outside b hb := by
    simp only [Layout.InIrqStack, Layout.stackTop, smallLayout, TISR] at hb ⊢
    bv_omega
  intcControl_outside b hb := by
    simp only [Layout.InIrqStack, Layout.stackTop, smallLayout, INTC_CONTROL] at hb ⊢
    bv_omega

/-- The processor after a reset. -/
def resetState : Cpu where
  r _ := 0
  sp _ := 0
  lr _ := 0
  spsr _ := 0
  pc := smallLayout.vectorTable
  cpsr := 0xD3#32
  vbar := 0
  mem _ := 0

/-- The call of main. -/
theorem exists_run_enableLoop :
    ∃ s, enableLoop.Run s 0 ∧ s.mode = .svc ∧ s.pc = enableLoop.main := by
  have hreset : enableLoop.Reset resetState := ⟨rfl, rfl, rfl⟩
  obtain ⟨s, hs, hpc⟩ := Option.map_eq_some_iff.mp
    (show (enableLoop.runRoot 8 resetState).map Cpu.pc = some enableLoop.main from rfl)
  exact ⟨s, .boot hreset hs, (hreset.running hs).mode, hpc⟩

/-- The state after the first call of `enable_irq`. -/
theorem exists_unmasked_enableLoop : ∃ s, enableLoop.Run s 0 ∧ s.masked = false := by
  obtain ⟨s, hrun, hmode, hpc⟩ := exists_run_enableLoop
  have hcall : enableLoop.Step s (enableLoop.put s { enableLoop.visible s with
      pc := smallLayout.addr ENABLE_IRQ, lr := smallLayout.main }) :=
    .code (by rw [hpc]; exact fetch_main_smallLayout) hmode rfl
  generalize hu : enableLoop.put s _ = u at hcall
  have hpc' : u.pc = enableLoop.addr ENABLE_IRQ := by rw [← hu]; rfl
  obtain ⟨s', hs', hmask, -⟩ := Image.runRoot_enableIrq hpc'
  exact ⟨s', (hrun.step hcall).runRoot hs', hmask⟩

/-! ### Transparency -/

section Transparency

variable {P : Image} {s : Cpu}

/-- However the machine goes on from `s`, after exactly `k` steps main is back, in the state `t`. -/
def Image.Returns (P : Image) (t : Cpu) : ℕ → Cpu → Prop
  | 0, s => Agree P.toLayout s t
  | k + 1, s => (∃ s', P.Next s s') ∧ ∀ s', P.Next s s' → P.Returns t k s'

theorem InHandler.returns {t : Cpu} {k : ℕ} (hsus : Suspended P.toLayout s t)
    (hin : InHandler P.toLayout s t k) : P.Returns (P.afterIrq t) k s := by
  induction k generalizing s with
  | zero => cases hin
  | succ k ih =>
    refine ⟨hin.exists_next hsus, fun s' hnext => ?_⟩
    obtain hstep | hhandles | ⟨hmask, -⟩ := hnext
    · obtain ⟨hsus', hin', -⟩ | ⟨hagree, hk⟩ := hin.step hsus hstep
      · exact ih hsus' hin'
      · obtain rfl : k = 0 := by omega
        exact hagree
    · obtain ⟨hsus', hin', -⟩ := hin.handles hsus hhandles
      exact ih hsus' hin'
    · exact absurd (hsus.masked.symm.trans hmask) (by decide)

/-- **The handler is transparent.**  While main runs, the machine is in a state of the machine in
which the interrupts taken so far were one step each, up to the IRQ stack and the banked `lr` and
`spsr` of IRQ mode.  While the handler runs, it has interrupted such a state with interrupts
enabled, cannot be interrupted, and keeps its context. -/
theorem irq_transparent {n : ℕ} (hrun : P.Run s n) :
    (s.mode = .svc ∧ ∃ t, P.AtomicRun t n ∧ Agree P.toLayout s t) ∨
      (s.mode = .irq ∧ s.masked = true ∧ ∃ t k m, n = m + 1 ∧ P.AtomicRun t m ∧
        t.masked = false ∧ Suspended P.toLayout s t ∧ InHandler P.toLayout s t k) := by
  obtain ⟨t, ht, hagree⟩ | ⟨t, k, m, hn, ht, hsus, hin⟩ := hrun.simulated
  · refine .inl ⟨?_, t, ht, hagree⟩
    rw [Cpu.mode, hagree.cpsr]
    exact ht.running.mode
  · exact .inr ⟨hsus.mode, hsus.masked, t, k, m, hn, ht, hsus.unmasked, hsus, hin⟩

/-- An interrupt after the first call of `enable_irq`: the handler has interrupted main. -/
theorem irq_transparent_enableLoop : ∃ s, s.masked = false ∧ enableLoop.Run (takeIrq s) 1 ∧
    (takeIrq s).mode = .irq ∧
    (((takeIrq s).mode = .svc ∧
        ∃ t, enableLoop.AtomicRun t 1 ∧ Agree enableLoop.toLayout (takeIrq s) t) ∨
      ((takeIrq s).mode = .irq ∧ (takeIrq s).masked = true ∧ ∃ t k m, 1 = m + 1 ∧
        enableLoop.AtomicRun t m ∧ t.masked = false ∧
        Suspended enableLoop.toLayout (takeIrq s) t ∧
        InHandler enableLoop.toLayout (takeIrq s) t k)) := by
  obtain ⟨s, hrun, hmask⟩ := exists_unmasked_enableLoop
  have hirq : enableLoop.Run (takeIrq s) 1 := hrun.irq hmask
  exact ⟨s, hmask, hirq, mode_takeIrq s, irq_transparent hirq⟩

/-- **An interrupt returns.**  Whenever an interrupt is taken, in any run, the machine can go on
until main is back, however it goes on that takes six steps, and then only the stores of
`timer_irq_handler` have happened to main. -/
theorem irq_returns {n : ℕ} (hrun : P.Run s n) (hmask : s.masked = false) :
    ∃ t, P.AtomicRun t n ∧ Agree P.toLayout s t ∧
      P.AtomicRun (P.afterIrq t) (n + 1) ∧ P.Returns (P.afterIrq t) 6 (takeIrq s) := by
  obtain ⟨t, ht, hagree⟩ | ⟨t, k, m, rfl, ht, hsus, hin⟩ := hrun.simulated
  · have hmask' : t.masked = false := by
      rw [Cpu.masked, ← hagree.cpsr]
      exact hmask
    obtain ⟨hsus, hin⟩ := hagree.takeIrq ht.running hmask'
    exact ⟨t, ht, hagree, ht.irq hmask', hin.returns hsus⟩
  · exact absurd (hsus.masked.symm.trans hmask) (by decide)

/-- An interrupt after the first call of `enable_irq`. -/
theorem irq_returns_enableLoop : ∃ s, enableLoop.Run s 0 ∧ s.masked = false ∧
    ∃ t, enableLoop.AtomicRun t 0 ∧ Agree enableLoop.toLayout s t ∧
      enableLoop.AtomicRun (enableLoop.afterIrq t) (0 + 1) ∧
      enableLoop.Returns (enableLoop.afterIrq t) 6 (takeIrq s) := by
  obtain ⟨s, hrun, hmask⟩ := exists_unmasked_enableLoop
  exact ⟨s, hrun, hmask, irq_returns hrun hmask⟩

end Transparency

end OsLabs.Terminal
