import OsLabs.Process.Main
import Mathlib.Data.List.GetD

/-!
# Runs of the parent and its children

An invariant (`Inv`) says for each child that was forked where its process id is and whether it has
been waited for, whatever the results of `fork` and the contents of `child_ids` before.  What is in
standard output and in the buffers follows from it (`Printed`).  When `shmget` or `shmat` fails in
the parent there are no children, and it only exits (`Failed`).
-/

namespace OsLabs.Process

open Function

variable {E : Env} {s s' : State}

/-! ### The messages -/

/-- The three messages do not overlap, so each is read back. -/
theorem stringAt_writeMessages (mem : Shmem) {i : ℕ} (hi : i < CHILD_PROCESSES) :
    stringAt (writeMessages mem) (i * SLOT) = messages.getD i [] := by
  obtain rfl | rfl | rfl : i = 0 ∨ i = 1 ∨ i = 2 := by
    rw [CHILD_PROCESSES] at hi
    omega
  · rfl
  · rfl
  · rfl

/-! ### `printf` -/

section Print

variable (E) (s) (line : Line)

@[simp] theorem State.pc_print : (s.print E line).pc = s.pc := by
  unfold print
  split <;> rfl

@[simp] theorem State.childIds_print : (s.print E line).childIds = s.childIds := by
  unfold print
  split <;> rfl

@[simp] theorem State.child_print : (s.print E line).child = s.child := by
  unfold print
  split <;> rfl

@[simp] theorem State.mem_print : (s.print E line).mem = s.mem := by
  unfold print
  split <;> rfl

variable (c : Child) (out : List Line)

@[simp] theorem Child.pid_print : (c.print E out line).1.pid = c.pid := by
  unfold print
  split <;> rfl

@[simp] theorem Child.pc_print : (c.print E out line).1.pc = c.pc := by
  unfold print
  split <;> rfl

@[simp] theorem Child.reaped_print : (c.print E out line).1.reaped = c.reaped := by
  unfold print
  split <;> rfl

end Print

/-! ### The invariant -/

/-- The children before this one have been forked, or the fork has failed. -/
def ParentPc.forked : ParentPc → ℕ
  | .fork i => i
  | _ => CHILD_PROCESSES

/-- The children before this one have been waited for. -/
def ParentPc.waited : ParentPc → ℕ
  | .fork _ => 0
  | .wait i => i
  | _ => CHILD_PROCESSES

/-- The child with the `child_id` `i`. -/
structure ChildOk (s : State) (i : ℕ) (c : Child) : Prop where
  lt : i < s.pc.forked
  pos : 0 < c.pid
  childIds : s.childIds i = c.pid
  gone : c.reaped = true → ∃ killed, c.pc = .gone killed
  waited : i < s.pc.waited → c.reaped = true

structure Inv (s : State) : Prop where
  forked_le : s.pc.forked ≤ CHILD_PROCESSES
  waited_le : s.pc.waited ≤ CHILD_PROCESSES
  mem : ∀ i < CHILD_PROCESSES, stringAt s.mem (i * SLOT) = messages.getD i []
  child : ∀ i c, s.child i = some c → ChildOk s i c
  distinct : ∀ i j c d, s.child i = some c → s.child j = some d → c.pid = d.pid → i = j

/-- No child has been forked. -/
theorem inv_init (mem : Shmem) (childIds : ℕ → ℤ) : Inv (init E mem childIds) where
  forked_le := Nat.zero_le _
  waited_le := Nat.zero_le _
  mem i hi := stringAt_writeMessages mem hi
  child i c hc := by simp [init] at hc
  distinct i j c d hc := by simp [init] at hc

/-- A child that is gone makes no step; the others keep their process id. -/
theorem ChildStep.same {id : ℕ} {c c' : Child} {out : List Line}
    (h : ChildStep E s id c (c', out)) :
    c'.pid = c.pid ∧ c'.reaped = c.reaped ∧ ∀ killed, c.pc ≠ .gone killed := by
  generalize hr : (c', out) = r at h
  have hc' : c' = r.1 := congrArg Prod.fst hr
  subst hc'
  cases h with
  | pid hpc | allocating hpc | attach hpc | read hpc | fault hpc | detach hpc | exit hpc =>
    simp [hpc]

/-- The child that is forked next is not there yet. -/
theorem Inv.child_eq_none (h : Inv s) {i : ℕ} (hpc : s.pc = .fork i) : s.child i = none := by
  by_contra hsome
  obtain ⟨c, hc⟩ := Option.ne_none_iff_exists'.mp hsome
  have hlt := (h.child i c hc).lt
  rw [hpc] at hlt
  exact lt_irrefl i hlt

/-- There are no children beyond those of the loop. -/
theorem Inv.child_lt (h : Inv s) {i : ℕ} {c : Child} (hc : s.child i = some c) :
    i < CHILD_PROCESSES :=
  lt_of_lt_of_le (h.child i c hc).lt h.forked_le

/-- The steps of the parent that change no child. -/
theorem Inv.parent (h : Inv s) (hchild : s'.child = s.child) (hids : s'.childIds = s.childIds)
    (hmem : s'.mem = s.mem) (hf : s.pc.forked ≤ s'.pc.forked)
    (hf' : s'.pc.forked ≤ CHILD_PROCESSES) (hw' : s'.pc.waited ≤ CHILD_PROCESSES)
    (hw : ∀ i c, s.child i = some c → i < s'.pc.waited → c.reaped = true) : Inv s' where
  forked_le := hf'
  waited_le := hw'
  mem := hmem ▸ h.mem
  child i c hc := by
    rw [hchild] at hc
    obtain ⟨hlt, hpos, hid, hgone, -⟩ := h.child i c hc
    exact ⟨by omega, hpos, hids ▸ hid, hgone, hw i c hc⟩
  distinct := hchild ▸ h.distinct

/-- A child is replaced by one with the same process id. -/
theorem Inv.update (h : Inv s) (hids : s'.childIds = s.childIds) (hmem : s'.mem = s.mem) {i : ℕ}
    {c c' : Child} (hc : s.child i = some c) (hchild : s'.child = update s.child i (some c'))
    (hpid : c'.pid = c.pid) (hgone : c'.reaped = true → ∃ killed, c'.pc = .gone killed)
    (hf : s.pc.forked = s'.pc.forked) (hw' : s'.pc.waited ≤ CHILD_PROCESSES)
    (hw : ∀ j d, s'.child j = some d → j < s'.pc.waited → d.reaped = true) : Inv s' := by
  have hcase {j : ℕ} {d : Child} (hd : s'.child j = some d) :
      (j = i ∧ d = c') ∨ (j ≠ i ∧ s.child j = some d) := by
    rw [hchild] at hd
    by_cases hji : j = i
    · rw [hji, update_self] at hd
      exact .inl ⟨hji, (Option.some.inj hd).symm⟩
    · rw [update_of_ne hji] at hd
      exact .inr ⟨hji, hd⟩
  -- every child has a predecessor with the same process id
  have hold {j : ℕ} {d : Child} (hd : s'.child j = some d) :
      ∃ d', s.child j = some d' ∧ d.pid = d'.pid := by
    obtain ⟨rfl, rfl⟩ | ⟨-, hd⟩ := hcase hd
    · exact ⟨c, hc, hpid⟩
    · exact ⟨d, hd, rfl⟩
  refine ⟨hf ▸ h.forked_le, hw', hmem ▸ h.mem, fun j d hd => ?_, fun j k d e hd he heq => ?_⟩
  · obtain ⟨d', hd', hpid'⟩ := hold hd
    obtain ⟨hlt, hpos, hid, hgone', -⟩ := h.child j d' hd'
    refine ⟨hf ▸ hlt, hpid' ▸ hpos, by rw [hids, hid, hpid'], ?_, hw j d hd⟩
    obtain ⟨rfl, rfl⟩ | ⟨-, hd''⟩ := hcase hd
    · exact hgone
    · exact (h.child j d hd'').gone
  · obtain ⟨d', hd', hpid'⟩ := hold hd
    obtain ⟨e', he', hpid''⟩ := hold he
    exact h.distinct j k d' e' hd' he' (by rw [← hpid', heq, hpid''])

/-- One call, of the parent or of a child. -/
theorem Inv.step (h : Inv s) (hstep : Step E s s') : Inv s' := by
  cases hstep with
  | @fork i hpc hi pid hpid hfresh =>
    -- the children so far are those before `i`
    have hlt {j : ℕ} {c : Child} (hc : s.child j = some c) : j < i := by
      have := (h.child j c hc).lt
      rwa [hpc] at this
    refine ⟨hi, Nat.zero_le _, h.mem, fun j c hc => ?_, fun j k c d hc hd heq => ?_⟩
    · by_cases hji : j = i
      · subst hji
        simp only [update_self, Option.some.injEq] at hc
        subst hc
        exact ⟨Nat.lt_succ_self j, hpid, update_self .., fun h => absurd h Bool.false_ne_true,
          fun h => absurd h (Nat.not_lt_zero j)⟩
      · simp only [update_of_ne hji] at hc
        obtain ⟨-, hpos, hid, hgone, -⟩ := h.child j c hc
        exact ⟨Nat.lt_succ_of_lt (hlt hc), hpos, (update_of_ne hji ..).trans hid, hgone,
          fun h => absurd h (Nat.not_lt_zero j)⟩
    · -- the new process id is that of no other child
      by_cases hji : j = i <;> by_cases hki : k = i
      · rw [hji, hki]
      · subst hji
        simp only [update_self, update_of_ne hki, Option.some.injEq] at hc hd
        exact absurd (heq.symm.trans (by rw [← hc])) (hfresh k d hd)
      · subst hki
        simp only [update_self, update_of_ne hji, Option.some.injEq] at hc hd
        exact absurd (heq.trans (by rw [← hd])) (hfresh j c hc)
      · simp only [update_of_ne hji, update_of_ne hki] at hc hd
        exact h.distinct j k c d hc hd heq
  | @forkError i hpc hi =>
    refine h.parent (by simp) (by simp) (by simp) ?_ hi (Nat.zero_le _) fun j c _ hj =>
      absurd hj (Nat.not_lt_zero j)
    rw [hpc]
    exact Nat.le_succ i
  | forked hpc hi =>
    exact h.parent rfl rfl rfl h.forked_le le_rfl (Nat.zero_le _) fun j c _ hj =>
      absurd hj (Nat.not_lt_zero j)
  | @reap i hpc hi j c killed hc hmatch hgone hreaped =>
    refine h.update rfl rfl hc rfl rfl (fun _ => ⟨killed, hgone⟩) (by rw [hpc]; rfl) hi ?_
    -- if another child was waited for, then `child_ids[i]` is no child's
    intro k d hd hk
    by_cases hkj : k = j
    · rw [hkj] at hd
      simp only [update_self, Option.some.injEq] at hd
      rw [← hd]
    simp only [update_of_ne hkj] at hd
    have hd' := h.child k d hd
    obtain hki | rfl := Nat.lt_or_eq_of_le (Nat.le_of_lt_succ hk)
    · exact hd'.waited (by rw [hpc]; exact hki)
    · -- `child_ids[i]` is the process id of this child, and it was the one waited for
      have hpos := hd'.pos
      have hgroup := E.group_pos
      have hid := hd'.childIds
      obtain hpid | hany | hany | hany := hmatch
      · exact absurd (h.distinct k j d c hd hc (hid.symm.trans hpid)) hkj
      all_goals omega
  | @noChild i hpc hi hnone =>
    refine h.parent rfl rfl rfl (by rw [hpc]; exact le_rfl) le_rfl hi fun k d hd hk => ?_
    obtain hki | rfl := Nat.lt_or_eq_of_le (Nat.le_of_lt_succ hk)
    · exact (h.child k d hd).waited (by rw [hpc]; exact hki)
    · -- child `i` would have been one to wait for
      exact hnone k d hd (.inl (h.child k d hd).childIds)
  | @waited i hpc hi =>
    refine h.parent rfl rfl rfl (by rw [hpc]; exact le_rfl) le_rfl le_rfl fun k d hd hk => ?_
    exact (h.child k d hd).waited (by rw [hpc]; exact lt_of_lt_of_le hk hi)
  | finished hpc =>
    refine h.parent (by simp) (by simp) (by simp) (by rw [hpc]; exact le_rfl) le_rfl le_rfl
      fun k d hd hk => (h.child k d hd).waited (by rw [hpc]; exact hk)
  | detach hpc ok =>
    refine h.parent (by simp) (by simp) (by simp) (by rw [hpc]; exact le_rfl) le_rfl le_rfl
      fun k d hd hk => (h.child k d hd).waited (by rw [hpc]; exact hk)
  | exit hpc =>
    exact h.parent rfl rfl rfl (by rw [hpc]; exact le_rfl) le_rfl le_rfl
      fun k d hd hk => (h.child k d hd).waited (by rw [hpc]; exact hk)
  | @child i c c' out hc hchild =>
    obtain ⟨hpid, hreaped, hgone⟩ := hchild.same
    -- a child that has been waited for has exited, and takes no step
    have hc' : c'.reaped = false := by
      by_contra hr
      rw [hreaped, Bool.not_eq_false] at hr
      obtain ⟨killed, hk⟩ := (h.child i c hc).gone hr
      exact hgone killed hk
    refine h.update rfl rfl hc rfl hpid (fun hr => absurd (hc'.symm.trans hr) (by decide)) rfl
      h.waited_le fun k d hd hk => ?_
    by_cases hki : k = i
    · rw [hki] at hk
      have := (h.child i c hc).waited hk
      rw [← hreaped, hc'] at this
      exact absurd this (by decide)
    · simp only [update_of_ne hki] at hd
      exact (h.child k d hd).waited hk

theorem Reaches.inv {n : ℕ} (h : Reaches E s n) : Inv s := by
  induction h with
  | init mem childIds => exact inv_init mem childIds
  | step _ hstep ih => exact ih.step hstep

/-- The parent has waited for all children. -/
def ParentPc.Over (pc : ParentPc) : Prop := pc = .detach ∨ pc = .exit ∨ pc = .gone

/-- When the parent prints its last lines no child is left. -/
theorem Inv.reaped_of_over (h : Inv s) (hover : s.pc.Over) {i : ℕ} {c : Child}
    (hc : s.child i = some c) : c.reaped = true := by
  have hwaited : s.pc.waited = CHILD_PROCESSES := by
    obtain hpc | hpc | hpc := hover <;> rw [hpc] <;> rfl
  exact (h.child i c hc).waited (by rw [hwaited]; exact h.child_lt hc)

/-- A child makes its steps before the parent has waited for all. -/
theorem Inv.not_over (h : Inv s) {i : ℕ} {c c' : Child} {out : List Line}
    (hc : s.child i = some c) (hstep : ChildStep E s i c (c', out)) : ¬s.pc.Over := by
  intro hover
  obtain ⟨killed, hgone⟩ := (h.child i c hc).gone (h.reaped_of_over hover hc)
  exact hstep.same.2.2 killed hgone

/-! ### What is printed -/

/-- A child reads the message of its own `child_id`, and its parent has not exited. -/
def Line.Truthful (E : Env) : Line → Prop
  | .reading id s => messages[id]? = some s
  | .childPid _ _ ppid => ppid = E.parentPid
  | _ => True

/-- The lines in standard output and in the buffers. -/
structure Printed (E : Env) (s : State) : Prop where
  out : ∀ l ∈ s.out, l.Truthful E
  buffer : ∀ l ∈ s.buffer, l.Truthful E ∧ ¬l.OfChild
  child : ∀ i c, s.child i = some c → ∀ l ∈ c.buffer, l.Truthful E ∧ l ≠ .finished
  finished : .finished ∈ s.out ∨ .finished ∈ s.buffer ↔ s.pc.Over
  order : s.out.Pairwise fun a b => a = .finished → ¬b.OfChild
  empty : s.pc = .gone → s.buffer = []

theorem printed_init (mem : Shmem) (childIds : ℕ → ℤ) : Printed E (init E mem childIds) := by
  have hsetup : ∀ l ∈ setupLines E (writeMessages mem),
      l.Truthful E ∧ ¬l.OfChild ∧ l ≠ .finished := by
    simp [setupLines, Line.Truthful, Line.OfChild]
  have hout : ∀ l ∈ (init E mem childIds).out, l ∈ setupLines E (writeMessages mem) := by
    unfold init
    split <;> simp
  have hbuffer : ∀ l ∈ (init E mem childIds).buffer, l ∈ setupLines E (writeMessages mem) := by
    unfold init
    split <;> simp
  have hnot : ¬(init E mem childIds).pc.Over := by simp [init, ParentPc.Over]
  refine ⟨fun l hl => (hsetup l (hout l hl)).1, fun l hl => ?_, fun i c hc => ?_,
    ⟨fun h => ?_, fun h => absurd h hnot⟩, ?_, fun h => absurd (.inr (.inr h)) hnot⟩
  · obtain ⟨htrue, hparent, -⟩ := hsetup l (hbuffer l hl)
    exact ⟨htrue, hparent⟩
  · simp [init] at hc
  · obtain h | h := h
    · exact absurd rfl (hsetup _ (hout _ h)).2.2
    · exact absurd rfl (hsetup _ (hbuffer _ h)).2.2
  · exact List.pairwise_of_forall_mem_list fun a _ b hb _ => (hsetup b (hout b hb)).2.1

/-- The parent goes on. -/
theorem Printed.move (h : Printed E s) {pc : ParentPc} (hover : s.pc.Over ↔ pc.Over)
    (hpc : pc ≠ .gone) : Printed E { s with pc := pc } :=
  ⟨h.out, h.buffer, h.child, h.finished.trans hover, h.order, fun hgone => absurd hgone hpc⟩

/-- The parent prints a line. -/
theorem Printed.print (h : Printed E s) {pc : ParentPc} {line : Line} (htrue : line.Truthful E)
    (hparent : ¬line.OfChild) (hover : pc.Over ↔ s.pc.Over ∨ line = .finished)
    (hpc : pc ≠ .gone) : Printed E { s.print E line with pc := pc } := by
  unfold State.print
  split
  · refine ⟨fun l hl => ?_, h.buffer, h.child, ?_, ?_, fun hgone => absurd hgone hpc⟩
    · obtain hl | hl := List.mem_append.mp hl
      · exact h.out l hl
      · exact List.mem_singleton.mp hl ▸ htrue
    · show .finished ∈ s.out ++ [line] ∨ .finished ∈ s.buffer ↔ pc.Over
      rw [hover, ← h.finished, List.mem_append, List.mem_singleton, or_right_comm, eq_comm]
    · refine List.pairwise_append.mpr ⟨h.order, List.pairwise_singleton .., fun a _ b hb _ => ?_⟩
      exact List.mem_singleton.mp hb ▸ hparent
  · refine ⟨h.out, fun l hl => ?_, h.child, ?_, h.order, fun hgone => absurd hgone hpc⟩
    · obtain hl | hl := List.mem_append.mp hl
      · exact h.buffer l hl
      · exact List.mem_singleton.mp hl ▸ ⟨htrue, hparent⟩
    · show .finished ∈ s.out ∨ .finished ∈ s.buffer ++ [line] ↔ pc.Over
      rw [hover, ← h.finished, List.mem_append, List.mem_singleton, or_assoc, eq_comm (a := line)]

/-- What a child writes and what it leaves in its buffer: what was there, and lines of its own. -/
theorem ChildStep.lines {id : ℕ} {c c' : Child} {out : List Line}
    (h : ChildStep E s id c (c', out)) :
    ∃ w, out = s.out ++ w ∧ ∀ l, l ∈ w ∨ l ∈ c'.buffer → l ∈ c.buffer ∨
      l = .childPid id c.pid (if s.pc = .gone then 1 else E.parentPid) ∨ l = .childAllocating id ∨
      l = .reading id (stringAt s.mem (id * SLOT)) ∨ ∃ ok, l = .childDetached id ok := by
  have hprint (d : Child) (line : Line) :
      ∃ w, (d.print E s.out line).2 = s.out ++ w ∧
        ∀ l, l ∈ w ∨ l ∈ (d.print E s.out line).1.buffer → l ∈ d.buffer ∨ l = line := by
    unfold Child.print
    split
    · exact ⟨[line], rfl, fun l hl => by simpa [or_comm] using hl⟩
    · exact ⟨[], (List.append_nil _).symm, fun l hl => by simpa using hl⟩
  generalize hr : (c', out) = r at h
  obtain ⟨rfl, rfl⟩ : c' = r.1 ∧ out = r.2 := by rw [← hr]; exact ⟨rfl, rfl⟩
  cases h with
  | pid | allocating | read | detach =>
    obtain ⟨w, hw, hlines⟩ := hprint _ _
    refine ⟨w, hw, fun l hl => ?_⟩
    obtain hl | hl := hlines l hl
    · exact .inl hl
    · simp [hl]
  | attach | fault =>
    exact ⟨[], (List.append_nil _).symm, fun l hl => .inl (by simpa using hl)⟩
  | exit => exact ⟨c.buffer, rfl, fun l hl => .inl (by simpa using hl)⟩

/-- What is printed stays right over one call. -/
theorem Printed.step (h : Printed E s) (hinv : Inv s) (hstep : Step E s s') : Printed E s' := by
  cases hstep with
  | @fork i hpc hi pid hpid hfresh =>
    have hover : s.pc.Over ↔ (ParentPc.fork (i + 1)).Over := by simp [hpc, ParentPc.Over]
    -- the buffer that the child gets is that of a parent that has not finished
    have hfinished : .finished ∉ s.buffer := fun hin => by
      simpa [hpc, ParentPc.Over] using h.finished.mp (.inr hin)
    refine ⟨h.out, h.buffer, fun j c hc => ?_, h.finished.trans hover, h.order, by simp⟩
    by_cases hji : j = i
    · simp only [hji, update_self, Option.some.injEq] at hc
      subst hc
      exact fun l hl => ⟨(h.buffer l hl).1, fun heq => hfinished (heq ▸ hl)⟩
    · simp only [update_of_ne hji] at hc
      exact h.child j c hc
  | forkError hpc hi => exact h.print trivial id (by simp [hpc, ParentPc.Over]) (by simp)
  | forked hpc hi => exact h.move (by simp [hpc, ParentPc.Over]) (by simp)
  | @reap i hpc hi j c killed hc hmatch hgone hreaped =>
    have hover : s.pc.Over ↔ (ParentPc.wait (i + 1)).Over := by simp [hpc, ParentPc.Over]
    refine ⟨h.out, h.buffer, fun k d hd => ?_, h.finished.trans hover, h.order, by simp⟩
    by_cases hkj : k = j
    · simp only [hkj, update_self, Option.some.injEq] at hd
      subst hd
      exact h.child j c hc
    · simp only [update_of_ne hkj] at hd
      exact h.child k d hd
  | noChild hpc hi hnone => exact h.move (by simp [hpc, ParentPc.Over]) (by simp)
  | waited hpc hi => exact h.move (by simp [hpc, ParentPc.Over]) (by simp)
  | finished hpc => exact h.print trivial id (by simp [ParentPc.Over]) (by simp)
  | detach hpc ok => exact h.print trivial id (by simp [hpc, ParentPc.Over]) (by simp)
  | exit hpc =>
    -- the buffer is written at the end of the output, without a line of a child
    refine ⟨fun l hl => ?_, by simp, h.child, ?_, ?_, fun _ => rfl⟩
    · obtain hl | hl := List.mem_append.mp hl
      · exact h.out l hl
      · exact (h.buffer l hl).1
    · have hover : s.pc.Over := .inr (.inl hpc)
      simp [ParentPc.Over, h.finished.mpr hover]
    · refine List.pairwise_append.mpr ⟨h.order, ?_, fun a _ b hb _ => (h.buffer b hb).2⟩
      exact List.pairwise_of_forall_mem_list fun a _ b hb _ => (h.buffer b hb).2
  | @child i c c' out hc hchild =>
    -- the parent still waits for this child
    have hnot := hinv.not_over hc hchild
    have hfinished : .finished ∉ s.out := fun hin => hnot (h.finished.mp (.inl hin))
    obtain ⟨w, rfl, hlines⟩ := hchild.lines
    have hown : ∀ l, l ∈ w ∨ l ∈ c'.buffer → l.Truthful E ∧ l ≠ .finished := by
      intro l hl
      obtain hl | rfl | rfl | rfl | ⟨ok, rfl⟩ := hlines l hl
      · exact h.child i c hc l hl
      · refine ⟨if_neg fun hpc => hnot (.inr (.inr hpc)), by simp⟩
      · exact ⟨trivial, by simp⟩
      · refine ⟨?_, by simp⟩
        have hi : i < messages.length := hinv.child_lt hc
        show messages[i]? = some (stringAt s.mem (i * SLOT))
        rw [hinv.mem i hi, List.getD_eq_getElem _ _ hi, List.getElem?_eq_getElem hi]
      · exact ⟨trivial, by simp⟩
    refine ⟨fun l hl => ?_, h.buffer, fun j d hd => ?_, ?_, ?_, h.empty⟩
    · obtain hl | hl := List.mem_append.mp hl
      · exact h.out l hl
      · exact (hown l (.inl hl)).1
    · by_cases hji : j = i
      · simp only [hji, update_self, Option.some.injEq] at hd
        subst hd
        exact fun l hl => hown l (.inr hl)
      · simp only [update_of_ne hji] at hd
        exact h.child j d hd
    · have hw : .finished ∉ w := fun hin => (hown _ (.inl hin)).2 rfl
      show .finished ∈ s.out ++ w ∨ .finished ∈ s.buffer ↔ s.pc.Over
      rw [← h.finished, List.mem_append, or_iff_left hw]
    · refine List.pairwise_append.mpr ⟨h.order, ?_, fun a ha b _ heq => absurd (heq ▸ ha) hfinished⟩
      exact List.pairwise_of_forall_mem_list fun a ha b _ heq => absurd heq (hown a (.inl ha)).2

theorem Reaches.printed {n : ℕ} (h : Reaches E s n) : Printed E s := by
  induction h with
  | init mem childIds => exact printed_init mem childIds
  | step hs hstep ih => exact ih.step hs.inv hstep

/-- A run in which one child is forked and `fork` fails twice, with a file as standard output. -/
theorem exists_run : ∃ (E : Env) (s : State) (n : ℕ), Reaches E s n ∧ E.tty = false ∧
    s.pc = .gone ∧ (∃ c, s.child 0 = some c ∧ c.pc = .gone false) ∧
    s.out.count .spawning = 2 ∧ .reading 0 "Bulbasaur".toList ∈ s.out := by
  let E : Env := ⟨false, 100, 100, by decide, 0⟩
  -- the child 101 is forked, then it runs to its end, then the parent waits for three children
  have hforked := ((((Reaches.init (E := E) (fun _ => NUL) fun _ => 7).step
    (.fork rfl (by decide) (by decide : (0 : ℤ) < 101) (by simp [init]))).step
    (.forkError rfl (by decide))).step (.forkError rfl (by decide))).step (.forked rfl (by decide))
  have hpid := hforked.step (@Step.child _ _ 0 ⟨101, .pid, _, false⟩ _ _ rfl (.pid rfl))
  have hallocating := hpid.step
    (@Step.child _ _ 0 ⟨101, .allocating, _, false⟩ _ _ rfl (.allocating rfl))
  have hattach := hallocating.step
    (@Step.child _ _ 0 ⟨101, .attach, _, false⟩ _ _ rfl (.attach rfl true))
  have hread := hattach.step (@Step.child _ _ 0 ⟨101, .read true, _, false⟩ _ _ rfl (.read rfl))
  have hdetach := hread.step (@Step.child _ _ 0 ⟨101, .detach, _, false⟩ _ _ rfl (.detach rfl true))
  have hexit := hdetach.step (@Step.child _ _ 0 ⟨101, .exit, _, false⟩ _ _ rfl (.exit rfl))
  have hreaped := hexit.step
    (@Step.reap _ _ 0 rfl (by decide) 0 ⟨101, .gone false, _, false⟩ _ rfl (.inl rfl) rfl rfl)
  have hwait₁ := hreaped.step (.noChild rfl (by decide) fun j c hc _ => by
    cases j with
    | zero => exact Option.some.inj hc ▸ rfl
    | succ j => exact absurd hc (Option.some_ne_none c).symm)
  have hwait₂ := hwait₁.step (.noChild rfl (by decide) fun j c hc _ => by
    cases j with
    | zero => exact Option.some.inj hc ▸ rfl
    | succ j => exact absurd hc (Option.some_ne_none c).symm)
  have hgone := (((hwait₂.step (.waited rfl (by decide))).step (.finished rfl)).step
    (.detach rfl true)).step (.exit rfl)
  exact ⟨E, _, _, hgone, rfl, rfl, ⟨_, rfl, rfl⟩, by decide, by decide⟩

/-! ### Runs in which the parent fails -/

/-- The parent returns from `main` with an error, or has done so. -/
structure Failed (E : Env) (s : State) (n : ℕ) : Prop where
  child : ∀ i, s.child i = none
  pc : s.pc = .exit ∧ n = 0 ∨ s.pc = .gone ∧ n = 1
  lines : ∃ error : Line, error.OfFailure ∧ s.out ++ s.buffer = failedLines E error
  empty : s.pc = .gone → s.buffer = []

/-- The run that starts with the failure. -/
theorem failed_failed (mem : Shmem) (childIds : ℕ → ℤ) {error : Line} (herror : error.OfFailure) :
    Failed E (failed E mem childIds error) 0 where
  child _ := rfl
  pc := .inl ⟨rfl, rfl⟩
  lines := by
    refine ⟨error, herror, ?_⟩
    unfold failed
    split <;> simp
  empty := by simp [failed]

/-- It only exits. -/
theorem Failed.step {n : ℕ} (h : Failed E s n) (hstep : Step E s s') : Failed E s' (n + 1) := by
  have hpc := h.pc
  cases hstep with
  | exit hexit =>
    obtain ⟨-, rfl⟩ | ⟨hgone, -⟩ := hpc
    · exact ⟨h.child, .inr ⟨rfl, rfl⟩, by simpa using h.lines, fun _ => rfl⟩
    · exact absurd (hexit.symm.trans hgone) (by simp)
  | child hc => exact absurd (hc.symm.trans (h.child _)) (by simp)
  | fork hpc' | forkError hpc' | forked hpc' | reap hpc' | noChild hpc' | waited hpc'
  | finished hpc' | detach hpc' => simp [hpc'] at hpc

/-- The parent gets to its first loop, or it fails before. -/
theorem Runs.reaches_or_failed {n : ℕ} (h : Runs E s n) : Reaches E s n ∨ Failed E s n := by
  induction h with
  | init mem childIds => exact .inl (.init mem childIds)
  | failed mem childIds herror => exact .inr (failed_failed mem childIds herror)
  | step _ hstep ih =>
    obtain hs | hs := ih
    · exact .inl (hs.step hstep)
    · exact .inr (hs.step hstep)

theorem Reaches.runs {n : ℕ} (h : Reaches E s n) : Runs E s n := by
  induction h with
  | init mem childIds => exact .init mem childIds
  | step _ hstep ih => exact ih.step hstep

/-- No child, and so no line of a child and no `Children finished execution`. -/
theorem Failed.mem_out {n : ℕ} (h : Failed E s n) {l : Line} (hl : l ∈ s.out) :
    l.Truthful E ∧ ¬l.OfChild ∧ l ≠ .finished := by
  obtain ⟨error, herror, hlines⟩ := h.lines
  have hmem : l ∈ failedLines E error := hlines ▸ List.mem_append_left _ hl
  simp only [failedLines, List.mem_cons, List.not_mem_nil, or_false] at hmem
  obtain rfl | rfl | rfl := hmem
  · simp [Line.Truthful, Line.OfChild]
  · simp [Line.Truthful, Line.OfChild]
  · cases l <;> simp_all [Line.Truthful, Line.OfChild, Line.OfFailure]

/-- **The output is right**, whatever the order of the steps and whichever calls fail: a child reads
the message of its own `child_id` and prints the process id of its parent, no child's line comes
after `Children finished execution`, and by then the parent has waited for every child. -/
theorem process_safe {n : ℕ} (h : Runs E s n) :
    (∀ l ∈ s.out, l.Truthful E) ∧ s.out.Pairwise (fun a b => a = .finished → ¬b.OfChild) ∧
      (.finished ∈ s.out → ∀ i c, s.child i = some c → c.reaped = true) := by
  obtain h | h := h.reaches_or_failed
  · refine ⟨h.printed.out, h.printed.order, fun hin i c hc => ?_⟩
    exact h.inv.reaped_of_over (h.printed.finished.mp (.inl hin)) hc
  · refine ⟨fun l hl => (h.mem_out hl).1, ?_, fun hin => absurd rfl (h.mem_out hin).2.2⟩
    exact List.pairwise_of_forall_mem_list fun a _ b hb _ => (h.mem_out hb).2.1

/-- In a run in which two of the forks fail. -/
theorem process_safe_run : ∃ (E : Env) (s : State), (.reading 0 "Bulbasaur".toList ∈ s.out ∧
    ∃ c, s.child 0 = some c) ∧ (∀ l ∈ s.out, l.Truthful E) ∧
      s.out.Pairwise (fun a b => a = .finished → ¬b.OfChild) ∧
      (.finished ∈ s.out → ∀ i c, s.child i = some c → c.reaped = true) := by
  obtain ⟨E, s, n, h, -, -, ⟨c, hc, -⟩, -, hread⟩ := exists_run
  exact ⟨E, s, ⟨hread, c, hc⟩, process_safe h.runs⟩

end OsLabs.Process
