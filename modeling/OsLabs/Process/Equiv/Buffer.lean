import OsLabs.Process.Equiv.Run
import Mathlib.Algebra.BigOperators.Group.Finset.Basic

/-!
# The buffer of `stdout`

What the parent prints before the first loop is in the buffer when it forks, unless standard output
is a terminal, so that each process writes it when it exits.
-/

namespace OsLabs.Process

open Function

variable {E : Env} {s s' : State}

/-! ### Sums over the children -/

/-- A sum over the children when one of them changes. -/
theorem sum_update (g : Option Child → ℕ) (f : ℕ → Option Child) {i : ℕ} (hi : i < CHILD_PROCESSES)
    (x : Option Child) :
    ∑ j ∈ Finset.range CHILD_PROCESSES, g (update f i x j) + g (f i) =
      ∑ j ∈ Finset.range CHILD_PROCESSES, g (f j) + g x := by
  have hmem : i ∈ Finset.range CHILD_PROCESSES := Finset.mem_range.mpr hi
  have hrest : ∑ j ∈ (Finset.range CHILD_PROCESSES).erase i, g (update f i x j) =
      ∑ j ∈ (Finset.range CHILD_PROCESSES).erase i, g (f j) :=
    Finset.sum_congr rfl fun j hj => by rw [update_of_ne (Finset.ne_of_mem_erase hj)]
  rw [← Finset.add_sum_erase _ _ hmem, ← Finset.add_sum_erase _ (fun j => g (f j)) hmem,
    hrest, update_self]
  omega

/-! ### The processes that have exited -/

/-- The child has returned from `main`. -/
def exited : Option Child → ℕ
  | some c => if c.pc = .gone false then 1 else 0
  | none => 0

/-- The number of processes that have returned from `main`. -/
def State.exits (s : State) : ℕ :=
  (if s.pc = .gone then 1 else 0) +
    ∑ i ∈ Finset.range CHILD_PROCESSES, exited (s.child i)

/-- The copies of a line in the buffer of a process that has not exited. -/
def Env.buffered (E : Env) : ℕ := if E.tty then 0 else 1

/-- Only the exit of a child changes the number. -/
theorem State.exits_update (s s' : State) {i : ℕ} (hi : i < CHILD_PROCESSES)
    (hpc : s'.pc = .gone ↔ s.pc = .gone) {x : Option Child}
    (hchild : s'.child = update s.child i x) :
    s'.exits + exited (s.child i) = s.exits + exited x := by
  have hsum := sum_update exited s.child hi x
  simp only [State.exits, hpc, hchild]
  omega

/-- Where a line that is printed before the first loop is. -/
structure Copies (E : Env) (l : Line) (s : State) : Prop where
  setup : l ∈ setupLines E s.mem
  buffer : s.pc ≠ .gone → s.buffer.count l = E.buffered
  child : ∀ i c, s.child i = some c → c.pc ≠ .gone false → c.buffer.count l = E.buffered
  out : s.out.count l = if E.tty then 1 else s.exits

/-- The lines are all different: the messages are. -/
theorem setupLines_nodup (mem : Shmem) : (setupLines E (writeMessages mem)).Nodup := by
  have h0 := stringAt_writeMessages mem (show 0 < CHILD_PROCESSES by decide)
  have h1 := stringAt_writeMessages mem (show 1 < CHILD_PROCESSES by decide)
  have h2 := stringAt_writeMessages mem (show 2 < CHILD_PROCESSES by decide)
  rw [Nat.zero_mul] at h0
  rw [Nat.one_mul] at h1
  simp only [setupLines, h0, h1, h2]
  simp [messages]

/-- Before the first loop a line is in one place, on the terminal or in the buffer. -/
theorem copies_init (mem : Shmem) (childIds : ℕ → ℤ) {l : Line}
    (hl : l ∈ setupLines E (writeMessages mem)) : Copies E l (init E mem childIds) := by
  have hcount := List.count_eq_one_of_mem (setupLines_nodup mem) hl
  refine ⟨hl, fun _ => ?_, fun i c hc => by simp [init] at hc, ?_⟩
  · unfold init Env.buffered
    split <;> simp [hcount]
  · unfold init
    split <;> simp [hcount, State.exits, exited]

/-- Printing another line adds no copy. -/
theorem State.count_print {l line : Line} (hne : line ≠ l) :
    (s.print E line).out.count l = s.out.count l ∧
      (s.print E line).buffer.count l = s.buffer.count l := by
  unfold State.print
  split <;> simp [hne]

/-- The segment is written before the first loop only. -/
theorem Step.mem_eq (h : Step E s s') : s'.mem = s.mem := by
  cases h with
  | forkError | finished | detach => exact State.mem_print ..
  | fork | forked | reap | noChild | waited | exit | child => rfl

/-- The parent prints another line or goes on. -/
theorem Copies.parent {l : Line} (h : Copies E l s) (hchild : s'.child = s.child)
    (hmem : s'.mem = s.mem) (hbuffer : s'.buffer.count l = s.buffer.count l)
    (hout : s'.out.count l = s.out.count l) (hpc : s.pc ≠ .gone) (hpc' : s'.pc ≠ .gone) :
    Copies E l s' where
  setup := hmem ▸ h.setup
  buffer _ := hbuffer.trans (h.buffer hpc)
  child := hchild ▸ h.child
  out := by simp only [hout, h.out, State.exits, hpc, hpc', hchild]

/-- A child exits, or it writes and keeps as much of what it has not printed itself. -/
theorem ChildStep.copies {id : ℕ} {c c' : Child} {out : List Line} {l : Line}
    (h : ChildStep E s id c (c', out)) (hl : ¬l.OfChild) :
    (c'.pc = .gone false ∧ out = s.out ++ c.buffer) ∨
      (c'.pc ≠ .gone false ∧ out.count l = s.out.count l ∧
        c'.buffer.count l = c.buffer.count l) := by
  have hprint (d : Child) {line : Line} (hof : line.OfChild) :
      (d.print E s.out line).2.count l = s.out.count l ∧
        (d.print E s.out line).1.buffer.count l = d.buffer.count l := by
    have hne : line ≠ l := fun heq => hl (heq ▸ hof)
    unfold Child.print
    split <;> simp [hne]
  generalize hr : (c', out) = r at h
  obtain ⟨rfl, rfl⟩ : c' = r.1 ∧ out = r.2 := by rw [← hr]; exact ⟨rfl, rfl⟩
  cases h with
  | exit => exact .inl ⟨rfl, rfl⟩
  | attach | fault => exact .inr ⟨by simp, rfl, rfl⟩
  | pid | allocating | read | detach => exact .inr ⟨by simp, hprint _ trivial⟩

/-- A fork copies the buffer and an exit empties it. -/
theorem Copies.step {l : Line} (h : Copies E l s) (hinv : Inv s) (hstep : Step E s s') :
    Copies E l s' := by
  -- no step of a loop prints the line again
  have hl : l ≠ .forkError ∧ l ≠ .finished ∧ (∀ ok, l ≠ .detached ok) ∧ ¬l.OfChild := by
    have hsetup := h.setup
    simp only [setupLines, List.mem_cons, List.not_mem_nil, or_false] at hsetup
    obtain rfl | rfl | rfl | rfl | rfl | rfl | rfl := hsetup <;> simp [Line.OfChild]
  obtain ⟨hforkError, hfinished, hdetached, hchildLine⟩ := hl
  cases hstep with
  | @fork i hpc hi pid hpid hfresh =>
    have hnone := hinv.child_eq_none hpc
    refine ⟨h.setup, fun _ => h.buffer (by simp [hpc]), fun j c hc hc' => ?_, ?_⟩
    · by_cases hji : j = i
      · -- the child has a copy of the parent's buffer
        simp only [hji, update_self, Option.some.injEq] at hc
        subst hc
        exact h.buffer (by simp [hpc])
      · simp only [update_of_ne hji] at hc
        exact h.child j c hc hc'
    · have hexits := State.exits_update s { s with
        pc := .fork (i + 1)
        child := update s.child i
          (some { pid := pid, pc := .pid, buffer := s.buffer, reaped := false }) }
        hi (by simp [hpc]) rfl
      simp only [hnone, exited, reduceCtorEq, if_false, Nat.add_zero] at hexits
      exact h.out.trans (by rw [← hexits]; rfl)
  | @reap i hpc hi j c killed hc hmatch hgone hreaped =>
    refine ⟨h.setup, fun _ => h.buffer (by simp [hpc]), fun k d hd hd' => ?_, ?_⟩
    · by_cases hkj : k = j
      · simp only [hkj, update_self, Option.some.injEq] at hd
        subst hd
        exact h.child j c hc hd'
      · simp only [update_of_ne hkj] at hd
        exact h.child k d hd hd'
    · have hexits := State.exits_update s { s with
        pc := .wait (i + 1)
        child := update s.child j (some { c with reaped := true }) }
        (hinv.child_lt hc) (by simp [hpc]) rfl
      simp only [hc, exited, Nat.add_right_cancel_iff] at hexits
      exact h.out.trans (by rw [← hexits])
  | exit hpc =>
    -- the copy of the parent is out
    refine ⟨h.setup, fun hpc' => absurd rfl hpc', h.child, ?_⟩
    simp only [List.count_append, h.out, h.buffer (by simp [hpc] : s.pc ≠ .gone), State.exits, hpc,
      Env.buffered]
    split <;> simp [Nat.add_comm]
  | @child i c c' out hc hchild =>
    have hexits := State.exits_update s { s with
      child := update s.child i (some c')
      out := out } (hinv.child_lt hc) Iff.rfl rfl
    have hlive := hchild.same.2.2 false
    simp only [hc, exited, if_neg hlive, Nat.add_zero] at hexits
    have hcount := h.child i c hc hlive
    obtain ⟨hgone, rfl⟩ | ⟨hlive', hout, hbuffer⟩ := hchild.copies hchildLine
    · -- one process more has returned, and its copy is out
      refine ⟨h.setup, h.buffer, fun j d hd hd' => ?_, ?_⟩
      · by_cases hji : j = i
        · simp only [hji, update_self, Option.some.injEq] at hd
          exact absurd (hd ▸ hgone) hd'
        · simp only [update_of_ne hji] at hd
          exact h.child j d hd hd'
      · rw [hexits, if_pos hgone, List.count_append, h.out, hcount, Env.buffered]
        split <;> rfl
    · refine ⟨h.setup, h.buffer, fun j d hd hd' => ?_, ?_⟩
      · by_cases hji : j = i
        · simp only [hji, update_self, Option.some.injEq] at hd
          exact hd ▸ hbuffer.trans hcount
        · simp only [update_of_ne hji] at hd
          exact h.child j d hd hd'
      · rw [hexits, if_neg hlive', hout, h.out, Nat.add_zero]
  | forkError hpc hi =>
    obtain ⟨hout, hbuffer⟩ := State.count_print (s := s) (E := E) hforkError.symm
    exact h.parent (by simp) (by simp) hbuffer hout (by simp [hpc]) (by simp)
  | finished hpc =>
    obtain ⟨hout, hbuffer⟩ := State.count_print (s := s) (E := E) hfinished.symm
    exact h.parent (by simp) (by simp) hbuffer hout (by simp [hpc]) (by simp)
  | detach hpc ok =>
    obtain ⟨hout, hbuffer⟩ := State.count_print (s := s) (E := E) (hdetached ok).symm
    exact h.parent (by simp) (by simp) hbuffer hout (by simp [hpc]) (by simp)
  | forked hpc | noChild hpc | waited hpc =>
    exact h.parent rfl rfl rfl rfl (by simp [hpc]) (by simp)

theorem Reaches.copies {n : ℕ} (h : Reaches E s n) {l : Line} (hl : l ∈ setupLines E s.mem) :
    Copies E l s := by
  induction h with
  | init mem childIds => exact copies_init mem childIds hl
  | step hs hstep ih => exact (ih (hstep.mem_eq ▸ hl)).step hs.inv hstep

/-- On a terminal each line that is printed before the first loop is there once; otherwise once for
each process that has returned from `main`. -/
theorem setup_printed {n : ℕ} (h : Reaches E s n) {l : Line} (hl : l ∈ setupLines E s.mem) :
    s.out.count l = if E.tty then 1 else s.exits :=
  (h.copies hl).out

theorem setup_printed_run : ∃ (E : Env) (s : State), E.tty = false ∧ s.out.count .spawning = 2 ∧
    s.out.count .spawning = if E.tty then 1 else s.exits := by
  obtain ⟨E, s, n, h, htty, -, -, hcount, -⟩ := exists_run
  exact ⟨E, s, htty, hcount, setup_printed h (by simp [setupLines])⟩

end OsLabs.Process
