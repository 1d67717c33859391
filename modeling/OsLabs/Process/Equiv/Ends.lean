import OsLabs.Process.Equiv.Buffer

/-!
# The end of a run

Each step lowers `State.rank`, and a step is possible until the parent has exited
(`process_ends`).  By then the children have exited, so what the parent prints last are the last
lines of standard output (`Ending`).
-/

namespace OsLabs.Process

open Function

variable {E : Env} {s s' : State}

/-! ### The number of steps -/

/-- The most steps that the parent and the children it forks still make. -/
def ParentPc.rank : ParentPc → ℕ
  | .fork i => 8 + 7 * (CHILD_PROCESSES - i)
  | .wait i => 4 + (CHILD_PROCESSES - i)
  | .finished => 3
  | .detach => 2
  | .exit => 1
  | .gone => 0

def ChildPc.rank : ChildPc → ℕ
  | .pid => 6
  | .allocating => 5
  | .attach => 4
  | .read _ => 3
  | .detach => 2
  | .exit => 1
  | .gone _ => 0

/-- The most steps that a child still makes. -/
def childRank : Option Child → ℕ
  | none => 0
  | some c => c.pc.rank

def State.rank (s : State) : ℕ :=
  s.pc.rank + ∑ i ∈ Finset.range CHILD_PROCESSES, childRank (s.child i)

/-- A child goes on. -/
theorem ChildStep.rank_lt {id : ℕ} {c c' : Child} {out : List Line}
    (h : ChildStep E s id c (c', out)) : c'.pc.rank < c.pc.rank := by
  generalize hr : (c', out) = r at h
  have hc' : c' = r.1 := congrArg Prod.fst hr
  subst hc'
  cases h with
  | pid hpc | allocating hpc | attach hpc | read hpc | fault hpc | detach hpc | exit hpc =>
    simp [hpc, ChildPc.rank]

/-- A fork takes seven steps from the parent, of which the child gets six. -/
theorem Inv.rank_lt (h : Inv s) (hstep : Step E s s') : s'.rank < s.rank := by
  unfold State.rank
  cases hstep with
  | @fork i hpc hi pid hpid hfresh =>
    have hsum := sum_update childRank s.child hi
      (some { pid := pid, pc := .pid, buffer := s.buffer, reaped := false })
    rw [h.child_eq_none hpc] at hsum
    simp only [hpc, ParentPc.rank, childRank, ChildPc.rank] at hsum ⊢
    omega
  | @reap i hpc hi j c killed hc hmatch hgone hreaped =>
    have hsum := sum_update childRank s.child (h.child_lt hc) (some { c with reaped := true })
    rw [hc] at hsum
    simp only [hpc, ParentPc.rank, childRank] at hsum ⊢
    omega
  | @child i c c' out hc hchild =>
    have hsum := sum_update childRank s.child (h.child_lt hc) (some c')
    have hlt := hchild.rank_lt
    rw [hc] at hsum
    simp only [childRank] at hsum ⊢
    omega
  | forkError hpc hi | noChild hpc hi hnone =>
    simp [hpc, ParentPc.rank]
    omega
  | @forked i hpc hi =>
    simp only [hpc, ParentPc.rank, CHILD_PROCESSES]
    omega
  | waited hpc hi =>
    simp only [hpc, ParentPc.rank]
    omega
  | finished hpc | detach hpc ok | exit hpc => simp [hpc, ParentPc.rank]

theorem Reaches.add_rank_le {n : ℕ} (h : Reaches E s n) : n + s.rank ≤ 29 := by
  induction h with
  | init mem childIds =>
    simp [State.rank, Process.init, ParentPc.rank, CHILD_PROCESSES, childRank]
  | step hs hstep ih =>
    have hlt := hs.inv.rank_lt hstep
    omega

/-! ### No process waits for ever -/

/-- A child that has not gone can go on. -/
theorem exists_childStep (E : Env) (s : State) (id : ℕ) {c : Child}
    (h : ∀ killed, c.pc ≠ .gone killed) : ∃ r, ChildStep E s id c r := by
  cases hpc : c.pc with
  | pid => exact ⟨_, .pid hpc⟩
  | allocating => exact ⟨_, .allocating hpc⟩
  | attach => exact ⟨_, .attach hpc true⟩
  | read attached =>
    cases attached
    · exact ⟨_, .fault hpc⟩
    · exact ⟨_, .read hpc⟩
  | detach => exact ⟨_, .detach hpc true⟩
  | exit => exact ⟨_, .exit hpc⟩
  | gone killed => exact absurd hpc (h killed)

/-- The parent goes on, or the child it waits for does. -/
theorem exists_step (E : Env) (s : State) (h : s.pc ≠ .gone) : ∃ s', Step E s s' := by
  cases hpc : s.pc with
  | fork i =>
    by_cases hi : i < CHILD_PROCESSES
    · exact ⟨_, .forkError hpc hi⟩
    · exact ⟨_, .forked hpc (not_lt.mp hi)⟩
  | wait i =>
    by_cases hi : i < CHILD_PROCESSES
    · by_cases hnone : ∀ j c, s.child j = some c → E.Matches (s.childIds i) c → c.reaped = true
      · exact ⟨_, .noChild hpc hi hnone⟩
      push Not at hnone
      obtain ⟨j, c, hc, hmatch, hreaped⟩ := hnone
      -- `waitpid` returns at once, or a child that it waits for goes on
      by_cases hgone : ∃ killed, c.pc = .gone killed
      · obtain ⟨killed, hgone⟩ := hgone
        exact ⟨_, .reap hpc hi hc hmatch hgone (Bool.eq_false_iff.mpr hreaped)⟩
      · obtain ⟨r, hr⟩ := exists_childStep E s j (not_exists.mp hgone)
        exact ⟨_, .child hc hr⟩
    · exact ⟨_, .waited hpc (not_lt.mp hi)⟩
  | finished => exact ⟨_, .finished hpc⟩
  | detach => exact ⟨_, .detach hpc true⟩
  | exit => exact ⟨_, .exit hpc⟩
  | gone => exact absurd hpc h

/-- After the exit of the parent nothing happens. -/
theorem Inv.not_step (h : Inv s) (hpc : s.pc = .gone) : ¬Step E s s' := by
  intro hstep
  cases hstep with
  | child hc hchild => exact h.not_over hc hchild (.inr (.inr hpc))
  | fork hpc' | forkError hpc' | forked hpc' | reap hpc' | noChild hpc' | waited hpc'
  | finished hpc' | detach hpc' | exit hpc' => simp [hpc] at hpc'

/-! ### The last lines -/

/-- Where the lines go that the parent prints. -/
def State.written (E : Env) (s : State) : List Line := if E.tty then s.out else s.buffer

theorem State.written_print (E : Env) (s : State) (line : Line) :
    (s.print E line).written E = s.written E ++ [line] := by
  unfold written print
  split <;> rfl

/-- On a terminal the buffer of the parent stays empty. -/
theorem State.buffer_print (hempty : E.tty = true → s.buffer = []) (line : Line) :
    E.tty = true → (s.print E line).buffer = [] := by
  intro htty
  rw [print, if_pos htty]
  exact hempty htty

/-- What the parent has printed last, once it has waited for all children. -/
structure Ending (E : Env) (s : State) : Prop where
  empty : E.tty = true → s.buffer = []
  finished : s.pc = .detach → [.finished] <:+ s.written E
  detached : s.pc = .exit → ∃ ok, [.finished, .detached ok] <:+ s.written E
  gone : s.pc = .gone → ∃ ok, [.finished, .detached ok] <:+ s.out

/-- Before that there is only the buffer to look at. -/
theorem ending_of_not_over (hover : ¬s.pc.Over) (hempty : E.tty = true → s.buffer = []) :
    Ending E s where
  empty := hempty
  finished hpc := absurd (.inl hpc) hover
  detached hpc := absurd (.inr (.inl hpc)) hover
  gone hpc := absurd (.inr (.inr hpc)) hover

/-- The parent prints another line at its end. -/
theorem State.suffix_written {lines : List Line} (h : lines <:+ s.written E) (line : Line) :
    lines ++ [line] <:+ (s.print E line).written E := by
  obtain ⟨before, hbefore⟩ := h
  refine ⟨before, ?_⟩
  rw [State.written_print, ← hbefore, List.append_assoc]

/-- From the last `waitpid` on, only the parent prints. -/
theorem Ending.step (h : Ending E s) (hinv : Inv s) (hstep : Step E s s') : Ending E s' := by
  cases hstep with
  | fork | forked | reap | noChild | waited =>
    exact ending_of_not_over (by simp [ParentPc.Over]) h.empty
  | forkError => exact ending_of_not_over (by simp [ParentPc.Over]) (State.buffer_print h.empty _)
  | child hc hchild => exact ending_of_not_over (hinv.not_over hc hchild) h.empty
  | finished hpc =>
    exact {
      empty := State.buffer_print h.empty _
      finished := fun _ => State.suffix_written List.nil_suffix .finished
      detached := by simp
      gone := by simp }
  | detach hpc ok =>
    exact {
      empty := State.buffer_print h.empty _
      finished := by simp
      detached := fun _ => ⟨ok, State.suffix_written (h.finished hpc) (.detached ok)⟩
      gone := by simp }
  | exit hpc =>
    obtain ⟨ok, hsuffix⟩ := h.detached hpc
    refine ⟨fun _ => rfl, by simp, by simp, fun _ => ⟨ok, ?_⟩⟩
    -- on a terminal the lines are there already, otherwise the exit writes the buffer
    rw [State.written] at hsuffix
    by_cases htty : E.tty = true
    · rw [if_pos htty] at hsuffix
      rwa [h.empty htty, List.append_nil]
    · rw [if_neg htty] at hsuffix
      exact hsuffix.trans (List.suffix_append ..)

theorem Reaches.ending {n : ℕ} (h : Reaches E s n) : Ending E s := by
  induction h with
  | init mem childIds =>
    refine ending_of_not_over (by simp [Process.init, ParentPc.Over]) fun htty => ?_
    rw [Process.init, if_pos htty]
  | step hs hstep ih => exact ih.step hs.inv hstep

theorem Failed.not_step {n : ℕ} (h : Failed E s n) (hpc : s.pc = .gone) : ¬Step E s s' := by
  intro hstep
  obtain ⟨-, hn⟩ | ⟨-, hn⟩ := (h.step hstep).pc
  · omega
  · obtain ⟨hexit, -⟩ | ⟨-, rfl⟩ := h.pc
    · exact absurd (hpc.symm.trans hexit) (by simp)
    · omega

/-- A run that failed is none of those that get to the first loop. -/
theorem Failed.not_reaches {n m : ℕ} (h : Failed E s n) (hpc : s.pc = .gone) : ¬Reaches E s m := by
  intro hs
  obtain ⟨ok, lines, hlines⟩ := hs.ending.gone hpc
  have hin : .finished ∈ s.out := by simp [← hlines]
  exact (h.mem_out hin).2.2 rfl

/-- **Every run ends**: it has at most 29 steps from the first loop on, and it can go on until the
parent has exited.  Then every child has exited and has been waited for, and the last lines of
standard output are `Children finished execution` and whether the memory was detached; or there was
no child, and the last line is that of the `shmget` or `shmat` that failed. -/
theorem process_ends {n : ℕ} (h : Runs E s n) :
    n ≤ 29 ∧ ((∀ s', ¬Step E s s') ↔ s.pc = .gone) ∧ (s.pc = .gone →
      (∀ i c, s.child i = some c → c.reaped = true ∧ ∃ killed, c.pc = .gone killed) ∧
      (Reaches E s n → ∃ ok, [.finished, .detached ok] <:+ s.out) ∧
      (¬Reaches E s n → (∀ i, s.child i = none) ∧
        ∃ error : Line, error.OfFailure ∧ s.out = failedLines E error)) := by
  have hstuck (hnot : s.pc = .gone → ∀ s', ¬Step E s s') :
      (∀ s', ¬Step E s s') ↔ s.pc = .gone := by
    refine ⟨fun hstuck => ?_, hnot⟩
    by_contra hpc
    obtain ⟨s', hs'⟩ := exists_step E s hpc
    exact hstuck s' hs'
  obtain h | h := h.reaches_or_failed
  · refine ⟨le_trans (Nat.le_add_right _ _) h.add_rank_le, hstuck fun hpc s' => h.inv.not_step hpc,
      fun hpc => ⟨fun i c hc => ?_, fun _ => h.ending.gone hpc, fun hnot => absurd h hnot⟩⟩
    have hreaped := h.inv.reaped_of_over (.inr (.inr hpc)) hc
    exact ⟨hreaped, (h.inv.child i c hc).gone hreaped⟩
  · refine ⟨?_, hstuck fun hpc s' => h.not_step hpc, fun hpc => ⟨fun i c hc => ?_, fun hs => ?_,
      fun _ => ⟨h.child, ?_⟩⟩⟩
    · obtain ⟨-, rfl⟩ | ⟨-, rfl⟩ := h.pc <;> decide
    · exact absurd (hc.symm.trans (h.child i)) (by simp)
    · exact absurd hs (h.not_reaches hpc)
    · obtain ⟨error, herror, hlines⟩ := h.lines
      rw [h.empty hpc, List.append_nil] at hlines
      exact ⟨error, herror, hlines⟩

/-- In the run in which two of the forks fail, and standard output is a file. -/
theorem process_ends_run : ∃ (E : Env) (s : State) (n : ℕ), s.pc = .gone ∧ Reaches E s n ∧
    n ≤ 29 ∧ ((∀ s', ¬Step E s s') ↔ s.pc = .gone) ∧ (s.pc = .gone →
      (∀ i c, s.child i = some c → c.reaped = true ∧ ∃ killed, c.pc = .gone killed) ∧
      (Reaches E s n → ∃ ok, [.finished, .detached ok] <:+ s.out) ∧
      (¬Reaches E s n → (∀ i, s.child i = none) ∧
        ∃ error : Line, error.OfFailure ∧ s.out = failedLines E error)) := by
  obtain ⟨E, s, n, h, -, hpc, -⟩ := exists_run
  exact ⟨E, s, n, hpc, h, process_ends h.runs⟩

end OsLabs.Process
