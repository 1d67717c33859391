import OsLabs.Lib.Strings
import Mathlib.Data.Int.Notation
import Mathlib.Data.Nat.Notation
import Mathlib.Logic.Function.Basic

/-!
# Processes and shared memory (`004Process/source/main.c`)

The parent writes three messages into shared memory, forks three children, each of which reads its
message, and waits for them.  A `State` is the parent, the children that were forked, the shared
memory and what has been written to standard output; a `Step` is one call of the parent or of a
child, and they interleave in any order.  `fork` may fail, and so may `shmat` in a child and
`shmdt`.

Before its first loop the parent is alone, so a run starts there: with the messages in the memory
(`init`), or with the parent about to return because `shmget` or `shmat` has failed (`failed`).

`printf` writes to the buffer of `stdout`.  On a terminal a line is written at its end; otherwise it
stays in the buffer of the process, which `fork` copies, until the process exits.

`waitpid(p)` waits for a child with the process id `p`, for any child when `p` is -1 or 0, and for
any child of the process group `-p` otherwise.  It returns at once when there is no such child.
-/

namespace OsLabs.Process

open Function

/-! ### Shared memory -/

/-- `CHILD_PROCESSES` -/
def CHILD_PROCESSES : ℕ := 3

/-- `messages` -/
def messages : List (List Char) :=
  ["Bulbasaur".toList, "Charmander".toList, "Squirtle".toList]

/-- `sizeof(char[12])` -/
def SLOT : ℕ := 12

/-- The bytes of the segment, by their offset. -/
abbrev Shmem := ℕ → Char

/-- `memcpy(shmem_pointer + off, bytes, strlen(bytes) + 1)` -/
def copyString (mem : Shmem) (off : ℕ) (s : List Char) : Shmem := fun a =>
  if off ≤ a ∧ a < off + (s.length + 1) then (s ++ [NUL]).getD (a - off) NUL else mem a

/-- The string at an offset of the segment. -/
def stringAt (mem : Shmem) (off : ℕ) : List Char :=
  cString ((List.range (CHILD_PROCESSES * SLOT - off)).map fun k => mem (off + k))

/-! ### Processes -/

/-- The lines that are printed. -/
inductive Line where
  /-- `> Parent Process: PID = %d` -/
  | parentPid (pid : ℤ)
  /-- `> Parent Process: Allocating shared memory...` -/
  | allocating
  /-- `Error allocating shared memory: %s` -/
  | allocateError (error : List Char)
  /-- `Error attaching memory: %s` -/
  | attachError (error : List Char)
  /-- `> Parent Process: Shared memory allocated MEMID = %d` -/
  | allocated (memId : ℤ)
  /-- `> Parent Process: Writing '%s'` -/
  | writing (s : List Char)
  /-- `> Parent Process: Spawning children...` -/
  | spawning
  /-- `Error creating children process. No process spawned. Terminating.` -/
  | forkError
  /-- `> Parent Process: Children finished execution.` -/
  | finished
  /-- `> Parent Process: Share memory detached.`, or that some error happened -/
  | detached (ok : Bool)
  /-- `- Child %d: PID = %d, my parent PID = %d` -/
  | childPid (id : ℕ) (pid ppid : ℤ)
  /-- `- Child %d: Allocating shared memory...` -/
  | childAllocating (id : ℕ)
  /-- `- Child %d: Reading '%s'` -/
  | reading (id : ℕ) (s : List Char)
  /-- `- Child %d: Share memory detached.`, or that some error happened -/
  | childDetached (id : ℕ) (ok : Bool)
  deriving DecidableEq, Repr

/-- A line of a child. -/
def Line.OfChild : Line → Prop
  | .childPid .. | .childAllocating _ | .reading .. | .childDetached .. => True
  | _ => False

/-- The line of a failing `shmget` or `shmat` of the parent. -/
def Line.OfFailure : Line → Prop
  | .allocateError _ | .attachError _ => True
  | _ => False

/-- Where the parent is. -/
inductive ParentPc where
  /-- In the first loop, with this `i`. -/
  | fork (i : ℕ)
  /-- In the second loop, with this `i`. -/
  | wait (i : ℕ)
  | finished
  | detach
  | exit
  /-- It has exited. -/
  | gone
  deriving DecidableEq, Repr

/-- Where a child is in `child_process`. -/
inductive ChildPc where
  | pid
  | allocating
  | attach
  /-- `shmat` has returned, with an address or not. -/
  | read (attached : Bool)
  | detach
  | exit
  /-- It has exited, or it was killed by a signal. -/
  | gone (killed : Bool)
  deriving DecidableEq, Repr

structure Child where
  pid : ℤ
  pc : ChildPc
  buffer : List Line
  /-- The parent has waited for it. -/
  reaped : Bool

/-- What does not change in a run. -/
structure Env where
  /-- `stdout` is a terminal. -/
  tty : Bool
  parentPid : ℤ
  /-- The process group of all the processes. -/
  group : ℤ
  group_pos : 0 < group
  memId : ℤ

structure State where
  pc : ParentPc
  /-- `child_ids` -/
  childIds : ℕ → ℤ
  buffer : List Line
  /-- The children, by `child_id`. -/
  child : ℕ → Option Child
  mem : Shmem
  out : List Line

/-- `printf` of a line by the parent. -/
def State.print (E : Env) (s : State) (line : Line) : State :=
  if E.tty then { s with out := s.out ++ [line] } else { s with buffer := s.buffer ++ [line] }

/-- `printf` of a line by a child: the child and standard output after it. -/
def Child.print (E : Env) (c : Child) (out : List Line) (line : Line) : Child × List Line :=
  if E.tty then (c, out ++ [line]) else ({ c with buffer := c.buffer ++ [line] }, out)

/-- The lines of the parent before the first loop. -/
def setupLines (E : Env) (mem : Shmem) : List Line :=
  [.parentPid E.parentPid, .allocating, .allocated E.memId, .writing (stringAt mem 0),
    .writing (stringAt mem SLOT), .writing (stringAt mem (2 * SLOT)), .spawning]

/-- The messages in the segment. -/
def writeMessages (mem : Shmem) : Shmem :=
  copyString (copyString (copyString mem 0 (messages.getD 0 [])) SLOT (messages.getD 1 []))
    (2 * SLOT) (messages.getD 2 [])

/-- The parent before the first loop; `mem` is what the segment holds before. -/
def init (E : Env) (mem : Shmem) (childIds : ℕ → ℤ) : State where
  pc := .fork 0
  childIds := childIds
  buffer := if E.tty then [] else setupLines E (writeMessages mem)
  child _ := none
  mem := writeMessages mem
  out := if E.tty then setupLines E (writeMessages mem) else []

/-- The lines of the parent up to an error. -/
def failedLines (E : Env) (error : Line) : List Line := [.parentPid E.parentPid, .allocating, error]

/-- The parent that returns -1 after `shmget` or `shmat` has failed. -/
def failed (E : Env) (mem : Shmem) (childIds : ℕ → ℤ) (error : Line) : State where
  pc := .exit
  childIds := childIds
  buffer := if E.tty then [] else failedLines E error
  child _ := none
  mem := mem
  out := if E.tty then failedLines E error else []

/-- `waitpid(p, ..)` is about this child. -/
def Env.Matches (E : Env) (p : ℤ) (c : Child) : Prop :=
  p = c.pid ∨ p = -1 ∨ p = 0 ∨ p = -E.group

/-- A call of `child_process`, for the child with this `child_id`: the child and standard output
after it. -/
inductive ChildStep (E : Env) (s : State) (id : ℕ) (c : Child) : Child × List Line → Prop where
  | pid (hpc : c.pc = .pid) :
    ChildStep E s id c (Child.print E { c with pc := .allocating } s.out
      (.childPid id c.pid (if s.pc = .gone then 1 else E.parentPid)))
  | allocating (hpc : c.pc = .allocating) :
    ChildStep E s id c (Child.print E { c with pc := .attach } s.out (.childAllocating id))
  | attach (hpc : c.pc = .attach) (ok : Bool) :
    ChildStep E s id c ({ c with pc := .read ok }, s.out)
  | read (hpc : c.pc = .read true) :
    ChildStep E s id c (Child.print E { c with pc := .detach } s.out
      (.reading id (stringAt s.mem (id * SLOT))))
  /-- `shmat` returned `(void *) -1`: reading from there kills the child. -/
  | fault (hpc : c.pc = .read false) :
    ChildStep E s id c ({ c with pc := .gone true }, s.out)
  | detach (hpc : c.pc = .detach) (ok : Bool) :
    ChildStep E s id c (Child.print E { c with pc := .exit } s.out (.childDetached id ok))
  | exit (hpc : c.pc = .exit) :
    ChildStep E s id c ({ c with pc := .gone false, buffer := [] }, s.out ++ c.buffer)

/-- A step of the parent or of a child. -/
inductive Step (E : Env) (s : State) : State → Prop where
  | fork {i : ℕ} (hpc : s.pc = .fork i) (hi : i < CHILD_PROCESSES) {pid : ℤ} (hpid : 0 < pid)
    (hfresh : ∀ j c, s.child j = some c → c.pid ≠ pid) :
    Step E s { s with
      pc := .fork (i + 1)
      childIds := update s.childIds i pid
      child := update s.child i
        (some { pid := pid, pc := .pid, buffer := s.buffer, reaped := false }) }
  | forkError {i : ℕ} (hpc : s.pc = .fork i) (hi : i < CHILD_PROCESSES) :
    Step E s { s.print E .forkError with pc := .fork (i + 1) }
  /-- `child_pid` is not 0 in the parent. -/
  | forked {i : ℕ} (hpc : s.pc = .fork i) (hi : CHILD_PROCESSES ≤ i) :
    Step E s { s with pc := .wait 0 }
  | reap {i : ℕ} (hpc : s.pc = .wait i) (hi : i < CHILD_PROCESSES) {j : ℕ} {c : Child}
    {killed : Bool} (hc : s.child j = some c) (hmatch : E.Matches (s.childIds i) c)
    (hgone : c.pc = .gone killed) (hreaped : c.reaped = false) :
    Step E s { s with
      pc := .wait (i + 1)
      child := update s.child j (some { c with reaped := true }) }
  /-- There is no child to wait for. -/
  | noChild {i : ℕ} (hpc : s.pc = .wait i) (hi : i < CHILD_PROCESSES)
    (h : ∀ j c, s.child j = some c → E.Matches (s.childIds i) c → c.reaped = true) :
    Step E s { s with pc := .wait (i + 1) }
  | waited {i : ℕ} (hpc : s.pc = .wait i) (hi : CHILD_PROCESSES ≤ i) :
    Step E s { s with pc := .finished }
  | finished (hpc : s.pc = .finished) : Step E s { s.print E .finished with pc := .detach }
  | detach (hpc : s.pc = .detach) (ok : Bool) :
    Step E s { s.print E (.detached ok) with pc := .exit }
  | exit (hpc : s.pc = .exit) :
    Step E s { s with pc := .gone, out := s.out ++ s.buffer, buffer := [] }
  | child {id : ℕ} {c c' : Child} {out : List Line} (hc : s.child id = some c)
    (h : ChildStep E s id c (c', out)) :
    Step E s { s with child := update s.child id (some c'), out := out }

/-- The states of the runs in which the parent gets to its first loop, with the number of steps from
there. -/
inductive Reaches (E : Env) : State → ℕ → Prop where
  | init (mem : Shmem) (childIds : ℕ → ℤ) : Reaches E (init E mem childIds) 0
  | step {s s' : State} {n : ℕ} (hs : Reaches E s n) (h : Step E s s') : Reaches E s' (n + 1)

/-- The states of all runs. -/
inductive Runs (E : Env) : State → ℕ → Prop where
  | init (mem : Shmem) (childIds : ℕ → ℤ) : Runs E (init E mem childIds) 0
  | failed (mem : Shmem) (childIds : ℕ → ℤ) {error : Line} (herror : error.OfFailure) :
    Runs E (failed E mem childIds error) 0
  | step {s s' : State} {n : ℕ} (hs : Runs E s n) (h : Step E s s') : Runs E s' (n + 1)

end OsLabs.Process
