import OsLabs.Lib.Loop
import Mathlib.Algebra.Order.Ring.Int
import Mathlib.Data.Fintype.Card
import Mathlib.Data.Rat.Floor
import Mathlib.Data.List.Nodup
import Mathlib.Logic.Function.Basic
import Mathlib.Tactic.Linarith
import Mathlib.Tactic.Ring

/-!
# Round robin

A ready queue that is served in rounds.  The job at its head runs for the quantum or for what it
has left, whichever is less; the jobs that arrive meanwhile are appended in their order, and after
them the job itself if it is not done.  When the queue is empty, the machine idles for one tick.

The queue holds the arrived unfinished jobs, each once (`Inv`).  A waiting job sees every other job
run at most once before it runs again, because whoever joins the queue joins it at the end; so it
waits at most a quantum for each other job (`Waits`).  `Fair` says this of every slice of a run, and
`Delayed` adds up the waits of a job.
-/

namespace OsLabs.RoundRobin

open Function

variable {J : Type*}

/-- One turn of a job. -/
structure Slice (J : Type*) where
  job : J
  start : ℤ
  length : ℤ

/-- The end of a turn. -/
def Slice.stop (slice : Slice J) : ℤ := slice.start + slice.length

/-- The jobs, in the order in which they join the queue when they arrive together. -/
structure Jobs (J : Type*) where
  arrival : J → ℤ
  burst : J → ℤ
  quantum : ℤ
  order : List J
  arrival_nonneg : ∀ j, 0 ≤ arrival j
  burst_pos : ∀ j, 0 < burst j
  quantum_pos : 0 < quantum
  nodup : order.Nodup
  mem : ∀ j, j ∈ order

/-- The ready queue, what the jobs have left, the turns so far and when the jobs were done. -/
structure State (J : Type*) where
  time : ℤ
  queue : List J
  left : J → ℤ
  slices : List (Slice J)
  finish : J → Option ℤ

/-- The jobs that arrive after time `a` and up to time `b`. -/
def Jobs.arriving (P : Jobs J) (a b : ℤ) : List J :=
  P.order.filter fun j => a < P.arrival j ∧ P.arrival j ≤ b

/-- The queue has the jobs that arrive at time 0. -/
def Jobs.init (P : Jobs J) : State J where
  time := 0
  queue := P.order.filter fun j => P.arrival j ≤ 0
  left := P.burst
  slices := []
  finish _ := none

/-- Some job is unfinished. -/
def Jobs.running (P : Jobs J) (s : State J) : Bool := P.order.any fun j => 0 < s.left j

section Step

variable [DecidableEq J]

/-- One turn, or one idle tick. -/
def Jobs.step (P : Jobs J) (s : State J) : State J :=
  match s.queue with
  | [] => { s with time := s.time + 1, queue := P.arriving s.time (s.time + 1) }
  | j :: rest =>
    let length := min (s.left j) P.quantum
    let stop := s.time + length
    { time := stop
      queue := rest ++ P.arriving s.time stop ++ if length < s.left j then [j] else []
      left := update s.left j (s.left j - length)
      slices := s.slices ++ [{ job := j, start := s.time, length := length }]
      finish := if length < s.left j then s.finish else update s.finish j (some stop) }

/-- The run, given up after `fuel` steps. -/
def Jobs.run (P : Jobs J) (fuel : ℕ) : Option (State J) :=
  whileLoop P.running P.step fuel P.init

variable {P : Jobs J} {s : State J} {j : J} {rest : List J}

theorem step_nil (h : s.queue = []) : P.step s
    = { s with time := s.time + 1, queue := P.arriving s.time (s.time + 1) } := by
  unfold Jobs.step
  rw [h]

theorem step_cons (h : s.queue = j :: rest) : P.step s
    = { time := s.time + min (s.left j) P.quantum
        queue := rest ++ P.arriving s.time (s.time + min (s.left j) P.quantum)
          ++ if min (s.left j) P.quantum < s.left j then [j] else []
        left := update s.left j (s.left j - min (s.left j) P.quantum)
        slices := s.slices
          ++ [{ job := j, start := s.time, length := min (s.left j) P.quantum }]
        finish := if min (s.left j) P.quantum < s.left j then s.finish
          else update s.finish j (some (s.time + min (s.left j) P.quantum)) } := by
  unfold Jobs.step
  rw [h]

end Step

theorem mem_arriving {P : Jobs J} {a b : ℤ} {j : J} :
    j ∈ P.arriving a b ↔ a < P.arrival j ∧ P.arrival j ≤ b := by
  simp [Jobs.arriving, P.mem j]

theorem nodup_arriving (P : Jobs J) (a b : ℤ) : (P.arriving a b).Nodup := P.nodup.filter _

theorem running_iff {P : Jobs J} {s : State J} : P.running s = true ↔ ∃ j, 0 < s.left j := by
  simp [Jobs.running, P.mem]

/-! ### The queue -/

/-- The queue holds the arrived unfinished jobs. -/
structure Inv (P : Jobs J) (s : State J) : Prop where
  nodup : s.queue.Nodup
  mem_iff : ∀ j, j ∈ s.queue ↔ P.arrival j ≤ s.time ∧ 0 < s.left j
  nonneg : ∀ j, 0 ≤ s.left j
  fresh : ∀ j, s.time < P.arrival j → s.left j = P.burst j
  started : ∀ slice ∈ s.slices, P.arrival slice.job ≤ slice.start ∧ slice.start < s.time

theorem inv_init (P : Jobs J) : Inv P P.init where
  nodup := P.nodup.filter _
  mem_iff j := by
    have hburst := P.burst_pos j
    simp [Jobs.init, P.mem j, hburst]
  nonneg j := (P.burst_pos j).le
  fresh j _ := rfl
  started slice hslice := absurd hslice List.not_mem_nil

section Inv

variable {P : Jobs J} {s : State J} {j : J} {rest : List J}

/-- What the head of the queue runs for. -/
theorem Inv.length_pos (h : Inv P s) (hq : s.queue = j :: rest) :
    0 < min (s.left j) P.quantum := by
  have hmem := (h.mem_iff j).mp (hq ▸ List.mem_cons_self)
  exact lt_min hmem.2 P.quantum_pos

/-- The queue after a turn has the jobs it is made of. -/
theorem Inv.nodup_next (h : Inv P s) (hq : s.queue = j :: rest) (stop : ℤ) :
    (j :: (rest ++ P.arriving s.time stop)).Nodup := by
  have hnd := h.nodup
  rw [hq] at hnd
  have hold (k : J) (hk : k ∈ j :: rest) : P.arrival k ≤ s.time := ((h.mem_iff k).mp (hq ▸ hk)).1
  have hnew {k k' : J} (hk : k ∈ j :: rest) (hk' : k' ∈ P.arriving s.time stop) : k ≠ k' := by
    rintro rfl
    have := hold k hk
    have := (mem_arriving.mp hk').1
    omega
  rw [← List.cons_append, List.nodup_append]
  exact ⟨hnd, nodup_arriving P _ _, fun k hk k' hk' => hnew hk hk'⟩

/-- Who waits after a turn. -/
theorem Inv.mem_next [DecidableEq J] (h : Inv P s) (hq : s.queue = j :: rest) {length : ℤ}
    (hpos : 0 < length) (k : J) :
    k ∈ rest ++ P.arriving s.time (s.time + length)
        ++ (if length < s.left j then [j] else []) ↔
      P.arrival k ≤ s.time + length ∧ 0 < update s.left j (s.left j - length) k := by
  have hj := (h.mem_iff j).mp (hq ▸ List.mem_cons_self)
  have hqueue : k ∈ rest ++ P.arriving s.time (s.time + length)
      ++ (if length < s.left j then [j] else []) ↔
      k ∈ rest ∨ k ∈ P.arriving s.time (s.time + length) ∨ (k = j ∧ length < s.left j) := by
    by_cases hcut : length < s.left j <;> simp [hcut]
  rw [hqueue, mem_arriving]
  by_cases hkj : k = j
  · rw [hkj, update_self]
    have hnot := (List.nodup_cons.mp (h.nodup_next hq (s.time + length))).1
    rw [List.mem_append, not_or, mem_arriving] at hnot
    constructor
    · rintro (hin | hin | hin)
      · exact absurd hin hnot.1
      · exact absurd hin hnot.2
      · exact ⟨by omega, by omega⟩
    · intro hin
      exact Or.inr (Or.inr ⟨rfl, by omega⟩)
  · rw [update_of_ne hkj]
    have hold := h.mem_iff k
    rw [hq, List.mem_cons] at hold
    constructor
    · rintro (hin | hin | hin)
      · have := hold.mp (Or.inr hin)
        exact ⟨by omega, this.2⟩
      · rw [h.fresh k hin.1]
        exact ⟨hin.2, P.burst_pos k⟩
      · exact absurd hin.1 hkj
    · rintro ⟨harr, hleft⟩
      rcases le_or_gt (P.arrival k) s.time with hearly | hlate
      · exact Or.inl ((hold.mpr ⟨hearly, hleft⟩).resolve_left hkj)
      · exact Or.inr (Or.inl ⟨hlate, harr⟩)

theorem Inv.idle [DecidableEq J] (h : Inv P s) (hq : s.queue = []) : Inv P (P.step s) := by
  -- nobody who has arrived is unfinished
  have hdone (k : J) (harr : P.arrival k ≤ s.time) : s.left k = 0 := by
    have hnot := (h.mem_iff k).not.mp (by rw [hq]; exact List.not_mem_nil)
    have := h.nonneg k
    by_contra hne
    exact hnot ⟨harr, by omega⟩
  rw [step_nil hq]
  refine ⟨nodup_arriving P _ _, fun k => ?_, h.nonneg, fun k hk => ?_, fun slice hslice => ?_⟩
  · show k ∈ P.arriving _ _ ↔ P.arrival k ≤ s.time + 1 ∧ 0 < s.left k
    rw [mem_arriving]
    constructor
    · intro hk
      rw [h.fresh k hk.1]
      exact ⟨hk.2, P.burst_pos k⟩
    · rintro ⟨harr, hleft⟩
      refine ⟨?_, harr⟩
      by_contra hle
      have := hdone k (not_lt.mp hle)
      omega
  · have hk' : s.time + 1 < P.arrival k := hk
    exact h.fresh k (by omega)
  · obtain ⟨harr, hlt⟩ := h.started slice hslice
    exact ⟨harr, by show _ < s.time + 1; omega⟩

theorem Inv.turn [DecidableEq J] (h : Inv P s) (hq : s.queue = j :: rest) :
    Inv P (P.step s) := by
  have hpos := h.length_pos hq
  have hnd := h.nodup_next hq (s.time + min (s.left j) P.quantum)
  have hj := (h.mem_iff j).mp (hq ▸ List.mem_cons_self)
  have hle : min (s.left j) P.quantum ≤ s.left j := min_le_left _ _
  rw [step_cons hq]
  generalize min (s.left j) P.quantum = length at hpos hnd hle
  refine ⟨?_, h.mem_next hq hpos, fun k => ?_, fun k hk => ?_, fun slice hslice => ?_⟩
  · show (rest ++ P.arriving s.time (s.time + length)
      ++ if length < s.left j then [j] else []).Nodup
    split
    · exact (List.perm_append_comm.nodup_iff).mp hnd
    · rw [List.append_nil]
      exact hnd.of_cons
  · show 0 ≤ update s.left j (s.left j - length) k
    by_cases hkj : k = j
    · rw [hkj, update_self]
      omega
    · rw [update_of_ne hkj]
      exact h.nonneg k
  · have hlate : s.time + length < P.arrival k := hk
    have hkj : k ≠ j := by
      rintro rfl
      omega
    show update s.left j (s.left j - length) k = P.burst k
    rw [update_of_ne hkj]
    exact h.fresh k (by omega)
  · show _ ∧ slice.start < s.time + length
    rcases List.mem_append.mp hslice with hold | hnew
    · obtain ⟨harr, hlt⟩ := h.started slice hold
      exact ⟨harr, by omega⟩
    · rw [List.mem_singleton.mp hnew]
      exact ⟨hj.1, by show s.time < _; omega⟩

theorem Inv.step [DecidableEq J] (h : Inv P s) : Inv P (P.step s) := by
  cases hq : s.queue with
  | nil => exact h.idle hq
  | cons j rest => exact h.turn hq

end Inv

/-! ### Turns -/

section Turns

variable [DecidableEq J]

/-- When job `j` became ready for its next turn: at the end of its last one or at its arrival. -/
def Jobs.readyAt (P : Jobs J) (slices : List (Slice J)) (j : J) : ℤ :=
  match (slices.filter fun slice => slice.job = j).getLast? with
  | some slice => slice.stop
  | none => P.arrival j

/-- The number of turns of job `j`. -/
def turns (slices : List (Slice J)) (j : J) : ℕ := slices.countP fun slice => slice.job = j

/-- The number of turns of job `j` that start at time `t` or later. -/
def turnsSince (slices : List (Slice J)) (j : J) (t : ℤ) : ℕ :=
  slices.countP fun slice => slice.job = j ∧ t ≤ slice.start

variable {P : Jobs J} {slices : List (Slice J)} {slice : Slice J} {j : J} {t : ℤ}

theorem readyAt_concat_self (h : slice.job = j) : P.readyAt (slices ++ [slice]) j = slice.stop := by
  simp [Jobs.readyAt, h]

theorem readyAt_concat_of_ne (h : slice.job ≠ j) :
    P.readyAt (slices ++ [slice]) j = P.readyAt slices j := by
  simp [Jobs.readyAt, h]

theorem turns_concat :
    turns (slices ++ [slice]) j = turns slices j + if slice.job = j then 1 else 0 := by
  simp [turns, List.countP_append, List.countP_singleton]

theorem turnsSince_concat : turnsSince (slices ++ [slice]) j t
    = turnsSince slices j t + if slice.job = j ∧ t ≤ slice.start then 1 else 0 := by
  simp [turnsSince, List.countP_append, List.countP_singleton]

/-- A job without a turn became ready when it arrived. -/
theorem readyAt_of_fresh (h : ∀ slice ∈ slices, slice.job ≠ j) :
    P.readyAt slices j = P.arrival j := by
  have hnil : slices.filter (fun slice => slice.job = j) = [] := by
    simpa [List.filter_eq_nil_iff] using h
  rw [Jobs.readyAt, hnil]
  rfl

theorem turnsSince_of_lt (h : ∀ slice ∈ slices, slice.start < t) : turnsSince slices j t = 0 := by
  rw [turnsSince, List.countP_eq_zero]
  intro slice hslice
  have := h slice hslice
  simp
  omega

end Turns

/-! ### Waiting -/

section Waits

variable [DecidableEq J] [Fintype J]

/-- Job `j` waits behind the jobs `ahead`: since it became ready, every other job has had a turn or
is ahead, or neither; what it has waited and may still wait is a quantum for each other job. -/
structure WaitsBehind (P : Jobs J) (s : State J) (j : J) (ahead : List J) : Prop where
  ready : P.readyAt s.slices j ≤ s.time
  once : ∀ k, k ≠ j →
    turnsSince s.slices k (P.readyAt s.slices j) + (if k ∈ ahead then 1 else 0) ≤ 1
  wait : s.time - P.readyAt s.slices j + P.quantum * ahead.length
    ≤ P.quantum * (Fintype.card J - 1)

/-- Every job in the queue waits behind those before it. -/
def Waits (P : Jobs J) (s : State J) : Prop :=
  ∀ j ahead behind, s.queue = ahead ++ j :: behind → WaitsBehind P s j ahead

variable {P : Jobs J} {s : State J} {j : J} {ahead rest : List J}

omit [DecidableEq J] in
/-- The jobs ahead of a job are other jobs. -/
theorem quantum_mul_length_le (P : Jobs J) {l ahead : List J} (h : (l ++ ahead).Nodup) :
    P.quantum * ahead.length ≤ P.quantum * (Fintype.card J - l.length) := by
  have hcard := h.length_le_card
  rw [List.length_append] at hcard
  exact mul_le_mul_of_nonneg_left (by omega) P.quantum_pos.le

/-- A job that has become ready during the last step. -/
theorem waitsBehind_of_new (hready : P.readyAt s.slices j ≤ s.time)
    (hnew : ∀ slice ∈ s.slices, slice.start < P.readyAt s.slices j)
    (hwait : s.time - P.readyAt s.slices j + P.quantum * ahead.length
      ≤ P.quantum * (Fintype.card J - 1)) : WaitsBehind P s j ahead where
  ready := hready
  once k _ := by
    rw [turnsSince_of_lt hnew]
    split <;> omega
  wait := hwait

theorem waits_init (P : Jobs J) : Waits P P.init := by
  intro j ahead behind hsplit
  have hnd := (inv_init P).nodup
  rw [hsplit, List.nodup_middle, ← List.cons_append] at hnd
  have harr : P.arrival j ≤ 0 := by
    have hmem : j ∈ P.init.queue := by
      rw [hsplit]
      exact List.mem_append_right _ List.mem_cons_self
    exact ((inv_init P).mem_iff j).mp hmem |>.1
  have hready : P.readyAt P.init.slices j = 0 :=
    le_antisymm harr (P.arrival_nonneg j)
  have hlen := quantum_mul_length_le P (l := [j]) hnd.of_append_left
  refine waitsBehind_of_new hready.le (fun slice hslice => absurd hslice List.not_mem_nil) ?_
  rw [hready]
  simpa [Jobs.init] using hlen

omit [Fintype J] in
/-- A job that has not arrived has had no turn. -/
theorem Inv.readyAt_of_late (h : Inv P s) (hj : s.time < P.arrival j) :
    P.readyAt s.slices j = P.arrival j := by
  apply readyAt_of_fresh
  rintro slice hslice rfl
  have := h.started slice hslice
  omega

section Turn

variable {s' : State J} {k : J} {length : ℤ} (htime : s'.time = s.time + length)
  (hslices : s'.slices = s.slices ++ [{ job := j, start := s.time, length := length }])

include htime hslices

/-- The turn of the first job ahead. -/
theorem WaitsBehind.turn (hpos : 0 < length) (hcut : length ≤ P.quantum)
    (h : WaitsBehind P s k (j :: ahead)) (hkj : j ≠ k) (hj : j ∉ ahead) :
    WaitsBehind P s' k ahead := by
  have hready : P.readyAt s'.slices k = P.readyAt s.slices k := by
    rw [hslices]
    exact readyAt_concat_of_ne hkj
  have hnow := h.ready
  refine ⟨by omega, fun m hm => ?_, ?_⟩
  · have honce := h.once m hm
    rw [hready, hslices, turnsSince_concat]
    by_cases hmj : m = j
    · rw [hmj] at honce ⊢
      rw [if_pos List.mem_cons_self] at honce
      rw [if_neg hj]
      split <;> omega
    · rw [if_neg fun hand => hmj hand.1.symm]
      simpa [hmj] using honce
  · have hwait := h.wait
    rw [List.length_cons, Nat.cast_add, Nat.cast_one, mul_add, mul_one] at hwait
    rw [hready, htime]
    omega

/-- A job that arrives during the turn. -/
theorem Inv.waitsBehind_arriving (hcut : length ≤ P.quantum) (h : Inv P s)
    (hk : k ∈ P.arriving s.time (s.time + length)) (hkj : j ≠ k)
    (hnd : ([k, j] ++ ahead).Nodup) : WaitsBehind P s' k ahead := by
  obtain ⟨hlate, harr⟩ := mem_arriving.mp hk
  have hready : P.readyAt s'.slices k = P.arrival k := by
    rw [hslices, readyAt_concat_of_ne hkj]
    exact h.readyAt_of_late hlate
  refine waitsBehind_of_new (by omega) (fun slice hslice => ?_) ?_
  · rw [hready]
    rw [hslices] at hslice
    rcases List.mem_append.mp hslice with hold | hnew
    · have := h.started slice hold
      omega
    · rw [List.mem_singleton.mp hnew]
      exact hlate
  · have hlen := quantum_mul_length_le P hnd
    have hsplit : P.quantum * ((Fintype.card J : ℤ) - ([k, j] : List J).length)
        = P.quantum * (Fintype.card J - 1) - P.quantum := by
      simp only [List.length_cons, List.length_nil]
      push_cast
      ring
    rw [hready, htime]
    omega

/-- The job that had the turn. -/
theorem Inv.waitsBehind_self (hpos : 0 < length) (h : Inv P s) (hnd : ([j] ++ ahead).Nodup) :
    WaitsBehind P s' j ahead := by
  have hready : P.readyAt s'.slices j = s.time + length := by
    rw [hslices]
    exact readyAt_concat_self rfl
  refine waitsBehind_of_new (by omega) (fun slice hslice => ?_) ?_
  · rw [hready]
    rw [hslices] at hslice
    rcases List.mem_append.mp hslice with hold | hnew
    · have := h.started slice hold
      omega
    · rw [List.mem_singleton.mp hnew]
      show s.time < _
      omega
  · have hlen := quantum_mul_length_le P hnd
    rw [List.length_singleton, Nat.cast_one] at hlen
    rw [hready, htime]
    omega

end Turn

omit [DecidableEq J] [Fintype J] in
/-- A job is at one place of a list without repetitions. -/
theorem eq_of_append_cons {a b ahead behind : List J} {k : J}
    (hnd : (ahead ++ k :: behind).Nodup) (h : a ++ k :: b = ahead ++ k :: behind) : a = ahead := by
  rw [List.nodup_middle, List.nodup_cons, List.mem_append, not_or] at hnd
  obtain ⟨⟨hbefore, hafter⟩, -⟩ := hnd
  exact ((List.append_cons_inj_of_notMem hbefore hafter).mp h.symm).1.symm

/-- A step keeps what every waiting job is promised. -/
theorem Waits.step (h : Inv P s) (hw : Waits P s) : Waits P (P.step s) := by
  intro k ahead behind hsplit
  have hnd := h.step.nodup
  rw [hsplit] at hnd
  have hahead : ([k] ++ ahead).Nodup := by
    rw [List.nodup_middle, ← List.cons_append] at hnd
    exact hnd.of_append_left
  have hk : k ∈ (P.step s).queue := by
    rw [hsplit]
    exact List.mem_append_right _ List.mem_cons_self
  have hplace {a b : List J} (hab : (P.step s).queue = a ++ k :: b) : a = ahead :=
    eq_of_append_cons hnd (hab.symm.trans hsplit)
  cases hq : s.queue with
  | nil =>
    rw [step_nil hq] at hk ⊢
    obtain ⟨hlate, harr⟩ := mem_arriving.mp hk
    have hready := h.readyAt_of_late hlate
    have hlen := quantum_mul_length_le P hahead
    refine waitsBehind_of_new (hready.trans_le harr) (fun slice hslice => ?_) ?_
    · have := h.started slice hslice
      show _ < P.readyAt s.slices k
      omega
    · show s.time + 1 - P.readyAt s.slices k + _ ≤ _
      rw [List.length_singleton, Nat.cast_one] at hlen
      omega
  | cons j rest =>
    have hpos := h.length_pos hq
    have hcut : min (s.left j) P.quantum ≤ P.quantum := min_le_right _ _
    have hnext := h.nodup_next hq (s.time + min (s.left j) P.quantum)
    have htime : (P.step s).time = s.time + min (s.left j) P.quantum := by rw [step_cons hq]
    have hslices : (P.step s).slices = s.slices
        ++ [{ job := j, start := s.time, length := min (s.left j) P.quantum }] := by
      rw [step_cons hq]
    have hqueue : (P.step s).queue
        = rest ++ P.arriving s.time (s.time + min (s.left j) P.quantum)
          ++ if min (s.left j) P.quantum < s.left j then [j] else [] := by
      rw [step_cons hq]
    by_cases hkj : j = k
    · rw [← hkj] at hahead ⊢
      exact h.waitsBehind_self htime hslices hpos hahead
    · obtain ⟨hjnot, hnd'⟩ := List.nodup_cons.mp hnext
      have hmem : k ∈ rest ∨ k ∈ P.arriving s.time (s.time + min (s.left j) P.quantum) := by
        rw [hqueue, List.mem_append] at hk
        rcases hk with hk | hk
        · exact List.mem_append.mp hk
        · split at hk
          · exact absurd (List.mem_singleton.mp hk).symm hkj
          · exact absurd hk List.not_mem_nil
      rcases hmem with hmem | hmem
      · obtain ⟨a, b, rfl⟩ := List.append_of_mem hmem
        obtain rfl := hplace (a := a) (b := b ++ P.arriving s.time _ ++ _)
          (by rw [hqueue, List.append_assoc, List.append_assoc, List.append_assoc]; rfl)
        refine (hw k (j :: a) b (by rw [hq]; rfl)).turn htime hslices hpos hcut hkj fun hj => ?_
        exact hjnot (List.mem_append_left _ (List.mem_append_left _ hj))
      · obtain ⟨a, b, hab⟩ := List.append_of_mem hmem
        obtain rfl := hplace (a := rest ++ a) (b := b ++ _)
          (by rw [hqueue, hab, ← List.append_assoc, List.append_assoc]; rfl)
        refine h.waitsBehind_arriving htime hslices hcut hmem hkj ?_
        rw [List.cons_append, List.nodup_cons]
        refine ⟨?_, ?_⟩
        · rw [List.singleton_append, List.mem_cons, not_or]
          exact ⟨Ne.symm hkj, (List.nodup_cons.mp hahead).1⟩
        · refine List.nodup_cons.mpr ⟨fun hj => hjnot ?_, (List.nodup_cons.mp hahead).2⟩
          rw [hab, ← List.append_assoc]
          exact List.mem_append_left _ hj

end Waits

/-! ### Fairness -/

section Fair

variable [DecidableEq J] [Fintype J]

/-- A turn, after the turns `before`. -/
structure FairTurn (P : Jobs J) (before : List (Slice J)) (slice : Slice J) : Prop where
  ready : P.readyAt before slice.job ≤ slice.start
  /-- Since the job became ready, every other job has had at most one turn. -/
  once : ∀ k, k ≠ slice.job → turnsSince before k (P.readyAt before slice.job) ≤ 1
  wait : slice.start - P.readyAt before slice.job ≤ P.quantum * (Fintype.card J - 1)

/-- All turns are fair. -/
def Fair (P : Jobs J) (slices : List (Slice J)) : Prop :=
  ∀ before slice after, slices = before ++ slice :: after → FairTurn P before slice

/-- What job `j` has waited in total, by the number of its turns, which is that of the quanta in the
part of its burst that it has run. -/
structure Delayed (P : Jobs J) (s : State J) (j : J) : Prop where
  delay : P.readyAt s.slices j - P.arrival j - (P.burst j - s.left j)
    ≤ P.quantum * (Fintype.card J - 1) * turns s.slices j
  served : 0 < s.left j → P.burst j - s.left j = P.quantum * turns s.slices j
  rounds : s.left j = 0 →
    P.quantum * ((turns s.slices j : ℤ) - 1) < P.burst j ∧ P.burst j ≤ P.quantum * turns s.slices j
  finish : s.left j = 0 → s.finish j = some (P.readyAt s.slices j)

variable {P : Jobs J} {s : State J}

theorem Fair.concat {slices : List (Slice J)} {slice : Slice J} (h : Fair P slices)
    (hs : FairTurn P slices slice) : Fair P (slices ++ [slice]) := by
  intro before other after hsplit
  rcases List.eq_nil_or_concat after with rfl | ⟨after, last, rfl⟩
  · obtain ⟨rfl, hsame⟩ := List.append_inj' hsplit rfl
    obtain rfl := List.singleton_injective hsame
    exact hs
  · rw [List.concat_eq_append, ← List.cons_append, ← List.append_assoc] at hsplit
    exact h before other after (List.append_inj' hsplit rfl).1

/-- The turn of a step is fair. -/
theorem Waits.fairTurn (h : Waits P s) {j : J} {rest : List J} (hq : s.queue = j :: rest)
    (length : ℤ) : FairTurn P s.slices { job := j, start := s.time, length := length } := by
  obtain ⟨hready, honce, hwait⟩ := h j [] rest hq
  refine ⟨hready, fun k hk => ?_, ?_⟩
  · exact le_of_add_le_left (honce k hk)
  · simpa using hwait

theorem Fair.step (h : Fair P s.slices) (hw : Waits P s) : Fair P (P.step s).slices := by
  cases hq : s.queue with
  | nil =>
    rw [step_nil hq]
    exact h
  | cons j rest =>
    rw [step_cons hq]
    exact h.concat (hw.fairTurn hq _)

theorem delayed_init (P : Jobs J) (j : J) : Delayed P P.init j where
  delay := by simp [Jobs.init, Jobs.readyAt, turns]
  served _ := by simp [Jobs.init, turns]
  rounds hdone := by
    have hzero : P.burst j = 0 := hdone
    have := P.burst_pos j
    omega
  finish hdone := by
    have hzero : P.burst j = 0 := hdone
    have := P.burst_pos j
    omega

omit [Fintype J] in
theorem turns_concat_self {slices : List (Slice J)} {slice : Slice J} {j : J}
    (h : slice.job = j) : (turns (slices ++ [slice]) j : ℤ) = turns slices j + 1 := by
  rw [turns_concat, if_pos h]
  push_cast
  rfl

/-- Nothing changes for a job that has no turn. -/
theorem Delayed.congr {s' : State J} {k : J} (h : Delayed P s k)
    (hready : P.readyAt s'.slices k = P.readyAt s.slices k)
    (hturns : turns s'.slices k = turns s.slices k) (hleft : s'.left k = s.left k)
    (hfinish : s'.finish k = s.finish k) : Delayed P s' k where
  delay := by
    rw [hready, hturns, hleft]
    exact h.delay
  served hmore := by
    rw [hturns, hleft]
    exact h.served (hleft ▸ hmore)
  rounds hdone := by
    rw [hturns]
    exact h.rounds (hleft ▸ hdone)
  finish hdone := by
    rw [hready, hfinish]
    exact h.finish (hleft ▸ hdone)

/-- A turn of the job, which becomes ready again at its end. -/
theorem Delayed.turn {s' : State J} {j : J} (h : Delayed P s j) (hmore : 0 < s.left j)
    (hwait : s.time - P.readyAt s.slices j ≤ P.quantum * (Fintype.card J - 1))
    (hslices : s'.slices
      = s.slices ++ [{ job := j, start := s.time, length := min (s.left j) P.quantum }])
    (hleft : s'.left j = s.left j - min (s.left j) P.quantum)
    (hfinish : s'.left j = 0 →
      s'.finish j = some (s.time + min (s.left j) P.quantum)) : Delayed P s' j := by
  have hready : P.readyAt s'.slices j = s.time + min (s.left j) P.quantum := by
    rw [hslices]
    exact readyAt_concat_self rfl
  have hturns : (turns s'.slices j : ℤ) = turns s.slices j + 1 := by
    rw [hslices]
    exact turns_concat_self rfl
  have hserved := h.served hmore
  have hdelay := h.delay
  refine ⟨?_, fun hmore' => ?_, fun hdone => ?_, fun hdone => ?_⟩
  · rw [hready, hturns, hleft, mul_add, mul_one]
    omega
  · rw [hturns, hleft, mul_add, mul_one]
    omega
  · rw [hturns, add_sub_cancel_right, mul_add, mul_one]
    omega
  · rw [hready, hfinish hdone]

theorem Delayed.step (h : Inv P s) (hw : Waits P s) {k : J} (hk : Delayed P s k) :
    Delayed P (P.step s) k := by
  cases hq : s.queue with
  | nil =>
    rw [step_nil hq]
    exact hk.congr rfl rfl rfl rfl
  | cons j rest =>
    have hmore := ((h.mem_iff j).mp (hq ▸ List.mem_cons_self)).2
    have hwait := (hw.fairTurn hq (min (s.left j) P.quantum)).wait
    rw [step_cons hq]
    by_cases hkj : j = k
    · rw [← hkj] at hk ⊢
      refine hk.turn hmore hwait rfl (update_self ..) fun hdone => ?_
      have hdone' : update s.left j (s.left j - min (s.left j) P.quantum) j = 0 := hdone
      rw [update_self] at hdone'
      exact (congrFun (if_neg (by omega)) j).trans (update_self ..)
    · refine hk.congr (readyAt_concat_of_ne hkj) ?_ (update_of_ne (Ne.symm hkj) ..) ?_
      · rw [turns_concat, if_neg hkj, add_zero]
      · show (if _ then s.finish else update s.finish j _) k = s.finish k
        split
        · rfl
        · exact update_of_ne (Ne.symm hkj) ..

/-! ### Runs -/

/-- What is known of every state of a run. -/
structure Reached (P : Jobs J) (s : State J) : Prop where
  inv : Inv P s
  waits : Waits P s
  fair : Fair P s.slices
  delayed : ∀ j, Delayed P s j

theorem reached_of_loopState (h : LoopState P.running P.step P.init s) : Reached P s := by
  induction h with
  | start =>
    refine ⟨inv_init P, waits_init P, fun before slice after hsplit => ?_, delayed_init P⟩
    exact absurd hsplit (by simp [Jobs.init])
  | next _ _ ih =>
    exact ⟨ih.inv.step, ih.waits.step ih.inv, ih.fair.step ih.waits,
      fun j => (ih.delayed j).step ih.inv ih.waits⟩

/-- **Round robin is fair**: every turn of a run is, and a job that is done has waited at most a
quantum for each other job in each of its turns. -/
theorem run_fair {fuel : ℕ} (h : P.run fuel = some s) : Fair P s.slices ∧
    ∀ j, ∃ finish, s.finish j = some finish ∧ finish - P.arrival j - P.burst j
      ≤ P.quantum * (Fintype.card J - 1) * ⌈(P.burst j : ℚ) / P.quantum⌉ := by
  obtain ⟨hs, hdone⟩ := loopState_of_whileLoop h
  have hreached := reached_of_loopState hs
  refine ⟨hreached.fair, fun j => ?_⟩
  have hj := hreached.delayed j
  have hzero : s.left j = 0 := by
    have hnonneg := hreached.inv.nonneg j
    by_contra hne
    have hrun : P.running s = true := running_iff.mpr ⟨j, by omega⟩
    exact absurd (hdone.symm.trans hrun) (by decide)
  obtain ⟨hlt, hle⟩ := hj.rounds hzero
  have hquantum : (0 : ℚ) < P.quantum := by exact_mod_cast P.quantum_pos
  have hceil : ⌈(P.burst j : ℚ) / P.quantum⌉ = turns s.slices j := by
    rw [Int.ceil_eq_iff, lt_div_iff₀ hquantum, div_le_iff₀ hquantum]
    constructor
    · rw [mul_comm] at hlt
      exact_mod_cast hlt
    · rw [mul_comm] at hle
      exact_mod_cast hle
  refine ⟨_, hj.finish hzero, ?_⟩
  have hdelay := hj.delay
  rw [hzero, sub_zero] at hdelay
  rw [hceil]
  exact hdelay

end Fair

end OsLabs.RoundRobin
