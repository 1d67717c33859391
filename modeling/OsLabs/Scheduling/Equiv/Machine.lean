import OsLabs.Lib.Loop
import OsLabs.Lib.UnitSchedule
import OsLabs.Scheduling.Equiv.Gantt

/-!
# The machine all four schedulers drive

A round of any of the four loops either leaves the CPU idle for one tick (`Idled`) or runs one
thread for some ticks (`Ran`).  The `Chart` of a run says who ran in each tick; it is not part of
the program's state, and `CoreInv` says how the program's state follows from it: the slots, the
remaining and start times, and the fields a finished thread is reported with.

An algorithm is a `Simulation` of this machine.  What does not depend on the choice of the thread
is proved here once: the loop returns, and its outputs are those of a chart in which every thread
runs for its burst and not before its arrival (`Final`); if the algorithm sees all arrivals, no
tick is idle while an arrived thread is unfinished (`Conserving`).
-/

namespace OsLabs.Scheduling

open Function UnitSchedule

variable {n : ℕ}

/-- Who runs in each tick. -/
abbrev Chart (n : ℕ) := List (Option (Fin n))

/-! ### Properties of every tick of a chart -/

/-- `Q` relates every tick to the ticks before it. -/
def Along (Q : Chart n → Option (Fin n) → Prop) (d : Chart n) : Prop :=
  ∀ k x, d[k]? = some x → Q (d.take k) x

theorem along_nil (Q : Chart n → Option (Fin n) → Prop) : Along Q [] := by
  intro k x hx
  simp at hx

theorem Along.concat {Q : Chart n → Option (Fin n) → Prop} {c : Chart n} {x : Option (Fin n)}
    (h : Along Q c) (hx : Q c x) : Along Q (c ++ [x]) := by
  intro k y hy
  rcases Nat.lt_or_ge k c.length with hk | hk
  · rw [List.getElem?_append_left hk] at hy
    rw [List.take_append_of_le_length hk.le]
    exact h k y hy
  · rw [List.getElem?_append_right hk] at hy
    have hzero : k - c.length = 0 := by
      by_contra hne
      rw [List.getElem?_eq_none (by simp; omega)] at hy
      exact absurd hy (by simp)
    rw [hzero] at hy
    obtain rfl : x = y := by simpa using hy
    have hkc : k = c.length := by omega
    rw [hkc, List.take_left]
    exact hx

theorem Along.replicate {Q : Chart n → Option (Fin n) → Prop} {c : Chart n}
    {x : Option (Fin n)} (h : Along Q c) (k : ℕ)
    (hx : ∀ m < k, Q (c ++ List.replicate m x) x) : Along Q (c ++ List.replicate k x) := by
  induction k with
  | zero => simpa using h
  | succ k ih =>
    rw [List.replicate_succ', ← List.append_assoc]
    exact (ih fun m hm => hx m (by omega)).concat (hx k (Nat.lt_succ_self k))

/-- The ticks of a round, which is idle or of one thread `x`. -/
theorem Along.round {Q : Chart n → Option (Fin n) → Prop} {c b : Chart n} {x : Option (Fin n)}
    {P : Fin n → ℕ → Prop} (h : Along Q c)
    (hb : match x with
      | none => b = [none]
      | some sel => ∃ k : ℕ, P sel k ∧ b = List.replicate k (some sel))
    (hidle : Q c none)
    (hrun : ∀ sel, x = some sel → ∀ m, Q (c ++ List.replicate m (some sel)) (some sel)) :
    Along Q (c ++ b) := by
  cases x with
  | none =>
    obtain rfl : b = [none] := hb
    exact h.concat hidle
  | some sel =>
    obtain ⟨k, -, rfl⟩ := hb
    exact h.replicate k fun m _ => hrun sel rfl m

/-- A thread does not run before its arrival. -/
def Released (w : Fin n → Thread) (c : Chart n) (x : Option (Fin n)) : Prop :=
  ∀ i, x = some i → (w i).arrival ≤ c.length

/-- The CPU is idle only when every arrived thread is finished. -/
def Conserving (w : Fin n → Thread) (c : Chart n) (x : Option (Fin n)) : Prop :=
  x = none → ∀ i, (w i).arrival ≤ c.length → (c.count (some i) : ℤ) = (w i).burst

/-! ### What a run reports -/

/-- The `thread_id` of a tick. -/
def owner (w : Fin n → Thread) : Option (Fin n) → ℤ
  | none => -1
  | some i => (w i).id

/-- The first tick of thread `i`. -/
def firstTick (c : Chart n) (i : Fin n) : ℤ := c.idxOf (some i)

/-- The end of the last tick of thread `i`. -/
def lastTick (c : Chart n) (i : Fin n) : ℤ := c.length - c.reverse.idxOf (some i)

/-- The fields of a finished thread. -/
structure Reported (w : Fin n → Thread) (c : Chart n) (i : Fin n) (th : Thread) : Prop where
  id : th.id = (w i).id
  burst : th.burst = (w i).burst
  arrival : th.arrival = (w i).arrival
  start : th.start = firstTick c i
  finish : th.finish = lastTick c i
  turnaround : th.turnaround = th.finish - (w i).arrival
  waiting : th.waiting = th.turnaround - (w i).burst

/-- The state of a scheduler after the ticks of `c`. -/
structure CoreInv (w : Fin n → Thread) (c : Chart n) (s : Sched n) : Prop where
  time : s.time = c.length
  tiles : Tiles 0 s.gantt s.time
  merged : Merged s.gantt
  ticks : ticks s.gantt = c.map (owner w)
  id : ∀ i, (s.t i).id = (w i).id
  burst : ∀ i, (s.t i).burst = (w i).burst
  arrival : ∀ i, (s.t i).arrival = (w i).arrival
  remaining : ∀ i, (s.t i).remaining = (w i).burst - c.count (some i)
  remaining_nonneg : ∀ i, 0 ≤ (s.t i).remaining
  released : Along (Released w) c
  start : ∀ i, (s.t i).start = if some i ∈ c then firstTick c i else -1
  reported : ∀ i, (s.t i).remaining = 0 → Reported w c i (s.threads i)
  done : s.done = (Finset.univ.filter fun i => (s.t i).remaining = 0).card

/-! ### The steps of the machine -/

/-- One idle tick. -/
structure Idled (s s' : Sched n) : Prop where
  t : s'.t = s.t
  threads : s'.threads = s.threads
  done : s'.done = s.done
  gantt : s'.gantt = ganttPush s.gantt (-1) s.time (s.time + 1)
  time : s'.time = s.time + 1

/-- `k` ticks of thread `sel`, at the end of which it may be finished. -/
structure Ran (sel : Fin n) (k : ℕ) (s s' : Sched n) : Prop where
  others : ∀ i ≠ sel, s'.t i = s.t i ∧ s'.threads i = s.threads i
  id : (s'.t sel).id = (s.t sel).id
  burst : (s'.t sel).burst = (s.t sel).burst
  arrival : (s'.t sel).arrival = (s.t sel).arrival
  remaining : (s'.t sel).remaining = (s.t sel).remaining - k
  start : (s'.t sel).start = if (s.t sel).start = -1 then s.time else (s.t sel).start
  gantt : s'.gantt = ganttPush s.gantt (s.t sel).id s.time (s.time + k)
  time : s'.time = s.time + k
  unfinished : (s.t sel).remaining ≠ k → s'.done = s.done
  finished : (s.t sel).remaining = k → s'.done = s.done + 1 ∧ s'.threads sel = s'.t sel ∧
    (s'.t sel).finish = s'.time ∧ (s'.t sel).turnaround = s'.time - (s.t sel).arrival ∧
    (s'.t sel).waiting = (s'.t sel).turnaround - (s.t sel).burst

/-- A round of a loop that sees only the arrivals with `sees`, and the ticks it adds. -/
inductive MachineStep (w : Fin n → Thread) (sees : ℤ → Prop) (s s' : Sched n) :
    Chart n → Prop where
  | idle (h : Idled s s')
    (hidle : ∀ i, sees (w i).arrival → (w i).arrival ≤ s.time → (s.t i).remaining = 0) :
    MachineStep w sees s s' [none]
  | run (sel : Fin n) (k : ℕ) (hk : 0 < k) (hrem : (k : ℤ) ≤ (s.t sel).remaining)
    (harr : (w sel).arrival ≤ s.time) (h : Ran sel k s s') :
    MachineStep w sees s s' (List.replicate k (some sel))

/-! ### Preemptive rounds -/

/-- A thread after `k` ticks from `time`. -/
def Thread.ranFor (th : Thread) (time : ℤ) (k : ℕ) : Thread :=
  { th with
    remaining := th.remaining - k
    start := if th.start = -1 then time else th.start }

/-- The state after `k` ticks of `sel`, which is not finished, with `elog` the log. -/
def Sched.ranFor (s : Sched n) (sel : Fin n) (k : ℕ) (elog : List Event) : Sched n where
  t := update s.t sel ((s.t sel).ranFor s.time k)
  threads := s.threads
  gantt := ganttPush s.gantt (s.t sel).id s.time (s.time + k)
  elog := elog
  time := s.time + k
  done := s.done

/-- The state after the last `k` ticks of `sel`, with `elog` the log. -/
def Sched.ranToEnd (s : Sched n) (sel : Fin n) (k : ℕ) (elog : List Event) : Sched n where
  t := update s.t sel (((s.t sel).ranFor s.time k).finished (s.time + k))
  threads := update s.threads sel (((s.t sel).ranFor s.time k).finished (s.time + k))
  gantt := ganttPush s.gantt (s.t sel).id s.time (s.time + k)
  elog := elog
  time := s.time + k
  done := s.done + 1

theorem Sched.ran_ranFor {s : Sched n} {sel : Fin n} {k : ℕ} (hrem : (s.t sel).remaining ≠ k)
    (elog : List Event) : Ran sel k s (s.ranFor sel k elog) := by
  have hself : (s.ranFor sel k elog).t sel = (s.t sel).ranFor s.time k := update_self ..
  refine ⟨fun i hi => ⟨update_of_ne hi .., rfl⟩, ?_, ?_, ?_, ?_, ?_, rfl, rfl, fun _ => rfl,
    fun heq => absurd heq hrem⟩ <;> rw [hself] <;> rfl

theorem Sched.ran_ranToEnd {s : Sched n} {sel : Fin n} {k : ℕ} (hrem : (s.t sel).remaining = k)
    (elog : List Event) : Ran sel k s (s.ranToEnd sel k elog) := by
  have hself : (s.ranToEnd sel k elog).t sel
      = ((s.t sel).ranFor s.time k).finished (s.time + k) := update_self ..
  refine ⟨fun i hi => ⟨update_of_ne hi .., update_of_ne hi ..⟩, ?_, ?_, ?_, ?_, ?_, rfl, rfl,
    fun hne => absurd hrem hne, fun _ => ⟨rfl, (update_self ..).trans hself.symm, ?_, ?_, ?_⟩⟩ <;>
    rw [hself] <;> rfl

/-! ### Ticks of other threads -/

theorem count_append_replicate_ne {c : Chart n} {x : Option (Fin n)} {i : Fin n}
    (hx : x ≠ some i) (k : ℕ) : (c ++ List.replicate k x).count (some i) = c.count (some i) := by
  rw [List.count_append, List.count_replicate, if_neg (by simpa using hx), Nat.add_zero]

theorem lastTick_append_replicate {c : Chart n} {x : Option (Fin n)} {i : Fin n}
    (hx : x ≠ some i) (k : ℕ) : lastTick (c ++ List.replicate k x) i = lastTick c i := by
  have hnot : some i ∉ List.replicate k x := fun h => hx (List.eq_of_mem_replicate h).symm
  unfold lastTick
  rw [List.reverse_append, List.reverse_replicate, List.idxOf_append_of_notMem hnot,
    List.length_append, List.length_replicate]
  push_cast
  omega

theorem lastTick_append_self {c : Chart n} {i : Fin n} {k : ℕ} (hk : 0 < k) :
    lastTick (c ++ List.replicate k (some i)) i = c.length + k := by
  obtain ⟨m, rfl⟩ := Nat.exists_eq_add_one_of_ne_zero hk.ne'
  unfold lastTick
  rw [List.reverse_append, List.reverse_replicate, List.replicate_succ, List.cons_append,
    List.idxOf_cons_self, List.length_append, List.length_cons, List.length_replicate]
  push_cast
  omega

theorem firstTick_append_of_mem {c d : Chart n} {i : Fin n} (h : some i ∈ c) :
    firstTick (c ++ d) i = firstTick c i := by
  rw [firstTick, firstTick, List.idxOf_append_of_mem h]

theorem Reported.append {w : Fin n → Thread} {c : Chart n} {i : Fin n} {th : Thread}
    (h : Reported w c i th) (hmem : some i ∈ c) {x : Option (Fin n)} (hx : x ≠ some i) (k : ℕ) :
    Reported w (c ++ List.replicate k x) i th where
  id := h.id
  burst := h.burst
  arrival := h.arrival
  start := by rw [firstTick_append_of_mem hmem, h.start]
  finish := by rw [lastTick_append_replicate hx, h.finish]
  turnaround := h.turnaround
  waiting := h.waiting

/-! ### The invariant -/

theorem coreInv_init {w : Fin n → Thread} (hburst : ∀ i, 1 ≤ (w i).burst) :
    CoreInv w [] (Sched.init w) where
  time := rfl
  tiles := rfl
  merged := List.isChain_nil
  ticks := rfl
  id _ := rfl
  burst _ := rfl
  arrival _ := rfl
  remaining i := by simp [Sched.init, copyThreads]
  remaining_nonneg i := by
    have := hburst i
    show 0 ≤ (w i).burst
    omega
  released := along_nil _
  start i := by simp [Sched.init, copyThreads]
  reported i hi := by
    have hzero : (w i).burst = 0 := hi
    have := hburst i
    omega
  done := by
    show 0 = _
    symm
    rw [Finset.card_eq_zero, Finset.filter_eq_empty_iff]
    intro i _ hi
    have hzero : (w i).burst = 0 := hi
    have := hburst i
    omega

section Step

variable {w : Fin n → Thread} {c : Chart n} {s s' : Sched n}

/-- A finished thread has run. -/
theorem CoreInv.mem_of_remaining (h : CoreInv w c s) (hburst : ∀ i, 1 ≤ (w i).burst) {i : Fin n}
    (hi : (s.t i).remaining = 0) : some i ∈ c := by
  apply List.count_pos_iff.mp
  have hcount := h.remaining i
  have := hburst i
  omega

/-- The loop goes on as long as a thread is unfinished. -/
theorem CoreInv.running_iff (h : CoreInv w c s) :
    s.running = true ↔ ∃ i, 0 < (s.t i).remaining := by
  rw [Sched.running, decide_eq_true_iff, h.done, ← not_iff_not]
  push Not
  constructor
  · intro hle i
    have hall : (Finset.univ.filter fun i => (s.t i).remaining = 0) = Finset.univ := by
      apply Finset.eq_univ_of_card
      have hub := Finset.card_le_univ (Finset.univ.filter fun i => (s.t i).remaining = 0)
      rw [Fintype.card_fin] at hub ⊢
      omega
    exact ((Finset.filter_eq_self.mp hall) i (Finset.mem_univ i)).le
  · intro hall
    rw [Finset.filter_true_of_mem fun i _ => le_antisymm (hall i) (h.remaining_nonneg i),
      Finset.card_univ, Fintype.card_fin]

/-- When the loop has returned, all threads are finished. -/
theorem CoreInv.remaining_of_not_running (h : CoreInv w c s) (hdone : s.running = false)
    (i : Fin n) : (s.t i).remaining = 0 := by
  have hnot := h.running_iff.not.mp (Bool.not_eq_true _ ▸ hdone)
  push Not at hnot
  exact le_antisymm (hnot i) (h.remaining_nonneg i)

theorem CoreInv.time_nonneg (h : CoreInv w c s) : 0 ≤ s.time := by
  rw [h.time]
  exact Int.natCast_nonneg _

/-- While the loop goes on and all threads that have arrived are finished, an arrival is still to
come. -/
theorem CoreInv.exists_later (h : CoreInv w c s) (hrun : s.running = true)
    (hidle : ∀ i, (w i).arrival ≤ s.time → (s.t i).remaining = 0) :
    ∃ i, s.time < (w i).arrival := by
  obtain ⟨i, hi⟩ := h.running_iff.mp hrun
  refine ⟨i, ?_⟩
  by_contra hle
  exact hi.ne' (hidle i (not_lt.mp hle))

theorem CoreInv.idle (h : CoreInv w c s) (hburst : ∀ i, 1 ≤ (w i).burst) (hs : Idled s s') :
    CoreInv w (c ++ [none]) s' where
  time := by
    rw [hs.time, h.time, List.length_append]
    simp
  tiles := by
    rw [hs.gantt, hs.time]
    exact ganttPush_tiles h.tiles (by omega) _
  merged := by
    rw [hs.gantt]
    exact ganttPush_merged h.merged ..
  ticks := by
    rw [hs.gantt, ticks_ganttPush h.tiles (by omega), h.ticks, List.map_append]
    simp [owner]
  id i := by rw [hs.t, h.id i]
  burst i := by rw [hs.t, h.burst i]
  arrival i := by rw [hs.t, h.arrival i]
  remaining i := by
    rw [hs.t, h.remaining i]
    simp
  remaining_nonneg i := by
    rw [hs.t]
    exact h.remaining_nonneg i
  released := h.released.concat fun i hi => absurd hi (by simp)
  start i := by
    rw [hs.t, h.start i]
    by_cases hmem : some i ∈ c
    · rw [if_pos hmem, if_pos (List.mem_append_left _ hmem), firstTick_append_of_mem hmem]
    · rw [if_neg hmem, if_neg (by simpa using hmem)]
  reported i hi := by
    rw [hs.t] at hi
    rw [hs.threads]
    exact (h.reported i hi).append (h.mem_of_remaining hburst hi) (by simp) 1
  done := by rw [hs.done, hs.t, h.done]

section Run

variable (h : CoreInv w c s) {sel : Fin n} {k : ℕ} (hk : 0 < k) (hs : Ran sel k s s')

include h hk hs

theorem CoreInv.run_start_self :
    (s'.t sel).start = firstTick (c ++ List.replicate k (some sel)) sel := by
  rw [hs.start, h.start sel]
  by_cases hmem : some sel ∈ c
  · have hnonneg : firstTick c sel ≠ -1 := by
      unfold firstTick
      omega
    rw [if_pos hmem, if_neg hnonneg, firstTick_append_of_mem hmem]
  · -- the first tick of `sel` is the current time
    obtain ⟨m, rfl⟩ := Nat.exists_eq_add_one_of_ne_zero hk.ne'
    rw [if_neg hmem, if_pos rfl, firstTick, List.idxOf_append_of_notMem hmem,
      List.replicate_succ, List.idxOf_cons_self, h.time]
    rfl

theorem CoreInv.run_start (i : Fin n) :
    (s'.t i).start = if some i ∈ c ++ List.replicate k (some sel) then
      firstTick (c ++ List.replicate k (some sel)) i else -1 := by
  by_cases hi : i = sel
  · have hmem : some sel ∈ c ++ List.replicate k (some sel) := by
      rw [List.mem_append, List.mem_replicate]
      exact Or.inr ⟨hk.ne', rfl⟩
    rw [hi, if_pos hmem, h.run_start_self hk hs]
  · rw [(hs.others i hi).1, h.start i]
    by_cases hmem : some i ∈ c
    · rw [if_pos hmem, if_pos (List.mem_append_left _ hmem), firstTick_append_of_mem hmem]
    · have hnot : some i ∉ c ++ List.replicate k (some sel) := by
        rw [List.mem_append, not_or]
        exact ⟨hmem, fun hin => hi (Option.some.inj (List.eq_of_mem_replicate hin))⟩
      rw [if_neg hmem, if_neg hnot]

/-- A thread that finishes with this run is reported with it, one that was finished stays so. -/
theorem CoreInv.run_reported (hburst : ∀ i, 1 ≤ (w i).burst) {i : Fin n}
    (hi' : (s'.t i).remaining = 0) :
    Reported w (c ++ List.replicate k (some sel)) i (s'.threads i) := by
  by_cases hi : i = sel
  · rw [hi, hs.remaining] at hi'
    -- `sel` ran for all it had left, so this round wrote its slot of `threads`
    obtain ⟨-, hth, hfinish, hturn, hwait⟩ := hs.finished (by omega)
    rw [hi, hth]
    refine ⟨by rw [hs.id, h.id sel], by rw [hs.burst, h.burst sel],
      by rw [hs.arrival, h.arrival sel], h.run_start_self hk hs, ?_, ?_, ?_⟩
    · rw [hfinish, lastTick_append_self hk, hs.time, h.time]
    · rw [hturn, hfinish, h.arrival sel]
    · rw [hwait, h.burst sel]
  · rw [(hs.others i hi).1] at hi'
    rw [(hs.others i hi).2]
    exact (h.reported i hi').append (h.mem_of_remaining hburst hi')
      (fun heq => hi (Option.some.inj heq).symm) k

/-- One more thread is finished exactly if `sel` is. -/
theorem CoreInv.run_done (hrem : (k : ℤ) ≤ (s.t sel).remaining) :
    s'.done = (Finset.univ.filter fun i => (s'.t i).remaining = 0).card := by
  -- only the remaining time of `sel` changes: the finished threads are those that were finished
  -- before and, if it has run to its end, `sel`
  have hold : (s.t sel).remaining ≠ 0 := by omega
  by_cases hfin : (s.t sel).remaining = k
  · have hset : (Finset.univ.filter fun i => (s'.t i).remaining = 0)
        = insert sel (Finset.univ.filter fun i => (s.t i).remaining = 0) := by
      ext i
      rw [Finset.mem_insert, Finset.mem_filter, Finset.mem_filter]
      by_cases hi : i = sel
      · have hzero : (s'.t sel).remaining = 0 := by
          rw [hs.remaining]
          omega
        simp [hi, hzero]
      · simp [hi, (hs.others i hi).1]
    rw [(hs.finished hfin).1, hset, Finset.card_insert_of_notMem (by simp [hold]), h.done]
  · have hset : (Finset.univ.filter fun i => (s'.t i).remaining = 0)
        = Finset.univ.filter fun i => (s.t i).remaining = 0 := by
      ext i
      rw [Finset.mem_filter, Finset.mem_filter]
      by_cases hi : i = sel
      · have hnew : (s'.t sel).remaining ≠ 0 := by
          rw [hs.remaining]
          omega
        simp [hi, hold, hnew]
      · simp [(hs.others i hi).1]
    rw [hs.unfinished hfin, hset, h.done]

theorem CoreInv.run (hburst : ∀ i, 1 ≤ (w i).burst) (hrem : (k : ℤ) ≤ (s.t sel).remaining)
    (harr : (w sel).arrival ≤ s.time) : CoreInv w (c ++ List.replicate k (some sel)) s' where
  time := by
    rw [hs.time, h.time, List.length_append, List.length_replicate]
    push_cast
    rfl
  tiles := by
    rw [hs.gantt, hs.time]
    exact ganttPush_tiles h.tiles (by omega) _
  merged := by
    rw [hs.gantt]
    exact ganttPush_merged h.merged ..
  ticks := by
    have hlen : (s.time + k - s.time).toNat = k := by omega
    rw [hs.gantt, ticks_ganttPush h.tiles (by omega), h.ticks, List.map_append,
      List.map_replicate, hlen, h.id sel]
    rfl
  id i := by
    by_cases hi : i = sel
    · rw [hi, hs.id, h.id sel]
    · rw [(hs.others i hi).1, h.id i]
  burst i := by
    by_cases hi : i = sel
    · rw [hi, hs.burst, h.burst sel]
    · rw [(hs.others i hi).1, h.burst i]
  arrival i := by
    by_cases hi : i = sel
    · rw [hi, hs.arrival, h.arrival sel]
    · rw [(hs.others i hi).1, h.arrival i]
  remaining i := by
    by_cases hi : i = sel
    · rw [hi, hs.remaining, h.remaining sel, List.count_append, List.count_replicate_self]
      push_cast
      omega
    · have hne : some sel ≠ some i := fun heq => hi (Option.some.inj heq).symm
      rw [(hs.others i hi).1, h.remaining i, count_append_replicate_ne hne]
  remaining_nonneg i := by
    by_cases hi : i = sel
    · rw [hi, hs.remaining]
      omega
    · rw [(hs.others i hi).1]
      exact h.remaining_nonneg i
  released := by
    apply h.released.replicate k
    intro m _ i hi
    rw [← Option.some.inj hi, List.length_append]
    have := h.time
    push_cast
    omega
  start := h.run_start hk hs
  reported _ hi := h.run_reported hk hs hburst hi
  done := h.run_done hk hs hrem

end Run

/-- One round of a loop, on the invariant. -/
theorem CoreInv.step {sees : ℤ → Prop} {b : Chart n} (h : CoreInv w c s)
    (hburst : ∀ i, 1 ≤ (w i).burst) (hs : MachineStep w sees s s' b) : CoreInv w (c ++ b) s' := by
  cases hs with
  | idle hs _ => exact h.idle hburst hs
  | run sel k hk hrem harr hs => exact h.run hk hs hburst hrem harr

/-- One round of a loop that sees all arrivals, on the idle ticks. -/
theorem CoreInv.conserving_step {sees : ℤ → Prop} {b : Chart n} (h : CoreInv w c s)
    (hc : Along (Conserving w) c) (hsees : ∀ i, sees (w i).arrival)
    (hs : MachineStep w sees s s' b) : Along (Conserving w) (c ++ b) := by
  cases hs with
  | idle _ hidle =>
    apply hc.concat
    intro _ i hi
    have hrem := hidle i (hsees i) (by rw [h.time]; exact hi)
    have := h.remaining i
    omega
  | run sel k _ _ _ _ => exact hc.replicate k fun m _ hnone => absurd hnone (by simp)

/-- A round takes time. -/
theorem MachineStep.time_lt {sees : ℤ → Prop} {b : Chart n} (hs : MachineStep w sees s s' b) :
    s.time < s'.time := by
  cases hs with
  | idle h _ =>
    rw [h.time]
    omega
  | run sel k hk _ _ h =>
    rw [h.time]
    omega

/-- A round with an idle tick does not finish a thread. -/
theorem MachineStep.running_of_idle {sees : ℤ → Prop} {b : Chart n} (hs : MachineStep w sees s s' b)
    (hrun : s.running = true) (hidle : (c ++ b).getLast? = some none) : s'.running = true := by
  cases hs with
  | idle hs _ =>
    unfold Sched.running at hrun ⊢
    rw [hs.done]
    exact hrun
  | run sel k hk _ _ _ =>
    obtain ⟨m, rfl⟩ := Nat.exists_eq_add_one_of_ne_zero hk.ne'
    rw [List.replicate_succ', ← List.append_assoc, List.getLast?_concat] at hidle
    simp at hidle

/-- The ticks of a round are determined by the states before and after it. -/
theorem MachineStep.ticks_of_idled {sees : ℤ → Prop} {b : Chart n}
    (hs : MachineStep w sees s s' b) (h : Idled s s') : b = [none] := by
  cases hs with
  | idle _ _ => rfl
  | run sel k hk _ _ hran =>
    have hrem := hran.remaining
    rw [h.t] at hrem
    omega

theorem MachineStep.ticks_of_ran {sees : ℤ → Prop} {b : Chart n}
    (hs : MachineStep w sees s s' b) {sel : Fin n} {k : ℕ} (h : Ran sel k s s') (hk : 0 < k) :
    b = List.replicate k (some sel) := by
  have hrem := h.remaining
  cases hs with
  | idle hidle _ =>
    rw [hidle.t] at hrem
    omega
  | run sel' k' _ _ _ hran =>
    have hsel : sel = sel' := by
      by_contra hne
      rw [(hran.others sel hne).1] at hrem
      omega
    have htime := h.time.symm.trans hran.time
    have hk' : k = k' := by omega
    rw [hsel, hk']

end Step

/-! ### Results -/

/-- The outputs of a scheduler are those of the chart `c`. -/
structure Final (w : Fin n → Thread) (c : Chart n) (out : Output n) : Prop where
  tiles : Tiles 0 out.gantt c.length
  merged : Merged out.gantt
  ticks : ticks out.gantt = c.map (owner w)
  released : Along (Released w) c
  complete : ∀ i, (c.count (some i) : ℤ) = (w i).burst
  reported : ∀ i, Reported w c i (out.threads i)
  stats : out.stats = computeStats out.threads
  ends : c.getLast? ≠ some none

theorem CoreInv.final {w : Fin n → Thread} {c : Chart n} {s : Sched n} (h : CoreInv w c s)
    (hall : ∀ i, (s.t i).remaining = 0) (hends : c.getLast? ≠ some none) :
    Final w c s.output where
  tiles := h.time ▸ h.tiles
  merged := h.merged
  ticks := h.ticks
  released := h.released
  complete i := by
    have := h.remaining i
    have := hall i
    omega
  reported i := h.reported i (hall i)
  stats := rfl
  ends := hends

/-! ### Loops -/

/-- A loop from `s₀` each of whose rounds is a step of the machine. -/
structure Simulation (w : Fin n → Thread) {σ : Type} (core : σ → Sched n) (body : σ → σ)
    (s₀ : σ) where
  /-- The bookkeeping of the algorithm after the ticks of a chart. -/
  Inv : Chart n → σ → Prop
  /-- The arrivals the algorithm sees. -/
  sees : ℤ → Prop
  core_init : core s₀ = Sched.init w
  init : Inv [] s₀
  step : ∀ {c : Chart n} {s : σ}, CoreInv w c (core s) → Inv c s → (core s).running = true →
    ∃ b, MachineStep w sees (core s) (core (body s)) b ∧ Inv (c ++ b) (body s)

/-- A simulation with one more invariant `P`, which the ticks of every round keep. -/
def Simulation.also {w : Fin n → Thread} {σ : Type} {core : σ → Sched n} {body : σ → σ} {s₀ : σ}
    (S : Simulation w core body s₀) (P : Chart n → σ → Prop) (hinit : P [] s₀)
    (hstep : ∀ {c s b}, CoreInv w c (core s) → S.Inv c s → (core s).running = true → P c s →
      MachineStep w S.sees (core s) (core (body s)) b → P (c ++ b) (body s)) :
    Simulation w core body s₀ where
  Inv c s := S.Inv c s ∧ P c s
  sees := S.sees
  core_init := S.core_init
  init := ⟨S.init, hinit⟩
  step {c s} hcore hinv hrun := by
    obtain ⟨b, hb, hinv'⟩ := S.step hcore hinv.1 hrun
    exact ⟨b, hb, hinv', hstep hcore hinv.1 hrun hinv.2 hb⟩

namespace Simulation

variable {w : Fin n → Thread} {σ : Type} {core : σ → Sched n} {body : σ → σ} {s₀ : σ}
  (S : Simulation w core body s₀) (hburst : ∀ i, 1 ≤ (w i).burst)

include hburst

/-- What holds in every state of the loop.  A chart that ends with an idle tick is that of a loop
that goes on. -/
theorem invariant {s : σ} (h : LoopState (fun s => (core s).running) body s₀ s) :
    ∃ c, CoreInv w c (core s) ∧ S.Inv c s ∧
      ((∀ i, S.sees (w i).arrival) → Along (Conserving w) c) ∧
      (c.getLast? = some none → (core s).running = true) := by
  induction h with
  | start =>
    refine ⟨[], ?_, S.init, fun _ => along_nil _, by simp⟩
    rw [S.core_init]
    exact coreInv_init hburst
  | next _ hc ih =>
    obtain ⟨c, hcore, hinv, hcons, -⟩ := ih
    obtain ⟨b, hstep, hinv'⟩ := S.step hcore hinv hc
    exact ⟨c ++ b, hcore.step hburst hstep, hinv',
      fun hsees => hcore.conserving_step (hcons hsees) hsees hstep, hstep.running_of_idle hc⟩

/-- An invariant of the rounds holds in every state of the loop. -/
theorem along {P : σ → Prop} (hinit : P s₀)
    (hstep : ∀ {c s}, LoopState (fun s => (core s).running) body s₀ s → CoreInv w c (core s) →
      S.Inv c s → (core s).running = true → P s → P (body s))
    {s : σ} (h : LoopState (fun s => (core s).running) body s₀ s) : P s := by
  induction h with
  | start => exact hinit
  | next hs hc ih =>
    obtain ⟨c, hcore, hinv, -, -⟩ := S.invariant hburst hs
    exact hstep hs hcore hinv hc ih

/-- The work left, and the time left until the last arrival. -/
def measure (w : Fin n → Thread) (s : Sched n) : ℕ :=
  ∑ i, ((s.t i).remaining).toNat + (∑ i, (w i).arrival.toNat - s.time).toNat

omit hburst in
theorem measure_lt {c : Chart n} {s s' : Sched n} {sees : ℤ → Prop} {b : Chart n}
    (h : CoreInv w c s) (hrun : s.running = true) (hsees : ∀ i, sees (w i).arrival)
    (hs : MachineStep w sees s s' b) : measure w s' < measure w s := by
  unfold measure
  cases hs with
  | idle hs hidle =>
    obtain ⟨i, harr⟩ := h.exists_later hrun fun i => hidle i (hsees i)
    have hsum : (w i).arrival.toNat ≤ ∑ i, (w i).arrival.toNat :=
      Finset.single_le_sum (f := fun i => (w i).arrival.toNat) (fun _ _ => Nat.zero_le _)
        (Finset.mem_univ i)
    rw [hs.t, hs.time]
    omega
  | run sel k hk hrem _ hs =>
    have hlt : ∑ i, ((s'.t i).remaining).toNat < ∑ i, ((s.t i).remaining).toNat := by
      refine Finset.sum_lt_sum (fun i _ => ?_) ⟨sel, Finset.mem_univ sel, ?_⟩
      · by_cases hi : i = sel
        · rw [hi, hs.remaining]
          omega
        · rw [(hs.others i hi).1]
      · rw [hs.remaining]
        omega
    rw [hs.time]
    omega

/-- **The loop returns.** -/
theorem terminates (hsees : ∀ i, S.sees (w i).arrival) :
    ∃ fuel s, whileLoop (fun s => (core s).running) body fuel s₀ = some s := by
  apply exists_whileLoop (fun s => measure w (core s))
  intro s hs hrun
  obtain ⟨c, hcore, hinv, -, -⟩ := S.invariant hburst hs
  obtain ⟨b, hstep, -⟩ := S.step hcore hinv hrun
  exact measure_lt hcore hrun hsees hstep

/-- What holds when the loop has returned. -/
theorem final {fuel : ℕ} {s : σ}
    (h : whileLoop (fun s => (core s).running) body fuel s₀ = some s) :
    ∃ c, CoreInv w c (core s) ∧ Final w c (core s).output ∧ S.Inv c s ∧
      ((∀ i, S.sees (w i).arrival) → Along (Conserving w) c) := by
  obtain ⟨hs, hdone⟩ := loopState_of_whileLoop h
  obtain ⟨c, hcore, hinv, hcons, hends⟩ := S.invariant hburst hs
  refine ⟨c, hcore, hcore.final (hcore.remaining_of_not_running hdone) fun hidle => ?_, hinv,
    hcons⟩
  exact absurd ((hends hidle).symm.trans hdone) (by decide)

end Simulation

end OsLabs.Scheduling
