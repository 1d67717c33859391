import OsLabs.Scheduling.Equiv.Schedule
import OsLabs.Scheduling.Order

/-!
# What the schedulers run

The selections are made from the locals of a scheduler.  Here they are read off the chart: at every
tick FIFO runs the thread that arrived first (`FirstArrived`) and SRTF the one with the least work
left (`LeastLeft`), among the arrived unfinished ones and with the smallest index among equals; SJF
starts the one with the smallest burst (`ShortestStart`).  FIFO and SRTF so follow a priority, and a
work-conserving chart that follows a priority is unique (`Final.chart_eq`).
-/

namespace OsLabs.Scheduling

open Function UnitSchedule

variable {n : ℕ} {w : Fin n → Thread} {c : Chart n}

/-! ### Policies -/

/-- The running thread is the first of the arrived unfinished ones to have arrived. -/
def FirstArrived (w : Fin n → Thread) (c : Chart n) (x : Option (Fin n)) : Prop :=
  ∀ i, x = some i → ∀ j, j ≠ i → (w j).arrival ≤ c.length →
    (c.count (some j) : ℤ) < (w j).burst → Before w i j

/-- The running thread has the least work left of the arrived unfinished ones, and the smallest
index among equals. -/
def LeastLeft (w : Fin n → Thread) (c : Chart n) (x : Option (Fin n)) : Prop :=
  ∀ i, x = some i → ∀ j, (w j).arrival ≤ c.length → (c.count (some j) : ℤ) < (w j).burst →
    (w i).burst - c.count (some i) < (w j).burst - c.count (some j) ∨
      ((w i).burst - c.count (some i) = (w j).burst - c.count (some j) ∧ i ≤ j)

/-- The thread that starts has the smallest burst of the arrived threads that have not started, and
the smallest index among equals. -/
def ShortestStart (w : Fin n → Thread) (c : Chart n) (x : Option (Fin n)) : Prop :=
  ∀ i, x = some i → some i ∉ c → ∀ j, (w j).arrival ≤ c.length → some j ∉ c →
    (w i).burst < (w j).burst ∨ ((w i).burst = (w j).burst ∧ i ≤ j)

/-- A thread that has started runs only after a tick of its own. -/
def Unbroken (c : Chart n) (x : Option (Fin n)) : Prop :=
  ∀ i, x = some i → some i ∈ c → c.getLast? = some (some i)

/-! ### The rounds -/

section Rounds

/-- While `sel` runs, the work of the other threads stays as it is. -/
theorem count_while_running {sel j : Fin n} (hj : j ≠ sel) (m : ℕ) :
    (c ++ List.replicate m (some sel)).count (some j) = c.count (some j) :=
  count_append_replicate_ne (fun heq => hj (Option.some.inj heq).symm) m

/-- An arrived unfinished thread is ready. -/
theorem BatchInv.ready_of_unfinished {s : FlagState n} (hinv : BatchInv c s)
    (hcore : CoreInv w c s.toSched) {j : Fin n} (harr : (w j).arrival ≤ c.length)
    (hleft : (c.count (some j) : ℤ) < (w j).burst) : s.ready j = true := by
  by_contra hnot
  have hdone := hinv.finished_of_not_ready hcore (by rw [hcore.time]; exact harr)
    (Bool.not_eq_true _ ▸ hnot)
  have := hcore.remaining j
  omega

/-- The ticks of a round of FIFO. -/
theorem firstArrived_step {s : FlagState n} {b : Chart n} {sees : ℤ → Prop}
    (hburst : ∀ i, 1 ≤ (w i).burst) (hsees : ∀ i, fifoSees (w i).arrival)
    (hcore : CoreInv w c s.toSched) (hinv : BatchInv c s) (h : Along (FirstArrived w) c)
    (hs : MachineStep w sees s.toSched (fifoBody s).toSched b) :
    Along (FirstArrived w) (c ++ b) := by
  refine h.round (fifoBody_ticks hcore hinv hburst hs) (fun i hi => absurd hi (by simp)) ?_
  intro sel hsel m i hi j hji harr hleft
  obtain rfl := Option.some.inj hi
  have hspec := fifoSelect_spec s
  rw [hsel] at hspec
  rw [count_while_running hji] at hleft
  have hnow := (fifoSelect_some hcore hsel).2
  rw [hcore.time] at hnow
  rcases lt_or_ge (c.length : ℤ) (w j).arrival with hlate | hearly
  · -- `j` arrives while the thread runs
    exact Or.inl (hnow.trans_lt hlate)
  · have hok : s.readyFifo j = true := by
      rw [FlagState.readyFifo, Bool.and_eq_true, decide_eq_true_iff, hcore.arrival]
      exact ⟨hinv.ready_of_unfinished hcore hearly hleft, hsees j⟩
    have hlex := hspec.lex (List.pairwise_lt_finRange n) (List.mem_finRange j) hok
    rw [hcore.arrival, hcore.arrival] at hlex
    exact hlex.imp_right fun ⟨heq, hle⟩ => ⟨heq, lt_of_le_of_ne hle hji.symm⟩

/-- The ticks of a round of SJF: the thread that starts. -/
theorem shortestStart_step {s : FlagState n} {b : Chart n} {sees : ℤ → Prop}
    (hburst : ∀ i, 1 ≤ (w i).burst) (hcore : CoreInv w c s.toSched) (hinv : BatchInv c s)
    (h : Along (ShortestStart w) c) (hs : MachineStep w sees s.toSched (sjfBody s).toSched b) :
    Along (ShortestStart w) (c ++ b) := by
  refine h.round (sjfBody_ticks hcore hinv hburst hs) (fun i hi => absurd hi (by simp)) ?_
  intro sel hsel m i hi hfresh j harr hnot
  obtain rfl := Option.some.inj hi
  have hspec := sjfSelect_spec s
  rw [hsel] at hspec
  -- only the first tick is a start
  have hm : m = 0 := by
    by_contra hne
    exact hfresh (List.mem_append_right _ (List.mem_replicate.mpr ⟨hne, rfl⟩))
  rw [hm, List.replicate_zero, List.append_nil] at harr hnot
  have hleft : (c.count (some j) : ℤ) < (w j).burst := by
    have := hburst j
    rw [List.count_eq_zero.mpr hnot]
    omega
  have hlex := hspec.lex (List.pairwise_lt_finRange n) (List.mem_finRange j)
    (hinv.ready_of_unfinished hcore harr hleft)
  rwa [hcore.burst, hcore.burst] at hlex

/-- The ticks of a round of SJF: the thread runs through. -/
theorem unbroken_step {s : FlagState n} {b : Chart n} {sees : ℤ → Prop}
    (hburst : ∀ i, 1 ≤ (w i).burst) (hcore : CoreInv w c s.toSched) (hinv : BatchInv c s)
    (h : Along Unbroken c) (hs : MachineStep w sees s.toSched (sjfBody s).toSched b) :
    Along Unbroken (c ++ b) := by
  refine h.round (sjfBody_ticks hcore hinv hburst hs) (fun i hi => absurd hi (by simp)) ?_
  intro sel hsel m i hi hmem
  obtain rfl := Option.some.inj hi
  cases m with
  | zero =>
    -- the first tick of a thread that had not run
    rw [List.replicate_zero, List.append_nil] at hmem
    exact absurd hmem (hinv.fresh sel (sjfSelect_some hcore hsel).1)
  | succ m => rw [List.replicate_succ', ← List.append_assoc, List.getLast?_concat]

/-- The ticks of a round of SJF, when all threads arrive at once: the thread that runs through has
the least work left all the time. -/
theorem leastLeft_step_sjf {s : FlagState n} {b : Chart n} {sees : ℤ → Prop}
    (hburst : ∀ i, 1 ≤ (w i).burst) (hsame : ∀ i j, (w i).arrival = (w j).arrival)
    (hcore : CoreInv w c s.toSched) (hinv : BatchInv c s) (h : Along (LeastLeft w) c)
    (hs : MachineStep w sees s.toSched (sjfBody s).toSched b) : Along (LeastLeft w) (c ++ b) := by
  refine h.round (sjfBody_ticks hcore hinv hburst hs) (fun i hi => absurd hi (by simp)) ?_
  intro sel hsel m i hi j _ hleft
  obtain rfl := Option.some.inj hi
  have hspec := sjfSelect_spec s
  rw [hsel] at hspec
  by_cases hji : j = sel
  · exact Or.inr ⟨by rw [hji], hji.ge⟩
  · rw [count_while_running hji] at hleft ⊢
    obtain ⟨hflag, hnow⟩ := sjfSelect_some hcore hsel
    rw [hcore.time, hsame sel j] at hnow
    have hready := hinv.ready_of_unfinished hcore hnow hleft
    have hlex := hspec.lex (List.pairwise_lt_finRange n) (List.mem_finRange j) hready
    rw [hcore.burst, hcore.burst] at hlex
    -- neither thread had run before this round
    have hself := List.count_eq_zero.mpr (hinv.fresh sel hflag)
    have hother := List.count_eq_zero.mpr (hinv.fresh j (ready_iff.mp hready).1)
    rw [List.count_append, List.count_replicate_self, hself, hother]
    omega

/-- The tick of a round of SRTF. -/
theorem leastLeft_step_srtf {s : SrtfState n} {b : Chart n} {sees : ℤ → Prop}
    (hcore : CoreInv w c s.toSched) (hinv : SrtfInv w c s) (h : Along (LeastLeft w) c)
    (hs : MachineStep w sees s.toSched (srtfBody s).toSched b) : Along (LeastLeft w) (c ++ b) := by
  rw [srtfBody_ticks hcore hs]
  apply h.concat
  intro i hi j harr hleft
  have hspec := srtfSelect_spec s.toFlagState
  rw [hi] at hspec
  have hrem := hcore.remaining j
  have hready : s.ready j = true := by
    refine ready_iff.mpr ⟨?_, by rw [hcore.arrival j, hcore.time]; exact harr⟩
    rw [← Bool.not_eq_true, hinv.flag j]
    omega
  have hlex := hspec.lex (List.pairwise_lt_finRange n) (List.mem_finRange j) hready
  rwa [hcore.remaining, hcore.remaining] at hlex

end Rounds

/-! ### The runs -/

section Runs

variable {fuel : ℕ} {out : Output n}

/-- FIFO runs the thread that arrived first. -/
theorem schedulerFifo_firstArrived (hburst : ∀ i, 1 ≤ (w i).burst)
    (hsees : ∀ i, fifoSees (w i).arrival) (h : schedulerFifo fuel w = some out) :
    ∃ c, Final w c out ∧ Along (Conserving w) c ∧ Along (FirstArrived w) c := by
  obtain ⟨s, hloop, ⟨⟩⟩ := Option.bind_eq_some_iff.mp h
  let S := (fifoSimulation w hburst).also (fun c _ => Along (FirstArrived w) c) (along_nil _)
    fun hcore hinv _ ih hs => firstArrived_step hburst hsees hcore hinv ih hs
  obtain ⟨c, -, hfinal, hinv, hcons⟩ := S.final hburst hloop
  exact ⟨c, hfinal.arrivals _ _, hcons hsees, hinv.2⟩

/-- SJF starts the shortest thread and runs it through. -/
theorem schedulerSjf_shortestStart (hburst : ∀ i, 1 ≤ (w i).burst)
    (h : schedulerSjf fuel w = some out) :
    ∃ c, Final w c out ∧ Along (Conserving w) c ∧ Along (ShortestStart w) c ∧
      Along Unbroken c := by
  obtain ⟨s, hloop, ⟨⟩⟩ := Option.bind_eq_some_iff.mp h
  let S := ((sjfSimulation w hburst).also (fun c _ => Along (ShortestStart w) c) (along_nil _)
    fun hcore hinv _ ih hs => shortestStart_step hburst hcore hinv ih hs).also
    (fun c _ => Along Unbroken c) (along_nil _)
    fun hcore hinv _ ih hs => unbroken_step hburst hcore hinv.1 ih hs
  obtain ⟨c, -, hfinal, hinv, hcons⟩ := S.final hburst hloop
  exact ⟨c, hfinal, hcons fun _ => trivial, hinv.1.2, hinv.2⟩

/-- When all threads arrive at once, SJF runs the thread with the least work left. -/
theorem schedulerSjf_leastLeft (hburst : ∀ i, 1 ≤ (w i).burst)
    (hsame : ∀ i j, (w i).arrival = (w j).arrival) (h : schedulerSjf fuel w = some out) :
    ∃ c, Final w c out ∧ Along (Conserving w) c ∧ Along (LeastLeft w) c := by
  obtain ⟨s, hloop, ⟨⟩⟩ := Option.bind_eq_some_iff.mp h
  let S := (sjfSimulation w hburst).also (fun c _ => Along (LeastLeft w) c) (along_nil _)
    fun hcore hinv _ ih hs => leastLeft_step_sjf hburst hsame hcore hinv ih hs
  obtain ⟨c, -, hfinal, hinv, hcons⟩ := S.final hburst hloop
  exact ⟨c, hfinal, hcons fun _ => trivial, hinv.2⟩

/-- SRTF runs the thread with the least work left. -/
theorem schedulerSrtf_leastLeft (hburst : ∀ i, 1 ≤ (w i).burst)
    (h : schedulerSrtf fuel w = some out) :
    ∃ c, Final w c out ∧ Along (Conserving w) c ∧ Along (LeastLeft w) c := by
  obtain ⟨s, hloop, ⟨⟩⟩ := Option.bind_eq_some_iff.mp h
  let S := (srtfSimulation w hburst).also (fun c _ => Along (LeastLeft w) c) (along_nil _)
    fun hcore hinv _ ih hs => leastLeft_step_srtf hcore hinv ih hs
  obtain ⟨c, -, hfinal, hinv, hcons⟩ := S.final hburst hloop
  exact ⟨c, hfinal, hcons fun _ => trivial, hinv.2⟩

end Runs

/-! ### Charts that follow a priority -/

theorem followsPriority_of_firstArrived (h : Along (FirstArrived w) c) :
    FollowsPriority (fun _ => Before w) (release w) (need w) c.sched := by
  intro t i hrun j hji hleft
  have ht := Chart.lt_of_sched hrun
  have hget := Chart.sched_of_lt ht
  rw [hrun] at hget
  have hlen : (c.take t).length = t := List.length_take_of_le ht.le
  unfold left release need at hleft
  rw [work_sched] at hleft
  split at hleft
  · rename_i harr
    exact h t _ hget i rfl j hji (by omega) (by omega)
  · omega

/-- The work left decides, then the index. -/
def LessLeft (α : Fin n → ℕ) (i j : Fin n) : Prop := α i < α j ∨ (α i = α j ∧ i < j)

theorem followsPriority_of_leastLeft {out : Output n} (hfinal : Final w c out)
    (h : Along (LeastLeft w) c) : FollowsPriority LessLeft (release w) (need w) c.sched := by
  intro t i hrun j hji hleft
  have ht := Chart.lt_of_sched hrun
  have hget := Chart.sched_of_lt ht
  rw [hrun] at hget
  have hlen : (c.take t).length = t := List.length_take_of_le ht.le
  have hself := hfinal.feasible.released t i hrun
  unfold LessLeft left release need at *
  rw [work_sched] at hleft ⊢
  rw [work_sched, if_pos hself]
  split at hleft
  · rename_i harr
    rw [if_pos harr]
    have hlex := h t _ hget i rfl j (by omega) (by omega)
    have hne : i ≠ j := hji.symm
    rcases hlex with hlt | ⟨heq, hle⟩
    · exact Or.inl (by omega)
    · exact Or.inr ⟨by omega, lt_of_le_of_ne hle hne⟩
  · omega

section Unique

/-- Charts that are the same schedule are the same. -/
theorem Chart.eq_of_sched {c c' : Chart n} (hends : c.getLast? ≠ some none)
    (hends' : c'.getLast? ≠ some none) (hsched : ∀ t, c.sched t = c'.sched t) : c = c' := by
  have hlen : c.length = c'.length :=
    le_antisymm (Chart.length_le hends fun t => by rw [hsched t])
      (Chart.length_le hends' fun t => by rw [hsched t])
  apply List.ext_getElem?
  intro t
  rcases Nat.lt_or_ge t c.length with ht | ht
  · rw [Chart.sched_of_lt ht, Chart.sched_of_lt (hlen ▸ ht), hsched t]
  · rw [List.getElem?_eq_none ht, List.getElem?_eq_none (hlen ▸ ht)]

variable {c' : Chart n} {out out' : Output n} (h : Final w c out) (h' : Final w c' out')

include h h'

/-- **Charts that follow the same priority are the same.** -/
theorem Final.chart_eq {prec : (Fin n → ℕ) → Fin n → Fin n → Prop}
    (hasymm : ∀ α i j, prec α i j → ¬prec α j i)
    (hc : Along (Conserving w) c) (hp : FollowsPriority prec (release w) (need w) c.sched)
    (hc' : Along (Conserving w) c') (hp' : FollowsPriority prec (release w) (need w) c'.sched) :
    c = c' :=
  Chart.eq_of_sched h.ends h'.ends (eq_of_followsPriority hasymm h.feasible
    (h.workConserving hc) hp h'.feasible (h'.workConserving hc') hp')

end Unique

/-- The outputs that a chart determines. -/
structure SameOutputs (out out' : Output n) : Prop where
  gantt : out.gantt = out'.gantt
  start : ∀ i, (out.threads i).start = (out'.threads i).start
  finish : ∀ i, (out.threads i).finish = (out'.threads i).finish
  waiting : ∀ i, (out.threads i).waiting = (out'.threads i).waiting
  turnaround : ∀ i, (out.threads i).turnaround = (out'.threads i).turnaround

theorem Final.sameOutputs {out out' : Output n} (h : Final w c out) (h' : Final w c out') :
    SameOutputs out out' where
  gantt := gantt_eq h.tiles h.merged h'.tiles h'.merged (h.ticks.trans h'.ticks.symm)
  start i := (h.reported i).start.trans (h'.reported i).start.symm
  finish i := (h.reported i).finish.trans (h'.reported i).finish.symm
  waiting i := by
    rw [h.waiting_eq, h'.waiting_eq, h.turnaround_eq, h'.turnaround_eq, (h.reported i).finish,
      (h'.reported i).finish]
  turnaround i := by
    rw [h.turnaround_eq, h'.turnaround_eq, (h.reported i).finish, (h'.reported i).finish]

end OsLabs.Scheduling
