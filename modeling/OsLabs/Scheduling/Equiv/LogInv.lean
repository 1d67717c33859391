import OsLabs.Scheduling.Equiv.Events
import Mathlib.Data.List.Basic

/-!
# Faithful event logs

A log is faithful (`FaithfulLog`) when its times do not decrease, every thread arrives once, at its
arrival, and completes once, at its finish, and no event of a thread comes before its arrival.  The
schedulers keep `LogInv`: the arrivals up to some horizon have been logged, each once, and every
other event is of a thread that has arrived.  The two ways in which they extend the log are an
interval of arrivals that starts right after the horizon (`LogInv.arrivals`) and an event of a
thread below the horizon (`LogInv.concat`).
-/

namespace OsLabs.Scheduling

open Function

variable {n : ℕ}

def Event.isArrived (e : Event) : Bool :=
  match e.message with
  | .arrived _ _ => true
  | _ => false

def Event.isCompleted (e : Event) : Bool :=
  match e.message with
  | .completed _ => true
  | _ => false

/-- The log of a run is faithful. -/
structure FaithfulLog (w : Fin n → Thread) (out : Output n) : Prop where
  sorted : out.elog.Pairwise fun e e' => e.time ≤ e'.time
  /-- Exactly one `Arrived` event for each thread, with its arrival time. -/
  arrived : ∀ i, (out.elog.filter fun e => e.threadId = (w i).id ∧ e.isArrived).map Event.time
    = [(w i).arrival]
  /-- Exactly one `Completed` event for each thread, with its finish time. -/
  completed : ∀ i, (out.elog.filter fun e => e.threadId = (w i).id ∧ e.isCompleted).map Event.time
    = [(out.threads i).finish]
  /-- The `Arrived` event of a thread comes before its other events. -/
  first : ∀ i pre e post, out.elog = pre ++ e :: post → e.threadId = (w i).id →
    e.isArrived = false → ∃ a ∈ pre, a.threadId = (w i).id ∧ a.isArrived = true

/-- The arrivals in `[0, horizon]` are logged, at time `now`, and `times` has the completions. -/
structure LogInv (w : Fin n → Thread) (horizon now : ℤ) (times : Fin n → List ℤ)
    (elog : List Event) : Prop where
  sorted : elog.Pairwise fun e e' => e.time ≤ e'.time
  bounded : ∀ e ∈ elog, e.time ≤ now
  arrived : elog.filter Event.isArrived = arrivalsIn w 0 horizon
  completed : ∀ i,
    (elog.filter fun e => e.threadId = (w i).id ∧ e.isCompleted).map Event.time = times i
  first : ∀ i pre e post, elog = pre ++ e :: post → e.threadId = (w i).id →
    e.isArrived = false → ∃ a ∈ pre, a.threadId = (w i).id ∧ a.isArrived = true

/-! ### Arrivals -/

theorem mem_arrivalsAt {w : Fin n → Thread} {time : ℤ} {e : Event} :
    e ∈ arrivalsAt w time ↔ ∃ i, (w i).arrival = time ∧ arrivedEvent w i = e := by
  simp [arrivalsAt]

theorem mem_arrivalsIn {w : Fin n → Thread} {a b : ℤ} {e : Event} :
    e ∈ arrivalsIn w a b ↔ ∃ i, a ≤ (w i).arrival ∧ (w i).arrival ≤ b ∧ arrivedEvent w i = e := by
  simp only [arrivalsIn, List.mem_flatMap, List.mem_range, mem_arrivalsAt]
  constructor
  · rintro ⟨k, hk, i, harr, rfl⟩
    exact ⟨i, by omega, by omega, rfl⟩
  · rintro ⟨i, ha, hb, rfl⟩
    exact ⟨((w i).arrival - a).toNat, by omega, i, by omega, rfl⟩

theorem isArrived_of_mem {w : Fin n → Thread} {a b : ℤ} {e : Event} (he : e ∈ arrivalsIn w a b) :
    e.isArrived = true ∧ e.isCompleted = false ∧ a ≤ e.time ∧ e.time ≤ b := by
  obtain ⟨i, ha, hb, rfl⟩ := mem_arrivalsIn.mp he
  exact ⟨rfl, rfl, ha, hb⟩

/-- The intervals of two calls of `check_arrivals` that meet. -/
theorem arrivalsIn_append (w : Fin n → Thread) {a b c : ℤ} (hab : a ≤ b + 1) (hbc : b ≤ c) :
    arrivalsIn w a b ++ arrivalsIn w (b + 1) c = arrivalsIn w a c := by
  obtain ⟨k, rfl⟩ : ∃ k : ℕ, c = b + k := ⟨(c - b).toNat, by omega⟩
  induction k with
  | zero =>
    rw [Nat.cast_zero, add_zero, arrivalsIn_of_lt w (Int.lt_add_one_of_le le_rfl),
      List.append_nil]
  | succ k ih =>
    have hcast : b + ((k + 1 : ℕ) : ℤ) = b + k + 1 := by
      push_cast
      omega
    rw [hcast, arrivalsIn_succ w (by omega), arrivalsIn_succ w (by omega), ← ih (by omega),
      List.append_assoc]

theorem pairwise_arrivalsIn (w : Fin n → Thread) (a b : ℤ) :
    (arrivalsIn w a b).Pairwise fun e e' => e.time ≤ e'.time := by
  rcases lt_or_ge b a with hlt | hle
  · rw [arrivalsIn_of_lt w hlt]
    exact List.Pairwise.nil
  · obtain ⟨k, rfl⟩ : ∃ k : ℕ, b = a - 1 + k := ⟨(b + 1 - a).toNat, by omega⟩
    clear hle
    induction k with
    | zero =>
      rw [arrivalsIn_of_lt w (by simp)]
      exact List.Pairwise.nil
    | succ k ih =>
      have hcast : a - 1 + ((k + 1 : ℕ) : ℤ) = a - 1 + k + 1 := by
        push_cast
        omega
      rw [hcast, arrivalsIn_succ w (by omega), List.pairwise_append]
      refine ⟨ih, ?_, fun e he e' he' => ?_⟩
      · apply List.pairwise_of_forall_mem_list
        intro e he e' he'
        obtain ⟨i, hi, rfl⟩ := mem_arrivalsAt.mp he
        obtain ⟨j, hj, rfl⟩ := mem_arrivalsAt.mp he'
        exact (hi.trans hj.symm).le
      · have := (isArrived_of_mem he).2.2.2
        obtain ⟨j, hj, rfl⟩ := mem_arrivalsAt.mp he'
        show e.time ≤ (w j).arrival
        omega

/-- Every thread arrives once. -/
theorem filter_arrivalsIn {w : Fin n → Thread} (hinj : Injective fun i => (w i).id) {a b : ℤ}
    {i : Fin n} (ha : a ≤ (w i).arrival) (hb : (w i).arrival ≤ b) :
    (arrivalsIn w a b).filter (fun e => e.threadId = (w i).id) = [arrivedEvent w i] := by
  have hself (j : Fin n) : (arrivedEvent w j).threadId = (w i).id ↔ j = i :=
    ⟨fun h => hinj h, fun h => h ▸ rfl⟩
  -- at its arrival
  have hat : (arrivalsAt w (w i).arrival).filter (fun e => e.threadId = (w i).id)
      = [arrivedEvent w i] := by
    have hone : (List.finRange n).filter (fun j => j == i) = [i] := by
      rw [List.filter_beq, List.count_eq_one_of_mem (List.nodup_finRange n) (List.mem_finRange i)]
      rfl
    have hpred : (fun j => ((fun e => decide (e.threadId = (w i).id)) ∘ arrivedEvent w) j &&
        decide ((w j).arrival = (w i).arrival)) = fun j => j == i := by
      funext j
      by_cases hj : j = i
      · simp [hj, arrivedEvent]
      · simp [hj, hself j]
    rw [arrivalsAt, List.filter_map, List.filter_filter, hpred, hone, List.map_singleton]
  -- and at no other time
  have hother {c d : ℤ} (hcd : (w i).arrival < c ∨ d < (w i).arrival) :
      (arrivalsIn w c d).filter (fun e => e.threadId = (w i).id) = [] := by
    apply List.filter_eq_nil_iff.mpr
    intro e he
    obtain ⟨j, hc, hd, rfl⟩ := mem_arrivalsIn.mp he
    rw [decide_eq_true_iff, hself j]
    rintro rfl
    omega
  have hsplit : arrivalsIn w a b = arrivalsIn w a ((w i).arrival - 1)
      ++ arrivalsAt w (w i).arrival ++ arrivalsIn w ((w i).arrival + 1) b := by
    have hlast := arrivalsIn_succ w (a := a) (b := (w i).arrival - 1) (by omega)
    rw [sub_add_cancel] at hlast
    rw [← hlast, arrivalsIn_append w (by omega) hb]
  rw [hsplit, List.filter_append, List.filter_append, hother (by omega), hat, hother (by omega)]
  rfl

/-! ### Extending the log -/

section Extend

variable {w : Fin n → Thread} {horizon now : ℤ} {times : Fin n → List ℤ} {elog : List Event}

theorem logInv_nil (w : Fin n → Thread) (now : ℤ) : LogInv w (-1) now (fun _ => []) [] where
  sorted := List.Pairwise.nil
  bounded := nofun
  arrived := (arrivalsIn_of_lt w (by decide)).symm
  completed _ := rfl
  first i pre e post h := absurd h.symm (by simp)

/-- Later, nothing changes. -/
theorem LogInv.mono (h : LogInv w horizon now times elog) {now' : ℤ} (hnow : now ≤ now') :
    LogInv w horizon now' times elog :=
  { h with bounded := fun e he => (h.bounded e he).trans hnow }

/-- A horizon at which no thread arrives. -/
theorem LogInv.lower (h : LogInv w horizon now times elog) (hpos : 0 ≤ horizon)
    (hnone : ∀ i, (w i).arrival ≠ horizon) : LogInv w (horizon - 1) now times elog := by
  refine { h with arrived := h.arrived.trans ?_ }
  have hlast := arrivalsIn_succ w (a := 0) (b := horizon - 1) (by omega)
  rw [sub_add_cancel] at hlast
  have hempty : arrivalsAt w horizon = [] := by
    apply List.eq_nil_iff_forall_not_mem.mpr
    intro e he
    obtain ⟨i, hi, -⟩ := mem_arrivalsAt.mp he
    exact hnone i hi
  rw [hlast, hempty, List.append_nil]

/-- `check_arrivals` from right after the horizon. -/
theorem LogInv.arrivals (h : LogInv w horizon now times elog) (hpos : 0 ≤ horizon + 1) {b : ℤ}
    (hb : horizon ≤ b) (hnow : now ≤ horizon + 1) :
    LogInv w b (max now b) times (elog ++ arrivalsIn w (horizon + 1) b) where
  sorted := by
    refine List.pairwise_append.mpr ⟨h.sorted, pairwise_arrivalsIn w _ _, fun e he e' he' => ?_⟩
    have := h.bounded e he
    have := (isArrived_of_mem he').2.2.1
    omega
  bounded e he := by
    rcases List.mem_append.mp he with he | he
    · exact (h.bounded e he).trans (le_max_left ..)
    · exact (isArrived_of_mem he).2.2.2.trans (le_max_right ..)
  arrived := by
    have hall : (arrivalsIn w (horizon + 1) b).filter Event.isArrived
        = arrivalsIn w (horizon + 1) b :=
      List.filter_eq_self.mpr fun e he => (isArrived_of_mem he).1
    rw [List.filter_append, h.arrived, hall, arrivalsIn_append w hpos hb]
  completed i := by
    have hnone : (arrivalsIn w (horizon + 1) b).filter
        (fun e => e.threadId = (w i).id ∧ e.isCompleted) = [] :=
      List.filter_eq_nil_iff.mpr fun e he => by simp [(isArrived_of_mem he).2.1]
    rw [List.filter_append, hnone, List.append_nil, h.completed i]
  first i pre e post heq hid hnot := by
    -- the event is in the old log
    rcases List.append_eq_append_iff.mp heq with ⟨mid, hpre, hmid⟩ | ⟨mid, helog, hmid⟩
    · have hmem : e ∈ arrivalsIn w (horizon + 1) b := by
        rw [hmid]
        simp
      exact absurd ((isArrived_of_mem hmem).1.symm.trans hnot) (by decide)
    · cases mid with
      | nil =>
        have hmem : e ∈ arrivalsIn w (horizon + 1) b := by
          rw [List.nil_append] at hmid
          rw [← hmid]
          simp
        exact absurd ((isArrived_of_mem hmem).1.symm.trans hnot) (by decide)
      | cons e' mid =>
        rw [List.cons_append, List.cons.injEq] at hmid
        obtain ⟨rfl, -⟩ := hmid
        exact h.first i pre e mid helog hid hnot

/-- `log_event` for a thread that has arrived. -/
theorem LogInv.concat (h : LogInv w horizon now times elog) {e : Event} {i : Fin n}
    (hinj : Injective fun i => (w i).id) (hid : e.threadId = (w i).id)
    (harr : 0 ≤ (w i).arrival ∧ (w i).arrival ≤ horizon) (hnot : e.isArrived = false)
    (hnow : now ≤ e.time) :
    LogInv w horizon e.time
      (if e.isCompleted then update times i (times i ++ [e.time]) else times) (elog ++ [e]) where
  sorted := by
    refine List.pairwise_append.mpr ⟨h.sorted, List.pairwise_singleton _ _, fun e' he' f hf => ?_⟩
    obtain rfl := List.mem_singleton.mp hf
    exact (h.bounded e' he').trans hnow
  bounded e' he' := by
    rcases List.mem_append.mp he' with he' | he'
    · exact (h.bounded e' he').trans hnow
    · exact (congrArg Event.time (List.mem_singleton.mp he')).le
  arrived := by
    rw [List.filter_append, List.filter_singleton, hnot, h.arrived]
    exact List.append_nil _
  completed j := by
    rw [List.filter_append, List.map_append, h.completed j, List.filter_singleton, hid]
    by_cases hj : j = i
    · by_cases hc : e.isCompleted = true
      · simp [hj, hc]
      · simp [hj, hc]
    · have hne : (w i).id ≠ (w j).id := fun heq => hj (hinj heq).symm
      by_cases hc : e.isCompleted = true
      · simp [hj, hc, hne]
      · simp [hc]
  first j pre e' post heq hid' hnot' := by
    rcases List.eq_nil_or_concat post with rfl | ⟨post, last, rfl⟩
    · -- the new event: its thread arrived below the horizon
      obtain ⟨rfl, hlast⟩ := List.append_inj' heq rfl
      obtain rfl : e = e' := List.singleton_inj.mp hlast
      refine ⟨arrivedEvent w i, ?_, hid.symm.trans hid', rfl⟩
      have hmem : arrivedEvent w i ∈ elog.filter Event.isArrived := by
        rw [h.arrived]
        exact mem_arrivalsIn.mpr ⟨i, harr.1, harr.2, rfl⟩
      exact List.mem_of_mem_filter hmem
    · rw [List.concat_eq_append, ← List.cons_append, ← List.append_assoc] at heq
      obtain ⟨hpre, -⟩ := List.append_inj' heq rfl
      exact h.first j pre e' post hpre hid' hnot'

/-- An event, neither an arrival nor a completion, of a thread that has arrived. -/
def Ordinary (w : Fin n → Thread) (horizon now : ℤ) (e : Event) : Prop :=
  ∃ i, e.threadId = (w i).id ∧ (0 ≤ (w i).arrival ∧ (w i).arrival ≤ horizon) ∧
    e.isArrived = false ∧ e.isCompleted = false ∧ e.time = now

theorem LogInv.ordinary (h : LogInv w horizon now times elog)
    (hinj : Injective fun i => (w i).id) {l : List Event} (hl : ∀ e ∈ l, Ordinary w horizon now e) :
    LogInv w horizon now times (elog ++ l) := by
  induction l generalizing elog with
  | nil => rwa [List.append_nil]
  | cons e l ih =>
    obtain ⟨i, hid, harr, hnot, hcomp, hnow⟩ := hl e List.mem_cons_self
    have hlog := h.concat hinj hid harr hnot hnow.ge
    rw [hcomp, hnow] at hlog
    rw [List.append_cons]
    exact ih hlog fun e' he' => hl e' (List.mem_cons_of_mem e he')

theorem LogInv.complete (h : LogInv w horizon now times elog) {i : Fin n} {time : ℤ}
    (hinj : Injective fun i => (w i).id)
    (harr : 0 ≤ (w i).arrival ∧ (w i).arrival ≤ horizon) (hnow : now ≤ time) :
    LogInv w horizon time (update times i (times i ++ [time]))
      (elog ++ [completedEvent w i time]) :=
  h.concat (e := completedEvent w i time) hinj rfl harr rfl hnow

end Extend

end OsLabs.Scheduling
