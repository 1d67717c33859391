import OsLabs.Scheduling.Scheduler

/-!
# The events

The events depend on the workload only, as no scheduler changes the identity, the burst or the
arrival of a thread (`SameThreads`); so does what `check_arrivals` logs (`checkArrivals_eq`).
-/

namespace OsLabs.Scheduling

open Function

variable {n : ℕ}

/-- The `Arrived` event of thread `i`. -/
def arrivedEvent (w : Fin n → Thread) (i : Fin n) : Event :=
  { time := (w i).arrival, threadId := (w i).id, message := .arrived (w i).id (w i).burst }

/-- The `Started` event of FIFO and SJF. -/
def startedWaitedEvent (w : Fin n → Thread) (sel : Fin n) (time : ℤ) : Event :=
  { time := time
    threadId := (w sel).id
    message := .startedWaited (w sel).id (w sel).burst (time - (w sel).arrival) }

/-- The `Completed` event. -/
def completedEvent (w : Fin n → Thread) (sel : Fin n) (time : ℤ) : Event :=
  { time := time, threadId := (w sel).id, message := .completed (w sel).id }

/-- The `Started` event of RR. -/
def startedEvent (w : Fin n → Thread) (sel : Fin n) (time : ℤ) : Event :=
  { time := time, threadId := (w sel).id, message := .started (w sel).id (w sel).burst }

/-- The `Preempted` event. -/
def preemptedEvent (w : Fin n → Thread) (i : Fin n) (time remaining : ℤ) : Event :=
  { time := time, threadId := (w i).id, message := .preempted (w i).id remaining }

/-- The `Started/Resumed` event. -/
def startedResumedEvent (w : Fin n → Thread) (i : Fin n) (time : ℤ) : Event :=
  { time := time, threadId := (w i).id, message := .startedResumed (w i).id (w i).burst }

/-! ### `check_arrivals` -/

/-- The `Arrived` events of one time. -/
def arrivalsAt (w : Fin n → Thread) (time : ℤ) : List Event :=
  ((List.finRange n).filter fun i => (w i).arrival = time).map (arrivedEvent w)

/-- The `Arrived` events of the times in `[a, b]`. -/
def arrivalsIn (w : Fin n → Thread) (a b : ℤ) : List Event :=
  (List.range (b + 1 - a).toNat).flatMap fun k => arrivalsAt w (a + (k : ℕ))

/-- The threads of a state are those of the workload, as far as their events go. -/
structure SameThreads (w t : Fin n → Thread) : Prop where
  id : ∀ i, (t i).id = (w i).id
  burst : ∀ i, (t i).burst = (w i).burst
  arrival : ∀ i, (t i).arrival = (w i).arrival

/-- Fields that `check_arrivals` does not read may be changed. -/
theorem SameThreads.update {w t : Fin n → Thread} (h : SameThreads w t) {i : Fin n} {th : Thread}
    (hid : th.id = (t i).id) (hburst : th.burst = (t i).burst)
    (harrival : th.arrival = (t i).arrival) : SameThreads w (update t i th) := by
  refine ⟨fun j => ?_, fun j => ?_, fun j => ?_⟩ <;> by_cases hj : j = i
  · rw [hj, update_self, hid, h.id i]
  · rw [update_of_ne hj, h.id j]
  · rw [hj, update_self, hburst, h.burst i]
  · rw [update_of_ne hj, h.burst j]
  · rw [hj, update_self, harrival, h.arrival i]
  · rw [update_of_ne hj, h.arrival j]

theorem checkArrivalsAt_eq {w t : Fin n → Thread} (h : SameThreads w t) (time : ℤ)
    (elog : List Event) : checkArrivalsAt t time elog = elog ++ arrivalsAt w time := by
  -- over any list of threads
  have hfold (l : List (Fin n)) (elog : List Event) :
      l.foldl (fun elog i =>
        if (t i).arrival = time then
          logEvent elog time (t i).id (.arrived (t i).id (t i).burst)
        else elog) elog
        = elog ++ (l.filter fun i => (w i).arrival = time).map (arrivedEvent w) := by
    induction l generalizing elog with
    | nil => simp
    | cons i l ih =>
      rw [List.foldl_cons, ih, h.arrival i, h.id i, h.burst i]
      by_cases hi : (w i).arrival = time
      · rw [if_pos hi, List.filter_cons_of_pos (by simpa using hi), List.map_cons, logEvent,
          List.append_assoc, arrivedEvent, hi]
        rfl
      · rw [if_neg hi, List.filter_cons_of_neg (by simpa using hi)]
  exact hfold (List.finRange n) elog

/-- What `check_arrivals` logs. -/
theorem checkArrivals_eq {w t : Fin n → Thread} (h : SameThreads w t) (a b : ℤ)
    (elog : List Event) : checkArrivals t a b elog = elog ++ arrivalsIn w a b := by
  unfold checkArrivals arrivalsIn
  generalize (b + 1 - a).toNat = k
  induction k with
  | zero => simp
  | succ k ih =>
    rw [List.range_succ, List.foldl_append, ih, List.flatMap_append, List.foldl_cons,
      List.foldl_nil, checkArrivalsAt_eq h, List.append_assoc, List.flatMap_singleton]

theorem arrivalsIn_self (w : Fin n → Thread) (a : ℤ) : arrivalsIn w a a = arrivalsAt w a := by
  unfold arrivalsIn
  have hone : (a + 1 - a).toNat = 1 := by omega
  rw [hone, List.range_one, List.flatMap_singleton]
  simp

/-- One more time at the end of the interval. -/
theorem arrivalsIn_succ (w : Fin n → Thread) {a b : ℤ} (h : a ≤ b + 1) :
    arrivalsIn w a (b + 1) = arrivalsIn w a b ++ arrivalsAt w (b + 1) := by
  unfold arrivalsIn
  have hsucc : (b + 1 + 1 - a).toNat = (b + 1 - a).toNat + 1 := by omega
  rw [hsucc, List.range_succ, List.flatMap_append, List.flatMap_singleton]
  congr 2
  omega

theorem arrivalsIn_of_lt (w : Fin n → Thread) {a b : ℤ} (h : b < a) : arrivalsIn w a b = [] := by
  unfold arrivalsIn
  have hzero : (b + 1 - a).toNat = 0 := by omega
  rw [hzero, List.range_zero, List.flatMap_nil]

end OsLabs.Scheduling
