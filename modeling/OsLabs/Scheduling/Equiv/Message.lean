import OsLabs.Scheduling.Bounded
import OsLabs.Scheduling.Equiv.LogInv
import OsLabs.Scheduling.Equiv.Outputs

/-!
# The messages of the schedulers fit their buffer

The numbers in the messages of a workload of `main` have at most three digits: identities, bursts
and remaining times by what `main` draws, and waiting times because no run is longer than the last
arrival and all the work.  A message with numbers of three digits fits `msg`.
-/

namespace OsLabs.Scheduling

variable {n : ℕ} {w : Fin n → Thread}

/-- The workloads of `main`. -/
structure Generated (w : Fin n → Thread) : Prop where
  threads : n ≤ MAX_THREADS
  id : ∀ i, 0 ≤ (w i).id ∧ (w i).id < MAX_THREADS
  burst : ∀ i, 1 ≤ (w i).burst ∧ (w i).burst ≤ MAX_BURST
  arrival : ∀ i, 0 ≤ (w i).arrival ∧ (w i).arrival ≤ MAX_ARRIVAL

theorem orig_generated (hn : n ≤ MAX_THREADS) {burst arrival : Fin n → ℤ}
    (hburst : ∀ i, 1 ≤ burst i ∧ burst i ≤ MAX_BURST)
    (harr : ∀ i, 0 ≤ arrival i ∧ arrival i ≤ MAX_ARRIVAL) : Generated (orig burst arrival) where
  threads := hn
  id i := by
    show (0 : ℤ) ≤ (i : ℕ) ∧ ((i : ℕ) : ℤ) < MAX_THREADS
    omega
  burst := hburst
  arrival := harr

theorem Generated.workload (h : Generated w) : Workload w where
  burst i := (h.burst i).1
  arrival_nonneg i := (h.arrival i).1
  arrival_lt i := (h.arrival i).2.trans_lt (by decide)

/-- No run on such a workload is longer. -/
def longest : ℤ := MAX_ARRIVAL + MAX_THREADS * MAX_BURST

/-! ### Messages -/

/-- The numbers of a message. -/
def Message.numbers : Message → List ℤ
  | .arrived id burst => [id, burst]
  | .startedWaited id burst waited => [id, burst, waited]
  | .started id burst => [id, burst]
  | .startedResumed id burst => [id, burst]
  | .preempted id remaining => [id, remaining]
  | .completed id => [id]

theorem utf8ByteSize_repr_le {x k : ℕ} (hk : 0 < k) (hx : x < 10 ^ k) :
    x.repr.utf8ByteSize ≤ k := by
  have hdigit : ∀ d < 10, (Nat.digitChar d).utf8Size = 1 := by decide
  induction k, hk using Nat.le_induction generalizing x with
  | base =>
    have hlt : x < 10 := by simpa using hx
    rw [Nat.repr_of_lt hlt, String.utf8ByteSize_singleton, hdigit x hlt]
  | succ k hk ih =>
    rcases Nat.lt_or_ge x 10 with hlt | hge
    · rw [Nat.repr_of_lt hlt, String.utf8ByteSize_singleton, hdigit x hlt]
      omega
    · rw [Nat.repr_of_ge hge, String.utf8ByteSize_append, String.utf8ByteSize_singleton,
        hdigit _ (Nat.mod_lt _ (by decide))]
      have := ih (x := x / 10) (by rw [pow_succ] at hx; omega)
      omega

/-- The message with the widest numbers of three digits. -/
def Message.widest : Message → Message
  | .arrived _ _ => .arrived 999 999
  | .startedWaited _ _ _ => .startedWaited 999 999 999
  | .started _ _ => .started 999 999
  | .startedResumed _ _ => .startedResumed 999 999
  | .preempted _ _ => .preempted 999 999
  | .completed _ => .completed 999

theorem utf8ByteSize_toString_le {x : ℤ} (h : 0 ≤ x ∧ x < 1000) :
    (toString x).utf8ByteSize ≤ (toString (999 : ℤ)).utf8ByteSize := by
  obtain ⟨k, rfl⟩ := Int.eq_ofNat_of_zero_le h.1
  exact utf8ByteSize_repr_le (k := 3) (by decide) (by omega)

theorem msgFits_of_numbers {msg : Message} (h : ∀ x ∈ msg.numbers, 0 ≤ x ∧ x < 1000) :
    Bounded.MsgFits msg := by
  have hfits : Bounded.MsgFits msg.widest := by
    cases msg <;> dsimp only [Message.widest] <;> decide
  have hle (x : ℤ) (hx : x ∈ msg.numbers) := utf8ByteSize_toString_le (h x hx)
  unfold Bounded.MsgFits at *
  have htext : msg.text.utf8ByteSize ≤ (msg.widest).text.utf8ByteSize := by
    cases msg <;> simp only [Message.numbers, List.forall_mem_cons] at hle <;>
      simp only [Message.widest, Message.text, String.utf8ByteSize_append] <;> omega
  omega

section Messages

variable (hw : Generated w)

include hw

theorem Generated.numbers (i : Fin n) :
    (0 ≤ (w i).id ∧ (w i).id < 1000) ∧ 0 ≤ (w i).burst ∧ (w i).burst < 1000 := by
  have hid := hw.id i
  have hburst := hw.burst i
  unfold MAX_THREADS at hid
  unfold MAX_BURST at hburst
  omega

theorem Generated.msgFits_arrivalsIn {a b : ℤ} {e : Event} (he : e ∈ arrivalsIn w a b) :
    Bounded.MsgFits e.message := by
  obtain ⟨i, -, -, rfl⟩ := mem_arrivalsIn.mp he
  obtain ⟨hid, hburst⟩ := hw.numbers i
  exact msgFits_of_numbers (by simp [arrivedEvent, Message.numbers, hid, hburst])

theorem Generated.msgFits_startedWaited (i : Fin n) {time : ℤ} (harr : (w i).arrival ≤ time)
    (htime : time ≤ longest) : Bounded.MsgFits (startedWaitedEvent w i time).message := by
  obtain ⟨hid, hburst⟩ := hw.numbers i
  have hwaited : 0 ≤ time - (w i).arrival ∧ time - (w i).arrival < 1000 := by
    have hlongest : longest = 170 := rfl
    have := (hw.arrival i).1
    omega
  exact msgFits_of_numbers (by
    simp only [startedWaitedEvent, Message.numbers, List.forall_mem_cons]
    exact ⟨hid, hburst, hwaited, by simp⟩)

theorem Generated.msgFits_started (i : Fin n) (time : ℤ) :
    Bounded.MsgFits (startedEvent w i time).message := by
  obtain ⟨hid, hburst⟩ := hw.numbers i
  exact msgFits_of_numbers (by simp [startedEvent, Message.numbers, hid, hburst])

theorem Generated.msgFits_startedResumed (i : Fin n) (time : ℤ) :
    Bounded.MsgFits (startedResumedEvent w i time).message := by
  obtain ⟨hid, hburst⟩ := hw.numbers i
  exact msgFits_of_numbers (by simp [startedResumedEvent, Message.numbers, hid, hburst])

theorem Generated.msgFits_preempted (i : Fin n) (time : ℤ) {remaining : ℤ}
    (hrem : 0 ≤ remaining ∧ remaining ≤ (w i).burst) :
    Bounded.MsgFits (preemptedEvent w i time remaining).message := by
  obtain ⟨hid, hburst⟩ := hw.numbers i
  have hlt : remaining < 1000 := by omega
  exact msgFits_of_numbers (by simp [preemptedEvent, Message.numbers, hid, hrem.1, hlt])

theorem Generated.msgFits_completed (i : Fin n) (time : ℤ) :
    Bounded.MsgFits (completedEvent w i time).message := by
  obtain ⟨hid, -⟩ := hw.numbers i
  exact msgFits_of_numbers (by simp [completedEvent, Message.numbers, hid])

end Messages

end OsLabs.Scheduling
