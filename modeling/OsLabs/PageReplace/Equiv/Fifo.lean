import OsLabs.PageReplace.Equiv.Run

/-!
# FIFO refines the replacement machine

The ring `fifo_queue` is filled from slot 0 on while frames are empty and rotated in place
afterwards, so every slot below the number of occupied frames holds the index of a frame
(`FifoInv`), and the slot read for a victim is one of them.
-/

namespace OsLabs.PageReplace

open Function

variable {N : ℕ}

/-- Every used slot of the ring holds the index of a frame. -/
structure FifoInv (s : State N) : Prop where
  count : s.fifo.count.toNat = occupied s.frames
  head_lt : s.fifo.head.toNat < N
  /-- The head only moves once all frames are occupied. -/
  head : occupied s.frames < N → s.fifo.head.toNat = 0
  slots : ∀ j < occupied s.frames, (s.fifo.queue (UInt8.ofNat j)).toNat < N

theorem fifoInv_reset (hN : 1 ≤ N) (s : State N) : FifoInv (schedulerReset s) where
  count := (occupied_reset s).symm
  head_lt := hN
  head _ := rfl
  slots j hj := by
    rw [occupied_reset] at hj
    omega

/-- On a full memory the head slot names a frame. -/
theorem FifoInv.victim {s : State N} (h : FifoInv s) (hfull : ∀ i, s.frames i ≠ FRAME_EMPTY) :
    ∃ i : Fin N, (s.fifo.queue s.fifo.head).toNat = i := by
  have hslot := h.slots s.fifo.head.toNat (by rw [occupied_eq_of_full hfull]; exact h.head_lt)
  rw [UInt8.ofNat_toNat] at hslot
  exact ⟨⟨_, hslot⟩, rfl⟩

/-- A hit only counts. -/
theorem schedulerFifo_hit {s : State N} {page : UInt8} {i : Fin N}
    (hidx : findPage s.frames page = (i : ℕ)) (step : UInt16) :
    schedulerFifo s page step
      = .ok (⟨1, FRAME_EMPTY, page, .ofNat i⟩, { s with hits := s.hits + 1 }) := by
  unfold schedulerFifo
  simp only [hidx, ne_eq, fin_ne_neg_one, not_false_eq_true, if_true, ofInt_fin]

/-- A miss with an empty frame `i` puts the page there and `i` at the end of the ring. -/
theorem schedulerFifo_fill {s : State N} {page : UInt8} {i : Fin N}
    (hidx : findPage s.frames page = -1) (hfree : findEmpty s.frames = (i : ℕ)) (step : UInt16) :
    schedulerFifo s page step
      = .ok (⟨0, FRAME_EMPTY, page, .ofNat i⟩,
          { s with
            misses := s.misses + 1
            frames := update s.frames i page
            fifo := { s.fifo with
              queue := update s.fifo.queue
                (.ofNat ((s.fifo.head.toNat + s.fifo.count.toNat) % N)) (.ofNat i)
              count := s.fifo.count + 1 } }) := by
  unfold schedulerFifo
  simp only [hidx, hfree, ne_eq, not_true, if_false, fin_ne_neg_one, not_false_eq_true, if_true,
    setFrame_fin, ofInt_fin]
  rfl

/-- A miss without an empty frame takes the frame in the head slot and moves the head on. -/
theorem schedulerFifo_evict {s : State N} {page : UInt8} {i : Fin N}
    (hidx : findPage s.frames page = -1) (hfree : findEmpty s.frames = -1)
    (hi : (s.fifo.queue s.fifo.head).toNat = i) (step : UInt16) :
    schedulerFifo s page step
      = .ok (⟨0, s.frames i, page, .ofNat i⟩,
          { s with
            misses := s.misses + 1
            frames := update s.frames i page
            fifo := { s.fifo with head := .ofNat ((s.fifo.head.toNat + 1) % N) } }) := by
  have hvictim : s.fifo.queue s.fifo.head = .ofNat i := by
    rw [← hi, UInt8.ofNat_toNat]
  unfold schedulerFifo
  simp only [hidx, hfree, hi, ne_eq, not_true, if_false, getFrame_fin, setFrame_fin,
    update_eq_self]
  rw [hvictim]
  rfl

theorem schedulerFifo_step (hN : N ≤ 128) {s : State N} {page : UInt8} (step : UInt16)
    (hinv : FifoInv s) (hp : page ≠ FRAME_EMPTY) :
    ∃ r s', schedulerFifo s page step = .ok (r, s') ∧ Accessed page s r s' ∧ FifoInv s' := by
  rcases findPage_spec hN s.frames page with ⟨i, hi, hidx⟩ | ⟨habsent, hidx⟩
  · exact ⟨_, _, schedulerFifo_hit hidx step, ⟨.hit i hi, rfl, rfl, rfl⟩,
      ⟨hinv.count, hinv.head_lt, hinv.head, hinv.slots⟩⟩
  rcases findEmpty_spec hN s.frames with ⟨i, hi, hfree⟩ | ⟨hfull, hfree⟩
  · -- a frame is empty: the ring is not full, and the new entry goes to slot `count`
    have hlt := occupied_lt_of_empty hi
    have hocc := occupied_fill hi hp
    have hcount := hinv.count
    have hhead := hinv.head hlt
    refine ⟨_, _, schedulerFifo_fill hidx hfree step, ⟨.fill i habsent hi, rfl, rfl, rfl⟩, ?_⟩
    refine ⟨?_, hinv.head_lt, fun _ => hhead, ?_⟩
    · show (s.fifo.count + 1).toNat = occupied (update s.frames i page)
      rw [hocc, UInt8.toNat_add, hcount, show (1 : UInt8).toNat = 1 from rfl]
      omega
    · intro j hj
      show (update s.fifo.queue _ _ (UInt8.ofNat j)).toNat < N
      rw [hhead, hcount, Nat.zero_add, Nat.mod_eq_of_lt hlt]
      by_cases hji : j = occupied s.frames
      · rw [hji, update_self, UInt8.toNat_ofNat']
        have := i.isLt
        omega
      · have hne : UInt8.ofNat j ≠ UInt8.ofNat (occupied s.frames) := by
          intro heq
          have h := congrArg UInt8.toNat heq
          rw [UInt8.toNat_ofNat', UInt8.toNat_ofNat'] at h
          have hj' : j < occupied (update s.frames i page) := hj
          omega
        rw [update_of_ne hne]
        have hj' : j < occupied (update s.frames i page) := hj
        exact hinv.slots j (by omega)
  · -- all frames are occupied: the head slot is one of the used ones
    have hocc := occupied_eq_of_full hfull
    obtain ⟨i, hi⟩ := hinv.victim hfull
    have hocc' : occupied (update s.frames i page) = occupied s.frames :=
      occupied_replace (hfull i) hp
    have hNpos : 0 < N := i.pos
    refine ⟨_, _, schedulerFifo_evict hidx hfree hi step, ⟨.evict i habsent hfull, rfl, rfl, rfl⟩,
      ⟨hinv.count.trans hocc'.symm, ?_, ?_, ?_⟩⟩
    · show (UInt8.ofNat ((s.fifo.head.toNat + 1) % N)).toNat < N
      have := Nat.mod_lt (s.fifo.head.toNat + 1) hNpos
      rw [UInt8.toNat_ofNat']
      omega
    · intro hlt
      rw [show occupied _ = N from hocc'.trans hocc] at hlt
      omega
    · intro j hj
      rw [show occupied _ = occupied s.frames from hocc'] at hj
      exact hinv.slots j hj

/-- FIFO as a refinement of the replacement machine. -/
def fifoRefinement (hN : 1 ≤ N) (hN' : N ≤ 128) : Refinement (schedulerFifo (N := N)) where
  Inv := FifoInv
  reset := fifoInv_reset hN
  step step hinv hp := schedulerFifo_step hN' step hinv hp

end OsLabs.PageReplace
