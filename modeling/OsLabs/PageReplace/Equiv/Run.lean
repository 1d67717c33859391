import OsLabs.PageReplace.Equiv.Frames
import Mathlib.Data.List.GetD

/-!
# Runs of a policy that refines the replacement machine

A `Refinement` of an access function is an invariant of the whole memory that `scheduler_reset`
establishes and that every access to a page other than `FRAME_EMPTY` keeps, together with the fact
that such an access returns and does to the frames what `FrameStep` allows.  What follows for runs
is proved here once for all policies: `Refinement.run` says that every prefix of `run_one`
completes, and in which states it leaves the frames and the counters.
-/

namespace OsLabs.PageReplace

variable {N : ℕ}

/-! ### One more step of a run -/

section Steps

variable {fn : Algo N} {s₀ s s' : State N} {query : List UInt8} {k : ℕ} {rs : List AccessResult}
  {r : AccessResult} {e : Fault}

theorem runSteps_succ_of_ok (hrun : runSteps fn s₀ query k = .ok (s, rs))
    (hfn : fn s (query.getD k 0) (UInt16.ofNat k) = .ok (r, s')) :
    runSteps fn s₀ query (k + 1) = .ok (s', rs ++ [r]) := by
  rw [runSteps, hrun]
  show (fn s (query.getD k 0) (UInt16.ofNat k) >>= _) = _
  rw [hfn]
  rfl

theorem runSteps_succ_of_step_error (hrun : runSteps fn s₀ query k = .ok (s, rs))
    (hfn : fn s (query.getD k 0) (UInt16.ofNat k) = .error e) :
    runSteps fn s₀ query (k + 1) = .error e := by
  rw [runSteps, hrun]
  show (fn s (query.getD k 0) (UInt16.ofNat k) >>= _) = _
  rw [hfn]
  rfl

theorem runSteps_succ_of_error (hrun : runSteps fn s₀ query k = .error e) :
    runSteps fn s₀ query (k + 1) = .error e := by
  rw [runSteps, hrun]
  rfl

end Steps

/-! ### Refinements -/

/-- What one access to `page` does besides the policy's own bookkeeping. -/
structure Accessed (page : UInt8) (s : State N) (r : AccessResult) (s' : State N) : Prop where
  frames : FrameStep page s.frames r s'.frames
  hits : s'.hits = if r.hit = 1 then s.hits + 1 else s.hits
  misses : s'.misses = if r.hit = 1 then s.misses else s.misses + 1
  refSeq : s'.refSeq = s.refSeq

/-- A policy's invariant and the proof that its accesses refine `FrameStep`. -/
structure Refinement (fn : Algo N) where
  /-- What holds of the memory between two accesses. -/
  Inv : State N → Prop
  /-- `scheduler_reset` establishes it, whatever the memory held. -/
  reset : ∀ s, Inv (schedulerReset s)
  /-- Every access returns and keeps it. -/
  step : ∀ {s : State N} {page : UInt8} (step : UInt16), Inv s → page ≠ FRAME_EMPTY →
    ∃ r s', fn s page step = .ok (r, s') ∧ Accessed page s r s' ∧ Inv s'

/-- The frames and counters after `k` steps on `query`. -/
structure RunInv (query : List UInt8) (k : ℕ) (s : State N) : Prop where
  distinct : Distinct s.frames
  refSeq : s.refSeq = query
  counts : s.hits.toNat + s.misses.toNat = k
  occupied : occupied s.frames = min N s.misses.toNat

theorem occupied_reset (s : State N) : occupied (schedulerReset s).frames = 0 := by
  simp [occupied, schedulerReset]

theorem runInv_reset (s : State N) (query : List UInt8) :
    RunInv query 0 (schedulerReset (schedulerInit s query)) where
  distinct i j hi _ := absurd rfl hi
  refSeq := rfl
  counts := rfl
  occupied := by
    rw [occupied_reset]
    exact (Nat.min_zero N).symm

/-- A counter below `2^32` is counted up without wrapping around. -/
theorem toNat_add_one {c : UInt32} (h : c.toNat + 1 < 2 ^ 32) : (c + 1).toNat = c.toNat + 1 := by
  rw [UInt32.toNat_add, show (1 : UInt32).toNat = 1 from rfl]
  exact Nat.mod_eq_of_lt h

theorem RunInv.step {query : List UInt8} {k : ℕ} {s s' : State N} {page : UInt8}
    {r : AccessResult} (h : RunInv query k s) (hp : page ≠ FRAME_EMPTY) (hk : k + 1 < 2 ^ 32)
    (ha : Accessed page s r s') : RunInv query (k + 1) s' := by
  have hcounts := h.counts
  have hocc := h.occupied
  have hstep := ha.frames.occupied_eq hp
  have hhits := ha.hits
  have hmisses := ha.misses
  -- one of the counters goes up, and it is below `2^32` as both together are
  refine ⟨ha.frames.distinct h.distinct, ha.refSeq.trans h.refSeq, ?_, ?_⟩
  · by_cases hr : r.hit = 1
    · rw [if_pos hr] at hhits hmisses
      rw [hhits, hmisses, toNat_add_one (by omega)]
      omega
    · rw [if_neg hr] at hhits hmisses
      rw [hhits, hmisses, toNat_add_one (by omega)]
      omega
  · by_cases hr : r.hit = 1
    · rw [if_pos hr] at hmisses hstep
      rw [hstep, hmisses, hocc]
    · rw [if_neg hr] at hmisses hstep
      rw [hstep, hmisses, toNat_add_one (by omega), hocc]
      omega

theorem getD_ne_empty {query : List UInt8} (hq : ∀ p ∈ query, p ≠ FRAME_EMPTY) {k : ℕ}
    (hk : k < query.length) : query.getD k 0 ≠ FRAME_EMPTY := by
  rw [List.getD_eq_getElem _ _ hk]
  exact hq _ (List.getElem_mem hk)

section Run

variable {fn : Algo N} (R : Refinement fn) (s₀ : State N) {query : List UInt8}

include R

/-- **Every prefix of a run completes**, with the policy's invariant and `RunInv`. -/
theorem Refinement.run (hlen : query.length < 2 ^ 32) (hq : ∀ p ∈ query, p ≠ FRAME_EMPTY) :
    ∀ k ≤ query.length, ∃ s rs,
      runSteps fn s₀ query k = .ok (s, rs) ∧ R.Inv s ∧ RunInv query k s := by
  intro k
  induction k with
  | zero => exact fun _ => ⟨_, _, rfl, R.reset _, runInv_reset s₀ query⟩
  | succ k ih =>
    intro hk
    obtain ⟨s, rs, hrun, hinv, hri⟩ := ih (by omega)
    have hp := getD_ne_empty hq (show k < query.length by omega)
    obtain ⟨r, s', hfn, hacc, hinv'⟩ := R.step (UInt16.ofNat k) hinv hp
    exact ⟨s', rs ++ [r], runSteps_succ_of_ok hrun hfn, hinv', hri.step hp (by omega) hacc⟩

/-- Step `k` of a run: the state before it, its result and the state after it. -/
theorem Refinement.run_step (hlen : query.length < 2 ^ 32) (hq : ∀ p ∈ query, p ≠ FRAME_EMPTY)
    {k : ℕ} (hk : k < query.length) : ∃ s rs r s',
      runSteps fn s₀ query k = .ok (s, rs) ∧
      fn s query[k] (UInt16.ofNat k) = .ok (r, s') ∧
      runSteps fn s₀ query (k + 1) = .ok (s', rs ++ [r]) ∧
      R.Inv s ∧ R.Inv s' ∧ RunInv query k s ∧ RunInv query (k + 1) s' ∧
      Accessed query[k] s r s' := by
  obtain ⟨s, rs, hrun, hinv, hri⟩ := R.run s₀ hlen hq k hk.le
  have hp : query[k] ≠ FRAME_EMPTY := hq _ (List.getElem_mem hk)
  obtain ⟨r, s', hfn, hacc, hinv'⟩ := R.step (UInt16.ofNat k) hinv hp
  have hrun' : runSteps fn s₀ query (k + 1) = .ok (s', rs ++ [r]) := by
    apply runSteps_succ_of_ok hrun
    rw [List.getD_eq_getElem _ _ hk]
    exact hfn
  exact ⟨s, rs, r, s', hrun, hfn, hrun', hinv, hinv', hri, hri.step hp (by omega) hacc, hacc⟩

end Run

end OsLabs.PageReplace
