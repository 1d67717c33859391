import OsLabs.Lib.Competitive
import OsLabs.PageReplace.Equiv.LoadOrder
import OsLabs.PageReplace.Equiv.LruStack

/-!
# FIFO and LRU are competitive

The victim of FIFO was loaded before, and that of LRU referenced before, all other resident pages,
so both are conservative strategies (`fifo_isConservative`, `lru_isConservative`), and their
misses are bounded by those of any strategy with at most as many frames.  Second Chance is not
conservative: a page is loaded with its bit clear, and the sweep takes it before older pages whose
bit was set.
-/

namespace OsLabs.PageReplace

open Paging

variable {N : ℕ}

/-- Each of the four policies refines the replacement machine. -/
theorem Policy.nonempty_refinement (policy : Policy) (hN : 1 ≤ N) (hN' : N ≤ 128) :
    Nonempty (Refinement (policy.algo : Algo N)) := by
  cases policy with
  | fifo => exact ⟨fifoRefinement hN hN'⟩
  | min => exact ⟨minRefinement hN hN'⟩
  | lru => exact ⟨lruRefinement hN hN'⟩
  | secondChance => exact ⟨secondChanceRefinement hN hN'⟩

section Refinement

variable {fn : Algo N} (R : Refinement fn) (s₀ : State N) {query : List UInt8}

include R

/-- The loads of a run are the pages referenced at the times of its misses. -/
theorem Refinement.loads_eq (hlen : query.length < 2 ^ 32) (hq : ∀ p ∈ query, p ≠ FRAME_EMPTY)
    {t : ℕ} (ht : t ≤ query.length) {s : State N} {rs : List AccessResult}
    (hrun : runSteps fn s₀ query t = .ok (s, rs)) :
    loads rs
      = ((List.range t).filter fun τ => query.getD τ 0 ∉ residentAt fn s₀ query τ).map
          fun τ => query.getD τ 0 := by
  induction t generalizing s rs with
  | zero =>
    obtain ⟨-, rfl⟩ := Prod.mk.inj (Except.ok.inj hrun)
    rfl
  | succ t ih =>
    have htlt : t < query.length := by omega
    obtain ⟨s₁, rs₁, r, s', hrun₁, -, hrun', -, -, hri, -, hacc⟩ := R.run_step s₀ hlen hq htlt
    obtain ⟨-, rfl⟩ := Prod.mk.inj (Except.ok.inj (hrun.symm.trans hrun'))
    have hloaded := hacc.frames.loaded_eq
    rw [loads_concat, ih htlt.le hrun₁, List.range_succ, List.filter_append, List.map_append]
    rcases hacc.frames.resident_eq (hq _ (List.getElem_mem htlt)) hri.distinct with
      ⟨hmem, hr, -⟩ | ⟨hmem, hr, -⟩ | ⟨hmem, hr, -⟩
    · simp [hr, residentAt_eq hrun₁, hmem, htlt]
    · simp [hr, residentAt_eq hrun₁, hmem, htlt, hloaded]
    · simp [hr, residentAt_eq hrun₁, hmem, htlt, hloaded]

/-- A policy is conservative when every resident page but the victim was referenced after each
load of the victim. -/
theorem Refinement.isConservative (hlen : query.length < 2 ^ 32)
    (hq : ∀ p ∈ query, p ≠ FRAME_EMPTY)
    (hvictim : ∀ (t : ℕ) (ht : t < query.length) (s : State N) (rs : List AccessResult)
      (r : AccessResult) (s' : State N), runSteps fn s₀ query t = .ok (s, rs) →
      fn s query[t] (UInt16.ofNat t) = .ok (r, s') → r.hit = 0 →
      (∀ i, s.frames i ≠ FRAME_EMPTY) →
      ∀ τ < t, query.getD τ 0 = r.evicted → query.getD τ 0 ∉ residentAt fn s₀ query τ →
      ∀ p ∈ resident s.frames, p ≠ r.evicted → ∃ σ, τ < σ ∧ σ < t ∧ query.getD σ 0 = p) :
    IsConservative N (fun t => query.getD t 0) query.length (residentAt fn s₀ query) := by
  refine ⟨residentAt_zero fn s₀ query, fun t ht hmem => R.residentAt_hit s₀ hlen hq ht hmem,
    fun t ht hmiss => ?_⟩
  obtain ⟨s, rs, r, s', hrun, hfn, hrun', -, -, hri, -, hacc⟩ := R.run_step s₀ hlen hq ht
  rw [residentAt_eq hrun, List.getD_eq_getElem _ _ ht] at hmiss
  simp only [residentAt_eq hrun, residentAt_eq hrun']
  rw [List.getD_eq_getElem _ _ ht, card_resident hri.distinct]
  rcases hacc.frames.resident_eq (hq _ (List.getElem_mem ht)) hri.distinct with
    ⟨hin, -⟩ | ⟨-, -, -, heq⟩ | ⟨-, hr, hfull, hev, heq⟩
  · exact absurd hin hmiss
  · exact Or.inl heq
  · have hnone : ∀ i, s.frames i ≠ FRAME_EMPTY := fun i hi =>
      absurd (occupied_lt_of_empty hi) (by omega)
    refine Or.inr ⟨r.evicted, hev, heq, hfull, fun τ hτ hv hload p hp => ?_⟩
    rw [mem_usedIn]
    by_cases hpv : p = r.evicted
    · exact ⟨τ, le_rfl, hτ, hv.trans hpv.symm⟩
    · obtain ⟨σ, hτσ, hσ, hσp⟩ := hvictim t ht s rs r s' hrun hfn hr hnone τ hτ hv hload p hp hpv
      exact ⟨σ, hτσ.le, hσ, hσp⟩

/-- The bound for a conservative policy, against any strategy and against the policies of the
program themselves, with `h ≤ N` frames. -/
theorem Refinement.competitive (hN : 1 ≤ N) (hN' : N ≤ 128) (hlen : query.length < 2 ^ 32)
    (hq : ∀ p ∈ query, p ≠ FRAME_EMPTY)
    (hcons : IsConservative N (fun t => query.getD t 0) query.length (residentAt fn s₀ query)) :
    ∃ s rs, runOne fn s₀ query = .ok (s, rs) ∧
      (∀ h S, h ≤ N → IsDemandPaging h (fun t => query.getD t 0) query.length S →
        (N + 1 - h) * s.misses.toNat
          ≤ N * misses (fun t => query.getD t 0) S query.length + N * (N - h)) ∧
      ∀ h (t₀ : State h) (policy : Policy), 1 ≤ h → h ≤ N →
        ∃ t ts, runOne policy.algo t₀ query = .ok (t, ts) ∧
          (N + 1 - h) * s.misses.toNat ≤ N * t.misses.toNat + N * (N - h) := by
  obtain ⟨s, rs, hrun, -⟩ := R.run s₀ hlen hq _ le_rfl
  have hbound : ∀ h S, h ≤ N → IsDemandPaging h (fun t => query.getD t 0) query.length S →
      (N + 1 - h) * s.misses.toNat
        ≤ N * misses (fun t => query.getD t 0) S query.length + N * (N - h) := by
    intro h S hh hS
    rw [R.misses_eq s₀ hlen hq le_rfl hrun]
    exact hcons.misses_mul_le hN hh hS
  refine ⟨s, rs, hrun, hbound, fun h t₀ policy hh1 hh => ?_⟩
  obtain ⟨R'⟩ := policy.nonempty_refinement hh1 (hh.trans hN')
  obtain ⟨t, ts, hrun', -⟩ := R'.run t₀ hlen hq _ le_rfl
  refine ⟨t, ts, hrun', ?_⟩
  rw [R'.misses_eq t₀ hlen hq le_rfl hrun']
  exact hbound h _ hh (R'.isDemandPaging t₀ hlen hq)

end Refinement

/-! ### FIFO -/

/-- The resident sets of a FIFO run are a conservative strategy. -/
theorem fifo_isConservative (hN : 1 ≤ N) (hN' : N ≤ 128) (s₀ : State N) {query : List UInt8}
    (hlen : query.length < 2 ^ 32) (hq : ∀ p ∈ query, p ≠ FRAME_EMPTY) :
    IsConservative N (fun t => query.getD t 0) query.length
      (residentAt schedulerFifo s₀ query) := by
  apply (fifoRefinement hN hN').isConservative s₀ hlen hq
  intro t ht s rs r s' hrun hfn hr hfull τ hτ hv hload p hp hpv
  obtain ⟨s₁, rs₁, is, hrun₁, hinv, horder⟩ := fifo_run hN hN' s₀ hq t ht.le
  obtain ⟨rfl, rfl⟩ := Prod.mk.inj (Except.ok.inj (hrun.symm.trans hrun₁))
  have hlater := ((horder.access hN' hinv (hq _ (List.getElem_mem ht)) hfn).evicts hr hfull).2
    p hp hpv
  rw [(fifoRefinement hN hN').loads_eq s₀ hlen hq ht.le hrun] at hlater
  obtain ⟨σ, hσ, hτσ, hσp⟩ := hlater.exists_time (List.pairwise_lt_range.filter _)
    (List.mem_filter.mpr ⟨List.mem_range.mpr hτ, decide_eq_true hload⟩) hv
  exact ⟨σ, hτσ, List.mem_range.mp (List.mem_of_mem_filter hσ), hσp⟩

/-- **FIFO is competitive.**  A run of FIFO with `N` frames misses, up to a constant, at most
`N / (N - h + 1)` times as often as any demand-paging strategy with `h ≤ N` frames, and as any of
the four policies run with `h` frames. -/
theorem fifo_competitive (hN : 1 ≤ N) (hN' : N ≤ 128) (s₀ : State N) {query : List UInt8}
    (hlen : query.length < 2 ^ 16) (hq : ∀ p ∈ query, p ≠ FRAME_EMPTY) :
    ∃ s rs, runOne schedulerFifo s₀ query = .ok (s, rs) ∧
      (∀ h S, h ≤ N → IsDemandPaging h (fun t => query.getD t 0) query.length S →
        (N + 1 - h) * s.misses.toNat
          ≤ N * misses (fun t => query.getD t 0) S query.length + N * (N - h)) ∧
      ∀ h (t₀ : State h) (policy : Policy), 1 ≤ h → h ≤ N →
        ∃ t ts, runOne policy.algo t₀ query = .ok (t, ts) ∧
          (N + 1 - h) * s.misses.toNat ≤ N * t.misses.toNat + N * (N - h) := by
  have hlen32 : query.length < 2 ^ 32 := by omega
  exact (fifoRefinement hN hN').competitive s₀ hN hN' hlen32 hq
    (fifo_isConservative hN hN' s₀ hlen32 hq)

/-- Two frames on the references `1 2 3 1`. -/
theorem fifo_competitive_two :
    ∃ s rs, runOne schedulerFifo (zeroMemory 2) [1, 2, 3, 1] = .ok (s, rs) ∧
      (∀ h S, h ≤ 2 → IsDemandPaging h (fun t => ([1, 2, 3, 1] : List UInt8).getD t 0) 4 S →
        (2 + 1 - h) * s.misses.toNat
          ≤ 2 * misses (fun t => ([1, 2, 3, 1] : List UInt8).getD t 0) S 4 + 2 * (2 - h)) ∧
      ∀ h (t₀ : State h) (policy : Policy), 1 ≤ h → h ≤ 2 →
        ∃ t ts, runOne policy.algo t₀ [1, 2, 3, 1] = .ok (t, ts) ∧
          (2 + 1 - h) * s.misses.toNat ≤ 2 * t.misses.toNat + 2 * (2 - h) :=
  fifo_competitive (by decide) (by decide) (zeroMemory 2) (by decide) (by simp [FRAME_EMPTY])

/-! ### LRU -/

/-- The resident sets of an LRU run are a conservative strategy. -/
theorem lru_isConservative (hN : 1 ≤ N) (hN' : N ≤ 128) (s₀ : State N) {query : List UInt8}
    (hlen : query.length < 2 ^ 32) (hq : ∀ p ∈ query, p ≠ FRAME_EMPTY) :
    IsConservative N (fun t => query.getD t 0) query.length
      (residentAt schedulerLru s₀ query) := by
  apply (lruRefinement hN hN').isConservative s₀ hlen hq
  intro t ht s rs r s' hrun hfn hr hfull τ hτ hv hload p hp hpv
  obtain ⟨s₁, rs₁, xs, hrun₁, hinv, hpages⟩ := lru_run s₀ hN hN' hq t ht.le
  obtain ⟨rfl, rfl⟩ := Prod.mk.inj (Except.ok.inj (hrun.symm.trans hrun₁))
  obtain ⟨r', s'', ys, hfn', hacc, -⟩ :=
    hinv.exists_access hN hN' (UInt16.ofNat t) (hq _ (List.getElem_mem ht))
  obtain ⟨rfl, rfl⟩ := Prod.mk.inj (Except.ok.inj (hfn.symm.trans hfn'))
  have hlater := (hinv.evicts_oldest hpages hacc hr hfull).2 p hp hpv
  -- the history is the references at all times before `t`
  have htake : query.take t = (List.range t).map fun τ => query.getD τ 0 := by
    apply List.ext_getElem
    · simp [ht.le]
    · intro i hi hi'
      rw [List.length_take] at hi
      simp [show i < query.length by omega]
  rw [htake] at hlater
  obtain ⟨σ, hσ, hτσ, hσp⟩ := hlater.exists_time List.pairwise_lt_range (List.mem_range.mpr hτ) hv
  exact ⟨σ, hτσ, List.mem_range.mp hσ, hσp⟩

/-- **LRU is competitive**, with the same bound. -/
theorem lru_competitive (hN : 1 ≤ N) (hN' : N ≤ 128) (s₀ : State N) {query : List UInt8}
    (hlen : query.length < 2 ^ 16) (hq : ∀ p ∈ query, p ≠ FRAME_EMPTY) :
    ∃ s rs, runOne schedulerLru s₀ query = .ok (s, rs) ∧
      (∀ h S, h ≤ N → IsDemandPaging h (fun t => query.getD t 0) query.length S →
        (N + 1 - h) * s.misses.toNat
          ≤ N * misses (fun t => query.getD t 0) S query.length + N * (N - h)) ∧
      ∀ h (t₀ : State h) (policy : Policy), 1 ≤ h → h ≤ N →
        ∃ t ts, runOne policy.algo t₀ query = .ok (t, ts) ∧
          (N + 1 - h) * s.misses.toNat ≤ N * t.misses.toNat + N * (N - h) := by
  have hlen32 : query.length < 2 ^ 32 := by omega
  exact (lruRefinement hN hN').competitive s₀ hN hN' hlen32 hq
    (lru_isConservative hN hN' s₀ hlen32 hq)

/-- Two frames on the references `1 2 3 1`. -/
theorem lru_competitive_two :
    ∃ s rs, runOne schedulerLru (zeroMemory 2) [1, 2, 3, 1] = .ok (s, rs) ∧
      (∀ h S, h ≤ 2 → IsDemandPaging h (fun t => ([1, 2, 3, 1] : List UInt8).getD t 0) 4 S →
        (2 + 1 - h) * s.misses.toNat
          ≤ 2 * misses (fun t => ([1, 2, 3, 1] : List UInt8).getD t 0) S 4 + 2 * (2 - h)) ∧
      ∀ h (t₀ : State h) (policy : Policy), 1 ≤ h → h ≤ 2 →
        ∃ t ts, runOne policy.algo t₀ [1, 2, 3, 1] = .ok (t, ts) ∧
          (2 + 1 - h) * s.misses.toNat ≤ 2 * t.misses.toNat + 2 * (2 - h) :=
  lru_competitive (by decide) (by decide) (zeroMemory 2) (by decide) (by simp [FRAME_EMPTY])

end OsLabs.PageReplace
