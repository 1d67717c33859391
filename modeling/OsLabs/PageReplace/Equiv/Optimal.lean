import OsLabs.PageReplace.Equiv.Residency
import OsLabs.PageReplace.Main

/-!
# MIN is optimal

The resident sets of a run of any of the four policies are a demand-paging strategy
(`Refinement.isDemandPaging`), and its misses are those the program counts
(`Refinement.misses_eq`).  The resident sets of a MIN run are moreover a farthest-in-future
strategy (`min_isFarthest`), so no strategy with as many frames misses less.
-/

namespace OsLabs.PageReplace

open Paging

variable {N : ℕ}

/-- The pages in the frames before reference `t` of a run. -/
def residentAt (fn : Algo N) (s₀ : State N) (query : List UInt8) (t : ℕ) : Finset UInt8 :=
  match runSteps fn s₀ query t with
  | .ok (s, _) => resident s.frames
  | .error _ => ∅

theorem residentAt_eq {fn : Algo N} {s₀ s : State N} {query : List UInt8} {t : ℕ}
    {rs : List AccessResult} (h : runSteps fn s₀ query t = .ok (s, rs)) :
    residentAt fn s₀ query t = resident s.frames := by
  rw [residentAt, h]

theorem residentAt_zero (fn : Algo N) (s₀ : State N) (query : List UInt8) :
    residentAt fn s₀ query 0 = ∅ := by
  ext p
  rw [residentAt_eq rfl, mem_resident]
  refine ⟨fun ⟨hp, i, hi⟩ => absurd hi.symm hp, fun h => absurd h (Finset.notMem_empty p)⟩

section Refinement

variable {fn : Algo N} (R : Refinement fn) (s₀ : State N) {query : List UInt8}

include R

/-- The resident sets of a run are a demand-paging strategy. -/
theorem Refinement.isDemandPaging (hlen : query.length < 2 ^ 32)
    (hq : ∀ p ∈ query, p ≠ FRAME_EMPTY) :
    IsDemandPaging N (fun t => query.getD t 0) query.length (residentAt fn s₀ query) := by
  refine ⟨residentAt_zero fn s₀ query, ?_, ?_, ?_⟩ <;> intro t ht <;>
    obtain ⟨s, rs, r, s', hrun, -, hrun', -, -, hri, hri', hacc⟩ := R.run_step s₀ hlen hq ht <;>
    simp only [residentAt_eq hrun, residentAt_eq hrun', List.getD_eq_getElem _ _ ht]
  · rcases hacc.frames.resident_eq (hq _ (List.getElem_mem ht)) hri.distinct with
      ⟨hmem, -, heq⟩ | ⟨-, -, -, heq⟩ | ⟨-, -, -, -, heq⟩ <;> rw [heq]
    · exact hmem
    · exact Finset.mem_insert_self ..
    · exact Finset.mem_insert_self ..
  · rw [card_resident hri'.distinct]
    exact occupied_le s'.frames
  · rcases hacc.frames.resident_eq (hq _ (List.getElem_mem ht)) hri.distinct with
      ⟨-, -, heq⟩ | ⟨-, -, -, heq⟩ | ⟨-, -, -, -, heq⟩ <;> rw [heq]
    · exact Finset.subset_insert ..
    · exact Finset.insert_subset_insert _ (Finset.erase_subset ..)

/-- A hit leaves the resident set as it is. -/
theorem Refinement.residentAt_hit (hlen : query.length < 2 ^ 32)
    (hq : ∀ p ∈ query, p ≠ FRAME_EMPTY) {t : ℕ} (ht : t < query.length)
    (hmem : query.getD t 0 ∈ residentAt fn s₀ query t) :
    residentAt fn s₀ query (t + 1) = residentAt fn s₀ query t := by
  obtain ⟨s, rs, r, s', hrun, -, hrun', -, -, hri, -, hacc⟩ := R.run_step s₀ hlen hq ht
  rw [residentAt_eq hrun, List.getD_eq_getElem _ _ ht] at hmem
  rw [residentAt_eq hrun, residentAt_eq hrun']
  rcases hacc.frames.resident_eq (hq _ (List.getElem_mem ht)) hri.distinct with
    ⟨-, -, heq⟩ | ⟨hnot, -⟩ | ⟨hnot, -⟩
  · exact heq
  · exact absurd hmem hnot
  · exact absurd hmem hnot

/-- The program's miss counter counts the misses of that strategy. -/
theorem Refinement.misses_eq (hlen : query.length < 2 ^ 32) (hq : ∀ p ∈ query, p ≠ FRAME_EMPTY)
    {t : ℕ} (ht : t ≤ query.length) {s : State N} {rs : List AccessResult}
    (hrun : runSteps fn s₀ query t = .ok (s, rs)) :
    s.misses.toNat = misses (fun t => query.getD t 0) (residentAt fn s₀ query) t := by
  induction t generalizing s rs with
  | zero =>
    obtain ⟨rfl, -⟩ := Prod.mk.inj (Except.ok.inj hrun)
    rw [misses_zero]
    rfl
  | succ t ih =>
    have htlt : t < query.length := by omega
    obtain ⟨s₁, rs₁, r, s', hrun₁, -, hrun', -, -, hri, hri', hacc⟩ :=
      R.run_step s₀ hlen hq htlt
    obtain ⟨rfl, -⟩ := Prod.mk.inj (Except.ok.inj (hrun.symm.trans hrun'))
    have hcount := hri'.counts
    rw [misses_succ, ← ih htlt.le hrun₁, residentAt_eq hrun₁, List.getD_eq_getElem _ _ htlt,
      hacc.misses]
    rcases hacc.frames.resident_eq (hq _ (List.getElem_mem htlt)) hri.distinct with
      ⟨hmem, hr, -⟩ | ⟨hmem, hr, -⟩ | ⟨hmem, hr, -⟩
    · rw [if_pos hr, if_pos hmem, Nat.add_zero]
    · rw [if_neg (by rw [hr]; decide), if_neg hmem]
      exact toNat_add_one (by have := hri.counts; omega)
    · rw [if_neg (by rw [hr]; decide), if_neg hmem]
      exact toNat_add_one (by have := hri.counts; omega)

end Refinement

/-- What a step of MIN does to the resident set when the page is not resident: in a full memory it
drops the page of the frame that the search settled on. -/
theorem min_miss (hN : 1 ≤ N) (hN' : N ≤ 128) (s₀ : State N) {query : List UInt8}
    (hlen : query.length < 2 ^ 32) (hq : ∀ p ∈ query, p ≠ FRAME_EMPTY) {t : ℕ}
    (ht : t < query.length) (hmiss : query.getD t 0 ∉ residentAt schedulerMin s₀ query t) :
    ((residentAt schedulerMin s₀ query t).card < N ∧
      residentAt schedulerMin s₀ query (t + 1)
        = insert (query.getD t 0) (residentAt schedulerMin s₀ query t)) ∨
    ((residentAt schedulerMin s₀ query t).card = N ∧
      ∃ (f : Fin N → UInt8) (p : UInt8) (i : Fin N),
        (minVictim f query (UInt16.ofNat t) p).fi = (i : ℕ) ∧
        f i ∈ residentAt schedulerMin s₀ query t ∧
        residentAt schedulerMin s₀ query (t + 1)
          = insert (query.getD t 0) ((residentAt schedulerMin s₀ query t).erase (f i)) ∧
        ∀ a ∈ residentAt schedulerMin s₀ query t, ∃ j, f j = a) := by
  obtain ⟨s, rs, r, s', hrun, hfn, hrun', -, -, hri, hri', hacc⟩ :=
    (minRefinement hN hN').run_step s₀ hlen hq ht
  have hp := hq _ (List.getElem_mem ht)
  rw [residentAt_eq hrun, List.getD_eq_getElem _ _ ht] at hmiss
  simp only [residentAt_eq hrun, residentAt_eq hrun', List.getD_eq_getElem _ _ ht,
    card_resident hri.distinct]
  rcases hacc.frames.resident_eq hp hri.distinct with
    ⟨hin, -⟩ | ⟨-, -, hlt, heq⟩ | ⟨-, -, hfull, hev, heq⟩
  · exact absurd hin hmiss
  · exact Or.inl ⟨hlt, heq⟩
  · have habsent : ∀ i, s.frames i ≠ query[t] := fun i hi => hmiss (mem_resident.mpr ⟨hp, i, hi⟩)
    have hnone : ∀ i, s.frames i ≠ FRAME_EMPTY := fun i hi =>
      absurd (occupied_lt_of_empty hi) (by omega)
    obtain ⟨i, hi, hevi⟩ := schedulerMin_evicted hN hN' habsent hnone hfn
    rw [hri.refSeq] at hi
    rw [hevi] at hev heq
    exact Or.inr ⟨hfull, s.frames, _, i, hi, hev, heq, fun a ha => (mem_resident.mp ha).2⟩

/-- The resident sets of a MIN run are a farthest-in-future strategy. -/
theorem min_isFarthest (hN : 1 ≤ N) (hN' : N ≤ 128) (s₀ : State N) {query : List UInt8}
    (hlen : query.length ≤ MAX_QUERY) (hq : ∀ p ∈ query, p ≠ FRAME_EMPTY) :
    IsFarthest N (fun t => query.getD t 0) query.length (residentAt schedulerMin s₀ query) := by
  have hlen32 : query.length < 2 ^ 32 := lt_of_le_of_lt hlen (by decide)
  refine ⟨residentAt_zero _ s₀ query, fun t ht hmem =>
    (minRefinement hN hN').residentAt_hit s₀ hlen32 hq ht hmem, fun t ht hmiss => ?_⟩
  rcases min_miss hN hN' s₀ hlen32 hq ht hmiss with
    ⟨-, heq⟩ | ⟨hfull, f, p, i, hi, hmem, heq, hframes⟩
  · exact Or.inl heq
  · refine Or.inr ⟨f i, hmem, heq, hfull, fun u hu hused a ha => ?_⟩
    obtain ⟨j, rfl⟩ := hframes a ha
    exact minVictim_farthest hN' hlen ht hi hu hused j

/-- **MIN is optimal**: a run of MIN on a sequence that fits `MAX_QUERY` counts at most as many
misses as any demand-paging strategy with as many frames, and as any of the other policies. -/
theorem min_optimal (hN : 1 ≤ N) (hN' : N ≤ 128) (s₀ : State N) {query : List UInt8}
    (hlen : query.length ≤ MAX_QUERY) (hq : ∀ p ∈ query, p ≠ FRAME_EMPTY) :
    ∃ s rs, runOne schedulerMin s₀ query = .ok (s, rs) ∧
      (∀ S, IsDemandPaging N (fun t => query.getD t 0) query.length S →
        s.misses.toNat ≤ misses (fun t => query.getD t 0) S query.length) ∧
      ∀ policy : Policy, ∃ s' rs', runOne policy.algo s₀ query = .ok (s', rs') ∧
        s.misses.toNat ≤ s'.misses.toNat := by
  have hlen32 : query.length < 2 ^ 32 := lt_of_le_of_lt hlen (by decide)
  obtain ⟨s, rs, hrun, -⟩ := (minRefinement hN hN').run s₀ hlen32 hq _ le_rfl
  have hmin := (minRefinement hN hN').misses_eq s₀ hlen32 hq le_rfl hrun
  have hopt : ∀ S, IsDemandPaging N (fun t => query.getD t 0) query.length S →
      s.misses.toNat ≤ misses (fun t => query.getD t 0) S query.length := by
    intro S hS
    rw [hmin]
    exact (min_isFarthest hN hN' s₀ hlen hq).misses_le hS le_rfl
  -- every policy is such a strategy
  have hpolicy {fn : Algo N} (R : Refinement fn) :
      ∃ s' rs', runOne fn s₀ query = .ok (s', rs') ∧ s.misses.toNat ≤ s'.misses.toNat := by
    obtain ⟨s', rs', hrun', -⟩ := R.run s₀ hlen32 hq _ le_rfl
    refine ⟨s', rs', hrun', ?_⟩
    rw [R.misses_eq s₀ hlen32 hq le_rfl hrun']
    exact hopt _ (R.isDemandPaging s₀ hlen32 hq)
  refine ⟨s, rs, hrun, hopt, fun policy => ?_⟩
  cases policy with
  | fifo => exact hpolicy (fifoRefinement hN hN')
  | min => exact hpolicy (minRefinement hN hN')
  | lru => exact hpolicy (lruRefinement hN hN')
  | secondChance => exact hpolicy (secondChanceRefinement hN hN')

/-- Two frames and the references `7 0 1 7`. -/
theorem min_optimal_two :
    ∃ s rs, runOne schedulerMin (zeroMemory 2) [7, 0, 1, 7] = .ok (s, rs) ∧
      (∀ S, IsDemandPaging 2 (fun t => ([7, 0, 1, 7] : List UInt8).getD t 0) 4 S →
        s.misses.toNat ≤ misses (fun t => ([7, 0, 1, 7] : List UInt8).getD t 0) S 4) ∧
      ∀ policy : Policy, ∃ s' rs', runOne policy.algo (zeroMemory 2) [7, 0, 1, 7] = .ok (s', rs') ∧
        s.misses.toNat ≤ s'.misses.toNat :=
  min_optimal (by decide) (by decide) (zeroMemory 2) (by decide) (by simp [FRAME_EMPTY])

end OsLabs.PageReplace
