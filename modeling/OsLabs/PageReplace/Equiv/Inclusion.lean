import OsLabs.Lib.Inclusion
import OsLabs.PageReplace.Equiv.Optimal

/-!
# MIN has the inclusion property

The victim of `scheduler_min` is the first resident page in an order that the reference sequence
and the step alone determine (`MinOrder`): the page with the larger key, and of two pages with the
same key the smaller one.  So the resident sets of its runs are a priority strategy
(`min_isPriority`), whatever frames the pages are in.
-/

namespace OsLabs.PageReplace

open Paging

variable {N M : ℕ}

/-- MIN drops page `v` at step `t` rather than page `a`. -/
def MinOrder (query : List UInt8) (t : ℕ) (v a : UInt8) : Prop :=
  minKey query (UInt16.ofNat t) a < minKey query (UInt16.ofNat t) v ∨
    (minKey query (UInt16.ofNat t) a = minKey query (UInt16.ofNat t) v ∧ v < a)

theorem MinOrder.asymm {query : List UInt8} {t : ℕ} {v a : UInt8} (h : MinOrder query t v a) :
    ¬MinOrder query t a v := by
  intro h'
  rcases h with h | ⟨heq, hva⟩
  · rcases h' with h' | ⟨heq', -⟩ <;> omega
  · rcases h' with h' | ⟨-, hav⟩
    · omega
    · exact UInt8.lt_asymm hva hav

/-- The resident sets of a MIN run are a priority strategy. -/
theorem min_isPriority (hN : 1 ≤ N) (hN' : N ≤ 128) (s₀ : State N) {query : List UInt8}
    (hlen : query.length ≤ MAX_QUERY) (hq : ∀ p ∈ query, p ≠ FRAME_EMPTY) :
    IsPriority N (fun t => query.getD t 0) query.length (MinOrder query)
      (residentAt schedulerMin s₀ query) := by
  have hlen32 : query.length < 2 ^ 32 := lt_of_le_of_lt hlen (by decide)
  refine ⟨residentAt_zero _ s₀ query, fun t ht hmem =>
    (minRefinement hN hN').residentAt_hit s₀ hlen32 hq ht hmem, fun t ht hmiss => ?_⟩
  rcases min_miss hN hN' s₀ hlen32 hq ht hmiss with
    hroom | ⟨hfull, f, p, i, hi, hmem, heq, hframes⟩
  · exact Or.inl hroom
  · -- a full memory: the page dropped comes first in the order
    refine Or.inr ⟨hfull, f i, hmem, heq, fun a ha hne => ?_⟩
    obtain ⟨j, rfl⟩ := hframes a ha
    rcases minVictim_best hN' (fun j => minKey_nonneg hlen ht (f j)) hi j with hlt | ⟨hkey, hle⟩
    · exact Or.inl hlt
    · exact Or.inr ⟨hkey, UInt8.lt_of_le_of_ne hle (Ne.symm hne)⟩

/-- **The inclusion property of MIN**: after every step of a run with `N` frames the resident
pages are among those of a run with `M ≥ N` frames, which counts at most as many misses. -/
theorem min_inclusion (hN : 1 ≤ N) (hNM : N ≤ M) (hM : M ≤ 128) (s₀ : State N) (t₀ : State M)
    {query : List UInt8} (hlen : query.length ≤ MAX_QUERY) (hq : ∀ p ∈ query, p ≠ FRAME_EMPTY)
    {k : ℕ} (hk : k ≤ query.length) :
    ∃ s rs t ts, runSteps schedulerMin s₀ query k = .ok (s, rs) ∧
      runSteps schedulerMin t₀ query k = .ok (t, ts) ∧
      resident s.frames ⊆ resident t.frames ∧ t.misses.toNat ≤ s.misses.toNat := by
  have hN' : N ≤ 128 := by omega
  have hM' : 1 ≤ M := by omega
  have hlen32 : query.length < 2 ^ 32 := lt_of_le_of_lt hlen (by decide)
  -- the two runs are the same priority strategy with two capacities
  have hsub (τ : ℕ) (hτ : τ ≤ query.length) :
      residentAt schedulerMin s₀ query τ ⊆ residentAt schedulerMin t₀ query τ :=
    (min_isPriority hN hN' s₀ hlen hq).subset (fun _ _ _ h => h.asymm) hNM
      (min_isPriority hM' hM t₀ hlen hq) hτ
  obtain ⟨s, rs, hrun, -⟩ := (minRefinement hN hN').run s₀ hlen32 hq k hk
  obtain ⟨t, ts, hrun', -⟩ := (minRefinement hM' hM).run t₀ hlen32 hq k hk
  refine ⟨s, rs, t, ts, hrun, hrun', ?_, ?_⟩
  · rw [← residentAt_eq hrun, ← residentAt_eq hrun']
    exact hsub k hk
  · rw [(minRefinement hN hN').misses_eq s₀ hlen32 hq hk hrun,
      (minRefinement hM' hM).misses_eq t₀ hlen32 hq hk hrun']
    apply misses_le_of_subset
    intro τ hτ
    exact hsub τ (by omega)

/-- Two and three frames after the references `1 2 3 4`. -/
theorem min_inclusion_two_three :
    ∃ s rs t ts, runSteps schedulerMin (zeroMemory 2) [1, 2, 3, 4] 4 = .ok (s, rs) ∧
      runSteps schedulerMin (zeroMemory 3) [1, 2, 3, 4] 4 = .ok (t, ts) ∧
      resident s.frames ⊆ resident t.frames ∧ t.misses.toNat ≤ s.misses.toNat :=
  min_inclusion (by decide) (by decide) (by decide) (zeroMemory 2) (zeroMemory 3) (by decide)
    (by simp [FRAME_EMPTY]) le_rfl

end OsLabs.PageReplace
