import Mathlib.Algebra.BigOperators.Group.Finset.Piecewise
import Mathlib.Algebra.Order.BigOperators.Group.Finset
import Mathlib.Logic.Relation

/-!
# Workers that share a state

`step` is what one worker does next: it changes the shared state and the worker itself, or there is
nothing left to do.  In an interleaving any worker takes the next step.  To prove something about
all interleavings it is enough to look at one worker: `Interleaving.invariant` is for an invariant
that ties the shared state to the sum of what the workers hold, and `Interleaving.wellFounded` for
a measure that every step decreases.
-/

namespace OsLabs

open Function Relation

/-- A shared state and the workers. -/
@[ext]
structure World (ι S W : Type*) where
  shared : S
  workers : ι → W

variable {ι S W : Type*} [DecidableEq ι]

/-- Some worker takes a step. -/
inductive Interleaving (step : S → W → Option (S × W)) : World ι S W → World ι S W → Prop where
  | mk {σ : World ι S W} {s' : S} {w' : W} (i : ι)
    (h : step σ.shared (σ.workers i) = some (s', w')) :
    Interleaving step σ { shared := s', workers := update σ.workers i w' }

/-- A state in which no worker can take a step. -/
def Stopped (step : S → W → Option (S × W)) (σ : World ι S W) : Prop :=
  ∀ i, step σ.shared (σ.workers i) = none

variable [Fintype ι] {step : S → W → Option (S × W)}

/-- The sum over the workers, with one of them apart. -/
theorem exists_sum_update {M : Type*} [AddCommMonoid M] (held : W → M) (ws : ι → W) (i : ι) :
    ∃ rest, ∑ j, held (ws j) = held (ws i) + rest ∧
      ∀ w, ∑ j, held (update ws i w j) = held w + rest := by
  refine ⟨∑ j ∈ Finset.univ.erase i, held (ws j), ?_, fun w => ?_⟩
  · exact (Finset.add_sum_erase _ _ (Finset.mem_univ i)).symm
  · rw [← Finset.add_sum_erase _ _ (Finset.mem_univ i), update_self]
    congr 1
    apply Finset.sum_congr rfl
    intro j hj
    rw [update_of_ne (Finset.ne_of_mem_erase hj)]

/-- An invariant `I` of the shared state and of what the workers hold, for workers that satisfy
`P`. -/
theorem Interleaving.invariant {M : Type*} [AddCommMonoid M] (held : W → M) (P : W → Prop)
    (I : S → M → Prop)
    (hstep : ∀ {s w s' w' rest}, step s w = some (s', w') → P w → I s (held w + rest) →
      P w' ∧ I s' (held w' + rest))
    {σ₀ σ : World ι S W} (h : ReflTransGen (Interleaving step) σ₀ σ)
    (hP : ∀ i, P (σ₀.workers i)) (hI : I σ₀.shared (∑ i, held (σ₀.workers i))) :
    (∀ i, P (σ.workers i)) ∧ I σ.shared (∑ i, held (σ.workers i)) := by
  induction h with
  | refl => exact ⟨hP, hI⟩
  | @tail σ _ _ hlast ih =>
    obtain ⟨i, hi⟩ := hlast
    rename_i s' w'
    obtain ⟨hPs, hIs⟩ := ih
    obtain ⟨rest, hsum, hsum'⟩ := exists_sum_update held σ.workers i
    rw [hsum] at hIs
    obtain ⟨hP', hI'⟩ := hstep hi (hPs i) hIs
    refine ⟨fun j => ?_, ?_⟩
    · show P (update σ.workers i w' j)
      by_cases hj : j = i
      · rw [hj, update_self]
        exact hP'
      · rw [update_of_ne hj]
        exact hPs j
    · rw [← hsum'] at hI'
      exact hI'

/-- If every step decreases a measure of the shared state and the worker, no interleaving goes on
forever. -/
theorem Interleaving.wellFounded (ν : S → ℕ) (μ : W → ℕ)
    (hstep : ∀ {s w s' w'}, step s w = some (s', w') → ν s' + μ w' < ν s + μ w) :
    WellFounded fun σ' σ : World ι S W => Interleaving step σ σ' := by
  refine Subrelation.wf (fun {σ' σ} h => ?_)
    (measure fun σ : World ι S W => ν σ.shared + ∑ i, μ (σ.workers i)).wf
  obtain ⟨i, hi⟩ := h
  rename_i s' w'
  obtain ⟨rest, hsum, hsum'⟩ := exists_sum_update μ σ.workers i
  have hlt := hstep hi
  show ν s' + ∑ j, μ (update σ.workers i w' j) < ν σ.shared + ∑ j, μ (σ.workers j)
  rw [hsum, hsum']
  omega

omit [Fintype ι] in
/-- Workers that cannot go on forever can be run until they all stop. -/
theorem exists_stopped (hwf : WellFounded fun σ' σ : World ι S W => Interleaving step σ σ')
    (σ : World ι S W) : ∃ σ', ReflTransGen (Interleaving step) σ σ' ∧ Stopped step σ' := by
  induction σ using hwf.induction with
  | _ σ ih =>
    by_cases hstop : Stopped step σ
    · exact ⟨σ, .refl, hstop⟩
    · -- some worker goes on
      unfold Stopped at hstop
      push Not at hstop
      obtain ⟨i, hi⟩ := hstop
      obtain ⟨⟨s', w'⟩, hnext⟩ := Option.ne_none_iff_exists'.mp hi
      have hlast : Interleaving step σ { shared := s', workers := update σ.workers i w' } :=
        .mk i hnext
      obtain ⟨σ', hrun, hstopped⟩ := ih _ hlast
      exact ⟨σ', .head hlast hrun, hstopped⟩

end OsLabs
