import OsLabs.Lib.Loop
import Mathlib.Data.List.Basic
import Mathlib.Data.Option.Basic

/-!
# Programs with checked writes

A program that fails at a write outside of an array is one with values in `Option`.  `Checks`
compares it with the same program on arrays without a bound: where it does not fail it computes the
same, and it does not fail where the result fits the arrays.  As arrays are only ever added to, what
fits at the end has fitted all along, so that a statement about the result is one about every write;
the rules follow the structure of a program.
-/

namespace OsLabs

universe u

variable {σ τ : Type u} {ι : Type*} {fits : σ → Prop} {fits' : τ → Prop} {P : Prop}

/-- `x` computes `v` with checks: when `v` fits, they pass, and `P` held before. -/
structure Checks (fits : σ → Prop) (x : Option σ) (v : σ) (P : Prop) : Prop where
  agrees : ∀ y, x = some y → y = v
  passes : fits v → x = some v ∧ P

theorem Checks.pure {v : σ} (h : fits v → P) : Checks fits (some v) v P :=
  ⟨fun _ hy => (Option.some.inj hy).symm, fun hv => ⟨rfl, h hv⟩⟩

/-- What is checked next starts from what was computed so far. -/
theorem Checks.bind {x : Option σ} {v : σ} {g : σ → Option τ} {v' : τ} (hx : Checks fits x v P)
    (hg : Checks fits' (g v) v' (fits v)) : Checks fits' (x >>= g) v' P := by
  refine ⟨fun y hy => ?_, fun hv' => ?_⟩
  · obtain ⟨w, hw, hgw⟩ := Option.bind_eq_some_iff.mp hy
    obtain rfl := hx.agrees w hw
    exact hg.agrees y hgw
  · obtain ⟨hsome', hv⟩ := hg.passes hv'
    obtain ⟨hsome, hP⟩ := hx.passes hv
    refine ⟨?_, hP⟩
    rw [hsome, Option.bind_eq_bind, Option.bind_some, hsome']

/-- A check that lets `v` pass when it fits. -/
theorem Checks.guard {p : Prop} [Decidable p] {v : σ} (h : fits v → p ∧ P) :
    Checks fits (if p then some v else none) v P := by
  refine ⟨fun y hy => ?_, fun hv => ⟨if_pos (h hv).1, (h hv).2⟩⟩
  obtain ⟨-, hy⟩ := Option.ite_none_right_eq_some.mp hy
  exact (Option.some.inj hy).symm

/-- A computation on a part of the state. -/
theorem Checks.map {x : Option σ} {v : σ} {f : σ → τ} {Q : Prop} (h : Checks fits x v Q)
    (hfits : fits' (f v) → fits v ∧ (Q → P)) :
    Checks fits' (x >>= fun v => some (f v)) (f v) P := by
  refine ⟨fun y hy => ?_, fun hv => ?_⟩
  · obtain ⟨w, hw, hfw⟩ := Option.bind_eq_some_iff.mp hy
    rw [← Option.some.inj hfw, h.agrees w hw]
  · obtain ⟨hfit, hP⟩ := hfits hv
    obtain ⟨hsome, hQ⟩ := h.passes hfit
    rw [hsome]
    exact ⟨rfl, hP hQ⟩

theorem Checks.ite {p : Prop} [Decidable p] {x y : Option σ} {v v' : σ}
    (hx : Checks fits x v P) (hy : Checks fits y v' P) :
    Checks fits (if p then x else y) (if p then v else v') P := by
  by_cases hp : p
  · rw [if_pos hp, if_pos hp]
    exact hx
  · rw [if_neg hp, if_neg hp]
    exact hy

/-- A loop over a list. -/
theorem Checks.foldlM {f : σ → ι → Option σ} {F : σ → ι → σ}
    (h : ∀ s i, Checks fits (f s i) (F s i) (fits s)) (l : List ι) (s : σ) :
    Checks fits (l.foldlM f s) (l.foldl F s) (fits s) := by
  induction l generalizing s with
  | nil => exact .pure id
  | cons i l ih => exact (h s i).bind (ih (F s i))

/-! ### While loops -/

/-- `while (cond) body` with a body that may fail, given up after `fuel` rounds. -/
def checkedLoop (cond : σ → Bool) (body : σ → Option σ) : ℕ → σ → Option (Option σ)
  | 0, s => if cond s then some none else some (some s)
  | fuel + 1, s => if cond s then body s >>= checkedLoop cond body fuel else some (some s)

/-- A loop none of whose rounds fails is the loop without checks. -/
theorem checkedLoop_eq {cond : σ → Bool} {f : σ → Option σ} {F : σ → σ} {s₀ : σ}
    (h : ∀ s, LoopState cond F s₀ s → cond s = true → f s = some (F s)) (fuel : ℕ) :
    checkedLoop cond f fuel s₀ = some (whileLoop cond F fuel s₀) := by
  -- from any state of the loop
  have hfrom (fuel : ℕ) (s : σ) (hs : LoopState cond F s₀ s) :
      checkedLoop cond f fuel s = some (whileLoop cond F fuel s) := by
    induction fuel generalizing s with
    | zero => cases hc : cond s <;> simp [checkedLoop, whileLoop, hc]
    | succ fuel ih =>
      cases hc : cond s with
      | false => simp [checkedLoop, whileLoop, hc]
      | true =>
        rw [whileLoop_succ hc, checkedLoop, if_pos hc, h s hs hc, ← ih (F s) (hs.next hc)]
        rfl
  exact hfrom fuel s₀ .start

/-- A loop that does not fail returns what the loop without checks returns. -/
theorem eq_of_checkedLoop {cond : σ → Bool} {f : σ → Option σ} {F : σ → σ}
    (h : ∀ s y, f s = some y → y = F s) {fuel : ℕ} {s : σ} {result : Option σ}
    (hrun : checkedLoop cond f fuel s = some result) : whileLoop cond F fuel s = result := by
  induction fuel generalizing s with
  | zero =>
    cases hc : cond s with
    | false => simpa [checkedLoop, whileLoop, hc] using hrun
    | true => simpa [checkedLoop, whileLoop, hc] using hrun
  | succ fuel ih =>
    cases hc : cond s with
    | false => simpa [checkedLoop, whileLoop, hc] using hrun
    | true =>
      rw [checkedLoop, if_pos hc] at hrun
      obtain ⟨s', hs', hrest⟩ := Option.bind_eq_some_iff.mp hrun
      obtain rfl := h s s' hs'
      rw [whileLoop_succ hc]
      exact ih hrest

end OsLabs
