import Mathlib.Logic.Function.Iterate
import Mathlib.Order.Basic

/-!
# While loops

`whileLoop` runs a loop for a bounded number of rounds.  `LoopState` collects the states in which
the test of the loop is evaluated; an invariant of the loop is a property of all of them, proved by
induction.  A loop with a decreasing measure returns (`exists_whileLoop`).  `loopTrace` lists the
states in which a round starts, and `whileLoop_record` compares a loop with one that keeps a record
of its rounds.  `breakLoop` runs a loop that only a `break` leaves.
-/

namespace OsLabs

open Function

variable {σ : Type*} {cond : σ → Bool} {body : σ → σ}

/-- `while (cond) body`, given up after `fuel` rounds. -/
def whileLoop (cond : σ → Bool) (body : σ → σ) : ℕ → σ → Option σ
  | 0, s => if cond s then none else some s
  | fuel + 1, s => if cond s then whileLoop cond body fuel (body s) else some s

/-- The states in which the test is evaluated when the loop is entered in `s₀`. -/
inductive LoopState (cond : σ → Bool) (body : σ → σ) (s₀ : σ) : σ → Prop where
  | start : LoopState cond body s₀ s₀
  | next {s : σ} (h : LoopState cond body s₀ s) (hc : cond s = true) :
    LoopState cond body s₀ (body s)

theorem LoopState.trans {s₀ s s' : σ} (h : LoopState cond body s₀ s)
    (h' : LoopState cond body s s') : LoopState cond body s₀ s' := by
  induction h' with
  | start => exact h
  | next _ hc ih => exact ih.next hc

theorem whileLoop_of_not {s : σ} (hc : cond s = false) (fuel : ℕ) :
    whileLoop cond body fuel s = some s := by
  cases fuel <;> simp [whileLoop, hc]

theorem whileLoop_succ {s : σ} (hc : cond s = true) (fuel : ℕ) :
    whileLoop cond body (fuel + 1) s = whileLoop cond body fuel (body s) := by
  simp [whileLoop, hc]

/-- The loop returns one of its states, and one in which the test fails. -/
theorem loopState_of_whileLoop {fuel : ℕ} {s₀ s : σ} (h : whileLoop cond body fuel s₀ = some s) :
    LoopState cond body s₀ s ∧ cond s = false := by
  induction fuel generalizing s₀ with
  | zero =>
    cases hc : cond s₀ with
    | false =>
      rw [whileLoop_of_not hc] at h
      obtain rfl := Option.some.inj h
      exact ⟨.start, hc⟩
    | true => simp [whileLoop, hc] at h
  | succ fuel ih =>
    cases hc : cond s₀ with
    | false =>
      rw [whileLoop_of_not hc] at h
      obtain rfl := Option.some.inj h
      exact ⟨.start, hc⟩
    | true =>
      rw [whileLoop_succ hc] at h
      obtain ⟨hs, hs'⟩ := ih h
      exact ⟨(LoopState.start.next hc).trans hs, hs'⟩

/-- From a state of the loop the rest of the loop returns the same. -/
theorem LoopState.whileLoop_eq {s₀ s s' : σ} (h : LoopState cond body s₀ s) {fuel : ℕ}
    (hr : whileLoop cond body fuel s₀ = some s') :
    ∃ fuel', whileLoop cond body fuel' s = some s' := by
  induction h with
  | start => exact ⟨fuel, hr⟩
  | next _ hc ih =>
    obtain ⟨fuel', hr'⟩ := ih
    cases fuel' with
    | zero => simp [whileLoop, hc] at hr'
    | succ fuel' =>
      rw [whileLoop_succ hc] at hr'
      exact ⟨fuel', hr'⟩

/-- A loop whose rounds decrease a measure returns. -/
theorem exists_whileLoop {s₀ : σ} (μ : σ → ℕ)
    (hμ : ∀ s, LoopState cond body s₀ s → cond s = true → μ (body s) < μ s) :
    ∃ fuel s, whileLoop cond body fuel s₀ = some s := by
  -- from any state of the loop, by induction on the measure
  have hfrom (m : ℕ) : ∀ s, LoopState cond body s₀ s → μ s = m →
      ∃ fuel s', whileLoop cond body fuel s = some s' := by
    induction m using Nat.strongRecOn with
    | _ m ih =>
      intro s hs hm
      cases hc : cond s with
      | false => exact ⟨0, s, whileLoop_of_not hc 0⟩
      | true =>
        have hlt : μ (body s) < m := hm ▸ hμ s hs hc
        obtain ⟨fuel, s', hr⟩ := ih (μ (body s)) hlt (body s) (hs.next hc) rfl
        exact ⟨fuel + 1, s', by rw [whileLoop_succ hc, hr]⟩
  exact hfrom (μ s₀) s₀ .start rfl

theorem whileLoop_add {fuel : ℕ} {s s' : σ} (h : whileLoop cond body fuel s = some s') (k : ℕ) :
    whileLoop cond body (fuel + k) s = some s' := by
  induction fuel generalizing s with
  | zero =>
    cases hc : cond s with
    | false =>
      rw [whileLoop_of_not hc] at h ⊢
      exact h
    | true => simp [whileLoop, hc] at h
  | succ fuel ih =>
    rw [Nat.add_right_comm]
    cases hc : cond s with
    | false =>
      rw [whileLoop_of_not hc] at h ⊢
      exact h
    | true =>
      rw [whileLoop_succ hc] at h ⊢
      exact ih h

/-- The states in which a round starts. -/
def loopTrace (cond : σ → Bool) (body : σ → σ) : ℕ → σ → List σ
  | 0, _ => []
  | fuel + 1, s => if cond s then s :: loopTrace cond body fuel (body s) else []

theorem loopTrace_of_not {s : σ} (hc : cond s = false) (fuel : ℕ) :
    loopTrace cond body fuel s = [] := by
  cases fuel <;> simp [loopTrace, hc]

theorem loopTrace_succ {s : σ} (hc : cond s = true) (fuel : ℕ) :
    loopTrace cond body (fuel + 1) s = s :: loopTrace cond body fuel (body s) := by
  simp [loopTrace, hc]

/-- A loop simulated, round by round, by one that keeps a record of the rounds. -/
theorem whileLoop_record {τ ρ : Type*} {cond' : τ → Bool} {body' : τ → τ} {entry : σ → Option ρ}
    {R : List ρ → σ → τ → Prop} (hcond : ∀ {l s t}, R l s t → cond' t = cond s)
    (hbody : ∀ {l s t}, R l s t → cond s = true → R (l ++ (entry s).toList) (body s) (body' t))
    {fuel : ℕ} {l : List ρ} {s s' : σ} {t : τ} (h : R l s t)
    (hr : whileLoop cond body fuel s = some s') :
    ∃ t', whileLoop cond' body' fuel t = some t' ∧
      R (l ++ (loopTrace cond body fuel s).filterMap entry) s' t' := by
  induction fuel generalizing l s t with
  | zero =>
    cases hc : cond s with
    | false =>
      rw [whileLoop_of_not hc] at hr
      obtain rfl := Option.some.inj hr
      exact ⟨t, whileLoop_of_not ((hcond h).trans hc) 0, by simpa [loopTrace] using h⟩
    | true => simp [whileLoop, hc] at hr
  | succ fuel ih =>
    cases hc : cond s with
    | false =>
      rw [whileLoop_of_not hc] at hr
      obtain rfl := Option.some.inj hr
      refine ⟨t, whileLoop_of_not ((hcond h).trans hc) _, ?_⟩
      rw [loopTrace_of_not hc]
      simpa using h
    | true =>
      rw [whileLoop_succ hc] at hr
      obtain ⟨t', hr', h'⟩ := ih (hbody h hc) hr
      refine ⟨t', (whileLoop_succ ((hcond h).trans hc) fuel).trans hr', ?_⟩
      rw [loopTrace_succ hc]
      cases hentry : entry s with
      | none => simpa [hentry] using h'
      | some e => simpa [hentry] using h'

/-! ### Loops left by a `break` -/

section Break

variable {β : Type*} {round : σ → σ ⊕ β}

/-- `while (1) round`, given up after `fuel` rounds.  A round goes on in a new state, or it breaks
with a result. -/
def breakLoop (round : σ → σ ⊕ β) : ℕ → σ → Option β
  | 0, _ => none
  | fuel + 1, s =>
    match round s with
    | .inl s' => breakLoop round fuel s'
    | .inr b => some b

theorem breakLoop_of_break {s : σ} {b : β} (h : round s = .inr b) (fuel : ℕ) :
    breakLoop round (fuel + 1) s = some b := by
  rw [breakLoop, h]

/-- When the next state does not depend on what the round found, a round that would break in the
`n`-th state makes the loop break, there or before. -/
theorem exists_breakLoop {next : σ → σ} (hnext : ∀ s s', round s = .inl s' → s' = next s) {n : ℕ}
    {s : σ} {b : β} (h : round (next^[n] s) = .inr b) :
    ∃ m b', round (next^[m] s) = .inr b' ∧ ∀ fuel > n, breakLoop round fuel s = some b' := by
  induction n generalizing s with
  | zero =>
    refine ⟨0, b, h, fun fuel hfuel => ?_⟩
    obtain ⟨fuel, rfl⟩ := Nat.exists_eq_add_one.mpr hfuel
    exact breakLoop_of_break h fuel
  | succ n ih =>
    cases hs : round s with
    | inr b' =>
      refine ⟨0, b', hs, fun fuel hfuel => ?_⟩
      obtain ⟨fuel, rfl⟩ := Nat.exists_eq_add_one.mpr (Nat.zero_lt_of_lt hfuel)
      exact breakLoop_of_break hs fuel
    | inl s' =>
      obtain rfl := hnext s s' hs
      obtain ⟨m, b', hbreak, hloop⟩ := ih h
      refine ⟨m + 1, b', hbreak, fun fuel hfuel => ?_⟩
      obtain ⟨fuel, rfl⟩ := Nat.exists_eq_add_one.mpr (Nat.zero_lt_of_lt hfuel)
      rw [breakLoop, hs]
      exact hloop fuel (Nat.lt_of_succ_lt_succ hfuel)

/-- A loop whose rounds all go on never ends. -/
theorem breakLoop_eq_none {P : σ → Prop} (hround : ∀ s, P s → ∃ s', round s = .inl s' ∧ P s')
    (fuel : ℕ) {s : σ} (h : P s) : breakLoop round fuel s = none := by
  induction fuel generalizing s with
  | zero => rfl
  | succ fuel ih =>
    obtain ⟨s', hs, h'⟩ := hround s h
    rw [breakLoop, hs]
    exact ih h'

end Break

end OsLabs
