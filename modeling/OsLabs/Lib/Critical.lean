import OsLabs.Lib.Interleave

/-!
# Critical sections

The workers share one component `S r` for each semaphore `r`.  A worker is outside of the critical
sections, or inside one that it has entered with `sem_wait` and leaves with `sem_post`; inside it
works on the component of the semaphore in small steps (`Code.step`), between which any other worker
may take steps.

If the semaphores start at 1, no two workers are inside at one semaphore
(`Code.Simulates.exclusive`), and a section may be taken to happen at once when it is left: every
interleaving of the small steps is one of whole sections (`Code.exists_simulates`).  There is no
deadlock either (`Code.Safe.stop_of_stopped`).
-/

namespace OsLabs

open Function Relation

/-- What a worker does next outside of the critical sections. -/
inductive Next (ρ : Type*) (M : ρ → Type*) (W : Type*) where
  /-- A step that only changes the worker itself. -/
  | run (w : W)
  /-- It enters the section of a semaphore. -/
  | enter (r : ρ) (m : M r)
  | stop

/-- Where a worker is. -/
inductive Place (ρ : Type*) (M : ρ → Type*) (W : Type*) where
  | outside (w : W)
  | inside (r : ρ) (m : M r)

/-- The code of the workers. -/
structure Code (ρ : Type*) (S M : ρ → Type*) (W : Type*) where
  next : W → Next ρ M W
  /-- A small step inside of a section. -/
  step : (r : ρ) → S r → M r → Option (S r × M r)
  /-- Where the worker is after the section, if that is over. -/
  leave : (r : ρ) → M r → Option W

/-- The components and the values of the semaphores. -/
structure Guarded (ρ : Type*) (S : ρ → Type*) where
  mem : (r : ρ) → S r
  sem : ρ → ℕ

variable {ι ρ W : Type*} {S M : ρ → Type*} [DecidableEq ι] [DecidableEq ρ]

/-- The worker is inside of a section of the semaphore. -/
def Place.At (r : ρ) : Place ρ M W → Prop
  | .outside _ => False
  | .inside r' _ => r' = r

namespace Code

variable (code : Code ρ S M W)

/-- The next step of a worker. -/
def smallStep (s : Guarded ρ S) : Place ρ M W → Option (Guarded ρ S × Place ρ M W)
  | .outside w =>
    match code.next w with
    | .run w' => some (s, .outside w')
    -- `sem_wait` blocks while the value is 0
    | .enter r m =>
      if 0 < s.sem r then some ({ s with sem := update s.sem r (s.sem r - 1) }, .inside r m)
      else none
    | .stop => none
  | .inside r m =>
    match code.leave r m with
    | some w => some ({ s with sem := update s.sem r (s.sem r + 1) }, .outside w)
    | none =>
      (code.step r (s.mem r) m).map fun (x, m') =>
        ({ s with mem := update s.mem r x }, .inside r m')

/-- The workers start outside of the sections, and the semaphores with 1. -/
def start (mem : (r : ρ) → S r) (workers : ι → W) : World ι (Guarded ρ S) (Place ρ M W) where
  shared := { mem := mem, sem := fun _ => 1 }
  workers i := .outside (workers i)

/-- The component and the worker inside of a section, after some small steps. -/
def Body (r : ρ) : S r × M r → S r × M r → Prop :=
  ReflTransGen fun a b => code.leave r a.2 = none ∧ code.step r a.1 a.2 = some b

/-- Some worker takes a step of its own or goes through a whole section. -/
inductive BigStep : World ι ((r : ρ) → S r) W → World ι ((r : ρ) → S r) W → Prop where
  | run {α : World ι ((r : ρ) → S r) W} {w : W} (i : ι) (h : code.next (α.workers i) = .run w) :
    BigStep α { shared := α.shared, workers := update α.workers i w }
  | through {α : World ι ((r : ρ) → S r) W} {r : ρ} {m m' : M r} {x : S r} {w : W} (i : ι)
    (h : code.next (α.workers i) = .enter r m) (hbody : code.Body r (α.shared r, m) (x, m'))
    (hleave : code.leave r m' = some w) :
    BigStep α { shared := update α.shared r x, workers := update α.workers i w }

/-- Where a worker is, if it is `w` in the world of the big steps, with the components `mem'`.  The
section that it is inside of has not begun there. -/
def PlaceOf (mem mem' : (r : ρ) → S r) (w : W) : Place ρ M W → Prop
  | .outside w' => w' = w
  | .inside r m => ∃ m₀, code.next w = .enter r m₀ ∧ code.Body r (mem' r, m₀) (mem r, m)

/-- The world of the small steps and that of the big steps. -/
structure Simulates (σ : World ι (Guarded ρ S) (Place ρ M W))
    (α : World ι ((r : ρ) → S r) W) : Prop where
  free : ∀ r, (∀ i, ¬(σ.workers i).At r) → σ.shared.mem r = α.shared r
  place : ∀ i, code.PlaceOf σ.shared.mem α.shared (α.workers i) (σ.workers i)
  sem : ∀ r, (σ.shared.sem r = 1 ∧ ∀ i, ¬(σ.workers i).At r) ∨
    (σ.shared.sem r = 0 ∧ ∃ i, (σ.workers i).At r ∧ ∀ j, (σ.workers j).At r → j = i)

variable {code}

omit [DecidableEq ι] [DecidableEq ρ] in
/-- No two workers are inside at one semaphore. -/
theorem Simulates.exclusive {σ : World ι (Guarded ρ S) (Place ρ M W)}
    {α : World ι ((r : ρ) → S r) W} (h : code.Simulates σ α) {r : ρ} {i j : ι}
    (hi : (σ.workers i).At r) (hj : (σ.workers j).At r) : i = j := by
  rcases h.sem r with ⟨-, hnone⟩ | ⟨-, k, -, honly⟩
  · exact absurd hi (hnone i)
  · rw [honly i hi, honly j hj]

omit [DecidableEq ι] [DecidableEq ρ] in
theorem simulates_start (mem : (r : ρ) → S r) (workers : ι → W) :
    code.Simulates (start mem workers) { shared := mem, workers := workers } where
  free _ _ := rfl
  place _ := rfl
  sem _ := .inl ⟨rfl, fun _ h => h⟩

omit [DecidableEq ρ] in
/-- Only the component of the section that a worker is inside of matters. -/
theorem PlaceOf.congr {mem mem' mem₁ mem₁' : (r : ρ) → S r} {w : W} {p : Place ρ M W}
    (h : code.PlaceOf mem mem' w p) (hmem : ∀ r, p.At r → mem₁ r = mem r ∧ mem₁' r = mem' r) :
    code.PlaceOf mem₁ mem₁' w p := by
  cases p with
  | outside w' => exact h
  | inside r m =>
    obtain ⟨heq, heq'⟩ := hmem r rfl
    obtain ⟨m₀, hnext, hbody⟩ := h
    exact ⟨m₀, hnext, by rwa [heq, heq']⟩

section Step

variable {σ : World ι (Guarded ρ S) (Place ρ M W)} {α : World ι ((r : ρ) → S r) W}
variable (h : code.Simulates σ α) {i : ι}

include h

/-- A worker takes a step of its own. -/
theorem Simulates.run {w w' : W} (hi : σ.workers i = .outside w) (hnext : code.next w = .run w') :
    code.BigStep α { shared := α.shared, workers := update α.workers i w' } ∧
    code.Simulates { shared := σ.shared, workers := update σ.workers i (.outside w') }
      { shared := α.shared, workers := update α.workers i w' } := by
  have hplace := h.place i
  rw [hi] at hplace
  obtain rfl : w = α.workers i := hplace
  -- the worker is outside before and after
  have hat (r : ρ) (j : ι) : (update σ.workers i (.outside w') j).At r ↔ (σ.workers j).At r := by
    by_cases hj : j = i
    · rw [hj, update_self, hi]
      exact Iff.rfl
    · rw [update_of_ne hj]
  refine ⟨.run i hnext, ?_, fun j => ?_, fun r => ?_⟩
  · intro r hnone
    exact h.free r fun j => mt (hat r j).mpr (hnone j)
  · show code.PlaceOf _ _ (update α.workers i w' j) (update σ.workers i (.outside w') j)
    by_cases hj : j = i
    · rw [hj, update_self, update_self]
      rfl
    · rw [update_of_ne hj, update_of_ne hj]
      exact h.place j
  · simp only [hat]
    exact h.sem r

/-- A worker goes through `sem_wait`. -/
theorem Simulates.wait {w : W} {r : ρ} {m : M r} (hi : σ.workers i = .outside w)
    (hnext : code.next w = .enter r m) (hpos : 0 < σ.shared.sem r) :
    code.Simulates
      { shared := { σ.shared with sem := update σ.shared.sem r (σ.shared.sem r - 1) }
        workers := update σ.workers i (.inside r m) } α := by
  have hplace := h.place i
  rw [hi] at hplace
  obtain rfl : w = α.workers i := hplace
  obtain ⟨hone, hnone⟩ : σ.shared.sem r = 1 ∧ ∀ j, ¬(σ.workers j).At r := by
    rcases h.sem r with hfree | ⟨hzero, -⟩
    · exact hfree
    · omega
  have hat {r' : ρ} {j : ι} (hne : r' ≠ r) :
      (update σ.workers i (.inside r m) j).At r' ↔ (σ.workers j).At r' := by
    by_cases hj : j = i
    · rw [hj, update_self, hi]
      exact iff_of_false (fun heq => hne heq.symm) id
    · rw [update_of_ne hj]
  refine ⟨fun r' hnone' => ?_, fun j => ?_, fun r' => ?_⟩
  · have hne : r' ≠ r := by
      rintro rfl
      refine hnone' i ?_
      show (update σ.workers i (.inside r' m) i).At r'
      rw [update_self]
      rfl
    exact h.free r' fun j => mt (hat hne).mpr (hnone' j)
  · show code.PlaceOf _ _ (α.workers j) (update σ.workers i (.inside r m) j)
    by_cases hj : j = i
    · rw [hj, update_self]
      refine ⟨m, hnext, ?_⟩
      rw [h.free r hnone]
      exact .refl
    · rw [update_of_ne hj]
      exact h.place j
  · show (update σ.shared.sem r (σ.shared.sem r - 1) r' = 1 ∧ _) ∨
      (update σ.shared.sem r (σ.shared.sem r - 1) r' = 0 ∧ _)
    by_cases hr : r' = r
    · subst hr
      rw [update_self, hone]
      refine .inr ⟨rfl, i, ?_, fun j hj => ?_⟩
      · show (update σ.workers i (.inside r' m) i).At r'
        rw [update_self]
        rfl
      · by_contra hne
        refine hnone j ?_
        have hj' : (update σ.workers i (.inside r' m) j).At r' := hj
        rwa [update_of_ne hne] at hj'
    · rw [update_of_ne hr]
      simp only [hat hr]
      exact h.sem r'

/-- A worker takes a step inside of a section. -/
theorem Simulates.inside {r : ρ} {m m' : M r} {x : S r} (hi : σ.workers i = .inside r m)
    (hleave : code.leave r m = none) (hstep : code.step r (σ.shared.mem r) m = some (x, m')) :
    code.Simulates
      { shared := { σ.shared with mem := update σ.shared.mem r x }
        workers := update σ.workers i (.inside r m') } α := by
  have hin : (σ.workers i).At r := by
    rw [hi]
    rfl
  have hat (r' : ρ) (j : ι) :
      (update σ.workers i (.inside r m') j).At r' ↔ (σ.workers j).At r' := by
    by_cases hj : j = i
    · rw [hj, update_self, hi]
      exact Iff.rfl
    · rw [update_of_ne hj]
  refine ⟨fun r' hnone => ?_, fun j => ?_, fun r' => ?_⟩
  · have hnone' : ∀ j, ¬(σ.workers j).At r' := fun j => mt (hat r' j).mpr (hnone j)
    have hne : r' ≠ r := by
      rintro rfl
      exact hnone' i hin
    show update σ.shared.mem r x r' = _
    rw [update_of_ne hne]
    exact h.free r' hnone'
  · show code.PlaceOf (update σ.shared.mem r x) _ (α.workers j)
      (update σ.workers i (.inside r m') j)
    by_cases hj : j = i
    · have hplace := h.place i
      rw [hi] at hplace
      obtain ⟨m₀, hnext, hbody⟩ := hplace
      rw [hj, update_self]
      refine ⟨m₀, hnext, ?_⟩
      rw [update_self]
      exact hbody.tail ⟨hleave, hstep⟩
    · rw [update_of_ne hj]
      refine (h.place j).congr fun r' hr' => ⟨?_, rfl⟩
      -- a section of another semaphore
      refine update_of_ne ?_ _ _
      rintro rfl
      exact hj (h.exclusive hr' hin)
  · simp only [hat]
    exact h.sem r'

/-- A worker goes through `sem_post`. -/
theorem Simulates.post {r : ρ} {m : M r} {w : W} (hi : σ.workers i = .inside r m)
    (hleave : code.leave r m = some w) :
    code.BigStep α
      { shared := update α.shared r (σ.shared.mem r), workers := update α.workers i w } ∧
    code.Simulates
      { shared := { σ.shared with sem := update σ.shared.sem r (σ.shared.sem r + 1) }
        workers := update σ.workers i (.outside w) }
      { shared := update α.shared r (σ.shared.mem r), workers := update α.workers i w } := by
  have hin : (σ.workers i).At r := by
    rw [hi]
    rfl
  have hplace := h.place i
  rw [hi] at hplace
  obtain ⟨m₀, hnext, hbody⟩ := hplace
  have hzero : σ.shared.sem r = 0 := by
    rcases h.sem r with ⟨-, hnone⟩ | ⟨hzero, -⟩
    · exact absurd hin (hnone i)
    · exact hzero
  have hgone (j : ι) : ¬(update σ.workers i (.outside w) j).At r := by
    by_cases hj : j = i
    · rw [hj, update_self]
      exact id
    · rw [update_of_ne hj]
      exact fun hj' => hj (h.exclusive hj' hin)
  have hat {r' : ρ} {j : ι} (hne : r' ≠ r) :
      (update σ.workers i (.outside w) j).At r' ↔ (σ.workers j).At r' := by
    by_cases hj : j = i
    · rw [hj, update_self, hi]
      exact iff_of_false id fun heq => hne heq.symm
    · rw [update_of_ne hj]
  refine ⟨.through i hnext hbody hleave, fun r' hnone => ?_, fun j => ?_, fun r' => ?_⟩
  · show σ.shared.mem r' = update α.shared r (σ.shared.mem r) r'
    by_cases hr : r' = r
    · subst hr
      rw [update_self]
    · rw [update_of_ne hr]
      exact h.free r' fun j => mt (hat hr).mpr (hnone j)
  · show code.PlaceOf _ (update α.shared r (σ.shared.mem r)) (update α.workers i w j)
      (update σ.workers i (.outside w) j)
    by_cases hj : j = i
    · rw [hj, update_self, update_self]
      rfl
    · rw [update_of_ne hj, update_of_ne hj]
      refine (h.place j).congr fun r' hr' => ⟨rfl, update_of_ne ?_ _ _⟩
      rintro rfl
      exact hj (h.exclusive hr' hin)
  · show (update σ.shared.sem r (σ.shared.sem r + 1) r' = 1 ∧ _) ∨
      (update σ.shared.sem r (σ.shared.sem r + 1) r' = 0 ∧ _)
    by_cases hr : r' = r
    · subst hr
      rw [update_self, hzero]
      exact .inl ⟨rfl, hgone⟩
    · rw [update_of_ne hr]
      simp only [hat hr]
      exact h.sem r'

end Step

/-- A small step is a big step, or the world of the big steps stays as it is. -/
theorem Simulates.step {σ σ' : World ι (Guarded ρ S) (Place ρ M W)}
    {α : World ι ((r : ρ) → S r) W} (h : code.Simulates σ α)
    (hstep : Interleaving code.smallStep σ σ') :
    ∃ α', ReflTransGen code.BigStep α α' ∧ code.Simulates σ' α' := by
  obtain ⟨i, hi⟩ := hstep
  rename_i s' p'
  obtain ⟨p, hp⟩ : ∃ p, σ.workers i = p := ⟨_, rfl⟩
  rw [hp] at hi
  cases p with
  | outside w =>
    cases hnext : code.next w with
    | run w' =>
      simp only [smallStep, hnext, Option.some_inj, Prod.mk.injEq] at hi
      obtain ⟨rfl, rfl⟩ := hi
      obtain ⟨hbig, h'⟩ := h.run hp hnext
      exact ⟨_, .single hbig, h'⟩
    | enter r m =>
      simp only [smallStep, hnext] at hi
      split at hi
      · rename_i hpos
        simp only [Option.some_inj, Prod.mk.injEq] at hi
        obtain ⟨rfl, rfl⟩ := hi
        exact ⟨α, .refl, h.wait hp hnext hpos⟩
      · exact absurd hi (by simp)
    | stop => simp [smallStep, hnext] at hi
  | inside r m =>
    cases hleave : code.leave r m with
    | some w =>
      simp only [smallStep, hleave, Option.some_inj, Prod.mk.injEq] at hi
      obtain ⟨rfl, rfl⟩ := hi
      obtain ⟨hbig, h'⟩ := h.post hp hleave
      exact ⟨_, .single hbig, h'⟩
    | none =>
      simp only [smallStep, hleave, Option.map_eq_some_iff, Prod.mk.injEq] at hi
      obtain ⟨⟨x, m'⟩, hx, rfl, rfl⟩ := hi
      exact ⟨α, .refl, h.inside hp hleave hx⟩

/-- **Critical sections may be taken to happen at once**: every interleaving of small steps is one
of big steps. -/
theorem exists_simulates {mem : (r : ρ) → S r} {workers : ι → W}
    {σ : World ι (Guarded ρ S) (Place ρ M W)}
    (hrun : ReflTransGen (Interleaving code.smallStep) (start mem workers) σ) :
    ∃ α, ReflTransGen code.BigStep { shared := mem, workers := workers } α ∧
      code.Simulates σ α := by
  induction hrun with
  | refl => exact ⟨_, .refl, simulates_start mem workers⟩
  | tail _ hlast ih =>
    obtain ⟨α, hbig, h⟩ := ih
    obtain ⟨α', hbig', h'⟩ := h.step hlast
    exact ⟨α', hbig.trans hbig', h'⟩

/-! ### No deadlock -/

/-- The sections can be gone through if their components satisfy the invariant, and they keep it. -/
structure Safe (code : Code ρ S M W) (Inv : (r : ρ) → S r → Prop) : Prop where
  goesOn : ∀ {w r m x x' m'}, code.next w = .enter r m → Inv r x →
    code.Body r (x, m) (x', m') → code.leave r m' = none → ∃ y, code.step r x' m' = some y
  keeps : ∀ {w r m x x' m' w'}, code.next w = .enter r m → Inv r x →
    code.Body r (x, m) (x', m') → code.leave r m' = some w' → Inv r x'

variable {Inv : (r : ρ) → S r → Prop}

theorem Safe.inv (hsafe : code.Safe Inv) {α α' : World ι ((r : ρ) → S r) W}
    (hrun : ReflTransGen code.BigStep α α') (hinv : ∀ r, Inv r (α.shared r)) (r : ρ) :
    Inv r (α'.shared r) := by
  induction hrun generalizing r with
  | refl => exact hinv r
  | tail _ hlast ih =>
    cases hlast with
    | run i h => exact ih r
    | @through r' m m' x w i h hbody hleave =>
      show Inv r (update _ r' x r)
      by_cases hr : r = r'
      · subst hr
        rw [update_self]
        exact hsafe.keeps h (ih r) hbody hleave
      · rw [update_of_ne hr]
        exact ih r

/-- **There is no deadlock**: when no worker can take a step, all have stopped. -/
theorem Safe.stop_of_stopped (hsafe : code.Safe Inv) {mem : (r : ρ) → S r} {workers : ι → W}
    (hinv : ∀ r, Inv r (mem r)) {σ : World ι (Guarded ρ S) (Place ρ M W)}
    (hrun : ReflTransGen (Interleaving code.smallStep) (start mem workers) σ)
    (hstopped : Stopped code.smallStep σ) (i : ι) :
    ∃ w, σ.workers i = .outside w ∧ code.next w = .stop := by
  obtain ⟨α, hbig, h⟩ := exists_simulates hrun
  -- a worker inside of a section can go on
  have hinside (j : ι) (r : ρ) (m : M r) : σ.workers j ≠ .inside r m := by
    intro hj
    have hplace := h.place j
    have hnone := hstopped j
    rw [hj] at hplace hnone
    obtain ⟨m₀, hnext, hbody⟩ := hplace
    cases hleave : code.leave r m with
    | some w => simp [smallStep, hleave] at hnone
    | none =>
      obtain ⟨y, hy⟩ := hsafe.goesOn hnext (hsafe.inv hbig hinv r) hbody hleave
      simp [smallStep, hleave, hy] at hnone
  cases hi : σ.workers i with
  | inside r m => exact absurd hi (hinside i r m)
  | outside w =>
    refine ⟨w, rfl, ?_⟩
    have hnone := hstopped i
    rw [hi] at hnone
    cases hnext : code.next w with
    | stop => rfl
    | run w' => simp [smallStep, hnext] at hnone
    | enter r m =>
      rcases h.sem r with ⟨hone, -⟩ | ⟨-, j, hj, -⟩
      · simp [smallStep, hnext, hone] at hnone
      · -- the semaphore is taken by a worker inside of a section
        cases hplace : σ.workers j with
        | outside w' =>
          rw [hplace] at hj
          exact hj.elim
        | inside r' m' => exact absurd hplace (hinside j r' m')

end Code

end OsLabs
