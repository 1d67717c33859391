import OsLabs.PageReplace.Equiv.AnyPage
import OsLabs.PageReplace.Equiv.BackToBack
import OsLabs.PageReplace.Equiv.Display

/-!
# A session with the logger

`Display.run`, the program with its terminal, is compared with `Logger.run`: it prints the text of
its sections, and it takes one line of the input for each step and one for the totals.
-/

namespace OsLabs.PageReplace.Display

variable {N : ℕ}

/-! ### The input -/

/-- The input after `k` lines. -/
def dropLines (input : List Char) : ℕ → Except Stop (List Char)
  | 0 => .ok input
  | k + 1 => do
    let input ← dropLines input k
    awaitEnter input

theorem dropLines_add (input : List Char) (m n : ℕ) :
    dropLines input (m + n) = dropLines input m >>= fun rest => dropLines rest n := by
  induction n with
  | zero =>
    show dropLines input m = _
    cases dropLines input m <;> rfl
  | succ n ih =>
    show dropLines input (m + n) >>= awaitEnter = _
    rw [ih]
    cases dropLines input m <;> rfl

theorem awaitEnter_cases (input : List Char) :
    (awaitEnter input = .error .input ∧ input.count '\n' = 0) ∨
      ∃ rest, awaitEnter input = .ok rest ∧ input.count '\n' = rest.count '\n' + 1 := by
  induction input with
  | nil => exact .inl ⟨rfl, rfl⟩
  | cons c cs ih =>
    by_cases hc : c = '\n'
    · exact .inr ⟨cs, by rw [awaitEnter, if_pos hc], by rw [hc, List.count_cons_self]⟩
    · rw [awaitEnter, if_neg hc, List.count_cons_of_ne hc]
      exact ih

theorem dropLines_of_le {input : List Char} {k : ℕ} (h : k ≤ input.count '\n') :
    ∃ rest, dropLines input k = .ok rest ∧ input.count '\n' = rest.count '\n' + k := by
  induction k with
  | zero => exact ⟨input, rfl, rfl⟩
  | succ k ih =>
    obtain ⟨rest, hrest, hcount⟩ := ih (by omega)
    obtain ⟨-, hnone⟩ | ⟨rest', hrest', hcount'⟩ := awaitEnter_cases rest
    · omega
    · refine ⟨rest', ?_, by omega⟩
      rw [dropLines, hrest]
      exact hrest'

theorem dropLines_of_lt {input : List Char} {k : ℕ} (h : input.count '\n' < k) :
    dropLines input k = .error .input := by
  -- the line after the last one
  obtain ⟨n, rfl⟩ := Nat.exists_eq_add_of_lt h
  obtain ⟨rest, hrest, hcount⟩ := dropLines_of_le (le_refl (input.count '\n'))
  obtain ⟨hnone, -⟩ | ⟨rest', -, hcount'⟩ := awaitEnter_cases rest
  · rw [Nat.add_right_comm, dropLines_add, dropLines, hrest]
    show (awaitEnter rest >>= _) = _
    rw [hnone]
    rfl
  · omega

/-! ### What is printed -/

/-- `Press Enter for next step...` -/
def pauseText : List Char := "Press Enter for next step...".toList

/-- The frames after a step, `print_ram` having all the rounds it needs. -/
def frameText (shown : Shown N) : List Char :=
  match stepFrames 51 shown with
  | .ok text => text
  | .error _ => []

/-- What a step prints. -/
def stepText (name : String) (query : List UInt8) (i : ℕ) (shown : Shown N) : List Char :=
  stepHeader name query.length i (query.getD i 0) shown.result ++ frameText shown ++ pauseText ++
    (ESC :: "[2J".toList ++ ESC :: "[H".toList)

/-- What the steps print. -/
def stepsText (name : String) (query : List UInt8) (steps : List (Shown N)) : List Char :=
  (steps.zipIdx.map fun p => stepText name query p.2 p.1).flatten

/-- What `run_one` prints. -/
def sectionText (rate : UInt32 → UInt32 → List Char) (query : List UInt8) (sec : Section N) :
    List Char :=
  titleText sec.name ++ stepsText sec.name query sec.steps ++
    resultsText rate sec.name sec.hits sec.misses ++ pauseText

theorem stepsText_concat (name : String) (query : List UInt8) (steps : List (Shown N))
    (shown : Shown N) : stepsText name query (steps ++ [shown])
      = stepsText name query steps ++ stepText name query steps.length shown := by
  simp [stepsText, List.zipIdx_append]

/-- `t` after some lines of input and with some more output. -/
def after (t : Terminal) (k : ℕ) (text : List Char) : Except Stop Terminal :=
  (dropLines t.input k).map fun rest => ⟨rest, t.output ++ text⟩

/-- Enough rounds print all frames. -/
theorem stepFrames_eq (hN : N ≤ 254) {fuel : ℕ} (hfuel : 51 ≤ fuel) (shown : Shown N) :
    stepFrames fuel shown = .ok (frameText shown) := by
  obtain ⟨out, hout, -⟩ := printRam_eq (le_trans hN (by decide)) shown.after
    (h := ⟨shown.result.frameIdx, CLR_GREEN⟩) (fun _ => rfl) hN
  simp only [frameText, stepFrames, hout fuel hfuel, hout 51 le_rfl]
  split <;> rfl

theorem pause_eq (t : Terminal) : pause t = after t 1 pauseText := by
  unfold pause after
  show (awaitEnter t.input >>= _) = Except.map _ (awaitEnter t.input)
  cases awaitEnter t.input <;> rfl

section Run

variable (hN : N ≤ 254) {fuel : ℕ} (hfuel : 51 ≤ fuel) {fn : Algo N} {query : List UInt8}
  {s s' : State N} (name : String)

include hN hfuel

theorem showStep_eq {i : ℕ} {r : AccessResult} (t : Terminal)
    (hstep : fn s (query.getD i 0) (UInt16.ofNat i) = .ok (r, s')) :
    showStep fuel name fn query i s t
      = (after t 1 (stepText name query i ⟨s.frames, r, s'.frames⟩)).map fun t => (s', t) := by
  show (liftFault (fn s (query.getD i 0) (UInt16.ofNat i)) >>= _) = _
  rw [hstep]
  show (stepFrames fuel ⟨s.frames, r, s'.frames⟩ >>= fun frames => _) = _
  rw [stepFrames_eq hN hfuel]
  show (pause _ >>= _) = _
  rw [pause_eq]
  unfold after
  show (Except.map _ (dropLines t.input 1) >>= _) = _
  cases dropLines t.input 1 with
  | error => rfl
  | ok rest => simp [Except.map, Terminal.print, stepText, bind, Except.bind, pure, Except.pure]

theorem showLoop_eq (t : Terminal) {k : ℕ} {shown : List (Shown N)} {s₀ : State N}
    (hsteps : Logger.showSteps fn query s₀ k = .ok (s', shown)) :
    shown.length = k ∧ showLoop fuel name fn query (schedulerReset s₀) t k
      = (after t k (stepsText name query shown)).map fun t => (s', t) := by
  induction k generalizing s' shown with
  | zero =>
    obtain ⟨rfl, rfl⟩ := Prod.mk.inj (Except.ok.inj hsteps)
    exact ⟨rfl, by simp [showLoop, after, dropLines, stepsText, Except.map]⟩
  | succ k ih =>
    rw [Logger.showSteps] at hsteps
    cases hk : Logger.showSteps fn query s₀ k with
    | error => simp only [hk, bind, Except.bind, reduceCtorEq] at hsteps
    | ok p =>
      obtain ⟨s₁, shown₁⟩ := p
      rw [hk] at hsteps
      cases hstep : fn s₁ (query.getD k 0) (UInt16.ofNat k) with
      | error => simp only [bind, Except.bind, hstep, reduceCtorEq] at hsteps
      | ok q =>
        obtain ⟨r, s₂⟩ := q
        simp only [bind, Except.bind, hstep, pure, Except.pure, Except.ok.injEq,
          Prod.mk.injEq] at hsteps
        obtain ⟨rfl, rfl⟩ := hsteps
        obtain ⟨hlen, hloop⟩ := ih hk
        refine ⟨by simp [hlen], ?_⟩
        rw [showLoop, hloop, stepsText_concat, hlen]
        unfold after
        rw [dropLines]
        cases dropLines t.input k with
        | error => rfl
        | ok rest =>
          show showStep fuel name fn query k s₁ _ = _
          rw [showStep_eq hN hfuel name _ hstep]
          simp only [after, dropLines, bind, Except.bind, Except.map]
          cases awaitEnter rest <;> simp

theorem runOne_eq {rate : UInt32 → UInt32 → List Char} (t : Terminal) {sec : Section N}
    (hrun : Logger.runOne name fn query s = .ok (s', sec)) :
    runOne fuel rate name fn query s t
      = (after t (query.length + 1) (sectionText rate query sec)).map fun t => (s', t) := by
  rw [Logger.runOne] at hrun
  cases hsteps : Logger.showSteps fn query s query.length with
  | error => simp only [hsteps, bind, Except.bind, reduceCtorEq] at hrun
  | ok p =>
    obtain ⟨s₁, shown⟩ := p
    rw [hsteps] at hrun
    obtain ⟨rfl, rfl⟩ := Prod.mk.inj (Except.ok.inj hrun)
    obtain ⟨-, hloop⟩ := showLoop_eq hN hfuel name (t.print (titleText name)) hsteps
    rw [runOne, hloop]
    unfold after
    rw [dropLines]
    show (Except.map _ (Except.map _ (dropLines t.input query.length)) >>= _) = _
    cases dropLines t.input query.length with
    | error => rfl
    | ok rest =>
      show (pause _ >>= _) = _
      rw [pause_eq]
      simp only [after, dropLines, bind, Except.bind, Except.map]
      cases hrest : awaitEnter rest <;>
        simp [hrest, Terminal.print, sectionText, pure, Except.pure]

/-- What has been printed so far grows by the sections of `run_if`. -/
theorem runIf_eq {rate : UInt32 → UInt32 → List Char} {selected : Bool} (t : Terminal) {k : ℕ}
    {text : List Char} {secs : List (Section N)}
    (hrun : Logger.runIf selected name fn query s = .ok (s', secs)) :
    (after t k text >>= fun t => runIf fuel rate selected name fn query s t)
      = (after t (k + secs.length * (query.length + 1))
          (text ++ secs.flatMap (sectionText rate query))).map fun t => (s', t) := by
  cases selected with
  | false =>
    obtain ⟨rfl, rfl⟩ := Prod.mk.inj (Except.ok.inj hrun)
    simp only [List.length_nil, Nat.zero_mul, Nat.add_zero, List.flatMap_nil, List.append_nil]
    cases after t k text <;> rfl
  | true =>
    rw [Logger.runIf, if_pos rfl] at hrun
    cases hone : Logger.runOne name fn query s with
    | error => simp only [hone, bind, Except.bind, reduceCtorEq] at hrun
    | ok p =>
      obtain ⟨s₁, sec⟩ := p
      rw [hone] at hrun
      obtain ⟨rfl, rfl⟩ := Prod.mk.inj (Except.ok.inj hrun)
      simp only [List.length_singleton, Nat.one_mul, List.flatMap_singleton]
      unfold after
      rw [dropLines_add]
      cases dropLines t.input k with
      | error => rfl
      | ok rest =>
        show runIf fuel rate true name fn query s ⟨rest, t.output ++ text⟩ = _
        rw [runIf, if_pos rfl, runOne_eq hN hfuel name _ hone]
        unfold after
        show _ = Except.map _ (Except.map _ (dropLines rest (query.length + 1)))
        cases dropLines rest (query.length + 1) <;> simp [Except.map]

theorem runIf_bind {β : Type} {rate : UInt32 → UInt32 → List Char} {selected : Bool}
    (t : Terminal) {k : ℕ} {text : List Char} {secs : List (Section N)}
    (hrun : Logger.runIf selected name fn query s = .ok (s', secs))
    (G : State N × Terminal → Except Stop β) :
    (after t k text >>= fun t => runIf fuel rate selected name fn query s t >>= G)
      = after t (k + secs.length * (query.length + 1))
          (text ++ secs.flatMap (sectionText rate query)) >>= fun t => G (s', t) := by
  rw [← bind_assoc, runIf_eq hN hfuel name t hrun]
  cases after t (k + secs.length * (query.length + 1))
    (text ++ secs.flatMap (sectionText rate query)) <;> rfl

/-- **The session follows the sections of `Logger.run`.** -/
theorem run_eq (rate : UInt32 → UInt32 → List Char) {algo : String} (t : Terminal)
    {secs : List (Section N)} (hrun : Logger.run algo query s = .ok (s', secs)) :
    run fuel rate algo query s t
      = (after t (secs.length * (query.length + 1)) (secs.flatMap (sectionText rate query))).map
          fun t => (s', t) := by
  rw [Logger.run] at hrun
  cases hfifo : Logger.runIf (Logger.selects algo .fifo) "FIFO" schedulerFifo query s with
  | error => simp only [hfifo, bind, Except.bind, reduceCtorEq] at hrun
  | ok fifo =>
  cases hmin : Logger.runIf (Logger.selects algo .min) "MIN (Optimal)" schedulerMin query
    fifo.1 with
  | error => simp only [hfifo, hmin, bind, Except.bind, reduceCtorEq] at hrun
  | ok min =>
  cases hlru : Logger.runIf (Logger.selects algo .lru) "LRU" schedulerLru query min.1 with
  | error => simp only [hfifo, hmin, hlru, bind, Except.bind, reduceCtorEq] at hrun
  | ok lru =>
  cases hsc : Logger.runIf (Logger.selects algo .secondChance) "Second Chance"
    schedulerSecondChance query lru.1 with
  | error => simp only [hfifo, hmin, hlru, hsc, bind, Except.bind, reduceCtorEq] at hrun
  | ok sc =>
  simp only [hfifo, hmin, hlru, hsc, bind, Except.bind, pure, Except.pure, Except.ok.injEq,
    Prod.mk.injEq] at hrun
  obtain ⟨rfl, rfl⟩ := hrun
  have hstart : run fuel rate algo query s t = after t 0 [] >>= fun t =>
      runIf fuel rate (Logger.selects algo .fifo) "FIFO" schedulerFifo query s t >>= fun p =>
      runIf fuel rate (Logger.selects algo .min) "MIN (Optimal)" schedulerMin query p.1 p.2
        >>= fun p =>
      runIf fuel rate (Logger.selects algo .lru) "LRU" schedulerLru query p.1 p.2 >>= fun p =>
      runIf fuel rate (Logger.selects algo .secondChance) "Second Chance" schedulerSecondChance
        query p.1 p.2 := by
    simp [after, dropLines, Except.map, bind, Except.bind, run]
  rw [hstart, runIf_bind hN hfuel _ t hfifo, runIf_bind hN hfuel _ t hmin,
    runIf_bind hN hfuel _ t hlru, runIf_eq hN hfuel _ t hsc]
  simp only [List.length_append, List.flatMap_append, List.nil_append, Nat.zero_add, Nat.add_mul]

end Run

/-! ### Sessions -/

/-- The scheduler does not fail for the numbers of frames that fit in an `int8_t`. -/
theorem exists_run (hN : 1 ≤ N) (hN' : N ≤ 128) {query : List UInt8}
    (hq : ∀ p ∈ query, p ≠ FRAME_EMPTY) (algo : String) (s : State N) :
    ∃ s' secs, Logger.run algo query s = .ok (s', secs) := by
  have hone (selected : Bool) (name : String) (policy : Policy) (s : State N) :
      ∃ s' secs, Logger.runIf selected name policy.algo query s = .ok (s', secs) := by
    cases selected with
    | false => exact ⟨s, [], rfl⟩
    | true =>
      obtain ⟨s', -, sec, hs, -, -⟩ :=
        Logger.runOne_agree (policy.agreement hN hN') hq (s := s) (t := s) rfl name
      exact ⟨s', [sec], Logger.runIf_true hs⟩
  obtain ⟨s₁, fifo, hfifo⟩ := hone (Logger.selects algo .fifo) "FIFO" .fifo s
  obtain ⟨s₂, min, hmin⟩ := hone (Logger.selects algo .min) "MIN (Optimal)" .min s₁
  obtain ⟨s₃, lru, hlru⟩ := hone (Logger.selects algo .lru) "LRU" .lru s₂
  obtain ⟨s₄, sc, hsc⟩ := hone (Logger.selects algo .secondChance) "Second Chance" .secondChance s₃
  refine ⟨s₄, fifo ++ min ++ lru ++ sc, ?_⟩
  simp only [Policy.algo] at hfifo hmin hlru hsc
  rw [Logger.run]
  simp only [hfifo, hmin, hlru, hsc, bind, Except.bind, pure, Except.pure]

/-- The first access of an algorithm evicts nothing. -/
theorem first_step (hN : 1 ≤ N) (policy : Policy) (s : State N) (page : UInt8) (step : UInt16) :
    ∃ r s', policy.algo (schedulerReset s) page step = .ok (r, s') ∧ r.evicted = FRAME_EMPTY := by
  have hfree : findEmpty (schedulerReset s).frames = ((⟨0, hN⟩ : Fin N) : ℕ) :=
    (filledTo_reset s).findEmpty_eq hN
  have hfound : findPage (schedulerReset s).frames page = ((⟨0, hN⟩ : Fin N) : ℕ) ∨
      findPage (schedulerReset s).frames page = -1 := by
    by_cases hpage : page = FRAME_EMPTY
    · subst hpage
      exact .inl hfree
    · right
      have hnone : (List.finRange N).find? (fun i => (schedulerReset s).frames i == page)
          = none := by
        rw [List.find?_eq_none]
        intro i _ heq
        exact hpage (beq_iff_eq.mp heq).symm
      rw [findPage, hnone]
  cases policy with
  | fifo =>
    obtain hidx | hidx := hfound
    · exact ⟨_, _, schedulerFifo_hit hidx step, rfl⟩
    · exact ⟨_, _, schedulerFifo_fill hidx hfree step, rfl⟩
  | min =>
    obtain hidx | hidx := hfound
    · exact ⟨_, _, schedulerMin_hit hidx step, rfl⟩
    · exact ⟨_, _, schedulerMin_fill hidx hfree step, rfl⟩
  | lru => exact ⟨_, _, schedulerLru_fill rfl hfree step, rfl⟩
  | secondChance => exact ⟨_, _, schedulerSecondChance_fill rfl hfree step, rfl⟩

section Stuck

variable (fuel : ℕ) {query : List UInt8} (hquery : query ≠ []) (name : String) (policy : Policy)
  (s : State 255) (t : Terminal)

theorem showLoop_stuck (k : ℕ) :
    showLoop fuel name policy.algo query (schedulerReset s) t (k + 1) = .error .rounds := by
  induction k with
  | zero =>
    obtain ⟨r, s', hstep, hevicted⟩ := first_step (by decide) policy s (query.getD 0 0) (.ofNat 0)
    show (liftFault (policy.algo (schedulerReset s) (query.getD 0 0) (.ofNat 0)) >>= _) = _
    rw [hstep]
    have hframes (shown : Shown 255) (hr : shown.result = r) :
        stepFrames fuel shown = .error .rounds := by
      simp only [stepFrames, hr, hevicted, printRam_forever, ne_eq, not_true, and_false, if_false]
    show (stepFrames fuel ⟨(schedulerReset s).frames, r, s'.frames⟩ >>= _) = _
    rw [hframes _ rfl]
    rfl
  | succ k ih =>
    rw [showLoop, ih]
    rfl

include hquery in
theorem runOne_stuck (rate : UInt32 → UInt32 → List Char) :
    runOne fuel rate name policy.algo query s t = .error .rounds := by
  obtain ⟨k, hk⟩ := Nat.exists_eq_succ_of_ne_zero (List.length_pos_iff.mpr hquery).ne'
  rw [runOne, hk, showLoop_stuck]
  rfl

end Stuck

/-- With 255 frames the first step of the first algorithm never ends, whatever the input. -/
theorem logger_stuck {query : List UInt8} (hquery : query ≠ []) {algo : String}
    (hselects : ∃ policy, Logger.selects algo policy = true)
    (rate : UInt32 → UInt32 → List Char) (s : State 255) (t : Terminal) (fuel : ℕ) :
    run fuel rate algo query s t = .error .rounds := by
  have hif (name : String) (policy : Policy) :
      runIf fuel rate true name policy.algo query s t = .error .rounds := by
    rw [runIf, if_pos rfl]
    exact runOne_stuck fuel hquery name policy s t rate
  have hfifo := hif "FIFO" .fifo
  have hmin := hif "MIN (Optimal)" .min
  have hlru := hif "LRU" .lru
  have hsc := hif "Second Chance" .secondChance
  simp only [Policy.algo] at hfifo hmin hlru hsc
  have hskip (name : String) (fn : Algo 255) :
      runIf fuel rate false name fn query s t = .ok (s, t) := rfl
  rw [run]
  -- the first algorithm that is selected
  cases h₁ : Logger.selects algo .fifo with
  | true => simp only [hfifo, bind, Except.bind]
  | false =>
  cases h₂ : Logger.selects algo .min with
  | true => simp only [hskip, hmin, bind, Except.bind]
  | false =>
  cases h₃ : Logger.selects algo .lru with
  | true => simp only [hskip, hlru, bind, Except.bind]
  | false =>
  cases h₄ : Logger.selects algo .secondChance with
  | true => simp only [hskip, hsc, bind, Except.bind]
  | false =>
  obtain ⟨policy, hpolicy⟩ := hselects
  cases policy <;> simp_all

theorem logger_stuck_one : run 1000 (fun _ _ => []) "fifo" [1] (zeroMemory 255) ⟨['\n'], []⟩
    = .error .rounds :=
  logger_stuck (by decide) ⟨.fifo, by decide⟩ _ _ _ _

end OsLabs.PageReplace.Display
