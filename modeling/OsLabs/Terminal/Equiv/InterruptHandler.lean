import OsLabs.Terminal.Equiv.Print
import OsLabs.Terminal.Equiv.Random

/-!
# The screen of the interrupt lab

Whatever the moments at which interrupts are taken, the terminal shows the messages of the start and
then one line for each random number, some with a line `Tick` after them (`lines`).  There is one
`Tick` for each interrupt that found the flag clear, apart from the one that the flag stands for,
and main never stops sending (`main_screen`).  A step of main is one of the model of the timer or is
not seen there (`Step.simulates`).
-/

namespace OsLabs.Terminal.InterruptHandler

/-! ### What a step does -/

theorem MainState.print_message (s : MainState) {text : List Char} (htext : '%' ∉ text) (pc : Pc) :
    s.print text [] pc = some { s with pc := pc, out := text } := by
  unfold MainState.print
  rw [print_text _ htext]
  rfl

theorem MainState.print_number (s : MainState) {n : ℕ} (hn : n < 1000) (pc : Pc) :
    s.print "%d\n".toList [.int (int32 n)] pc
      = some { s with pc := pc, out := decimal n ++ ['\n'] } := by
  have hrange : |(n : ℤ)| ≤ 2147483647 := by
    rw [Nat.abs_cast]
    omega
  have hnewline : '%' ∉ ['\n'] := by decide
  unfold MainState.print
  rw [int32_of_lt (by omega) (by omega), show "%d\n".toList = ['%', 'd', '\n'] from rfl,
    prints_int _ hrange, print_text _ hnewline]
  rfl

/-- The messages whose `PRINT` main has called. -/
def Pc.header : Pc → List Char
  | .starting => []
  | .initializing => "---------- Starting Interrupt Handler Process ----------\n".toList
  | .timer | .enabling =>
    "---------- Starting Interrupt Handler Process ----------\n".toList ++
      "Initializing timer...\n".toList
  | .enable | .enabled =>
    "---------- Starting Interrupt Handler Process ----------\n".toList ++
      "Initializing timer...\n".toList ++ "Enabling interrupts...\n".toList
  | .random | .test | .tick | .clear | .delay =>
    "---------- Starting Interrupt Handler Process ----------\n".toList ++
      "Initializing timer...\n".toList ++ "Enabling interrupts...\n".toList ++
      "Timer initialized and interrupts enabled.\n".toList

/-- Main has not come to its loop. -/
def Pc.Setup (pc : Pc) : Prop :=
  pc ∈ [Pc.starting, .initializing, .timer, .enabling, .enable, .enabled]

instance (pc : Pc) : Decidable pc.Setup := inferInstanceAs (Decidable (_ ∈ _))

/-- The steps of main since it has called `PRINT`, other than sending. -/
def Pc.quiet : Pc → ℕ
  | .starting | .initializing | .timer | .enable | .test | .clear => 0
  | .enabling | .enabled | .tick | .delay => 1
  | .random => 2

/-- A step from `pc` before the loop calls `PRINT` with `text`, or not at all, and comes to
`pc'`. -/
structure Pc.Leads (pc : Pc) (text : List Char) (pc' : Pc) : Prop where
  setup : pc.Setup
  text_ok : '%' ∉ text
  header : pc'.header = pc.header ++ text
  next : pc'.Setup ∨ pc' = .random
  length : text.length ≤ 60
  quiet : pc.quiet < pc'.quiet + 3 * text.length

/-- A step of main. -/
inductive Step : MainState → MainState → Prop where
  | send {s : MainState} {c : Char} {out : List Char} (hout : s.out = c :: out) :
    Step s { s with out := out, uart := uartPutc c s.uart }
  | setup {s : MainState} {text : List Char} {pc : Pc} {masked : Bool} (hout : s.out = [])
    (h : s.pc.Leads text pc) : Step s { s with pc := pc, out := text, masked := masked }
  | random {s : MainState} (hout : s.out = []) (hpc : s.pc = .random) :
    Step s { s with
      pc := .test
      out := decimal (rand s.seed % 1000).toNat ++ ['\n']
      seed := rand s.seed }
  | test {s : MainState} (hout : s.out = []) (hpc : s.pc = .test) :
    Step s { s with pc := if s.isTick ≠ 0 then .tick else .delay }
  | tick {s : MainState} (hout : s.out = []) (hpc : s.pc = .tick) :
    Step s { s with pc := .clear, out := "Tick\n".toList }
  | clear {s : MainState} (hout : s.out = []) (hpc : s.pc = .clear) :
    Step s { s with pc := .delay, isTick := 0 }
  | delay {s : MainState} (hout : s.out = []) (hpc : s.pc = .delay) :
    Step s { s with pc := .random }

theorem leads_starting : Pc.starting.Leads
    "---------- Starting Interrupt Handler Process ----------\n".toList .initializing where
  setup := by decide
  text_ok := by decide
  header := rfl
  next := by decide
  length := by decide
  quiet := by decide

theorem leads_initializing :
    Pc.initializing.Leads "Initializing timer...\n".toList .timer where
  setup := by decide
  text_ok := by decide
  header := rfl
  next := by decide
  length := by decide
  quiet := by decide

theorem leads_timer : Pc.timer.Leads [] .enabling where
  setup := by decide
  text_ok := by decide
  header := rfl
  next := by decide
  length := by decide
  quiet := by decide

theorem leads_enabling : Pc.enabling.Leads "Enabling interrupts...\n".toList .enable where
  setup := by decide
  text_ok := by decide
  header := rfl
  next := by decide
  length := by decide
  quiet := by decide

theorem leads_enable : Pc.enable.Leads [] .enabled where
  setup := by decide
  text_ok := by decide
  header := rfl
  next := by decide
  length := by decide
  quiet := by decide

theorem leads_enabled :
    Pc.enabled.Leads "Timer initialized and interrupts enabled.\n".toList .random where
  setup := by decide
  text_ok := by decide
  header := rfl
  next := by decide
  length := by decide
  quiet := by decide

/-- Main can always go on. -/
theorem exists_next (s : MainState) : ∃ s', next s = some s' ∧ Step s s' := by
  obtain ⟨pc, out, uart, seed, isTick, masked⟩ := s
  cases out with
  | cons c out => exact ⟨_, rfl, .send rfl⟩
  | nil =>
    cases pc with
    | starting =>
      exact ⟨_, MainState.print_message _ leads_starting.text_ok _, .setup rfl leads_starting⟩
    | initializing =>
      exact ⟨_, MainState.print_message _ leads_initializing.text_ok _,
        .setup rfl leads_initializing⟩
    | timer => exact ⟨_, rfl, .setup rfl leads_timer⟩
    | enabling =>
      exact ⟨_, MainState.print_message _ leads_enabling.text_ok _, .setup rfl leads_enabling⟩
    | enable => exact ⟨_, rfl, .setup rfl leads_enable⟩
    | enabled =>
      exact ⟨_, MainState.print_message _ leads_enabled.text_ok _, .setup rfl leads_enabled⟩
    | random =>
      have hlt : (rand seed % 1000).toNat < 1000 := by
        rw [UInt32.toNat_mod]
        exact Nat.mod_lt _ (by decide)
      exact ⟨_, MainState.print_number _ hlt .test, .random rfl rfl⟩
    | test => exact ⟨_, rfl, .test rfl rfl⟩
    | tick => exact ⟨_, MainState.print_message _ (by decide) _, .tick rfl rfl⟩
    | clear => exact ⟨_, rfl, .clear rfl rfl⟩
    | delay => exact ⟨_, rfl, .delay rfl rfl⟩

theorem step_of_next {s s' : MainState} (h : next s = some s') : Step s s' := by
  obtain ⟨s'', hnext, hstep⟩ := exists_next s
  rw [h, Option.some_inj] at hnext
  rwa [hnext]

/-! ### The model of the timer -/

/-- Where the model of the timer is. -/
def Pc.timerPc : Pc → MainPc
  | .test => .test
  | .tick => .print
  | .clear => .clear
  | _ => .work

/-- What the model of the timer keeps, after `ticks` calls that print `Tick`. -/
def MainState.timerState (s : MainState) (ticks : ℕ) : TimerState where
  pc := s.pc.timerPc
  isTick := s.isTick
  ticks := ticks

theorem timerState_irq (s : MainState) (ticks : ℕ) :
    (irq s).timerState ticks = timerIrqHandler (s.timerState ticks) := rfl

theorem Pc.Setup.timerPc_eq {pc : Pc} (h : pc.Setup) : pc.timerPc = .work := by
  cases pc with
  | test => exact absurd h (by decide)
  | tick => exact absurd h (by decide)
  | clear => exact absurd h (by decide)
  | _ => rfl

/-- A step of main is one of the model of the timer, or is not seen there. -/
theorem Step.simulates {s s' : MainState} (h : Step s s') (ticks : ℕ) :
    s'.timerState ticks = s.timerState ticks ∨
      s'.timerState (if s.pc = .tick then ticks + 1 else ticks)
        = mainStep (s.timerState ticks) := by
  cases h with
  | send hout => exact .inl rfl
  | @setup text pc masked hout h =>
    left
    have hpc : pc.timerPc = .work := by
      obtain hsetup | rfl := h.next
      · exact hsetup.timerPc_eq
      · rfl
    unfold MainState.timerState
    rw [hpc, h.setup.timerPc_eq]
  | random hout hpc =>
    right
    simp only [MainState.timerState, hpc, mainStep, Pc.timerPc, reduceCtorEq, if_false]
  | test hout hpc =>
    right
    by_cases hset : s.isTick = 0
    · simp [MainState.timerState, hpc, mainStep, Pc.timerPc, hset]
    · simp [MainState.timerState, hpc, mainStep, Pc.timerPc, hset]
  | tick hout hpc =>
    right
    simp only [MainState.timerState, hpc, mainStep, Pc.timerPc, if_true]
  | clear hout hpc =>
    right
    simp only [MainState.timerState, hpc, mainStep, Pc.timerPc, reduceCtorEq, if_false]
  | delay hout hpc =>
    left
    simp only [MainState.timerState, hpc, Pc.timerPc]

/-! ### The lines -/

/-- The line of a random number, and the line `Tick` after it. -/
def line (k : ℕ) (tick : Bool) : List Char :=
  decimal (number k) ++ '\n' :: if tick then "Tick\n".toList else []

/-- The lines of the first random numbers. -/
def lines (ticks : List Bool) : List Char := ticks.zipIdx.flatMap fun (tick, k) => line k tick

theorem lines_concat (ticks : List Bool) (tick : Bool) :
    lines (ticks ++ [tick]) = lines ticks ++ line ticks.length tick := by
  unfold lines
  rw [List.zipIdx_append, List.flatMap_append, Nat.zero_add]
  simp

theorem line_true (k : ℕ) : line k true = line k false ++ "Tick\n".toList := by
  simp only [line, List.append_assoc, List.cons_append, List.nil_append, if_true,
    Bool.false_eq_true, if_false]

/-- Main has printed a number and can still print `Tick` after it. -/
def Pc.BeforeTick (pc : Pc) : Prop := pc = .test ∨ pc = .tick

instance (pc : Pc) : Decidable pc.BeforeTick := inferInstanceAs (Decidable (_ ∨ _))

/-- Main is in the body of the `if`. -/
def Pc.InBody (pc : Pc) : Prop := pc = .tick ∨ pc = .clear

instance (pc : Pc) : Decidable pc.InBody := inferInstanceAs (Decidable (_ ∨ _))

/-- The lines so far are those of `ticks`, and the interrupts are accounted for. -/
structure Shows (s : MainState) (t : Trace) (ticks : List Bool) : Prop where
  text : s.uart.tx ++ s.out = s.pc.header ++ lines ticks
  seed : s.seed = seedAt ticks.length
  setup : s.pc.Setup → ticks = []
  /-- The last line is still without its `Tick`. -/
  last : s.pc.BeforeTick → ∃ ticks', ticks = ticks' ++ [false]
  isTick : s.pc.InBody → s.isTick ≠ 0
  count : ticks.count true + (if s.isTick ≠ 0 ∧ s.pc ≠ .clear then 1 else 0) + t.merged
    = t.interrupts
  steps : t.steps ≤ 4 * s.uart.tx.length + 3 * s.out.length + s.pc.quiet
  length : s.out.length ≤ 60

theorem shows_init : Shows .init { steps := 0, interrupts := 0, merged := 0 } [] where
  text := rfl
  seed := rfl
  setup _ := rfl
  last h := absurd h (show ¬Pc.starting.BeforeTick by decide)
  isTick h := absurd h (show ¬Pc.starting.InBody by decide)
  count := rfl
  steps := by decide
  length := by decide

theorem Shows.irq {s : MainState} {t : Trace} {ticks : List Bool} (hs : Shows s t ticks) :
    Shows (irq s) { t with
      interrupts := t.interrupts + 1
      merged := if s.isTick ≠ 0 then t.merged + 1 else t.merged } ticks where
  text := hs.text
  seed := hs.seed
  setup := hs.setup
  last := hs.last
  isTick _ := one_ne_zero
  count := by
    have hcount := hs.count
    show ticks.count true + (if (1 : ℤ) ≠ 0 ∧ s.pc ≠ .clear then 1 else 0)
      + (if s.isTick ≠ 0 then t.merged + 1 else t.merged) = t.interrupts + 1
    by_cases hclear : s.pc = .clear
    · have hset := hs.isTick (.inr hclear)
      rw [if_neg (fun h => h.2 hclear)] at hcount ⊢
      rw [if_pos hset]
      omega
    · rw [if_pos ⟨one_ne_zero, hclear⟩]
      by_cases hset : s.isTick = 0
      · rw [if_neg (fun h => h.1 hset)] at hcount
        rw [if_neg (fun h => h hset)]
        omega
      · rw [if_pos ⟨hset, hclear⟩] at hcount
        rw [if_pos hset]
        omega
  steps := hs.steps
  length := hs.length

section Step

variable {s : MainState} {t : Trace} {ticks : List Bool}

/-- A character is sent. -/
theorem Shows.send (hs : Shows s t ticks) {c : Char} {out : List Char} (hout : s.out = c :: out) :
    Shows { s with out := out, uart := uartPutc c s.uart } { t with steps := t.steps + 1 }
      ticks := by
  have htext := hs.text
  have hlen := hs.length
  have hsteps := hs.steps
  rw [hout] at htext hlen hsteps
  rw [List.length_cons] at hlen hsteps
  refine ⟨?_, hs.seed, hs.setup, hs.last, hs.isTick, hs.count, ?_, by dsimp only; omega⟩
  · rw [← htext, uartPutc, List.append_assoc]
    rfl
  · show t.steps + 1 ≤ 4 * (s.uart.tx ++ [c]).length + 3 * out.length + s.pc.quiet
    rw [List.length_append, List.length_singleton]
    omega

theorem Pc.Leads.next_ne {pc pc' : Pc} {text : List Char} (h : pc.Leads text pc') :
    pc' ≠ .clear ∧ pc' ≠ .tick ∧ pc' ≠ .test := by
  obtain hsetup | rfl := h.next
  · refine ⟨?_, ?_, ?_⟩ <;> rintro rfl <;> exact absurd hsetup (by decide)
  · decide

/-- The loop has not begun. -/
theorem Shows.leads (hs : Shows s t ticks) (hout : s.out = []) {text : List Char} {pc : Pc}
    (h : s.pc.Leads text pc) (masked : Bool) :
    Shows { s with pc := pc, out := text, masked := masked } { t with steps := t.steps + 1 }
      ticks := by
  obtain ⟨hclear, htick, htest⟩ := h.next_ne
  have hnil := hs.setup h.setup
  have htext := hs.text
  have hsteps := hs.steps
  have hquiet := h.quiet
  have hold : s.pc ≠ .clear := fun heq => absurd (heq ▸ h.setup) (by decide)
  rw [hout, List.append_nil] at htext
  rw [hout, List.length_nil] at hsteps
  refine ⟨?_, hs.seed, fun _ => hnil, ?_, ?_, ?_, ?_, h.length⟩
  · show s.uart.tx ++ text = pc.header ++ lines ticks
    rw [htext, h.header, hnil]
    simp [lines]
  · rintro (heq | heq)
    · exact absurd heq htest
    · exact absurd heq htick
  · rintro (heq | heq)
    · exact absurd heq htick
    · exact absurd heq hclear
  · rw [← hs.count]
    simp only [hold, hclear, ne_eq, not_false_eq_true, and_true]
  · dsimp only
    omega

/-- Main goes on in the loop and calls nothing: an interrupt that is still to be shown is so
after. -/
theorem Shows.pass (hs : Shows s t ticks) {pc : Pc} {isTick : ℤ}
    (hheader : pc.header = s.pc.header) (hsetup : ¬pc.Setup)
    (hlast : pc.BeforeTick → s.pc.BeforeTick) (hbody : pc.InBody → isTick ≠ 0)
    (hpending : isTick ≠ 0 ∧ pc ≠ .clear ↔ s.isTick ≠ 0 ∧ s.pc ≠ .clear)
    (hquiet : s.pc.quiet < pc.quiet) :
    Shows { s with pc := pc, isTick := isTick } { t with steps := t.steps + 1 } ticks := by
  have hsteps := hs.steps
  refine ⟨hs.text.trans (by rw [hheader]), hs.seed, fun h => absurd h hsetup,
    fun h => hs.last (hlast h), hbody, ?_, ?_, hs.length⟩
  · rw [← hs.count]
    simp only [hpending]
  · dsimp only
    omega

/-- The line of a number begins. -/
theorem Shows.random (hs : Shows s t ticks) (hout : s.out = []) (hpc : s.pc = .random) :
    Shows { s with
        pc := .test
        out := decimal (rand s.seed % 1000).toNat ++ ['\n']
        seed := rand s.seed } { t with steps := t.steps + 1 } (ticks ++ [false]) := by
  have htext := hs.text
  have hcount := hs.count
  have hsteps := hs.steps
  have hnumber : (rand s.seed % 1000).toNat = number ticks.length := by
    rw [hs.seed, UInt32.toNat_mod, number, seedAt_succ]
    rfl
  have hle : (decimal (rand s.seed % 1000).toNat).length ≤ 11 := by
    have hlt : (rand s.seed % 1000).toNat < 1000 := by
      rw [UInt32.toNat_mod]
      exact Nat.mod_lt _ (by decide)
    exact length_decimal (by omega) (by omega)
  have hpos : 0 < (decimal (rand s.seed % 1000).toNat).length :=
    List.length_pos_of_ne_nil (decimal_ne_nil _)
  rw [hout, hpc] at hsteps
  rw [hout, hpc, List.append_nil] at htext
  rw [hpc] at hcount
  refine ⟨?_, ?_, fun h => absurd h (show ¬Pc.test.Setup by decide), fun _ => ⟨ticks, rfl⟩,
    fun h => absurd h (show ¬Pc.test.InBody by decide), ?_, ?_, ?_⟩
  · show s.uart.tx ++ (decimal (rand s.seed % 1000).toNat ++ ['\n']) = _
    rw [htext, lines_concat, hnumber, List.append_assoc]
    rfl
  · show rand s.seed = _
    rw [List.length_append, List.length_singleton, seedAt_succ, ← hs.seed]
  · rw [← hcount, List.count_append]
    simp
  · show t.steps + 1 ≤ 4 * s.uart.tx.length
      + 3 * (decimal (rand s.seed % 1000).toNat ++ ['\n']).length + 0
    have hquiet : Pc.random.quiet = 2 := rfl
    rw [hquiet, List.length_nil] at hsteps
    rw [List.length_append, List.length_singleton]
    omega
  · rw [List.length_append, List.length_singleton]
    omega

/-- The last line gets its `Tick`. -/
theorem Shows.tick (hs : Shows s t (ticks ++ [false])) (hout : s.out = []) (hpc : s.pc = .tick) :
    Shows { s with pc := .clear, out := "Tick\n".toList } { t with steps := t.steps + 1 }
      (ticks ++ [true]) := by
  have htext := hs.text
  have hcount := hs.count
  have hsteps := hs.steps
  have hseed := hs.seed
  have hset := hs.isTick (.inl hpc)
  rw [hout, hpc] at hsteps
  rw [hout, hpc, List.append_nil] at htext
  rw [if_pos ⟨hset, by rw [hpc]; decide⟩, List.count_append] at hcount
  rw [List.length_append, List.length_singleton] at hseed
  have hlen : "Tick\n".toList.length ≤ 60 := by decide
  refine ⟨?_, ?_, fun h => absurd h (show ¬Pc.clear.Setup by decide),
    fun h => absurd h (show ¬Pc.clear.BeforeTick by decide), fun _ => hset, ?_, ?_, hlen⟩
  · show s.uart.tx ++ "Tick\n".toList = _
    rw [htext, lines_concat, lines_concat, line_true, List.append_assoc, List.append_assoc]
    rfl
  · rw [List.length_append, List.length_singleton, ← hseed]
  · rw [← hcount, if_neg (fun h => h.2 rfl), List.count_append]
    simp
  · show t.steps + 1 ≤ 4 * s.uart.tx.length + 3 * 5 + 0
    have hquiet : Pc.tick.quiet = 1 := rfl
    rw [hquiet, List.length_nil] at hsteps
    omega

/-- A step keeps the account, and may add a line or a `Tick`. -/
theorem Shows.step (hs : Shows s t ticks) {s' : MainState} (h : Step s s') :
    ∃ ticks', Shows s' { t with steps := t.steps + 1 } ticks' := by
  cases h with
  | send hout => exact ⟨ticks, hs.send hout⟩
  | setup hout h => exact ⟨ticks, hs.leads hout h _⟩
  | random hout hpc => exact ⟨_, hs.random hout hpc⟩
  | test hout hpc =>
    refine ⟨ticks, ?_⟩
    split_ifs with hset
    · exact hs.pass (by rw [hpc]; rfl) (by decide) (fun _ => .inl hpc) (fun _ => hset)
        (by rw [hpc]; simp [hset]) (by rw [hpc]; decide)
    · exact hs.pass (by rw [hpc]; rfl) (by decide) (fun h => absurd h (by decide))
        (fun h => absurd h (by decide)) (by rw [hpc]; simp) (by rw [hpc]; decide)
  | tick hout hpc =>
    obtain ⟨ticks, rfl⟩ := hs.last (.inr hpc)
    exact ⟨_, hs.tick hout hpc⟩
  | clear hout hpc =>
    -- the flag has been set until now, and its interrupt has its `Tick`
    exact ⟨ticks, hs.pass (by rw [hpc]; rfl) (by decide) (fun h => absurd h (by decide))
      (fun h => absurd h (by decide)) (by rw [hpc]; simp) (by rw [hpc]; decide)⟩
  | delay hout hpc =>
    exact ⟨ticks, hs.pass (by rw [hpc]; rfl) (by decide) (fun h => absurd h (by decide))
      (fun h => absurd h (by decide)) (by rw [hpc]; simp) (by rw [hpc]; decide)⟩

end Step

theorem Run.shows {s : MainState} {t : Trace} (hrun : Run s t) : ∃ ticks, Shows s t ticks := by
  induction hrun with
  | start => exact ⟨[], shows_init⟩
  | main _ h ih =>
    obtain ⟨ticks, hs⟩ := ih
    exact hs.step (step_of_next h)
  | irq _ _ ih =>
    obtain ⟨ticks, hs⟩ := ih
    exact ⟨ticks, hs.irq⟩

/-- **The screen of the interrupt lab**: in every run, whatever the moments at which interrupts are
taken, what has been sent and what the current `PRINT` still sends are the messages up to here and a
line for each random number, some with a `Tick`.  Each interrupt that found the flag clear has its
`Tick`, or the flag is set for it.  Main can always go on, and as long as it does it sends. -/
theorem main_screen {s : MainState} {t : Trace} (hrun : Run s t) :
    (∃ ticks : List Bool, s.uart.tx ++ s.out = s.pc.header ++ lines ticks ∧
      ticks.count true + (if s.isTick ≠ 0 ∧ s.pc ≠ .clear then 1 else 0) + t.merged
        = t.interrupts) ∧
    t.steps ≤ 4 * s.uart.tx.length + 182 ∧ ∃ s', next s = some s' := by
  obtain ⟨ticks, hs⟩ := hrun.shows
  obtain ⟨s', hnext, -⟩ := exists_next s
  refine ⟨⟨ticks, hs.text, hs.count⟩, ?_, s', hnext⟩
  have hsteps := hs.steps
  have hlen := hs.length
  have hquiet : s.pc.quiet ≤ 2 := by cases s.pc <;> decide
  omega

/-- Main goes on for as long as it may. -/
theorem Run.exists_main {s : MainState} {t : Trace} (hrun : Run s t) (n : ℕ) :
    ∃ s', Run s' { t with steps := t.steps + n } := by
  induction n with
  | zero => exact ⟨s, hrun⟩
  | succ n ih =>
    obtain ⟨s', hrun'⟩ := ih
    obtain ⟨s'', hnext, -⟩ := exists_next s'
    exact ⟨s'', hrun'.main hnext⟩

/-- `n` steps of main. -/
def nextSteps : ℕ → MainState → Option MainState
  | 0, s => some s
  | n + 1, s => (next s).bind (nextSteps n)

theorem Run.nextSteps {s s' : MainState} {t : Trace} {n : ℕ} (hrun : Run s t)
    (h : nextSteps n s = some s') : Run s' { t with steps := t.steps + n } := by
  induction n generalizing s t with
  | zero =>
    obtain rfl := Option.some.inj h
    exact hrun
  | succ n ih =>
    obtain ⟨s₁, hnext, hrest⟩ := Option.bind_eq_some_iff.mp h
    have hdone := ih (hrun.main hnext) hrest
    rwa [show t.steps + 1 + n = t.steps + (n + 1) by omega] at hdone

/-- Two interrupts after `enable_irq`, of which the second finds the flag set, in a run of a
thousand steps. -/
theorem main_screen_thousand : ∃ s, Run s { steps := 1000, interrupts := 2, merged := 1 } ∧
    (∃ ticks : List Bool, s.uart.tx ++ s.out = s.pc.header ++ lines ticks ∧
      ticks.count true + (if s.isTick ≠ 0 ∧ s.pc ≠ .clear then 1 else 0) + 1 = 2) ∧
    1000 ≤ 4 * s.uart.tx.length + 182 ∧ ∃ s', next s = some s' := by
  have henabled : (InterruptHandler.nextSteps 112 .init).map (fun s => (s.masked, s.isTick))
      = some (false, 0) := by decide +kernel
  obtain ⟨s₀, hs₀, heq⟩ := Option.map_eq_some_iff.mp henabled
  obtain ⟨hmask, htick⟩ := Prod.mk.inj heq
  have hfirst := (Run.start.nextSteps hs₀).irq hmask
  have hsecond := hfirst.irq hmask
  obtain ⟨s, hrun⟩ := hsecond.exists_main 888
  have hrun' : Run s { steps := 1000, interrupts := 2, merged := 1 } := by
    simpa [htick, irq] using hrun
  exact ⟨s, hrun', main_screen hrun'⟩

end OsLabs.Terminal.InterruptHandler
