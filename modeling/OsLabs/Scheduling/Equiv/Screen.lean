import OsLabs.Scheduling.Output
import OsLabs.Scheduling.Equiv.Capacity
import OsLabs.Scheduling.Equiv.Schedule
import OsLabs.VirtualMemory.Equiv.Preoccupy

/-!
# The charts on the screen

A cell of a printed bar is a dot in an idle tick and a bar in the colour of the thread that runs
in any other (`outputPrintGantt_eq`).  As all schedulers are idle at the same ticks, the four charts
differ in their colours only.
-/

namespace OsLabs.Scheduling

variable {n : ℕ}

/-! ### Cells -/

/-- The colour of thread `i` of `main` -/
def styleOf (i : ℕ) : List Char := COLORS.getD (i % 7) []

/-- The cell of a tick -/
def cellOf : Option (Fin n) → Char × List Char
  | none => ('.', COLOR_RESET)
  | some i => ('|', styleOf i)

/-- What is printed for it -/
def cellText : Option (Fin n) → List Char
  | none => ['.']
  | some i => styleOf i ++ '|' :: COLOR_RESET

/-- The `color` that `main` gives to each thread -/
def colorOf (n : ℕ) (i : Fin n) : ℤ := (i : ℕ)

theorem threadColor_natCast (i : ℕ) : threadColor i = .ok (styleOf i) := by
  have hmod : (i : ℤ).tmod N_COLORS = (i % 7 : ℕ) := Int.ofNat_tmod i 7
  have hget : COLORS[i % 7]? = some (styleOf i) := by
    have hlt : i % 7 < COLORS.length := Nat.mod_lt i (by decide)
    rw [styleOf, List.getD_eq_getElem?_getD, List.getElem?_eq_getElem hlt, Option.getD_some]
  simp only [threadColor, hmod]
  rw [if_neg (by omega), Int.toNat_natCast, hget]

theorem ganttCell_owner {w : Fin n → Thread} (hid : ∀ i, (w i).id = (i : ℕ)) (x : Option (Fin n)) :
    ganttCell (colorOf n) (owner w x) = .ok (cellText x) := by
  cases x with
  | none => rfl
  | some i =>
    have hrange : (0 : ℤ) ≤ (i : ℕ) ∧ ((i : ℕ) : ℤ) < n := by
      have := i.isLt
      omega
    rw [owner, hid i, ganttCell, if_neg (by omega), dif_pos hrange]
    show (threadColor (i : ℕ) >>= fun color => _) = _
    rw [threadColor_natCast]
    rfl

theorem paints_styleOf (style : List Char) (i : ℕ) : Paints style (styleOf i) [] (styleOf i) := by
  have hall : ∀ k < 7, Paints style (COLORS.getD k []) [] (COLORS.getD k []) := by
    intro k hk
    interval_cases k <;> exact fun _ => rfl
  exact hall (i % 7) (Nat.mod_lt i (by decide))

theorem paints_cellText (x : Option (Fin n)) :
    Paints COLOR_RESET (cellText x) [cellOf x] COLOR_RESET := by
  cases x with
  | none => exact fun _ => rfl
  | some i =>
    have hbar : Paints (styleOf i) ['|'] [('|', styleOf i)] (styleOf i) :=
      paints_plain (styleOf i) (by decide)
    have hreset : Paints (styleOf i) COLOR_RESET [] COLOR_RESET := fun _ => rfl
    exact (paints_styleOf COLOR_RESET i).append (hbar.append hreset)

/-! ### The chart -/

/-- What `output_print_gantt` prints before the bar -/
def topText (width : ℕ) : List Char :=
  "\n  /".toList ++ List.replicate width '-' ++ "\\\n  |".toList

/-- What `output_print_gantt` prints after the bar -/
def bottomText (width : ℕ) (algo : String) : List Char :=
  "|\n  \\".toList ++ List.replicate width '-' ++ "/,,, ".toList ++ algo.toList ++ "\n\n".toList

/-- What `output_print_gantt` prints for a chart of ticks -/
def chartText (algo : String) (c : Chart n) : List Char :=
  topText c.length ++ c.flatMap cellText ++ bottomText c.length algo

/-- A bar in its frame -/
def framed (algo : String) (cells : List (Char × List Char)) : List (Char × List Char) :=
  (topText cells.length).map (·, COLOR_RESET) ++ cells ++
    (bottomText cells.length algo).map (·, COLOR_RESET)

theorem paints_chartText {algo : String} (halgo : ESC ∉ algo.toList) (c : Chart n) :
    Paints COLOR_RESET (chartText algo c) (framed algo (c.map cellOf)) COLOR_RESET := by
  have hborder : ESC ∉ List.replicate c.length '-' := fun h =>
    absurd (List.eq_of_mem_replicate h) (by decide)
  have htop : ESC ∉ topText c.length := by
    unfold topText
    rw [List.mem_append, List.mem_append, not_or, not_or]
    exact ⟨⟨by decide, hborder⟩, by decide⟩
  have hbottom : ESC ∉ bottomText c.length algo := by
    unfold bottomText
    rw [List.mem_append, List.mem_append, List.mem_append, List.mem_append, not_or, not_or, not_or,
      not_or]
    exact ⟨⟨⟨⟨by decide, hborder⟩, by decide⟩, halgo⟩, by decide⟩
  rw [framed, List.length_map]
  have hbar : Paints COLOR_RESET (c.flatMap cellText) (c.map cellOf) COLOR_RESET :=
    Paints.flatMap fun x _ => paints_cellText x
  exact ((paints_plain COLOR_RESET htop).append hbar).append (paints_plain COLOR_RESET hbottom)

section Bar

variable {w : Fin n → Thread} (hid : ∀ i, (w i).id = (i : ℕ))

include hid

theorem ganttTicks_eq (c : Chart n) (text : List Char) :
    (c.map (owner w)).foldlM (fun text threadId => do
      return text ++ (← ganttCell (colorOf n) threadId)) text
        = .ok (text ++ c.flatMap cellText) := by
  induction c generalizing text with
  | nil => exact congrArg Except.ok (List.append_nil text).symm
  | cons x c ih =>
    rw [List.map_cons, List.foldlM_cons, ganttCell_owner hid, List.flatMap_cons,
      ← List.append_assoc]
    exact ih (text ++ cellText x)

/-- `output_print_gantt` stays in the bounds of its arrays, and prints the chart of the run. -/
theorem outputPrintGantt_eq {c : Chart n} {out : Output n} (h : Final w c out) (algo : String) :
    outputPrintGantt algo out.gantt (colorOf n) = .ok (chartText algo c) := by
  have hslots (g : List GanttSlot) (text : List Char) : g.foldlM (ganttSlot (colorOf n)) text
      = (ticks g).foldlM (fun text threadId => do
          return text ++ (← ganttCell (colorOf n) threadId)) text := by
    induction g generalizing text with
    | nil => rfl
    | cons slot g ih =>
      rw [List.foldlM_cons, ticks_cons, List.foldlM_append]
      exact bind_congr fun text => ih text
  have hwidth : (out.gantt.getLast?.map GanttSlot.stop).getD 0 = c.length := h.tiles.makespan_eq
  unfold outputPrintGantt
  rw [hslots, h.ticks, ganttTicks_eq hid, hwidth]
  show Except.ok _ = _
  unfold chartText topText bottomText
  simp only [Int.toNat_natCast, List.append_assoc, List.nil_append]

end Bar

/-! ### The workload -/

theorem randRange_mem {min max : ℤ} (hmin : min ≤ max) (hmax : max - min < 32768) (seed : UInt32) :
    min ≤ (VirtualMemory.randRange min max seed).1 ∧
      (VirtualMemory.randRange min max seed).1 ≤ max := by
  rw [VirtualMemory.randRange_eq hmin hmax]
  have hlt := Nat.mod_lt (VirtualMemory.drawnBits (VirtualMemory.nextSeed seed))
    (y := (max - min + 1).toNat) (by omega)
  dsimp only
  omega

theorem drawThread_mem (seed : UInt32) :
    (1 ≤ (drawThread seed).1.1 ∧ (drawThread seed).1.1 ≤ MAX_BURST) ∧
      0 ≤ (drawThread seed).1.2 ∧ (drawThread seed).1.2 ≤ MAX_ARRIVAL :=
  have hburst (seed : UInt32) := randRange_mem (show 1 ≤ MAX_BURST by decide)
    (show MAX_BURST - 1 < 32768 by decide) seed
  have harrival (seed : UInt32) := randRange_mem (show 0 ≤ MAX_ARRIVAL by decide)
    (show MAX_ARRIVAL - 0 < 32768 by decide) seed
  ⟨hburst seed, harrival _⟩

theorem generated_drawThreads (hn : n ≤ MAX_THREADS) (seed : UInt32) :
    Generated (drawThreads n seed) :=
  orig_generated hn (fun i => (drawThread_mem (seedOf seed i)).1)
    (fun i => (drawThread_mem (seedOf seed i)).2)

/-! ### The schedulers -/

theorem bounded_sched_eq {w : Fin n → Thread} (hw : Generated w) (alg : Algorithm) (fuel : ℕ) :
    Bounded.sched alg fuel w = some (alg.sched fuel w) := by
  cases alg with
  | fifo => exact boundedFifo_eq hw fuel
  | rr => exact boundedRr_eq hw fuel
  | sjf => exact boundedSjf_eq hw fuel
  | srtf => exact boundedSrtf_eq hw fuel

theorem Algorithm.sched_add (alg : Algorithm) {w : Fin n → Thread} {fuel : ℕ} {out : Output n}
    (h : alg.sched fuel w = some out) (k : ℕ) : alg.sched (fuel + k) w = some out := by
  cases alg <;> obtain ⟨s, hloop, hout⟩ := Option.bind_eq_some_iff.mp h <;>
    exact Option.bind_eq_some_iff.mpr ⟨s, whileLoop_add hloop k, hout⟩

/-- The rounds that are needed do not change what a scheduler returns. -/
theorem Algorithm.sched_unique (alg : Algorithm) {w : Fin n → Thread} {fuel fuel' : ℕ}
    {out out' : Output n} (h : alg.sched fuel w = some out) (h' : alg.sched fuel' w = some out') :
    out = out' := by
  have hsum := alg.sched_add h fuel'
  rw [Nat.add_comm, alg.sched_add h' fuel] at hsum
  exact (Option.some.inj hsum).symm

/-- The outputs of the schedulers, the charts of their runs, and rounds enough for all four. -/
structure Runs (w : Fin n → Thread) (outs : Algorithm → Output n) (charts : Algorithm → Chart n)
    (fuel₀ : ℕ) : Prop where
  sched : ∀ alg, ∀ fuel ≥ fuel₀, alg.sched fuel w = some (outs alg)
  final : ∀ alg, Final w (charts alg) (outs alg)
  conserving : ∀ alg, Along (Conserving w) (charts alg)

theorem exists_runs {w : Fin n → Thread} (hw : Workload w) :
    ∃ outs charts fuel₀, Runs w outs charts fuel₀ := by
  choose fuels outs hout using fun alg : Algorithm => alg.terminates hw.burst (hw.sees alg)
  choose charts hfinal hcons using fun alg : Algorithm => alg.final hw.burst (hout alg)
  let fuel₀ := fuels .fifo + fuels .rr + fuels .sjf + fuels .srtf
  have hle (alg : Algorithm) : fuels alg ≤ fuel₀ := by
    dsimp only [fuel₀]
    cases alg <;> omega
  refine ⟨outs, charts, fuel₀, fun alg fuel hfuel => ?_, hfinal, fun alg => hcons alg (hw.sees alg)⟩
  have hmore := alg.sched_add (hout alg) (fuel - fuels alg)
  rwa [Nat.add_sub_cancel' ((hle alg).trans hfuel)] at hmore

/-- All charts are idle at the same ticks. -/
theorem Runs.map_isNone_eq {w : Fin n → Thread} {outs : Algorithm → Output n}
    {charts : Algorithm → Chart n} {fuel₀ : ℕ} (h : Runs w outs charts fuel₀)
    (alg alg' : Algorithm) :
    (charts alg).map Option.isNone = (charts alg').map Option.isNone := by
  have hidle := UnitSchedule.idle_iff (h.final alg).feasible
    ((h.final alg).workConserving (h.conserving alg)) (h.final alg').feasible
    ((h.final alg').workConserving (h.conserving alg'))
  have hlen : (charts alg).length = (charts alg').length :=
    le_antisymm (Chart.length_le (h.final alg).ends fun t => (hidle t).symm)
      (Chart.length_le (h.final alg').ends hidle)
  refine List.ext_getElem? fun t => ?_
  rw [List.getElem?_map, List.getElem?_map]
  rcases Nat.lt_or_ge t (charts alg).length with hlt | hge
  · rw [Chart.sched_of_lt hlt, Chart.sched_of_lt (hlen ▸ hlt), Option.map_some, Option.map_some]
    have hiff := hidle t
    rw [← Option.isNone_iff_eq_none, ← Option.isNone_iff_eq_none] at hiff
    exact congrArg some (Bool.eq_iff_iff.mpr hiff)
  · rw [List.getElem?_eq_none hge, List.getElem?_eq_none (hlen ▸ hge)]

/-! ### The program -/

/-- The algorithms in the order of `main` -/
def algorithms : List Algorithm := [.fifo, .rr, .sjf, .srtf]

section Program

variable (date : ℤ → List Char) (average : ℚ → List Char)

/-- What `run_algo` prints -/
def sectionText (alg : Algorithm) (out : Output n) (c : Chart n) : List Char :=
  outputLog date alg.name out.elog ++ chartText alg.name c ++ outputStats average out.stats

/-- What `run_algo` writes -/
def System.after (s : System) (alg : Algorithm) (out : Output n) (c : Chart n) : System where
  terminal := s.terminal ++ sectionText date average alg out c
  runLog := s.runLog.append (outputLog date alg.name out.elog)
  statsLog := s.statsLog.append
    ("=== ".toList ++ alg.name.toList ++ " ===\n".toList ++ outputStats average out.stats)

theorem runAlgo_eq {w : Fin n → Thread} (hw : Generated w) (hid : ∀ i, (w i).id = (i : ℕ))
    {fuel : ℕ} {alg : Algorithm} {out : Output n} {c : Chart n} (h : Final w c out)
    (hout : alg.sched fuel w = some out) (s : System) :
    runAlgo fuel date average alg w (colorOf n) s = .ok (s.after date average alg out c) := by
  have hsched : runSched fuel alg w = .ok out := by
    rw [runSched, bounded_sched_eq hw, hout]
  have hchart := outputPrintGantt_eq hid h alg.name
  rw [runAlgo, hsched]
  show (outputPrintGantt alg.name out.gantt (colorOf n) >>= fun chart => _) = _
  rw [hchart]
  show Except.ok _ = _
  simp only [System.after, System.print, sectionText, List.append_assoc]

theorem exists_threadList {w : Fin n → Thread} (hid : ∀ i, (w i).id = (i : ℕ)) :
    ∃ text, outputPrintThreadList w = .ok text := by
  have hline (i : Fin n) : ∃ line, threadLine (w i) = .ok line := by
    rw [threadLine, hid i, threadColor_natCast]
    exact ⟨_, rfl⟩
  have hlines (l : List (Fin n)) (text : List Char) : ∃ text',
      l.foldlM (fun text i => do return text ++ (← threadLine (w i))) text = .ok text' := by
    induction l generalizing text with
    | nil => exact ⟨text, rfl⟩
    | cons i l ih =>
      obtain ⟨line, hline⟩ := hline i
      rw [List.foldlM_cons, hline]
      exact ih (text ++ line)
  obtain ⟨text, htext⟩ := hlines (List.finRange n) []
  unfold outputPrintThreadList
  rw [htext]
  exact ⟨_, rfl⟩

/-- What `main` leaves -/
def finalSystem (outs : Algorithm → Output n) (charts : Algorithm → Chart n)
    (threadList : List Char) (runLog statsLog : LogFile) : System :=
  algorithms.foldl (fun s alg => s.after date average alg (outs alg) (charts alg))
    { terminal := banner n ++ threadList, runLog := runLog.clear, statsLog := statsLog.clear }

/-- A run of `main`: its workload, and what the schedulers make of it. -/
structure MainRun (time : UInt32) (w : Fin n → Thread) (outs : Algorithm → Output n)
    (charts : Algorithm → Chart n) (threadList : List Char) : Prop where
  threads : MIN_THREADS ≤ n
  generated : Generated w
  drawn : ∃ seed, w = drawThreads n seed
  list : outputPrintThreadList w = .ok threadList
  runs : ∃ fuel₀, Runs w outs charts fuel₀
  returns : ∃ fuel₀, ∀ fuel ≥ fuel₀, ∀ runLog statsLog,
    main fuel date average time runLog statsLog
      = .ok (finalSystem date average outs charts threadList runLog statsLog)

/-- The threads are those of the workload that `main` has drawn. -/
theorem runThreads_eq {seed : UInt32} {outs : Algorithm → Output n} {charts : Algorithm → Chart n}
    {fuel₀ : ℕ} (hw : Generated (drawThreads n seed)) (hruns : Runs (drawThreads n seed) outs charts
      fuel₀) {threadList : List Char}
    (hlist : outputPrintThreadList (drawThreads n seed) = .ok threadList) {fuel : ℕ}
    (hfuel : fuel ≥ fuel₀) (runLog statsLog : LogFile) :
    runThreads fuel date average n seed runLog statsLog
      = .ok (finalSystem date average outs charts threadList runLog statsLog) := by
  have halg (alg : Algorithm) (s : System) : runAlgo fuel date average alg (drawThreads n seed)
      (fun i => (i : ℕ)) s = .ok (s.after date average alg (outs alg) (charts alg)) :=
    runAlgo_eq date average hw (fun _ => rfl) (hruns.final alg) (hruns.sched alg fuel hfuel) s
  unfold runThreads
  simp only [hlist, halg, bind, Except.bind]
  simp only [finalSystem, algorithms, List.foldl_cons, List.foldl_nil, System.print,
    List.nil_append]

/-- `main` returns, and no subscript is out of bounds. -/
theorem exists_mainRun (time : UInt32) :
    ∃ (n : ℕ) (w : Fin n → Thread) (outs : Algorithm → Output n) (charts : Algorithm → Chart n)
      (threadList : List Char), MainRun date average time w outs charts threadList := by
  obtain ⟨hmin, hmax⟩ := randRange_mem (show MIN_THREADS ≤ MAX_THREADS by decide)
    (show (MAX_THREADS : ℤ) - MIN_THREADS < 32768 by decide) time
  obtain ⟨draw, hdraw⟩ : ∃ draw, VirtualMemory.randRange MIN_THREADS MAX_THREADS time = draw :=
    ⟨_, rfl⟩
  have hmain (fuel : ℕ) (runLog statsLog : LogFile) : main fuel date average time runLog statsLog
      = runThreads fuel date average draw.1.toNat draw.2 runLog statsLog := by
    rw [main, hdraw]
  rw [hdraw] at hmin hmax
  obtain ⟨n, hn⟩ := Int.eq_ofNat_of_zero_le (le_trans (by decide) hmin)
  rw [hn] at hmin hmax
  have hgen := generated_drawThreads (Nat.cast_le.mp hmax) draw.2
  obtain ⟨threadList, hlist⟩ := exists_threadList (w := drawThreads n draw.2) fun _ => rfl
  obtain ⟨outs, charts, fuel₀, hruns⟩ := exists_runs hgen.workload
  refine ⟨n, drawThreads n draw.2, outs, charts, threadList, hmin, hgen, ⟨draw.2, rfl⟩, hlist,
    ⟨fuel₀, hruns⟩, fuel₀, fun fuel hfuel runLog statsLog => ?_⟩
  rw [hmain, hn, Int.toNat_natCast]
  exact runThreads_eq date average hgen hruns hlist hfuel runLog statsLog

theorem MainRun.id {time : UInt32} {w : Fin n → Thread} {outs : Algorithm → Output n}
    {charts : Algorithm → Chart n} {threadList : List Char}
    (h : MainRun date average time w outs charts threadList) (i : Fin n) : (w i).id = (i : ℕ) := by
  obtain ⟨seed, rfl⟩ := h.drawn
  rfl

theorem MainRun.identified {time : UInt32} {w : Fin n → Thread} {outs : Algorithm → Output n}
    {charts : Algorithm → Chart n} {threadList : List Char}
    (h : MainRun date average time w outs charts threadList) : Identified w := by
  obtain ⟨seed, rfl⟩ := h.drawn
  exact orig_identified _ _

theorem terminal_foldl_after (algs : List Algorithm) (outs : Algorithm → Output n)
    (charts : Algorithm → Chart n) (s : System) :
    (algs.foldl (fun s alg => s.after date average alg (outs alg) (charts alg)) s).terminal
      = s.terminal ++ algs.flatMap fun alg =>
          sectionText date average alg (outs alg) (charts alg) := by
  induction algs generalizing s with
  | nil => exact (List.append_nil _).symm
  | cons alg algs ih =>
    rw [List.foldl_cons, ih, List.flatMap_cons, ← List.append_assoc]
    rfl

end Program

/-! ### What the bars show -/

theorem styleOf_inj {i j : ℕ} (h : styleOf i = styleOf j) : i % 7 = j % 7 := by
  have hall : ∀ a < 7, ∀ b < 7, COLORS.getD a [] = COLORS.getD b [] → a = b := by decide
  exact hall _ (Nat.mod_lt i (by decide)) _ (Nat.mod_lt j (by decide)) h

theorem cellOf_eq_bar_iff {x : Option (Fin n)} {k : ℕ} (hk : k < 7) :
    cellOf x = ('|', styleOf k) ↔ ∃ i : Fin n, i.val % 7 = k ∧ x = some i := by
  cases x with
  | none => simp [cellOf]
  | some i =>
    constructor
    · intro h
      have hmod := styleOf_inj (Prod.mk.inj h).2
      exact ⟨i, hmod.trans (Nat.mod_eq_of_lt hk), rfl⟩
    · rintro ⟨j, rfl, hj⟩
      obtain rfl := Option.some.inj hj
      rw [cellOf, styleOf, styleOf, Nat.mod_mod]

/-- The cells of a colour are the ticks of its threads. -/
theorem count_cells (c : Chart n) {k : ℕ} (hk : k < 7) :
    (c.map cellOf).count ('|', styleOf k) = ∑ i : Fin n with i.val % 7 = k, c.count (some i) := by
  induction c with
  | nil => simp
  | cons x c ih =>
    have hone : (if cellOf x = ('|', styleOf k) then 1 else 0)
        = ∑ i : Fin n with i.val % 7 = k, if x = some i then 1 else 0 := by
      rw [Finset.sum_boole, Finset.filter_filter, Nat.cast_id]
      simp only [cellOf_eq_bar_iff hk]
      split
      · rename_i h
        obtain ⟨i, hi, rfl⟩ := h
        symm
        rw [Finset.card_eq_one]
        refine ⟨i, Finset.ext fun j => ?_⟩
        simp only [Finset.mem_filter, Finset.mem_univ, true_and, Option.some.injEq,
          Finset.mem_singleton]
        constructor
        · rintro ⟨-, rfl⟩
          rfl
        · rintro rfl
          exact ⟨hi, rfl⟩
      · rename_i h
        symm
        rw [Finset.card_eq_zero, Finset.filter_eq_empty_iff]
        exact fun i _ hi => h ⟨i, hi⟩
    simp only [List.map_cons, List.count_cons, beq_iff_eq, Finset.sum_add_distrib, ih, hone]

/-- What the cells of a bar show of a run -/
structure BarShows (w : Fin n → Thread) (out : Output n) (cells : List (Char × List Char)) :
    Prop where
  length : (cells.length : ℤ) = makespan out.gantt
  idle : ∀ t : ℕ, RunsAt out.gantt (-1) t ↔ cells[t]? = some ('.', COLOR_RESET)
  runs : ∀ (t : ℕ) i, RunsAt out.gantt (w i).id t → cells[t]? = some ('|', styleOf i)
  amount : ∀ k < 7, (cells.count ('|', styleOf k) : ℤ)
    = ∑ i : Fin n with i.val % 7 = k, (w i).burst

theorem Final.barShows {w : Fin n → Thread} {c : Chart n} {out : Output n} (h : Final w c out)
    (hid : Identified w) : BarShows w out (c.map cellOf) where
  length := by rw [h.tiles.makespan_eq, List.length_map]
  idle t := by
    have hruns := h.runsAt_owner_iff (x := none) (fun _ heq => hid.owner_injective heq) (t := t)
    rw [Int.toNat_natCast] at hruns
    rw [List.getElem?_map, Option.map_eq_some_iff]
    refine hruns.trans ⟨fun ⟨_, hget⟩ => ⟨none, hget, rfl⟩, fun ⟨x, hget, hx⟩ => ?_⟩
    cases x with
    | none => exact ⟨Int.natCast_nonneg t, hget⟩
    | some i => exact absurd (Prod.mk.inj hx).1 (by decide)
  runs t i hruns := by
    obtain ⟨-, hget⟩ := (h.runsAt_owner_iff (x := some i)
      (fun _ heq => hid.owner_injective heq)).mp hruns
    rw [Int.toNat_natCast] at hget
    rw [List.getElem?_map, hget]
    rfl
  amount k hk := by
    rw [count_cells c hk, Nat.cast_sum]
    exact Finset.sum_congr rfl fun i _ => h.complete i

/-- **The charts on the screen**: whatever the time it is started at, `main` returns without a
subscript out of bounds.  The bar of each of its four charts is as wide as its frame; it has a dot
in the idle ticks and a bar in the colour of the running thread in all others; and with the colours
left out the four bars are the same. -/
theorem main_charts (date : ℤ → List Char) (average : ℚ → List Char) (time : UInt32)
    (runLog statsLog : LogFile) :
    ∃ (n : ℕ) (w : Fin n → Thread) (s : System) (outs : Algorithm → Output n)
      (texts : Algorithm → List Char) (bar threadList : List Char),
      (MIN_THREADS ≤ n ∧ Generated w) ∧
      (∃ fuel₀, ∀ fuel ≥ fuel₀, main fuel date average time runLog statsLog = .ok s ∧
        ∀ alg, alg.sched fuel w = some (outs alg)) ∧
      s.terminal = banner n ++ threadList ++ algorithms.flatMap (fun alg =>
        outputLog date alg.name (outs alg).elog ++ texts alg
          ++ outputStats average (outs alg).stats) ∧
      ∀ alg, ∃ cells, paintedFrom COLOR_RESET none (texts alg) = framed alg.name cells ∧
        BarShows w (outs alg) cells ∧ cells.map Prod.fst = bar := by
  obtain ⟨n, w, outs, charts, threadList, hrun⟩ := exists_mainRun date average time
  obtain ⟨fuel₀, hruns⟩ := hrun.runs
  obtain ⟨fuel₁, hreturns⟩ := hrun.returns
  refine ⟨n, w, finalSystem date average outs charts threadList runLog statsLog, outs,
    fun alg => chartText alg.name (charts alg),
    ((charts .fifo).map Option.isNone).map (fun idle => if idle then '.' else '|'), threadList,
    ⟨hrun.threads, hrun.generated⟩, ⟨fuel₀ + fuel₁, fun fuel hfuel => ?_⟩, ?_, fun alg => ?_⟩
  · exact ⟨hreturns fuel (by omega) runLog statsLog, fun alg => hruns.sched alg fuel (by omega)⟩
  · rw [finalSystem, terminal_foldl_after]
    rfl
  · have halgo : ESC ∉ alg.name.toList := by cases alg <;> decide
    refine ⟨(charts alg).map cellOf, (paints_chartText halgo (charts alg)).painted_eq,
      (hruns.final alg).barShows hrun.identified, ?_⟩
    rw [hruns.map_isNone_eq .fifo alg, List.map_map, List.map_map]
    refine List.map_congr_left fun x _ => ?_
    cases x <;> rfl

end OsLabs.Scheduling
