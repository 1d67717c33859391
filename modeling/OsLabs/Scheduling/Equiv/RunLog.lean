import OsLabs.Scheduling.Equiv.EventLog
import OsLabs.Scheduling.Equiv.Screen

/-!
# What `run.log` tells

A line of `run.log` determines its event, as long as the dates tell the times apart, and the
headings separate the algorithms.  The log of SRTF has one `Arrived` event for each thread, with its
number, its burst and, in its date, its arrival, so `run.log` determines the workload, and with it
everything that `main` prints.
-/

namespace OsLabs.Scheduling

variable {n : ℕ}

/-! ### Messages -/

theorem toList_toString (x : ℤ) : (toString x).toList = decimal x := by
  unfold decimal
  cases x with
  | ofNat m =>
    rw [if_neg (by simp)]
    show (toString m).toList = _
    simp [Nat.repr]
  | negSucc m =>
    rw [if_pos (Int.negSucc_lt_zero m)]
    show ("-" ++ toString (m + 1)).toList = _
    simp [Nat.repr]

/-- What separates the words of a message -/
def msgSep (c : Char) : Bool := c ∈ [' ', '(', ')', ':', '\n']

/-- The words of a message -/
def Message.words : Message → List (List Char)
  | .arrived id burst =>
    ["Process".toList, decimal id, "Burst".toList, decimal burst, "Arrived".toList]
  | .startedWaited id burst waited =>
    ["Process".toList, decimal id, "Burst".toList, decimal burst, "Started".toList,
      "waited".toList, decimal waited, "seconds".toList]
  | .started id burst =>
    ["Process".toList, decimal id, "Burst".toList, decimal burst, "Started".toList]
  | .startedResumed id burst =>
    ["Process".toList, decimal id, "Burst".toList, decimal burst, "Started/Resumed".toList]
  | .preempted id remaining =>
    ["Process".toList, decimal id, "Burst".toList, decimal remaining, "remaining".toList,
      "Preempted".toList]
  | .completed id => ["Process".toList, decimal id, "Completed".toList]

theorem hasFields_decimal (x : ℤ) {c : Char} (hc : msgSep c = true) :
    HasFields msgSep (decimal x ++ [c]) [decimal x] := by
  refine hasFields_word (decimal_ne_nil x) (fun d hd => ?_) hc
  obtain hd | rfl := mem_decimal hd
  · obtain ⟨h0, h9⟩ := isDigit_iff.mp hd
    simp only [msgSep, decide_eq_false_iff_not, List.mem_cons, List.not_mem_nil, or_false, not_or]
    refine ⟨?_, ?_, ?_, ?_, ?_⟩ <;> rintro rfl <;> simp at h0 h9
  · rfl

/-- The beginning of all messages but one -/
theorem hasFields_burst (id burst : ℤ) {c : Char} (hc : msgSep c = true) :
    HasFields msgSep
      ("Process ".toList ++ decimal id ++ " (Burst ".toList ++ (decimal burst ++ [c]))
      ["Process".toList, decimal id, "Burst".toList, decimal burst] := by
  have hprocess : HasFields msgSep ("Process".toList ++ [' ']) ["Process".toList] :=
    hasFields_fields _ rfl
  have hburst : HasFields msgSep ("(Burst".toList ++ [' ']) ["Burst".toList] :=
    hasFields_fields _ rfl
  have hall := ((hprocess.append (hasFields_decimal id (c := ' ') rfl)).append hburst).append
    (hasFields_decimal burst hc)
  simp only [List.append_assoc] at hall ⊢
  exact hall

theorem Message.hasFields (m : Message) :
    HasFields msgSep (m.text.toList ++ ['\n']) m.words := by
  have hend (text : String) (ws : List (List Char)) (hws : fields msgSep text.toList = ws) :
      HasFields msgSep (text.toList ++ ['\n']) ws := hws ▸ hasFields_fields _ rfl
  cases m with
  | arrived id burst =>
    have hall := (hasFields_burst id burst (c := ')') rfl).append
      (hend ": Arrived" ["Arrived".toList] rfl)
    simp only [Message.text, String.toList_append, toList_toString, List.append_assoc] at hall ⊢
    exact hall
  | startedWaited id burst waited =>
    have hstarted : HasFields msgSep (": Started (waited".toList ++ [' '])
      ["Started".toList, "waited".toList] := hasFields_fields _ rfl
    have hall := ((hasFields_burst id burst (c := ')') rfl).append hstarted).append
      ((hasFields_decimal waited (c := ' ') rfl).append
        (hend "seconds)" ["seconds".toList] rfl))
    simp only [Message.text, String.toList_append, toList_toString, List.append_assoc] at hall ⊢
    exact hall
  | started id burst =>
    have hall := (hasFields_burst id burst (c := ')') rfl).append
      (hend ": Started" ["Started".toList] rfl)
    simp only [Message.text, String.toList_append, toList_toString, List.append_assoc] at hall ⊢
    exact hall
  | startedResumed id burst =>
    have hall := (hasFields_burst id burst (c := ')') rfl).append
      (hend ": Started/Resumed" ["Started/Resumed".toList] rfl)
    simp only [Message.text, String.toList_append, toList_toString, List.append_assoc] at hall ⊢
    exact hall
  | preempted id remaining =>
    have hall := (hasFields_burst id remaining (c := ' ') rfl).append
      (hend "remaining): Preempted" ["remaining".toList, "Preempted".toList] rfl)
    simp only [Message.text, String.toList_append, toList_toString, List.append_assoc] at hall ⊢
    exact hall
  | completed id =>
    have hprocess : HasFields msgSep ("Process".toList ++ [' ']) ["Process".toList] :=
      hasFields_fields _ rfl
    have hall := (hprocess.append (hasFields_decimal id (c := ':') rfl)).append
      (hend " Completed" ["Completed".toList] rfl)
    simp only [Message.text, String.toList_append, toList_toString, List.append_assoc] at hall ⊢
    exact hall

theorem Message.words_injective : Function.Injective Message.words := by
  intro m m' h
  cases m <;> cases m' <;>
    simp [Message.words, decimal_injective.eq_iff] at h ⊢ <;> exact h

/-- The text of a message determines it. -/
theorem Message.text_inj {m m' : Message} (h : m.text.toList = m'.text.toList) : m = m' := by
  refine Message.words_injective ?_
  rw [← m.hasFields.fields_eq, h, m'.hasFields.fields_eq]

theorem Message.newline_notMem (m : Message) : '\n' ∉ m.text.toList := by
  have hdecimal (x : ℤ) : '\n' ∉ decimal x := by
    intro hc
    obtain hd | heq := mem_decimal hc
    · exact absurd hd (by decide)
    · exact absurd heq (by decide)
  cases m <;>
    simp only [Message.text, String.toList_append, toList_toString, List.mem_append, hdecimal,
      or_false, not_or] <;>
    decide

/-! ### Lines -/

section Lines

variable (date : ℤ → List Char)

/-- A line of the log, without its end -/
def eventLine (e : Event) : List Char :=
  timestampStr date e.time ++ ' ' :: e.message.text.toList

/-- The heading of an algorithm -/
def heading (alg : Algorithm) : List Char := "--- ".toList ++ alg.name.toList ++ " ---".toList

/-- The dates that are printed in a line of the log. -/
structure DateText : Prop where
  newline : ∀ t, '\n' ∉ date t
  bracket : ∀ t, ']' ∉ date t

variable {date} (hdate : DateText date)

include hdate

theorem eventLine_inj {e e' : Event} (h : eventLine date e = eventLine date e') :
    date (1742554800 + e.time) = date (1742554800 + e'.time) ∧ e.message = e'.message := by
  have hcut (e : Event) : (eventLine date e).takeWhile (· ≠ ']')
      = '[' :: date (1742554800 + e.time) := by
    have hall (c : Char) (hc : c ∈ '[' :: date (1742554800 + e.time)) :
        decide (c ≠ ']') = true := by
      obtain rfl | hc := List.mem_cons.mp hc
      · rfl
      · exact decide_eq_true fun heq => hdate.bracket _ (heq ▸ hc)
    have htext : eventLine date e = '[' :: date (1742554800 + e.time) ++
        ']' :: ' ' :: e.message.text.toList := by
      simp [eventLine, timestampStr]
    rw [htext, List.takeWhile_append_of_pos hall, List.takeWhile_cons_of_neg (by simp),
      List.append_nil]
  have htime : date (1742554800 + e.time) = date (1742554800 + e'.time) := by
    have hcuts := hcut e
    rw [h, hcut e'] at hcuts
    exact (List.cons.inj hcuts).2.symm
  refine ⟨htime, Message.text_inj ?_⟩
  rw [eventLine, eventLine, timestampStr, timestampStr, htime] at h
  exact (List.cons.inj (List.append_cancel_left h)).2

theorem hasFields_eventLine (e : Event) :
    HasFields (· = '\n') (logLine date e) [eventLine date e] := by
  have hplain (c : Char) (hc : c ∈ eventLine date e) : decide (c = '\n') = false := by
    refine decide_eq_false ?_
    rintro rfl
    have hmsg := e.message.newline_notMem
    have hnewline := hdate.newline (1742554800 + e.time)
    simp [eventLine, timestampStr, hmsg, hnewline] at hc
  exact hasFields_word (by simp [eventLine, timestampStr]) hplain rfl

theorem hasFields_outputLog (alg : Algorithm) (elog : List Event) :
    HasFields (· = '\n') (outputLog date alg.name elog)
      (heading alg :: elog.map (eventLine date)) := by
  have hnewline : HasFields (· = '\n') ['\n'] [] := hasFields_seps (by simp)
  have hheading : HasFields (· = '\n') (heading alg ++ ['\n']) [heading alg] := by
    have hplain : '\n' ∉ heading alg := by cases alg <;> decide
    refine hasFields_word (List.cons_ne_nil _ _) (fun c hc => decide_eq_false ?_) rfl
    rintro rfl
    exact hplain hc
  have hevents : HasFields (· = '\n') (elog.flatMap (logLine date))
      (elog.map (eventLine date)) := by
    rw [List.map_eq_flatMap]
    exact HasFields.flatMap fun e _ => hasFields_eventLine hdate e
  have hall := ((hnewline.append hheading).append hnewline).append hevents
  unfold heading at hall ⊢
  unfold outputLog
  simp only [List.append_assoc] at hall ⊢
  exact hall

end Lines

/-! ### Sections -/

/-- Headings that can be told from all other lines separate the sections. -/
theorem sections_inj {α β : Type*} {head : α → β} {p : β → Bool} (hhead : ∀ a, p (head a) = false)
    {body body' : α → List β} (hbody : ∀ a, ∀ x ∈ body a, p x = true)
    (hbody' : ∀ a, ∀ x ∈ body' a, p x = true) {l : List α}
    (h : l.flatMap (fun a => head a :: body a) = l.flatMap fun a => head a :: body' a) :
    ∀ a ∈ l, body a = body' a := by
  induction l with
  | nil => exact fun a ha => absurd ha List.not_mem_nil
  | cons a l ih =>
    have hstop (f : α → List β) : (l.flatMap fun a => head a :: f a).takeWhile p = [] := by
      cases l with
      | nil => rfl
      | cons b l => exact List.takeWhile_cons_of_neg (by simp [hhead])
    rw [List.flatMap_cons, List.flatMap_cons, List.cons_append, List.cons_append] at h
    have htail := (List.cons.inj h).2
    have hfirst : body a = body' a := by
      have htake := congrArg (List.takeWhile p) htail
      rwa [List.takeWhile_append_of_pos (hbody a), List.takeWhile_append_of_pos (hbody' a), hstop,
        hstop, List.append_nil, List.append_nil] at htake
    rw [hfirst] at htail
    exact List.forall_mem_cons.mpr ⟨hfirst, ih (List.append_cancel_left htail)⟩

/-- What is in `run.log` -/
def runLogText (date : ℤ → List Char) (outs : Algorithm → Output n) : List Char :=
  algorithms.flatMap fun alg => outputLog date alg.name (outs alg).elog

/-- `run.log` determines the lines of each algorithm. -/
theorem eventLines_eq {date : ℤ → List Char} (hdate : DateText date) {n' : ℕ}
    {outs : Algorithm → Output n} {outs' : Algorithm → Output n'}
    (h : runLogText date outs = runLogText date outs') (alg : Algorithm) :
    (outs alg).elog.map (eventLine date) = (outs' alg).elog.map (eventLine date) := by
  have hfields {m : ℕ} (outs : Algorithm → Output m) : fields (· = '\n') (runLogText date outs)
      = algorithms.flatMap fun alg => heading alg :: (outs alg).elog.map (eventLine date) :=
    (HasFields.flatMap fun alg _ => hasFields_outputLog hdate alg (outs alg).elog).fields_eq
  have hlines {m : ℕ} (outs : Algorithm → Output m) (alg : Algorithm) :
      ∀ line ∈ (outs alg).elog.map (eventLine date), decide (line.head? = some '[') = true := by
    intro line hline
    obtain ⟨e, -, rfl⟩ := List.mem_map.mp hline
    rfl
  have heq := hfields outs
  rw [h, hfields outs'] at heq
  have hheading (alg : Algorithm) : decide ((heading alg).head? = some '[') = false := by
    cases alg <;> rfl
  exact (sections_inj hheading (hlines outs') (hlines outs) heq alg
    (by cases alg <;> decide)).symm

/-! ### The workload -/

/-- The `Arrived` events in the log of SRTF are those of the threads. -/
theorem srtf_arrived_iff {w : Fin n → Thread} (hw : Workload w)
    (hinj : Function.Injective fun i => (w i).id) {fuel : ℕ} {out : Output n}
    (h : schedulerSrtf fuel w = some out) {e : Event} :
    e ∈ out.elog ∧ e.isArrived = true ↔ ∃ i, arrivedEvent w i = e := by
  obtain ⟨s, hloop, ⟨⟩⟩ := Option.bind_eq_some_iff.mp h
  let S := srtfSimulation w hw.burst
  have hlogged : SrtfLogged w s :=
    S.along hw.burst ⟨logged_init hw.burst, fun i hi => absurd hi (by simp)⟩
      (fun _ hcore hinv _ ih => ih.step hcore hinv hw hinj) (loopState_of_whileLoop hloop).1
  obtain ⟨c, hcore, hfinal, -, -⟩ := S.final hw.burst hloop
  have harrived : s.elog.filter Event.isArrived = arrivalsIn w 0 (s.time - 1) := hlogged.log.arrived
  show e ∈ s.elog ∧ _ ↔ _
  rw [← List.mem_filter, harrived, mem_arrivalsIn]
  constructor
  · rintro ⟨i, -, -, he⟩
    exact ⟨i, he⟩
  · rintro ⟨i, he⟩
    have hlt := hfinal.arrival_lt (hw.burst i)
    have htime : s.time = c.length := hcore.time
    exact ⟨i, hw.arrival_nonneg i, by omega, he⟩

/-- A date is that of one arrival at most. -/
def DateInjective (date : ℤ → List Char) : Prop :=
  ∀ t t' : ℤ, 0 ≤ t → t ≤ MAX_ARRIVAL → 0 ≤ t' → t' ≤ MAX_ARRIVAL →
    date (1742554800 + t) = date (1742554800 + t') → t = t'

section Runs

variable {date : ℤ → List Char} {average : ℚ → List Char} {time time' : UInt32} {n' : ℕ}
  {w : Fin n → Thread} {w' : Fin n' → Thread} {outs : Algorithm → Output n}
  {outs' : Algorithm → Output n'} {charts : Algorithm → Chart n} {charts' : Algorithm → Chart n'}
  {threadList threadList' : List Char}

/-- Every thread is in the workload of a run with the same `run.log`. -/
theorem MainRun.exists_thread (hdate : DateText date) (hinj : DateInjective date)
    (h : MainRun date average time w outs charts threadList)
    (h' : MainRun date average time' w' outs' charts' threadList')
    (hlog : runLogText date outs = runLogText date outs') (i : Fin n) :
    ∃ j : Fin n', (i : ℕ) = j ∧ (w i).burst = (w' j).burst ∧ (w i).arrival = (w' j).arrival := by
  obtain ⟨fuel₀, hruns⟩ := h.runs
  obtain ⟨fuel₀', hruns'⟩ := h'.runs
  have harrived := (srtf_arrived_iff h.generated.workload h.identified.injective
    (hruns.sched .srtf fuel₀ le_rfl)).mpr ⟨i, rfl⟩
  -- the line of the `Arrived` event of `i`
  have hmem := List.mem_map_of_mem (f := eventLine date) harrived.1
  rw [eventLines_eq hdate hlog .srtf] at hmem
  obtain ⟨e, he, hline⟩ := List.mem_map.mp hmem
  obtain ⟨htime, hmsg⟩ := eventLine_inj hdate hline
  have hisArrived : e.isArrived = true := by
    rw [Event.isArrived, hmsg]
    rfl
  obtain ⟨j, rfl⟩ := (srtf_arrived_iff h'.generated.workload h'.identified.injective
    (hruns'.sched .srtf fuel₀' le_rfl)).mp ⟨he, hisArrived⟩
  obtain ⟨hid, hburst⟩ := Message.arrived.inj hmsg
  have hi := h.generated.arrival i
  have hj := h'.generated.arrival j
  rw [h.id, h'.id] at hid
  exact ⟨j, by omega, hburst.symm, (hinj _ _ hj.1 hj.2 hi.1 hi.2 htime).symm⟩

/-- Two runs with the same workload print the same. -/
theorem MainRun.unique {outs' : Algorithm → Output n} {charts' : Algorithm → Chart n}
    (h : MainRun date average time w outs charts threadList)
    (h' : MainRun date average time' w outs' charts' threadList') :
    outs = outs' ∧ charts = charts' ∧ threadList = threadList' := by
  obtain ⟨fuel₀, hruns⟩ := h.runs
  obtain ⟨fuel₀', hruns'⟩ := h'.runs
  have houts (alg : Algorithm) : outs alg = outs' alg :=
    alg.sched_unique (hruns.sched alg fuel₀ le_rfl) (hruns'.sched alg fuel₀' le_rfl)
  refine ⟨funext houts, funext fun alg => ?_, ?_⟩
  · have hticks := (hruns.final alg).ticks
    rw [houts alg, (hruns'.final alg).ticks] at hticks
    exact (List.map_injective_iff.mpr h.identified.owner_injective hticks).symm
  · have hlist := h.list
    rw [h'.list] at hlist
    exact (Except.ok.inj hlist).symm

/-- Two runs with the same `run.log` have the same workload. -/
theorem MainRun.workload_eq (hdate : DateText date) (hinj : DateInjective date)
    (h : MainRun date average time w outs charts threadList)
    (h' : MainRun date average time' w' outs' charts' threadList')
    (hlog : runLogText date outs = runLogText date outs') :
    ∃ hn : n = n', w = w' ∘ Fin.cast hn := by
  have hle {m m' : ℕ} {w : Fin m → Thread} {w' : Fin m' → Thread} (hmin : MIN_THREADS ≤ m)
      (hall : ∀ i : Fin m, ∃ j : Fin m', (i : ℕ) = j ∧ (w i).burst = (w' j).burst ∧
        (w i).arrival = (w' j).arrival) : m ≤ m' := by
    have hpos : 0 < m := by
      have : MIN_THREADS = 5 := rfl
      omega
    obtain ⟨j, hj, -⟩ := hall ⟨m - 1, by omega⟩
    have := j.isLt
    dsimp only at hj
    omega
  have hforth := h.exists_thread hdate hinj h' hlog
  have hback := h'.exists_thread hdate hinj h hlog.symm
  obtain rfl : n = n' := le_antisymm (hle h.threads hforth) (hle h'.threads hback)
  refine ⟨rfl, funext fun i => ?_⟩
  obtain ⟨j, hij, hburst, harrival⟩ := hforth i
  obtain rfl : i = j := Fin.ext hij
  obtain ⟨seed, rfl⟩ := h.drawn
  obtain ⟨seed', rfl⟩ := h'.drawn
  have hburst' : (drawThread (seedOf seed i)).1.1 = (drawThread (seedOf seed' i)).1.1 := hburst
  have harrival' : (drawThread (seedOf seed i)).1.2 = (drawThread (seedOf seed' i)).1.2 := harrival
  show drawThreads n seed i = drawThreads n seed' i
  simp only [drawThreads, orig, hburst', harrival']

end Runs

/-! ### The file -/

/-- `main` returns when it is given rounds enough. -/
def MainReturns (date : ℤ → List Char) (average : ℚ → List Char) (time : UInt32)
    (runLog statsLog : LogFile) (s : System) : Prop :=
  ∃ fuel₀, ∀ fuel ≥ fuel₀, main fuel date average time runLog statsLog = .ok s

theorem LogFile.append_of_opens {f : LogFile} (hopen : ∀ k, f.opens k = true) (text : List Char) :
    f.append text = { f with text := f.text ++ text, calls := f.calls + 1 } := by
  rw [LogFile.append, if_pos (hopen f.calls)]

theorem runLog_finalSystem (date : ℤ → List Char) (average : ℚ → List Char)
    (outs : Algorithm → Output n) (charts : Algorithm → Chart n) (threadList : List Char)
    {runLog : LogFile} (hopen : ∀ k, runLog.opens k = true) (statsLog : LogFile) :
    (finalSystem date average outs charts threadList runLog statsLog).runLog.text
      = runLogText date outs := by
  have hfold (algs : List Algorithm) (s : System) (hs : ∀ k, s.runLog.opens k = true) :
      (algs.foldl (fun s alg => s.after date average alg (outs alg) (charts alg)) s).runLog.text
        = s.runLog.text ++ algs.flatMap fun alg => outputLog date alg.name (outs alg).elog := by
    induction algs generalizing s with
    | nil => exact (List.append_nil _).symm
    | cons alg algs ih =>
      have hlog : (s.after date average alg (outs alg) (charts alg)).runLog
          = { s.runLog with
              text := s.runLog.text ++ outputLog date alg.name (outs alg).elog
              calls := s.runLog.calls + 1 } := LogFile.append_of_opens hs _
      rw [List.foldl_cons, ih _ (by rw [hlog]; exact hs), List.flatMap_cons, ← List.append_assoc,
        hlog]
  rw [finalSystem, hfold algorithms _ hopen]
  show (if runLog.opens runLog.calls then [] else runLog.text) ++ _ = _
  rw [if_pos (hopen _)]
  rfl

/-- **`run.log` determines the run**: of two runs of `main` that can open the file, started at
whatever times, with whatever in their files, and that leave the same `run.log`, the terminals are
the same to the last character. -/
theorem runLog_determines {date : ℤ → List Char} (hdate : DateText date)
    (hinj : DateInjective date) (average : ℚ → List Char) {time time' : UInt32}
    {runLog statsLog runLog' statsLog' : LogFile} (hopen : ∀ k, runLog.opens k = true)
    (hopen' : ∀ k, runLog'.opens k = true) {s s' : System}
    (h : MainReturns date average time runLog statsLog s)
    (h' : MainReturns date average time' runLog' statsLog' s')
    (hlog : s.runLog.text = s'.runLog.text) : s.terminal = s'.terminal := by
  obtain ⟨n, w, outs, charts, threadList, hrun⟩ := exists_mainRun date average time
  obtain ⟨n', w', outs', charts', threadList', hrun'⟩ := exists_mainRun date average time'
  have hsystem {m : ℕ} {w : Fin m → Thread} {outs : Algorithm → Output m}
      {charts : Algorithm → Chart m} {threadList : List Char} {time : UInt32}
      {runLog statsLog : LogFile} {s : System}
      (hrun : MainRun date average time w outs charts threadList)
      (h : MainReturns date average time runLog statsLog s) :
      s = finalSystem date average outs charts threadList runLog statsLog := by
    obtain ⟨fuel₀, hfuel₀⟩ := hrun.returns
    obtain ⟨fuel₁, hfuel₁⟩ := h
    have heq := hfuel₁ (fuel₀ + fuel₁) (Nat.le_add_left ..)
    rw [hfuel₀ _ (Nat.le_add_right ..)] at heq
    exact (Except.ok.inj heq).symm
  obtain rfl := hsystem hrun h
  obtain rfl := hsystem hrun' h'
  rw [runLog_finalSystem date average outs charts threadList hopen,
    runLog_finalSystem date average outs' charts' threadList' hopen'] at hlog
  obtain ⟨rfl, hw⟩ := hrun.workload_eq hdate hinj hrun' hlog
  obtain rfl : w = w' := hw
  obtain ⟨rfl, rfl, rfl⟩ := hrun.unique hrun'
  rw [finalSystem, finalSystem, terminal_foldl_after, terminal_foldl_after]

/-- Two digits -/
def twoDigits (k : ℕ) : List Char := (Nat.toDigits 10 k).leftpad 2 '0'

/-- The dates of the hour after the base, in UTC -/
def utcDate (t : ℤ) : List Char :=
  let seconds := (t - 1742554800).toNat
  "Fri Mar 21 11:".toList ++ twoDigits (seconds / 60) ++ ':' :: twoDigits (seconds % 60) ++
    " 2025".toList

/-- A number rounded to two decimal places, a tie to the even one -/
def twoPlaces (q : ℚ) : List Char :=
  let below := (100 * q).floor
  let rest := 100 * q - below
  let hundredths := if 1 / 2 < rest ∨ rest = 1 / 2 ∧ below % 2 = 1 then below + 1 else below
  decimal (hundredths / 100) ++ '.' :: twoDigits (hundredths % 100).toNat

theorem dateText_utcDate : DateText utcDate := by
  have hdigits {c : Char} (hc : ¬c.isDigit) (k : ℕ) : c ∉ twoDigits k := by
    intro hmem
    rw [twoDigits, List.leftpad, List.mem_append] at hmem
    obtain hmem | hmem := hmem
    · exact hc (List.eq_of_mem_replicate hmem ▸ rfl)
    · exact hc (isDigit_toDigits hmem)
  have hdate {c : Char} (hc : ¬c.isDigit) (hday : c ∉ "Fri Mar 21 11:".toList) (hcolon : c ≠ ':')
      (hyear : c ∉ " 2025".toList) (t : ℤ) : c ∉ utcDate t := by
    unfold utcDate
    rw [List.mem_append, List.mem_append, List.mem_append, List.mem_cons]
    rintro (((h | h) | h | h) | h)
    · exact hday h
    · exact hdigits hc _ h
    · exact hcolon h
    · exact hdigits hc _ h
    · exact hyear h
  exact ⟨hdate (by decide) (by decide) (by decide) (by decide),
    hdate (by decide) (by decide) (by decide) (by decide)⟩

theorem dateInjective_utcDate : DateInjective utcDate := by
  have hall : ∀ k < 21, ∀ m < 21, utcDate (1742554800 + (k : ℕ)) = utcDate (1742554800 + (m : ℕ)) →
      k = m := by decide +kernel
  intro t t' ht hmax ht' hmax' heq
  have hmax : t ≤ 20 := hmax
  have hmax' : t' ≤ 20 := hmax'
  lift t to ℕ using ht
  lift t' to ℕ using ht'
  exact congrArg Nat.cast (hall t (by omega) t' (by omega) heq)

/-- A run with new files, and one of the same second with an old `run.log` and without a
`stats.log`. -/
theorem runLog_determines_again : ∃ s s',
    MainReturns utcDate twoPlaces 1 ⟨[], fun _ => true, 0⟩ ⟨[], fun _ => true, 0⟩ s ∧
    MainReturns utcDate twoPlaces 1 ⟨['x'], fun _ => true, 0⟩ ⟨[], fun _ => false, 0⟩ s' ∧
    s.terminal = s'.terminal := by
  obtain ⟨n, w, outs, charts, threadList, hrun⟩ := exists_mainRun utcDate twoPlaces 1
  obtain ⟨fuel₀, hreturns⟩ := hrun.returns
  have hopen : ∀ _ : ℕ, true = true := fun _ => rfl
  have h (runLog statsLog : LogFile) : MainReturns utcDate twoPlaces 1 runLog statsLog
      (finalSystem utcDate twoPlaces outs charts threadList runLog statsLog) :=
    ⟨fuel₀, fun fuel hfuel => hreturns fuel hfuel runLog statsLog⟩
  refine ⟨_, _, h _ _, h _ _, runLog_determines dateText_utcDate dateInjective_utcDate twoPlaces
    hopen hopen (h _ _) (h _ _) ?_⟩
  rw [runLog_finalSystem _ _ _ _ _ hopen, runLog_finalSystem _ _ _ _ _ hopen]

end OsLabs.Scheduling
