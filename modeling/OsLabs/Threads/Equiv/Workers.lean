import OsLabs.Threads.Equiv.Memory

/-!
# The log processor as it is

With the hash table of `ht.c`, counters behind pointers, and semaphores around the critical
sections.  A single thread returns with the statistics of the log
(`processSingleThread_trueStatistics`).  Several workers neither block each other nor go on forever,
and when they have returned they have computed the same (`processMultithread_trueStatistics`).
-/

namespace OsLabs.Threads.Memory

open Function Relation

/-! ### Every run ends -/

/-- How much a worker outside of the critical sections still does for its line. -/
def pcRank : Pc → ℕ
  | .fgets => 3
  | .sscanf _ => 23
  | .countIp => 22
  | .countUrl => 14
  | .countErrors => 7
  | .returned => 0

def countRank : CountPc → ℕ
  | .get => 5
  | .load _ => 4
  | .store _ _ => 3
  | .malloc => 4
  | .init _ => 3
  | .set _ => 2
  | .post => 1

def insideRank : (r : Sem) → Inside r → ℕ
  | .file, (.fgets, _) => 2
  | .file, (.post none, _) => 1
  | .file, (.post (some _), _) => 24
  | .ip, (pc, _) => 15 + countRank pc
  | .url, (pc, _) => 8 + countRank pc
  | .errors, (.load, _) => 6
  | .errors, (.store _, _) => 5
  | .errors, (.post, _) => 4

def placeRank : Place Sem Inside Worker → ℕ
  | .outside worker => pcRank worker.pc
  | .inside r m => insideRank r m

/-- What is left of the file. -/
def memRank (mem : (r : Sem) → Component r) : ℕ := 30 * (mem .file : List Char).length

/-- A step of `count_ip_request_multit` or `count_url_visits_multit`. -/
theorem countRank_decreases {c c' : Counters} {key : List Char} {pc pc' : CountPc}
    (hstep : countStep c key pc = some (c', pc')) : countRank pc' < countRank pc := by
  cases pc with
  | get =>
    rw [countStep] at hstep
    rcases hget : htGet c.table key with _ | _ | rcount <;> simp only [hget] at hstep <;>
      cases hstep <;> simp [countRank]
  | load rcount =>
    obtain ⟨n, -, heq⟩ := Option.map_eq_some_iff.mp hstep
    cases heq
    simp [countRank]
  | store rcount n =>
    cases hstep
    simp [countRank]
  | malloc =>
    cases hstep
    simp [countRank]
  | init rcount =>
    cases hstep
    simp [countRank]
  | set rcount =>
    obtain ⟨p, -, heq⟩ := Option.map_eq_some_iff.mp hstep
    cases heq
    simp [countRank]
  | post => cases hstep

/-- A step inside of a section. -/
theorem step_decreases {mem : (r : Sem) → Component r} {r : Sem} {x : Component r}
    {m m' : Inside r} (hstep : step r (mem r) m = some (x, m')) :
    memRank (update mem r x) + insideRank r m' < memRank mem + insideRank r m := by
  cases r with
  | file =>
    obtain ⟨pc, e⟩ := m
    cases pc with
    | fgets =>
      rcases hread : fgets BUFFER_SIZE (mem .file) with _ | ⟨buffer, rest⟩
      · simp only [step, hread] at hstep
        cases hstep
        rw [update_eq_self]
        simp [insideRank]
      · simp only [step, hread] at hstep
        cases hstep
        have hlt : List.length x < (mem .file : List Char).length :=
          length_lt_of_fgets (by decide) hread
        show 30 * List.length x + 24 < 30 * (mem .file : List Char).length + 2
        omega
    | post => cases hstep
  | ip =>
    obtain ⟨pc, e⟩ := m
    obtain ⟨⟨c, pc'⟩, hcount, heq⟩ := Option.map_eq_some_iff.mp hstep
    cases heq
    have hlt := countRank_decreases hcount
    show memRank mem + (15 + countRank pc') < memRank mem + (15 + countRank pc)
    omega
  | url =>
    obtain ⟨pc, e⟩ := m
    obtain ⟨⟨c, pc'⟩, hcount, heq⟩ := Option.map_eq_some_iff.mp hstep
    cases heq
    have hlt := countRank_decreases hcount
    show memRank mem + (8 + countRank pc') < memRank mem + (8 + countRank pc)
    omega
  | errors =>
    obtain ⟨pc, e⟩ := m
    cases pc with
    | load =>
      cases hstep
      exact Nat.lt_succ_self _
    | store n =>
      cases hstep
      exact Nat.lt_succ_self _
    | post => cases hstep

/-- `sem_post` and what follows. -/
theorem leave_decreases {r : Sem} {m : Inside r} {worker : Worker}
    (hleave : leave r m = some worker) : pcRank worker.pc < insideRank r m := by
  cases r with
  | file =>
    obtain ⟨pc, e⟩ := m
    cases pc with
    | fgets => cases hleave
    | post buffer =>
      cases buffer <;>
      · cases hleave
        simp [pcRank, insideRank]
  | ip =>
    obtain ⟨pc, e⟩ := m
    cases pc with
    | post =>
      cases hleave
      simp [pcRank, insideRank, countRank]
    | _ => cases hleave
  | url =>
    obtain ⟨pc, e⟩ := m
    cases pc with
    | post =>
      cases hleave
      by_cases herr : isError e.status = true <;> simp [pcRank, insideRank, countRank, herr]
    | _ => cases hleave
  | errors =>
    obtain ⟨pc, e⟩ := m
    cases pc with
    | post =>
      cases hleave
      simp [pcRank, insideRank]
    | _ => cases hleave

/-- A step of a worker outside of the sections. -/
theorem next_decreases (worker : Worker) :
    (∀ worker', next worker = .run worker' → pcRank worker'.pc < pcRank worker.pc) ∧
      ∀ r m, next worker = .enter r m → insideRank r m < pcRank worker.pc := by
  obtain ⟨pc, e⟩ := worker
  cases pc with
  | sscanf buffer =>
    refine ⟨fun worker' h => ?_, fun r m h => ?_⟩ <;> simp only [next] at h <;> split at h <;>
      cases h
    simp [pcRank]
  | _ =>
    refine ⟨fun worker' h => ?_, fun r m h => ?_⟩ <;> cases h <;>
      simp [pcRank, insideRank, countRank]

/-- Any small step. -/
theorem smallStep_decreases {s s' : Guarded Sem Component} {p p' : Place Sem Inside Worker}
    (hstep : processLogCode.smallStep s p = some (s', p')) :
    memRank s'.mem + placeRank p' < memRank s.mem + placeRank p := by
  cases p with
  | outside worker =>
    obtain ⟨hrun, henter⟩ := next_decreases worker
    cases hnext : next worker with
    | run worker' =>
      have hlt := hrun worker' hnext
      simp only [Code.smallStep, processLogCode, hnext] at hstep
      cases hstep
      exact Nat.add_lt_add_left hlt _
    | enter r m =>
      have hlt := henter r m hnext
      simp only [Code.smallStep, processLogCode, hnext] at hstep
      split at hstep
      · cases hstep
        exact Nat.add_lt_add_left hlt _
      · cases hstep
    | stop =>
      simp only [Code.smallStep, processLogCode, hnext] at hstep
      cases hstep
  | inside r m =>
    cases hleave : leave r m with
    | some worker =>
      have hlt := leave_decreases hleave
      simp only [Code.smallStep, processLogCode, hleave] at hstep
      cases hstep
      exact Nat.add_lt_add_left hlt _
    | none =>
      simp only [Code.smallStep, processLogCode, hleave] at hstep
      obtain ⟨⟨x, m'⟩, hx, heq⟩ := Option.map_eq_some_iff.mp hstep
      cases heq
      exact step_decreases hx

/-! ### The workers -/

/-- **The critical sections are atomic**, for any log of fewer than `2^31` well-formed lines: at any
time at most one worker is inside of the section of each semaphore, and the workers that are
outside, with the memory of the sections that nobody is inside of, are as after some run of the
workers on maps in which each section is a single step. -/
theorem processMultithread_atomic {n : ℕ} (file : List Char) (hfile : WellFormedFile file)
    (hlen : (lines file).length < 2 ^ 31) (locals : Fin n → Entry)
    (σ : World (Fin n) (Guarded Sem Component) (Place Sem Inside Worker))
    (hrun : ReflTransGen (Interleaving processLogCode.smallStep) (processMultithread file locals)
      σ) :
    (∀ r i j, (σ.workers i).At r → (σ.workers j).At r → i = j) ∧
    ∃ α, ReflTransGen (Interleaving (processLog functionTable))
        (Threads.processMultithread functionTable file locals) (absWorld α) ∧
      (∀ i worker, σ.workers i = .outside worker → α.workers i = worker) ∧
      ∀ r, (∀ i, ¬(σ.workers i).At r) → σ.shared.mem r = α.shared r := by
  obtain ⟨α, hmaps, h, -⟩ := exists_interleaving hfile hlen hrun
  refine ⟨fun r i j hi hj => h.exclusive hi hj, α, hmaps, fun i worker hi => ?_, h.free⟩
  have hplace := h.place i
  rw [hi] at hplace
  exact hplace.symm

/-- The first worker reads a line: it is still inside of its section, with the line taken from the
file. -/
theorem exists_inside :
    ∃ σ, ReflTransGen (Interleaving processLogCode.smallStep)
        (processMultithread twoLines fun _ : Fin 2 => entryOf []) σ ∧
      (σ.workers 0).At .file ∧ σ.shared.mem .file ≠ twoLines := by
  let start := processMultithread twoLines fun _ : Fin 2 => entryOf []
  -- `sem_wait`
  obtain ⟨s, hwait, hmem⟩ : ∃ s, processLogCode.smallStep start.shared (start.workers 0)
      = some (s, .inside .file (.fgets, entryOf [])) ∧ s.mem .file = twoLines := ⟨_, rfl, rfl⟩
  -- `fgets`
  obtain ⟨s', buffer, hfgets, hmem'⟩ : ∃ s' buffer, processLogCode.smallStep s
      (.inside .file (.fgets, entryOf [])) = some (s', .inside .file (.post buffer, entryOf [])) ∧
        s'.mem .file ≠ twoLines := by
    cases hread : fgets BUFFER_SIZE twoLines with
    | none => exact absurd (fgets_eq_none.mp hread) (by decide)
    | some p =>
      refine ⟨{ s with mem := update s.mem .file p.2 }, some p.1, ?_, ?_⟩
      · simp [Code.smallStep, processLogCode, leave, step, hmem, hread]
      · have hlt := length_lt_of_fgets (by decide) hread
        intro heq
        have hrest : p.2 = twoLines := heq
        exact absurd (congrArg List.length hrest) hlt.ne
  let waited : World (Fin 2) (Guarded Sem Component) (Place Sem Inside Worker) :=
    { shared := s, workers := update start.workers 0 (.inside .file (.fgets, entryOf [])) }
  have hfirst : Interleaving processLogCode.smallStep start waited := .mk 0 hwait
  have hsecond : Interleaving processLogCode.smallStep waited
      { shared := s'
        workers := update waited.workers 0 (.inside .file (.post buffer, entryOf [])) } := by
    have hinside : waited.workers 0 = .inside .file (.fgets, entryOf []) := rfl
    refine .mk 0 ?_
    rw [hinside]
    exact hfgets
  exact ⟨_, .tail (.single hfirst) hsecond, rfl, hmem'⟩

/-- While a worker is inside of a section the others are still as after whole sections. -/
theorem processMultithread_atomic_inside :
    ∃ σ, ReflTransGen (Interleaving processLogCode.smallStep)
        (processMultithread twoLines fun _ : Fin 2 => entryOf []) σ ∧
      ((σ.workers 0).At .file ∧ σ.shared.mem .file ≠ twoLines) ∧
      (∀ r i j, (σ.workers i).At r → (σ.workers j).At r → i = j) ∧
      ∃ α, ReflTransGen (Interleaving (processLog functionTable))
          (Threads.processMultithread functionTable twoLines fun _ : Fin 2 => entryOf [])
          (absWorld α) ∧
        (∀ i worker, σ.workers i = .outside worker → α.workers i = worker) ∧
        ∀ r, (∀ i, ¬(σ.workers i).At r) → σ.shared.mem r = α.shared r := by
  obtain ⟨σ, hrun, hinside⟩ := exists_inside
  exact ⟨σ, hrun, hinside, processMultithread_atomic twoLines wellFormedFile_twoLines (by decide)
    (fun _ => entryOf []) σ hrun⟩

/-- **The workers with semaphores in memory**: no run goes on forever; when no worker can go on,
none of them is blocked by a semaphore: all have returned, and the statistics are those of the
log. -/
theorem processMultithread_trueStatistics {n : ℕ} (hn : 0 < n) (file : List Char)
    (hfile : WellFormedFile file) (hlen : (lines file).length < 2 ^ 31) (locals : Fin n → Entry) :
    (WellFounded fun σ' σ : World (Fin n) (Guarded Sem Component) (Place Sem Inside Worker) =>
      Interleaving processLogCode.smallStep σ σ') ∧
    ∀ σ, ReflTransGen (Interleaving processLogCode.smallStep) (processMultithread file locals) σ →
      Stopped processLogCode.smallStep σ →
        (∀ i, ∃ e, σ.workers i = .outside { pc := .returned, entry := e }) ∧
          Statistics σ.shared.mem file := by
  refine ⟨Interleaving.wellFounded (fun s => memRank s.mem) placeRank smallStep_decreases, ?_⟩
  intro σ hrun hstopped
  have hinit : ∀ r, Inv r ((Globals.init file).component r) := inv_init file
  obtain ⟨α, hmaps, h, hinv⟩ := exists_interleaving hfile hlen hrun
  obtain ⟨hok, -⟩ := processMultithread_balanced hfile hmaps
  have hreturned (i : Fin n) : ∃ e, σ.workers i = .outside { pc := .returned, entry := e } := by
    obtain ⟨⟨pc, e⟩, hi, hnext⟩ :=
      safe_processLogCode.stop_of_stopped hinit hrun hstopped i
    cases pc with
    | returned => exact ⟨e, hi⟩
    | sscanf buffer =>
      -- the worker has read a well-formed line, so it can go on
      have hplace := h.place i
      rw [hi] at hplace
      have hworker : Worker.mk (.sscanf buffer) e = α.workers i := hplace
      have hbuffer := hok i buffer (congrArg Worker.pc hworker.symm)
      simp [processLogCode, next, hbuffer.scanEntry_eq] at hnext
    | _ => cases hnext
  refine ⟨hreturned, ?_⟩
  have hall : AllReturned (absWorld α) := by
    intro i
    obtain ⟨e, hi⟩ := hreturned i
    have hplace := h.place i
    rw [hi] at hplace
    have hworker : Worker.mk .returned e = α.workers i := hplace
    show (α.workers i).pc = .returned
    rw [← hworker]
  -- no worker is inside of a section
  have hmem : σ.shared.mem = α.shared := by
    funext r
    refine h.free r fun i => ?_
    obtain ⟨e, hi⟩ := hreturned i
    rw [hi]
    exact id
  rw [hmem]
  exact statistics_of_countsLines hinv
    (processMultithread_represents hfile hn hmaps hall).countsLines hlen

/-- Two lines, and two workers. -/
theorem processMultithread_trueStatistics_two :
    (WellFounded fun σ' σ : World (Fin 2) (Guarded Sem Component) (Place Sem Inside Worker) =>
      Interleaving processLogCode.smallStep σ σ') ∧
    ∀ σ, ReflTransGen (Interleaving processLogCode.smallStep)
      (processMultithread twoLines fun _ : Fin 2 => entryOf []) σ →
      Stopped processLogCode.smallStep σ →
        (∀ i, ∃ e, σ.workers i = .outside { pc := .returned, entry := e }) ∧
          Statistics σ.shared.mem twoLines :=
  processMultithread_trueStatistics (by decide) twoLines wellFormedFile_twoLines (by decide)
    fun _ => entryOf []

/-! ### The single thread -/

/-- The globals can be processed: the tables have room for the rest of the file. -/
structure Globals.Ok (g : Globals) : Prop where
  ip : g.ipRequests.Valid
  url : g.urlVisits.Valid
  roomIp : g.ipRequests.table.items.length + g.file.length < 2 ^ 62
  roomUrl : g.urlVisits.table.items.length + g.file.length < 2 ^ 62

/-- The loop in memory is the loop on maps. -/
theorem processSingleThread_eq (fuel : ℕ) {g : Globals} (h : g.Ok) (e : Entry) :
    (processSingleThread fuel g e).map (fun g' => absGlobals g'.component)
      = Threads.processSingleThread functionTable fuel (absGlobals g.component) e ∧
    ∀ g', processSingleThread fuel g e = some g' → g'.Ok := by
  induction fuel generalizing g e with
  | zero => exact ⟨rfl, fun g' hrun => by cases hrun⟩
  | succ fuel ih =>
    have hfile : (absGlobals g.component).file = g.file := rfl
    unfold processSingleThread Threads.processSingleThread
    rw [hfile]
    unfold parseLogEntry
    rcases hread : fgets BUFFER_SIZE g.file with _ | ⟨buffer, rest⟩
    · refine ⟨rfl, fun g' hrun => ?_⟩
      obtain rfl := Option.some.inj hrun
      exact h
    · have hlt := length_lt_of_fgets (by decide) hread
      have hroomIp := h.roomIp
      have hroomUrl := h.roomUrl
      rcases hscan : scanEntry buffer e with _ | e'
      · -- neither loop returns
        simp only [hscan]
        exact ⟨rfl, fun g' hrun => by cases hrun⟩
      obtain ⟨ip', hcountIp, hvalidIp, hleIp, hvalueIp⟩ := h.ip.countKey_spec e'.ip
      obtain ⟨url', hcountUrl, hvalidUrl, hleUrl, hvalueUrl⟩ := h.url.countKey_spec e'.url
      have hnext : Globals.Ok
          { file := rest
            ipRequests := ip'
            urlVisits := url'
            errors := if isError e'.status then countErrors g.errors else g.errors } :=
        ⟨hvalidIp, hvalidUrl, by simp only; omega, by simp only; omega⟩
      -- one round on the maps
      have hround : absGlobals (Globals.component
          { file := rest
            ipRequests := ip'
            urlVisits := url'
            errors := if isError e'.status then countErrors g.errors else g.errors })
          = if isError e'.status then
              { file := rest
                ipRequests := Threads.countIpRequest functionTable g.ipRequests.value e'.ip
                urlVisits := Threads.countUrlVisits functionTable g.urlVisits.value e'.url
                errors := countErrors g.errors }
            else
              { file := rest
                ipRequests := Threads.countIpRequest functionTable g.ipRequests.value e'.ip
                urlVisits := Threads.countUrlVisits functionTable g.urlVisits.value e'.url
                errors := g.errors } := by
        unfold Threads.countIpRequest Threads.countUrlVisits
        rw [← hvalueIp (by omega), ← hvalueUrl (by omega)]
        split <;> rfl
      obtain ⟨heq, hok⟩ := ih hnext e'
      rw [hround] at heq
      simp only [hscan, countIpRequest, countUrlVisits, hcountIp, hcountUrl]
      exact ⟨heq, hok⟩

/-- A file of short lines. -/
theorem length_file_le {file : List Char} (hfile : WellFormedFile file) :
    file.length ≤ BUFFER_SIZE * (lines file).length := by
  have hflatten := congrArg List.length (flatten_lines file)
  rw [List.length_flatten] at hflatten
  have hle : ((lines file).map List.length).sum ≤
      ((lines file).map List.length).length * BUFFER_SIZE := by
    refine List.sum_le_card_nsmul _ _ fun k hk => ?_
    obtain ⟨line, hline, rfl⟩ := List.mem_map.mp hk
    exact (hfile line hline).1.le
  rwa [List.length_map, hflatten, Nat.mul_comm] at hle

/-- **The single thread in memory** returns with the statistics of the log, and with a counter of
its own for each key. -/
theorem processSingleThread_trueStatistics (file : List Char) (hfile : WellFormedFile file)
    (hlen : (lines file).length < 2 ^ 31) (e : Entry) :
    (∃ fuel g, processSingleThread fuel (Globals.init file) e = some g) ∧
    ∀ fuel g, processSingleThread fuel (Globals.init file) e = some g →
      Statistics g.component file ∧ g.ipRequests.Apart ∧ g.urlVisits.Apart := by
  have hlength := length_file_le hfile
  rw [BUFFER_SIZE] at hlength
  have hinit : (Globals.init file).Ok := by
    refine ⟨valid_create, valid_create, ?_, ?_⟩
    · show 0 + file.length < 2 ^ 62
      omega
    · show 0 + file.length < 2 ^ 62
      omega
  refine ⟨?_, fun fuel g hrun => ?_⟩
  · obtain ⟨fuel, g, hrun⟩ :=
      exists_processSingleThread (H := functionTable) (g := .init functionTable file) hfile e
    obtain ⟨heq, -⟩ := processSingleThread_eq fuel hinit e
    rw [absGlobals_init, hrun, Option.map_eq_some_iff] at heq
    obtain ⟨g', hg', -⟩ := heq
    exact ⟨fuel, g', hg'⟩
  · obtain ⟨heq, hok⟩ := processSingleThread_eq fuel hinit e
    rw [hrun, absGlobals_init] at heq
    have hrepresents := processSingleThread_represents (represents_init file) hfile heq.symm
    rw [add_zero] at hrepresents
    have hg := hok g hrun
    refine ⟨statistics_of_countsLines (fun r => ?_) hrepresents.countsLines hlen, hg.ip.keysApart,
      hg.url.keysApart⟩
    cases r with
    | file => trivial
    | ip => exact hg.ip
    | url => exact hg.url
    | errors => trivial

theorem processSingleThread_trueStatistics_two :
    (∃ fuel g, processSingleThread fuel (Globals.init twoLines) (entryOf []) = some g) ∧
    ∀ fuel g, processSingleThread fuel (Globals.init twoLines) (entryOf []) = some g →
      Statistics g.component twoLines ∧ g.ipRequests.Apart ∧ g.urlVisits.Apart :=
  processSingleThread_trueStatistics twoLines wellFormedFile_twoLines (by decide) (entryOf [])

end OsLabs.Threads.Memory
