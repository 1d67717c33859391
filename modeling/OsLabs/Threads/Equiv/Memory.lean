import OsLabs.Threads.Equiv.Counters
import OsLabs.Threads.Equiv.Errors

/-!
# Critical sections in memory

Inside of a critical section a worker has done part of what the section does (`SectionReached`), and
it can always go on (`safe_processLogCode`).  Every interleaving of the small steps of
`process_log` is one of whole critical sections on maps (`exists_interleaving`), and if the maps
count the lines of a log then `main` prints its statistics (`statistics_of_countsLines`).
-/

namespace OsLabs.Threads.Memory

open Function Relation

/-! ### The critical sections -/

/-- What has been done before a step of `count_ip_request_multit` or `count_url_visits_multit`. -/
def Reached (c₀ : Counters) (key : List Char) (c : Counters) : CountPc → Prop
  | .get => c = c₀
  | .load rcount => c = c₀ ∧ htGet c₀.table key = some (some rcount)
  | .store rcount n =>
    c = c₀ ∧ htGet c₀.table key = some (some rcount) ∧ c₀.cells[rcount]? = some n
  | .malloc => c = c₀ ∧ htGet c₀.table key = some none
  | .init rcount => htGet c₀.table key = some none ∧ rcount = c₀.cells.length ∧
    c = { c₀ with cells := c₀.cells ++ [0] }
  | .set rcount => htGet c₀.table key = some none ∧ rcount = c₀.cells.length ∧
    c = { c₀ with cells := c₀.cells ++ [1] }
  | .post => countKey c₀ key = some c

/-- A step of the section. -/
theorem Reached.step {c₀ c c' : Counters} {key : List Char} {pc pc' : CountPc}
    (h : Reached c₀ key c pc) (hstep : countStep c key pc = some (c', pc')) :
    Reached c₀ key c' pc' := by
  cases pc with
  | get =>
    obtain rfl : c = c₀ := h
    rw [countStep] at hstep
    rcases hget : htGet c.table key with _ | _ | rcount
    · simp [hget] at hstep
    · simp only [hget, Option.some_inj, Prod.mk.injEq] at hstep
      obtain ⟨rfl, rfl⟩ := hstep
      exact ⟨rfl, hget⟩
    · simp only [hget, Option.some_inj, Prod.mk.injEq] at hstep
      obtain ⟨rfl, rfl⟩ := hstep
      exact ⟨rfl, hget⟩
  | load rcount =>
    obtain ⟨rfl, hget⟩ := h
    rw [countStep, Option.map_eq_some_iff] at hstep
    obtain ⟨n, hn, heq⟩ := hstep
    obtain ⟨rfl, rfl⟩ := Prod.mk.inj heq
    exact ⟨rfl, hget, hn⟩
  | store rcount n =>
    obtain ⟨rfl, hget, hn⟩ := h
    rw [countStep, Option.some_inj, Prod.mk.injEq] at hstep
    obtain ⟨rfl, rfl⟩ := hstep
    show countKey c key = _
    simp only [countKey, hget, hn]
  | malloc =>
    obtain ⟨rfl, hget⟩ := h
    rw [countStep, Option.some_inj, Prod.mk.injEq] at hstep
    obtain ⟨rfl, rfl⟩ := hstep
    exact ⟨hget, rfl, rfl⟩
  | init rcount =>
    obtain ⟨hget, rfl, rfl⟩ := h
    rw [countStep, Option.some_inj, Prod.mk.injEq] at hstep
    obtain ⟨rfl, rfl⟩ := hstep
    refine ⟨hget, rfl, ?_⟩
    simp
  | set rcount =>
    obtain ⟨hget, rfl, rfl⟩ := h
    rw [countStep, Option.map_eq_some_iff] at hstep
    obtain ⟨⟨isSet, table⟩, hset, heq⟩ := hstep
    obtain ⟨rfl, rfl⟩ := Prod.mk.inj heq
    show countKey c₀ key = _
    have hset' : htSet c₀.table key c₀.cells.length = some (isSet, table) := hset
    simp only [countKey, hget, hset', Option.map_some]
  | post => exact absurd hstep (by simp [countStep])

/-- A worker in such a section can go on. -/
theorem Reached.exists_step {c₀ c : Counters} {key : List Char} {pc : CountPc} (hvalid : c₀.Valid)
    (h : Reached c₀ key c pc) (hpc : pc ≠ .post) : ∃ y, countStep c key pc = some y := by
  obtain ⟨c', hcount, -⟩ := hvalid.countKey_spec key
  cases pc with
  | get =>
    obtain rfl : c = c₀ := h
    obtain ⟨result, hget, -⟩ := hvalid.htGet_eq key
    cases result with
    | none => exact ⟨(c, .malloc), by simp only [countStep, hget]⟩
    | some rcount => exact ⟨(c, .load rcount), by simp only [countStep, hget]⟩
  | load rcount =>
    obtain ⟨rfl, hget⟩ := h
    obtain ⟨result, hget', hresult⟩ := hvalid.htGet_eq key
    rw [hget, Option.some_inj] at hget'
    have hlt := hvalid.lt key rcount ((hresult rcount).mp hget'.symm)
    exact ⟨_, by rw [countStep, List.getElem?_eq_getElem hlt, Option.map_some]⟩
  | store rcount n => exact ⟨_, rfl⟩
  | malloc => exact ⟨_, rfl⟩
  | init rcount => exact ⟨_, rfl⟩
  | set rcount =>
    obtain ⟨hget, rfl, rfl⟩ := h
    cases hset : htSet c₀.table key c₀.cells.length with
    | none => simp [countKey, hget, hset] at hcount
    | some p =>
      rw [countStep, hset]
      exact ⟨_, rfl⟩
  | post => exact absurd rfl hpc

/-- The first step of a section. -/
def firstStep : (r : Sem) → Entry → Inside r
  | .file, e => (.fgets, e)
  | .ip, e => (.get, e)
  | .url, e => (.get, e)
  | .errors, e => (.load, e)

/-- The worker that enters a section. -/
def enters : Sem → Pc
  | .file => .fgets
  | .ip => .countIp
  | .url => .countUrl
  | .errors => .countErrors

theorem next_eq_enter {worker : Worker} {r : Sem} {m : Inside r}
    (h : next worker = .enter r m) : worker.pc = enters r ∧ m = firstStep r worker.entry := by
  obtain ⟨pc, e⟩ := worker
  cases pc with
  | fgets =>
    cases h
    exact ⟨rfl, rfl⟩
  | sscanf buffer =>
    simp only [next] at h
    split at h <;> cases h
  | countIp =>
    cases h
    exact ⟨rfl, rfl⟩
  | countUrl =>
    cases h
    exact ⟨rfl, rfl⟩
  | countErrors =>
    cases h
    exact ⟨rfl, rfl⟩
  | returned => cases h

/-- What a worker with the locals `e` has done inside of a section whose component was `x`. -/
def SectionReached (e : Entry) : (r : Sem) → Component r → Component r × Inside r → Prop
  | .file, x, (x', (.fgets, e')) => e' = e ∧ x' = x
  | .file, x, (x', (.post none, e')) => e' = e ∧ fgets BUFFER_SIZE x = none ∧ x' = x
  | .file, x, (x', (.post (some buffer), e')) => e' = e ∧ fgets BUFFER_SIZE x = some (buffer, x')
  | .ip, x, (x', (pc, e')) => e' = e ∧ Reached x e.ip x' pc
  | .url, x, (x', (pc, e')) => e' = e ∧ Reached x e.url x' pc
  | .errors, x, (x', (.load, e')) => e' = e ∧ x' = x
  | .errors, x, (x', (.store n, e')) => e' = e ∧ x' = x ∧ n = x
  | .errors, x, (x', (.post, e')) => e' = e ∧ x' = countErrors x

theorem sectionReached_firstStep (e : Entry) (r : Sem) (x : Component r) :
    SectionReached e r x (x, firstStep r e) := by
  cases r with
  | file => exact ⟨rfl, rfl⟩
  | ip => exact ⟨rfl, rfl⟩
  | url => exact ⟨rfl, rfl⟩
  | errors => exact ⟨rfl, rfl⟩

/-- A step inside of any section. -/
theorem SectionReached.step {e : Entry} {r : Sem} {x : Component r}
    {a b : Component r × Inside r} (h : SectionReached e r x a)
    (hstep : Memory.step r a.1 a.2 = some b) : SectionReached e r x b := by
  obtain ⟨x', m⟩ := a
  cases r with
  | file =>
    obtain ⟨pc, e'⟩ := m
    cases pc with
    | fgets =>
      obtain ⟨rfl, rfl⟩ := h
      rcases hread : fgets BUFFER_SIZE x' with _ | ⟨buffer, rest⟩
      · simp only [Memory.step, hread, Option.some_inj] at hstep
        subst hstep
        exact ⟨rfl, hread, rfl⟩
      · simp only [Memory.step, hread, Option.some_inj] at hstep
        subst hstep
        exact ⟨rfl, hread⟩
    | post buffer => exact absurd hstep (by simp [Memory.step])
  | ip =>
    obtain ⟨pc, e'⟩ := m
    obtain ⟨rfl, hreached⟩ := h
    obtain ⟨⟨c, pc'⟩, hcount, heq⟩ := Option.map_eq_some_iff.mp hstep
    subst heq
    exact ⟨rfl, hreached.step hcount⟩
  | url =>
    obtain ⟨pc, e'⟩ := m
    obtain ⟨rfl, hreached⟩ := h
    obtain ⟨⟨c, pc'⟩, hcount, heq⟩ := Option.map_eq_some_iff.mp hstep
    subst heq
    exact ⟨rfl, hreached.step hcount⟩
  | errors =>
    obtain ⟨pc, e'⟩ := m
    cases pc with
    | load =>
      obtain ⟨rfl, rfl⟩ := h
      cases hstep
      exact ⟨rfl, rfl, rfl⟩
    | store n =>
      obtain ⟨rfl, rfl, rfl⟩ := h
      cases hstep
      exact ⟨rfl, rfl⟩
    | post => exact absurd hstep (by simp [Memory.step])

/-- Whatever a worker has done inside of a section. -/
theorem sectionReached_of_body {worker : Worker} {r : Sem} {m : Inside r} {x : Component r}
    {b : Component r × Inside r} (hnext : processLogCode.next worker = .enter r m)
    (hbody : processLogCode.Body r (x, m) b) : SectionReached worker.entry r x b := by
  obtain ⟨-, rfl⟩ := next_eq_enter hnext
  induction hbody with
  | refl => exact sectionReached_firstStep worker.entry r x
  | tail _ hlast ih => exact ih.step hlast.2

/-- What holds of a component while no worker is inside of its section. -/
def Inv : (r : Sem) → Component r → Prop
  | .file, _ => True
  | .ip, c => c.Valid
  | .url, c => c.Valid
  | .errors, _ => True

theorem inv_init (file : List Char) (r : Sem) : Inv r ((Globals.init file).component r) := by
  cases r with
  | file => trivial
  | ip => exact valid_create
  | url => exact valid_create
  | errors => trivial

/-- **A worker inside of a section can go on**, and it leaves a valid table. -/
theorem safe_processLogCode : processLogCode.Safe Inv where
  goesOn := by
    intro worker r m x x' m' hnext hinv hbody hleave
    have hreached := sectionReached_of_body hnext hbody
    cases r with
    | file =>
      obtain ⟨pc, e⟩ := m'
      cases pc with
      | fgets =>
        rcases hread : fgets BUFFER_SIZE x' with _ | ⟨buffer, rest⟩
        · exact ⟨(x', (.post none, e)), by simp only [processLogCode, step, hread]⟩
        · exact ⟨(rest, (.post (some buffer), e)), by simp only [processLogCode, step, hread]⟩
      | post buffer => cases buffer <;> cases hleave
    | ip =>
      obtain ⟨pc, e⟩ := m'
      obtain ⟨rfl, hreached⟩ := hreached
      have hpc : pc ≠ .post := by
        rintro rfl
        cases hleave
      obtain ⟨⟨c, pc'⟩, hstep⟩ := hreached.exists_step hinv hpc
      exact ⟨(c, (pc', worker.entry)), Option.map_eq_some_iff.mpr ⟨_, hstep, rfl⟩⟩
    | url =>
      obtain ⟨pc, e⟩ := m'
      obtain ⟨rfl, hreached⟩ := hreached
      have hpc : pc ≠ .post := by
        rintro rfl
        cases hleave
      obtain ⟨⟨c, pc'⟩, hstep⟩ := hreached.exists_step hinv hpc
      exact ⟨(c, (pc', worker.entry)), Option.map_eq_some_iff.mpr ⟨_, hstep, rfl⟩⟩
    | errors =>
      obtain ⟨pc, e⟩ := m'
      cases pc with
      | load => exact ⟨_, rfl⟩
      | store n => exact ⟨_, rfl⟩
      | post => cases hleave
  keeps := by
    intro worker r m x x' m' worker' hnext hinv hbody hleave
    have hreached := sectionReached_of_body hnext hbody
    cases r with
    | file => trivial
    | ip =>
      obtain ⟨pc, e⟩ := m'
      obtain ⟨rfl, hreached⟩ := hreached
      cases pc with
      | post =>
        obtain ⟨c', hcount, hvalid, -⟩ := hinv.countKey_spec worker.entry.ip
        obtain rfl : c' = x' := Option.some.inj (hcount.symm.trans hreached)
        exact hvalid
      | _ => cases hleave
    | url =>
      obtain ⟨pc, e⟩ := m'
      obtain ⟨rfl, hreached⟩ := hreached
      cases pc with
      | post =>
        obtain ⟨c', hcount, hvalid, -⟩ := hinv.countKey_spec worker.entry.url
        obtain rfl : c' = x' := Option.some.inj (hcount.symm.trans hreached)
        exact hvalid
      | _ => cases hleave
    | errors => trivial

/-! ### Whole sections on maps -/

/-- What the memory stands for: the tables are maps. -/
def absGlobals (mem : (r : Sem) → Component r) : Threads.Globals functionTable where
  file := mem .file
  ipRequests := Counters.value (mem .ip)
  urlVisits := Counters.value (mem .url)
  errors := mem .errors

/-- The empty tables are the empty map. -/
theorem absGlobals_init (file : List Char) :
    absGlobals (Globals.init file).component = Threads.Globals.init functionTable file := by
  have hcreate : Counters.create.value = fun _ => none := funext value_create
  unfold absGlobals Globals.component Globals.init
  simp only [hcreate]
  rfl

/-- The same workers on maps. -/
def absWorld {n : ℕ} (α : World (Fin n) ((r : Sem) → Component r) Worker) :
    World (Fin n) (Threads.Globals functionTable) Worker where
  shared := absGlobals α.shared
  workers := α.workers

/-- The tables may have one more key. -/
structure HasRoom (mem : (r : Sem) → Component r) : Prop where
  ip : (Counters.contents (mem .ip)).length < 2 ^ 62
  url : (Counters.contents (mem .url)).length < 2 ^ 62

variable {n : ℕ} {α α' : World (Fin n) ((r : Sem) → Component r) Worker}

/-- A step of a worker outside of the sections. -/
theorem processLog_run {worker worker' : Worker} (h : next worker = .run worker')
    (g : Threads.Globals functionTable) :
    processLog functionTable g worker = some (g, worker') := by
  obtain ⟨pc, e⟩ := worker
  cases pc with
  | sscanf buffer =>
    cases hscan : scanEntry buffer e with
    | none => simp [next, hscan] at h
    | some e' =>
      simp only [next, hscan, Next.run.injEq] at h
      simp only [← h, processLog, hscan, Option.map_some]
  | _ => cases h

/-- A whole section is one step on maps. -/
theorem processLog_section {mem : (r : Sem) → Component r} (hinv : ∀ r, Inv r (mem r))
    (hroom : HasRoom mem) {r : Sem} {e : Entry} {x : Component r} {m : Inside r}
    (hreached : SectionReached e r (mem r) (x, m)) {worker : Worker}
    (hleave : leave r m = some worker) :
    processLog functionTable (absGlobals mem) { pc := enters r, entry := e }
      = some (absGlobals (update mem r x), worker) := by
  cases r with
  | file =>
    obtain ⟨pc, e'⟩ := m
    cases pc with
    | fgets => cases hleave
    | post buffer =>
      cases buffer with
      | none =>
        obtain ⟨rfl, hread, rfl⟩ := hreached
        cases hleave
        have hread' : fgets BUFFER_SIZE (absGlobals mem).file = none := hread
        simp only [processLog, enters, hread', update_eq_self]
      | some buffer =>
        obtain ⟨rfl, hread⟩ := hreached
        cases hleave
        have hread' : fgets BUFFER_SIZE (absGlobals mem).file = some (buffer, x) := hread
        simp only [processLog, enters, hread']
        rfl
  | ip =>
    obtain ⟨pc, e'⟩ := m
    obtain ⟨rfl, hreached⟩ := hreached
    cases pc with
    | post =>
      cases hleave
      obtain ⟨c', hcount, -, -, hvalue⟩ := (hinv .ip).countKey_spec e'.ip
      obtain rfl : c' = x := Option.some.inj (hcount.symm.trans hreached)
      have hlt : (Counters.table (mem .ip)).items.length < 2 ^ 62 :=
        (List.length_map _).symm.trans_lt hroom.ip
      have hglobals : absGlobals (update mem .ip c') =
          { absGlobals mem with ipRequests := c'.value } := rfl
      rw [hglobals, hvalue hlt]
      rfl
    | _ => cases hleave
  | url =>
    obtain ⟨pc, e'⟩ := m
    obtain ⟨rfl, hreached⟩ := hreached
    cases pc with
    | post =>
      cases hleave
      obtain ⟨c', hcount, -, -, hvalue⟩ := (hinv .url).countKey_spec e'.url
      obtain rfl : c' = x := Option.some.inj (hcount.symm.trans hreached)
      have hlt : (Counters.table (mem .url)).items.length < 2 ^ 62 :=
        (List.length_map _).symm.trans_lt hroom.url
      have hglobals : absGlobals (update mem .url c') =
          { absGlobals mem with urlVisits := c'.value } := rfl
      rw [hglobals, hvalue hlt]
      rfl
    | _ => cases hleave
  | errors =>
    obtain ⟨pc, e'⟩ := m
    cases pc with
    | post =>
      obtain ⟨rfl, rfl⟩ := hreached
      cases hleave
      rfl
    | _ => cases hleave

/-- A big step is one step on maps. -/
theorem absWorld_bigStep (h : processLogCode.BigStep α α') (hinv : ∀ r, Inv r (α.shared r))
    (hroom : HasRoom α.shared) :
    Interleaving (processLog functionTable) (absWorld α) (absWorld α') := by
  cases h with
  | @run w i hnext => exact .mk i (processLog_run hnext _)
  | @through r m m' x w i hnext hbody hleave =>
    have hreached := sectionReached_of_body hnext hbody
    have hworker : α.workers i = { pc := enters r, entry := (α.workers i).entry } := by
      rw [← (next_eq_enter hnext).1]
    have hstep : processLog functionTable (absGlobals α.shared) (α.workers i)
        = some (absGlobals (update α.shared r x), w) := by
      rw [hworker]
      exact processLog_section hinv hroom hreached hleave
    exact .mk i hstep

/-! ### Any interleaving -/

/-- The keys of a table have been counted. -/
theorem length_contents_le {c : Counters} (hvalid : c.Valid) {made : Multiset Update}
    {update : List Char → Update} (hinj : Injective update)
    (h : ∀ key, c.value key = tally (made.count (update key))) :
    c.contents.length ≤ Multiset.card made := by
  have hsub : (c.contents.map fun item => update item.1).toFinset ⊆ made.toFinset := by
    intro u hu
    obtain ⟨⟨key, count⟩, hmem, rfl⟩ := List.mem_map.mp (List.mem_toFinset.mp hu)
    rw [Multiset.mem_toFinset, ← Multiset.count_ne_zero]
    intro hzero
    have hvalue := (hvalid.mem_contents_iff key count).mp hmem
    rw [h key, hzero] at hvalue
    exact absurd hvalue (by simp [tally])
  have hnodup : (c.contents.map fun item => update item.1).Nodup := by
    have hkeys := hvalid.nodup_contents.map hinj
    rwa [List.map_map] at hkeys
  calc c.contents.length = (c.contents.map fun item => update item.1).length :=
        (List.length_map _).symm
    _ = (c.contents.map fun item => update item.1).toFinset.card :=
        (List.toFinset_card_of_nodup hnodup).symm
    _ ≤ made.toFinset.card := Finset.card_le_card hsub
    _ ≤ Multiset.card made := Multiset.toFinset_card_le made

/-- A line stands for at most three updates. -/
theorem card_future_le (file : List Char) :
    Multiset.card (future file) ≤ 3 * (lines file).length := by
  unfold future
  induction lines file with
  | nil => exact le_rfl
  | cons line ls ih =>
    have hline : Multiset.card (updatesOf (entryOf line)) ≤ 3 := by
      unfold updatesOf errorOf
      split <;> simp
    rw [List.map_cons, List.sum_cons, Multiset.card_add, List.length_cons]
    omega

section Run

variable {file : List Char} (hfile : WellFormedFile file) (hlen : (lines file).length < 2 ^ 31)
variable {locals : Fin n → Entry}

include hfile hlen

/-- The tables have room in every world that the workers on maps reach. -/
theorem hasRoom_of_run (hinv : ∀ r, Inv r (α.shared r))
    (hrun : ReflTransGen (Interleaving (processLog functionTable))
      (Threads.processMultithread functionTable file locals) (absWorld α)) :
    HasRoom α.shared := by
  obtain ⟨-, -, made, hmade, htotal⟩ := processMultithread_balanced hfile hrun
  have hcard : Multiset.card made ≤ 3 * (lines file).length := by
    refine le_trans ?_ (card_future_le file)
    rw [← htotal, Multiset.card_add]
    exact Nat.le_add_right ..
  have hip := length_contents_le (hinv .ip) (fun _ _ heq => Update.ip.inj heq) hmade.ip
  have hurl := length_contents_le (hinv .url) (fun _ _ heq => Update.url.inj heq) hmade.url
  exact ⟨by omega, by omega⟩

/-- **The small steps in memory are steps on maps**: what the workers do between two `sem_wait` and
`sem_post` may be taken to happen at once, and the hash table for a map. -/
theorem exists_interleaving
    {σ : World (Fin n) (Guarded Sem Component) (Place Sem Inside Worker)}
    (hrun : ReflTransGen (Interleaving processLogCode.smallStep) (processMultithread file locals)
      σ) :
    ∃ α, ReflTransGen (Interleaving (processLog functionTable))
        (Threads.processMultithread functionTable file locals) (absWorld α) ∧
      processLogCode.Simulates σ α ∧ ∀ r, Inv r (α.shared r) := by
  obtain ⟨α, hbig, h⟩ := Code.exists_simulates hrun
  have hinit := inv_init file
  refine ⟨α, ?_, h, safe_processLogCode.inv hbig hinit⟩
  clear h
  induction hbig with
  | refl =>
    have hstart : absWorld { shared := (Globals.init file).component
                             workers := fun i => { pc := .fgets, entry := locals i } }
        = Threads.processMultithread functionTable file locals := by
      rw [absWorld, absGlobals_init]
      rfl
    rw [hstart]
  | tail hbig hlast ih =>
    have hinv := safe_processLogCode.inv hbig hinit
    exact ih.tail (absWorld_bigStep hlast hinv (hasRoom_of_run hfile hlen hinv ih))

end Run

/-! ### The statistics in memory -/

/-- What `main` prints is right, except that the number of errors has 16 bits. -/
structure Statistics (mem : (r : Sem) → Component r) (file : List Char) : Prop where
  /-- `ht_length(ip_requests)` is the number of distinct IPs. -/
  unique : (htLength (Counters.table (mem .ip))).toNat = (ips file).toFinset.card
  ip : ∀ key, (Counters.value (mem .ip) key).map UInt32.toNat = occurrences (ips file) key
  url : ∀ key, (Counters.value (mem .url) key).map UInt32.toNat = occurrences (urls file) key
  /-- `get_most_visited` returns the largest number of visits and stores a URL that has it. -/
  most : file ≠ [] → ∀ mostVisited, ∃ url ∈ urls file,
    (∀ fuel > (urls file).toFinset.card, getMostVisited fuel (mem .url) mostVisited
      = some (((urls file).count url : ℤ), url)) ∧
    ∀ other ∈ urls file, (urls file).count other ≤ (urls file).count url
  errors : UInt16.toNat (mem .errors) = errorEntries file % 65536

/-- The contents of a table, as an association list. -/
def Counters.Valid.alist {c : Counters} (h : c.Valid) : listTable.Table where
  entries := c.contents.map fun item => ⟨item.1, item.2⟩
  nodupKeys := by
    have hnodup := h.nodup_contents
    rw [List.nodupKeys_iff_pairwise, List.pairwise_map]
    rwa [List.Nodup, List.pairwise_map] at hnodup

theorem Counters.Valid.items_alist {c : Counters} (h : c.Valid) :
    listTable.items h.alist = c.contents := by
  show (c.contents.map _).map _ = _
  rw [List.map_map]
  exact List.map_id _

theorem Counters.Valid.get_alist {c : Counters} (h : c.Valid) (key : List Char) :
    listTable.get h.alist key = c.value key := by
  ext n
  rw [← listTable.mem_items, h.items_alist, h.mem_contents_iff]

/-- Maps that count the lines are tables from which `main` prints the statistics. -/
theorem statistics_of_countsLines {mem : (r : Sem) → Component r} (hinv : ∀ r, Inv r (mem r))
    {file : List Char} (h : CountsLines (absGlobals mem) file)
    (hlen : (lines file).length < 2 ^ 31) : Statistics mem file := by
  have hips : (ips file).length < 2147483648 := by rwa [ips, List.length_map]
  have hurls : (urls file).length < 2147483648 := by rwa [urls, List.length_map]
  have hip : ∀ key, (Counters.value (mem .ip) key).map UInt32.toNat
      = occurrences (ips file) key := by
    intro key
    have hkey : Counters.value (mem .ip) key = tally _ := h.ip key
    rw [← tally_count (by omega) key, hkey, count_ips]
  have hurl : ∀ key, (Counters.value (mem .url) key).map UInt32.toNat
      = occurrences (urls file) key := by
    intro key
    have hkey : Counters.value (mem .url) key = tally _ := h.url key
    rw [← tally_count (by omega) key, hkey, count_urls]
  -- the tables as association lists
  have hvalidIp : Counters.Valid (mem .ip) := hinv .ip
  have hvalidUrl : Counters.Valid (mem .url) := hinv .url
  have hipList : ∀ key, (listTable.get hvalidIp.alist key).map UInt32.toNat
      = occurrences (ips file) key := fun key => by rw [hvalidIp.get_alist, hip]
  have hurlList : ∀ key, (listTable.get hvalidUrl.alist key).map UInt32.toNat
      = occurrences (urls file) key := fun key => by rw [hvalidUrl.get_alist, hurl]
  have hcardUrl : (Counters.contents (mem .url)).length = (urls file).toFinset.card := by
    rw [← length_eq_card hurlList, listTable.length_eq, hvalidUrl.items_alist]
  refine ⟨?_, hip, hurl, fun hne mostVisited => ?_, h.toNat_errors⟩
  · rw [hvalidIp.htLength_eq, ← length_eq_card hipList, listTable.length_eq, hvalidIp.items_alist]
  · have hne' : urls file ≠ [] := by
      rw [urls, Ne, List.map_eq_nil_iff, lines_eq_nil]
      exact hne
    obtain ⟨url, hmem, hfound, hmax⟩ := getMostVisited_items hurlList hne' hurls mostVisited
    refine ⟨url, hmem, fun fuel hfuel => ?_, hmax⟩
    rw [hvalidUrl.getMostVisited_eq (hcardUrl.trans_lt hfuel), ← hvalidUrl.items_alist, hfound]

end OsLabs.Threads.Memory
