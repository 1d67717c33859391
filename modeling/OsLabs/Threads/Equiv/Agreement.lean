import OsLabs.Threads.Main
import Mathlib.Algebra.BigOperators.Group.Multiset.Basic
import Mathlib.Data.Multiset.Count
import Mathlib.Tactic.Abel

/-!
# Any interleaving of the workers counts every line once

A line of the file stands for updates of the three statistics (`updatesOf`).  Between its critical
sections a worker holds the updates of its line that it has not made yet (`held`).  At any time
the updates made, those held by the workers and those of the lines still in the file are together
the updates of the whole file; when all workers have returned all of them have been made
(`multithread_agrees`), as they have been after the loop of `process_single_thread`.
-/

namespace OsLabs.Threads

open Function Relation

/-! ### The fields of a line -/

/-- What `sscanf` reads in a line. -/
structure Fields where
  ip : Option (List Char)
  url : Option (List Char)
  status : Option ℤ

def fieldsOf (line : List Char) : Fields :=
  match sscanf line ENTRY_FORMAT with
  | [.str ip, .str url, .int status] => { ip := some ip, url := some url, status := some status }
  | [.str ip, .str url] => { ip := some ip, url := some url, status := none }
  | [.str ip] => { ip := some ip, url := none, status := none }
  | _ => { ip := none, url := none, status := none }

/-- The locals have room for the fields. -/
structure Fields.Fit (f : Fields) : Prop where
  ip : ∀ s ∈ f.ip, s.length < IP_SIZE
  url : ∀ s ∈ f.url, s.length < URL_SIZE
  status : ∀ v ∈ f.status, -32768 ≤ v ∧ v < 32768

/-- The locals, with the fields in place of what they held. -/
def Fields.store (f : Fields) (e : Entry) : Entry where
  ip := f.ip.getD e.ip
  url := f.url.getD e.url
  status := (f.status.map UInt16.ofInt).getD e.status

theorem storeString_eq_some {size : ℕ} {s s' : List Char} :
    storeString size s = some s' ↔ s.length < size ∧ s' = s := by
  unfold storeString
  split_ifs with h
  · rw [Option.some_inj, eq_comm, and_iff_right h]
  · exact iff_of_false nofun fun hs => h hs.1

theorem storeShort_eq_some {v : ℤ} {status : UInt16} :
    storeShort v = some status ↔ (-32768 ≤ v ∧ v < 32768) ∧ status = UInt16.ofInt v := by
  unfold storeShort
  split_ifs with h
  · rw [Option.some_inj, eq_comm, and_iff_right h]
  · exact iff_of_false nofun fun hs => h hs.1

/-- `sscanf` stores the fields, and its behaviour is undefined when they do not fit. -/
theorem scanEntry_eq_some {buffer : List Char} {e e' : Entry} :
    scanEntry buffer e = some e' ↔ (fieldsOf buffer).Fit ∧ e' = (fieldsOf buffer).store e := by
  have hfit (f : Fields) : f.Fit ↔ (∀ s ∈ f.ip, s.length < IP_SIZE) ∧
      (∀ s ∈ f.url, s.length < URL_SIZE) ∧ ∀ v ∈ f.status, -32768 ≤ v ∧ v < 32768 :=
    ⟨fun h => ⟨h.ip, h.url, h.status⟩, fun h => ⟨h.1, h.2.1, h.2.2⟩⟩
  rw [hfit]
  unfold scanEntry fieldsOf
  generalize sscanf buffer ENTRY_FORMAT = values
  split
  · simp [Option.bind_eq_some_iff, storeString_eq_some, storeShort_eq_some, Fields.store, and_assoc,
      eq_comm (a := e')]
  · simp [Option.bind_eq_some_iff, storeString_eq_some, Fields.store, and_assoc,
      eq_comm (a := e')]
  · simp [Option.bind_eq_some_iff, storeString_eq_some, Fields.store, eq_comm (a := e')]
  · simp [Fields.store, eq_comm (a := e')]

/-! ### The updates of a line -/

/-- A line in the entry format, for which the locals have room. -/
def WellFormed (line : List Char) : Prop :=
  ∃ ip url status, sscanf line ENTRY_FORMAT = [.str ip, .str url, .int status] ∧
    ip.length < 16 ∧ url.length < 256 ∧ -2 ^ 15 ≤ status ∧ status < 2 ^ 15

/-- The lines of the file are well-formed and fit `buffer`. -/
def WellFormedFile (file : List Char) : Prop :=
  ∀ line ∈ lines file, line.length < BUFFER_SIZE ∧ WellFormed line

/-- The entry of a line. -/
def entryOf (line : List Char) : Entry :=
  (fieldsOf line).store { ip := [], url := [], status := 0 }

/-- A well-formed line has all three fields, and they fit. -/
theorem WellFormed.fit {line : List Char} (h : WellFormed line) : (fieldsOf line).Fit := by
  obtain ⟨ip, url, status, hscan, hip, hurl, hstatus⟩ := h
  simp only [fieldsOf, hscan]
  refine ⟨fun s hs => Option.some.inj hs ▸ hip, fun s hs => Option.some.inj hs ▸ hurl,
    fun v hv => ?_⟩
  obtain rfl := Option.some.inj hv
  omega

/-- What was in the locals before does not matter. -/
theorem WellFormed.scanEntry_eq {line : List Char} (h : WellFormed line) (e : Entry) :
    scanEntry line e = some (entryOf line) := by
  refine scanEntry_eq_some.mpr ⟨h.fit, ?_⟩
  obtain ⟨ip, url, status, hscan, -⟩ := h
  simp only [entryOf, fieldsOf, hscan]
  rfl

/-- An update of the statistics. -/
inductive Update where
  | ip (key : List Char)
  | url (key : List Char)
  | error
  deriving DecidableEq

/-- The update of `errors`, if any. -/
def errorOf (e : Entry) : Multiset Update := if isError e.status then {.error} else 0

/-- The updates for an entry. -/
def updatesOf (e : Entry) : Multiset Update := .ip e.ip ::ₘ .url e.url ::ₘ errorOf e

/-- The updates for the rest of the file. -/
def future (file : List Char) : Multiset Update :=
  ((lines file).map fun line => updatesOf (entryOf line)).sum

/-- The updates a worker still has to make for its line. -/
def held (worker : Worker) : Multiset Update :=
  match worker.pc with
  | .fgets => 0
  | .sscanf buffer => updatesOf (entryOf buffer)
  | .countIp => updatesOf worker.entry
  | .countUrl => .url worker.entry.url ::ₘ errorOf worker.entry
  | .countErrors => {.error}
  | .returned => 0

/-! ### The statistics after some updates -/

/-- The counter of a key that was counted `k` times. -/
def tally (k : ℕ) : Option UInt32 := if k = 0 then none else some (UInt32.ofNat k)

variable {H : HashTable (List Char) UInt32}

/-- The statistics are those of the updates `made`. -/
structure Represents (g : Globals H) (made : Multiset Update) : Prop where
  ip : ∀ key, H.get g.ipRequests key = tally (made.count (.ip key))
  url : ∀ key, H.get g.urlVisits key = tally (made.count (.url key))
  errors : g.errors = UInt16.ofNat (made.count .error)

/-- No update has been made. -/
theorem represents_init (file : List Char) : Represents (Globals.init H file) 0 where
  ip _ := H.get_create _
  url _ := H.get_create _
  errors := rfl

/-- Counting a key adds one to its counter, and to no other. -/
theorem get_countKey {table : H.Table} {count : List Char → ℕ}
    (h : ∀ key, H.get table key = tally (count key)) (key key' : List Char) :
    H.get (countKey H table key) key' = tally (count key' + if key' = key then 1 else 0) := by
  unfold countKey
  rw [h key]
  by_cases hk : key' = key
  · rw [if_pos hk, hk]
    by_cases hzero : count key = 0
    · simp [tally, hzero, H.get_set_self]
    · simp [tally, hzero, H.get_set_self, UInt32.ofNat_add]
  · rw [if_neg hk, Nat.add_zero, ← h key']
    by_cases hzero : count key = 0
    · simp [tally, hzero, H.get_set_of_ne _ _ _ _ hk]
    · simp [tally, hzero, H.get_set_of_ne _ _ _ _ hk]

section Represents

variable {g : Globals H} {made : Multiset Update} (h : Represents g made)

include h

theorem Represents.countIp (key : List Char) :
    Represents { g with ipRequests := countIpRequest H g.ipRequests key } (.ip key ::ₘ made) where
  ip key' := by
    show H.get (countKey H g.ipRequests key) key' = _
    rw [get_countKey h.ip, Multiset.count_cons]
    simp
  url key' := by
    rw [Multiset.count_cons_of_ne (by simp)]
    exact h.url key'
  errors := by
    rw [Multiset.count_cons_of_ne (by simp)]
    exact h.errors

theorem Represents.countUrl (key : List Char) :
    Represents { g with urlVisits := countUrlVisits H g.urlVisits key } (.url key ::ₘ made) where
  ip key' := by
    rw [Multiset.count_cons_of_ne (by simp)]
    exact h.ip key'
  url key' := by
    show H.get (countKey H g.urlVisits key) key' = _
    rw [get_countKey h.url, Multiset.count_cons]
    simp
  errors := by
    rw [Multiset.count_cons_of_ne (by simp)]
    exact h.errors

theorem Represents.countErrors :
    Represents { g with errors := countErrors g.errors } (.error ::ₘ made) where
  ip key' := by
    rw [Multiset.count_cons_of_ne (by simp)]
    exact h.ip key'
  url key' := by
    rw [Multiset.count_cons_of_ne (by simp)]
    exact h.url key'
  errors := by
    show g.errors + 1 = _
    rw [Multiset.count_cons_self, h.errors, UInt16.ofNat_add]
    rfl

/-- All updates of an entry. -/
theorem Represents.countEntry (e : Entry) :
    Represents
      (let g := { g with ipRequests := countIpRequest H g.ipRequests e.ip }
        let g := { g with urlVisits := countUrlVisits H g.urlVisits e.url }
        if isError e.status then { g with errors := Threads.countErrors g.errors } else g)
      (updatesOf e + made) := by
  have hcounted := (h.countUrl e.url).countIp e.ip
  unfold updatesOf errorOf
  by_cases herr : isError e.status = true
  · have hall := hcounted.countErrors
    have hswap : Update.ip e.ip ::ₘ Update.url e.url ::ₘ {Update.error} + made
        = Update.error ::ₘ Update.ip e.ip ::ₘ Update.url e.url ::ₘ made := by
      simp only [← Multiset.singleton_add]
      abel
    simp only [if_pos herr]
    rw [hswap]
    exact hall
  · simp only [if_neg herr]
    rw [Multiset.cons_add, Multiset.cons_add, zero_add]
    exact hcounted

end Represents

/-- What `fgets` leaves of a well-formed file. -/
theorem fgets_wellFormed {file line rest : List Char} (hfile : WellFormedFile file)
    (h : fgets BUFFER_SIZE file = some (line, rest)) :
    WellFormed line ∧ WellFormedFile rest ∧
      future file = updatesOf (entryOf line) + future rest := by
  cases hlines : lines file with
  | nil =>
    rw [fgets_eq_none.mpr (lines_eq_nil.mp hlines)] at h
    exact absurd h (by simp)
  | cons first others =>
    have hfirst := hfile first (by rw [hlines]; exact List.mem_cons_self)
    obtain ⟨rest', hread, hrest⟩ := fgets_eq hlines hfirst.1
    rw [hread, Option.some_inj, Prod.mk.injEq] at h
    obtain ⟨rfl, rfl⟩ := h
    refine ⟨hfirst.2, fun other hother => ?_, ?_⟩
    · rw [hrest] at hother
      exact hfile other (by rw [hlines]; exact List.mem_cons_of_mem first hother)
    · unfold future
      rw [hlines, hrest, List.map_cons, List.sum_cons]

/-! ### The single thread -/

/-- The buffers that `parse_log_entry` reads. -/
def buffers (file : List Char) : List (List Char) := reads BUFFER_SIZE (by decide) file

/-- The locals have room for what is read in the file. -/
def ReadsFit (file : List Char) : Prop := ∀ buffer ∈ buffers file, (fieldsOf buffer).Fit

theorem buffers_nil : buffers [] = [] := reads_nil _

theorem buffers_of_fgets {file buffer rest : List Char}
    (h : fgets BUFFER_SIZE file = some (buffer, rest)) : buffers file = buffer :: buffers rest :=
  reads_of_fgets _ h

/-- Every read is a whole line. -/
theorem WellFormedFile.readsFit {file : List Char} (h : WellFormedFile file) : ReadsFit file := by
  intro buffer hbuffer
  rw [buffers, reads_eq_lines _ fun line hline => (h line hline).1] at hbuffer
  exact (h buffer hbuffer).2.fit

/-- The loop makes the updates of the rest of the file. -/
theorem processSingleThread_represents {fuel : ℕ} {g g' : Globals H} {e : Entry}
    {made : Multiset Update} (h : Represents g made) (hfile : WellFormedFile g.file)
    (hrun : processSingleThread H fuel g e = some g') :
    Represents g' (future g.file + made) := by
  induction fuel generalizing g e made with
  | zero => exact absurd hrun (by simp [processSingleThread])
  | succ fuel ih =>
    unfold processSingleThread parseLogEntry at hrun
    cases hread : fgets BUFFER_SIZE g.file with
    | none =>
      simp only [hread, Option.some_inj] at hrun
      have hempty : lines g.file = [] := lines_eq_nil.mpr (fgets_eq_none.mp hread)
      rw [← hrun, future, hempty]
      simpa using h
    | some p =>
      obtain ⟨line, rest⟩ := p
      obtain ⟨hline, hrest, hfuture⟩ := fgets_wellFormed hfile hread
      simp only [hread, hline.scanEntry_eq] at hrun
      have hread' : Represents { g with file := rest } made := ⟨h.ip, h.url, h.errors⟩
      have hcounted := hread'.countEntry (entryOf line)
      have hdone := ih hcounted (by split <;> exact hrest) hrun
      simp only [apply_ite Globals.file, ite_self] at hdone
      rw [← add_assoc] at hdone
      rw [hfuture, add_comm (updatesOf _)]
      exact hdone

/-- **The loop returns** if and only if the locals have room for all that is read: every round reads
a line. -/
theorem exists_processSingleThread_iff (g : Globals H) (e : Entry) :
    (∃ fuel g', processSingleThread H fuel g e = some g') ↔ ReadsFit g.file := by
  induction hlen : g.file.length using Nat.strongRecOn generalizing g e with
  | _ len ih =>
    cases hread : fgets BUFFER_SIZE g.file with
    | none =>
      refine iff_of_true ⟨1, g, by simp [processSingleThread, parseLogEntry, hread]⟩ ?_
      rw [ReadsFit, fgets_eq_none.mp hread, buffers_nil]
      exact fun _ h => absurd h List.not_mem_nil
    | some p =>
      obtain ⟨buffer, rest⟩ := p
      have hlt := length_lt_of_fgets (by decide) hread
      rw [ReadsFit, buffers_of_fgets hread, List.forall_mem_cons]
      cases hscan : scanEntry buffer e with
      | none =>
        refine iff_of_false ?_ fun h => ?_
        · rintro ⟨fuel, g', hrun⟩
          cases fuel <;> simp [processSingleThread, parseLogEntry, hread, hscan] at hrun
        · rw [scanEntry_eq_some.mpr ⟨h.1, rfl⟩] at hscan
          exact absurd hscan nofun
      | some e' =>
        rw [and_iff_right (scanEntry_eq_some.mp hscan).1]
        -- the globals after the round
        let g₁ : Globals H :=
          let g := { g with file := rest }
          let g := { g with ipRequests := countIpRequest H g.ipRequests e'.ip }
          let g := { g with urlVisits := countUrlVisits H g.urlVisits e'.url }
          if isError e'.status then { g with errors := countErrors g.errors } else g
        have hfile : g₁.file = rest := by
          show (if isError e'.status then _ else _ : Globals H).file = rest
          split <;> rfl
        have hround (fuel : ℕ) :
            processSingleThread H (fuel + 1) g e = processSingleThread H fuel g₁ e' := by
          simp only [processSingleThread, parseLogEntry, hread, hscan]
          rfl
        have hrest := ih rest.length (hlen ▸ hlt) g₁ e' (congrArg List.length hfile)
        rw [hfile] at hrest
        refine Iff.trans ⟨?_, ?_⟩ hrest
        · rintro ⟨fuel, g', hrun⟩
          cases fuel with
          | zero => exact absurd hrun (by simp [processSingleThread])
          | succ fuel => exact ⟨fuel, g', (hround fuel).symm.trans hrun⟩
        · rintro ⟨fuel, g', hrun⟩
          exact ⟨fuel + 1, g', (hround fuel).trans hrun⟩

theorem exists_processSingleThread {g : Globals H} (hfile : WellFormedFile g.file) (e : Entry) :
    ∃ fuel g', processSingleThread H fuel g e = some g' :=
  (exists_processSingleThread_iff g e).mpr hfile.readsFit

/-! ### One step of a worker -/

/-- The steps of `processLog`. -/
inductive WorkerStep : Globals H → Worker → Globals H → Worker → Prop where
  | eof {g : Globals H} {e : Entry} (hfile : g.file = []) :
    WorkerStep g { pc := .fgets, entry := e } g { pc := .returned, entry := e }
  | fgets {g : Globals H} {e : Entry} {buffer file : List Char}
    (hread : fgets BUFFER_SIZE g.file = some (buffer, file)) :
    WorkerStep g { pc := .fgets, entry := e }
      { g with file := file } { pc := .sscanf buffer, entry := e }
  | sscanf {g : Globals H} {e e' : Entry} {buffer : List Char}
    (hscan : scanEntry buffer e = some e') :
    WorkerStep g { pc := .sscanf buffer, entry := e } g { pc := .countIp, entry := e' }
  | countIp {g : Globals H} {e : Entry} :
    WorkerStep g { pc := .countIp, entry := e }
      { g with ipRequests := countIpRequest H g.ipRequests e.ip } { pc := .countUrl, entry := e }
  | countUrl {g : Globals H} {e : Entry} (herr : isError e.status = true) :
    WorkerStep g { pc := .countUrl, entry := e }
      { g with urlVisits := countUrlVisits H g.urlVisits e.url } { pc := .countErrors, entry := e }
  | countUrlLast {g : Globals H} {e : Entry} (herr : ¬ isError e.status = true) :
    WorkerStep g { pc := .countUrl, entry := e }
      { g with urlVisits := countUrlVisits H g.urlVisits e.url } { pc := .fgets, entry := e }
  | countErrors {g : Globals H} {e : Entry} :
    WorkerStep g { pc := .countErrors, entry := e }
      { g with errors := Threads.countErrors g.errors } { pc := .fgets, entry := e }

theorem processLog_cases {g g' : Globals H} {worker worker' : Worker}
    (h : processLog H g worker = some (g', worker')) : WorkerStep g worker g' worker' := by
  obtain ⟨pc, e⟩ := worker
  cases pc with
  | fgets =>
    cases hread : fgets BUFFER_SIZE g.file with
    | none =>
      simp only [processLog, hread, Option.some_inj, Prod.mk.injEq] at h
      obtain ⟨rfl, rfl⟩ := h
      exact .eof (fgets_eq_none.mp hread)
    | some p =>
      simp only [processLog, hread, Option.some_inj, Prod.mk.injEq] at h
      obtain ⟨rfl, rfl⟩ := h
      exact .fgets hread
  | sscanf buffer =>
    obtain ⟨e', hscan, heq⟩ := Option.map_eq_some_iff.mp h
    obtain ⟨rfl, rfl⟩ := Prod.mk.inj heq
    exact .sscanf hscan
  | countIp =>
    simp only [processLog, Option.some_inj, Prod.mk.injEq] at h
    obtain ⟨rfl, rfl⟩ := h
    exact .countIp
  | countUrl =>
    simp only [processLog, Option.some_inj, Prod.mk.injEq] at h
    obtain ⟨rfl, rfl⟩ := h
    split
    · exact .countUrl ‹_›
    · exact .countUrlLast ‹_›
  | countErrors =>
    simp only [processLog, Option.some_inj, Prod.mk.injEq] at h
    obtain ⟨rfl, rfl⟩ := h
    exact .countErrors
  | returned => exact absurd h (by simp [processLog])

/-- The invariant of the globals and of the updates that the workers hold. -/
def Balanced (total : Multiset Update) (g : Globals H) (pending : Multiset Update) : Prop :=
  WellFormedFile g.file ∧ ∃ made, Represents g made ∧ made + (pending + future g.file) = total

/-- The buffer of a worker is well-formed. -/
def Worker.Ok (worker : Worker) : Prop := ∀ buffer, worker.pc = .sscanf buffer → WellFormed buffer

/-- A step moves updates from the file to the worker, or from the worker to the statistics. -/
theorem processLog_balanced {total rest : Multiset Update} {g g' : Globals H}
    {worker worker' : Worker} (hstep : processLog H g worker = some (g', worker'))
    (hok : worker.Ok) (h : Balanced total g (held worker + rest)) :
    worker'.Ok ∧ Balanced total g' (held worker' + rest) := by
  obtain ⟨hfile, made, hmade, htotal⟩ := h
  cases processLog_cases hstep with
  | eof =>
    refine ⟨fun buffer hpc => ?_, hfile, made, hmade, htotal⟩
    exact absurd hpc (by simp)
  | @fgets e line file hread =>
    obtain ⟨hline, hfile', hfuture⟩ := fgets_wellFormed hfile hread
    refine ⟨fun buffer hpc => ?_, hfile', made, ⟨hmade.ip, hmade.url, hmade.errors⟩, ?_⟩
    · obtain rfl := Pc.sscanf.inj hpc
      exact hline
    · rw [← htotal, hfuture]
      show made + (updatesOf (entryOf line) + rest + future file)
        = made + (0 + rest + (updatesOf (entryOf line) + future file))
      abel
  | @sscanf e e' buffer hscan =>
    refine ⟨fun buffer' hpc => absurd hpc (by simp), hfile, made, hmade, ?_⟩
    rw [(hok buffer rfl).scanEntry_eq] at hscan
    obtain rfl := Option.some.inj hscan
    exact htotal
  | @countIp e =>
    refine ⟨fun buffer hpc => absurd hpc (by simp), hfile, _, hmade.countIp e.ip, ?_⟩
    rw [← htotal]
    show Update.ip e.ip ::ₘ made + (Update.url e.url ::ₘ errorOf e + rest + future g.file)
      = made + (updatesOf e + rest + future g.file)
    simp only [updatesOf, ← Multiset.singleton_add]
    abel
  | @countUrl e herr =>
    refine ⟨fun buffer hpc => absurd hpc (by simp), hfile, _, hmade.countUrl e.url, ?_⟩
    rw [← htotal]
    show Update.url e.url ::ₘ made + ({Update.error} + rest + future g.file)
      = made + (Update.url e.url ::ₘ errorOf e + rest + future g.file)
    simp only [errorOf, if_pos herr, ← Multiset.singleton_add]
    abel
  | @countUrlLast e herr =>
    refine ⟨fun buffer hpc => absurd hpc (by simp), hfile, _, hmade.countUrl e.url, ?_⟩
    rw [← htotal]
    show Update.url e.url ::ₘ made + (0 + rest + future g.file)
      = made + (Update.url e.url ::ₘ errorOf e + rest + future g.file)
    simp only [errorOf, if_neg herr, ← Multiset.singleton_add]
    abel
  | countErrors =>
    refine ⟨fun buffer hpc => absurd hpc (by simp), hfile, _, hmade.countErrors, ?_⟩
    rw [← htotal]
    show Update.error ::ₘ made + (0 + rest + future g.file)
      = made + ({Update.error} + rest + future g.file)
    simp only [← Multiset.singleton_add]
    abel

/-- Whether a worker has returned, as a number. -/
def Worker.returned (worker : Worker) : ℕ := if worker.pc = .returned then 1 else 0

/-- A worker returns when it finds the file at its end, and no worker reads on from there. -/
theorem processLog_returned {k : ℕ} {g g' : Globals H} {worker worker' : Worker}
    (hstep : processLog H g worker = some (g', worker'))
    (h : 0 < worker.returned + k → g.file = []) : 0 < worker'.returned + k → g'.file = [] := by
  intro hpos
  cases processLog_cases hstep with
  | eof hfile => exact hfile
  | fgets hread =>
    -- if another worker has returned, nothing was left to read
    have hempty := h hpos
    rw [fgets_eq_none.mpr hempty] at hread
    exact absurd hread (by simp)
  | sscanf => exact h hpos
  | countIp => exact h hpos
  | countUrl => exact h hpos
  | countUrlLast => exact h hpos
  | countErrors => exact h hpos

/-- How far a worker is from its next `fgets`. -/
def Pc.rank : Pc → ℕ
  | .fgets => 1
  | .sscanf _ => 5
  | .countIp => 4
  | .countUrl => 3
  | .countErrors => 2
  | .returned => 0

/-- A step takes from the file or brings the worker closer to its next `fgets`. -/
theorem processLog_decreases {g g' : Globals H} {worker worker' : Worker}
    (hstep : processLog H g worker = some (g', worker')) :
    5 * g'.file.length + worker'.pc.rank < 5 * g.file.length + worker.pc.rank := by
  cases processLog_cases hstep with
  | fgets hread =>
    have hlt := length_lt_of_fgets (by decide) hread
    simp only [Pc.rank]
    omega
  | eof => simp [Pc.rank]
  | sscanf => simp [Pc.rank]
  | countIp => simp [Pc.rank]
  | countUrl => simp [Pc.rank]
  | countUrlLast => simp [Pc.rank]
  | countErrors => simp [Pc.rank]

/-! ### All workers -/

/-- All workers have returned. -/
def AllReturned {n : ℕ} (σ : World (Fin n) (Globals H) Worker) : Prop :=
  ∀ i, (σ.workers i).pc = .returned

/-- A worker that has not returned can always go on. -/
theorem processLog_eq_none {g : Globals H} {worker : Worker} (hok : worker.Ok)
    (h : processLog H g worker = none) : worker.pc = .returned := by
  obtain ⟨pc, e⟩ := worker
  cases pc with
  | fgets => cases hread : fgets BUFFER_SIZE g.file <;> simp [processLog, hread] at h
  | returned => rfl
  | sscanf buffer =>
    exact absurd h (by simp [processLog, (hok buffer rfl).scanEntry_eq])
  | countIp => exact absurd h (by simp [processLog])
  | countUrl => exact absurd h (by simp [processLog])
  | countErrors => exact absurd h (by simp [processLog])

section Run

variable {n : ℕ} {file : List Char} (hfile : WellFormedFile file) {locals : Fin n → Entry}

include hfile

/-- The updates made and those to come are those of the file, in every world that is reached. -/
theorem processMultithread_balanced {σ : World (Fin n) (Globals H) Worker}
    (hrun : ReflTransGen (Interleaving (processLog H)) (processMultithread H file locals) σ) :
    (∀ i, (σ.workers i).Ok) ∧ Balanced (future file) σ.shared (∑ i, held (σ.workers i)) := by
  have hheld : ∑ i : Fin n, held ((processMultithread H file locals).workers i) = 0 :=
    Finset.sum_eq_zero fun i _ => rfl
  exact Interleaving.invariant held Worker.Ok (Balanced (future file)) processLog_balanced hrun
    (fun i buffer hpc => absurd hpc (by simp [processMultithread]))
    ⟨hfile, 0, represents_init file, by rw [hheld, zero_add, zero_add]; rfl⟩

/-- The workers can all return. -/
theorem exists_processMultithread (locals : Fin n → Entry) :
    ∃ σ, ReflTransGen (Interleaving (processLog H)) (processMultithread H file locals) σ ∧
      AllReturned σ := by
  have hwf : WellFounded fun σ' σ : World (Fin n) (Globals H) Worker =>
      Interleaving (processLog H) σ σ' :=
    Interleaving.wellFounded (fun g => 5 * g.file.length) (fun worker => worker.pc.rank)
      processLog_decreases
  obtain ⟨σ, hrun, hstopped⟩ := exists_stopped hwf (processMultithread H file locals)
  obtain ⟨hok, -⟩ := processMultithread_balanced hfile hrun
  exact ⟨σ, hrun, fun i => processLog_eq_none (hok i) (hstopped i)⟩

/-- When all workers have returned, the updates of the file have been made. -/
theorem processMultithread_represents (hn : 0 < n) {σ : World (Fin n) (Globals H) Worker}
    (hrun : ReflTransGen (Interleaving (processLog H)) (processMultithread H file locals) σ)
    (hreturned : AllReturned σ) : Represents σ.shared (future file) := by
  obtain ⟨-, -, made, hmade, htotal⟩ := processMultithread_balanced hfile hrun
  -- nothing is held, and nothing is left in the file
  have hdone : ∑ i, held (σ.workers i) = 0 :=
    Finset.sum_eq_zero fun i _ => by rw [held, hreturned i]
  have hcount : ∀ i : Fin n, (σ.workers i).returned = 1 := fun i => if_pos (hreturned i)
  obtain ⟨-, hempty⟩ :=
    Interleaving.invariant Worker.returned (fun _ => True) (fun g k => 0 < k → g.file = [])
      (fun hstep _ h => ⟨trivial, processLog_returned hstep h⟩) hrun (fun _ => trivial)
      (fun hpos => absurd hpos (by simp [processMultithread, Worker.returned]))
  have hrest : σ.shared.file = [] := by
    apply hempty
    rw [Finset.sum_congr rfl fun i _ => hcount i, ← Finset.card_eq_sum_ones, Finset.card_univ,
      Fintype.card_fin]
    exact hn
  rw [hdone, hrest, zero_add] at htotal
  have hnil : future [] = 0 := rfl
  rw [hnil, add_zero] at htotal
  rw [← htotal]
  exact hmade

end Run

/-! ### Agreement -/

/-- A line makes no update twice. -/
theorem nodup_updatesOf (e : Entry) : (updatesOf e).Nodup := by
  unfold updatesOf errorOf
  split <;> simp

/-- An update is made once for every entry that it is an update of. -/
theorem count_updates (es : List Entry) (u : Update) :
    ((es.map updatesOf).sum).count u = es.countP fun e => u ∈ updatesOf e := by
  induction es with
  | nil => rfl
  | cons e es ih =>
    rw [List.map_cons, List.sum_cons, Multiset.count_add, ih, List.countP_cons, add_comm,
      Multiset.count_eq_of_nodup (nodup_updatesOf _)]
    simp only [decide_eq_true_eq]

theorem count_future (file : List Char) (u : Update) :
    (future file).count u = (lines file).countP fun line => u ∈ updatesOf (entryOf line) := by
  have h := count_updates ((lines file).map entryOf) u
  rw [List.map_map, List.countP_map] at h
  exact h

theorem mem_updatesOf_ip {key : List Char} {e : Entry} : .ip key ∈ updatesOf e ↔ e.ip = key := by
  unfold updatesOf errorOf
  split <;> simp [eq_comm]

theorem mem_updatesOf_url {key : List Char} {e : Entry} :
    .url key ∈ updatesOf e ↔ e.url = key := by
  unfold updatesOf errorOf
  split <;> simp [eq_comm]

theorem mem_updatesOf_error {e : Entry} : .error ∈ updatesOf e ↔ isError e.status = true := by
  unfold updatesOf errorOf
  split <;> simp [*]

/-- Every line is counted once in each statistic that it belongs to. -/
structure CountsLines (g : Globals H) (file : List Char) : Prop where
  ip : ∀ key, H.get g.ipRequests key =
    tally ((lines file).countP fun line => (entryOf line).ip = key)
  url : ∀ key, H.get g.urlVisits key =
    tally ((lines file).countP fun line => (entryOf line).url = key)
  errors : g.errors =
    UInt16.ofNat ((lines file).countP fun line => isError (entryOf line).status)

/-- The updates of the file are counted. -/
theorem Represents.countsLines {g : Globals H} {file : List Char}
    (h : Represents g (future file)) : CountsLines g file where
  ip key := by
    rw [h.ip key, count_future]
    simp only [mem_updatesOf_ip]
  url key := by
    rw [h.url key, count_future]
    simp only [mem_updatesOf_url]
  errors := by
    rw [h.errors, count_future]
    simp only [mem_updatesOf_error, Bool.decide_eq_true]

/-- The same counts for every key and the same number of errors. -/
structure SameCounts (g g' : Globals H) : Prop where
  ip : ∀ key, H.get g.ipRequests key = H.get g'.ipRequests key
  url : ∀ key, H.get g.urlVisits key = H.get g'.urlVisits key
  errors : g.errors = g'.errors

theorem CountsLines.sameCounts {g g' : Globals H} {file : List Char} (h : CountsLines g file)
    (h' : CountsLines g' file) : SameCounts g g' where
  ip key := (h.ip key).trans (h'.ip key).symm
  url key := (h.url key).trans (h'.url key).symm
  errors := h.errors.trans h'.errors.symm

/-- **Multithreaded processing agrees with single-threaded processing**: however the steps of the
workers are interleaved, when all have returned the statistics are those of `process_single_thread`,
and no line has been dropped or counted twice.  The single thread returns, and the workers can
always return. -/
theorem multithread_agrees (H : HashTable (List Char) UInt32) {n : ℕ} (hn : 0 < n)
    (file : List Char) (hfile : WellFormedFile file) (locals : Fin n → Entry) (e : Entry) :
    (∃ fuel g, processSingleThread H fuel (Globals.init H file) e = some g) ∧
    (∃ σ, ReflTransGen (Interleaving (processLog H)) (processMultithread H file locals) σ ∧
      AllReturned σ) ∧
    ∀ fuel g, processSingleThread H fuel (Globals.init H file) e = some g →
      ∀ σ, ReflTransGen (Interleaving (processLog H)) (processMultithread H file locals) σ →
        AllReturned σ →
          SameCounts σ.shared g ∧ CountsLines σ.shared file ∧ CountsLines g file := by
  refine ⟨exists_processSingleThread hfile e, exists_processMultithread hfile locals, ?_⟩
  intro fuel g hsingle σ hrun hreturned
  have hmulti := (processMultithread_represents hfile hn hrun hreturned).countsLines
  have hone : Represents g (future file) := by
    have h := processSingleThread_represents (represents_init file) hfile hsingle
    rwa [add_zero] at h
  exact ⟨hmulti.sameCounts hone.countsLines, hmulti, hone.countsLines⟩

/-- Functions, as a hash table. -/
def functionTable : HashTable (List Char) UInt32 where
  Table := List Char → Option UInt32
  create := fun _ => none
  get table key := table key
  set table key value := update table key value
  get_create _ := rfl
  get_set_self _ _ _ := update_self ..
  get_set_of_ne _ _ _ _ h := update_of_ne h ..

/-- Two lines with one error between them. -/
def twoLines : List Char :=
  "10.0.0.1 - - [t] \"GET /a\" 404\n10.0.0.1 - - [t] \"GET /b\" 200\n".toList

theorem wellFormedFile_twoLines : WellFormedFile twoLines := by
  have hlines : lines twoLines = ["10.0.0.1 - - [t] \"GET /a\" 404\n".toList,
    "10.0.0.1 - - [t] \"GET /b\" 200\n".toList] := by decide
  intro line hline
  rw [hlines] at hline
  simp only [List.mem_cons, List.not_mem_nil, or_false] at hline
  obtain rfl | rfl := hline
  · exact ⟨by decide, "10.0.0.1".toList, "/a".toList, 404, by decide⟩
  · exact ⟨by decide, "10.0.0.1".toList, "/b".toList, 200, by decide⟩

theorem multithread_agrees_two :
    (∃ σ, ReflTransGen (Interleaving (processLog functionTable))
      (processMultithread functionTable twoLines fun _ : Fin 2 => entryOf []) σ ∧
        AllReturned σ) ∧
    ∀ σ, ReflTransGen (Interleaving (processLog functionTable))
      (processMultithread functionTable twoLines fun _ : Fin 2 => entryOf []) σ →
        AllReturned σ → functionTable.get σ.shared.ipRequests "10.0.0.1".toList = some 2 ∧
          σ.shared.errors = 1 := by
  obtain ⟨⟨fuel, g, hsingle⟩, hmulti, hagrees⟩ := multithread_agrees functionTable
    (show 0 < 2 by decide) twoLines wellFormedFile_twoLines (fun _ => entryOf []) (entryOf [])
  refine ⟨hmulti, fun σ hrun hreturned => ?_⟩
  obtain ⟨-, hcounts, -⟩ := hagrees fuel g hsingle σ hrun hreturned
  exact ⟨(hcounts.ip _).trans (by decide), hcounts.errors.trans (by decide)⟩

end OsLabs.Threads
