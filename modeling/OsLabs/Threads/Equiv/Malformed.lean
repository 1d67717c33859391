import OsLabs.Threads.Equiv.Agreement
import Mathlib.Algebra.BigOperators.Group.Finset.Basic

/-!
# Malformed lines

`parse_log_entry` does not look at the result of `sscanf`, so a line that is not in the entry format
is counted with the last IP, URL and status that were read (`counted_eq`).  Every read of the file
makes one update of `ip_requests`; inserting lines adds reads, so the counts change
(`malformed_lines_counted`), unless at least `2^32` reads are added and the counters wrap around to
the same values (`WrapsAround`).
-/

namespace OsLabs.Threads

/-! ### Inserted lines -/

/-- A line that does not match the entry format. -/
def Malformed (line : List Char) : Prop :=
  ¬∃ ip url status, sscanf line ENTRY_FORMAT = [.str ip, .str url, .int status]

/-- `full` is `base` with malformed lines inserted. -/
inductive Inserted : List (List Char) → List (List Char) → Prop where
  | nil : Inserted [] []
  | keep {base full : List (List Char)} (line : List Char) :
    Inserted base full → Inserted (line :: base) (line :: full)
  | insert {base full : List (List Char)} {line : List Char} :
    Malformed line → Inserted base full → Inserted base (line :: full)

/-- Without new lines, an insertion adds no reads. -/
theorem Inserted.length_buffers {base full : List (List Char)} (h : Inserted base full)
    (hne : ∀ line ∈ full, line ≠ []) : full = base ∨
      (base.flatMap buffers).length < (full.flatMap buffers).length := by
  induction h with
  | nil => exact Or.inl rfl
  | keep line _ ih =>
    rcases ih fun other hother => hne other (List.mem_cons_of_mem line hother) with rfl | hlt
    · exact Or.inl rfl
    · right
      rw [List.flatMap_cons, List.flatMap_cons, List.length_append, List.length_append]
      omega
  | @insert base full line _ _ ih =>
    right
    -- the inserted line takes at least one read
    have hpos : 0 < (buffers line).length :=
      List.length_pos_of_ne_nil (reads_ne_nil (by decide) (hne line List.mem_cons_self))
    rw [List.flatMap_cons, List.length_append]
    rcases ih fun other hother => hne other (List.mem_cons_of_mem line hother) with rfl | hlt
    · omega
    · omega

/-- An inserted line is read. -/
theorem length_buffers_lt {base full : List Char} (h : Inserted (lines base) (lines full))
    (hne : full ≠ base) : (buffers base).length < (buffers full).length := by
  rw [buffers, buffers, reads_eq_flatMap, reads_eq_flatMap]
  rcases h.length_buffers fun line => ne_nil_of_mem_lines with heq | hlt
  · rw [← flatten_lines full, ← flatten_lines base, heq] at hne
    exact absurd rfl hne
  · exact hlt

/-! ### What is counted -/

/-- The last value that `field` has in what was read. -/
def lastField {α : Type} (field : Fields → Option α) (bs : List (List Char)) : Option α :=
  (bs.filterMap fun buffer => field (fieldsOf buffer)).getLast?

/-- The number of reads of the file up to which `key` is the last IP, with the locals `e` at
first. -/
def ipReads (file : List Char) (e : Entry) (key : List Char) : ℕ :=
  (buffers file).inits.tail.countP fun bs => (lastField Fields.ip bs).getD e.ip = key

/-- The number of reads of the file up to which `key` is the last URL. -/
def urlReads (file : List Char) (e : Entry) (key : List Char) : ℕ :=
  (buffers file).inits.tail.countP fun bs => (lastField Fields.url bs).getD e.url = key

/-- The number of reads of the file up to which the last status is that of an error. -/
def errorReads (file : List Char) (e : Entry) : ℕ :=
  (buffers file).inits.tail.countP fun bs =>
    isError (((lastField Fields.status bs).map UInt16.ofInt).getD e.status)

/-- The entries in the locals after each read. -/
def counted (e : Entry) : List (List Char) → List Entry
  | [] => []
  | buffer :: rest =>
    (fieldsOf buffer).store e :: counted ((fieldsOf buffer).store e) rest

theorem length_counted (e : Entry) (bs : List (List Char)) : (counted e bs).length = bs.length := by
  induction bs generalizing e with
  | nil => rfl
  | cons buffer rest ih => rw [counted, List.length_cons, List.length_cons, ih]

/-- The entries counted in a file, with the locals `e` at first. -/
def entries (file : List Char) (e : Entry) : List Entry := counted e (buffers file)

/-- The first read counts only when no other has the field. -/
theorem lastField_cons {α : Type} (field : Fields → Option α) (buffer : List Char)
    (bs : List (List Char)) :
    lastField field (buffer :: bs) = (lastField field bs).or (field (fieldsOf buffer)) := by
  unfold lastField
  rw [List.filterMap_cons]
  cases field (fieldsOf buffer) with
  | none => rw [Option.or_none]
  | some x =>
    rw [List.getLast?_cons]
    cases (bs.filterMap fun buffer => field (fieldsOf buffer)).getLast? <;> rfl

/-- The locals hold the last IP, URL and status that were read. -/
theorem counted_eq (e : Entry) (bs : List (List Char)) :
    counted e bs = bs.inits.tail.map fun read =>
      { ip := (lastField Fields.ip read).getD e.ip
        url := (lastField Fields.url read).getD e.url
        status := ((lastField Fields.status read).map UInt16.ofInt).getD e.status } := by
  induction bs generalizing e with
  | nil => rfl
  | cons buffer rest ih =>
    have hinits : rest.inits = [] :: rest.inits.tail := by cases rest <;> rfl
    rw [counted, ih, List.inits_cons, List.tail_cons, hinits, List.map_cons, List.map_cons,
      List.tail_cons, List.map_map]
    simp only [Function.comp_def, lastField_cons, Option.getD_or, Option.map_or]
    rfl

theorem countP_entries_ip (file : List Char) (e : Entry) (key : List Char) :
    ((entries file e).countP fun entry => entry.ip = key) = ipReads file e key := by
  rw [entries, counted_eq, List.countP_map]
  rfl

theorem countP_entries_url (file : List Char) (e : Entry) (key : List Char) :
    ((entries file e).countP fun entry => entry.url = key) = urlReads file e key := by
  rw [entries, counted_eq, List.countP_map]
  rfl

theorem countP_entries_error (file : List Char) (e : Entry) :
    ((entries file e).countP fun entry => isError entry.status) = errorReads file e := by
  rw [entries, counted_eq, List.countP_map]
  rfl

variable {H : HashTable (List Char) UInt32}

/-- The loop makes the updates of the entries in the locals, whether or not a line has changed
them. -/
theorem processSingleThread_counted {fuel : ℕ} {g g' : Globals H} {e : Entry}
    {made : Multiset Update} (h : Represents g made)
    (hrun : processSingleThread H fuel g e = some g') :
    Represents g' (((entries g.file e).map updatesOf).sum + made) := by
  induction fuel generalizing g e made with
  | zero => exact absurd hrun (by simp [processSingleThread])
  | succ fuel ih =>
    unfold processSingleThread parseLogEntry at hrun
    cases hread : fgets BUFFER_SIZE g.file with
    | none =>
      simp only [hread, Option.some_inj] at hrun
      rw [entries, fgets_eq_none.mp hread, buffers_nil, ← hrun]
      simpa [counted] using h
    | some p =>
      obtain ⟨buffer, rest⟩ := p
      cases hscan : scanEntry buffer e with
      | none => simp [hread, hscan] at hrun
      | some e' =>
        simp only [hread, hscan] at hrun
        obtain ⟨-, rfl⟩ := scanEntry_eq_some.mp hscan
        -- what is counted is in the locals after this `sscanf`, whatever it matched
        have hread' : Represents { g with file := rest } made := ⟨h.ip, h.url, h.errors⟩
        have hdone := ih (hread'.countEntry ((fieldsOf buffer).store e)) hrun
        simp only [apply_ite Globals.file, ite_self] at hdone
        rw [entries, buffers_of_fgets hread, counted, List.map_cons, List.sum_cons,
          add_comm (updatesOf _), add_assoc]
        exact hdone

/-- The statistics after the loop. -/
structure Counted (g : Globals H) (file : List Char) (e : Entry) : Prop where
  ip : ∀ key, H.get g.ipRequests key = tally (ipReads file e key)
  url : ∀ key, H.get g.urlVisits key = tally (urlReads file e key)
  errors : g.errors = UInt16.ofNat (errorReads file e)

/-- The statistics in terms of the reads. -/
theorem processSingleThread_statistics {fuel : ℕ} {g : Globals H} {file : List Char} {e : Entry}
    (hrun : processSingleThread H fuel (Globals.init H file) e = some g) : Counted g file e := by
  have h := processSingleThread_counted (represents_init file) hrun
  rw [add_zero] at h
  refine ⟨fun key => ?_, fun key => ?_, ?_⟩
  · rw [h.ip key, count_updates, ← countP_entries_ip]
    simp only [mem_updatesOf_ip]
    rfl
  · rw [h.url key, count_updates, ← countP_entries_url]
    simp only [mem_updatesOf_url]
    rfl
  · rw [h.errors, count_updates, ← countP_entries_error]
    simp only [mem_updatesOf_error, Bool.decide_eq_true]
    rfl

/-! ### The same statistics -/

/-- A 32-bit counter does not tell these counts apart. -/
def SameCounter (a b : ℕ) : Prop := (a = 0 ↔ b = 0) ∧ a % 2 ^ 32 = b % 2 ^ 32

/-- A counter tells how often its key was counted, up to the wrap-around. -/
theorem tally_inj {a b : ℕ} : tally a = tally b ↔ SameCounter a b := by
  have hofNat : UInt32.ofNat a = UInt32.ofNat b ↔ a % 2 ^ 32 = b % 2 ^ 32 := by
    rw [← UInt32.toNat_inj, UInt32.toNat_ofNat', UInt32.toNat_ofNat']
  unfold tally SameCounter
  by_cases ha : a = 0 <;> by_cases hb : b = 0 <;> simp [ha, hb, hofNat]

/-- Keys that are counted alike, up to multiples of `m`, are as many, up to a multiple of `m`. -/
theorem length_mod_eq {α : Type*} [DecidableEq α] (keys keys' : List α) {m : ℕ}
    (h : ∀ key, keys.countP (· = key) % m = keys'.countP (· = key) % m) :
    keys.length % m = keys'.length % m := by
  -- a list has as many elements as its counts have in total
  have hsum (s : Finset α) (l : List α) (hsub : ∀ key ∈ l, key ∈ s) :
      ∑ key ∈ s, l.countP (· = key) = l.length := by
    induction l with
    | nil => simp
    | cons first l ih =>
      have hfirst : first ∈ s := hsub first List.mem_cons_self
      have hrest := ih fun key hkey => hsub key (List.mem_cons_of_mem first hkey)
      simp [List.countP_cons, Finset.sum_add_distrib, hrest, hfirst]
  rw [← hsum (keys ++ keys').toFinset keys (by simp +contextual),
    ← hsum (keys ++ keys').toFinset keys' (by simp +contextual), Finset.sum_nat_mod,
    Finset.sum_nat_mod _ _ fun key => keys'.countP (· = key)]
  simp only [h]

/-- The statistics of `full` are those of `base`: both files are processed to their ends, and the
counts are the same. -/
structure Unchanged (H : HashTable (List Char) UInt32) (base full : List Char) (e : Entry) :
    Prop where
  base_returns : ∃ fuel g, processSingleThread H fuel (Globals.init H base) e = some g
  full_returns : ∃ fuel g, processSingleThread H fuel (Globals.init H full) e = some g
  same : ∀ fuel g, processSingleThread H fuel (Globals.init H base) e = some g →
    ∀ fuel' g', processSingleThread H fuel' (Globals.init H full) e = some g' → SameCounts g' g

/-- The lines that were inserted add a positive multiple of `2^32` reads, such that every key is the
last one at as many reads modulo `2^32`, and at none if and only if at none, and the last status is
that of an error at as many reads modulo `2^16`. -/
structure WrapsAround (base full : List Char) (e : Entry) : Prop where
  fit : ReadsFit full
  many : ∃ k > 0, (buffers full).length = (buffers base).length + k * 2 ^ 32
  ip : ∀ key, SameCounter (ipReads full e key) (ipReads base e key)
  url : ∀ key, SameCounter (urlReads full e key) (urlReads base e key)
  errors : errorReads full e % 2 ^ 16 = errorReads base e % 2 ^ 16

theorem Counted.sameCounts_iff {g g' : Globals H} {base full : List Char} {e : Entry}
    (h : Counted g base e) (h' : Counted g' full e) : SameCounts g' g ↔
      (∀ key, SameCounter (ipReads full e key) (ipReads base e key)) ∧
      (∀ key, SameCounter (urlReads full e key) (urlReads base e key)) ∧
      errorReads full e % 2 ^ 16 = errorReads base e % 2 ^ 16 := by
  have herrors : g'.errors = g.errors ↔
      errorReads full e % 2 ^ 16 = errorReads base e % 2 ^ 16 := by
    rw [h.errors, h'.errors, ← UInt16.toNat_inj, UInt16.toNat_ofNat', UInt16.toNat_ofNat']
  simp only [← tally_inj, ← h.ip, ← h'.ip, ← h.url, ← h'.url, ← herrors]
  constructor
  · intro hsame
    exact ⟨hsame.ip, hsame.url, hsame.errors⟩
  · rintro ⟨hip, hurl, herr⟩
    exact ⟨hip, hurl, herr⟩

/-- The reads of the two files differ by a multiple of `2^32` when the counts of the IPs agree. -/
theorem length_buffers_mod {base full : List Char} {e : Entry}
    (h : ∀ key, SameCounter (ipReads full e key) (ipReads base e key)) :
    (buffers full).length % 2 ^ 32 = (buffers base).length % 2 ^ 32 := by
  have hmod := length_mod_eq ((entries full e).map Entry.ip) ((entries base e).map Entry.ip)
    (m := 2 ^ 32) fun key => by
      rw [List.countP_map, List.countP_map]
      exact (countP_entries_ip full e key).symm ▸ (countP_entries_ip base e key).symm ▸ (h key).2
  rwa [List.length_map, List.length_map, entries, entries, length_counted, length_counted] at hmod

/-- Both files are processed, and a line that was inserted is seen unless the counters wrap
around. -/
theorem unchanged_iff (H : HashTable (List Char) UInt32) {base full : List Char}
    (h : Inserted (lines base) (lines full)) (e : Entry) :
    Unchanged H base full e ↔ ReadsFit base ∧ (full = base ∨ WrapsAround base full e) := by
  constructor
  · rintro ⟨⟨fuel, g, hrun⟩, ⟨fuel', g', hrun'⟩, hsame⟩
    have hbase := (exists_processSingleThread_iff _ e).mp ⟨fuel, g, hrun⟩
    have hfull := (exists_processSingleThread_iff _ e).mp ⟨fuel', g', hrun'⟩
    obtain ⟨hip, hurl, herrors⟩ := ((processSingleThread_statistics hrun).sameCounts_iff
      (processSingleThread_statistics hrun')).mp (hsame fuel g hrun fuel' g' hrun')
    refine ⟨hbase, ?_⟩
    by_cases heq : full = base
    · exact .inl heq
    · -- a line was inserted: there are more reads, and as many modulo `2^32`
      have hlt := length_buffers_lt h heq
      have hmod := length_buffers_mod hip
      obtain ⟨k, hk⟩ := (Nat.modEq_iff_dvd' hlt.le).mp hmod.symm
      refine .inr ⟨hfull, ⟨k, ?_, by omega⟩, hip, hurl, herrors⟩
      by_contra hzero
      omega
  · rintro ⟨hbase, hcases⟩
    have hcounts : ReadsFit full ∧
        (∀ key, SameCounter (ipReads full e key) (ipReads base e key)) ∧
        (∀ key, SameCounter (urlReads full e key) (urlReads base e key)) ∧
        errorReads full e % 2 ^ 16 = errorReads base e % 2 ^ 16 := by
      obtain rfl | hwraps := hcases
      · exact ⟨hbase, fun key => ⟨Iff.rfl, rfl⟩, fun key => ⟨Iff.rfl, rfl⟩, rfl⟩
      · exact ⟨hwraps.fit, hwraps.ip, hwraps.url, hwraps.errors⟩
    obtain ⟨hfull, hcounts⟩ := hcounts
    refine ⟨(exists_processSingleThread_iff _ e).mpr hbase,
      (exists_processSingleThread_iff _ e).mpr hfull, fun fuel g hrun fuel' g' hrun' => ?_⟩
    exact ((processSingleThread_statistics hrun).sameCounts_iff
      (processSingleThread_statistics hrun')).mpr hcounts

/-- **Malformed lines are counted**: when fewer than `2^32` reads are added, the statistics are
those of the file without the malformed lines if and only if that file can be processed and no line
was inserted.  Otherwise the counters may also wrap around. -/
theorem malformed_lines_counted (H : HashTable (List Char) UInt32) (base full : List Char)
    (h : Inserted (lines base) (lines full)) (e : Entry) :
    ((buffers full).length < (buffers base).length + 2 ^ 32 →
      (Unchanged H base full e ↔ ReadsFit base ∧ full = base)) ∧
    (Unchanged H base full e ↔ ReadsFit base ∧ (full = base ∨ WrapsAround base full e)) := by
  have hiff := unchanged_iff H h e
  refine ⟨fun hfew => ?_, hiff⟩
  have hnot : ¬WrapsAround base full e := by
    intro hwraps
    obtain ⟨k, hk, hmany⟩ := hwraps.many
    omega
  rw [hiff, or_iff_left hnot]

/-- A line of the log. -/
def logLine : List Char := "10.0.0.1 - - [t] \"GET /a\" 404\n".toList

/-- The line and a blank one. -/
def logLineBlank : List Char := "10.0.0.1 - - [t] \"GET /a\" 404\n\n".toList

theorem inserted_logLineBlank : Inserted (lines logLine) (lines logLineBlank) := by
  have hbase : lines logLine = [logLine] := by decide
  have hfull : lines logLineBlank = [logLine, ['\n']] := by decide
  have hblank : Malformed ['\n'] := by
    rintro ⟨ip, url, status, hscan⟩
    have hnil : sscanf ['\n'] ENTRY_FORMAT = [] := by decide
    rw [hnil] at hscan
    exact absurd hscan (by simp)
  rw [hbase, hfull]
  exact .keep logLine (.insert hblank .nil)

/-- One read more, so a blank line is seen. -/
theorem malformed_lines_counted_blank :
    (buffers logLineBlank).length < (buffers logLine).length + 2 ^ 32 ∧
    (Unchanged functionTable logLine logLineBlank (entryOf []) ↔
      ReadsFit logLine ∧ logLineBlank = logLine) ∧
    (Unchanged functionTable logLine logLineBlank (entryOf []) ↔ ReadsFit logLine ∧
      (logLineBlank = logLine ∨ WrapsAround logLine logLineBlank (entryOf []))) := by
  obtain ⟨hfew, hall⟩ :=
    malformed_lines_counted functionTable logLine logLineBlank inserted_logLineBlank (entryOf [])
  have hbase : buffers logLine = lines logLine := reads_eq_lines _ (by decide)
  have hfull : buffers logLineBlank = lines logLineBlank := reads_eq_lines _ (by decide)
  have hlt : (buffers logLineBlank).length < (buffers logLine).length + 2 ^ 32 := by
    rw [hbase, hfull]
    decide
  exact ⟨hlt, hfew hlt, hall⟩

/-- The blank line is counted as another error. -/
theorem not_malformed_unchanged : ¬∀ (H : HashTable (List Char) UInt32) (base full : List Char),
    Inserted (lines base) (lines full) → ∀ (e : Entry) (fuel : ℕ) (g : Globals H),
      processSingleThread H fuel (Globals.init H base) e = some g →
        ∀ (fuel' : ℕ) (g' : Globals H),
          processSingleThread H fuel' (Globals.init H full) e = some g' → SameCounts g' g := by
  intro hall
  obtain ⟨g, hrun, herrors⟩ : ∃ g, processSingleThread functionTable 2
      (Globals.init functionTable logLine) (entryOf []) = some g ∧ g.errors = 1 :=
    ⟨_, rfl, by decide⟩
  obtain ⟨g', hrun', herrors'⟩ : ∃ g, processSingleThread functionTable 3
      (Globals.init functionTable logLineBlank) (entryOf []) = some g ∧ g.errors = 2 :=
    ⟨_, rfl, by decide⟩
  have hsame := hall functionTable logLine logLineBlank inserted_logLineBlank (entryOf []) 2 g hrun
    3 g' hrun'
  have herr := hsame.errors
  rw [herrors, herrors'] at herr
  exact absurd herr (by decide)

end OsLabs.Threads
