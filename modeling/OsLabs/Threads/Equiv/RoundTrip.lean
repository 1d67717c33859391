import OsLabs.Lib.Numerals
import OsLabs.Threads.Equiv.Malformed

/-!
# Log entries written and read back

A `Record` is written as a line by `access_log_file_generator.py`.  `sscanf` reads the three fields
back from the whole line (`sscanf_line`), and it is given whole lines if and only if each of them
fits the buffer of 100 characters (`calls_logFile_iff`).
-/

namespace OsLabs.Threads

/-! ### Records -/

/-- What the generator writes in a line. -/
structure Record where
  ip : List Char
  timestamp : List Char
  method : List Char
  url : List Char
  status : ℕ
  ip_length : 1 ≤ ip.length ∧ ip.length ≤ 15
  ip_visible : ∀ c ∈ ip, Visible c
  timestamp_visible : ∀ c ∈ timestamp, Visible c
  method_length : 1 ≤ method.length ∧ method.length ≤ 16
  method_visible : ∀ c ∈ method, Visible c
  url_length : 1 ≤ url.length ∧ url.length ≤ 255
  url_text : ∀ c ∈ url, c ≠ '"' ∧ c ≠ '\n' ∧ c ≠ Char.ofNat 0
  url_head : ∀ c ∈ url.head?, ¬isSpace c
  status_range : 100 ≤ status ∧ status ≤ 599

/-- `f'{ip} - - [{timestamp}] "{method} {url}" {status}'` -/
def Record.text (r : Record) : List Char :=
  r.ip ++ " - - [".toList ++ r.timestamp ++ "] \"".toList ++ r.method ++ " ".toList ++ r.url
    ++ "\" ".toList ++ Nat.toDigits 10 r.status

/-- The text and a newline. -/
def Record.line (r : Record) : List Char := r.text ++ ['\n']

/-- The log file of a list of records. -/
def logFile (records : List Record) : List Char := (records.map Record.line).flatten

/-- What is to be read back. -/
def Record.entry (r : Record) : Entry where
  ip := r.ip
  url := r.url
  status := .ofNat r.status

/-! ### Reading one line -/

theorem visible_of_isDigit {c : Char} (h : c.isDigit) : Visible c := by
  have hdigit := isDigit_iff.mp h
  constructor
  · intro hspace
    rw [isSpace_iff] at hspace
    omega
  · rintro rfl
    exact absurd h (by decide)

/-- The characters of a line. -/
theorem Record.mem_text {r : Record} {c : Char} (hc : c ∈ r.text) :
    c ≠ '\n' ∧ c ≠ Char.ofNat 0 := by
  have hvisible (h : Visible c) : c ≠ '\n' ∧ c ≠ Char.ofNat 0 := by
    refine ⟨?_, h.2⟩
    rintro rfl
    exact h.1 (by decide)
  have hfixed (s : List Char) (hs : '\n' ∉ s ∧ Char.ofNat 0 ∉ s) (h : c ∈ s) :
      c ≠ '\n' ∧ c ≠ Char.ofNat 0 :=
    ⟨fun heq => hs.1 (heq ▸ h), fun heq => hs.2 (heq ▸ h)⟩
  simp only [Record.text, List.mem_append] at hc
  rcases hc with (((((((h | h) | h) | h) | h) | h) | h) | h) | h
  · exact hvisible (r.ip_visible c h)
  · exact hfixed _ (by decide) h
  · exact hvisible (r.timestamp_visible c h)
  · exact hfixed _ (by decide) h
  · exact hvisible (r.method_visible c h)
  · exact hfixed _ (by decide) h
  · exact (r.url_text c h).2
  · exact hfixed _ (by decide) h
  · exact hvisible (visible_of_isDigit (isDigit_toDigits h))

/-- `sscanf` reads the three fields back. -/
theorem Record.sscanf_line (r : Record) :
    sscanf r.line ENTRY_FORMAT = [.str r.ip, .str r.url, .int r.status] := by
  have hwhole : r.line.takeWhile (· ≠ Char.ofNat 0) = r.line := by
    refine List.takeWhile_eq_self_iff.mpr fun c hc => ?_
    rw [decide_eq_true_eq]
    rcases List.mem_append.mp hc with hc | hc
    · exact (mem_text hc).2
    · obtain rfl := List.mem_singleton.mp hc
      decide
  have hip : r.ip ≠ [] := List.ne_nil_of_length_pos r.ip_length.1
  have hmethod : r.method ≠ [] := List.ne_nil_of_length_pos r.method_length.1
  have hurl : r.url ≠ [] := List.ne_nil_of_length_pos r.url_length.1
  have hstamp : ∀ c ∈ '[' :: r.timestamp ++ [']'], Visible c := by
    have hleft : Visible '[' := ⟨by decide, by decide⟩
    have hright : Visible ']' := ⟨by decide, by decide⟩
    intro c hc
    rcases List.mem_append.mp hc with hc | hc
    · rcases List.mem_cons.mp hc with rfl | hc
      · exact hleft
      · exact r.timestamp_visible c hc
    · obtain rfl := List.mem_singleton.mp hc
      exact hright
  have hquote : '"' ∉ r.url := fun hmem => (r.url_text _ hmem).1 rfl
  have hhead (cs : List Char) : ∀ c ∈ (r.url ++ cs).head?, ¬isSpace c := by
    intro c hc
    obtain ⟨d, url, hcons⟩ := List.exists_cons_of_ne_nil hurl
    rw [hcons] at hc
    exact r.url_head c (by rw [hcons]; exact hc)
  have hdigit : (Nat.toDigits 10 r.status ++ ['\n']).dropWhile isSpace
      = Nat.toDigits 10 r.status ++ ['\n'] :=
    dropWhile_word (fun c hc => visible_of_isDigit (isDigit_toDigits hc)) Nat.toDigits_ne_nil
  have hnewline : ∀ c ∈ ['\n'].head?, ¬c.isDigit := by
    intro c hc
    obtain rfl := Option.some.inj hc
    decide
  have hstatus := scanInt_toDigits r.status hnewline
  -- the fields and what stands between them
  have hline : r.line = r.ip ++ ' ' :: '-' :: ' ' :: '-' :: ' ' :: (('[' :: r.timestamp ++ [']'])
      ++ ' ' :: '"' :: (r.method ++ ' ' :: (r.url
      ++ '"' :: ' ' :: (Nat.toDigits 10 r.status ++ ['\n'])))) := by
    simp [Record.line, Record.text]
  have hopen (rest : List Char) :
      ∀ c ∈ (('[' :: r.timestamp ++ [']']) ++ rest).head?, ¬isSpace c := by
    intro c hc
    obtain rfl := Option.some.inj hc
    decide
  rw [sscanf, hwhole, hline, ENTRY_FORMAT,
    scan_word r.ip_visible hip (endsWord_blank _) (r.ip_length.2.trans (by decide)),
    scan_space_cons (by decide), scan_lit, scan_space_cons (by decide), scan_lit,
    scan_space (hopen _), scan_word_skip hstamp (by simp) (endsWord_blank _),
    scan_space_cons (by decide), scan_lit,
    scan_word_skip r.method_visible hmethod (endsWord_blank _), scan_space (hhead _),
    scan_upTo hquote hurl (r.url_length.2.trans (by decide)), scan_lit, scan,
    List.dropWhile_cons_of_pos (by decide), hdigit, scan, hdigit, hstatus]
  rfl

theorem Record.fieldsOf_line (r : Record) :
    fieldsOf r.line = { ip := some r.ip, url := some r.url, status := some r.status } := by
  rw [fieldsOf, r.sscanf_line]

/-- The locals have room for the fields of a record. -/
theorem Record.fit_line (r : Record) : (fieldsOf r.line).Fit := by
  have hip : r.ip.length < IP_SIZE := Nat.lt_succ_of_le r.ip_length.2
  have hurl : r.url.length < URL_SIZE := Nat.lt_succ_of_le r.url_length.2
  have hstatus := r.status_range
  rw [r.fieldsOf_line]
  refine ⟨fun s hs => Option.some.inj hs ▸ hip, fun s hs => Option.some.inj hs ▸ hurl,
    fun v hv => ?_⟩
  obtain rfl := Option.some.inj hv
  omega

/-- Reading the line leaves nothing of what the locals held. -/
theorem Record.store_line (r : Record) (e : Entry) : (fieldsOf r.line).store e = r.entry := by
  have hstatus : UInt16.ofInt (r.status : ℤ) = .ofNat r.status := by
    have := r.status_range
    apply UInt16.toNat_inj.mp
    unfold UInt16.ofInt
    rw [UInt16.toNat_ofNat', UInt16.toNat_ofNat']
    omega
  rw [r.fieldsOf_line]
  show Entry.mk r.ip r.url (UInt16.ofInt r.status) = _
  rw [hstatus]
  rfl

/-! ### Reading the file -/

/-- Successive calls of `parse_log_entry` return 1 with these entries, and then 0. -/
inductive Calls : List Char → Entry → List Entry → Prop where
  | last {file : List Char} {e : Entry} (h : parseLogEntry file e = .eof) : Calls file e []
  | call {file rest : List Char} {e e' : Entry} {es : List Entry}
    (h : parseLogEntry file e = .entry rest e') (hrest : Calls rest e' es) :
    Calls file e (e' :: es)

/-- `parse_log_entry` returns 1. -/
theorem parseLogEntry_eq_entry {file rest : List Char} {e e' : Entry} :
    parseLogEntry file e = .entry rest e' ↔
      ∃ buffer, fgets BUFFER_SIZE file = some (buffer, rest) ∧ scanEntry buffer e = some e' := by
  unfold parseLogEntry
  cases hread : fgets BUFFER_SIZE file with
  | none => simp
  | some p =>
    obtain ⟨buffer, rest'⟩ := p
    cases hscan : scanEntry buffer e <;> simp [hscan, and_comm]

/-- It returns 0 at the end of the file. -/
theorem parseLogEntry_eq_eof {file : List Char} {e : Entry} :
    parseLogEntry file e = .eof ↔ file = [] := by
  unfold parseLogEntry
  cases hread : fgets BUFFER_SIZE file with
  | none => exact iff_of_true rfl (fgets_eq_none.mp hread)
  | some p =>
    refine iff_of_false ?_ fun hnil => ?_
    · cases hscan : scanEntry p.1 e <;> simp [hscan]
    · rw [fgets_eq_none.mpr hnil] at hread
      exact absurd hread nofun

/-- There is a call for each read of the file. -/
theorem Calls.eq_entries {file : List Char} {e : Entry} {es : List Entry} (h : Calls file e es) :
    es = entries file e := by
  induction h with
  | last h =>
    rw [parseLogEntry_eq_eof.mp h, entries, buffers_nil]
    rfl
  | call h _ ih =>
    obtain ⟨buffer, hread, hscan⟩ := parseLogEntry_eq_entry.mp h
    obtain ⟨-, rfl⟩ := scanEntry_eq_some.mp hscan
    rw [entries, buffers_of_fgets hread, ih]
    rfl

/-- The calls of a file for which the locals have room. -/
theorem calls_entries {file : List Char} (hfit : ReadsFit file) (e : Entry) :
    Calls file e (entries file e) := by
  induction hlen : file.length using Nat.strongRecOn generalizing file e with
  | _ len ih =>
    cases hread : fgets BUFFER_SIZE file with
    | none =>
      have hnil := fgets_eq_none.mp hread
      have hentries : entries file e = [] := by
        rw [hnil, entries, buffers_nil]
        rfl
      rw [hentries]
      exact .last (parseLogEntry_eq_eof.mpr hnil)
    | some p =>
      obtain ⟨buffer, rest⟩ := p
      rw [ReadsFit, buffers_of_fgets hread, List.forall_mem_cons] at hfit
      have hcall : parseLogEntry file e = .entry rest ((fieldsOf buffer).store e) :=
        parseLogEntry_eq_entry.mpr ⟨buffer, hread, scanEntry_eq_some.mpr ⟨hfit.1, rfl⟩⟩
      have hlt := length_lt_of_fgets (by decide) hread
      rw [entries, buffers_of_fgets hread]
      exact .call hcall (ih rest.length (hlen ▸ hlt) hfit.2 _ rfl)

theorem lines_logFile (records : List Record) :
    lines (logFile records) = records.map Record.line := by
  refine lines_of_flatten fun line hline => ?_
  obtain ⟨r, -, rfl⟩ := List.mem_map.mp hline
  exact ⟨r.text, fun hmem => (Record.mem_text hmem).1 rfl, rfl⟩

theorem counted_lines (records : List Record) (e : Entry) :
    counted e (records.map Record.line) = records.map Record.entry := by
  induction records generalizing e with
  | nil => rfl
  | cons r records ih => rw [List.map_cons, counted, r.store_line, ih, List.map_cons]

/-- As many calls as lines, and so as many reads: no line was split. -/
theorem fits_of_calls {records : List Record} {e : Entry}
    (h : Calls (logFile records) e (records.map Record.entry)) :
    ∀ r ∈ records, r.line.length < BUFFER_SIZE := by
  have hlen := congrArg List.length h.eq_entries
  rw [List.length_map, entries, length_counted] at hlen
  have hfits : ∀ line ∈ lines (logFile records), line.length < BUFFER_SIZE := by
    refine (length_reads_iff (by decide) (logFile records)).mp ?_
    rw [lines_logFile, List.length_map, hlen]
    rfl
  rwa [lines_logFile, List.forall_mem_map] at hfits

/-- **Log entry round trip**: the records are read back, one call for each line, if and only if no
line is longer than the 99 characters that the buffer has room for. -/
theorem calls_logFile_iff (records : List Record) (e : Entry) :
    Calls (logFile records) e (records.map Record.entry) ↔
      ∀ r ∈ records, r.line.length < BUFFER_SIZE := by
  refine ⟨fits_of_calls, fun hfits => ?_⟩
  have hlines : ∀ line ∈ lines (logFile records), line.length < BUFFER_SIZE := by
    rw [lines_logFile]
    exact List.forall_mem_map.mpr hfits
  have hbuffers : buffers (logFile records) = records.map Record.line := by
    rw [buffers, reads_eq_lines _ hlines, lines_logFile]
  have hfit : ReadsFit (logFile records) := by
    rw [ReadsFit, hbuffers]
    exact List.forall_mem_map.mpr fun r _ => r.fit_line
  have hcalls := calls_entries hfit e
  rwa [entries, hbuffers, counted_lines] at hcalls

/-- The length of a line. -/
theorem Record.length_line (r : Record) : r.line.length
    = r.ip.length + r.timestamp.length + r.method.length + r.url.length + 16 := by
  have hdigits : (Nat.toDigits 10 r.status).length = 3 := by
    have := r.status_range
    have hle := (Nat.length_toDigits_le_iff (b := 10) (n := r.status) (k := 3) (by decide)
      (by decide)).mpr (by omega)
    have hgt := mt (Nat.length_toDigits_le_iff (b := 10) (n := r.status) (k := 2) (by decide)
      (by decide)).mp (by omega)
    omega
  simp only [Record.line, Record.text, List.length_append, hdigits]
  simp
  omega

/-- A request for a path of `k` characters. -/
def longRequest (k : ℕ) (hk : k + 1 ≤ 255) : Record where
  ip := "10.0.0.1".toList
  timestamp := "10/Feb/2024:10:20:30".toList
  method := "GET".toList
  url := '/' :: List.replicate k 'a'
  status := 200
  ip_length := by decide
  ip_visible := visible_of_all (by decide)
  timestamp_visible := visible_of_all (by decide)
  method_length := by decide
  method_visible := visible_of_all (by decide)
  url_length := by simpa using hk
  url_text c hc := by
    rcases List.mem_cons.mp hc with rfl | hc
    · decide
    · obtain rfl := List.eq_of_mem_replicate hc
      decide
  url_head c hc := by
    obtain rfl := Option.some.inj hc
    decide
  status_range := by decide

/-- A line of 100 characters: its newline is read by a call of its own. -/
theorem not_calls_logFile : ¬∀ (records : List Record) (e : Entry),
    Calls (logFile records) e (records.map Record.entry) := by
  intro hall
  have hshort := fits_of_calls (hall [longRequest 52 (by decide)] (entryOf [])) _
    List.mem_cons_self
  rw [Record.length_line] at hshort
  exact absurd hshort (by decide)

end OsLabs.Threads
