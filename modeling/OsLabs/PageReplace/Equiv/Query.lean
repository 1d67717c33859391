import OsLabs.Lib.Numerals
import OsLabs.PageReplace.Main

/-!
# The two ways of giving a reference sequence

`read_file` returns the numbers of a file with one of them on each line (`readFile_eq`).
`parse_query_str` returns the numbers of a string if the end of the string is in `tmp`
(`queryLoop_text`).  A string of 1024 numbers of three digits fills all characters that are copied,
and then the last character of `tmp` is the one that was there before (`queryLoop_outside`).
-/

namespace OsLabs.PageReplace

/-- The decimal numeral of a page number. -/
def numeral (p : UInt8) : List Char := Nat.toDigits 10 p.toNat

/-- The numerals, joined by single spaces. -/
def queryText (pages : List UInt8) : List Char := [' '].intercalate (pages.map numeral)

/-- A file with one numeral per line, with a newline after the last one or without. -/
def FileOf (pages : List UInt8) (file : List Char) : Prop :=
  List.Forall₂ (fun p line => line = numeral p ++ ['\n'] ∨ line = numeral p) pages (lines file)

/-! ### One numeral -/

theorem numeral_ne_nil (p : UInt8) : numeral p ≠ [] := Nat.toDigits_ne_nil

theorem isDigit_numeral {p : UInt8} {c : Char} (hc : c ∈ numeral p) : c.isDigit :=
  isDigit_toDigits hc

theorem numeral_token (p : UInt8) : ∀ c ∈ numeral p, c ≠ ' ' ∧ c ≠ NUL := by
  intro c hc
  have hdigit := isDigit_numeral hc
  constructor
  all_goals
    rintro rfl
    exact absurd hdigit (by decide)

theorem strtol_numeral (p : UInt8) : strtol (numeral p) = p.toNat := by
  have hlt := p.toNat_lt
  have hblanks : ∀ c ∈ ([] : List Char), isSpace c := by simp
  have h := strtol_signed hblanks (.plain (numeral_toDigits p.toNat)) stops_nil
    (by rw [LONG_MAX]; omega) (by rw [LONG_MAX]; omega)
  rwa [List.append_nil, List.nil_append] at h

theorem narrow_toNat (p : UInt8) : narrow p.toNat = p := by
  have hlt := p.toNat_lt
  apply UInt8.toNat_inj.mp
  rw [narrow, toNat_ofInt_of_lt (by omega) (by omega), Int.toNat_natCast]

theorem map_narrow_toNat (pages : List UInt8) :
    (pages.map fun q => (q.toNat : ℤ)).map narrow = pages := by
  rw [List.map_map]
  exact (List.map_congr_left fun p _ => narrow_toNat p).trans pages.map_id

theorem length_numeral (p : UInt8) : (numeral p).length ≤ 3 ∧
    (3 ≤ (numeral p).length ↔ 100 ≤ p.toNat) := by
  have hlt := p.toNat_lt
  have h3 := Nat.length_toDigits_le_iff (b := 10) (n := p.toNat) (k := 3) (by decide) (by decide)
  have h2 := Nat.length_toDigits_le_iff (b := 10) (n := p.toNat) (k := 2) (by decide) (by decide)
  unfold numeral
  omega

/-! ### `parse_query_str` -/

theorem queryText_cons (p q : UInt8) (pages : List UInt8) :
    queryText (p :: q :: pages) = numeral p ++ ' ' :: queryText (q :: pages) := by
  unfold queryText
  rw [List.map_cons, List.map_cons, List.intercalate_cons_cons, List.append_assoc]
  rfl

theorem queryText_single (p : UInt8) : queryText [p] = numeral p := by
  unfold queryText
  rw [List.map_singleton, List.intercalate_singleton]

/-- One round: the token is the numeral up to the space. -/
theorem queryLoop_numeral (p : UInt8) (k : ℕ) (mem : List Char) :
    (nextToken (numeral p ++ ' ' :: mem) >>= queryLoop (k + 1))
      = (nextToken mem >>= queryLoop k) >>= fun vs => pure ((p.toNat : ℤ) :: vs) := by
  have htok : nextToken (numeral p ++ ' ' :: mem) = .ok (some (numeral p, mem)) := by
    rw [nextToken, strtok_append (numeral_ne_nil p) (numeral_token p) (.inl rfl)]
    rfl
  rw [htok]
  show queryLoop (k + 1) (some (numeral p, mem)) = _
  unfold queryLoop
  simp only [strtol_numeral, if_neg (not_lt.mpr (Int.natCast_nonneg p.toNat)), bind_assoc]

theorem queryLoop_cons (p q : UInt8) (pages : List UInt8) (k : ℕ) (mem : List Char) :
    (nextToken (queryText (p :: q :: pages) ++ mem) >>= queryLoop (k + 1))
      = (nextToken (queryText (q :: pages) ++ mem) >>= queryLoop k)
        >>= fun vs => pure ((p.toNat : ℤ) :: vs) := by
  rw [queryText_cons, List.append_assoc, List.cons_append, queryLoop_numeral]

/-- The numbers of a text whose end is in `tmp`. -/
theorem queryLoop_text (p : UInt8) (pages : List UInt8) {k : ℕ} (hk : (p :: pages).length ≤ k)
    (rest : List Char) :
    (nextToken (queryText (p :: pages) ++ NUL :: rest) >>= queryLoop k)
      = .ok ((p :: pages).map fun q => (q.toNat : ℤ)) := by
  induction pages generalizing p k with
  | nil =>
    obtain ⟨k, rfl⟩ := Nat.exists_eq_add_one.mpr hk
    have htok : nextToken (queryText [p] ++ NUL :: rest) = .ok (some (numeral p, NUL :: rest)) := by
      rw [queryText_single, nextToken,
        strtok_append (numeral_ne_nil p) (numeral_token p) (.inr rfl)]
      rfl
    have hnext : nextToken (NUL :: rest) = .ok none := rfl
    rw [htok]
    show queryLoop (k + 1) (some (numeral p, NUL :: rest)) = _
    unfold queryLoop
    simp only [strtol_numeral, if_neg (not_lt.mpr (Int.natCast_nonneg p.toNat)), hnext]
    cases k <;> rfl
  | cons q pages ih =>
    obtain ⟨k, rfl⟩ := Nat.exists_eq_add_one.mpr (Nat.zero_lt_of_lt hk)
    rw [queryLoop_cons, ih q (Nat.le_of_succ_le_succ hk)]
    rfl

/-- A text that fills `tmp` up to its last character, which is not null. -/
theorem queryLoop_outside (p : UInt8) (pages : List UInt8) {k : ℕ} (hk : (p :: pages).length ≤ k)
    {x : Char} (hx : x ≠ NUL) :
    (nextToken (queryText (p :: pages) ++ [x]) >>= queryLoop k) = .error .outside := by
  induction pages generalizing p k with
  | nil =>
    obtain ⟨k, rfl⟩ := Nat.exists_eq_add_one.mpr hk
    rw [queryText_single]
    by_cases hblank : x = ' '
    · -- the token ends there, and the next one is looked for behind `tmp`
      subst hblank
      rw [queryLoop_numeral]
      rfl
    · have htok : ∀ c ∈ numeral p ++ [x], c ≠ ' ' ∧ c ≠ NUL := by
        intro c hc
        rcases List.mem_append.mp hc with hc | hc
        · exact numeral_token p c hc
        · obtain rfl := List.mem_singleton.mp hc
          exact ⟨hblank, hx⟩
      rw [nextToken, strtok_outside (by simp) htok]
      rfl
  | cons q pages ih =>
    obtain ⟨k, rfl⟩ := Nat.exists_eq_add_one.mpr (Nat.zero_lt_of_lt hk)
    rw [queryLoop_cons, ih q (Nat.le_of_succ_le_succ hk)]
    rfl

/-! ### The length of the text -/

theorem length_queryText_cons (p : UInt8) (pages : List UInt8) :
    (queryText (p :: pages)).length + 1 ≤ 4 * (p :: pages).length ∧
      (4 * (p :: pages).length ≤ (queryText (p :: pages)).length + 1 ↔
        ∀ q ∈ p :: pages, 100 ≤ q.toNat) := by
  obtain ⟨hle, hthree⟩ := length_numeral p
  induction pages generalizing p with
  | nil =>
    rw [queryText_single, List.length_singleton, List.forall_mem_singleton]
    omega
  | cons q pages ih =>
    obtain ⟨hle', hthree'⟩ := length_numeral q
    obtain ⟨ihle, ihiff⟩ := ih q hle' hthree'
    rw [List.forall_mem_cons, ← ihiff, queryText_cons, List.length_append, List.length_cons,
      List.length_cons]
    omega

/-- The text fills all characters that are copied if and only if it is that of 1024 numbers of three
digits. -/
theorem length_queryText_lt_iff {pages : List UInt8} (hlen : pages.length ≤ MAX_QUERY) :
    (queryText pages).length < MAX_QUERY * 4 - 1 ↔
      pages.length < MAX_QUERY ∨ ∃ p ∈ pages, p.toNat < 100 := by
  rw [MAX_QUERY] at hlen ⊢
  cases pages with
  | nil => exact iff_of_true (by decide) (.inl (by decide))
  | cons p pages =>
    obtain ⟨hle, hiff⟩ := length_queryText_cons p pages
    constructor
    · intro hlt
      by_contra hcon
      push Not at hcon
      have := hiff.mpr hcon.2
      omega
    · rintro (hshort | ⟨q, hq, hsmall⟩)
      · omega
      · have hnot := mt hiff.mp fun hall => absurd (hall q hq) (by omega)
        omega

theorem length_queryText_le {pages : List UInt8} (hlen : pages.length ≤ MAX_QUERY) :
    (queryText pages).length ≤ MAX_QUERY * 4 - 1 := by
  rw [MAX_QUERY] at hlen ⊢
  cases pages with
  | nil => decide
  | cons p pages =>
    have := (length_queryText_cons p pages).1
    omega

theorem cString_queryText (pages : List UInt8) : cString (queryText pages) = queryText pages := by
  refine List.takeWhile_eq_self_iff.mpr fun c hc => ?_
  rw [decide_eq_true_eq]
  induction pages with
  | nil => exact absurd hc List.not_mem_nil
  | cons p pages ih =>
    cases pages with
    | nil =>
      rw [queryText_single] at hc
      exact (numeral_token p c hc).2
    | cons q pages =>
      rw [queryText_cons, List.mem_append, List.mem_cons] at hc
      rcases hc with hc | rfl | hc
      · exact (numeral_token p c hc).2
      · decide
      · exact ih hc

/-! ### The text in `tmp` -/

section Text

variable {pages : List UInt8} (hlen : pages.length ≤ MAX_QUERY) {tmp : List Char}

include hlen

theorem queryNumbers_eq : queryNumbers tmp (queryText pages)
    = (nextToken (queryText pages
        ++ (List.replicate (MAX_QUERY * 4 - 1 - (queryText pages).length) NUL
        ++ tmp.drop (MAX_QUERY * 4 - 1))) >>= queryLoop MAX_QUERY) := by
  unfold queryNumbers strncpy
  rw [cString_queryText, List.take_of_length_le (length_queryText_le hlen), List.append_assoc]

theorem parseQueryStr_of_end {rest : List Char}
    (hend : List.replicate (MAX_QUERY * 4 - 1 - (queryText pages).length) NUL
      ++ tmp.drop (MAX_QUERY * 4 - 1) = NUL :: rest) :
    parseQueryStr tmp (queryText pages) = .ok pages := by
  have hnumbers : queryNumbers tmp (queryText pages)
      = .ok (pages.map fun q => (q.toNat : ℤ)) := by
    rw [queryNumbers_eq hlen, hend]
    cases pages with
    | nil => rfl
    | cons p pages => exact queryLoop_text p pages hlen rest
  unfold parseQueryStr
  rw [hnumbers]
  show Except.ok _ = _
  rw [map_narrow_toNat]

/-- The text is decoded if and only if its end is in `tmp`: there is room for it, or `tmp` ended
with a null character before. -/
theorem parseQueryStr_text_iff (htmp : tmp.length = MAX_QUERY * 4) :
    parseQueryStr tmp (queryText pages) = .ok pages ↔
      (queryText pages).length < MAX_QUERY * 4 - 1 ∨ tmp.drop (MAX_QUERY * 4 - 1) = [NUL] := by
  obtain ⟨x, hx⟩ : ∃ x, tmp.drop (MAX_QUERY * 4 - 1) = [x] := by
    apply List.length_eq_one_iff.mp
    rw [List.length_drop, htmp]
    rfl
  have hle := length_queryText_le hlen
  rcases hle.lt_or_eq with hlt | hfull
  · -- there is room for a null character after the text
    obtain ⟨k, hk⟩ := Nat.exists_eq_add_one.mpr (Nat.sub_pos_of_lt hlt)
    exact iff_of_true (parseQueryStr_of_end hlen (by rw [hk, List.replicate_succ]; rfl)) (.inl hlt)
  · have hnone : List.replicate (MAX_QUERY * 4 - 1 - (queryText pages).length) NUL
        ++ tmp.drop (MAX_QUERY * 4 - 1) = [x] := by
      rw [hfull, Nat.sub_self, hx]
      rfl
    by_cases hnul : x = NUL
    · subst hnul
      exact iff_of_true (parseQueryStr_of_end hlen hnone) (.inr hx)
    · refine iff_of_false ?_ ?_
      · have houtside : queryNumbers tmp (queryText pages) = .error .outside := by
          rw [queryNumbers_eq hlen, hnone]
          cases pages with
          | nil => exact absurd hfull (by decide)
          | cons p pages => exact queryLoop_outside p pages hlen hnul
        unfold parseQueryStr
        rw [houtside]
        exact nofun
      · rw [hx, hfull]
        rintro (hcon | hcon)
        · exact absurd hcon (lt_irrefl _)
        · exact hnul (List.cons.inj hcon).1

end Text

/-! ### `read_file` -/

theorem fileLoop_nil (k : ℕ) : fileLoop k [] = .ok [] := by
  rw [fileLoop]
  split
  · rfl
  · rename_i h
    exact absurd h (by simp [fgets])

/-- One round: the line holds a numeral. -/
theorem fileLoop_numeral {file file' line : List Char} {p : UInt8} (k : ℕ)
    (hread : fgets LINE_SIZE file = some (line, file'))
    (hline : line = numeral p ++ ['\n'] ∨ line = numeral p) :
    fileLoop (k + 1) file = fileLoop k file' >>= fun vs => pure ((p.toNat : ℤ) :: vs) := by
  have hdigit (c : Char) (hc : c ∈ numeral p) : c ≠ '\n' := by
    rintro rfl
    exact absurd (isDigit_numeral hc) (by decide)
  have hstring : cString line = line := by
    refine List.takeWhile_eq_self_iff.mpr fun c hc => ?_
    rw [decide_eq_true_eq]
    rcases hline with rfl | rfl
    · rcases List.mem_append.mp hc with hc | hc
      · exact (numeral_token p c hc).2
      · obtain rfl := List.mem_singleton.mp hc
        decide
    · exact (numeral_token p c hc).2
  have hcut : line.takeWhile (· ≠ '\n') = numeral p := by
    rcases hline with rfl | rfl
    · rw [List.takeWhile_append_of_pos fun c hc => by simpa using hdigit c hc,
        List.takeWhile_cons_of_neg (by simp), List.append_nil]
    · exact List.takeWhile_eq_self_iff.mpr fun c hc => by simpa using hdigit c hc
  rw [fileLoop]
  split
  · rename_i hnone
    rw [hread] at hnone
    exact absurd hnone (by simp)
  · rename_i hsome
    rw [hread] at hsome
    obtain ⟨rfl, rfl⟩ := Prod.mk.inj (Option.some.inj hsome)
    simp only [hstring, hcut, if_neg (numeral_ne_nil p), strtol_numeral,
      if_neg (not_lt.mpr (Int.natCast_nonneg p.toNat))]

theorem fileLoop_lines {pages : List UInt8} {file : List Char} (h : FileOf pages file) {k : ℕ}
    (hk : pages.length ≤ k) : fileLoop k file = .ok (pages.map fun q => (q.toNat : ℤ)) := by
  unfold FileOf at h
  obtain ⟨ls, hls⟩ : ∃ ls, lines file = ls := ⟨_, rfl⟩
  rw [hls] at h
  induction h generalizing file k with
  | nil =>
    rw [lines_eq_nil.mp hls]
    exact fileLoop_nil k
  | @cons p line pages ls hline _ ih =>
    obtain ⟨k, rfl⟩ := Nat.exists_eq_add_one.mpr (Nat.zero_lt_of_lt hk)
    have hfits : line.length < LINE_SIZE := by
      have hle := (length_numeral p).1
      rw [LINE_SIZE]
      rcases hline with rfl | rfl
      · rw [List.length_append, List.length_singleton]
        omega
      · omega
    obtain ⟨file', hread, hrest⟩ := fgets_eq hls hfits
    rw [fileLoop_numeral k hread hline, ih (Nat.le_of_succ_le_succ hk) hrest]
    rfl

theorem readFile_eq {pages : List UInt8} (hlen : pages.length ≤ MAX_QUERY) {file : List Char}
    (h : FileOf pages file) : readFile (some file) = .ok pages := by
  have hnumbers : fileNumbers (some file) = .ok (pages.map fun q => (q.toNat : ℤ)) :=
    fileLoop_lines h hlen
  unfold readFile
  rw [hnumbers]
  show Except.ok _ = _
  rw [map_narrow_toNat]

/-! ### Both ways -/

/-- Both ways give the list, whatever the buffer `tmp` of `parse_query_str` holds before. -/
structure Decodes (pages : List UInt8) : Prop where
  query : ∀ tmp : List Char, tmp.length = MAX_QUERY * 4 →
    parseQueryStr tmp (queryText pages) = .ok pages
  file : ∀ file, FileOf pages file → readFile (some file) = .ok pages

/-- A buffer of the size of `tmp` that is full of blanks. -/
def blanks : List Char := List.replicate (MAX_QUERY * 4) ' '

theorem Decodes.length_lt {pages : List UInt8} (hlen : pages.length ≤ MAX_QUERY)
    (h : Decodes pages) : (queryText pages).length < MAX_QUERY * 4 - 1 := by
  have htext := h.query blanks List.length_replicate
  rcases (parseQueryStr_text_iff hlen List.length_replicate).mp htext with hlt | hnul
  · exact hlt
  · -- the last character of the buffer is a blank
    rw [List.drop_replicate] at hnul
    exact absurd hnul (by decide)

/-- **The two ways agree and decode exactly**, whatever the buffer holds, if and only if there are
not 1024 numbers of three digits. -/
theorem decodes_iff (pages : List UInt8) (hlen : pages.length ≤ MAX_QUERY) :
    Decodes pages ↔ pages.length < MAX_QUERY ∨ ∃ p ∈ pages, p.toNat < 100 := by
  rw [← length_queryText_lt_iff hlen]
  refine ⟨Decodes.length_lt hlen, fun hlt => ⟨fun tmp htmp => ?_, fun file => readFile_eq hlen⟩⟩
  exact (parseQueryStr_text_iff hlen htmp).mpr (.inl hlt)

theorem decodes_iff_three :
    Decodes [7, 0, 255] ↔ [7, 0, 255].length < MAX_QUERY ∨
      ∃ p ∈ ([7, 0, 255] : List UInt8), p.toNat < 100 :=
  decodes_iff [7, 0, 255] (by decide)

/-- The page 100, 1024 times. -/
theorem not_decodes :
    ¬∀ pages : List UInt8, pages.length ≤ MAX_QUERY → Decodes pages := by
  intro hall
  have hle : (List.replicate MAX_QUERY (100 : UInt8)).length ≤ MAX_QUERY :=
    List.length_replicate.le
  have hlt := (hall _ hle).length_lt hle
  rcases (length_queryText_lt_iff hle).mp hlt with hshort | ⟨p, hp, hsmall⟩
  · rw [List.length_replicate] at hshort
    exact absurd hshort (lt_irrefl _)
  · obtain rfl := List.eq_of_mem_replicate hp
    exact absurd hsmall (by decide)

end OsLabs.PageReplace
