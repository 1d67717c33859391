import OsLabs.PageReplace.Args
import OsLabs.PageReplace.Equiv.Query
import OsLabs.PageReplace.Equiv.Session

/-!
# What a command line means

The options of a well-formed command line may stand in any order and may be repeated.  The last
`-N`, `-a` and `-query` count, and `-f` counts if there is no `-query`; the first one does.  Its
numbers are decimal numerals; what `atoi` and `strtol` make of other texts is not said here.
-/

namespace OsLabs.PageReplace

/-! ### Options -/

/-- An option with its value. -/
inductive Opt where
  | frames (n : UInt8)
  | query (pages : List UInt8)
  | file (name : List Char)
  | algo (name : List Char)

/-- The two arguments of an option; the numbers are decimal numerals without leading zeros. -/
def Opt.text : Opt → List (List Char)
  | .frames n => ["-N".toList, numeral n]
  | .query pages => ["-query".toList, queryText pages]
  | .file name => ["-f".toList, name]
  | .algo name => ["-a".toList, name]

/-- The arguments that `parseArgs` knows. -/
def flags : List (List Char) :=
  ["-help".toList, "-N".toList, "-query".toList, "-f".toList, "-a".toList]

/-- A value that is accepted; `content` gives the pages of the files. -/
def Opt.WF (sys : System) (content : List Char → List UInt8) : Opt → Prop
  | .frames n => n ≠ 0
  | .query pages => pages ≠ [] ∧ pages.length ≤ MAX_QUERY ∧
      (queryText pages).length < MAX_QUERY * 4 - 1
  | .file name => name ∉ flags ∧ content name ≠ [] ∧ (content name).length ≤ MAX_QUERY ∧
      ∃ file, sys.files name = some file ∧ FileOf (content name) file
  | .algo name => NUL ∉ name ∧ name.length < ALGO_SIZE - 1

/-- The value of `-N` -/
def Opt.frames? : Opt → Option UInt8
  | .frames n => some n
  | _ => none

/-- The value of `-query` -/
def Opt.query? : Opt → Option (List UInt8)
  | .query pages => some pages
  | _ => none

/-- The value of `-f` -/
def Opt.file? : Opt → Option (List Char)
  | .file name => some name
  | _ => none

/-- The value of `-a` -/
def Opt.algo? : Opt → Option (List Char)
  | .algo name => some name
  | _ => none

/-- The last `-N`. -/
def framesOf (opts : List Opt) : UInt8 := (opts.filterMap Opt.frames?).getLastD 3

/-- The last `-a`. -/
def algoOf (opts : List Opt) : List Char := (opts.filterMap Opt.algo?).getLastD "all".toList

/-- The last `-query`, or else the first `-f`. -/
def pagesOf (content : List Char → List UInt8) (opts : List Opt) : Option (List UInt8) :=
  (opts.filterMap Opt.query?).getLast?.or ((opts.filterMap Opt.file?).head?.map content)

/-! ### One option -/

/-- What an option does. -/
def Opt.set (content : List Char → List UInt8) (ret : Args) : Opt → Args
  | .frames n => { ret with numFrames := n }
  | .query pages => { ret with query := pages }
  | .file name => if ret.query = [] then { ret with query := content name } else ret
  | .algo name => { ret with algo := strncpy ret.algo name (ALGO_SIZE - 1) }

theorem atoi_numeral (n : UInt8) : atoi (numeral n) = n.toNat := by
  have hlt := n.toNat_lt
  have hscan : scanDigits 10 (numeral n) = n.toNat := by
    have hdigits : ∀ c ∈ numeral n, digitVal c < 10 :=
      fun c hc => digitVal_lt_ten.mpr (isDigit_numeral hc)
    have h := scanDigits_append (by decide) hdigits stops_nil
    rw [List.append_nil] at h
    exact h.trans (digitsIn_toDigits _)
  obtain ⟨d, ds, hds⟩ := List.exists_cons_of_ne_nil (numeral_ne_nil n)
  have hd : d.isDigit := isDigit_numeral (hds ▸ List.mem_cons_self)
  have hblank : ¬isSpace d := by
    have := isDigit_iff.mp hd
    rw [isSpace_iff]
    omega
  have hminus : d ≠ '-' := by
    rintro rfl
    exact absurd hd (by decide)
  have hplus : d ≠ '+' := by
    rintro rfl
    exact absurd hd (by decide)
  have hle : ¬LONG_MAX < n.toNat := by
    rw [LONG_MAX]
    omega
  have hplain : atoi (numeral n) = int32 n.toNat := by
    unfold atoi
    rw [hds] at hscan ⊢
    rw [List.dropWhile_cons_of_neg hblank]
    simp [hminus, hplus, hscan, hle]
  rw [hplain]
  exact int32_of_lt (by omega) (by omega)

variable {sys : System} {content : List Char → List UInt8}

/-- `parse_query_str` reads the text of a reference sequence, whatever `tmp` holds before. -/
theorem parseQueryStr_queryText {pages : List UInt8} (hlen : pages.length ≤ MAX_QUERY)
    (hroom : (queryText pages).length < MAX_QUERY * 4 - 1) (tmp : List Char) :
    parseQueryStr tmp (queryText pages) = .ok pages := by
  obtain ⟨k, hk⟩ := Nat.exists_eq_add_one.mpr (Nat.sub_pos_of_lt hroom)
  exact parseQueryStr_of_end hlen (by rw [hk, List.replicate_succ]; rfl)

theorem parseLoop_skip {name : List Char} (hname : name ∉ flags) (rest : List (List Char))
    (ret : Args) : parseLoop sys (name :: rest) ret = parseLoop sys rest ret := by
  simp only [flags, List.mem_cons, List.not_mem_nil, or_false, not_or] at hname
  obtain ⟨hhelp, hN, hquery, hf, ha⟩ := hname
  cases rest with
  | nil => simp only [parseLoop, if_neg hhelp]
  | cons value rest =>
    rw [parseLoop, if_neg hhelp, if_neg hN, if_neg hquery, if_neg fun h => hf h.1, if_neg ha]

theorem parseLoop_option {o : Opt} (h : o.WF sys content) (rest : List (List Char)) (ret : Args) :
    parseLoop sys (o.text ++ rest) ret = parseLoop sys rest (o.set content ret) := by
  cases o with
  | frames n =>
    have hn : ¬n < 1 := fun hlt => h (by simpa [UInt8.lt_iff_toNat_lt, ← UInt8.toNat_inj] using hlt)
    show parseLoop sys ("-N".toList :: numeral n :: rest) ret = _
    rw [parseLoop, if_neg (by decide), if_pos rfl]
    simp only [atoi_numeral, narrow_toNat, if_neg hn, Opt.set]
  | query pages =>
    obtain ⟨-, hlen, hroom⟩ := h
    show parseLoop sys ("-query".toList :: queryText pages :: rest) ret = _
    rw [parseLoop, if_neg (by decide), if_neg (by decide), if_pos rfl,
      parseQueryStr_queryText hlen hroom]
    rfl
  | file name =>
    obtain ⟨hname, -, hlen, file, hfile, hof⟩ := h
    show parseLoop sys ("-f".toList :: name :: rest) ret = _
    rw [parseLoop, if_neg (by decide), if_neg (by decide), if_neg (by decide)]
    by_cases hempty : ret.query = []
    · rw [if_pos ⟨rfl, hempty⟩, hfile, readFile_eq hlen hof, Opt.set, if_pos hempty]
      rfl
    · rw [if_neg fun h => hempty h.2, if_neg (by decide), Opt.set, if_neg hempty]
      exact parseLoop_skip hname rest ret
  | algo name =>
    show parseLoop sys ("-a".toList :: name :: rest) ret = _
    rw [parseLoop, if_neg (by decide), if_neg (by decide), if_neg (by decide),
      if_neg fun h => absurd h.1 (by decide), if_pos rfl]
    rfl

/-! ### All options -/

theorem parseLoop_options {opts : List Opt} (h : ∀ o ∈ opts, o.WF sys content) (ret : Args) :
    parseLoop sys (opts.flatMap Opt.text) ret = .ok (opts.foldl (Opt.set content) ret) := by
  induction opts generalizing ret with
  | nil => rw [List.flatMap_nil, parseLoop, List.foldl_nil]
  | cons o opts ih =>
    rw [List.flatMap_cons, parseLoop_option (h o List.mem_cons_self), List.foldl_cons]
    exact ih (fun o' ho' => h o' (List.mem_cons_of_mem o ho')) _

/-- The name of an algorithm is the string in the buffer. -/
theorem cString_strncpy {name buffer : List Char} {n : ℕ} (hname : NUL ∉ name)
    (hlen : name.length < n) : cString (strncpy buffer name n) = name := by
  have hchars : ∀ c ∈ name, decide (c ≠ NUL) = true := by
    intro c hc
    rw [decide_eq_true_eq]
    rintro rfl
    exact hname hc
  have hself : cString name = name := List.takeWhile_eq_self_iff.mpr hchars
  obtain ⟨k, hk⟩ := Nat.exists_eq_add_one.mpr (Nat.sub_pos_of_lt hlen)
  rw [strncpy, hself, List.take_of_length_le hlen.le, hk, List.replicate_succ, List.append_assoc,
    cString, List.takeWhile_append_of_pos hchars, List.cons_append,
    List.takeWhile_cons_of_neg (by simp), List.append_nil]

/-- What the options set, one after the other. -/
structure Meaning (content : List Char → List UInt8) (opts : List Opt) (ret : Args) : Prop where
  query : ret.query = (pagesOf content opts).getD []
  empty : ret.query = [] → pagesOf content opts = none
  numFrames : ret.numFrames = framesOf opts
  algo : cString ret.algo = algoOf opts

theorem meaning_start : Meaning content [] (.start sys) where
  query := rfl
  empty _ := rfl
  numFrames := rfl
  algo := rfl

theorem pagesOf_concat_query (content : List Char → List UInt8) (opts : List Opt)
    (pages : List UInt8) :
    pagesOf content (opts ++ [.query pages]) = some pages := by
  simp [pagesOf, Opt.query?]

theorem pagesOf_concat_file (content : List Char → List UInt8) (opts : List Opt)
    (name : List Char) :
    pagesOf content (opts ++ [.file name])
      = (pagesOf content opts).or (some (content name)) := by
  have hquery : (opts ++ [Opt.file name]).filterMap Opt.query? = opts.filterMap Opt.query? := by
    simp [Opt.query?]
  have hfile : (opts ++ [Opt.file name]).filterMap Opt.file?
      = opts.filterMap Opt.file? ++ [name] := by
    simp [Opt.file?]
  rw [pagesOf, pagesOf, hquery, hfile, List.head?_append]
  cases (opts.filterMap Opt.query?).getLast? with
  | some q => rfl
  | none => cases (opts.filterMap Opt.file?).head? <;> rfl

theorem Meaning.concat {opts : List Opt} {ret : Args} (h : Meaning content opts ret) {o : Opt}
    (ho : o.WF sys content) : Meaning content (opts ++ [o]) (o.set content ret) := by
  have hframes : framesOf (opts ++ [o]) = o.frames?.getD (framesOf opts) := by
    cases o <;> simp [framesOf, Opt.frames?]
  have halgo : algoOf (opts ++ [o]) = o.algo?.getD (algoOf opts) := by
    cases o <;> simp [algoOf, Opt.algo?]
  cases o with
  | frames n =>
    have hpages : pagesOf content (opts ++ [.frames n]) = pagesOf content opts := by
      simp [pagesOf, Opt.query?, Opt.file?]
    exact ⟨hpages ▸ h.query, hpages ▸ h.empty, hframes.symm, h.algo.trans halgo.symm⟩
  | query pages =>
    have hpages := pagesOf_concat_query content opts pages
    exact ⟨by rw [hpages]; rfl, fun hnil => absurd hnil ho.1, h.numFrames.trans hframes.symm,
      h.algo.trans halgo.symm⟩
  | file name =>
    have hpages := pagesOf_concat_file content opts name
    by_cases hempty : ret.query = []
    · rw [h.empty hempty] at hpages
      rw [Opt.set, if_pos hempty]
      exact ⟨by rw [hpages]; rfl, fun hnil => absurd hnil ho.2.1, h.numFrames.trans hframes.symm,
        h.algo.trans halgo.symm⟩
    · rw [Opt.set, if_neg hempty]
      obtain ⟨q, hq⟩ : ∃ q, pagesOf content opts = some q := by
        refine Option.ne_none_iff_exists'.mp fun hnone => hempty ?_
        rw [h.query, hnone]
        rfl
      rw [hq] at hpages
      refine ⟨?_, fun hnil => absurd hnil hempty, h.numFrames.trans hframes.symm,
        h.algo.trans halgo.symm⟩
      rw [h.query, hpages, hq]
      rfl
  | algo name =>
    have hpages : pagesOf content (opts ++ [.algo name]) = pagesOf content opts := by
      simp [pagesOf, Opt.query?, Opt.file?]
    exact ⟨hpages ▸ h.query, hpages ▸ h.empty, h.numFrames.trans hframes.symm,
      (cString_strncpy ho.1 ho.2).trans halgo.symm⟩

theorem meaning_options {opts : List Opt} (h : ∀ o ∈ opts, o.WF sys content) :
    Meaning content opts (opts.foldl (Opt.set content) (.start sys)) := by
  induction opts using List.reverseRecOn with
  | nil => exact meaning_start
  | append_singleton opts o ih =>
    rw [List.foldl_concat]
    exact (ih fun o' ho' => h o' (List.mem_append_left _ ho')).concat (h o (by simp))

/-- `parseArgs` returns what the options mean, unless there is no reference sequence. -/
theorem parseArgs_options {opts : List Opt} (h : ∀ o ∈ opts, o.WF sys content) (hne : opts ≠ []) :
    (∃ ret, parseArgs sys (opts.flatMap Opt.text) = .ok ret ∧
      pagesOf content opts = some ret.query ∧ ret.query ≠ [] ∧ ret.numFrames = framesOf opts ∧
      cString ret.algo = algoOf opts) ∨
    (parseArgs sys (opts.flatMap Opt.text) = .error .noQuery ∧ pagesOf content opts = none) := by
  have hargs : opts.flatMap Opt.text ≠ [] := by
    obtain ⟨o, opts, rfl⟩ := List.exists_cons_of_ne_nil hne
    cases o <;> simp [Opt.text]
  have hmeaning := meaning_options h
  have hloop := parseLoop_options h (.start sys)
  rw [parseArgs, if_neg hargs]
  simp only [hloop, bind, Except.bind, pure, Except.pure]
  by_cases hempty : (opts.foldl (Opt.set content) (.start sys)).query = []
  · exact .inr ⟨if_pos hempty, hmeaning.empty hempty⟩
  · left
    refine ⟨_, if_neg hempty, ?_, hempty, hmeaning.numFrames, hmeaning.algo⟩
    obtain ⟨q, hq⟩ : ∃ q, pagesOf content opts = some q := by
      refine Option.ne_none_iff_exists'.mp fun hnone => hempty ?_
      rw [hmeaning.query, hnone]
      rfl
    rw [hmeaning.query, hq]
    rfl

theorem framesOf_ne_zero {opts : List Opt} (h : ∀ o ∈ opts, o.WF sys content) :
    framesOf opts ≠ 0 := by
  induction opts using List.reverseRecOn with
  | nil => decide
  | append_singleton opts o ih =>
    have hold := ih fun o' ho' => h o' (List.mem_append_left _ ho')
    have hlast := h o (by simp)
    cases o with
    | frames n =>
      have hn : n ≠ 0 := hlast
      simpa [framesOf, Opt.frames?] using hn
    | query | file | algo => simpa [framesOf, Opt.frames?] using hold

namespace Display

/-- **The program**, from a well-formed command line to the last line it prints.  Whatever the order
of the options, it runs the algorithm of the last `-a` on the pages of the last `-query`, or else of
the first `-f`, with the frames of the last `-N`; without pages it stops.  For at most 128 frames
and pages other than `FRAME_EMPTY` it returns if and only if its input has a line for each step and
for the totals of each algorithm. -/
theorem main_session {opts : List Opt} (h : ∀ o ∈ opts, o.WF sys content) :
    (∀ pages, pagesOf content opts = some pages →
      ∃ ret, parseArgs sys (opts.flatMap Opt.text) = .ok ret ∧ ret.query = pages ∧
        ret.numFrames = framesOf opts ∧ cString ret.algo = algoOf opts) ∧
    (opts ≠ [] → pagesOf content opts = none →
      parseArgs sys (opts.flatMap Opt.text) = .error .noQuery) ∧
    ∀ pages, pagesOf content opts = some pages → (∀ p ∈ pages, p ≠ FRAME_EMPTY) →
      (framesOf opts).toNat ≤ 128 → ∀ (rate : UInt32 → UInt32 → List Char) (t : Terminal),
      ∃ s' secs, Logger.run (String.ofList (algoOf opts)) pages
          (Logger.init (zeroMemory (framesOf opts).toNat) pages) = .ok (s', secs) ∧
        (secs.length * (pages.length + 1) ≤ t.input.count '\n' → ∃ rest, ∀ fuel ≥ 51,
          main fuel rate sys (opts.flatMap Opt.text) t
            = .ok ⟨rest, t.output ++ headerText (framesOf opts) pages.length (algoOf opts) ++
                secs.flatMap (sectionText rate pages) ++ "Exiting...\n".toList⟩) ∧
        (t.input.count '\n' < secs.length * (pages.length + 1) → ∀ fuel ≥ 51,
          main fuel rate sys (opts.flatMap Opt.text) t = .error (.inr .input)) := by
  have hparse (pages : List UInt8) (hpages : pagesOf content opts = some pages) :
      ∃ ret, parseArgs sys (opts.flatMap Opt.text) = .ok ret ∧ ret.query = pages ∧
        ret.numFrames = framesOf opts ∧ cString ret.algo = algoOf opts := by
    have hne : opts ≠ [] := by
      rintro rfl
      simp [pagesOf] at hpages
    obtain ⟨ret, hret, hquery, -, hframes, halgo⟩ | ⟨-, hnone⟩ := parseArgs_options h hne
    · exact ⟨ret, hret, Option.some.inj (hquery.symm.trans hpages), hframes, halgo⟩
    · rw [hpages] at hnone
      exact absurd hnone (Option.some_ne_none pages)
  refine ⟨hparse, fun hne hnone => ?_, fun pages hpages hempty hmax rate t => ?_⟩
  · obtain ⟨ret, -, hquery, -⟩ | ⟨herror, -⟩ := parseArgs_options h hne
    · rw [hnone] at hquery
      exact absurd hquery.symm (Option.some_ne_none ret.query)
    · exact herror
  obtain ⟨⟨query, numFrames, buffer⟩, hret, hquery, hframes, halgo⟩ := hparse pages hpages
  simp only at hquery hframes halgo
  subst hquery hframes
  have hpos : 1 ≤ (framesOf opts).toNat := by
    by_contra hzero
    exact framesOf_ne_zero h (UInt8.toNat_inj.mp (by simpa using hzero))
  obtain ⟨s', secs, hrun⟩ := exists_run hpos hmax hempty (String.ofList (algoOf opts))
    (Logger.init (zeroMemory (framesOf opts).toNat) query)
  refine ⟨s', secs, hrun, fun hlines => ?_, fun hlines fuel hfuel => ?_⟩
  · obtain ⟨rest, hrest, -⟩ := dropLines_of_le hlines
    refine ⟨rest, fun fuel hfuel => ?_⟩
    have hsession := run_eq (le_trans hmax (by decide)) hfuel rate
      (t.print (headerText (framesOf opts) query.length (algoOf opts))) hrun
    rw [after, Terminal.print, hrest] at hsession
    simp only [main, hret, halgo, Terminal.print, hsession]
    rfl
  · have hsession := run_eq (le_trans hmax (by decide)) hfuel rate
      (t.print (headerText (framesOf opts) query.length (algoOf opts))) hrun
    rw [after, Terminal.print, dropLines_of_lt hlines] at hsession
    simp only [main, hret, halgo, Terminal.print, hsession]
    rfl

theorem main_session_lru : ∃ (secs : List (Section 4)) (rest : List Char), ∀ fuel ≥ 51,
    main fuel (fun _ _ => []) ⟨fun _ => none, [], []⟩
        ["-a".toList, "lru".toList, "-query".toList, "1 2 1".toList, "-N".toList, "4".toList]
        ⟨['\n', '\n', '\n', '\n'], []⟩
      = .ok ⟨rest, headerText 4 3 "lru".toList ++
          secs.flatMap (sectionText (fun _ _ => []) [1, 2, 1]) ++ "Exiting...\n".toList⟩ := by
  have hquery : ∀ p ∈ [1, 2, 1], p ≠ FRAME_EMPTY := by simp [FRAME_EMPTY]
  have hwf : ∀ o ∈ [Opt.algo "lru".toList, .query [1, 2, 1], .frames 4],
      o.WF ⟨fun _ => none, [], []⟩ (fun _ => []) := by
    simp only [List.forall_mem_cons, List.not_mem_nil, false_implies, implies_true, and_true]
    exact ⟨⟨by decide, by decide⟩, ⟨by decide, by decide, by decide⟩,
      (by decide : (4 : UInt8) ≠ 0)⟩
  obtain ⟨-, -, hmain⟩ := main_session hwf
  obtain ⟨s', secs, hrun, hok, -⟩ := hmain [1, 2, 1] rfl hquery (by decide) (fun _ _ => [])
    ⟨['\n', '\n', '\n', '\n'], []⟩
  -- one algorithm is selected
  obtain ⟨s₁, -, shown, hone, -, -⟩ := Logger.runOne_agree
    (Policy.agreement (N := 4) (by decide) (by decide) .lru) hquery
    (s := Logger.init (zeroMemory 4) [1, 2, 1]) rfl (Logger.title .lru)
  have hlru : Logger.run "lru" [1, 2, 1] (Logger.init (zeroMemory 4) [1, 2, 1])
      = .ok (s₁, [shown]) := Logger.run_flag hone
  obtain ⟨-, rfl⟩ := Prod.mk.inj (Except.ok.inj (hlru.symm.trans hrun))
  obtain ⟨rest, hrest⟩ := hok (show 4 ≤ 4 from le_rfl)
  exact ⟨[shown], rest, hrest⟩

end Display

end OsLabs.PageReplace
