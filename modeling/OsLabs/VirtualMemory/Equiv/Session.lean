import OsLabs.VirtualMemory.Display
import OsLabs.VirtualMemory.Equiv.Batch
import OsLabs.VirtualMemory.Equiv.Room

/-!
# A run of the program

If the first number drawn leaves room for the process and no line of the file holds an address of
the first page past its end, the program runs to its end: it prints the memory before and after the
process is loaded, waits for Enter after each line, and prints for each the frame that holds its
page, or the error (`main_transcript`).  Otherwise it does not (`main_ends_iff`).

What it does is what the functions without a text do (`batchLoop_eq`, `RAMInit_forget`).
-/

namespace OsLabs.VirtualMemory.Display

/-- The address that `batch_translate` reads from a line. -/
def lineAddress (line : List Char) : UInt16 :=
  .ofInt (strtol ((cString line).takeWhile (· ≠ '\n')))

/-- The text for the address `va` of a process of `n` pages in `frames`. -/
def Answer (n : UInt8) (frames : Fin NUM_FRAMES → Frame) (va : UInt16) (text : List Char) : Prop :=
  if va.toNat < 256 * n.toNat then
    ∃ f, frames f = ⟨.occupied, .ofNat (va.toNat / 256)⟩ ∧
      text = addrText (.address va (va.toNat / 256) (va.toNat % 256) f
        (256 * (f : ℕ) + va.toNat % 256 : ℕ))
  else text = addrText .outOfRange

/-- The text of a run that loads the process into `frames₀`, which makes them `frames`. -/
def transcript (seed : ℤ) (n : UInt8) (frames₀ frames : Fin NUM_FRAMES → Frame)
    (answers : List (List Char)) : List Char :=
  "Working with seed = ".toList ++ decimal seed ++ " and ".toList ++ decimal n.toNat ++
    " virtual pages.\n\n".toList ++
    ("Physical RAM (100) after random init:\n".toList ++ memoryPrintout frames₀ ++
      ("Physical RAM (100) after loading processes:\n".toList ++ memoryPrintout frames)) ++
    "\nStarting batch translate...\n".toList ++
    answers.flatMap (· ++ "Press Enter to continue...".toList) ++
    "Finished batch translation, exiting...\n".toList

/-! ### The batch -/

/-- A typed line is taken up to its newline. -/
theorem awaitEnter_line {typed : List Char} (htyped : '\n' ∉ typed) (input : List Char) :
    awaitEnter (typed ++ '\n' :: input) = .ok input := by
  induction typed with
  | nil => rfl
  | cons c typed ih =>
    obtain ⟨hc, htyped⟩ := not_or.mp (List.mem_cons.not.mp htyped)
    rw [List.cons_append, awaitEnter, if_neg (Ne.symm hc), ih htyped]

/-- With a line typed for each line of the file, the loop prints what `translateLines` lists. -/
theorem batchLoop_eq (m : Mmu) {lines typed : List (List Char)}
    (hlength : typed.length = lines.length) (htyped : ∀ line ∈ typed, '\n' ∉ line)
    (input : List Char) : batchLoop m lines (typed.flatMap (· ++ ['\n']) ++ input)
      = match (translateLines m lines).2 with
        | none => .ok (((translateLines m lines).1.map addrText).flatMap
            (· ++ "Press Enter to continue...".toList), input)
        | some fault => .error (.fault fault) := by
  induction lines generalizing typed with
  | nil =>
    obtain rfl := List.length_eq_zero_iff.mp hlength
    rfl
  | cons line lines ih =>
    obtain ⟨t, typed, rfl⟩ := List.exists_cons_of_length_eq_add_one hlength
    obtain ⟨ht, htyped⟩ := List.forall_mem_cons.mp htyped
    -- the answer to this line, the line typed for it, and then the others
    rw [List.flatMap_cons, List.append_assoc, List.append_assoc, List.singleton_append, batchLoop,
      translateLines]
    cases translateLine m line with
    | error fault => rfl
    | ok printed =>
      show awaitEnter _ >>= _ = _
      rw [awaitEnter_line ht]
      show batchLoop m lines _ >>= _ = _
      rw [ih (Nat.succ.inj hlength) htyped]
      dsimp only
      cases (translateLines m lines).2 <;> rfl

section Loaded

variable {frames₀ : Fin NUM_FRAMES → Frame} {n : UInt8} {m : Mmu}
  (hload : loadProcess { frames := frames₀, table := ptCreate n } n = .ok m)

include hload

/-- A line with another page number is answered. -/
theorem exists_answer {line : List Char} (hline : (lineAddress line).toNat / 256 ≠ n.toNat) :
    ∃ printed, translateLine m line = .ok printed ∧
      Answer n m.frames (lineAddress line) (addrText printed) := by
  have hva := (lineAddress line).toNat_lt
  have hn := n.toNat_lt
  obtain ⟨hfree, hloaded⟩ := loaded_of_loadProcess hload
  show ∃ printed, addrTranslate m (lineAddress line) = .ok printed ∧ _
  unfold Answer
  by_cases hin : (lineAddress line).toNat < 256 * n.toNat
  · have hpage : (lineAddress line).toNat / 256 < n.toNat := by omega
    have htr := hloaded.translated hin (hpage.trans_le hfree)
    refine ⟨_, htr.addrTranslate_eq, ?_⟩
    rw [if_pos hin]
    exact ⟨_, hloaded.taken _ (hpage.trans_le hfree) hpage, rfl⟩
  · have hrej : Rejected m (lineAddress line) := by
      apply rejected_of_gt
      rw [gt_iff_lt, UInt8.lt_iff_toNat_lt, (loadProcess_size hload).2, UInt8.toNat_ofNat']
      omega
    refine ⟨_, hrej.addrTranslate_eq, ?_⟩
    rw [if_neg hin]

/-- The entry of the page `n` is read past the end of the table. -/
theorem exists_fault {line : List Char} (hline : (lineAddress line).toNat / 256 = n.toNat) :
    ∃ fault, translateLine m line = .error fault := by
  have hpage : UInt8.ofNat ((lineAddress line).toNat / 256) = n := by
    rw [hline, UInt8.ofNat_toNat]
  obtain ⟨hlen, hnum⟩ := loadProcess_size hload
  have hfirst : addrTranslate m (lineAddress line) = .error _ :=
    addrTranslate_first (hpage.trans hnum.symm) (by rw [hlen, hpage])
  exact ⟨_, hfirst⟩

/-- Every line is answered, in order. -/
theorem translateLines_answers {lines : List (List Char)}
    (hlines : ∀ line ∈ lines, (lineAddress line).toNat / 256 ≠ n.toNat) :
    (translateLines m lines).2 = none ∧
      List.Forall₂ (fun line printed => Answer n m.frames (lineAddress line) (addrText printed))
        lines (translateLines m lines).1 := by
  induction lines with
  | nil => exact ⟨rfl, .nil⟩
  | cons line lines ih =>
    obtain ⟨hline, hlines⟩ := List.forall_mem_cons.mp hlines
    obtain ⟨printed, htranslate, hanswer⟩ := exists_answer hload hline
    obtain ⟨hnone, hanswers⟩ := ih hlines
    rw [translateLines, htranslate]
    exact ⟨hnone, .cons hanswer hanswers⟩

/-- The batch gets to its end if and only if no line has an address of the page `n`. -/
theorem translateLines_eq_none_iff (lines : List (List Char)) :
    (translateLines m lines).2 = none ↔
      ∀ line ∈ lines, (lineAddress line).toNat / 256 ≠ n.toNat := by
  refine ⟨fun hnone => ?_, fun hlines => (translateLines_answers hload hlines).1⟩
  induction lines with
  | nil => exact List.forall_mem_nil _
  | cons line lines ih =>
    cases htranslate : translateLine m line with
    | error fault =>
      rw [translateLines, htranslate] at hnone
      exact absurd hnone nofun
    | ok printed =>
      rw [translateLines, htranslate] at hnone
      refine List.forall_mem_cons.mpr ⟨fun hline => ?_, ih hnone⟩
      obtain ⟨fault, hfault⟩ := exists_fault hload hline
      rw [htranslate] at hfault
      exact absurd hfault nofun

end Loaded

/-! ### The program -/

/-- What stops `RAM_init` stops the program. -/
def stopOf : InitFault → Stop
  | .assertion => .assertion
  | .fault f => .fault f

/-- Without its text `RAM_init` is the function that loads the process. -/
theorem RAMInit_forget (fuel : ℕ) (n : UInt8) (seed : UInt32) :
    (RAMInit fuel n seed).map (·.map Prod.snd)
      = (VirtualMemory.RAMInit fuel n seed).map fun out =>
        (out.map Prod.fst).mapError stopOf := by
  unfold RAMInit VirtualMemory.RAMInit
  cases breakLoop (occCountRound n) fuel seed with
  | none => rfl
  | some draw =>
    obtain ⟨occCount, seed⟩ := draw
    dsimp only [Option.bind_some]
    cases ramInit fuel n occCount seed with
    | none => rfl
    | some out =>
      cases out with
      | error fault => rfl
      | ok out =>
        obtain ⟨m, seed'⟩ := out
        show some (Except.map Prod.snd (loadAfterInit n occCount m))
          = some (Except.mapError stopOf
              (Except.map Prod.fst (VirtualMemory.loadAfterInit n occCount (m, seed'))))
        unfold loadAfterInit VirtualMemory.loadAfterInit
        by_cases hroom : (NUM_FRAMES : ℤ) - (occupiedCount m.frames).toNat ≥ n.toNat ∨
            (NUM_FRAMES : ℤ) - occCount.toNat ≥ 10
        · simp only [if_pos hroom]
          cases loadProcess m n <;> rfl
        · simp only [if_neg hroom]
          rfl

/-- `RAM_init` prints the memory before the process is loaded and after. -/
theorem exists_RAMInit (n : UInt8) (seed : UInt32) :
    ∃ frames₀, Preoccupied (firstDraw seed).toNat frames₀ ∧ ∀ fuel ≥ 2 ^ 32, RAMInit fuel n seed
      = some (((loadProcess { frames := frames₀, table := ptCreate n } n).mapError .fault).map
          fun m => ("Physical RAM (100) after random init:\n".toList ++ memoryPrintout frames₀ ++
            ("Physical RAM (100) after loading processes:\n".toList ++ memoryPrintout m.frames),
            m)) := by
  have hdraw := firstDraw_le seed
  obtain ⟨frames₀, seed', hpre, hinit⟩ := exists_ramInit n
    (show (firstDraw seed).toNat ≤ NUM_FRAMES from hdraw.trans (by decide)) (nextSeed seed)
  refine ⟨frames₀, hpre, fun fuel hfuel => ?_⟩
  -- the assertion holds
  have hten : (NUM_FRAMES : ℤ) - (firstDraw seed).toNat ≥ 10 := by
    show (100 : ℤ) - _ ≥ 10
    omega
  rw [RAMInit, breakLoop_occCount n seed (by omega), Option.bind_some]
  show (ramInit fuel n (firstDraw seed) (nextSeed seed)).map _ = _
  rw [hinit fuel hfuel]
  show some (loadAfterInit n (firstDraw seed) _) = _
  rw [loadAfterInit, if_pos (.inr hten)]
  cases loadProcess { frames := frames₀, table := ptCreate n } n <;> rfl

/-- With room for the process and a line typed for each line of the file, the batch decides. -/
theorem exists_main (seed : ℤ) (n : UInt8) (file : List Char) (typed : List (List Char))
    (input : List Char) (hroom : n.toNat + (firstDraw (.ofInt seed)).toNat ≤ NUM_FRAMES)
    (hlength : typed.length = (reads LINE_SIZE two_le_LINE_SIZE file).length)
    (htyped : ∀ line ∈ typed, '\n' ∉ line) :
    ∃ frames₀ m, Preoccupied (firstDraw (.ofInt seed)).toNat frames₀ ∧
      loadProcess { frames := frames₀, table := ptCreate n } n = .ok m ∧ ∀ fuel ≥ 2 ^ 32,
        main fuel seed n (some file) (typed.flatMap (· ++ ['\n']) ++ input)
          = match (translateLines m (reads LINE_SIZE two_le_LINE_SIZE file)).2 with
            | none => some (.ok (transcript seed n frames₀ m.frames
                ((translateLines m (reads LINE_SIZE two_le_LINE_SIZE file)).1.map addrText), input))
            | some fault => some (.error (.fault fault)) := by
  obtain ⟨frames₀, hpre, hinit⟩ := exists_RAMInit n (.ofInt seed)
  have hfree := hpre.free
  obtain ⟨m, hload, -⟩ := exists_loadProcess frames₀ n (by omega)
  refine ⟨frames₀, m, hpre, hload, fun fuel hfuel => ?_⟩
  rw [main, hinit fuel hfuel, hload]
  show some (batchLoop m _ _ >>= _) = _
  rw [batchLoop_eq m hlength htyped]
  cases (translateLines m (reads LINE_SIZE two_le_LINE_SIZE file)).2 <;> rfl

/-- **A run of the program**: with room for the process in the frames that the seed leaves free, and
a line typed for each line of the file, none of which holds an address of the page `n`, the program
ends, and the answer to each line is the frame of the page of its address, or that the address is
out of range. -/
theorem main_transcript (seed : ℤ) (n : UInt8) (file : List Char) (typed : List (List Char))
    (input : List Char) (hroom : n.toNat + (firstDraw (.ofInt seed)).toNat ≤ NUM_FRAMES)
    (hlines : ∀ line ∈ reads LINE_SIZE two_le_LINE_SIZE file,
      (lineAddress line).toNat / 256 ≠ n.toNat)
    (hlength : typed.length = (reads LINE_SIZE two_le_LINE_SIZE file).length)
    (htyped : ∀ line ∈ typed, '\n' ∉ line) :
    ∃ frames₀ m answers, Preoccupied (firstDraw (.ofInt seed)).toNat frames₀ ∧
      Loaded frames₀ n m ∧
      List.Forall₂ (fun line => Answer n m.frames (lineAddress line))
        (reads LINE_SIZE two_le_LINE_SIZE file) answers ∧
      ∀ fuel ≥ 2 ^ 32, main fuel seed n (some file) (typed.flatMap (· ++ ['\n']) ++ input)
        = some (.ok (transcript seed n frames₀ m.frames answers, input)) := by
  obtain ⟨frames₀, m, hpre, hload, hmain⟩ :=
    exists_main seed n file typed input hroom hlength htyped
  obtain ⟨hnone, hanswers⟩ := translateLines_answers hload hlines
  refine ⟨frames₀, m, _, hpre, (loaded_of_loadProcess hload).2,
    List.forall₂_map_right_iff.mpr hanswers, fun fuel hfuel => ?_⟩
  rw [hmain fuel hfuel, hnone]

/-- A process of two pages, with an address of its page 1 and one out of range. -/
theorem main_transcript_two : ∃ frames₀ m answers, Preoccupied (firstDraw 1).toNat frames₀ ∧
    Loaded frames₀ 2 m ∧ List.Forall₂ (fun line => Answer 2 m.frames (lineAddress line))
      (reads LINE_SIZE two_le_LINE_SIZE "0x0105\n1024\n".toList) answers ∧
    ∀ fuel ≥ 2 ^ 32, main fuel 1 2 (some "0x0105\n1024\n".toList) "\n\n".toList
      = some (.ok (transcript 1 2 frames₀ m.frames answers, [])) := by
  have hreads : reads LINE_SIZE two_le_LINE_SIZE "0x0105\n1024\n".toList
      = ["0x0105\n".toList, "1024\n".toList] :=
    (reads_eq_lines _ (by decide)).trans (by decide)
  exact main_transcript 1 2 "0x0105\n1024\n".toList [[], []] [] (by decide)
    (by rw [hreads]; decide) (by rw [hreads]; rfl) (by decide)

/-! ### When it ends -/

/-- Without room the program stops, as `RAM_init` without its text does. -/
theorem RAMInit_of_noRoom {n : UInt8} {seed : UInt32}
    (h : NUM_FRAMES < n.toNat + (firstDraw seed).toNat) (fuel : ℕ) (hfuel : fuel ≥ 2 ^ 32) :
    RAMInit fuel n seed = some (.error (.fault .noFreeFrame)) := by
  have hforget := RAMInit_forget fuel n seed
  rw [VirtualMemory.RAMInit_of_noRoom h fuel hfuel] at hforget
  obtain ⟨out, hout, hstop⟩ := Option.map_eq_some_iff.mp hforget
  -- the text apart, it is stopped as well
  cases out with
  | ok => exact absurd hstop nofun
  | error stop =>
    obtain rfl : stop = .fault .noFreeFrame := Except.error.inj hstop
    exact hout

/-- **When the program ends**: with a line typed for each line of the file, it runs to its end if
and only if the first number drawn leaves room for the process and no line of the file holds an
address of the page `n`. -/
theorem main_ends_iff (seed : ℤ) (n : UInt8) (file : List Char) (typed : List (List Char))
    (input : List Char) (hlength : typed.length = (reads LINE_SIZE two_le_LINE_SIZE file).length)
    (htyped : ∀ line ∈ typed, '\n' ∉ line) :
    (∃ out, ∀ fuel ≥ 2 ^ 32,
        main fuel seed n (some file) (typed.flatMap (· ++ ['\n']) ++ input) = some (.ok out)) ↔
      n.toNat + (firstDraw (.ofInt seed)).toNat ≤ NUM_FRAMES ∧
        ∀ line ∈ reads LINE_SIZE two_le_LINE_SIZE file,
          (lineAddress line).toNat / 256 ≠ n.toNat := by
  constructor
  · rintro ⟨out, hout⟩
    have hmain := hout (2 ^ 32) le_rfl
    have hroom : n.toNat + (firstDraw (.ofInt seed)).toNat ≤ NUM_FRAMES := by
      by_contra hno
      rw [main, RAMInit_of_noRoom (not_le.mp hno) _ le_rfl] at hmain
      exact absurd (Option.some.inj hmain) nofun
    obtain ⟨frames₀, m, -, hload, hrun⟩ :=
      exists_main seed n file typed input hroom hlength htyped
    refine ⟨hroom, (translateLines_eq_none_iff hload _).mp ?_⟩
    rw [hrun _ le_rfl] at hmain
    cases hbatch : (translateLines m (reads LINE_SIZE two_le_LINE_SIZE file)).2 with
    | none => rfl
    | some fault =>
      rw [hbatch] at hmain
      exact absurd (Option.some.inj hmain) nofun
  · rintro ⟨hroom, hlines⟩
    obtain ⟨frames₀, m, -, hload, hrun⟩ :=
      exists_main seed n file typed input hroom hlength htyped
    simp only [(translateLines_eq_none_iff hload _).mpr hlines] at hrun
    exact ⟨_, hrun⟩

/-- A process of two pages and a line with an address of its page 2. -/
theorem main_ends_iff_two :
    (∃ out, ∀ fuel ≥ 2 ^ 32,
        main fuel 1 2 (some "0x0200\n".toList) "\n".toList = some (.ok out)) ↔
      (2 : UInt8).toNat + (firstDraw (.ofInt 1)).toNat ≤ NUM_FRAMES ∧
        ∀ line ∈ reads LINE_SIZE two_le_LINE_SIZE "0x0200\n".toList,
          (lineAddress line).toNat / 256 ≠ (2 : UInt8).toNat := by
  have hreads : reads LINE_SIZE two_le_LINE_SIZE "0x0200\n".toList = ["0x0200\n".toList] :=
    (reads_eq_lines _ (by decide)).trans (by decide)
  exact main_ends_iff 1 2 "0x0200\n".toList [[]] [] (by rw [hreads]; rfl) (by decide)

end OsLabs.VirtualMemory.Display
