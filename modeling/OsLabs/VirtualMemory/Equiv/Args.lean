import OsLabs.VirtualMemory.Args

/-!
# The options of the command line

The index of `parseArgs` has 8 bits.  Up to 127 options are read, and the last of each kind counts;
with 128 the index is back at 1 after the last of them, and the loop never ends
(`program_options`).
-/

namespace OsLabs.VirtualMemory

open PageReplace (atoi narrow)

/-- An option and its value. -/
abbrev Opt := List Char × List Char

namespace Opt

def text (o : Opt) : List (List Char) := [o.1, o.2]

/-- It does not end the program. -/
def WF (o : Opt) : Prop := o.1 ≠ "-help".toList ∧ (o.1 = "-f".toList → o.2.length < FILE_SIZE)

instance (o : Opt) : Decidable o.WF := inferInstanceAs (Decidable (_ ∧ _))

/-- The value, if this is the option `name`. -/
def value? (name : List Char) (o : Opt) : Option (List Char) :=
  if o.1 = name then some o.2 else none

end Opt

/-- The value of the last option `name`. -/
def lastOf (name : List Char) (opts : List Opt) : Option (List Char) :=
  (opts.filterMap (Opt.value? name)).getLast?

/-- What the options ask for. -/
def argsOf (time : ℤ) (opts : List Opt) : Args where
  seed := ((lastOf "-seed".toList opts).map atoi).getD (int32 time)
  file := (lastOf "-f".toList opts).getD "example_addresses.txt".toList
  numVpage := ((lastOf "-V".toList opts).map fun value => narrow (atoi value)).getD 49

/-! ### One option -/

/-- An option overrides those before it. -/
theorem lastOf_concat (name : List Char) (opts : List Opt) (o : Opt) :
    lastOf name (opts ++ [o]) = (o.value? name).or (lastOf name opts) := by
  unfold lastOf
  rw [List.filterMap_append, List.getLast?_append]
  cases h : o.value? name <;> simp [h]

/-- One more option has been read. -/
theorem parseOption_eq {o : Opt} (h : o.WF) (time : ℤ) (opts : List Opt) :
    parseOption o.1 o.2 (argsOf time opts) = .ok (argsOf time (opts ++ [o])) := by
  obtain ⟨arg, value⟩ := o
  obtain ⟨hhelp, hfile⟩ := h
  unfold parseOption argsOf
  simp only [lastOf_concat, Opt.value?]
  rw [if_neg hhelp]
  by_cases hV : arg = "-V".toList
  · subst hV
    rfl
  by_cases hseed : arg = "-seed".toList
  · subst hseed
    rfl
  by_cases hf : arg = "-f".toList
  · subst hf
    rw [if_neg hV, if_neg hseed, if_pos rfl, if_pos (hfile rfl)]
    rfl
  · simp only [if_neg hV, if_neg hseed, if_neg hf, Option.none_or]

theorem exists_parseOption {o : Opt} (h : o.WF) (ret : Args) :
    ∃ ret', parseOption o.1 o.2 ret = .ok ret' := by
  unfold parseOption
  rw [if_neg h.1]
  by_cases hf : o.1 = "-f".toList
  · rw [if_pos hf, if_pos (h.2 hf), hf]
    exact ⟨_, rfl⟩
  · rw [if_neg hf]
    split_ifs <;> exact ⟨_, rfl⟩

/-! ### The loop -/

/-- Two arguments for each option. -/
theorem length_texts (opts : List Opt) : (opts.flatMap Opt.text).length = 2 * opts.length := by
  induction opts with
  | nil => rfl
  | cons o opts ih =>
    rw [List.flatMap_cons, List.length_append, ih, List.length_cons]
    show 2 + _ = _
    omega

/-- Option `k` stands at the arguments `2 * k` and `2 * k + 1`. -/
theorem getD_texts {opts : List Opt} {k : ℕ} (hk : k < opts.length) :
    (opts.flatMap Opt.text).getD (2 * k) [] = opts[k].1 ∧
      (opts.flatMap Opt.text).getD (2 * k + 1) [] = opts[k].2 := by
  induction opts generalizing k with
  | nil => exact absurd hk (Nat.not_lt_zero k)
  | cons o opts ih =>
    cases k with
    | zero => exact ⟨rfl, rfl⟩
    | succ k => exact ih (Nat.lt_of_succ_lt_succ hk)

section Round

variable {opts : List Opt} (name : List Char)

/-- A round of the loop, at the option of its index. -/
theorem parseRound_eq {i : UInt8} {k : ℕ} (hi : i.toNat = 2 * k + 1) (hk : k < opts.length)
    {ret ret' : Args} (h : parseOption opts[k].1 opts[k].2 ret = .ok ret') :
    parseRound (name :: opts.flatMap Opt.text) (i, ret) = .inl (i + 2, ret') := by
  obtain ⟨harg, hvalue⟩ := getD_texts hk
  unfold parseRound
  have hlt : 2 * k + 1 < (name :: opts.flatMap Opt.text).length := by
    rw [List.length_cons, length_texts]
    omega
  simp only [hi, if_pos hlt, List.getD_cons_succ, harg, hvalue, h]

/-- The round behind the last option ends the loop. -/
theorem parseRound_end {i : UInt8} (hi : i.toNat = 2 * opts.length + 1) (ret : Args) :
    parseRound (name :: opts.flatMap Opt.text) (i, ret) = .inr (.ok ret) := by
  unfold parseRound
  have hnot : ¬i.toNat < (name :: opts.flatMap Opt.text).length := by
    rw [List.length_cons, length_texts]
    omega
  simp only [if_neg hnot]

/-- The options that are read are a prefix, and grow by one. -/
theorem parseLoop_eq (hWF : ∀ o ∈ opts, o.WF) (hfew : opts.length ≤ 127) (time : ℤ) {k : ℕ}
    (hk : k ≤ opts.length) {i : UInt8} (hi : i.toNat = 2 * k + 1) (fuel : ℕ)
    (hfuel : fuel > opts.length - k) :
    breakLoop (parseRound (name :: opts.flatMap Opt.text)) fuel (i, argsOf time (opts.take k))
      = some (.ok (argsOf time opts)) := by
  induction fuel generalizing k i with
  | zero => exact absurd hfuel (Nat.not_lt_zero _)
  | succ fuel ih =>
    rcases hk.lt_or_eq with hlt | rfl
    · have hoption := parseOption_eq (hWF _ (List.getElem_mem hlt)) time (opts.take k)
      rw [List.take_concat_get' opts k hlt] at hoption
      -- with at most 127 options the index does not wrap around
      have hnext : (i + 2).toNat = 2 * (k + 1) + 1 := by
        rw [UInt8.toNat_add, hi]
        show (2 * k + 1 + 2) % 256 = _
        omega
      rw [breakLoop, parseRound_eq name hi hlt hoption]
      exact ih hlt hnext (by omega)
    · rw [List.take_length]
      exact breakLoop_of_break (parseRound_end name hi _) fuel

/-- With 128 options the index stays at an option. -/
theorem parseLoop_eq_none (hWF : ∀ o ∈ opts, o.WF) (hmany : 128 ≤ opts.length) (ret : Args)
    (fuel : ℕ) : breakLoop (parseRound (name :: opts.flatMap Opt.text)) fuel (1, ret) = none := by
  -- the index is odd, so there is always an option at it
  refine breakLoop_eq_none (P := fun s => s.1.toNat % 2 = 1) (fun (i, ret) hodd => ?_) fuel rfl
  have hi := i.toNat_lt
  have hk : i.toNat / 2 < opts.length := by omega
  have hindex : i.toNat = 2 * (i.toNat / 2) + 1 := by
    have : i.toNat % 2 = 1 := hodd
    omega
  obtain ⟨ret', hret'⟩ := exists_parseOption (hWF _ (List.getElem_mem hk)) ret
  refine ⟨_, parseRound_eq name hindex hk hret', ?_⟩
  show (i + 2).toNat % 2 = 1
  rw [UInt8.toNat_add, hindex]
  show (2 * (i.toNat / 2) + 1 + 2) % 256 % 2 = 1
  omega

end Round

namespace Display

/-- **The command line**: whatever the options are, as long as none of them ends the program, up to
127 are read, the last of each kind counts, and without options the help text is printed first;
with 128 or more the program hangs before it prints anything else. -/
theorem program_options (time : ℤ) (files : List Char → Option (List Char)) (name : List Char)
    {opts : List Opt} (hWF : ∀ o ∈ opts, o.WF) (input : List Char) :
    (opts.length ≤ 127 → ∀ fuel ≥ 128,
      program fuel time files (name :: opts.flatMap Opt.text) input
        = (main fuel (argsOf time opts).seed (argsOf time opts).numVpage
            (files (argsOf time opts).file) input).map fun out =>
          (out.mapError .inr).map fun (text, input) =>
            ((if opts = [] then HELPMSG else []) ++ text, input)) ∧
    (128 ≤ opts.length → ∀ fuel,
      program fuel time files (name :: opts.flatMap Opt.text) input = none) := by
  have hlength : (name :: opts.flatMap Opt.text).length = 2 * opts.length + 1 := by
    rw [List.length_cons, length_texts]
  have hparse (fuel : ℕ) : parseArgs fuel time (name :: opts.flatMap Opt.text)
      = breakLoop (parseRound (name :: opts.flatMap Opt.text)) fuel (1, argsOf time []) :=
    if_pos (by omega)
  have hnone : (name :: opts.flatMap Opt.text).length = 1 ↔ opts = [] := by
    rw [hlength, ← List.length_eq_zero_iff]
    omega
  constructor
  · intro hfew fuel hfuel
    have hloop := parseLoop_eq name hWF hfew time (Nat.zero_le _) (i := 1) rfl fuel (by omega)
    rw [List.take_zero] at hloop
    rw [program, hparse, hloop]
    simp only [Option.bind_some, hnone]
  · intro hmany fuel
    rw [program, hparse, parseLoop_eq_none name hWF hmany]
    rfl

/-- Two options, of which the last counts. -/
theorem program_options_two :
    (∀ o ∈ [("-V".toList, "3".toList), ("-V".toList, "2".toList)], Opt.WF o) ∧
    ∀ fuel ≥ 128, program fuel 0 (fun _ => some "1024\n".toList)
        ("vm".toList :: [("-V".toList, "3".toList), ("-V".toList, "2".toList)].flatMap Opt.text)
        "\n".toList
      = (main fuel 0 2 (some "1024\n".toList) "\n".toList).map fun out =>
          (out.mapError .inr).map fun (text, input) => (text, input) := by
  have hWF : ∀ o ∈ [("-V".toList, "3".toList), ("-V".toList, "2".toList)], Opt.WF o := by decide
  exact ⟨hWF, (program_options 0 (fun _ => some "1024\n".toList) "vm".toList hWF
    "\n".toList).1 (by decide)⟩

end Display

end OsLabs.VirtualMemory
