import OsLabs.Threads.Equiv.Agreement

/-!
# The error counter

`errors` has 16 bits.  After the log has been processed, by one thread or by several of them, it is
the number of entries with an error modulo 65536, and so it is that number if and only if there
are at most 65535 of them (`countsErrors_iff`).
-/

namespace OsLabs.Threads

open Relation

/-- The number of entries whose status is in 400..599. -/
def errorEntries (file : List Char) : ℕ :=
  (lines file).countP fun line =>
    400 ≤ (entryOf line).status.toNat ∧ (entryOf line).status.toNat ≤ 599

variable {H : HashTable (List Char) UInt32}

theorem isError_iff {status : UInt16} :
    isError status = true ↔ 400 ≤ status.toNat ∧ status.toNat ≤ 599 := by
  unfold isError
  rw [Bool.and_eq_true, decide_eq_true_eq, decide_eq_true_eq, ge_iff_le, UInt16.le_iff_toNat_le,
    UInt16.lt_iff_toNat_lt]
  exact and_congr Iff.rfl Nat.lt_succ_iff

theorem CountsLines.toNat_errors {g : Globals H} {file : List Char} (h : CountsLines g file) :
    g.errors.toNat = errorEntries file % 65536 := by
  have hcount : errorEntries file
      = (lines file).countP fun line => isError (entryOf line).status := by
    refine List.countP_congr fun line _ => ?_
    rw [decide_eq_true_eq, isError_iff]
  rw [h.errors, UInt16.toNat_ofNat', hcount]

/-- The counter is right after `process_single_thread`, and after `process_multithread` with `n`
workers under every interleaving of them. -/
structure CountsErrors (H : HashTable (List Char) UInt32) (n : ℕ) (file : List Char) : Prop where
  single : ∀ e, (∃ fuel g, processSingleThread H fuel (Globals.init H file) e = some g) ∧
    ∀ fuel g, processSingleThread H fuel (Globals.init H file) e = some g →
      g.errors.toNat = errorEntries file
  multi : ∀ locals : Fin n → Entry,
    (∃ σ, ReflTransGen (Interleaving (processLog H)) (processMultithread H file locals) σ ∧
      AllReturned σ) ∧
    ∀ σ, ReflTransGen (Interleaving (processLog H)) (processMultithread H file locals) σ →
      AllReturned σ → σ.shared.errors.toNat = errorEntries file

/-- **The error counter counts every error** of a log file if and only if there are at most 65535 of
them. -/
theorem countsErrors_iff (H : HashTable (List Char) UInt32) {n : ℕ} (hn : 0 < n)
    (file : List Char) (hfile : WellFormedFile file) :
    CountsErrors H n file ↔ errorEntries file ≤ 65535 := by
  have hsingle (e : Entry) (fuel : ℕ) (g : Globals H)
      (hrun : processSingleThread H fuel (Globals.init H file) e = some g) :
      g.errors.toNat = errorEntries file % 65536 := by
    have h := processSingleThread_represents (represents_init file) hfile hrun
    rw [add_zero] at h
    exact h.countsLines.toNat_errors
  constructor
  · intro h
    obtain ⟨⟨fuel, g, hrun⟩, hright⟩ := h.single (entryOf [])
    have hmod := (hright fuel g hrun).symm.trans (hsingle _ fuel g hrun)
    omega
  · intro hle
    refine ⟨fun e => ⟨exists_processSingleThread hfile e, fun fuel g hrun => ?_⟩,
      fun locals => ⟨exists_processMultithread hfile locals, fun σ hrun hreturned => ?_⟩⟩
    · rw [hsingle e fuel g hrun]
      omega
    · have h := processMultithread_represents hfile hn hrun hreturned
      rw [h.countsLines.toNat_errors]
      omega

theorem countsErrors_iff_two :
    CountsErrors functionTable 2 twoLines ↔ errorEntries twoLines ≤ 65535 :=
  countsErrors_iff functionTable (by decide) twoLines wellFormedFile_twoLines

/-! ### A log with 65536 errors -/

/-- A line with an error. -/
def errorLine : List Char := "10.0.0.1 - - [t] \"GET /a\" 404\n".toList

/-- The line `k` times. -/
def errorLines (k : ℕ) : List Char := (List.replicate k errorLine).flatten

theorem lines_errorLines (k : ℕ) : lines (errorLines k) = List.replicate k errorLine := by
  refine lines_of_flatten fun line hline => ?_
  obtain rfl := List.eq_of_mem_replicate hline
  exact ⟨"10.0.0.1 - - [t] \"GET /a\" 404".toList, by decide, by decide⟩

theorem wellFormedFile_errorLines (k : ℕ) : WellFormedFile (errorLines k) := by
  intro line hline
  rw [lines_errorLines] at hline
  obtain rfl := List.eq_of_mem_replicate hline
  exact ⟨by decide, "10.0.0.1".toList, "/a".toList, 404, by decide⟩

theorem errorEntries_errorLines (k : ℕ) : errorEntries (errorLines k) = k := by
  rw [errorEntries, lines_errorLines, List.countP_replicate, if_pos (by decide)]

/-- After 65536 errors the counter is 0. -/
theorem not_countsErrors :
    ¬∀ file, WellFormedFile file → CountsErrors functionTable 2 file := by
  intro hall
  obtain ⟨⟨fuel, g, hrun⟩, hright⟩ :=
    (hall (errorLines 65536) (wellFormedFile_errorLines _)).single (entryOf [])
  have hcount := hright fuel g hrun
  rw [errorEntries_errorLines] at hcount
  have hlt := g.errors.toNat_lt
  omega

end OsLabs.Threads
