import OsLabs.Lib.Strings
import OsLabs.VirtualMemory.Memio

/-!
# The batch of addresses (`009VirtualMemory/source/main.c`)

The pauses between two lines, which wait for a newline from the keyboard, are in `Display`.
-/

namespace OsLabs.VirtualMemory

/-- The size of the buffer `line`. -/
def LINE_SIZE : ℕ := 20

/-- The loop body of `batch_translate`. -/
def translateLine (m : Mmu) (line : List Char) : Except Fault Printed :=
  let line := (cString line).takeWhile (· ≠ '\n')
  let vAddr : UInt16 := .ofInt (strtol line)
  addrTranslate m vAddr

/-- The loop of `batch_translate`: what it prints, and what stops it, if anything does. -/
def translateLines (m : Mmu) : List (List Char) → List Printed × Option Fault
  | [] => ([], none)
  | line :: rest =>
    match translateLine m line with
    | .error fault => ([], some fault)
    | .ok printed =>
      let (printeds, fault) := translateLines m rest
      (printed :: printeds, fault)

/-- `batch_translate` -/
def batchTranslate (m : Mmu) (file : List Char) : List Printed × Option Fault :=
  translateLines m (reads LINE_SIZE (by decide) file)

end OsLabs.VirtualMemory
