import OsLabs.Lib.Loop
import OsLabs.VirtualMemory.Random
import Mathlib.Data.List.FinRange

/-!
# The memory management unit (`009VirtualMemory/os/mmu.c`, `os/page_table.c`)

`frames[]` has a fixed size, so it is a function on `Fin NUM_FRAMES`.  The entries of a page table
are allocated with the size given to `pt_create`, and they are subscripted by page numbers that the
callers choose: `ptGetPfn` and `ptSetEntry` fail with `Fault.entry` when the subscript is outside
the allocation.  `malloc` and `calloc` are taken to succeed.
-/

namespace OsLabs.VirtualMemory

open Function

/-! ### Data (`os/RAM.h`, `os/mmu.h`, `os/page_table.c`) -/

/-- `NUM_FRAMES` -/
def NUM_FRAMES : ℕ := 100

/-- `FREE`, `PREOCCUPIED`, `OCCUPIED` -/
inductive FrameState where
  | free
  | preoccupied
  | occupied
  deriving DecidableEq, Repr

/-- `frame` -/
structure Frame where
  state : FrameState
  vPage : UInt8
  deriving DecidableEq, Repr

/-- `pt_entry` -/
structure PtEntry where
  pfn : UInt8
  valid : UInt8
  deriving DecidableEq, Repr

/-- `pt` -/
structure PageTable where
  entries : List PtEntry
  numVpages : UInt8

/-- The static data of `mmu.c`: `frames` and `table`. -/
structure Mmu where
  frames : Fin NUM_FRAMES → Frame
  table : PageTable

/-- What can stop the program. -/
inductive Fault where
  /-- `entries[vpn]` outside the allocation. -/
  | entry (vpn : ℕ)
  /-- `frames[i]` with `i` outside `0..NUM_FRAMES-1`. -/
  | frame (i : ℤ)
  /-- The exit of `load_process`. -/
  | noFreeFrame
  deriving DecidableEq, Repr

/-! ### The page table -/

/-- `pt_create` -/
def ptCreate (numVpages : UInt8) : PageTable where
  entries := List.replicate numVpages.toNat { pfn := 0, valid := 0 }
  numVpages := numVpages

/-- `pt_get_pfn` -/
def ptGetPfn (table : PageTable) (vpn : UInt8) : Except Fault ℤ :=
  if vpn > table.numVpages then .ok (-1)
  else
    match table.entries[vpn.toNat]? with
    | some entry => .ok (int8 entry.pfn.toNat)
    | none => .error (.entry vpn.toNat)

/-- `pt_set_entry` -/
def ptSetEntry (table : PageTable) (vpn pfn : UInt8) : Except Fault PageTable :=
  if vpn.toNat < table.entries.length then
    .ok { table with entries := table.entries.set vpn.toNat { pfn := pfn, valid := 1 } }
  else .error (.entry vpn.toNat)

/-! ### Frames -/

/-- `allocate_frame` -/
def allocateFrame (frames : Fin NUM_FRAMES → Frame) : ℤ :=
  match (List.finRange NUM_FRAMES).find? fun i => (frames i).state = .free with
  | some i => int8 (i : ℕ)
  | none => -1

/-- `frames[i] = f` -/
def setFrame (frames : Fin NUM_FRAMES → Frame) (i : ℤ) (f : Frame) :
    Except Fault (Fin NUM_FRAMES → Frame) :=
  if h : 0 ≤ i ∧ i.toNat < NUM_FRAMES then .ok (update frames ⟨i.toNat, h.2⟩ f)
  else .error (.frame i)

/-- `frames[i]` -/
def getFrame (frames : Fin NUM_FRAMES → Frame) (i : ℤ) : Except Fault Frame :=
  if h : 0 ≤ i ∧ i.toNat < NUM_FRAMES then .ok (frames ⟨i.toNat, h.2⟩) else .error (.frame i)

/-- `occupied_count` -/
def occupiedCount (frames : Fin NUM_FRAMES → Frame) : UInt8 :=
  (List.finRange NUM_FRAMES).foldl
    (fun count i => if (frames i).state = .free then count else count + 1) 0

/-! ### Initialization -/

/-- A round of the `while (1)` loop of `ram_init`, after the draw. -/
def preoccupyDrawn (frames : Fin NUM_FRAMES → Frame) (randIdx : ℤ) (seed : UInt32) :
    UInt32 ⊕ Except Fault ((Fin NUM_FRAMES → Frame) × UInt32) :=
  match getFrame frames randIdx with
  | .error fault => .inr (.error fault)
  | .ok frame =>
    if frame.state = .free then
      .inr ((setFrame frames randIdx { frame with state := .preoccupied }).map (·, seed))
    else .inl seed

/-- A round of the `while (1)` loop of `ram_init`. -/
def preoccupyRound (frames : Fin NUM_FRAMES → Frame) (seed : UInt32) :
    UInt32 ⊕ Except Fault ((Fin NUM_FRAMES → Frame) × UInt32) :=
  let draw := randRange 0 (NUM_FRAMES - 1) seed
  preoccupyDrawn frames draw.1 draw.2

/-- The loop of `ram_init` that occupies `occCount` frames, given up when `fuel` rounds do not find
a free one. -/
def preoccupy (fuel : ℕ) : ℕ → (Fin NUM_FRAMES → Frame) × UInt32 →
    Option (Except Fault ((Fin NUM_FRAMES → Frame) × UInt32))
  | 0, s => some (.ok s)
  | occCount + 1, (frames, seed) =>
    match breakLoop (preoccupyRound frames) fuel seed with
    | none => none
    | some (.error fault) => some (.error fault)
    | some (.ok s) => preoccupy fuel occCount s

/-- `ram_init`, with the `_seed` on entry and on return. -/
def ramInit (fuel : ℕ) (numVpage occCount : UInt8) (seed : UInt32) :
    Option (Except Fault (Mmu × UInt32)) :=
  (preoccupy fuel occCount.toNat (fun _ => { state := .free, vPage := 0 }, seed)).map
    fun out => out.map fun (frames, seed) =>
      ({ frames := frames, table := ptCreate numVpage }, seed)

/-! ### Loading and translation -/

/-- The loop body of `load_process`. -/
def loadPage (m : Mmu) (i : ℕ) : Except Fault Mmu :=
  let freeIdx := allocateFrame m.frames
  if freeIdx ≠ -1 then do
    let table ← ptSetEntry m.table (.ofNat i) (.ofInt freeIdx)
    let frames ← setFrame m.frames freeIdx { state := .occupied, vPage := .ofNat i }
    return { frames := frames, table := table }
  else .error .noFreeFrame

/-- `load_process` -/
def loadProcess (m : Mmu) (numVpage : UInt8) : Except Fault Mmu :=
  (List.range numVpage.toNat).foldlM loadPage m

/-- `translate` -/
def translate (m : Mmu) (vAddr : UInt16) : Except Fault ℤ := do
  let vpn : UInt8 := .ofNat (vAddr.toNat / 256 % 256)
  let pfn ← ptGetPfn m.table vpn
  if int16 pfn = -1 then return -1
  return int16 (int16 pfn * 256 + vAddr.toNat % 256)

end OsLabs.VirtualMemory
