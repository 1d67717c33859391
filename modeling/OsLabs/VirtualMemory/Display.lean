import OsLabs.Lib.Numerals
import OsLabs.Lib.Screen
import OsLabs.VirtualMemory.Main

/-!
# What the program prints (`009VirtualMemory/lib/memio.c`, `source/main.c`)

The text on the terminal of a program that is not stopped, and what it takes of the standard input
for its pauses.  `main` has the arguments that `parseArgs` returns, with the file in place of its
name.
-/

namespace OsLabs.VirtualMemory.Display

/-- What can stop the program. -/
inductive Stop where
  | assertion
  | fault (f : Fault)
  /-- The file is not opened, and `fgets` is given a null pointer. -/
  | file
  /-- `getchar` does not return a newline any more. -/
  | input
  deriving DecidableEq, Repr

/-! ### The frames -/

/-- `CLR_RST` -/
def CLR_RST : List Char := ESC :: "[0m".toList

/-- `STS_CLRS` -/
def STS_CLRS : FrameState → List Char
  | .free => ESC :: "[92m".toList
  | .preoccupied => ESC :: "[91m".toList
  | .occupied => ESC :: "[96m".toList

/-- `%03d` -/
def dec3 (n : ℕ) : List Char := List.leftpad 3 '0' (Nat.toDigits 10 n)

/-- `%#0wX`: zero has no `0X`. -/
def hex (w n : ℕ) : List Char :=
  if n = 0 then List.replicate w '0'
  else '0' :: 'X' :: List.leftpad (w - 2) '0' ((Nat.toDigits 16 n).map Char.toUpper)

/-- `content` -/
def content (block : Frame) : List Char :=
  match block.state with
  | .preoccupied => "----".toList
  | .occupied => hex 4 block.vPage.toNat
  | .free => "    ".toList

/-- `frame_display` -/
def frameDisplay (frameNum : ℕ) (block : Frame) : List Char :=
  STS_CLRS block.state ++ '|' :: dec3 frameNum ++ ':' :: content block ++ '|' :: CLR_RST

/-- A round of the loop of `RAM_map`. -/
def mapCell (view : Fin NUM_FRAMES → Frame) (i : Fin NUM_FRAMES) : List Char :=
  if i.val % 10 = 0 then '|' :: frameDisplay i (view i)
  else if i.val % 10 = 9 then frameDisplay i (view i) ++ "|\n".toList
  else frameDisplay i (view i)

/-- `RAM_map` -/
def RAMMap (view : Fin NUM_FRAMES → Frame) : List Char :=
  '/' :: List.replicate 100 '-' ++ "\\\n".toList ++
    (List.finRange NUM_FRAMES).flatMap (mapCell view) ++
    '\\' :: List.replicate 100 '-' ++ "/\n".toList

/-- `summary` -/
def summary (frames : Fin NUM_FRAMES → Frame) : List Char :=
  let occ := (occupiedCount frames).toNat
  "Free Frames: ".toList ++ decimal ((NUM_FRAMES : ℤ) - occ) ++ " || Occupied Frames: ".toList ++
    decimal occ ++ ['\n']

/-- `memory_printout` -/
def memoryPrintout (frames : Fin NUM_FRAMES → Frame) : List Char := summary frames ++ RAMMap frames

/-- `RAM_init` after the call of `ram_init`, with what it prints. -/
def loadAfterInit (numVpage occCount : UInt8) (m : Mmu) : Except Stop (List Char × Mmu) :=
  if (NUM_FRAMES : ℤ) - (occupiedCount m.frames).toNat ≥ numVpage.toNat ∨
      (NUM_FRAMES : ℤ) - occCount.toNat ≥ 10 then do
    let before := "Physical RAM (100) after random init:\n".toList ++ memoryPrintout m.frames
    let m ← (loadProcess m numVpage).mapError .fault
    let after := "Physical RAM (100) after loading processes:\n".toList ++ memoryPrintout m.frames
    return (before ++ after, m)
  else .error .assertion

/-- `RAM_init`: what it prints and the memory on return, with the `_seed` on entry. -/
def RAMInit (fuel : ℕ) (numVpage : UInt8) (seed : UInt32) :
    Option (Except Stop (List Char × Mmu)) :=
  (breakLoop (occCountRound numVpage) fuel seed).bind fun (occCount, seed) =>
    (ramInit fuel numVpage occCount seed).map fun out =>
      (out.mapError .fault).bind fun (m, _) => loadAfterInit numVpage occCount m

/-! ### The addresses -/

/-- The text of what `addr_translate` prints. -/
def addrText : Printed → List Char
  | .outOfRange => "ERROR! VA out of range.\n".toList
  | .address va vpn off pfn pa =>
    "VA = ".toList ++ hex 6 va.toNat ++ " - ".toList ++ STS_CLRS .occupied ++ "VPN = ".toList ++
      hex 4 vpn ++ CLR_RST ++ " - OFF = ".toList ++ hex 4 off ++ " - ".toList ++ STS_CLRS .free ++
      "PFN = ".toList ++ dec3 pfn ++ CLR_RST ++ " - PA = ".toList ++ hex 6 pa.toNat ++ ['\n']

/-- `while (getchar() != '\n');`: the input after it -/
def awaitEnter : List Char → Except Stop (List Char)
  | [] => .error .input
  | c :: cs => if c = '\n' then .ok cs else awaitEnter cs

/-- The loop of `batch_translate`: what it prints, and the input after it. -/
def batchLoop (m : Mmu) : List (List Char) → List Char → Except Stop (List Char × List Char)
  | [], input => .ok ([], input)
  | line :: lines, input => do
    let printed ← (translateLine m line).mapError .fault
    let input ← awaitEnter input
    let (text, input) ← batchLoop m lines input
    return (addrText printed ++ "Press Enter to continue...".toList ++ text, input)

theorem two_le_LINE_SIZE : 2 ≤ LINE_SIZE := by decide

/-- `main`, with the contents of the file if it can be opened. -/
def main (fuel : ℕ) (seed : ℤ) (numVpage : UInt8) (file : Option (List Char)) (input : List Char) :
    Option (Except Stop (List Char × List Char)) :=
  (RAMInit fuel numVpage (.ofInt seed)).map fun out => do
    let (ram, m) ← out
    let file ← file.elim (.error .file) .ok
    let (batch, input) ← batchLoop m (reads LINE_SIZE two_le_LINE_SIZE file) input
    return ("Working with seed = ".toList ++ decimal seed ++ " and ".toList ++
      decimal numVpage.toNat ++ " virtual pages.\n\n".toList ++ ram ++
      "\nStarting batch translate...\n".toList ++ batch ++
      "Finished batch translation, exiting...\n".toList, input)

end OsLabs.VirtualMemory.Display
