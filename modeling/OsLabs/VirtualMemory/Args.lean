import OsLabs.Lib.CInt
import OsLabs.Lib.Loop
import OsLabs.PageReplace.Args
import OsLabs.VirtualMemory.Display

/-!
# The command line (`009VirtualMemory/source/main.c`)

`parseArgs` takes the arguments two by two.  Its index is a `uint8_t`.  `atoi` is the function of
`PageReplace`.
-/

namespace OsLabs.VirtualMemory

open PageReplace (atoi narrow)

/-- `args` -/
structure Args where
  seed : ℤ
  file : List Char
  numVpage : UInt8
  deriving DecidableEq, Repr

/-- The size of the array `file`. -/
def FILE_SIZE : ℕ := 50

/-- What ends the program in `parseArgs`. -/
inductive Exit where
  | help
  | assertion
  /-- `strcpy` past the end of `file` -/
  | overflow
  deriving DecidableEq, Repr

/-- What `parseArgs` starts from. -/
def Args.start (time : ℤ) : Args where
  seed := int32 time
  file := "example_addresses.txt".toList
  numVpage := 49

/-- The loop body of `parseArgs`, with `argv[i]` and `argv[i+1]`. -/
def parseOption (arg value : List Char) (ret : Args) : Except Exit Args :=
  if arg = "-help".toList then .error .help
  else if arg = "-V".toList then .ok { ret with numVpage := narrow (atoi value) }
  else if arg = "-seed".toList then .ok { ret with seed := atoi value }
  else if arg = "-f".toList then
    if value.length < FILE_SIZE then .ok { ret with file := value } else .error .overflow
  else .ok ret

/-- The test of the loop of `parseArgs`, and its body. -/
def parseRound (argv : List (List Char)) (s : UInt8 × Args) :
    (UInt8 × Args) ⊕ Except Exit Args :=
  let (i, ret) := s
  if i.toNat < argv.length then
    -- the number of arguments is even, so there is an argument after this one
    match parseOption (argv.getD i.toNat []) (argv.getD (i.toNat + 1) []) ret with
    | .ok ret => .inl (i + 2, ret)
    | .error e => .inr (.error e)
  else .inr (.ok ret)

/-- `parseArgs` -/
def parseArgs (fuel : ℕ) (time : ℤ) (argv : List (List Char)) : Option (Except Exit Args) :=
  if (argv.length - 1) % 2 = 0 then breakLoop (parseRound argv) fuel (1, .start time)
  else some (.error .assertion)

namespace Display

/-- `HELPMSG` -/
def HELPMSG : List Char :=
  "Virtual Memory traduction simulator.\n".toList ++ "Available arguments:\n".toList ++
    " -V: number of virtual pages. Default: 49 pages\n".toList ++
    " -seed: random seed for reproducibility. ".toList ++
    "Default: random seed based on current time\n".toList ++
    " -f: file name with the batch of addresses (both hex and decimal are accepted). ".toList ++
    "Default: example_addresses.txt\n".toList ++
    " -help: show help manual of the program (overides any other argument)\n\n".toList

/-- The program at the time `time`, with what the files hold that can be opened. -/
def program (fuel : ℕ) (time : ℤ) (files : List Char → Option (List Char))
    (argv : List (List Char)) (input : List Char) :
    Option (Except (Exit ⊕ Stop) (List Char × List Char)) :=
  (parseArgs fuel time argv).bind fun
    | .error e => some (.error (.inl e))
    | .ok a => (main fuel a.seed a.numVpage (files a.file) input).map fun out =>
      (out.mapError .inr).map fun (text, input) =>
        ((if argv.length = 1 then HELPMSG else []) ++ text, input)

end Display

end OsLabs.VirtualMemory
