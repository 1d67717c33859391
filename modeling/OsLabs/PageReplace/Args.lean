import OsLabs.Lib.CInt
import OsLabs.PageReplace.Display
import OsLabs.PageReplace.Main

/-!
# The command line (`010PageReplace/source/main.c`)

`parse_args` goes through the arguments after the name of the program.  `main` hands what it
returns to the logger.
-/

namespace OsLabs.PageReplace

/-- `atoi(s)`, which is `(int)strtol(s, NULL, 10)`. -/
def atoi (s : List Char) : ℤ :=
  let (neg, cs) := match s.dropWhile isSpace with
    | '-' :: cs => (true, cs)
    | '+' :: cs => (false, cs)
    | cs => (false, cs)
  let v := scanDigits 10 cs
  int32 (if neg then if LONG_MAX < v then -LONG_MAX - 1 else -v
    else if LONG_MAX < v then LONG_MAX else v)

/-- What the program finds. -/
structure System where
  /-- What a file holds, if it can be opened. -/
  files : List Char → Option (List Char)
  /-- What `tmp` holds before. -/
  tmp : List Char
  /-- What `ret.algo` holds before. -/
  algo : List Char

/-- What `parseArgs` exits with. -/
inductive Exit where
  /-- `HELPMSG` -/
  | help (status : ℤ)
  /-- `N must be >= 1` -/
  | badFrames
  | badQuery (e : QueryError)
  /-- `Error: page reference sequence required (-query or -f).` -/
  | noQuery
  deriving DecidableEq, Repr

/-- `args`; `query` holds the first `query_len` pages. -/
structure Args where
  query : List UInt8
  numFrames : UInt8
  algo : List Char

/-- The size of `ret.algo`. -/
def ALGO_SIZE : ℕ := 32

/-- `args` before the loop of `parseArgs` -/
def Args.start (sys : System) : Args where
  query := []
  numFrames := 3
  algo := "all".toList ++ NUL :: sys.algo.drop 4

/-- A call of `parse_query_str` or `read_file`. -/
def liftQuery {α : Type} : Except QueryError α → Except Exit α
  | .ok a => .ok a
  | .error e => .error (.badQuery e)

/-- The loop of `parseArgs`, on the arguments from `i` on. -/
def parseLoop (sys : System) : List (List Char) → Args → Except Exit Args
  | [], ret => .ok ret
  | [arg], ret => if arg = "-help".toList then .error (.help 0) else .ok ret
  | arg :: value :: rest, ret =>
    if arg = "-help".toList then .error (.help 0)
    else if arg = "-N".toList then
      let numFrames := narrow (atoi value)
      if numFrames < 1 then .error .badFrames
      else parseLoop sys rest { ret with numFrames := numFrames }
    else if arg = "-query".toList then do
      let query ← liftQuery (parseQueryStr sys.tmp value)
      parseLoop sys rest { ret with query := query }
    else if arg = "-f".toList ∧ ret.query = [] then do
      let query ← liftQuery (readFile (sys.files value))
      parseLoop sys rest { ret with query := query }
    else if arg = "-a".toList then
      parseLoop sys rest { ret with algo := strncpy ret.algo value (ALGO_SIZE - 1) }
    -- no value is taken: it is the next argument
    else parseLoop sys (value :: rest) ret

/-- `parseArgs`, with the arguments after the name of the program -/
def parseArgs (sys : System) (argv : List (List Char)) : Except Exit Args := do
  if argv = [] then .error (.help (-1))
  let ret ← parseLoop sys argv (.start sys)
  if ret.query = [] then .error .noQuery
  return ret

namespace Display

/-- The first line `main` prints. -/
def headerText (numFrames : UInt8) (len : ℕ) (algo : List Char) : List Char :=
  "Frames: ".toList ++ dec numFrames.toNat ++ " | Sequence length: ".toList ++ dec len ++
    " | Algorithm: ".toList ++ algo ++ ['\n']

/-- `main` -/
def main (fuel : ℕ) (rate : UInt32 → UInt32 → List Char) (sys : System) (argv : List (List Char))
    (t : Terminal) : Except (Exit ⊕ Stop) Terminal :=
  match parseArgs sys argv with
  | .error e => .error (.inl e)
  | .ok a =>
    let t := t.print (headerText a.numFrames a.query.length (cString a.algo))
    let s := Logger.init (zeroMemory a.numFrames.toNat) a.query
    match run fuel rate (String.ofList (cString a.algo)) a.query s t with
    | .error e => .error (.inr e)
    | .ok (_, t) => .ok (t.print "Exiting...\n".toList)

end Display

end OsLabs.PageReplace
