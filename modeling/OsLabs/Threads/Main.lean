import OsLabs.Lib.CInt
import OsLabs.Lib.Interleave
import OsLabs.Threads.LogProcessor

/-!
# Single-threaded and multithreaded processing (`005Threads/source/main.c`)

`processSingleThread` is a loop of at most `fuel` rounds.  A worker of `process_multithread` is
somewhere in `process_log` (`Pc`), with its own locals; one of its steps is one critical section, or
the `sscanf` between two of them.  The uninitialised locals of a thread are arbitrary.
-/

namespace OsLabs.Threads

variable (H : HashTable (List Char) UInt32)

/-- The globals. -/
structure Globals where
  file : List Char
  ipRequests : H.Table
  urlVisits : H.Table
  errors : UInt16

/-- The globals when `main` starts to process `file`. -/
def Globals.init (file : List Char) : Globals H where
  file := file
  ipRequests := H.create
  urlVisits := H.create
  errors := 0

/-- The test for an error. -/
def isError (status : UInt16) : Bool := status ≥ 400 && status < 600

/-- `process_single_thread`, with the locals `e`.  It does not return (`none`) when the fuel is used
up, and when the behaviour of `sscanf` is undefined. -/
def processSingleThread : ℕ → Globals H → Entry → Option (Globals H)
  | 0, _, _ => none
  | fuel + 1, g, e =>
    match parseLogEntry g.file e with
    | .eof => some g
    | .undefined => none
    | .entry file e =>
      let g := { g with file := file }
      let g := { g with ipRequests := countIpRequest H g.ipRequests e.ip }
      let g := { g with urlVisits := countUrlVisits H g.urlVisits e.url }
      let g := if isError e.status then { g with errors := countErrors g.errors } else g
      processSingleThread fuel g e

/-- One round of the loop of `get_most_visited`: `best_count` and the string in `most_visited`.  The
counter is read through a pointer to `int`. -/
def mostVisitedStep (best : ℤ × List Char) (item : List Char × UInt32) : ℤ × List Char :=
  if int32 item.2.toNat > best.1 then (int32 item.2.toNat, item.1) else best

/-- `get_most_visited`, on the items of the iteration over `url_visits`: the result, and the string
it leaves in `most_visited`. -/
def getMostVisited (items : List (List Char × UInt32)) (mostVisited : List Char) : ℤ × List Char :=
  items.foldl mostVisitedStep (0, mostVisited)

/-- Where a worker is in `process_log`. -/
inductive Pc where
  /-- Before `fgets` in `parse_log_entry_multit`. -/
  | fgets
  /-- Before `sscanf`. -/
  | sscanf (buffer : List Char)
  /-- Before `count_ip_request_multit`. -/
  | countIp
  /-- Before `count_url_visits_multit`. -/
  | countUrl
  /-- Before `count_errors_multit`. -/
  | countErrors
  | returned
  deriving DecidableEq, Repr

/-- A worker: where it is, and its locals. -/
structure Worker where
  pc : Pc
  entry : Entry
  deriving DecidableEq, Repr

/-- The next step of a worker in `process_log`.  There is none after it has returned, nor when the
behaviour of `sscanf` is undefined. -/
def processLog (g : Globals H) (worker : Worker) : Option (Globals H × Worker) :=
  match worker.pc with
  | .fgets =>
    match fgets BUFFER_SIZE g.file with
    -- the critical section of `fgets` is left before the worker returns
    | none => some (g, { worker with pc := .returned })
    | some (buffer, file) => some ({ g with file := file }, { worker with pc := .sscanf buffer })
  -- outside every critical section: only the worker's own locals change
  | .sscanf buffer =>
    (scanEntry buffer worker.entry).map fun e => (g, { pc := .countIp, entry := e })
  | .countIp =>
    some ({ g with ipRequests := countIpRequest H g.ipRequests worker.entry.ip },
      { worker with pc := .countUrl })
  | .countUrl =>
    some ({ g with urlVisits := countUrlVisits H g.urlVisits worker.entry.url },
      { worker with pc := if isError worker.entry.status then .countErrors else .fgets })
  | .countErrors =>
    some ({ g with errors := countErrors g.errors }, { worker with pc := .fgets })
  | .returned => none

/-- `process_multithread` when all workers have been created, with their locals. -/
def processMultithread {n : ℕ} (file : List Char) (locals : Fin n → Entry) :
    World (Fin n) (Globals H) Worker where
  shared := Globals.init H file
  workers i := { pc := .fgets, entry := locals i }

end OsLabs.Threads
