import OsLabs.Lib.Critical
import OsLabs.Threads.Ht
import OsLabs.Threads.Main

/-!
# The log processor with its own hash table and its semaphores

The functions of `log_processor.c` and `main.c` once more, with the hash table of `ht.c` instead of
a map, and with the counters behind the pointers that it stores.  `malloc` gives memory that nothing
else uses, so the counters of the two tables are kept apart (`Counters`).  `none` stands for an
access outside of the memory or a search that goes on forever.

The functions with the suffix `_multit` are critical sections of small steps (`processLogCode`):
a call of `ht_get` or `ht_set`, a `malloc`, and the load and the store of each increment are steps
of their own, and so are `sem_wait` and `sem_post`.
-/

namespace OsLabs.Threads.Memory

/-- A hash table of pointers to counters, and the counters; a pointer is the number of a counter. -/
structure Counters where
  table : Ht ℕ
  cells : List UInt32

/-- A table from `ht_create`. -/
def Counters.create : Counters where
  table := htCreate
  cells := []

/-! ### A single thread -/

/-- The body of `count_ip_request` and `count_url_visits`; they ignore what `ht_set` returns. -/
def countKey (c : Counters) (key : List Char) : Option Counters :=
  match htGet c.table key with
  | none => none
  | some (some rcount) =>
    match c.cells[rcount]? with
    | none => none
    | some n => some { c with cells := c.cells.set rcount (n + 1) }
  | some none =>
    (htSet c.table key c.cells.length).map fun (_, table) =>
      { table := table, cells := c.cells ++ [1] }

/-- `count_ip_request` -/
def countIpRequest (ipRequests : Counters) (ip : List Char) : Option Counters :=
  countKey ipRequests ip

/-- `count_url_visits` -/
def countUrlVisits (urlVisits : Counters) (url : List Char) : Option Counters :=
  countKey urlVisits url

/-- The globals. -/
structure Globals where
  file : List Char
  ipRequests : Counters
  urlVisits : Counters
  errors : UInt16

/-- The globals when `main` starts to process `file`. -/
def Globals.init (file : List Char) : Globals where
  file := file
  ipRequests := .create
  urlVisits := .create
  errors := 0

/-- `process_single_thread`, for at most `fuel` rounds and with the locals `e`.  It does not return
(`none`) when the behaviour of `sscanf` is undefined either. -/
def processSingleThread : ℕ → Globals → Entry → Option Globals
  | 0, _, _ => none
  | fuel + 1, g, e =>
    match parseLogEntry g.file e with
    | .eof => some g
    | .undefined => none
    | .entry file e =>
      match countIpRequest g.ipRequests e.ip, countUrlVisits g.urlVisits e.url with
      | some ipRequests, some urlVisits =>
        processSingleThread fuel
          { file := file
            ipRequests := ipRequests
            urlVisits := urlVisits
            errors := if isError e.status then countErrors g.errors else g.errors } e
      | _, _ => none

/-- The loop of `get_most_visited`, for at most `fuel` rounds: `best_count` and the string in
`most_visited`. -/
def mostVisitedLoop (cells : List UInt32) : ℕ → Hti ℕ → ℤ × List Char → Option (ℤ × List Char)
  | 0, _, _ => none
  | fuel + 1, it, best =>
    match htNext it with
    | none => some best
    | some ((key, count), it) =>
      match cells[count]? with
      | none => none
      | some n => mostVisitedLoop cells fuel it (mostVisitedStep best (key, n))

/-- `get_most_visited` -/
def getMostVisited (fuel : ℕ) (urlVisits : Counters) (mostVisited : List Char) :
    Option (ℤ × List Char) :=
  mostVisitedLoop urlVisits.cells fuel (htIterator urlVisits.table) (0, mostVisited)

/-! ### The workers -/

/-- `file_mutex`, `ip_request_mutex`, `url_visits_mutex`, `errors_mutex` -/
inductive Sem where
  | file
  | ip
  | url
  | errors
  deriving DecidableEq, Repr

/-- Where a worker is in `count_ip_request_multit` or `count_url_visits_multit`, after
`sem_wait`. -/
inductive CountPc where
  | get
  /-- Before the load of `(*rcount)++`. -/
  | load (rcount : ℕ)
  | store (rcount : ℕ) (n : UInt32)
  | malloc
  /-- Before `*rcount = 1`. -/
  | init (rcount : ℕ)
  | set (rcount : ℕ)
  | post
  deriving DecidableEq, Repr

/-- The next step of the body of `count_ip_request_multit` and `count_url_visits_multit`.  The
contents of new memory are arbitrary; the model has 0. -/
def countStep (c : Counters) (key : List Char) : CountPc → Option (Counters × CountPc)
  | .get =>
    match htGet c.table key with
    | none => none
    | some (some rcount) => some (c, .load rcount)
    | some none => some (c, .malloc)
  | .load rcount => (c.cells[rcount]?).map fun n => (c, .store rcount n)
  | .store rcount n => some ({ c with cells := c.cells.set rcount (n + 1) }, .post)
  | .malloc => some ({ c with cells := c.cells ++ [0] }, .init c.cells.length)
  | .init rcount => some ({ c with cells := c.cells.set rcount 1 }, .set rcount)
  | .set rcount =>
    (htSet c.table key rcount).map fun (_, table) => ({ c with table := table }, .post)
  | .post => none

/-- Where a worker is in `parse_log_entry_multit`, after `sem_wait`. -/
inductive ReadPc where
  | fgets
  /-- Before `sem_post`, with what was read. -/
  | post (buffer : Option (List Char))
  deriving DecidableEq, Repr

/-- Where a worker is in `count_errors_multit`, after `sem_wait`. -/
inductive ErrorsPc where
  | load
  | store (n : UInt16)
  | post
  deriving DecidableEq, Repr

/-- What a semaphore guards. -/
def Component : Sem → Type
  | .file => List Char
  | .ip => Counters
  | .url => Counters
  | .errors => UInt16

/-- A worker in a critical section: where it is, and its locals. -/
def Inside : Sem → Type
  | .file => ReadPc × Entry
  | .ip => CountPc × Entry
  | .url => CountPc × Entry
  | .errors => ErrorsPc × Entry

/-- What a worker does next outside of the critical sections. -/
def next (worker : Worker) : Next Sem Inside Worker :=
  match worker.pc with
  | .fgets => .enter .file (.fgets, worker.entry)
  | .sscanf buffer =>
    match scanEntry buffer worker.entry with
    | some e => .run { pc := .countIp, entry := e }
    -- the behaviour of `sscanf` is undefined
    | none => .stop
  | .countIp => .enter .ip (.get, worker.entry)
  | .countUrl => .enter .url (.get, worker.entry)
  | .countErrors => .enter .errors (.load, worker.entry)
  | .returned => .stop

/-- The next step of a worker in a critical section. -/
def step : (r : Sem) → Component r → Inside r → Option (Component r × Inside r)
  | .file, file, (.fgets, e) =>
    match fgets BUFFER_SIZE file with
    | none => some (file, (.post none, e))
    | some (buffer, rest) => some (rest, (.post (some buffer), e))
  | .file, _, (.post _, _) => none
  | .ip, c, (pc, e) => (countStep c e.ip pc).map fun (c, pc) => (c, (pc, e))
  | .url, c, (pc, e) => (countStep c e.url pc).map fun (c, pc) => (c, (pc, e))
  | .errors, errors, (.load, e) => some (errors, (.store errors, e))
  | .errors, _, (.store n, e) => some (countErrors n, (.post, e))
  | .errors, _, (.post, _) => none

/-- Where a worker goes on after `sem_post`, if the critical section is over. -/
def leave : (r : Sem) → Inside r → Option Worker
  | .file, (.post none, e) => some { pc := .returned, entry := e }
  | .file, (.post (some buffer), e) => some { pc := .sscanf buffer, entry := e }
  | .ip, (.post, e) => some { pc := .countUrl, entry := e }
  | .url, (.post, e) =>
    some { pc := if isError e.status then .countErrors else .fgets, entry := e }
  | .errors, (.post, e) => some { pc := .fgets, entry := e }
  | _, _ => none

/-- `process_log`, in small steps. -/
def processLogCode : Code Sem Component Inside Worker where
  next := next
  step := step
  leave := leave

/-- The globals, as the semaphores guard them. -/
def Globals.component (g : Globals) : (r : Sem) → Component r
  | .file => g.file
  | .ip => g.ipRequests
  | .url => g.urlVisits
  | .errors => g.errors

/-- `process_multithread` when all workers have been created, with their locals. -/
def processMultithread {n : ℕ} (file : List Char) (locals : Fin n → Entry) :
    World (Fin n) (Guarded Sem Component) (Place Sem Inside Worker) :=
  Code.start (Globals.init file).component fun i => { pc := .fgets, entry := locals i }

end OsLabs.Threads.Memory
