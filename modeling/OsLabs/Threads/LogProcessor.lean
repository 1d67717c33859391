import OsLabs.Lib.Stdio

/-!
# The log processor (`005Threads/lib/log_processor.c`)

The hash table is a parameter: a correct map (`HashTable`).  A table stores pointers to counters; in
the model it maps a key to the counter itself, so that incrementing the counter of a key is setting
its value.

The functions with the suffix `_multit` do the same between `sem_wait` and `sem_post`; the workers
of `Main` run them as single steps.
-/

namespace OsLabs.Threads

/-- What `ht_create`, `ht_get` and `ht_set` of `lib/ht.h` do for a correct map. -/
structure HashTable (κ ν : Type) where
  Table : Type
  create : Table
  get : Table → κ → Option ν
  set : Table → κ → ν → Table
  get_create : ∀ key, get create key = none
  get_set_self : ∀ table key value, get (set table key value) key = some value
  get_set_of_ne : ∀ table key value key', key' ≠ key →
    get (set table key value) key' = get table key'

/-- A hash table with `ht_iterator`, `ht_next` and `ht_length`: an iteration visits every item once,
in an order of the table's own. -/
structure IterableTable (κ ν : Type) extends HashTable κ ν where
  /-- The items that `ht_next` visits. -/
  items : Table → List (κ × ν)
  length : Table → ℕ
  nodup_keys : ∀ table, ((items table).map Prod.fst).Nodup
  mem_items : ∀ table key value, (key, value) ∈ items table ↔ get table key = some value
  length_eq : ∀ table, length table = (items table).length

/-- The locals of a thread that `parse_log_entry` stores into. -/
structure Entry where
  ip : List Char
  url : List Char
  status : UInt16
  deriving DecidableEq, Repr

/-- The size of `buffer`. -/
def BUFFER_SIZE : ℕ := 100

/-- `"%16s - - %*s \"%*s %256[^\"]\" %hd"` -/
def ENTRY_FORMAT : List Directive :=
  [.word (some 16) true, .space, .lit '-', .space, .lit '-', .space, .word none false, .space,
    .lit '"', .word none false, .space, .upTo 256 '"', .lit '"', .space, .short]

/-- The sizes of `ip` and `url`. -/
def IP_SIZE : ℕ := 16

def URL_SIZE : ℕ := 256

/-- A string is stored into an array with a null character after it. -/
def storeString (size : ℕ) (s : List Char) : Option (List Char) :=
  if s.length < size then some s else none

/-- A number is stored into a `short`. -/
def storeShort (v : ℤ) : Option UInt16 :=
  if -32768 ≤ v ∧ v < 32768 then some (UInt16.ofInt v) else none

/-- `sscanf(buffer, .., ip, url, status)`: a conversion that was not reached stores nothing.  The
behaviour is undefined (`none`) when what is read does not fit where it is stored: a string is
written past the end of its array, or the number is none that a `short` represents. -/
def scanEntry (buffer : List Char) (e : Entry) : Option Entry :=
  match sscanf buffer ENTRY_FORMAT with
  | [.str ip, .str url, .int status] => do
    let ip ← storeString IP_SIZE ip
    let url ← storeString URL_SIZE url
    let status ← storeShort status
    return { ip := ip, url := url, status := status }
  | [.str ip, .str url] => do
    let ip ← storeString IP_SIZE ip
    let url ← storeString URL_SIZE url
    return { e with ip := ip, url := url }
  | [.str ip] => do
    let ip ← storeString IP_SIZE ip
    return { e with ip := ip }
  | _ => some e

/-- What `parse_log_entry` returns. -/
inductive Parsed where
  /-- 0: the file has ended. -/
  | eof
  /-- 1, with the rest of the file and what is in the locals. -/
  | entry (file : List Char) (e : Entry)
  /-- The behaviour of `sscanf` is undefined. -/
  | undefined
  deriving DecidableEq, Repr

/-- `parse_log_entry` -/
def parseLogEntry (file : List Char) (e : Entry) : Parsed :=
  match fgets BUFFER_SIZE file with
  | none => .eof
  | some (buffer, file) =>
    match scanEntry buffer e with
    | none => .undefined
    | some e => .entry file e

variable (H : HashTable (List Char) UInt32)

/-- The body of `count_ip_request` and `count_url_visits`. -/
def countKey (table : H.Table) (key : List Char) : H.Table :=
  match H.get table key with
  | some count => H.set table key (count + 1)
  | none => H.set table key 1

/-- `count_ip_request` -/
def countIpRequest (ipRequests : H.Table) (ip : List Char) : H.Table := countKey H ipRequests ip

/-- `count_url_visits` -/
def countUrlVisits (urlVisits : H.Table) (url : List Char) : H.Table := countKey H urlVisits url

/-- `count_errors` -/
def countErrors (errors : UInt16) : UInt16 := errors + 1

end OsLabs.Threads
