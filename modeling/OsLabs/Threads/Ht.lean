import OsLabs.Lib.LinearProbing

/-!
# The hash table (`005Threads/lib/ht.c`)

Open addressing with linear probing, for values of any type `ν` (a `void*` that is not `NULL`).  The
two probing loops are `probe`; a table with no empty slot and without the key would be probed
forever, and that, like an access outside `entries`, is `none`.  Memory is taken to be available.
-/

namespace OsLabs.Threads

/-- `INITIAL_CAPACITY` -/
def INITIAL_CAPACITY : UInt64 := 16

/-- `FNV_OFFSET` -/
def FNV_OFFSET : UInt64 := 14695981039346656037

/-- `FNV_PRIME` -/
def FNV_PRIME : UInt64 := 1099511628211

/-- `hash_key` -/
def hashKey (key : List Char) : UInt64 :=
  key.foldl (fun hash c => (hash ^^^ c.toNat.toUInt8.toUInt64) * FNV_PRIME) FNV_OFFSET

variable {ν : Type}

/-- `ht_entry`: `none` for a slot whose `key` is `NULL`. -/
abbrev HtEntry (ν : Type) : Type := Option (List Char × ν)

/-- `struct ht` -/
structure Ht (ν : Type) where
  entries : List (HtEntry ν)
  capacity : UInt64
  length : UInt64
  deriving DecidableEq, Repr

/-- `ht_create` -/
def htCreate : Ht ν where
  entries := List.replicate INITIAL_CAPACITY.toNat none
  capacity := INITIAL_CAPACITY
  length := 0

/-- The first index of both probing loops. -/
def firstIndex (key : List Char) (capacity : UInt64) : ℕ := (hashKey key &&& (capacity - 1)).toNat

/-- `ht_get`: the value, or `none` for `NULL`. -/
def htGet (table : Ht ν) (key : List Char) : Option (Option ν) :=
  match probe table.capacity.toNat table.entries key table.capacity.toNat
    (firstIndex key table.capacity) with
  | none => none
  | some index =>
    match table.entries[index]? with
    | some (some (_, value)) => some (some value)
    | _ => some none

/-- `ht_set_entry`: the entries, and whether `plength` is incremented. -/
def htSetEntry (entries : List (HtEntry ν)) (capacity : UInt64) (key : List Char) (value : ν) :
    Option (List (HtEntry ν) × Bool) :=
  match probe capacity.toNat entries key capacity.toNat (firstIndex key capacity) with
  | none => none
  | some index =>
    match entries[index]? with
    | some (some (key', _)) => some (entries.set index (some (key', value)), false)
    | _ => some (entries.set index (some (key, value)), true)

/-- One round of the loop of `ht_expand`. -/
def moveEntry (newCapacity : UInt64) (newEntries : List (HtEntry ν)) (entry : HtEntry ν) :
    Option (List (HtEntry ν)) :=
  match entry with
  | none => some newEntries
  | some (key, value) => (htSetEntry newEntries newCapacity key value).map Prod.fst

/-- `ht_expand` -/
def htExpand (table : Ht ν) : Option (Bool × Ht ν) :=
  let newCapacity := table.capacity * 2
  if newCapacity < table.capacity then some (false, table)
  else
    (table.entries.foldlM (moveEntry newCapacity) (List.replicate newCapacity.toNat none)).map
      fun newEntries => (true, { table with entries := newEntries, capacity := newCapacity })

/-- `ht_set`: whether the result is not `NULL`. -/
def htSet (table : Ht ν) (key : List Char) (value : ν) : Option (Bool × Ht ν) :=
  match if table.length ≥ table.capacity / 2 then htExpand table else some (true, table) with
  | none => none
  | some (false, table) => some (false, table)
  | some (true, table) =>
    (htSetEntry table.entries table.capacity key value).map fun (entries, isNew) =>
      (true, { table with
        entries := entries
        length := if isNew then table.length + 1 else table.length })

/-- `ht_length` -/
def htLength (table : Ht ν) : UInt64 := table.length

/-- `hti`: the table and the index. -/
structure Hti (ν : Type) where
  table : Ht ν
  index : ℕ

/-- `ht_iterator` -/
def htIterator (table : Ht ν) : Hti ν where
  table := table
  index := 0

/-- The loop of `ht_next`, with the number of slots from `index` on. -/
def htNextLoop (entries : List (HtEntry ν)) : ℕ → ℕ → Option ((List Char × ν) × ℕ)
  | 0, _ => none
  | slots + 1, index =>
    match entries[index]? with
    | some (some item) => some (item, index + 1)
    | _ => htNextLoop entries slots (index + 1)

/-- `ht_next`: the `key` and the `value` that are stored in the iterator, and the iterator. -/
def htNext (it : Hti ν) : Option ((List Char × ν) × Hti ν) :=
  (htNextLoop it.table.entries (it.table.capacity.toNat - it.index) it.index).map
    fun (item, index) => (item, { it with index := index })

/-- What `while (ht_next(&it))` visits, in at most `fuel` calls. -/
def htVisit : ℕ → Hti ν → Option (List (List Char × ν))
  | 0, _ => none
  | fuel + 1, it =>
    match htNext it with
    | none => some []
    | some (item, it) => (htVisit fuel it).map (item :: ·)

end OsLabs.Threads
