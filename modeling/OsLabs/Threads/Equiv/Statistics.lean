import OsLabs.Threads.Equiv.Agreement
import Mathlib.Data.List.AList
import Mathlib.Data.Finset.Card

/-!
# The statistics of a log file

What `main` prints after `process_single_thread`: the number of keys of `ip_requests` and the
result of `get_most_visited`.  The first is the number of distinct IPs (`length_eq_card`).  The
second is a fold over the items of `url_visits` in the order of the iteration, and what it finds
does not depend on that order (`getMostVisited_spec`).
-/

namespace OsLabs.Threads

/-! ### The maximum search -/

/-- The fold keeps a maximum of what it has seen. -/
theorem foldl_mostVisitedStep (items : List (List Char × UInt32)) (best : ℤ × List Char) :
    best.1 ≤ (items.foldl mostVisitedStep best).1 ∧
    (∀ item ∈ items, int32 item.2.toNat ≤ (items.foldl mostVisitedStep best).1) ∧
    (items.foldl mostVisitedStep best = best ∨
      ∃ item ∈ items, items.foldl mostVisitedStep best = (int32 item.2.toNat, item.1)) := by
  induction items generalizing best with
  | nil => exact ⟨le_rfl, fun item hitem => absurd hitem List.not_mem_nil, Or.inl rfl⟩
  | cons item items ih =>
    obtain ⟨hbest, hle, hfound⟩ := ih (mostVisitedStep best item)
    rw [List.foldl_cons]
    -- the first round, in the same terms as the rounds after it
    have hstep : best.1 ≤ (mostVisitedStep best item).1 ∧
        int32 item.2.toNat ≤ (mostVisitedStep best item).1 ∧
        (mostVisitedStep best item = best ∨
          mostVisitedStep best item = (int32 item.2.toNat, item.1)) := by
      unfold mostVisitedStep
      generalize int32 item.2.toNat = count
      split
      · rename_i hgt
        exact ⟨le_of_lt hgt, le_rfl, Or.inr rfl⟩
      · rename_i hgt
        exact ⟨le_rfl, not_lt.mp hgt, Or.inl rfl⟩
    obtain ⟨hkept, hitem, htaken⟩ := hstep
    refine ⟨hkept.trans hbest, ?_, ?_⟩
    · intro other hother
      rcases List.mem_cons.mp hother with rfl | hother
      · exact hitem.trans hbest
      · exact hle other hother
    · rcases hfound with hsame | ⟨other, hother, hsame⟩
      · rcases htaken with hbefore | htaken
        · exact Or.inl (hsame.trans hbefore)
        · exact Or.inr ⟨item, List.mem_cons_self, hsame.trans htaken⟩
      · exact Or.inr ⟨other, List.mem_cons_of_mem item hother, hsame⟩

/-- **The maximum search does not depend on the order of the items.** -/
theorem getMostVisited_spec {items : List (List Char × UInt32)} {mostVisited : List Char}
    (hpos : ∃ item ∈ items, 0 < int32 item.2.toNat) :
    ∃ item ∈ items, getMostVisited items mostVisited = (int32 item.2.toNat, item.1) ∧
      ∀ other ∈ items, int32 other.2.toNat ≤ int32 item.2.toNat := by
  obtain ⟨-, hle, hfound⟩ := foldl_mostVisitedStep items (0, mostVisited)
  rcases hfound with hnone | ⟨item, hitem, hfound⟩
  · -- the search would have stayed at 0
    obtain ⟨item, hitem, hgt⟩ := hpos
    have hzero := hle item hitem
    rw [hnone] at hzero
    exact absurd hzero (not_le.mpr hgt)
  · simp only [hfound] at hle
    exact ⟨item, hitem, hfound, hle⟩

/-! ### Exact counts -/

/-- The IPs of the file, one for each line. -/
def ips (file : List Char) : List (List Char) := (lines file).map fun line => (entryOf line).ip

/-- The URLs of the file, one for each line. -/
def urls (file : List Char) : List (List Char) := (lines file).map fun line => (entryOf line).url

theorem count_ips (file key : List Char) :
    (ips file).count key = (lines file).countP fun line => (entryOf line).ip = key := by
  rw [ips, List.count_eq_countP, List.countP_map]
  apply List.countP_congr
  intro line _
  simp

theorem count_urls (file key : List Char) :
    (urls file).count key = (lines file).countP fun line => (entryOf line).url = key := by
  rw [urls, List.count_eq_countP, List.countP_map]
  apply List.countP_congr
  intro line _
  simp

/-- The number of times that something occurs, if it occurs. -/
def occurrences (keys : List (List Char)) (key : List Char) : Option ℕ :=
  if key ∈ keys then some (keys.count key) else none

/-- A counter is exact while it does not wrap around. -/
theorem tally_count {keys : List (List Char)} (hlen : keys.length < 4294967296)
    (key : List Char) : (tally (keys.count key)).map UInt32.toNat = occurrences keys key := by
  have hle := List.count_le_length (a := key) (l := keys)
  unfold tally occurrences
  by_cases hmem : key ∈ keys
  · have hpos := List.count_pos_iff.mpr hmem
    rw [if_neg hpos.ne', if_pos hmem, Option.map_some, UInt32.toNat_ofNat',
      Nat.mod_eq_of_lt (by omega)]
  · rw [if_pos (List.count_eq_zero.mpr hmem), if_neg hmem, Option.map_none]

section Table

variable {H : IterableTable (List Char) UInt32} {table : H.Table} {keys : List (List Char)}
variable (h : ∀ key, (H.get table key).map UInt32.toNat = occurrences keys key)

include h

/-- The items of a table are the keys with their counts. -/
theorem mem_items_iff (item : List Char × UInt32) :
    item ∈ H.items table ↔ item.1 ∈ keys ∧ item.2.toNat = keys.count item.1 := by
  obtain ⟨key, value⟩ := item
  have hkey := h key
  rw [H.mem_items]
  show H.get table key = some value ↔ key ∈ keys ∧ value.toNat = keys.count key
  unfold occurrences at hkey
  by_cases hmem : key ∈ keys
  · rw [if_pos hmem, Option.map_eq_some_iff] at hkey
    obtain ⟨value', hget, hcount⟩ := hkey
    rw [hget, Option.some_inj, ← hcount, UInt32.toNat_inj]
    exact ⟨fun heq => ⟨hmem, heq.symm⟩, fun heq => heq.2.symm⟩
  · rw [if_neg hmem, Option.map_eq_none_iff] at hkey
    rw [hkey]
    exact ⟨fun heq => absurd heq (by simp), fun heq => absurd heq.1 hmem⟩

/-- Every key is an item. -/
theorem exists_mem_items {key : List Char} (hmem : key ∈ keys) :
    ∃ value, (key, value) ∈ H.items table ∧ value.toNat = keys.count key := by
  have hkey := h key
  rw [occurrences, if_pos hmem, Option.map_eq_some_iff] at hkey
  obtain ⟨value, hget, hcount⟩ := hkey
  exact ⟨value, (H.mem_items ..).mpr hget, hcount⟩

/-- The number of items is the number of distinct keys. -/
theorem length_eq_card : H.length table = keys.toFinset.card := by
  -- the keys of the items are distinct, so their number is that of a set
  have hkeys : ((H.items table).map Prod.fst).toFinset = keys.toFinset := by
    ext key
    rw [List.mem_toFinset, List.mem_toFinset, List.mem_map]
    constructor
    · rintro ⟨item, hitem, rfl⟩
      exact ((mem_items_iff h item).mp hitem).1
    · intro hmem
      obtain ⟨value, hitem, -⟩ := exists_mem_items h hmem
      exact ⟨(key, value), hitem, rfl⟩
  rw [H.length_eq, ← hkeys, List.toFinset_card_of_nodup (H.nodup_keys table), List.length_map]

/-- The maximum search finds a key that occurs most often. -/
theorem getMostVisited_items (hne : keys ≠ []) (hlen : keys.length < 2147483648)
    (mostVisited : List Char) :
    ∃ key ∈ keys, getMostVisited (H.items table) mostVisited = ((keys.count key : ℤ), key) ∧
      ∀ other ∈ keys, keys.count other ≤ keys.count key := by
  -- a counter is the same number when it is read as an `int`
  have hint {item : List Char × UInt32} (hitem : item ∈ H.items table) :
      int32 item.2.toNat = keys.count item.1 := by
    rw [((mem_items_iff h item).mp hitem).2]
    have hle := List.count_le_length (a := item.1) (l := keys)
    exact int32_of_lt (Int.natCast_nonneg _) (by omega)
  have hpos : ∃ item ∈ H.items table, 0 < int32 item.2.toNat := by
    obtain ⟨key, hkey⟩ := List.exists_mem_of_ne_nil keys hne
    obtain ⟨value, hitem, -⟩ := exists_mem_items h hkey
    refine ⟨(key, value), hitem, ?_⟩
    rw [hint hitem]
    exact_mod_cast List.count_pos_iff.mpr hkey
  obtain ⟨item, hitem, hfound, hmax⟩ := getMostVisited_spec hpos
  refine ⟨item.1, ((mem_items_iff h item).mp hitem).1, ?_, ?_⟩
  · rw [hfound, hint hitem]
  · intro other hother
    obtain ⟨value, hitem', -⟩ := exists_mem_items h hother
    have hle := hmax _ hitem'
    rw [hint hitem', hint hitem] at hle
    exact_mod_cast hle

end Table

/-! ### The statistics -/

/-- The statistics are the true ones. -/
structure TrueStatistics (H : IterableTable (List Char) UInt32) (g : Globals H.toHashTable)
    (file : List Char) : Prop where
  /-- `ht_length(ip_requests)` is the number of distinct IPs. -/
  unique : H.length g.ipRequests = (ips file).toFinset.card
  ip : ∀ key, (H.get g.ipRequests key).map UInt32.toNat = occurrences (ips file) key
  url : ∀ key, (H.get g.urlVisits key).map UInt32.toNat = occurrences (urls file) key
  /-- `get_most_visited` returns the largest number of visits and stores a URL that has it. -/
  most : file ≠ [] → ∀ mostVisited, ∃ url ∈ urls file,
    getMostVisited (H.items g.urlVisits) mostVisited = (((urls file).count url : ℤ), url) ∧
      ∀ other ∈ urls file, (urls file).count other ≤ (urls file).count url

theorem CountsLines.trueStatistics {H : IterableTable (List Char) UInt32}
    {g : Globals H.toHashTable} {file : List Char} (h : CountsLines g file)
    (hlen : (lines file).length < 2147483648) : TrueStatistics H g file := by
  have hipsLen : (ips file).length < 2147483648 := by rwa [ips, List.length_map]
  have hurlsLen : (urls file).length < 2147483648 := by rwa [urls, List.length_map]
  have hip : ∀ key, (H.get g.ipRequests key).map UInt32.toNat = occurrences (ips file) key := by
    intro key
    rw [← tally_count (by omega) key, h.ip key, count_ips]
  have hurl : ∀ key, (H.get g.urlVisits key).map UInt32.toNat = occurrences (urls file) key := by
    intro key
    rw [← tally_count (by omega) key, h.url key, count_urls]
  refine ⟨length_eq_card hip, hip, hurl, fun hne mostVisited => ?_⟩
  have hurls : urls file ≠ [] := by
    rw [urls, Ne, List.map_eq_nil_iff, lines_eq_nil]
    exact hne
  exact getMostVisited_items hurl hurls hurlsLen mostVisited

/-- **Single-threaded processing computes the true statistics**, for any file of fewer than `2^31`
lines, whatever the locals hold at first and in whatever order the table is iterated. -/
theorem single_thread_statistics (H : IterableTable (List Char) UInt32) (file : List Char)
    (hfile : WellFormedFile file) (hlen : (lines file).length < 2 ^ 31) (e : Entry) :
    (∃ fuel g, processSingleThread H.toHashTable fuel (Globals.init H.toHashTable file) e
      = some g) ∧
    ∀ fuel g, processSingleThread H.toHashTable fuel (Globals.init H.toHashTable file) e
      = some g → TrueStatistics H g file := by
  refine ⟨exists_processSingleThread hfile e, ?_⟩
  intro fuel g hrun
  have h := processSingleThread_represents (represents_init file) hfile hrun
  rw [add_zero] at h
  exact h.countsLines.trueStatistics hlen

/-- Association lists, as a hash table. -/
def listTable : IterableTable (List Char) UInt32 where
  Table := AList fun _ : List Char => UInt32
  create := ∅
  get table key := table.lookup key
  set table key value := table.insert key value
  get_create _ := rfl
  get_set_self _ _ _ := AList.lookup_insert _
  get_set_of_ne _ _ _ _ h := AList.lookup_insert_ne h
  items table := table.entries.map fun item => (item.1, item.2)
  length table := table.entries.length
  nodup_keys table := by
    rw [List.map_map]
    exact table.nodupKeys
  mem_items table key value := by
    rw [← Option.mem_def, AList.mem_lookup_iff, List.mem_map]
    constructor
    · rintro ⟨⟨key', value'⟩, hmem, heq⟩
      obtain ⟨rfl, rfl⟩ := Prod.mk.inj heq
      exact hmem
    · intro hmem
      exact ⟨⟨key, value⟩, hmem, rfl⟩
  length_eq table := (List.length_map _).symm

theorem single_thread_statistics_two :
    (∃ fuel g, processSingleThread listTable.toHashTable fuel
      (Globals.init listTable.toHashTable twoLines) (entryOf []) = some g) ∧
    ∀ fuel g, processSingleThread listTable.toHashTable fuel
      (Globals.init listTable.toHashTable twoLines) (entryOf []) = some g →
        TrueStatistics listTable g twoLines :=
  single_thread_statistics listTable twoLines wellFormedFile_twoLines (by decide) (entryOf [])

end OsLabs.Threads
