import OsLabs.Threads.Ht
import Mathlib.Data.Finset.Card

/-!
# The hash table is a map

After any sequence of `ht_set` the table is well-formed (`Ht.WF`): the capacity is a power of two,
at most half of the slots are used, and each key is in the slot in which the search for it ends.
So every search ends, `ht_get` returns the last value that was set (`Ht.WF.htGet_eq`), and growing
keeps the items (`Ht.WF.htExpand_eq`).
-/

namespace OsLabs.Threads

variable {ν : Type}

/-- The home slot of a key, before it is reduced to the capacity. -/
def home (key : List Char) : ℕ := (hashKey key).toNat

/-- The keys and values that are stored, in the order of the slots. -/
def Ht.items (table : Ht ν) : List (List Char × ν) := table.entries.reduceOption

/-- The greatest exponent of a capacity in `size_t`. -/
def MAX_EXPONENT : ℕ := 63

/-- The entries of a table with `2 ^ k` slots. -/
structure EntriesWF (entries : List (HtEntry ν)) (capacity : UInt64) (k : ℕ) : Prop where
  le : k ≤ MAX_EXPONENT
  capacity : capacity.toNat = 2 ^ k
  size : entries.length = 2 ^ k
  placed : Placed home entries

/-- What holds of every table. -/
structure Ht.WF (table : Ht ν) (k : ℕ) : Prop where
  entries : EntriesWF table.entries table.capacity k
  ge : 4 ≤ k
  length : table.length.toNat = table.items.length
  load : 2 * table.items.length ≤ 2 ^ k
  /-- Only a table with enough items has grown. -/
  space : k = 4 ∨ 2 ^ k ≤ 4 * table.items.length

theorem two_pow_lt {k : ℕ} (hk : k ≤ MAX_EXPONENT) : 2 ^ k < 2 ^ 64 :=
  Nat.pow_lt_pow_right (by decide) (Nat.lt_succ_of_le hk)

/-! ### One search -/

section Search

variable {entries : List (HtEntry ν)} {capacity : UInt64} {k : ℕ}
variable (h : EntriesWF entries capacity k)

include h

theorem EntriesWF.capacity_eq : capacity.toNat = entries.length := h.capacity.trans h.size.symm

/-- The mask reduces the hash to the capacity. -/
theorem EntriesWF.firstIndex_eq (key : List Char) :
    firstIndex key capacity = home key % entries.length := by
  have hpos : 1 ≤ capacity := by
    rw [UInt64.le_iff_toNat_le, h.capacity]
    exact Nat.one_le_two_pow
  rw [firstIndex, UInt64.toNat_and, UInt64.toNat_sub_of_le _ _ hpos, h.capacity, h.size]
  exact Nat.and_two_pow_sub_one_eq_mod _ k

/-- The search of both loops. -/
theorem EntriesWF.probe_eq {key : List Char} {d : ℕ} (hend : EndsAt entries key (home key) d) :
    probe capacity.toNat entries key capacity.toNat (firstIndex key capacity)
      = some ((home key + d) % entries.length) := by
  rw [h.capacity_eq, h.firstIndex_eq]
  exact hend.probe_eq hend.lt

theorem EntriesWF.htSetEntry_eq {key : List Char} {d : ℕ} (hend : EndsAt entries key (home key) d)
    (value : ν) : ∃ isNew, htSetEntry entries capacity key value
      = some (entries.set ((home key + d) % entries.length) (some (key, value)), isNew) ∧
      (entries.set ((home key + d) % entries.length) (some (key, value))).reduceOption.length
        = entries.reduceOption.length + (if isNew then 1 else 0) ∧
      (isNew = true ↔ ∀ value', (key, value') ∉ entries.reduceOption) := by
  have hmem := h.placed.mem_items_iff hend
  unfold htSetEntry
  rw [h.probe_eq hend]
  rcases hend.stops with hempty | ⟨value', hslot⟩
  · simp only [hempty]
    refine ⟨true, rfl, length_items_set_none hempty _, ?_⟩
    simp only [hmem, hempty, true_iff]
    simp
  · simp only [hslot]
    refine ⟨false, rfl, length_items_set_some hslot _, ?_⟩
    simp only [hmem, hslot, Bool.false_eq_true, false_iff, not_forall, not_not]
    exact ⟨value', rfl⟩

/-- Storing an item, in a table with an empty slot. -/
theorem EntriesWF.htSetEntry_spec (hempty : none ∈ entries) (key : List Char) (value : ν) :
    ∃ entries' isNew, htSetEntry entries capacity key value = some (entries', isNew) ∧
      EntriesWF entries' capacity k ∧
      entries'.reduceOption.length = entries.reduceOption.length + (if isNew then 1 else 0) ∧
      (isNew = true ↔ ∀ value', (key, value') ∉ entries.reduceOption) ∧
      ∀ key' value', (key', value') ∈ entries'.reduceOption ↔
        if key' = key then value' = value else (key', value') ∈ entries.reduceOption := by
  obtain ⟨d, hend⟩ := exists_endsAt hempty key (home key)
  obtain ⟨isNew, heq, hlength, hnew⟩ := h.htSetEntry_eq hend value
  refine ⟨_, isNew, heq, ?_, hlength, hnew, h.placed.mem_items_set hend value⟩
  exact ⟨h.le, h.capacity, (List.length_set ..).trans h.size, h.placed.set hend value⟩

end Search

/-! ### Growing -/

/-- The round of `ht_expand` for a slot. -/
theorem moveEntries_spec {capacity : UInt64} {k : ℕ} {slots : List (HtEntry ν)}
    (hnodup : (slots.reduceOption.map Prod.fst).Nodup) {entries : List (HtEntry ν)}
    (h : EntriesWF entries capacity k)
    (hdisj : ∀ key value value', (key, value) ∈ slots.reduceOption →
      (key, value') ∉ entries.reduceOption)
    (hroom : entries.reduceOption.length + slots.reduceOption.length < 2 ^ k) :
    ∃ entries', slots.foldlM (moveEntry capacity) entries = some entries' ∧
      EntriesWF entries' capacity k ∧
      entries'.reduceOption.length = entries.reduceOption.length + slots.reduceOption.length ∧
      ∀ item, item ∈ entries'.reduceOption ↔
        item ∈ entries.reduceOption ∨ item ∈ slots.reduceOption := by
  induction slots generalizing entries with
  | nil => exact ⟨entries, rfl, h, rfl, fun item => by simp⟩
  | cons slot slots ih =>
    cases slot with
    | none =>
      rw [List.reduceOption_cons_of_none] at hnodup hdisj hroom ⊢
      exact ih hnodup h hdisj hroom
    | some item =>
      obtain ⟨key, value⟩ := item
      rw [List.reduceOption_cons_of_some, List.map_cons, List.nodup_cons] at hnodup
      rw [List.reduceOption_cons_of_some, List.length_cons] at hroom ⊢
      simp only [List.reduceOption_cons_of_some, List.mem_cons] at hdisj ⊢
      obtain ⟨hnotin, hnodup⟩ := hnodup
      have hempty : none ∈ entries := by
        rw [← List.reduceOption_length_lt_iff, h.size]
        omega
      obtain ⟨entries', isNew, heq, hwf, hlength, hnew, hmem⟩ :=
        h.htSetEntry_spec hempty key value
      -- the key is not among those that have been moved
      have hisNew : isNew = true := hnew.mpr fun value' => hdisj key value value' (.inl rfl)
      rw [hisNew, if_pos rfl] at hlength
      have hdisj' : ∀ key' value' value'', (key', value') ∈ slots.reduceOption →
          (key', value'') ∉ entries'.reduceOption := by
        intro key' value' value'' hin hin'
        rw [hmem] at hin'
        split at hin'
        · rename_i hkey
          subst hkey
          exact hnotin (List.mem_map.mpr ⟨_, hin, rfl⟩)
        · exact hdisj key' value' value'' (.inr hin) hin'
      obtain ⟨entries'', hfold, hwf'', hlength'', hmem''⟩ := ih hnodup hwf hdisj' (by omega)
      refine ⟨entries'', ?_, hwf'', by omega, ?_⟩
      · rw [List.foldlM_cons]
        show ((htSetEntry entries capacity key value).map Prod.fst).bind _ = _
        rw [heq]
        exact hfold
      · rintro ⟨key', value'⟩
        rw [hmem'', hmem, Prod.mk.injEq]
        split
        · rename_i hkey
          subst hkey
          constructor
          · rintro (rfl | hin)
            · exact .inr (.inl ⟨rfl, rfl⟩)
            · exact .inr (.inr hin)
          · rintro (hin | ⟨-, rfl⟩ | hin)
            · exact absurd hin (hdisj key' value value' (.inl rfl))
            · exact .inl rfl
            · exact .inr hin
        · rename_i hkey
          simp only [hkey, false_and, false_or]

section WF

variable {table : Ht ν} {k : ℕ} (h : table.WF k)

include h

theorem Ht.WF.none_mem : none ∈ table.entries := by
  rw [← List.reduceOption_length_lt_iff, h.entries.size]
  have hload := h.load
  have hpos : 0 < 2 ^ k := Nat.two_pow_pos k
  unfold Ht.items at hload
  omega

theorem Ht.WF.nodup_keys : (table.items.map Prod.fst).Nodup := h.entries.placed.nodup_keys

/-- Half of the capacity, as `ht_set` compares it. -/
theorem Ht.WF.full_iff :
    table.length ≥ table.capacity / 2 ↔ 2 ^ k ≤ 2 * table.items.length := by
  obtain ⟨j, rfl⟩ : ∃ j, k = j + 1 := ⟨k - 1, by have := h.ge; omega⟩
  rw [ge_iff_le, UInt64.le_iff_toNat_le, UInt64.toNat_div, h.entries.capacity, h.length]
  show 2 ^ (j + 1) / 2 ≤ _ ↔ _
  rw [pow_succ, Nat.mul_div_cancel _ (by decide)]
  omega

/-- A table that grows has twice as many slots and the same items. -/
theorem Ht.WF.htExpand_eq (hk : k < MAX_EXPONENT) :
    ∃ table', htExpand table = some (true, table') ∧
      EntriesWF table'.entries table'.capacity (k + 1) ∧ table'.length = table.length ∧
      table'.items.length = table.items.length ∧
      ∀ item, item ∈ table'.items ↔ item ∈ table.items := by
  have hlt : 2 ^ (k + 1) < 2 ^ 64 := two_pow_lt hk
  have hcapacity : (table.capacity * 2).toNat = 2 ^ (k + 1) := by
    rw [UInt64.toNat_mul, h.entries.capacity]
    show 2 ^ k * 2 % 2 ^ 64 = _
    rw [← pow_succ, Nat.mod_eq_of_lt hlt]
  have hgrows : ¬table.capacity * 2 < table.capacity := by
    rw [UInt64.lt_iff_toNat_lt, hcapacity, h.entries.capacity, pow_succ]
    omega
  have hwf : EntriesWF (List.replicate (table.capacity * 2).toNat (none : HtEntry ν))
      (table.capacity * 2) (k + 1) :=
    ⟨hk, hcapacity, by rw [List.length_replicate, hcapacity], placed_replicate home _⟩
  have hload := h.load
  unfold Ht.items at hload
  obtain ⟨entries', hfold, hwf', hlength, hmem⟩ := moveEntries_spec h.nodup_keys hwf
    (by simp [List.reduceOption_replicate_none])
    (by
      rw [List.reduceOption_replicate_none, List.length_nil, pow_succ]
      have hpos : 0 < 2 ^ k := Nat.two_pow_pos k
      omega)
  refine ⟨{ table with entries := entries', capacity := table.capacity * 2 }, ?_, hwf', rfl, ?_, ?_⟩
  · unfold htExpand
    rw [if_neg hgrows, hfold]
    rfl
  · rw [List.reduceOption_replicate_none, List.length_nil, Nat.zero_add] at hlength
    exact hlength
  · intro item
    rw [List.reduceOption_replicate_none] at hmem
    rw [Ht.items, hmem]
    simp [Ht.items]

/-- A table of the greatest size cannot grow. -/
theorem Ht.WF.htExpand_max (hk : k = MAX_EXPONENT) : htExpand table = some (false, table) := by
  have hcapacity : table.capacity * 2 < table.capacity := by
    rw [UInt64.lt_iff_toNat_lt, UInt64.toNat_mul, h.entries.capacity, hk]
    decide
  unfold htExpand
  rw [if_pos hcapacity]

end WF

/-! ### The operations -/

theorem wf_htCreate : (htCreate : Ht ν).WF 4 where
  entries := ⟨by decide, rfl, rfl, placed_replicate home 16⟩
  ge := le_rfl
  length := rfl
  load := Nat.zero_le _
  space := .inl rfl

section Operations

variable {table : Ht ν} {k : ℕ} (h : table.WF k)

include h

/-- `ht_get` returns the value of the key. -/
theorem Ht.WF.htGet_eq (key : List Char) :
    ∃ result, htGet table key = some result ∧
      ∀ value, result = some value ↔ (key, value) ∈ table.items := by
  obtain ⟨d, hend⟩ := exists_endsAt h.none_mem key (home key)
  have hmem := h.entries.placed.mem_items_iff hend
  unfold htGet Ht.items
  rw [h.entries.probe_eq hend]
  rcases hend.stops with hempty | ⟨value', hslot⟩
  · simp only [hmem, hempty]
    exact ⟨none, rfl, by simp⟩
  · simp only [hmem, hslot]
    exact ⟨some value', rfl, by simp⟩

/-- The table into which `ht_set` stores the item. -/
theorem Ht.WF.expand_eq (hroom : table.items.length < 2 ^ 62) :
    ∃ table' k', (if table.length ≥ table.capacity / 2 then htExpand table else some (true, table))
        = some (true, table') ∧ table'.WF k' ∧ 2 * (table'.items.length + 1) ≤ 2 ^ k' ∧
      table'.items.length = table.items.length ∧
      ∀ item, item ∈ table'.items ↔ item ∈ table.items := by
  obtain ⟨j, rfl⟩ : ∃ j, k = j + 1 := ⟨k - 1, by have := h.ge; omega⟩
  have hload := h.load
  by_cases hfull : table.length ≥ table.capacity / 2
  · have hle := h.full_iff.mp hfull
    have hk : j + 1 < MAX_EXPONENT := by
      by_contra hge
      have : 2 ^ MAX_EXPONENT ≤ 2 ^ (j + 1) := Nat.pow_le_pow_right (by decide) (not_lt.mp hge)
      rw [MAX_EXPONENT] at this
      omega
    obtain ⟨table', heq, hwf, hsize, hlength, hmem⟩ := h.htExpand_eq hk
    have hpos : 0 < 2 ^ j := Nat.two_pow_pos j
    have hdouble : 2 ^ (j + 1 + 1) = 2 * 2 ^ (j + 1) := by rw [pow_succ, Nat.mul_comm]
    rw [pow_succ] at hle hload hdouble
    refine ⟨table', j + 1 + 1, by rw [if_pos hfull, heq], ⟨hwf, ?_, ?_, ?_, ?_⟩, ?_, hlength, hmem⟩
    · have := h.ge
      omega
    · rw [hsize, h.length, hlength]
    · omega
    · right
      omega
    · omega
  · have hlt := mt h.full_iff.mpr hfull
    refine ⟨table, j + 1, if_neg hfull, h, ?_, rfl, fun _ => Iff.rfl⟩
    rw [pow_succ] at hlt ⊢
    omega

/-- What `ht_set` does to a table that may have one more item. -/
theorem Ht.WF.htSet_eq (hroom : table.items.length < 2 ^ 62) (key : List Char) (value : ν) :
    ∃ table' k', htSet table key value = some (true, table') ∧ table'.WF k' ∧
      table'.items.length ≤ table.items.length + 1 ∧
      ∀ key' value', (key', value') ∈ table'.items ↔
        if key' = key then value' = value else (key', value') ∈ table.items := by
  obtain ⟨table₁, k₁, hexpand, hwf, hload, hlength, hmem⟩ := h.expand_eq hroom
  obtain ⟨entries, isNew, heq, hentries, hcount, -, hset⟩ :=
    hwf.entries.htSetEntry_spec hwf.none_mem key value
  have hle : entries.reduceOption.length ≤ table₁.items.length + 1 := by
    rw [hcount]
    unfold Ht.items
    split <;> omega
  refine ⟨{ table₁ with
    entries := entries
    length := if isNew then table₁.length + 1 else table₁.length }, k₁, ?_, ?_, ?_, ?_⟩
  · unfold htSet
    rw [hexpand]
    simp only [heq, Option.map_some]
  · refine ⟨hentries, hwf.ge, ?_, ?_, ?_⟩
    · show (if isNew then table₁.length + 1 else table₁.length).toNat = entries.reduceOption.length
      rw [hcount]
      split
      · rw [UInt64.toNat_add, hwf.length, hlength]
        show (_ + 1) % 2 ^ 64 = _
        rw [Nat.mod_eq_of_lt (by omega), ← hlength]
        rfl
      · exact hwf.length
    · show 2 * entries.reduceOption.length ≤ 2 ^ k₁
      omega
    · show k₁ = 4 ∨ 2 ^ k₁ ≤ 4 * entries.reduceOption.length
      refine hwf.space.imp_right fun hspace => hspace.trans (Nat.mul_le_mul_left 4 ?_)
      rw [hcount]
      exact Nat.le_add_right ..
  · show entries.reduceOption.length ≤ _
    omega
  · intro key' value'
    show (key', value') ∈ entries.reduceOption ↔ _
    rw [hset]
    split
    · rfl
    · exact hmem _

/-- A table of the greatest size that is half full stays as it is. -/
theorem Ht.WF.htSet_full (hfull : table.items.length = 2 ^ 62) (key : List Char) (value : ν) :
    htSet table key value = some (false, table) := by
  have hload := h.load
  have hk : k = MAX_EXPONENT := by
    have hle := h.entries.le
    rw [hfull] at hload
    have hpow : 2 ^ 63 ≤ 2 ^ k := hload
    have hge := (Nat.pow_le_pow_iff_right (by decide)).mp hpow
    exact le_antisymm hle hge
  have hge : table.length ≥ table.capacity / 2 := h.full_iff.mpr (by rw [hk, hfull]; decide)
  unfold htSet
  rw [if_pos hge, h.htExpand_max hk]

end Operations

/-! ### The iterator -/

theorem htNextLoop_eq {entries : List (HtEntry ν)} {slots index : ℕ}
    (hslots : index + slots = entries.length) :
    (htNextLoop entries slots index = none ∧ (entries.drop index).reduceOption = []) ∨
    ∃ item next, htNextLoop entries slots index = some (item, next) ∧ next ≤ entries.length ∧
      (entries.drop index).reduceOption = item :: (entries.drop next).reduceOption := by
  induction slots generalizing index with
  | zero => exact .inl ⟨rfl, by rw [List.drop_eq_nil_of_le (by omega), List.reduceOption_nil]⟩
  | succ slots ih =>
    have hlt : index < entries.length := by omega
    have hnext := @ih (index + 1) (by omega)
    rw [List.drop_eq_getElem_cons hlt, htNextLoop, List.getElem?_eq_getElem hlt]
    rcases entries[index] with _ | item
    · rw [List.reduceOption_cons_of_none]
      exact hnext
    · rw [List.reduceOption_cons_of_some]
      exact .inr ⟨item, index + 1, rfl, hlt, rfl⟩

/-- The iterator visits the items from its index on. -/
theorem htVisit_eq {it : Hti ν} (hcapacity : it.table.capacity.toNat = it.table.entries.length)
    (hindex : it.index ≤ it.table.entries.length) {fuel : ℕ}
    (hfuel : (it.table.entries.drop it.index).reduceOption.length < fuel) :
    htVisit fuel it = some (it.table.entries.drop it.index).reduceOption := by
  induction fuel generalizing it with
  | zero => exact absurd hfuel (Nat.not_lt_zero _)
  | succ fuel ih =>
    rw [htVisit, htNext, hcapacity]
    rcases htNextLoop_eq (Nat.add_sub_of_le hindex) with ⟨hnone, hnil⟩ |
      ⟨item, next, hsome, hle, hcons⟩
    · rw [hnone, hnil]
      rfl
    · rw [hcons, List.length_cons] at hfuel
      have hrest := @ih { it with index := next } hcapacity hle (Nat.lt_of_succ_lt_succ hfuel)
      simp only [hsome, Option.map_some, hrest, hcons]

theorem Ht.WF.htVisit_eq {table : Ht ν} {k : ℕ} (h : table.WF k) {fuel : ℕ}
    (hfuel : table.items.length < fuel) :
    htVisit fuel (htIterator table) = some table.items := by
  rw [OsLabs.Threads.htVisit_eq h.entries.capacity_eq (Nat.zero_le _) hfuel]
  rfl

/-! ### Any sequence of `ht_set` -/

/-- `ht_set`, if it does not return `NULL`. -/
def setItem (table : Ht ν) (item : List Char × ν) : Option (Ht ν) :=
  match htSet table item.1 item.2 with
  | some (true, table) => some table
  | _ => none

/-- The items are set, one after the other, in a table from `ht_create`. -/
def setAll (items : List (List Char × ν)) : Option (Ht ν) := items.foldlM setItem htCreate

/-- The table is the map that the items describe: the last of them with a key counts. -/
structure IsMap (table : Ht ν) (items : List (List Char × ν)) : Prop where
  get : ∀ key, htGet table key = some (items.reverse.lookup key)
  length : (htLength table).toNat = (items.map Prod.fst).toFinset.card
  /-- The iterator visits each key once, with its value. -/
  visit : ∃ visited, (∀ fuel > visited.length, htVisit fuel (htIterator table) = some visited) ∧
    (visited.map Prod.fst).Nodup ∧
    ∀ key value, (key, value) ∈ visited ↔ items.reverse.lookup key = some value

theorem setAll_spec {items : List (List Char × ν)} (hlen : items.length < 2 ^ 62) :
    ∃ table k, setAll items = some table ∧ table.WF k ∧ table.items.length ≤ items.length ∧
      ∀ key value, (key, value) ∈ table.items ↔ items.reverse.lookup key = some value := by
  induction items using List.reverseRecOn with
  | nil =>
    refine ⟨htCreate, 4, rfl, wf_htCreate, le_rfl, fun key value => ?_⟩
    simp [Ht.items, htCreate, List.reduceOption_replicate_none]
  | append_singleton items item ih =>
    rw [List.length_append, List.length_singleton] at hlen ⊢
    obtain ⟨table, k, heq, hwf, hle, hmem⟩ := ih (by omega)
    obtain ⟨key, value⟩ := item
    obtain ⟨table', k', hset, hwf', hle', hmem'⟩ := hwf.htSet_eq (by omega) key value
    refine ⟨table', k', ?_, hwf', by omega, ?_⟩
    · unfold setAll at heq ⊢
      rw [List.foldlM_append, heq]
      show (setItem table (key, value)).bind _ = _
      rw [setItem, hset]
      rfl
    · intro key' value'
      rw [hmem', List.reverse_append, List.reverse_singleton, List.singleton_append,
        List.lookup_cons]
      by_cases hkey : key' = key
      · rw [if_pos hkey, hkey, beq_self_eq_true]
        simp [eq_comm]
      · rw [if_neg hkey, beq_eq_false_iff_ne.mpr hkey]
        exact hmem _ _

theorem mem_keys_iff (items : List (List Char × ν)) (key : List Char) :
    key ∈ items.map Prod.fst ↔ ∃ value, items.reverse.lookup key = some value := by
  rw [← Option.isSome_iff_exists, List.lookup_isSome_iff, List.mem_map]
  constructor
  · rintro ⟨item, hitem, rfl⟩
    exact ⟨item, List.mem_reverse.mpr hitem, beq_self_eq_true _⟩
  · rintro ⟨item, hitem, hkey⟩
    exact ⟨item, List.mem_reverse.mp hitem, (eq_of_beq hkey).symm⟩

/-- **The hash table is a map**: `ht_set` never fails and no search goes on forever, whatever the
keys and their hashes are. -/
theorem setAll_isMap (items : List (List Char × ν)) (hlen : items.length < 2 ^ 62) :
    ∃ table, setAll items = some table ∧ IsMap table items := by
  obtain ⟨table, k, heq, hwf, -, hmem⟩ := setAll_spec hlen
  refine ⟨table, heq, fun key => ?_, ?_, table.items, fun fuel hfuel => hwf.htVisit_eq hfuel,
    hwf.nodup_keys, hmem⟩
  · obtain ⟨result, hget, hresult⟩ := hwf.htGet_eq key
    rw [hget]
    congr 1
    ext value
    rw [hresult, hmem]
  · -- the keys of the items are distinct, so their number is that of a set
    have hkeys : (table.items.map Prod.fst).toFinset = (items.map Prod.fst).toFinset := by
      ext key
      rw [List.mem_toFinset, List.mem_toFinset, mem_keys_iff items, List.mem_map]
      constructor
      · rintro ⟨item, hitem, rfl⟩
        exact ⟨item.2, (hmem _ _).mp hitem⟩
      · rintro ⟨value, hlookup⟩
        exact ⟨(key, value), (hmem _ _).mpr hlookup, rfl⟩
    rw [htLength, hwf.length, ← hkeys, List.toFinset_card_of_nodup hwf.nodup_keys, List.length_map]

theorem setAll_isMap_two :
    ∃ table, setAll [(['a'], 1), (['b'], 2), (['a'], 3)] = some table ∧
      IsMap table [(['a'], 1), (['b'], 2), (['a'], 3)] :=
  setAll_isMap _ (by decide)

/-! ### Time and space -/

/-- **No search looks at more slots than there are items, and one**, and the table never has more
than 16 slots or four times as many slots as items. -/
theorem setAll_cost (items : List (List Char × ν)) (hlen : items.length < 2 ^ 62) :
    ∃ table, setAll items = some table ∧
      (table.capacity.toNat = 16 ∨ table.capacity.toNat ≤ 4 * (htLength table).toNat) ∧
      ∀ key, ∃ index, probe table.capacity.toNat table.entries key ((htLength table).toNat + 1)
        (firstIndex key table.capacity) = some index ∧ index < table.capacity.toNat := by
  obtain ⟨table, k, heq, hwf, -, -⟩ := setAll_spec hlen
  refine ⟨table, heq, ?_, fun key => ?_⟩
  · rw [htLength, hwf.length, hwf.entries.capacity]
    exact hwf.space.imp_left fun hk => by rw [hk]; rfl
  · obtain ⟨d, hend⟩ := exists_endsAt hwf.none_mem key (home key)
    have hle := hwf.entries.placed.le_length_items hend
    rw [htLength, hwf.length, hwf.entries.capacity_eq, hwf.entries.firstIndex_eq]
    exact ⟨_, hend.probe_eq (Nat.lt_succ_of_le hle), Nat.mod_lt _ (Nat.zero_lt_of_lt hend.lt)⟩

theorem setAll_cost_two :
    ∃ table, setAll [(['a'], 1), (['b'], 2)] = some table ∧
      (table.capacity.toNat = 16 ∨ table.capacity.toNat ≤ 4 * (htLength table).toNat) ∧
      ∀ key, ∃ index, probe table.capacity.toNat table.entries key ((htLength table).toNat + 1)
        (firstIndex key table.capacity) = some index ∧ index < table.capacity.toNat :=
  setAll_cost _ (by decide)

end OsLabs.Threads
