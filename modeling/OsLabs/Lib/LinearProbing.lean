import OsLabs.Lib.Ring
import Mathlib.Data.List.ReduceOption
import Mathlib.Data.List.Nodup
import Mathlib.Data.List.Perm.Subperm
import Mathlib.Data.Nat.Find

/-!
# Linear probing

A table is a list of slots, each of them empty or with a key and its value.  A key is looked for
from its home slot on, cyclically, until a slot is empty or holds the key (`probe`).  In a table
whose keys are `Placed` each key is in the slot in which the search for it ends, so that no key is
there twice (`Placed.nodup_keys`).  A search ends if some slot is empty, and storing a key where the
search for it ends keeps the other keys placed (`Placed.set`) and changes the items of the table as
one expects (`Placed.mem_items_set`).
-/

namespace OsLabs

variable {κ ν : Type*}

/-- The slot after slot `i` of `m` slots. -/
def nextSlot (m i : ℕ) : ℕ := if i + 1 ≥ m then 0 else i + 1

/-- The search for a key in a table of `m` slots, from a slot on and for at most `fuel` slots. -/
def probe [DecidableEq κ] (m : ℕ) (slots : List (Option (κ × ν))) (key : κ) : ℕ → ℕ → Option ℕ
  | 0, _ => none
  | fuel + 1, i =>
    match slots[i]? with
    -- outside the table
    | none => none
    | some none => some i
    | some (some (key', _)) =>
      if key = key' then some i else probe m slots key fuel (nextSlot m i)

/-- The search for a key does not go on behind slot `i`. -/
def StopsAt (slots : List (Option (κ × ν))) (key : κ) (i : ℕ) : Prop :=
  slots[i]? = some none ∨ ∃ value, slots[i]? = some (some (key, value))

/-- The search for a key with home slot `h` ends `d` slots further. -/
structure EndsAt (slots : List (Option (κ × ν))) (key : κ) (h d : ℕ) : Prop where
  lt : d < slots.length
  stops : StopsAt slots key ((h + d) % slots.length)
  goesOn : ∀ j < d, ¬StopsAt slots key ((h + j) % slots.length)

/-- Each key is in the slot in which the search for it ends. -/
def Placed (home : κ → ℕ) (slots : List (Option (κ × ν))) : Prop :=
  ∀ i key value, slots[i]? = some (some (key, value)) →
    ∃ d, EndsAt slots key (home key) d ∧ i = (home key + d) % slots.length

variable {slots : List (Option (κ × ν))} {key : κ} {value : ν} {home : κ → ℕ} {h d i : ℕ}

/-! ### The search -/

theorem nextSlot_mod {m : ℕ} (hm : 0 < m) (j : ℕ) : nextSlot m (j % m) = (j + 1) % m := by
  have hlt := Nat.mod_lt j hm
  unfold nextSlot
  rw [← Nat.mod_add_mod]
  split
  · rename_i hge
    have hlast : j % m + 1 = m := by omega
    rw [hlast, Nat.mod_self]
  · rw [Nat.mod_eq_of_lt (by omega : j % m + 1 < m)]

theorem stops_iff_of_lt (hi : i < slots.length) :
    ¬StopsAt slots key i ↔ ∃ key' value', slots[i]? = some (some (key', value')) ∧ key ≠ key' := by
  unfold StopsAt
  rw [List.getElem?_eq_getElem hi]
  rcases slots[i] with _ | ⟨key', value'⟩
  · simp
  · simp only [Option.some.injEq, reduceCtorEq, Prod.mk.injEq, false_or, not_exists, not_and]
    constructor
    · intro hne
      exact ⟨key', value', ⟨rfl, rfl⟩, fun heq => hne value' heq.symm rfl⟩
    · rintro ⟨_, _, ⟨rfl, rfl⟩, hne⟩ _ heq
      exact absurd heq.symm hne

theorem probe_of_stops [DecidableEq κ] (hstop : StopsAt slots key i) (m fuel : ℕ) :
    probe m slots key (fuel + 1) i = some i := by
  rw [probe]
  rcases hstop with hempty | ⟨value, hslot⟩
  · simp only [hempty]
  · simp only [hslot, if_pos]

theorem probe_of_not_stops [DecidableEq κ] (hi : i < slots.length) (hgo : ¬StopsAt slots key i)
    (m fuel : ℕ) : probe m slots key (fuel + 1) i = probe m slots key fuel (nextSlot m i) := by
  obtain ⟨key', value', hslot, hne⟩ := (stops_iff_of_lt hi).mp hgo
  rw [probe]
  simp only [hslot, if_neg hne]

/-- The search visits the slots from the home slot on, up to the one in which it ends. -/
theorem EndsAt.probe_eq [DecidableEq κ] (hend : EndsAt slots key h d) {fuel : ℕ}
    (hfuel : d < fuel) :
    probe slots.length slots key fuel (h % slots.length) = some ((h + d) % slots.length) := by
  have hpos : 0 < slots.length := Nat.zero_lt_of_lt hend.lt
  obtain ⟨-, hstop, hgo⟩ := hend
  induction fuel generalizing h d with
  | zero => omega
  | succ fuel ih =>
    cases d with
    | zero => exact probe_of_stops hstop _ fuel
    | succ d =>
      rw [probe_of_not_stops (Nat.mod_lt h hpos) (hgo 0 (Nat.succ_pos d)), nextSlot_mod hpos,
        ih (d := d)]
      · congr 2
        omega
      · omega
      · rwa [Nat.add_assoc, Nat.add_comm 1 d]
      · intro j hj
        rw [Nat.add_assoc, Nat.add_comm 1 j]
        exact hgo (j + 1) (by omega)

/-- The search ends in one slot only. -/
theorem EndsAt.unique {d' : ℕ} (hend : EndsAt slots key h d) (hend' : EndsAt slots key h d') :
    d = d' := by
  rcases Nat.lt_trichotomy d d' with hlt | heq | hgt
  · exact absurd hend.stops (hend'.goesOn d hlt)
  · exact heq
  · exact absurd hend'.stops (hend.goesOn d' hgt)

/-- A search ends if there is an empty slot. -/
theorem exists_endsAt (hempty : none ∈ slots) (key : κ) (h : ℕ) :
    ∃ d, EndsAt slots key h d := by
  classical
  obtain ⟨i, hi, hslot⟩ := List.mem_iff_getElem.mp hempty
  have hpos : 0 < slots.length := Nat.zero_lt_of_lt hi
  -- the empty slot is some way behind the home slot
  have hreach : (h + (i + slots.length - h % slots.length) % slots.length) % slots.length = i := by
    have hmod := Nat.mod_lt h hpos
    rw [Nat.add_mod_mod, ← Nat.mod_add_mod, ← Nat.add_sub_assoc (by omega), Nat.add_sub_cancel_left,
      Nat.add_mod_right, Nat.mod_eq_of_lt hi]
  have hstop : StopsAt slots key
      ((h + (i + slots.length - h % slots.length) % slots.length) % slots.length) := by
    rw [hreach]
    exact .inl (by rw [List.getElem?_eq_getElem hi, hslot])
  have hexists : ∃ d, StopsAt slots key ((h + d) % slots.length) := ⟨_, hstop⟩
  refine ⟨Nat.find hexists, ?_, Nat.find_spec hexists, fun j hj => Nat.find_min hexists hj⟩
  exact (Nat.find_min' hexists hstop).trans_lt (Nat.mod_lt _ hpos)

/-! ### Tables whose keys are placed -/

theorem placed_replicate (home : κ → ℕ) (m : ℕ) :
    Placed home (List.replicate m (none : Option (κ × ν))) := by
  intro i key value hslot
  rw [List.getElem?_replicate] at hslot
  split at hslot <;> simp at hslot

namespace Placed

variable (hplaced : Placed home slots)

include hplaced

/-- No key is in two slots. -/
theorem slot_unique {i' : ℕ} {value' : ν} (hslot : slots[i]? = some (some (key, value)))
    (hslot' : slots[i']? = some (some (key, value'))) : i = i' := by
  obtain ⟨d, hend, rfl⟩ := hplaced i key value hslot
  obtain ⟨d', hend', rfl⟩ := hplaced i' key value' hslot'
  rw [hend.unique hend']

theorem nodup_keys : (slots.reduceOption.map Prod.fst).Nodup := by
  rw [List.Nodup, List.pairwise_map, List.reduceOption, List.pairwise_filterMap,
    List.pairwise_iff_getElem]
  rintro i j hi hj hlt ⟨key, value⟩ hslot ⟨key', value'⟩ hslot' rfl
  have heq : i = j := hplaced.slot_unique
    ((List.getElem?_eq_getElem hi).trans (congrArg some hslot))
    ((List.getElem?_eq_getElem hj).trans (congrArg some hslot'))
  omega

/-- A search passes by at most as many slots as there are items. -/
theorem le_length_items (hend : EndsAt slots key h d) : d ≤ slots.reduceOption.length := by
  rcases Nat.eq_zero_or_pos d with rfl | hd
  · exact Nat.zero_le _
  have hpos : 0 < slots.length := Nat.zero_lt_of_lt hend.lt
  have hitem (j : ℕ) (hj : j < d) : ∃ item : κ × ν,
      slots[(h + j) % slots.length]? = some (some item) := by
    obtain ⟨key', value', hslot, -⟩ :=
      (stops_iff_of_lt (Nat.mod_lt (h + j) hpos)).mp (hend.goesOn j hj)
    exact ⟨(key', value'), hslot⟩
  have : Nonempty (κ × ν) := ⟨(hitem 0 hd).choose⟩
  choose! item hitem using hitem
  have hnodup : ((List.range d).map item).Nodup := by
    refine List.Nodup.map_on (fun j hj j' hj' heq => ?_) List.nodup_range
    rw [List.mem_range] at hj hj'
    have hslot := hitem j hj
    have hslot' := hitem j' hj'
    rw [heq] at hslot
    exact Ring.slot_inj (hj.trans hend.lt) (hj'.trans hend.lt) (hplaced.slot_unique hslot hslot')
  have hsub : (List.range d).map item ⊆ slots.reduceOption := by
    intro x hx
    obtain ⟨j, hj, rfl⟩ := List.mem_map.mp hx
    rw [List.reduceOption_mem_iff]
    exact List.mem_of_getElem? (hitem j (List.mem_range.mp hj))
  have hle := (List.subperm_of_subset hnodup hsub).length_le
  rwa [List.length_map, List.length_range] at hle

/-- What the slot in which the search for a key ends holds is the item of this key, if any. -/
theorem mem_items_iff (hend : EndsAt slots key (home key) d) (value : ν) :
    (key, value) ∈ slots.reduceOption ↔
      slots[(home key + d) % slots.length]? = some (some (key, value)) := by
  rw [List.reduceOption_mem_iff, List.mem_iff_getElem?]
  constructor
  · rintro ⟨i, hslot⟩
    obtain ⟨d', hend', rfl⟩ := hplaced i key value hslot
    rwa [hend.unique hend']
  · exact fun hslot => ⟨_, hslot⟩

/-- A key may be stored in the slot in which the search for it ends. -/
theorem set (hend : EndsAt slots key (home key) d) (value : ν) :
    Placed home (slots.set ((home key + d) % slots.length) (some (key, value))) := by
  obtain ⟨i, hi⟩ : ∃ i, (home key + d) % slots.length = i := ⟨_, rfl⟩
  have hlt : i < slots.length := hi ▸ Nat.mod_lt _ (Nat.zero_lt_of_lt hend.lt)
  have hstop := hend.stops
  rw [hi] at hstop ⊢
  -- the searches that passed by the slot still do
  have hgo {key' : κ} {p : ℕ} (hnot : ¬StopsAt slots key' p) (hne : p = i → key' ≠ key) :
      ¬StopsAt (slots.set i (some (key, value))) key' p := by
    unfold StopsAt
    by_cases hp : p = i
    · subst hp
      rw [List.getElem?_set_self hlt]
      simpa using fun heq => hne rfl heq.symm
    · rw [List.getElem?_set_ne (Ne.symm hp)]
      exact hnot
  intro i' key' value' hslot
  rw [List.length_set]
  by_cases hi' : i' = i
  · -- the key that has been stored
    subst hi'
    rw [List.getElem?_set_self hlt, Option.some_inj, Option.some_inj] at hslot
    obtain ⟨rfl, rfl⟩ := Prod.mk.inj hslot
    refine ⟨d, ⟨?_, ?_, ?_⟩, hi.symm⟩
    · rw [List.length_set]
      exact hend.lt
    · rw [List.length_set, hi]
      exact .inr ⟨value, List.getElem?_set_self hlt⟩
    · intro j hj
      rw [List.length_set]
      refine hgo (hend.goesOn j hj) fun hp => ?_
      exact absurd (hp ▸ hstop) (hend.goesOn j hj)
  · rw [List.getElem?_set_ne (Ne.symm hi')] at hslot
    obtain ⟨d', hend', hd'⟩ := hplaced i' key' value' hslot
    refine ⟨d', ⟨?_, ?_, ?_⟩, hd'⟩
    · rw [List.length_set]
      exact hend'.lt
    · rw [List.length_set, ← hd']
      exact .inr ⟨value', by rw [List.getElem?_set_ne (Ne.symm hi'), hslot]⟩
    · intro j hj
      rw [List.length_set]
      refine hgo (hend'.goesOn j hj) fun hp => ?_
      -- the search for the stored key would have ended in the slot of the other
      rintro rfl
      rw [hend'.unique hend] at hd'
      exact hi' (hd'.trans hi)

/-- The items after a key has been stored. -/
theorem mem_items_set [DecidableEq κ] (hend : EndsAt slots key (home key) d) (value : ν)
    (key' : κ) (value' : ν) :
    (key', value') ∈ (slots.set ((home key + d) % slots.length) (some (key, value))).reduceOption ↔
      if key' = key then value' = value else (key', value') ∈ slots.reduceOption := by
  obtain ⟨i, hi⟩ : ∃ i, (home key + d) % slots.length = i := ⟨_, rfl⟩
  have hlt : i < slots.length := hi ▸ Nat.mod_lt _ (Nat.zero_lt_of_lt hend.lt)
  have hstop := hend.stops
  rw [hi] at hstop ⊢
  rw [List.reduceOption_mem_iff, List.reduceOption_mem_iff, List.mem_iff_getElem?,
    List.mem_iff_getElem?]
  split
  · rename_i hkey
    subst hkey
    constructor
    · rintro ⟨i', hslot⟩
      by_cases hi' : i' = i
      · subst hi'
        rw [List.getElem?_set_self hlt, Option.some_inj, Option.some_inj] at hslot
        exact (Prod.mk.inj hslot).2.symm
      · rw [List.getElem?_set_ne (Ne.symm hi')] at hslot
        obtain ⟨d', hend', hd'⟩ := hplaced i' key' value' hslot
        rw [hend'.unique hend] at hd'
        exact absurd (hd'.trans hi) hi'
    · rintro rfl
      exact ⟨i, List.getElem?_set_self hlt⟩
  · rename_i hkey
    -- the slot did not hold another key
    have hother (i' : ℕ) (hslot : slots[i']? = some (some (key', value'))) : i' ≠ i := by
      rintro rfl
      rcases hstop with hempty | ⟨value, hslot'⟩
      · rw [hempty] at hslot
        simp at hslot
      · rw [hslot'] at hslot
        simp only [Option.some.injEq, Prod.mk.injEq] at hslot
        exact hkey hslot.1.symm
    constructor
    · rintro ⟨i', hslot⟩
      refine ⟨i', ?_⟩
      by_cases hi' : i' = i
      · subst hi'
        rw [List.getElem?_set_self hlt, Option.some_inj, Option.some_inj] at hslot
        exact absurd (Prod.mk.inj hslot).1.symm hkey
      · rwa [List.getElem?_set_ne (Ne.symm hi')] at hslot
    · rintro ⟨i', hslot⟩
      exact ⟨i', by rw [List.getElem?_set_ne (Ne.symm (hother i' hslot)), hslot]⟩

end Placed

/-! ### The number of items -/

/-- An empty slot has been filled. -/
theorem length_items_set_none (hslot : slots[i]? = some none) (item : κ × ν) :
    (slots.set i (some item)).reduceOption.length = slots.reduceOption.length + 1 := by
  induction slots generalizing i with
  | nil => simp at hslot
  | cons slot slots ih =>
    cases i with
    | zero =>
      obtain rfl : slot = none := by simpa using hslot
      rw [List.set_cons_zero, List.reduceOption_cons_of_some, List.reduceOption_cons_of_none,
        List.length_cons]
    | succ i =>
      have hih := ih (i := i) (by simpa using hslot)
      rw [List.set_cons_succ]
      cases slot with
      | none => rwa [List.reduceOption_cons_of_none, List.reduceOption_cons_of_none]
      | some other =>
        rw [List.reduceOption_cons_of_some, List.reduceOption_cons_of_some, List.length_cons, hih,
          List.length_cons]

/-- An item has been replaced. -/
theorem length_items_set_some {item : κ × ν} (hslot : slots[i]? = some (some item))
    (item' : κ × ν) :
    (slots.set i (some item')).reduceOption.length = slots.reduceOption.length := by
  induction slots generalizing i with
  | nil => simp at hslot
  | cons slot slots ih =>
    cases i with
    | zero =>
      obtain rfl : slot = some item := by simpa using hslot
      rw [List.set_cons_zero, List.reduceOption_cons_of_some, List.reduceOption_cons_of_some,
        List.length_cons, List.length_cons]
    | succ i =>
      have hih := ih (i := i) (by simpa using hslot)
      rw [List.set_cons_succ]
      cases slot with
      | none => rwa [List.reduceOption_cons_of_none, List.reduceOption_cons_of_none]
      | some other =>
        rw [List.reduceOption_cons_of_some, List.reduceOption_cons_of_some, List.length_cons, hih,
          List.length_cons]

end OsLabs
