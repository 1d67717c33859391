import OsLabs.Threads.Equiv.Ht
import OsLabs.Threads.Equiv.Statistics
import OsLabs.Threads.Memory

/-!
# Counters behind pointers

No two keys of a table share a counter (`Counters.Valid`).  So counting a key changes its counter
only, and what the table says about the keys (`Counters.value`) is counted as in a map
(`Counters.Valid.countKey_spec`).  The contents of the table (`Counters.contents`) are what the
iteration of `get_most_visited` finds.
-/

namespace OsLabs.Threads.Memory

open Function

/-- The pointers of the table point to counters, those of different keys to different ones. -/
structure Counters.Valid (c : Counters) : Prop where
  wf : ∃ k, c.table.WF k
  lt : ∀ key rcount, (key, rcount) ∈ c.table.items → rcount < c.cells.length
  apart : ∀ key key' rcount, (key, rcount) ∈ c.table.items → (key', rcount) ∈ c.table.items →
    key = key'

/-- `ht_get` finds different counters for different keys. -/
def Counters.Apart (c : Counters) : Prop :=
  ∀ key key' rcount, htGet c.table key = some (some rcount) →
    htGet c.table key' = some (some rcount) → key = key'

/-- The counter of a key. -/
def Counters.value (c : Counters) (key : List Char) : Option UInt32 :=
  (htGet c.table key).join.bind fun rcount => c.cells[rcount]?

/-- The keys with their counts, in the order of the iteration. -/
def Counters.contents (c : Counters) : List (List Char × UInt32) :=
  c.table.items.map fun item => (item.1, (c.cells[item.2]?).getD 0)

/-- The loop of `get_most_visited`, from what the iterator visits. -/
theorem mostVisitedLoop_eq {cells : List UInt32} {fuel : ℕ} {it : Hti ℕ}
    {items : List (List Char × ℕ)} (hvisit : htVisit fuel it = some items)
    (hlt : ∀ key rcount, (key, rcount) ∈ items → rcount < cells.length) (best : ℤ × List Char) :
    mostVisitedLoop cells fuel it best
      = some ((items.map fun item => (item.1, (cells[item.2]?).getD 0)).foldl mostVisitedStep
        best) := by
  induction fuel generalizing it items best with
  | zero => exact absurd hvisit (by simp [htVisit])
  | succ fuel ih =>
    rw [htVisit] at hvisit
    rw [mostVisitedLoop]
    cases hnext : htNext it with
    | none =>
      simp only [hnext, Option.some_inj] at hvisit
      rw [← hvisit]
      rfl
    | some p =>
      obtain ⟨⟨key, rcount⟩, it'⟩ := p
      simp only [hnext, Option.map_eq_some_iff] at hvisit
      obtain ⟨items', hvisit', rfl⟩ := hvisit
      have hcount := hlt key rcount List.mem_cons_self
      have hcell : cells[rcount]? = some cells[rcount] := List.getElem?_eq_getElem hcount
      simp only [hcell]
      rw [ih hvisit' (fun key' rcount' hmem => hlt key' rcount' (List.mem_cons_of_mem _ hmem)),
        List.map_cons, List.foldl_cons, hcell]
      rfl

theorem valid_create : Counters.create.Valid where
  wf := ⟨4, wf_htCreate⟩
  lt key rcount hmem := by simp [Counters.create, Ht.items, htCreate] at hmem
  apart key key' rcount hmem := by simp [Counters.create, Ht.items, htCreate] at hmem

theorem value_create (key : List Char) : Counters.create.value key = none := by
  have hwf : (htCreate : Ht ℕ).WF 4 := wf_htCreate
  obtain ⟨result, hget, hresult⟩ := hwf.htGet_eq key
  cases result with
  | none =>
    show (htGet htCreate key).join.bind _ = none
    rw [hget]
    rfl
  | some rcount =>
    have hmem := (hresult rcount).mp rfl
    simp [Ht.items, htCreate] at hmem

namespace Counters.Valid

variable {c : Counters} (h : c.Valid)

include h

/-- The search for a key ends. -/
theorem htGet_eq (key : List Char) : ∃ result, htGet c.table key = some result ∧
    ∀ rcount, result = some rcount ↔ (key, rcount) ∈ c.table.items := by
  obtain ⟨k, hwf⟩ := h.wf
  exact hwf.htGet_eq key

theorem value_of_mem {key : List Char} {rcount : ℕ} (hmem : (key, rcount) ∈ c.table.items) :
    c.value key = c.cells[rcount]? := by
  obtain ⟨result, hget, hresult⟩ := h.htGet_eq key
  rw [value, hget, (hresult rcount).mpr hmem]
  rfl

theorem value_of_not_mem {key : List Char} (hnot : ∀ rcount, (key, rcount) ∉ c.table.items) :
    c.value key = none := by
  obtain ⟨result, hget, hresult⟩ := h.htGet_eq key
  cases result with
  | none =>
    rw [value, hget]
    rfl
  | some rcount => exact absurd ((hresult rcount).mp rfl) (hnot rcount)

/-- The code sees as much: `ht_get` returns the pointers of the table. -/
theorem keysApart : c.Apart := by
  intro key key' rcount hkey hkey'
  obtain ⟨result, hget, hresult⟩ := h.htGet_eq key
  obtain ⟨result', hget', hresult'⟩ := h.htGet_eq key'
  rw [hkey, Option.some_inj, eq_comm] at hget
  rw [hkey', Option.some_inj, eq_comm] at hget'
  exact h.apart key key' rcount ((hresult rcount).mp hget) ((hresult' rcount).mp hget')

/-- The table has room for one more key, or it is as large as it can be. -/
theorem length_items_le : c.table.items.length ≤ 2 ^ 62 := by
  obtain ⟨k, hwf⟩ := h.wf
  have hload := hwf.load
  have hle : 2 ^ k ≤ 2 ^ 63 := Nat.pow_le_pow_right (by decide) hwf.entries.le
  omega

/-! ### Counting a key -/

/-- The key has a counter. -/
theorem countKey_of_mem {key : List Char} {rcount : ℕ} (hmem : (key, rcount) ∈ c.table.items) :
    ∃ n c', c.cells[rcount]? = some n ∧ countKey c key = some c' ∧ c'.Valid ∧
      c'.table = c.table ∧ c'.value = update c.value key (some (n + 1)) := by
  have hlt := h.lt key rcount hmem
  obtain ⟨result, hget, hresult⟩ := h.htGet_eq key
  rw [(hresult rcount).mpr hmem] at hget
  have hn : c.cells[rcount]? = some c.cells[rcount] := List.getElem?_eq_getElem hlt
  have hvalid : Valid { c with cells := c.cells.set rcount (c.cells[rcount] + 1) } := by
    refine ⟨h.wf, fun key' rcount' hmem' => ?_, h.apart⟩
    rw [List.length_set]
    exact h.lt key' rcount' hmem'
  refine ⟨_, _, hn, by simp only [countKey, hget, hn], hvalid, rfl, ?_⟩
  funext key'
  by_cases hkey : key' = key
  · subst hkey
    rw [update_self, hvalid.value_of_mem hmem]
    exact List.getElem?_set_self hlt
  · rw [update_of_ne hkey]
    by_cases hmem' : ∃ rcount', (key', rcount') ∈ c.table.items
    · -- the counter of another key is another counter
      obtain ⟨rcount', hmem'⟩ := hmem'
      rw [hvalid.value_of_mem hmem', h.value_of_mem hmem']
      refine List.getElem?_set_ne ?_
      rintro rfl
      exact hkey (h.apart _ _ _ hmem' hmem)
    · have hnot := not_exists.mp hmem'
      rw [hvalid.value_of_not_mem hnot, h.value_of_not_mem hnot]

/-- The key is counted for the first time. -/
theorem countKey_of_not_mem {key : List Char} (hnot : ∀ rcount, (key, rcount) ∉ c.table.items) :
    ∃ c', countKey c key = some c' ∧ c'.Valid ∧
      c'.table.items.length ≤ c.table.items.length + 1 ∧
      (c.table.items.length < 2 ^ 62 → c'.value = update c.value key (some 1)) := by
  obtain ⟨k, hwf⟩ := h.wf
  obtain ⟨result, hget, hresult⟩ := h.htGet_eq key
  obtain rfl : result = none := by
    cases result with
    | none => rfl
    | some rcount => exact absurd ((hresult rcount).mp rfl) (hnot rcount)
  rcases h.length_items_le.lt_or_eq with hroom | hfull
  · obtain ⟨table, k', hset, hwf', hle, hmem⟩ := hwf.htSet_eq hroom key c.cells.length
    have hvalid : Valid { table := table, cells := c.cells ++ [1] } := by
      refine ⟨⟨k', hwf'⟩, fun key' rcount hin => ?_, fun key' key'' rcount hin hin' => ?_⟩
      · rw [List.length_append, List.length_singleton]
        rw [hmem] at hin
        split at hin
        · omega
        · have := h.lt _ _ hin
          omega
      · rw [hmem] at hin hin'
        split at hin <;> split at hin'
        · rename_i hkey hkey'
          rw [hkey, hkey']
        · have := h.lt _ _ hin'
          omega
        · have := h.lt _ _ hin
          omega
        · exact h.apart _ _ _ hin hin'
    refine ⟨_, by simp only [countKey, hget, hset, Option.map_some], hvalid, hle, fun _ => ?_⟩
    funext key'
    by_cases hkey : key' = key
    · subst hkey
      rw [update_self, hvalid.value_of_mem ((hmem _ _).mpr (by rw [if_pos rfl]))]
      show (c.cells ++ [1])[c.cells.length]? = _
      rw [List.getElem?_append_right le_rfl, Nat.sub_self]
      rfl
    · rw [update_of_ne hkey]
      by_cases hmem' : ∃ rcount, (key', rcount) ∈ c.table.items
      · obtain ⟨rcount, hmem'⟩ := hmem'
        rw [hvalid.value_of_mem ((hmem _ _).mpr (by rwa [if_neg hkey])), h.value_of_mem hmem']
        exact List.getElem?_append_left (h.lt _ _ hmem')
      · have hnot' := not_exists.mp hmem'
        rw [h.value_of_not_mem hnot']
        refine hvalid.value_of_not_mem fun rcount hin => ?_
        rw [hmem, if_neg hkey] at hin
        exact hnot' rcount hin
  · -- `ht_set` fails, and the new counter is lost
    refine ⟨{ c with cells := c.cells ++ [1] }, ?_, ⟨h.wf, fun key' rcount hin => ?_, h.apart⟩,
      Nat.le_add_right .., ?_⟩
    · simp only [countKey, hget, hwf.htSet_full hfull, Option.map_some]
    · rw [List.length_append]
      exact Nat.lt_add_right _ (h.lt _ _ hin)
    · intro hroom
      omega

/-- **Counting a key behind pointers is counting it in a map**, while the table has room. -/
theorem countKey_spec (key : List Char) : ∃ c', countKey c key = some c' ∧ c'.Valid ∧
    c'.table.items.length ≤ c.table.items.length + 1 ∧
    (c.table.items.length < 2 ^ 62 →
      c'.value = Threads.countKey functionTable c.value key) := by
  by_cases hmem : ∃ rcount, (key, rcount) ∈ c.table.items
  · obtain ⟨rcount, hmem⟩ := hmem
    obtain ⟨n, c', hn, hcount, hvalid, htable, hvalue⟩ := h.countKey_of_mem hmem
    refine ⟨c', hcount, hvalid, by rw [htable]; exact Nat.le_succ _, fun _ => ?_⟩
    have hget : functionTable.get c.value key = some n := (h.value_of_mem hmem).trans hn
    simp only [Threads.countKey, hget]
    exact hvalue
  · have hnot := not_exists.mp hmem
    obtain ⟨c', hcount, hvalid, hle, hvalue⟩ := h.countKey_of_not_mem hnot
    refine ⟨c', hcount, hvalid, hle, fun hroom => ?_⟩
    have hget : functionTable.get c.value key = none := h.value_of_not_mem hnot
    simp only [Threads.countKey, hget]
    exact hvalue hroom

/-! ### The contents of a table -/

/-- Every key with its count. -/
theorem mem_contents_iff (key : List Char) (n : UInt32) :
    (key, n) ∈ c.contents ↔ c.value key = some n := by
  rw [contents, List.mem_map]
  constructor
  · rintro ⟨⟨key', rcount⟩, hmem, heq⟩
    obtain ⟨rfl, rfl⟩ := Prod.mk.inj heq
    rw [h.value_of_mem hmem, List.getElem?_eq_getElem (h.lt _ _ hmem)]
    rfl
  · intro hvalue
    by_cases hmem : ∃ rcount, (key, rcount) ∈ c.table.items
    · obtain ⟨rcount, hmem⟩ := hmem
      rw [h.value_of_mem hmem] at hvalue
      exact ⟨(key, rcount), hmem, by rw [hvalue]; rfl⟩
    · rw [h.value_of_not_mem (not_exists.mp hmem)] at hvalue
      exact absurd hvalue (by simp)

theorem nodup_contents : (c.contents.map Prod.fst).Nodup := by
  obtain ⟨k, hwf⟩ := h.wf
  rw [contents, List.map_map]
  exact hwf.nodup_keys

theorem htLength_eq : (htLength c.table).toNat = c.contents.length := by
  obtain ⟨k, hwf⟩ := h.wf
  rw [htLength, hwf.length, contents, List.length_map]

/-- The loop of `get_most_visited` goes over the contents. -/
theorem getMostVisited_eq {fuel : ℕ} (hfuel : c.contents.length < fuel) (mostVisited : List Char) :
    getMostVisited fuel c mostVisited = some (Threads.getMostVisited c.contents mostVisited) := by
  obtain ⟨k, hwf⟩ := h.wf
  rw [contents, List.length_map] at hfuel
  exact mostVisitedLoop_eq (hwf.htVisit_eq hfuel) h.lt (0, mostVisited)

end Counters.Valid

end OsLabs.Threads.Memory
