import Mathlib.Data.List.Dedup
import Mathlib.Data.Finset.Card

/-!
# The recency order of a history

`recency refs` is the list of the distinct members of `refs`, the one that occurred last first.
One more occurrence moves its member to the front (`recency_concat`); on the first `n` entries
that is one of three moves (`take_recency_of_mem`, `take_recency_of_lt`, `take_recency_of_full`).
-/

namespace OsLabs

variable {α : Type*}

/-- `a` occurs in `refs` after the last occurrence of `b`. -/
def LaterUse (refs : List α) (a b : α) : Prop := ∃ us vs, refs = us ++ a :: vs ∧ b ≠ a ∧ b ∉ vs

theorem LaterUse.concat {refs : List α} {a b p : α} (h : LaterUse refs a b) (hb : b ≠ p) :
    LaterUse (refs ++ [p]) a b := by
  obtain ⟨us, vs, rfl, hba, hvs⟩ := h
  refine ⟨us, vs ++ [p], by simp, hba, ?_⟩
  rw [List.mem_append, List.mem_singleton]
  exact fun h => h.elim hvs hb

theorem laterUse_concat_self {a b : α} (refs : List α) (h : b ≠ a) : LaterUse (refs ++ [a]) a b :=
  ⟨refs, [], rfl, h, List.not_mem_nil⟩

/-- Of two values taken at increasing times, the one used later is taken after every time of the
other. -/
theorem LaterUse.exists_time {times : List ℕ} (hinc : times.Pairwise (· < ·)) {f : ℕ → α} {a b : α}
    (h : LaterUse (times.map f) a b) {τ : ℕ} (hτ : τ ∈ times) (hb : f τ = b) :
    ∃ σ ∈ times, τ < σ ∧ f σ = a := by
  obtain ⟨us, vs, heq, hba, hvs⟩ := h
  obtain ⟨us', rest, rfl, -, hrest⟩ := List.map_eq_append_iff.mp heq
  obtain ⟨σ, vs', rfl, hσ, rfl⟩ := List.map_eq_cons_iff.mp hrest
  refine ⟨σ, by simp, ?_, hσ⟩
  rw [List.mem_append, List.mem_cons] at hτ
  obtain hτ | rfl | hτ := hτ
  · exact (List.pairwise_append.mp hinc).2.2 τ hτ σ (List.mem_cons_self ..)
  · exact absurd (hb.symm.trans hσ) hba
  · exact absurd (hb ▸ List.mem_map_of_mem hτ) hvs

variable [DecidableEq α]

/-- The distinct members of `refs`, the most recent one first. -/
def recency (refs : List α) : List α := refs.dedup.reverse

@[simp] theorem recency_nil : recency ([] : List α) = [] := rfl

@[simp] theorem mem_recency {refs : List α} {a : α} : a ∈ recency refs ↔ a ∈ refs := by
  simp [recency]

theorem nodup_recency (refs : List α) : (recency refs).Nodup :=
  List.nodup_reverse.mpr (List.nodup_dedup refs)

theorem length_recency (refs : List α) : (recency refs).length = refs.toFinset.card := by
  rw [recency, List.length_reverse, List.card_toFinset]

theorem dedup_concat (refs : List α) (p : α) :
    (refs ++ [p]).dedup = refs.dedup.erase p ++ [p] := by
  induction refs with
  | nil => rfl
  | cons a refs ih =>
    rw [List.cons_append]
    by_cases hap : a = p
    · -- the front occurrence of `p` is not its last one on either side
      subst hap
      rw [List.dedup_cons_of_mem (by simp), ih]
      congr 1
      by_cases ha : a ∈ refs
      · rw [List.dedup_cons_of_mem ha]
      · rw [List.dedup_cons_of_notMem ha, List.erase_cons_head, List.erase_of_not_mem (by simpa)]
    · by_cases ha : a ∈ refs
      · rw [List.dedup_cons_of_mem (by simp [ha]), List.dedup_cons_of_mem ha, ih]
      · rw [List.dedup_cons_of_notMem (by simp [ha, hap]), List.dedup_cons_of_notMem ha, ih,
          List.erase_cons_tail (by simpa using hap), List.cons_append]

/-- **One more occurrence** moves its member to the front. -/
theorem recency_concat (refs : List α) (p : α) :
    recency (refs ++ [p]) = p :: (recency refs).erase p := by
  have hnd := nodup_recency refs
  have hnd' := List.nodup_dedup refs
  rw [recency, dedup_concat, List.reverse_append, List.reverse_singleton, List.singleton_append,
    hnd.erase_eq_filter, hnd'.erase_eq_filter, recency, List.filter_reverse]

/-- The order of the list is the order of the last occurrences. -/
theorem pairwise_recency (refs : List α) : (recency refs).Pairwise (LaterUse refs) := by
  induction refs using List.reverseRecOn with
  | nil => exact List.Pairwise.nil
  | append_singleton refs p ih =>
    rw [recency_concat, List.pairwise_cons]
    have hne (b : α) (hb : b ∈ (recency refs).erase p) : b ≠ p :=
      ((nodup_recency refs).mem_erase_iff.mp hb).1
    refine ⟨fun b hb => laterUse_concat_self refs (hne b hb), ?_⟩
    apply (ih.sublist List.erase_sublist).imp_of_mem
    intro a b _ hb h
    exact h.concat (hne b hb)

/-! ### The first entries -/

section Take

variable {refs : List α} {p : α} {n : ℕ}

theorem take_erase_of_notMem {l : List α} (h : p ∉ l.take n) : (l.erase p).take n = l.take n := by
  induction l generalizing n with
  | nil => rfl
  | cons a l ih =>
    cases n with
    | zero => simp
    | succ n =>
      rw [List.take_succ_cons, List.mem_cons, not_or] at h
      rw [List.erase_cons_tail (by simpa using Ne.symm h.1), List.take_succ_cons,
        List.take_succ_cons, ih h.2]

/-- A member of the first `n` moves to the front. -/
theorem take_recency_of_mem (hp : p ∈ (recency refs).take n) :
    (recency (refs ++ [p])).take n = p :: ((recency refs).take n).erase p := by
  obtain ⟨as, bs, hl⟩ := List.append_of_mem (List.mem_of_mem_take hp)
  have hnd := nodup_recency refs
  rw [hl, List.nodup_middle, List.nodup_cons, List.mem_append, not_or] at hnd
  have hlt : as.length < n := by
    by_contra hge
    rw [hl, List.take_append_of_le_length (by omega)] at hp
    exact hnd.1.1 (List.mem_of_mem_take hp)
  obtain ⟨m, rfl⟩ : ∃ m, n = as.length + (m + 1) := ⟨n - as.length - 1, by omega⟩
  rw [recency_concat, hl, List.take_length_add_append, List.take_succ_cons,
    List.erase_append_right _ hnd.1.1, List.erase_append_right _ hnd.1.1, List.erase_cons_head,
    List.erase_cons_head, ← Nat.add_assoc, List.take_succ_cons, List.take_length_add_append]

/-- While there are less than `n` members, a new one comes in front of them all. -/
theorem take_recency_of_lt (hp : p ∉ (recency refs).take n)
    (hlt : ((recency refs).take n).length < n) :
    (recency (refs ++ [p])).take n = p :: (recency refs).take n := by
  have hlen : (recency refs).length < n := by
    rw [List.length_take] at hlt
    omega
  obtain ⟨m, rfl⟩ : ∃ m, n = m + 1 := ⟨n - 1, by omega⟩
  rw [List.take_of_length_le hlen.le] at hp ⊢
  rw [recency_concat, List.take_succ_cons, List.erase_of_not_mem hp,
    List.take_of_length_le (by omega)]

/-- With `n` members or more, the last of the first `n` makes room. -/
theorem take_recency_of_full (hn : 1 ≤ n) (hp : p ∉ (recency refs).take n)
    (hfull : ((recency refs).take n).length = n) :
    (recency (refs ++ [p])).take n = p :: ((recency refs).take n).dropLast := by
  obtain ⟨m, rfl⟩ : ∃ m, n = m + 1 := ⟨n - 1, by omega⟩
  have hp' : p ∉ (recency refs).take m := fun h => hp (List.take_subset_take_left _ (by omega) h)
  rw [recency_concat, List.take_succ_cons, take_erase_of_notMem hp', List.dropLast_eq_take,
    hfull, List.take_take, Nat.add_sub_cancel, min_eq_left (Nat.le_succ m)]

end Take

end OsLabs
