import OsLabs.Lib.Priority
import Mathlib.Data.List.Induction
import Mathlib.Data.List.Nodup

/-!
# Jobs run one after another

`sequential r p l` is the chart, tick by tick, of the jobs of `l` run to their ends in that order,
each not before its release; `finishAfter r p l` is its length, a recurrence of maxima and sums.
It is a feasible schedule that completes every job where the recurrence says (`feasible_sequential`,
`isCompletion_sequential`).  When the list is sorted by the releases it is work-conserving, and when
it is sorted by a priority it follows that priority.
-/

namespace OsLabs.UnitSchedule

variable {J : Type*}

/-- The schedule of a chart, which is idle after its end. -/
def ofChart (c : List (Option J)) (t : ℕ) : Option J := c.getD t none

/-- The jobs of a list, one after another. -/
def sequential (r p : J → ℕ) (l : List J) : List (Option J) :=
  l.foldl (fun c j => c ++ List.replicate (r j - c.length) none ++ List.replicate (p j) (some j)) []

/-- When the jobs of a list are done, one after another. -/
def finishAfter (r p : J → ℕ) (l : List J) : ℕ := l.foldl (fun f j => max f (r j) + p j) 0

/-! ### Charts -/

section Chart

variable {d : List (Option J)} {t : ℕ}

theorem getElem?_eq_ofChart (ht : t < d.length) : d[t]? = some (ofChart d t) := by
  rw [ofChart, List.getD_eq_getElem?_getD, List.getElem?_eq_getElem ht, Option.getD_some]

theorem ofChart_of_ge (ht : d.length ≤ t) : ofChart d t = none := by
  rw [ofChart, List.getD_eq_getElem?_getD, List.getElem?_eq_none ht, Option.getD_none]

theorem lt_of_ofChart {j : J} (h : ofChart d t = some j) : t < d.length := by
  by_contra hge
  rw [ofChart_of_ge (not_lt.mp hge)] at h
  exact absurd h (by simp)

theorem getElem?_of_ofChart {j : J} (h : ofChart d t = some j) :
    d[t]? = some (some j) := by
  rw [getElem?_eq_ofChart (lt_of_ofChart h), h]

/-- The ticks a job got are counted along the chart. -/
theorem work_ofChart [DecidableEq J] (d : List (Option J)) (j : J) (t : ℕ) :
    work (ofChart d) j t = (d.take t).count (some j) := by
  induction t with
  | zero => simp
  | succ t ih =>
    rw [work_succ, ih]
    rcases Nat.lt_or_ge t d.length with ht | ht
    · rw [List.take_add_one, List.count_append, getElem?_eq_ofChart ht, Option.toList_some,
        List.count_singleton]
      simp
    · rw [ofChart_of_ge ht, List.take_of_length_le ht, List.take_of_length_le (by omega)]
      simp

end Chart

/-! ### The recurrence -/

section Sequential

variable {r p : J → ℕ}

@[simp] theorem sequential_nil (r p : J → ℕ) : sequential r p [] = [] := rfl

theorem sequential_concat (r p : J → ℕ) (l : List J) (j : J) :
    sequential r p (l ++ [j]) = sequential r p l
      ++ List.replicate (r j - (sequential r p l).length) none
      ++ List.replicate (p j) (some j) := by
  rw [sequential, List.foldl_append]
  rfl

theorem finishAfter_concat (r p : J → ℕ) (l : List J) (j : J) :
    finishAfter r p (l ++ [j]) = max (finishAfter r p l) (r j) + p j := by
  rw [finishAfter, List.foldl_append]
  rfl

theorem length_sequential (r p : J → ℕ) (l : List J) :
    (sequential r p l).length = finishAfter r p l := by
  induction l using List.reverseRecOn with
  | nil => rfl
  | append_singleton l j ih =>
    rw [sequential_concat, finishAfter_concat, List.length_append, List.length_append, ih,
      List.length_replicate, List.length_replicate]
    omega

/-- A tick of the chart with one more job. -/
theorem getElem?_sequential_concat {l : List J} {j : J} {t : ℕ} {x : Option J}
    (h : (sequential r p (l ++ [j]))[t]? = some x) :
    (sequential r p l)[t]? = some x ∨
      (finishAfter r p l ≤ t ∧ (x = none ∧ t < r j ∨ x = some j ∧ r j ≤ t)) := by
  rw [sequential_concat, List.append_assoc] at h
  rcases Nat.lt_or_ge t (sequential r p l).length with ht | ht
  · rw [List.getElem?_append_left ht] at h
    exact Or.inl h
  · rw [List.getElem?_append_right ht] at h
    rw [length_sequential] at h ht
    refine Or.inr ⟨ht, ?_⟩
    rcases Nat.lt_or_ge t (r j) with hr | hr
    · -- before the release
      rw [List.getElem?_append_left (by rw [List.length_replicate]; omega),
        List.getElem?_replicate_of_lt (by omega)] at h
      exact Or.inl ⟨(Option.some.inj h).symm, hr⟩
    · rw [List.getElem?_append_right (by rw [List.length_replicate]; omega)] at h
      exact Or.inr ⟨List.eq_of_mem_replicate (List.mem_of_getElem? h), hr⟩

theorem take_sequential_concat {l : List J} {k : J} {t : ℕ} (ht : t < (sequential r p l).length) :
    (sequential r p (l ++ [k])).take t = (sequential r p l).take t := by
  rw [sequential_concat, List.append_assoc, List.take_append_of_le_length ht.le]

/-- No job runs before its release. -/
theorem le_of_getElem?_sequential {l : List J} {j : J} {t : ℕ}
    (h : (sequential r p l)[t]? = some (some j)) : r j ≤ t := by
  induction l using List.reverseRecOn with
  | nil => exact absurd h (by simp)
  | append_singleton l k ih =>
    rcases getElem?_sequential_concat h with hold | ⟨-, ⟨hx, -⟩ | ⟨hx, hk⟩⟩
    · exact ih hold
    · exact absurd hx (by simp)
    · rw [Option.some.inj hx]
      exact hk

/-- The chart ends with the ticks of its last job. -/
theorem getLast?_sequential_ne {l : List J} (hp : ∀ j ∈ l, 0 < p j) :
    (sequential r p l).getLast? ≠ some none := by
  rcases List.eq_nil_or_concat l with rfl | ⟨l, j, rfl⟩
  · simp
  · rw [List.concat_eq_append] at hp ⊢
    obtain ⟨m, hm⟩ := Nat.exists_eq_add_one_of_ne_zero
      (hp j (List.mem_append_right l List.mem_cons_self)).ne'
    rw [sequential_concat, hm, List.replicate_succ', ← List.append_assoc, List.getLast?_concat]
    simp

section Count

variable [DecidableEq J]

theorem count_sequential (r p : J → ℕ) (l : List J) (j : J) :
    (sequential r p l).count (some j) = l.count j * p j := by
  induction l using List.reverseRecOn with
  | nil => simp
  | append_singleton l k ih =>
    rw [sequential_concat, List.count_append, List.count_append, ih, List.count_append,
      List.count_replicate, List.count_replicate, List.count_singleton]
    by_cases hk : k = j
    · simp [hk, Nat.add_mul]
    · simp [hk]

theorem mem_sequential {l : List J} {j : J} (h : some j ∈ sequential r p l) : j ∈ l := by
  have hpos := List.count_pos_iff.mpr h
  rw [count_sequential] at hpos
  exact List.count_pos_iff.mp (Nat.pos_of_mul_pos_right hpos)

theorem count_sequential_of_mem {l : List J} (hnd : l.Nodup) {j : J} (hj : j ∈ l) :
    (sequential r p l).count (some j) = p j := by
  rw [count_sequential, List.count_eq_one_of_mem hnd hj, Nat.one_mul]

end Count

/-- The chart of a list starts with the chart of its first jobs. -/
theorem sequential_append (r p : J → ℕ) (l l' : List J) :
    ∃ rest, sequential r p (l ++ l') = sequential r p l ++ rest ∧
      ∀ j, some j ∈ rest → j ∈ l' := by
  induction l' using List.reverseRecOn with
  | nil => exact ⟨[], by simp, fun j hj => absurd hj List.not_mem_nil⟩
  | append_singleton l' k ih =>
    obtain ⟨rest, heq, hmem⟩ := ih
    refine ⟨rest ++ List.replicate (r k - (sequential r p (l ++ l')).length) none
      ++ List.replicate (p k) (some k), ?_, fun j hj => ?_⟩
    · rw [← List.append_assoc l, sequential_concat, heq]
      simp only [List.append_assoc]
    · rcases List.mem_append.mp hj with hj | hj
      · rcases List.mem_append.mp hj with hj | hj
        · exact List.mem_append_left _ (hmem j hj)
        · exact absurd (List.eq_of_mem_replicate hj) (by simp)
      · rw [Option.some.inj (List.eq_of_mem_replicate hj)]
        exact List.mem_append_right _ List.mem_cons_self

/-- The chart around the ticks of one job. -/
theorem sequential_around (r p : J → ℕ) (l l' : List J) (j : J) :
    ∃ rest, sequential r p (l ++ j :: l') = sequential r p l
        ++ List.replicate (r j - (sequential r p l).length) none
        ++ List.replicate (p j) (some j) ++ rest ∧
      ∀ k, some k ∈ rest → k ∈ l' := by
  obtain ⟨rest, heq, hmem⟩ := sequential_append r p (l ++ [j]) l'
  refine ⟨rest, ?_, hmem⟩
  rw [List.append_cons, heq, sequential_concat]

/-! ### The schedule -/

section Schedule

variable [DecidableEq J] {l : List J} {t : ℕ}

/-- The first jobs are done when the recurrence says so. -/
theorem count_take_sequential {l' : List J} (hnd : (l ++ l').Nodup) {j : J} (hj : j ∈ l)
    (ht : finishAfter r p l ≤ t) :
    ((sequential r p (l ++ l')).take t).count (some j) = p j := by
  obtain ⟨rest, heq, -⟩ := sequential_append r p l l'
  have htotal := count_sequential_of_mem (r := r) (p := p) hnd (List.mem_append_left l' hj)
  have hdone := count_sequential_of_mem (r := r) (p := p) hnd.of_append_left hj
  have hle := (List.take_sublist t (sequential r p (l ++ l'))).count_le (some j)
  have hge : (sequential r p l).Sublist ((sequential r p (l ++ l')).take t) := by
    rw [heq, List.take_append, List.take_of_length_le (by rw [length_sequential]; exact ht)]
    exact List.sublist_append_left ..
  have := hge.count_le (some j)
  omega

/-- At an idle tick of a list sorted by the releases, every job is done or released later. -/
theorem idle_sequential (hsorted : l.Pairwise fun j k => r j ≤ r k) (hnd : l.Nodup)
    (h : (sequential r p l)[t]? = some none) :
    (∃ i ∈ l, t < r i) ∧
      ∀ j ∈ l, t < r j ∨ ((sequential r p l).take t).count (some j) = p j := by
  induction l using List.reverseRecOn with
  | nil => exact absurd h (by simp)
  | append_singleton l k ih =>
    obtain ⟨hsorted', -, hlast⟩ := List.pairwise_append.mp hsorted
    rcases getElem?_sequential_concat h with hold | ⟨hle, ⟨-, hk⟩ | ⟨hx, -⟩⟩
    · -- a tick before the last job's: some job is released later, and so is the last one
      obtain ⟨⟨i, hi, hlt⟩, hall⟩ := ih hsorted' hnd.of_append_left hold
      refine ⟨⟨i, List.mem_append_left _ hi, hlt⟩, fun j hj => ?_⟩
      rw [take_sequential_concat (List.getElem?_eq_some_iff.mp hold).1]
      rcases List.mem_append.mp hj with hj | hj
      · exact hall j hj
      · rw [List.mem_singleton.mp hj]
        exact Or.inl (hlt.trans_le (hlast i hi k List.mem_cons_self))
    · refine ⟨⟨k, List.mem_append_right _ List.mem_cons_self, hk⟩, fun j hj => ?_⟩
      rcases List.mem_append.mp hj with hj | hj
      · exact Or.inr (count_take_sequential hnd hj hle)
      · rw [List.mem_singleton.mp hj]
        exact Or.inl hk
    · exact absurd hx (by simp)

/-- At a tick of a job every other job is done or comes after it. -/
theorem running_sequential {prec : J → J → Prop} (hsorted : l.Pairwise prec) (hnd : l.Nodup)
    {j : J} (h : (sequential r p l)[t]? = some (some j)) :
    ∀ k ∈ l, k ≠ j → ((sequential r p l).take t).count (some k) = p k ∨ prec j k := by
  induction l using List.reverseRecOn with
  | nil => exact absurd h (by simp)
  | append_singleton l m ih =>
    obtain ⟨hsorted', -, hlast⟩ := List.pairwise_append.mp hsorted
    intro k hk hne
    rcases getElem?_sequential_concat h with hold | ⟨hle, ⟨hx, -⟩ | ⟨hx, -⟩⟩
    · rw [take_sequential_concat (List.getElem?_eq_some_iff.mp hold).1]
      rcases List.mem_append.mp hk with hk | hk
      · exact ih hsorted' hnd.of_append_left hold k hk hne
      · rw [List.mem_singleton.mp hk]
        exact Or.inr (hlast j (mem_sequential (List.mem_of_getElem? hold)) m List.mem_cons_self)
    · exact absurd hx (by simp)
    · -- the last job runs when all others are done
      obtain rfl := Option.some.inj hx
      rcases List.mem_append.mp hk with hk | hk
      · exact Or.inl (count_take_sequential hnd hk hle)
      · exact absurd (List.mem_singleton.mp hk) hne

theorem feasible_sequential (hnd : l.Nodup) : Feasible r p (ofChart (sequential r p l)) where
  released t j hrun := le_of_getElem?_sequential (getElem?_of_ofChart hrun)
  work_le t j := by
    rw [work_ofChart]
    refine ((List.take_sublist t _).count_le (some j)).trans ?_
    rw [count_sequential]
    have := List.nodup_iff_count_le_one.mp hnd j
    exact (Nat.mul_le_mul_right (p j) this).trans (Nat.one_mul (p j)).le

theorem workConserving_sequential (hsorted : l.Pairwise fun j k => r j ≤ r k) (hnd : l.Nodup)
    (hall : ∀ j, j ∈ l) : WorkConserving r p (ofChart (sequential r p l)) := by
  intro t hidle j
  unfold left
  split
  · rename_i hr
    rw [work_ofChart]
    rcases Nat.lt_or_ge t (sequential r p l).length with ht | ht
    · have hget := getElem?_eq_ofChart ht
      rw [hidle] at hget
      have := (idle_sequential hsorted hnd hget).2 j (hall j)
      omega
    · rw [List.take_of_length_le ht, count_sequential_of_mem hnd (hall j), Nat.sub_self]
  · rfl

theorem followsPriority_sequential {prec : J → J → Prop} (hsorted : l.Pairwise prec)
    (hnd : l.Nodup) (hall : ∀ j, j ∈ l) :
    FollowsPriority (fun _ => prec) r p (ofChart (sequential r p l)) := by
  intro t j hrun k hne hleft
  refine (running_sequential hsorted hnd (getElem?_of_ofChart hrun) k (hall k) hne).resolve_left
    fun hdone => ?_
  unfold left at hleft
  rw [work_ofChart, hdone] at hleft
  split at hleft <;> omega

/-- A job is done when the recurrence says so, and not before. -/
theorem isCompletion_sequential {l' : List J} {j : J} (hnd : (l ++ j :: l').Nodup)
    (hj : 0 < p j) :
    IsCompletion p (ofChart (sequential r p (l ++ j :: l'))) j (finishAfter r p (l ++ [j])) := by
  obtain ⟨m, hm⟩ : ∃ m, finishAfter r p (l ++ [j]) = m + 1 := by
    apply Nat.exists_eq_add_one_of_ne_zero
    rw [finishAfter_concat]
    omega
  have hdone : work (ofChart (sequential r p (l ++ j :: l'))) j (m + 1) = p j := by
    rw [List.append_cons] at hnd ⊢
    rw [work_ofChart]
    exact count_take_sequential hnd (List.mem_append_right l List.mem_cons_self) hm.le
  -- its last tick
  have hrun : ofChart (sequential r p (l ++ j :: l')) m = some j := by
    obtain ⟨rest, heq, -⟩ := sequential_around r p l l' j
    rw [finishAfter_concat] at hm
    have hlen : (sequential r p l ++ List.replicate (r j - (sequential r p l).length) none).length
        = max (finishAfter r p l) (r j) := by
      rw [List.length_append, List.length_replicate, length_sequential]
      omega
    have hlt : m - max (finishAfter r p l) (r j) < p j := by omega
    rw [ofChart, List.getD_eq_getElem?_getD, heq, List.append_assoc,
      List.getElem?_append_right (by omega), hlen,
      List.getElem?_append_left (by rw [List.length_replicate]; exact hlt),
      List.getElem?_replicate_of_lt hlt, Option.getD_some]
  refine ⟨hm ▸ hdone, fun t ht => ?_⟩
  have hlast := work_succ (ofChart (sequential r p (l ++ j :: l'))) j m
  rw [if_pos hrun] at hlast
  have := work_mono (ofChart (sequential r p (l ++ j :: l'))) j (show t ≤ m by omega)
  omega

end Schedule

end Sequential

end OsLabs.UnitSchedule
