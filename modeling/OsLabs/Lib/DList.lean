import Mathlib.Data.List.Nodup
import Mathlib.Logic.Function.Basic

/-!
# Doubly linked lists over a pool of nodes

The links of an intrusive doubly linked list: a head, a tail and, for every node of a pool `κ`,
the nodes before and after it, with `none` for a null pointer.  `remove`, `pushFront` and
`pushBack` are the usual in-place operations, one assignment after the other.

`IsList l xs` says that the list read from the head is `xs`, that the list read from the tail is
its reverse, and that no node is met twice.  Each operation is described by what it does to `xs`
(`IsList.remove`, `IsList.pushFront`, `IsList.pushBack`).  Both directions of the links are
handled by the same two lemmas about a single pointer map (`Walk.splice`, `Walk.extend`).
-/

namespace OsLabs

open Function

/-- Head, tail and links of a doubly linked list; `none` is the null pointer. -/
structure DList (κ : Type*) where
  head : Option κ
  tail : Option κ
  prev : κ → Option κ
  next : κ → Option κ

namespace DList

variable {κ : Type*}

/-! ### Reading -/

/-- Forget the list; the links of the nodes stay as they are. -/
def clear (l : DList κ) : DList κ := { l with head := none, tail := none }

/-- The first node from `o` on with `p`, met within `fuel` nodes: `some none` when the walk ends
first, `none` when it does not end. -/
def search (next : κ → Option κ) (p : κ → Bool) : ℕ → Option κ → Option (Option κ)
  | _, none => some none
  | 0, some _ => none
  | fuel + 1, some n => if p n then some (some n) else search next p fuel (next n)

/-- The nodes read from `o` on, at most `fuel` of them. -/
def read (next : κ → Option κ) : ℕ → Option κ → List κ
  | _, none => []
  | 0, some _ => []
  | fuel + 1, some n => n :: read next fuel (next n)

/-! ### Walks along one pointer map -/

/-- Following `next` from `o` passes exactly the nodes `xs` and arrives at `q`. -/
def Walk (next : κ → Option κ) : Option κ → List κ → Option κ → Prop
  | o, [], q => o = q
  | o, x :: xs, q => o = some x ∧ Walk next (next x) xs q

variable {next : κ → Option κ}

theorem walk_append {o q : Option κ} {as bs : List κ} :
    Walk next o (as ++ bs) q ↔ ∃ m, Walk next o as m ∧ Walk next m bs q := by
  induction as generalizing o with
  | nil => simp [Walk]
  | cons a as ih => simp [Walk, ih, and_assoc]

theorem walk_congr {next' : κ → Option κ} {xs : List κ} (h : ∀ x ∈ xs, next' x = next x)
    {o q : Option κ} : Walk next' o xs q ↔ Walk next o xs q := by
  induction xs generalizing o with
  | nil => rfl
  | cons x xs ih =>
    rw [Walk, Walk, h x (List.mem_cons_self ..), ih fun y hy => h y (List.mem_cons_of_mem _ hy)]

theorem Walk.eq_head {o : Option κ} {xs : List κ} (h : Walk next o xs none) : o = xs.head? := by
  cases xs with
  | nil => exact h
  | cons x xs => exact h.1

/-- In a walk to null, the successor of a node is what follows it in the list. -/
theorem Walk.next_eq {o : Option κ} {as bs : List κ} {n : κ}
    (h : Walk next o (as ++ n :: bs) none) : next n = bs.head? := by
  obtain ⟨m, _, hn⟩ := walk_append.mp h
  exact hn.2.eq_head

theorem Walk.search_eq {p : κ → Bool} {o : Option κ} {xs : List κ} (h : Walk next o xs none)
    {fuel : ℕ} (hfuel : xs.length ≤ fuel) : search next p fuel o = some (xs.find? p) := by
  induction xs generalizing o fuel with
  | nil =>
    obtain rfl : o = none := h
    cases fuel <;> rfl
  | cons x xs ih =>
    obtain ⟨rfl, hw⟩ := h
    cases fuel with
    | zero => simp at hfuel
    | succ fuel =>
      rw [search, ih hw (by simpa using hfuel), List.find?_cons]
      cases p x <;> rfl

theorem Walk.read_eq {o : Option κ} {xs : List κ} (h : Walk next o xs none)
    {fuel : ℕ} (hfuel : xs.length ≤ fuel) : read next fuel o = xs := by
  induction xs generalizing o fuel with
  | nil =>
    obtain rfl : o = none := h
    cases fuel <;> rfl
  | cons x xs ih =>
    obtain ⟨rfl, hw⟩ := h
    cases fuel with
    | zero => simp at hfuel
    | succ fuel => rw [read, ih hw (by simpa using hfuel)]

/-! ### The logical contents -/

/-- The list read from the head is `xs`, the list read from the tail its reverse, and no node is
met twice. -/
structure IsList (l : DList κ) (xs : List κ) : Prop where
  nodup : xs.Nodup
  forward : Walk l.next l.head xs none
  backward : Walk l.prev l.tail xs.reverse none

section Contents

variable {l : DList κ} {xs as bs : List κ} {n : κ}

theorem isList_clear (l : DList κ) : IsList l.clear [] :=
  ⟨List.nodup_nil, rfl, rfl⟩

theorem IsList.head_eq (h : IsList l xs) : l.head = xs.head? := h.forward.eq_head

theorem IsList.tail_eq (h : IsList l xs) : l.tail = xs.getLast? := by
  rw [h.backward.eq_head, List.head?_reverse]

theorem IsList.next_eq (h : IsList l (as ++ n :: bs)) : l.next n = bs.head? := h.forward.next_eq

theorem IsList.prev_eq (h : IsList l (as ++ n :: bs)) : l.prev n = as.getLast? := by
  have hb := h.backward
  rw [List.reverse_append, List.reverse_cons, List.append_assoc, List.singleton_append] at hb
  rw [hb.next_eq, List.head?_reverse]

end Contents

/-! ### Linking and unlinking -/

variable [DecidableEq κ]

/-- Unlink node `n`. -/
def remove (l : DList κ) (n : κ) : DList κ :=
  let l := match l.prev n with
    | some p => { l with next := update l.next p (l.next n) }
    | none => { l with head := l.next n }
  let l := match l.next n with
    | some m => { l with prev := update l.prev m (l.prev n) }
    | none => { l with tail := l.prev n }
  { l with prev := update l.prev n none, next := update l.next n none }

/-- Link node `n` in before the head. -/
def pushFront (l : DList κ) (n : κ) : DList κ :=
  let l := { l with next := update l.next n l.head }
  let l := { l with prev := update l.prev n none }
  let l := match l.head with
    | some h => { l with prev := update l.prev h (some n) }
    | none => l
  let l := { l with head := some n }
  match l.tail with
  | some _ => l
  | none => { l with tail := some n }

/-- Link node `n` in after the tail. -/
def pushBack (l : DList κ) (n : κ) : DList κ :=
  let l := { l with prev := update l.prev n l.tail }
  let l := { l with next := update l.next n none }
  let l := match l.tail with
    | some t => { l with next := update l.next t (some n) }
    | none => l
  let l := { l with tail := some n }
  match l.head with
  | some _ => l
  | none => { l with head := some n }

/-! ### One pointer map after an update -/

theorem walk_update_of_notMem {a : κ} {xs : List κ} (ha : a ∉ xs) (v : Option κ)
    {o q : Option κ} : Walk (update next a v) o xs q ↔ Walk next o xs q :=
  walk_congr fun x hx => by
    have hne : x ≠ a := fun h => ha (h ▸ hx)
    rw [update_of_ne hne]

/-- Redirecting the last node of a walk moves its end. -/
theorem Walk.retarget {o q q' : Option κ} {as : List κ} {p : κ} (hp : p ∉ as)
    (h : Walk next o (as ++ [p]) q) : Walk (update next p q') o (as ++ [p]) q' := by
  obtain ⟨m, h1, h2⟩ := walk_append.mp h
  refine walk_append.mpr ⟨m, (walk_update_of_notMem hp _).mpr h1, ?_⟩
  exact ⟨h2.1, update_self ..⟩

/-- Bypassing node `n`: its predecessor, or the start of the walk, is redirected to its
successor. -/
theorem Walk.splice {o : Option κ} {as bs : List κ} {n : κ} (hnd : (as ++ n :: bs).Nodup)
    (h : Walk next o (as ++ n :: bs) none) :
    Walk (update (match as.getLast? with
        | some p => update next p (next n)
        | none => next) n none)
      (match as.getLast? with
        | some _ => o
        | none => next n) (as ++ bs) none := by
  rw [List.nodup_append] at hnd
  obtain ⟨has, hbs, hdisj⟩ := hnd
  have hn : n ∉ as ++ bs := by
    intro hmem
    rcases List.mem_append.mp hmem with hmem | hmem
    · exact hdisj n hmem n (List.mem_cons_self ..) rfl
    · exact (List.nodup_cons.mp hbs).1 hmem
  obtain ⟨m, h1, rfl, h2⟩ := walk_append.mp h
  rw [walk_update_of_notMem hn]
  rcases List.eq_nil_or_concat as with rfl | ⟨as, p, rfl⟩
  · exact h2
  · rw [List.concat_eq_append] at *
    have hp : p ∉ as := by
      intro hmem
      rw [List.nodup_append] at has
      exact has.2.2 p hmem p (List.mem_singleton_self p) rfl
    have hpb : p ∉ bs := fun hmem =>
      hdisj p (by simp) p (List.mem_cons_of_mem _ hmem) rfl
    rw [List.getLast?_append, List.getLast?_singleton, Option.some_or]
    exact walk_append.mpr ⟨next n, h1.retarget hp, (walk_update_of_notMem hpb _).mpr h2⟩

/-- Adding node `n` at the far end of a walk. -/
theorem Walk.extend {o : Option κ} {xs : List κ} {n : κ} (hnd : xs.Nodup) (hn : n ∉ xs)
    (h : Walk next o xs none) :
    Walk (match xs.getLast? with
        | some t => update (update next n none) t (some n)
        | none => update next n none)
      (match xs.getLast? with
        | some _ => o
        | none => some n) (xs ++ [n]) none := by
  rcases List.eq_nil_or_concat xs with rfl | ⟨xs, t, rfl⟩
  · exact ⟨rfl, update_self ..⟩
  · rw [List.concat_eq_append] at *
    have ht : t ∉ xs := by
      intro hmem
      rw [List.nodup_append] at hnd
      exact hnd.2.2 t hmem t (List.mem_singleton_self t) rfl
    have htn : n ≠ t := by
      rintro rfl
      exact hn (by simp)
    rw [List.getLast?_append, List.getLast?_singleton, Option.some_or]
    refine walk_append.mpr ⟨some n, ?_, rfl, ?_⟩
    · exact ((walk_update_of_notMem hn none).mpr h).retarget ht
    · show update (update next n none) t (some n) n = none
      rw [update_of_ne htn, update_self]

/-- Adding node `n` at the near end of a walk. -/
theorem Walk.push {o : Option κ} {xs : List κ} {n : κ} (hn : n ∉ xs) (h : Walk next o xs none) :
    Walk (update next n o) (some n) (n :: xs) none := by
  refine ⟨rfl, ?_⟩
  rw [update_self]
  exact (walk_update_of_notMem hn o).mpr h

/-! ### The operations on the logical contents -/

section Operations

variable {l : DList κ} {xs as bs : List κ} {n : κ}

/-- The fields after `remove`, for a node that does not precede itself. -/
theorem remove_eq (hn : l.prev n ≠ some n) :
    l.remove n =
      { head := match l.prev n with
          | some _ => l.head
          | none => l.next n
        tail := match l.next n with
          | some _ => l.tail
          | none => l.prev n
        prev := update (match l.next n with
          | some m => update l.prev m (l.prev n)
          | none => l.prev) n none
        next := update (match l.prev n with
          | some p => update l.next p (l.next n)
          | none => l.next) n none } := by
  unfold remove
  cases hp : l.prev n with
  | none => cases hm : l.next n <;> simp [hp, hm]
  | some p =>
    have hpn : n ≠ p := fun h => hn (by rw [hp, h])
    cases hm : l.next n <;> simp [hp, hm, update_of_ne hpn]

theorem IsList.remove (h : IsList l (as ++ n :: bs)) : IsList (l.remove n) (as ++ bs) := by
  have hprev := h.prev_eq
  have hnext := h.next_eq
  have hnotin : n ∉ as := by
    intro hmem
    have hnd := h.nodup
    rw [List.nodup_append] at hnd
    exact hnd.2.2 n hmem n (List.mem_cons_self ..) rfl
  have hself : l.prev n ≠ some n := by
    rw [hprev]
    intro hlast
    exact hnotin (List.mem_of_getLast? hlast)
  rw [remove_eq hself]
  refine ⟨h.nodup.sublist (by simp), ?_, ?_⟩
  · have hf := h.forward.splice h.nodup
    rw [← hprev] at hf
    exact hf
  · -- the links back are those of the reversed list
    have hrev : (as ++ n :: bs).reverse = bs.reverse ++ n :: as.reverse := by simp
    have hb := h.backward
    have hnd := List.nodup_reverse.mpr h.nodup
    rw [hrev] at hb hnd
    have hb := hb.splice hnd
    rw [List.getLast?_reverse, ← hnext] at hb
    rw [List.reverse_append]
    exact hb

theorem IsList.pushFront (h : IsList l xs) (hn : n ∉ xs) :
    IsList (l.pushFront n) (n :: xs) := by
  have hhead := h.head_eq
  have htail := h.tail_eq
  have hb := h.backward.extend (List.nodup_reverse.mpr h.nodup) (by simpa using hn)
  rw [List.getLast?_reverse, ← hhead] at hb
  have hf := h.forward.push hn
  cases xs with
  | nil =>
    rw [List.head?_nil] at hhead
    rw [List.getLast?_nil] at htail
    refine ⟨List.nodup_cons.mpr ⟨hn, h.nodup⟩, ?_, ?_⟩ <;>
      simp [DList.pushFront, hhead, htail, Walk]
  | cons x xs =>
    rw [List.head?_cons] at hhead
    obtain ⟨t, ht⟩ : ∃ t, l.tail = some t := by
      rw [htail]
      exact ⟨_, List.getLast?_eq_some_getLast (List.cons_ne_nil x xs)⟩
    rw [hhead] at hb hf
    refine ⟨List.nodup_cons.mpr ⟨hn, h.nodup⟩, ?_, ?_⟩
    · simpa [DList.pushFront, hhead, ht] using hf
    · rw [List.reverse_cons]
      simpa [DList.pushFront, hhead, ht] using hb

/-- A node moves to the front. -/
theorem IsList.moveFront (h : IsList l (as ++ n :: bs)) :
    IsList ((l.remove n).pushFront n) (n :: (as ++ bs)) := by
  apply h.remove.pushFront
  have hnd := h.nodup
  rw [List.nodup_middle, List.nodup_cons] at hnd
  exact hnd.1

theorem IsList.pushBack (h : IsList l xs) (hn : n ∉ xs) :
    IsList (l.pushBack n) (xs ++ [n]) := by
  have hhead := h.head_eq
  have htail := h.tail_eq
  have hf := h.forward.extend h.nodup hn
  rw [← htail] at hf
  have hb := h.backward.push (n := n) (by simpa using hn)
  have hnd : (xs ++ [n]).Nodup :=
    List.nodup_append.mpr ⟨h.nodup, List.nodup_singleton n, by
      intro a ha b hb' hab
      rw [List.mem_singleton] at hb'
      exact hn (hb' ▸ hab ▸ ha)⟩
  cases xs with
  | nil =>
    rw [List.head?_nil] at hhead
    rw [List.getLast?_nil] at htail
    refine ⟨hnd, ?_, ?_⟩ <;> simp [DList.pushBack, hhead, htail, Walk]
  | cons x xs =>
    rw [List.head?_cons] at hhead
    obtain ⟨t, ht⟩ : ∃ t, l.tail = some t := by
      rw [htail]
      exact ⟨_, List.getLast?_eq_some_getLast (List.cons_ne_nil x xs)⟩
    rw [ht] at hf hb
    refine ⟨hnd, ?_, ?_⟩
    · simpa [DList.pushBack, hhead, ht] using hf
    · rw [List.reverse_append, List.reverse_singleton, List.singleton_append]
      simpa [DList.pushBack, hhead, ht] using hb

end Operations

end DList

end OsLabs
