import OsLabs.Scheduling.Scheduler
import Mathlib.Data.List.Infix
import Mathlib.Data.List.Sort

/-!
# The slots of a Gantt chart and its ticks

`Tiles a g b` says that the slots `g` cover `[a, b)` without gap or overlap, and `ticks g` lists
the thread of every tick.  A push that starts where the chart ends extends both
(`ganttPush_tiles`, `ticks_ganttPush`), whether or not it merges into the last slot.  The rest of
the file reads the slots of one thread off the ticks: their total length is the number of its
ticks, the first one starts at its first tick and the last one ends after its last tick.
-/

namespace OsLabs.Scheduling

/-- The slots cover `[a, b)` in order. -/
def Tiles : ℤ → List GanttSlot → ℤ → Prop
  | a, [], b => a = b
  | a, slot :: g, b => slot.start = a ∧ slot.start < slot.stop ∧ Tiles slot.stop g b

/-- The thread of every tick of a slot. -/
def GanttSlot.ticks (slot : GanttSlot) : List ℤ :=
  List.replicate (slot.stop - slot.start).toNat slot.threadId

/-- The thread of every tick. -/
def ticks (g : List GanttSlot) : List ℤ := g.flatMap GanttSlot.ticks

/-- Adjacent slots are of different threads. -/
def Merged (g : List GanttSlot) : Prop := (g.map GanttSlot.threadId).IsChain (· ≠ ·)

theorem tiles_append {a b : ℤ} {g h : List GanttSlot} :
    Tiles a (g ++ h) b ↔ ∃ m, Tiles a g m ∧ Tiles m h b := by
  induction g generalizing a with
  | nil => simp [Tiles]
  | cons slot g ih => simp [Tiles, ih, and_assoc]

@[simp] theorem ticks_nil : ticks [] = [] := rfl

theorem ticks_cons (slot : GanttSlot) (g : List GanttSlot) :
    ticks (slot :: g) = slot.ticks ++ ticks g := rfl

theorem ticks_append (g h : List GanttSlot) : ticks (g ++ h) = ticks g ++ ticks h :=
  List.flatMap_append ..

theorem Tiles.le {a b : ℤ} {g : List GanttSlot} (h : Tiles a g b) : a ≤ b := by
  induction g generalizing a with
  | nil => exact le_of_eq h
  | cons slot g ih =>
    obtain ⟨hstart, hlt, htail⟩ := h
    have := ih htail
    omega

/-- Every slot is of a tick or more. -/
theorem Tiles.length_le {a b : ℤ} {g : List GanttSlot} (h : Tiles a g b) : g.length ≤ b - a := by
  induction g generalizing a with
  | nil =>
    obtain rfl : a = b := h
    simp
  | cons slot g ih =>
    obtain ⟨hstart, hlt, htail⟩ := h
    have := ih htail
    rw [List.length_cons]
    push_cast
    omega

/-- Where a non-empty chart ends. -/
theorem Tiles.stop_eq {a b : ℤ} {g : List GanttSlot} {slot : GanttSlot}
    (h : Tiles a (g ++ [slot]) b) : slot.stop = b := by
  obtain ⟨m, -, hlast⟩ := tiles_append.mp h
  exact hlast.2.2

/-! ### Pushing a slot -/

theorem ganttPush_nil (tid start stop : ℤ) :
    ganttPush [] tid start stop = [{ threadId := tid, start := start, stop := stop }] := rfl

theorem ganttPush_concat (g : List GanttSlot) (slot : GanttSlot) (tid start stop : ℤ) :
    ganttPush (g ++ [slot]) tid start stop =
      if slot.threadId = tid then g ++ [{ slot with stop := stop }]
      else g ++ [slot] ++ [{ threadId := tid, start := start, stop := stop }] := by
  rw [ganttPush, List.getLast?_append, List.getLast?_singleton, List.dropLast_concat]
  rfl

theorem ganttPush_tiles {a b e : ℤ} {g : List GanttSlot} (h : Tiles a g b) (hbe : b < e)
    (tid : ℤ) : Tiles a (ganttPush g tid b e) e := by
  rcases List.eq_nil_or_concat g with rfl | ⟨g, slot, rfl⟩
  · obtain rfl : a = b := h
    exact ⟨rfl, hbe, rfl⟩
  · rw [List.concat_eq_append] at h ⊢
    rw [ganttPush_concat]
    by_cases hid : slot.threadId = tid
    · rw [if_pos hid]
      obtain ⟨m, hg, hstart, hlt, hstop⟩ := tiles_append.mp h
      obtain rfl : slot.stop = b := hstop
      exact tiles_append.mpr ⟨m, hg, hstart, hlt.trans hbe, rfl⟩
    · rw [if_neg hid]
      exact tiles_append.mpr ⟨b, h, rfl, hbe, rfl⟩

theorem ticks_ganttPush {a b e : ℤ} {g : List GanttSlot} (h : Tiles a g b) (hbe : b < e)
    (tid : ℤ) :
    ticks (ganttPush g tid b e) = ticks g ++ List.replicate (e - b).toNat tid := by
  rcases List.eq_nil_or_concat g with rfl | ⟨g, slot, rfl⟩
  · rw [ganttPush_nil, ticks_cons, GanttSlot.ticks, ticks_nil, List.append_nil, List.nil_append]
  · rw [List.concat_eq_append] at h ⊢
    rw [ganttPush_concat]
    by_cases hid : slot.threadId = tid
    · -- the last slot grows by the new ticks
      rw [if_pos hid]
      obtain ⟨m, -, -, hlt, hstop⟩ := tiles_append.mp h
      obtain rfl : slot.stop = b := hstop
      have hlen : (e - slot.start).toNat
          = (slot.stop - slot.start).toNat + (e - slot.stop).toNat := by omega
      rw [ticks_append, ticks_append, ticks_cons, ticks_cons, ticks_nil, GanttSlot.ticks,
        GanttSlot.ticks, hlen, List.replicate_add, hid]
      simp
    · rw [if_neg hid, ticks_append, ticks_cons, ticks_nil, List.append_nil, GanttSlot.ticks]

theorem ganttPush_merged {g : List GanttSlot} (h : Merged g) (tid start stop : ℤ) :
    Merged (ganttPush g tid start stop) := by
  rcases List.eq_nil_or_concat g with rfl | ⟨g, slot, rfl⟩
  · rw [ganttPush_nil]
    exact List.isChain_singleton _
  · rw [List.concat_eq_append] at h ⊢
    rw [ganttPush_concat]
    by_cases hid : slot.threadId = tid
    · rw [if_pos hid]
      unfold Merged at h ⊢
      rw [List.map_append] at h ⊢
      exact h
    · rw [if_neg hid]
      unfold Merged at h ⊢
      rw [List.map_append, List.isChain_append]
      refine ⟨h, List.isChain_singleton _, ?_⟩
      intro x hx y hy
      simp at hx hy
      rw [← hx, ← hy]
      exact hid

/-- Slots pushed one after another. -/
def pushAll (slots : List GanttSlot) : List GanttSlot :=
  slots.foldl (fun g slot => ganttPush g slot.threadId slot.start slot.stop) []

/-- Pushing merges slots and nothing else. -/
theorem pushAll_spec {a b : ℤ} {g : List GanttSlot} (h : Tiles a g b) :
    Tiles a (pushAll g) b ∧ Merged (pushAll g) ∧ ticks (pushAll g) = ticks g := by
  induction g using List.reverseRecOn generalizing b with
  | nil => exact ⟨h, List.isChain_nil, rfl⟩
  | append_singleton g slot ih =>
    obtain ⟨m, hg, rfl, hlt, rfl⟩ := tiles_append.mp h
    obtain ⟨htiles, hmerged, hticks⟩ := ih hg
    have hpush : pushAll (g ++ [slot])
        = ganttPush (pushAll g) slot.threadId slot.start slot.stop := by
      rw [pushAll, List.foldl_append]
      rfl
    rw [hpush]
    refine ⟨ganttPush_tiles htiles hlt _, ganttPush_merged hmerged .., ?_⟩
    rw [ticks_ganttPush htiles hlt, hticks, ticks_append, ticks_cons, ticks_nil, List.append_nil,
      GanttSlot.ticks]

/-! ### The slots of one thread -/

/-- The slots of thread `tid`. -/
def slotsOf (tid : ℤ) (g : List GanttSlot) : List GanttSlot := g.filter (·.threadId = tid)

theorem slotsOf_append (tid : ℤ) (g h : List GanttSlot) :
    slotsOf tid (g ++ h) = slotsOf tid g ++ slotsOf tid h := List.filter_append ..

theorem slotsOf_singleton (tid : ℤ) (slot : GanttSlot) :
    slotsOf tid [slot] = if slot.threadId = tid then [slot] else [] := by
  simp [slotsOf, List.filter_singleton]

section Push

variable {tid : ℤ} {g : List GanttSlot} (start stop : ℤ)

/-- A push of another thread leaves the slots of a thread as they are. -/
theorem slotsOf_ganttPush_of_ne {other : ℤ} (hne : other ≠ tid) :
    slotsOf tid (ganttPush g other start stop) = slotsOf tid g := by
  rcases List.eq_nil_or_concat g with rfl | ⟨g, slot, rfl⟩
  · rw [ganttPush_nil, slotsOf_singleton, if_neg hne]
    rfl
  · rw [List.concat_eq_append, ganttPush_concat]
    by_cases hid : slot.threadId = other
    · have hslot : slot.threadId ≠ tid := hid ▸ hne
      rw [if_pos hid, slotsOf_append, slotsOf_append, slotsOf_singleton, slotsOf_singleton,
        if_neg hslot, if_neg hslot]
    · rw [if_neg hid, slotsOf_append _ (g ++ [slot]), slotsOf_singleton, if_neg hne,
        List.append_nil]

/-- A thread other than that of the last slot gets a slot. -/
theorem slotsOf_ganttPush_new (hlast : g.getLast?.map GanttSlot.threadId ≠ some tid) :
    slotsOf tid (ganttPush g tid start stop)
      = slotsOf tid g ++ [{ threadId := tid, start := start, stop := stop }] := by
  rcases List.eq_nil_or_concat g with rfl | ⟨g, slot, rfl⟩
  · rw [ganttPush_nil, slotsOf_singleton, if_pos rfl]
    rfl
  · rw [List.concat_eq_append] at hlast ⊢
    rw [List.getLast?_concat, Option.map_some, ne_eq, Option.some_inj] at hlast
    rw [ganttPush_concat, if_neg hlast, slotsOf_append _ (g ++ [slot]), slotsOf_singleton,
      if_pos rfl]

/-- The thread of the last slot has it extended. -/
theorem slotsOf_ganttPush_extend (hlast : g.getLast?.map GanttSlot.threadId = some tid) :
    ∃ g' slot, slotsOf tid g = g' ++ [slot] ∧
      slotsOf tid (ganttPush g tid start stop) = g' ++ [{ slot with stop := stop }] := by
  rcases List.eq_nil_or_concat g with rfl | ⟨g, slot, rfl⟩
  · exact absurd hlast (by simp)
  · rw [List.concat_eq_append] at hlast ⊢
    rw [List.getLast?_concat, Option.map_some, Option.some_inj] at hlast
    refine ⟨slotsOf tid g, slot, ?_, ?_⟩
    · rw [slotsOf_append, slotsOf_singleton, if_pos hlast]
    · rw [ganttPush_concat, if_pos hlast, slotsOf_append, slotsOf_singleton, if_pos hlast]

end Push

section SlotsOf

variable {a b tid : ℤ} {g : List GanttSlot}

/-- The last slot is that of the last tick. -/
theorem Tiles.getLast?_threadId (h : Tiles a g b) :
    g.getLast?.map GanttSlot.threadId = (ticks g).getLast? := by
  rcases List.eq_nil_or_concat g with rfl | ⟨g, slot, rfl⟩
  · rfl
  · rw [List.concat_eq_append] at h ⊢
    obtain ⟨m, -, hstart, hlt, -⟩ := tiles_append.mp h
    obtain ⟨k, hk⟩ := Nat.exists_eq_add_one_of_ne_zero
      (show (slot.stop - slot.start).toNat ≠ 0 by omega)
    rw [List.getLast?_concat, ticks_append, ticks_cons, ticks_nil, List.append_nil,
      GanttSlot.ticks, hk, List.replicate_succ', ← List.append_assoc, List.getLast?_concat,
      Option.map_some]

/-- The slots of a thread are as long as it has ticks. -/
theorem Tiles.sum_slotsOf (h : Tiles a g b) :
    ((slotsOf tid g).map fun slot => slot.stop - slot.start).sum = (ticks g).count tid := by
  induction g generalizing a with
  | nil => rfl
  | cons slot g ih =>
    obtain ⟨-, hlt, htail⟩ := h
    rw [← List.singleton_append, slotsOf_append, slotsOf_singleton, List.map_append,
      List.sum_append, ih htail, List.singleton_append, ticks_cons, List.count_append,
      GanttSlot.ticks, List.count_replicate]
    by_cases hid : slot.threadId = tid
    · simp only [hid, if_true, beq_self_eq_true, List.map_cons, List.map_nil, List.sum_cons,
        List.sum_nil]
      omega
    · simp [hid]

/-- The first slot of a thread starts at its first tick. -/
theorem Tiles.head_slotsOf (h : Tiles a g b) (hmem : tid ∈ ticks g) :
    (slotsOf tid g).head?.map GanttSlot.start = some (a + (ticks g).idxOf tid) := by
  induction g generalizing a with
  | nil => exact absurd hmem List.not_mem_nil
  | cons slot g ih =>
    obtain ⟨hstart, hlt, htail⟩ := h
    have hpos : 0 < (slot.stop - slot.start).toNat := by omega
    rw [← List.singleton_append, slotsOf_append, slotsOf_singleton, List.singleton_append,
      ticks_cons]
    rw [ticks_cons, List.mem_append] at hmem
    by_cases hid : slot.threadId = tid
    · have hzero : (slot.ticks ++ ticks g).idxOf tid = 0 := by
        obtain ⟨k, hk⟩ := Nat.exists_eq_add_one_of_ne_zero hpos.ne'
        rw [GanttSlot.ticks, hk, List.replicate_succ, List.cons_append, hid, List.idxOf_cons_self]
      rw [if_pos hid, hzero, List.singleton_append, List.head?_cons, Option.map_some, hstart]
      simp
    · have hnot : tid ∉ slot.ticks := by
        rw [GanttSlot.ticks, List.mem_replicate]
        exact fun hin => hid hin.2.symm
      rw [if_neg hid, List.nil_append, ih htail (hmem.resolve_left hnot),
        List.idxOf_append_of_notMem hnot, GanttSlot.ticks, List.length_replicate]
      congr 1
      push_cast
      omega

/-- The last slot of a thread ends after its last tick. -/
theorem Tiles.getLast_slotsOf (h : Tiles a g b) (hmem : tid ∈ ticks g) :
    (slotsOf tid g).getLast?.map GanttSlot.stop
      = some (b - (ticks g).reverse.idxOf tid) := by
  induction g using List.reverseRecOn generalizing b with
  | nil => exact absurd hmem List.not_mem_nil
  | append_singleton g slot ih =>
    obtain ⟨m, hg, hstart, hlt, hstop⟩ := tiles_append.mp h
    obtain rfl : slot.stop = b := hstop
    have hpos : 0 < (slot.stop - slot.start).toNat := by omega
    have hticks : ticks (g ++ [slot]) = ticks g ++ slot.ticks := by
      rw [ticks_append, ticks_cons, ticks_nil, List.append_nil]
    have hrev : slot.ticks.reverse = slot.ticks := List.reverse_replicate
    rw [hticks, List.mem_append] at hmem
    rw [hticks, List.reverse_append, hrev, slotsOf_append, slotsOf_singleton]
    by_cases hid : slot.threadId = tid
    · have hzero : (slot.ticks ++ (ticks g).reverse).idxOf tid = 0 := by
        obtain ⟨k, hk⟩ := Nat.exists_eq_add_one_of_ne_zero hpos.ne'
        rw [GanttSlot.ticks, hk, List.replicate_succ, List.cons_append, hid, List.idxOf_cons_self]
      rw [if_pos hid, hzero, List.getLast?_append, List.getLast?_singleton]
      simp
    · have hnot : tid ∉ slot.ticks := by
        rw [GanttSlot.ticks, List.mem_replicate]
        exact fun hin => hid hin.2.symm
      rw [if_neg hid, List.append_nil, ih hg (hmem.resolve_right hnot),
        List.idxOf_append_of_notMem hnot, GanttSlot.ticks, List.length_replicate]
      congr 1
      push_cast
      omega

end SlotsOf

/-! ### The ticks of one thread -/

/-- Tick `t` is in a slot of thread `tid`. -/
def RunsAt (g : List GanttSlot) (tid t : ℤ) : Prop :=
  ∃ slot ∈ g, slot.threadId = tid ∧ slot.start ≤ t ∧ t < slot.stop

section RunsAt

variable {a b tid : ℤ} {g : List GanttSlot}

theorem Tiles.bounds (h : Tiles a g b) {slot : GanttSlot} (hmem : slot ∈ g) :
    a ≤ slot.start ∧ slot.start < slot.stop ∧ slot.stop ≤ b := by
  induction g generalizing a with
  | nil => exact absurd hmem List.not_mem_nil
  | cons first g ih =>
    obtain ⟨hstart, hlt, htail⟩ := h
    rcases List.mem_cons.mp hmem with rfl | hmem
    · exact ⟨hstart.ge, hlt, htail.le⟩
    · obtain ⟨hle, hrest⟩ := ih htail hmem
      exact ⟨by omega, hrest⟩

theorem Tiles.runsAt_iff (h : Tiles a g b) {t : ℤ} (ht : a ≤ t) :
    RunsAt g tid t ↔ (ticks g)[(t - a).toNat]? = some tid := by
  induction g generalizing a with
  | nil => simp [RunsAt]
  | cons slot g ih =>
    obtain ⟨hstart, hlt, htail⟩ := h
    have hlen : slot.ticks.length = (slot.stop - slot.start).toNat := List.length_replicate
    rw [ticks_cons]
    rcases lt_or_ge t slot.stop with hin | hout
    · -- the tick is in the first slot
      have hidx : (t - a).toNat < (slot.stop - slot.start).toNat := by omega
      rw [List.getElem?_append_left (hlen ▸ hidx), GanttSlot.ticks,
        List.getElem?_replicate_of_lt hidx, Option.some_inj]
      constructor
      · rintro ⟨other, hmem, hid, hle, hlt'⟩
        rcases List.mem_cons.mp hmem with rfl | hmem
        · exact hid
        · have := (htail.bounds hmem).1
          omega
      · exact fun hid => ⟨slot, List.mem_cons_self, hid, by omega, hin⟩
    · have hrest : RunsAt (slot :: g) tid t ↔ RunsAt g tid t := by
        constructor
        · rintro ⟨other, hmem, hid, hle, hlt'⟩
          rcases List.mem_cons.mp hmem with rfl | hmem
          · omega
          · exact ⟨other, hmem, hid, hle, hlt'⟩
        · rintro ⟨other, hmem, hother⟩
          exact ⟨other, List.mem_cons_of_mem _ hmem, hother⟩
      rw [hrest, ih htail hout, List.getElem?_append_right (by omega), hlen]
      have hidx : (t - a).toNat - (slot.stop - slot.start).toNat = (t - slot.stop).toNat := by
        omega
      rw [hidx]

/-- A tick is in one slot. -/
theorem Tiles.eq_of_overlap (h : Tiles a g b) {slot slot' : GanttSlot} (hs : slot ∈ g)
    (hs' : slot' ∈ g) {t : ℤ} (ht : slot.start ≤ t ∧ t < slot.stop)
    (ht' : slot'.start ≤ t ∧ t < slot'.stop) : slot = slot' := by
  induction g generalizing a with
  | nil => exact absurd hs List.not_mem_nil
  | cons first g ih =>
    obtain ⟨-, -, htail⟩ := h
    rcases List.mem_cons.mp hs with rfl | hin <;> rcases List.mem_cons.mp hs' with rfl | hin'
    · rfl
    · have := (htail.bounds hin').1
      omega
    · have := (htail.bounds hin).1
      omega
    · exact ih htail hin hin'

/-- Slots that meet are of different threads. -/
theorem Merged.ne_of_meet (hm : Merged g) (h : Tiles a g b) {slot slot' : GanttSlot}
    (hs : slot ∈ g) (hs' : slot' ∈ g) (hmeet : slot.stop = slot'.start) :
    slot.threadId ≠ slot'.threadId := by
  induction g generalizing a with
  | nil => exact absurd hs List.not_mem_nil
  | cons first g ih =>
    obtain ⟨-, hlt, htail⟩ := h
    unfold Merged at hm ih
    rw [List.map_cons] at hm
    rcases List.mem_cons.mp hs with rfl | hin <;> rcases List.mem_cons.mp hs' with rfl | hin'
    · omega
    · -- `slot'` is the second slot
      cases g with
      | nil => exact absurd hin' List.not_mem_nil
      | cons second g =>
        have hfirst := htail.bounds List.mem_cons_self
        have hbounds := htail.bounds hin'
        have hstart : second.start = slot.stop := htail.1
        have hsame : slot' = second :=
          htail.eq_of_overlap hin' List.mem_cons_self (t := second.start) (by omega) (by omega)
        rw [List.map_cons, List.isChain_cons_cons] at hm
        rw [hsame]
        exact hm.1
    · have := htail.bounds hin
      omega
    · exact ih hm.of_cons htail hin hin'

/-- `slot` is a maximal run of ticks of its thread. -/
structure IsRun (g : List GanttSlot) (slot : GanttSlot) : Prop where
  lt : slot.start < slot.stop
  runs : ∀ t, slot.start ≤ t → t < slot.stop → RunsAt g slot.threadId t
  before : ¬RunsAt g slot.threadId (slot.start - 1)
  after : ¬RunsAt g slot.threadId slot.stop

/-- The slots are the maximal runs. -/
theorem Merged.mem_iff_isRun (hm : Merged g) (h : Tiles a g b) {slot : GanttSlot} :
    slot ∈ g ↔ IsRun g slot := by
  have hrun {slot : GanttSlot} (hmem : slot ∈ g) : IsRun g slot := by
    have hlt := (h.bounds hmem).2.1
    refine ⟨hlt, fun t hle hlt => ⟨slot, hmem, rfl, hle, hlt⟩, ?_, ?_⟩
    · rintro ⟨other, hother, hid, hle, hlt'⟩
      rcases Int.lt_or_le slot.start other.stop with hin | hout
      · have heq := h.eq_of_overlap hmem hother (t := slot.start) ⟨le_rfl, hlt⟩ ⟨by omega, hin⟩
        rw [← heq] at hle
        omega
      · exact hm.ne_of_meet h hother hmem (by omega) hid
    · rintro ⟨other, hother, hid, hle, hlt'⟩
      rcases Int.lt_or_le other.start slot.stop with hin | hout
      · have heq := h.eq_of_overlap hmem hother (t := slot.stop - 1) ⟨by omega, by omega⟩
          ⟨by omega, by omega⟩
        rw [← heq] at hlt'
        omega
      · exact hm.ne_of_meet h hmem hother (by omega) hid.symm
  refine ⟨hrun, fun hslot => ?_⟩
  obtain ⟨other, hother, hid, hle, hlt⟩ := hslot.runs slot.start le_rfl hslot.lt
  have hmax := hrun hother
  have hstart : other.start = slot.start := by
    by_contra hne
    apply hslot.before
    rw [← hid]
    exact hmax.runs _ (by omega) (by omega)
  have hstop : other.stop = slot.stop := by
    rcases lt_trichotomy other.stop slot.stop with hlt' | heq | hgt
    · have hruns := hslot.runs other.stop (by omega) hlt'
      rw [← hid] at hruns
      exact absurd hruns hmax.after
    · exact heq
    · have hruns := hmax.runs slot.stop (by have := hslot.lt; omega) hgt
      rw [hid] at hruns
      exact absurd hruns hslot.after
  have hsame : other = slot := by
    cases other
    cases slot
    simp_all
  exact hsame ▸ hother

theorem Tiles.pairwise_start (h : Tiles a g b) : g.Pairwise fun s s' => s.start < s'.start := by
  induction g generalizing a with
  | nil => exact List.Pairwise.nil
  | cons slot g ih =>
    obtain ⟨-, hlt, htail⟩ := h
    refine List.Pairwise.cons (fun other hmem => ?_) (ih htail)
    have := (htail.bounds hmem).1
    omega

/-- Slots in the order of their starts are determined by which slots they are. -/
theorem eq_of_pairwise_start {g g' : List GanttSlot}
    (h : g.Pairwise fun s s' => s.start < s'.start)
    (h' : g'.Pairwise fun s s' => s.start < s'.start)
    (hmem : ∀ slot, slot ∈ g ↔ slot ∈ g') : g = g' := by
  have : Std.Antisymm fun s s' : GanttSlot => s.start < s'.start :=
    ⟨fun _ _ hlt hgt => absurd hlt hgt.asymm⟩
  have : Std.Irrefl fun s s' : GanttSlot => s.start < s'.start := ⟨fun _ => lt_irrefl _⟩
  exact List.Pairwise.eq_of_mem_iff (r := fun s s' : GanttSlot => s.start < s'.start) h h' hmem

/-- A thread that is not interrupted has one slot. -/
theorem slotsOf_eq_singleton (h : Tiles a g b) (hm : Merged g) {slot : GanttSlot}
    (hslot : slot ∈ slotsOf tid g)
    (hruns : ∀ t t', RunsAt g tid t → RunsAt g tid t' → ∀ m, t ≤ m → m ≤ t' → RunsAt g tid m) :
    slotsOf tid g = [slot] := by
  -- after a slot the thread does not run again
  have hlast {slot slot' : GanttSlot} (hs : slot ∈ slotsOf tid g) (hs' : slot' ∈ slotsOf tid g) :
      slot'.start ≤ slot.start := by
    obtain ⟨hmem, hid⟩ := List.mem_filter.mp hs
    obtain ⟨hmem', hid'⟩ := List.mem_filter.mp hs'
    have hrun := (hm.mem_iff_isRun h).mp hmem
    have hrun' := (hm.mem_iff_isRun h).mp hmem'
    rw [← of_decide_eq_true hid] at hruns
    have hstart' := hrun'.runs slot'.start le_rfl hrun'.lt
    rw [of_decide_eq_true hid', ← of_decide_eq_true hid] at hstart'
    by_contra hlt
    have hstop : slot.stop ≤ slot'.start := by
      by_contra hover
      have heq := h.eq_of_overlap hmem hmem' (t := slot'.start) ⟨by omega, by omega⟩
        ⟨le_rfl, hrun'.lt⟩
      rw [heq] at hlt
      exact hlt le_rfl
    exact hrun.after (hruns slot.start slot'.start (hrun.runs _ le_rfl hrun.lt) hstart' slot.stop
      hrun.lt.le hstop)
  refine eq_of_pairwise_start (h.pairwise_start.filter _) (List.pairwise_singleton _ _)
    fun slot' => ⟨fun hslot' => ?_, fun hslot' => ?_⟩
  · have hmem := (List.mem_filter.mp hslot).1
    have hmem' := (List.mem_filter.mp hslot').1
    have hstart := le_antisymm (hlast hslot hslot') (hlast hslot' hslot)
    have hlt := (h.bounds hmem).2.1
    have hlt' := (h.bounds hmem').2.1
    rw [h.eq_of_overlap hmem' hmem (t := slot.start) ⟨hstart.le, by omega⟩ ⟨le_rfl, hlt⟩]
    exact List.mem_cons_self
  · rw [List.mem_singleton.mp hslot']
    exact hslot

theorem IsRun.congr {g' : List GanttSlot} {slot : GanttSlot}
    (hruns : ∀ t, RunsAt g slot.threadId t ↔ RunsAt g' slot.threadId t) (h : IsRun g slot) :
    IsRun g' slot where
  lt := h.lt
  runs t hle hlt := (hruns t).mp (h.runs t hle hlt)
  before := (hruns _).not.mp h.before
  after := (hruns _).not.mp h.after

/-- The slots of a thread are determined by its ticks. -/
theorem slotsOf_eq {a' b' : ℤ} {g' : List GanttSlot} (h : Tiles a g b) (hm : Merged g)
    (h' : Tiles a' g' b') (hm' : Merged g') (hruns : ∀ t, RunsAt g tid t ↔ RunsAt g' tid t) :
    slotsOf tid g = slotsOf tid g' := by
  refine eq_of_pairwise_start (h.pairwise_start.filter _) (h'.pairwise_start.filter _)
    fun slot => ?_
  rw [slotsOf, slotsOf, List.mem_filter, List.mem_filter, hm.mem_iff_isRun h, hm'.mem_iff_isRun h']
  apply and_congr_left
  intro hid
  obtain rfl : slot.threadId = tid := of_decide_eq_true hid
  exact ⟨fun hr => hr.congr hruns, fun hr => hr.congr fun t => (hruns t).symm⟩

/-- A merged chart is determined by its ticks. -/
theorem gantt_eq {g' : List GanttSlot} (h : Tiles a g b) (hm : Merged g) (h' : Tiles a g' b)
    (hm' : Merged g') (hticks : ticks g = ticks g') : g = g' := by
  have hruns (tid t : ℤ) : RunsAt g tid t ↔ RunsAt g' tid t := by
    rcases lt_or_ge t a with hlt | hge
    · -- both charts start at `a`
      refine iff_of_false ?_ ?_
      · rintro ⟨slot, hmem, -, hle, -⟩
        have := (h.bounds hmem).1
        omega
      · rintro ⟨slot, hmem, -, hle, -⟩
        have := (h'.bounds hmem).1
        omega
    · rw [h.runsAt_iff hge, h'.runsAt_iff hge, hticks]
  refine eq_of_pairwise_start h.pairwise_start h'.pairwise_start fun slot => ?_
  rw [hm.mem_iff_isRun h, hm'.mem_iff_isRun h']
  exact ⟨fun hr => hr.congr (hruns _), fun hr => hr.congr fun t => (hruns _ t).symm⟩

end RunsAt

end OsLabs.Scheduling
