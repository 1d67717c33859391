import OsLabs.Lib.Adversary
import OsLabs.PageReplace.Equiv.Competitive
import OsLabs.PageReplace.Equiv.Optimal

/-!
# FIFO, LRU and Second Chance can be made to miss every time

These policies do not look at `ref_seq` (`IsOnline`), so what they hold after some references does
not depend on those that follow (`residentAt_take`).  On the pages `0..N` they can be asked for the
page that is not resident, while MIN then misses once in `N` references (`online_misses`).
-/

namespace OsLabs.PageReplace

open Paging

variable {N : ℕ}

/-! ### Policies that do not see the future -/

/-- The policy does not look at `ref_seq`. -/
def IsOnline (fn : Algo N) : Prop :=
  ∀ (s : State N) page step query, fn { s with refSeq := query } page step
    = (fn s page step).map fun r => (r.1, { r.2 with refSeq := query })

theorem fifo_isOnline : IsOnline (schedulerFifo : Algo N) := by
  intro s page step query
  unfold schedulerFifo
  dsimp only
  split_ifs with hidx hfree
  · rfl
  · cases setFrame s.frames (findEmpty s.frames) page <;> rfl
  · cases getFrame s.frames (s.fifo.queue s.fifo.head).toNat with
    | error fault => rfl
    | ok evicted => cases setFrame s.frames (s.fifo.queue s.fifo.head).toNat page <;> rfl

theorem lru_isOnline : IsOnline (schedulerLru : Algo N) := by
  intro s page step query
  unfold schedulerLru
  dsimp only
  split
  · rfl
  · rfl
  · split_ifs with hfree
    · cases setFrame s.frames (findEmpty s.frames) page <;> rfl
    · split
      · rfl
      · rename_i victim _
        cases setFrame s.frames (s.lru.frameIdx victim).toNat page <;> rfl

theorem secondChance_isOnline : IsOnline (schedulerSecondChance : Algo N) := by
  intro s page step query
  unfold schedulerSecondChance
  dsimp only
  split
  · rfl
  · rfl
  · split_ifs with hfree
    · cases setFrame s.frames (findEmpty s.frames) page <;> rfl
    · cases scSweep POOL_SIZE s.sc with
      | error fault => rfl
      | ok sc =>
        show Except.bind (.ok sc) _ = Except.map _ (Except.bind (.ok sc) _)
        simp only [Except.bind]
        split
        · rfl
        · rename_i victim _
          cases setFrame s.frames (sc.frameIdx victim).toNat page <;> rfl

theorem Policy.isOnline {policy : Policy} (h : policy ≠ .min) :
    IsOnline (policy.algo : Algo N) := by
  cases policy with
  | fifo => exact fifo_isOnline
  | min => exact absurd rfl h
  | lru => exact lru_isOnline
  | secondChance => exact secondChance_isOnline

section Online

variable {fn : Algo N} (hfn : IsOnline fn) (s₀ : State N)

include hfn

/-- A run depends only on the references so far, but for `ref_seq` itself. -/
theorem runSteps_append (query rest : List UInt8) {t : ℕ} (ht : t ≤ query.length) :
    runSteps fn s₀ (query ++ rest) t
      = (runSteps fn s₀ query t).map fun r => ({ r.1 with refSeq := query ++ rest }, r.2) := by
  induction t with
  | zero => rfl
  | succ t ih =>
    have hget : (query ++ rest).getD t 0 = query.getD t 0 := List.getD_append _ _ _ _ ht
    rw [runSteps, runSteps, ih (by omega), hget]
    cases runSteps fn s₀ query t with
    | error fault => rfl
    | ok r =>
      show Except.bind (fn { r.1 with refSeq := query ++ rest } _ _) _
        = Except.map _ (Except.bind (fn r.1 _ _) _)
      rw [hfn]
      cases fn r.1 (query.getD t 0) (UInt16.ofNat t) <;> rfl

/-- What is resident depends only on the references so far. -/
theorem residentAt_take (query : List UInt8) {t : ℕ} (ht : t ≤ query.length) :
    residentAt fn s₀ query t = residentAt fn s₀ (query.take t) t := by
  have hrun := runSteps_append hfn s₀ (query.take t) (query.drop t) (t := t) (by simp [ht])
  rw [List.take_append_drop] at hrun
  rw [residentAt, residentAt, hrun]
  cases runSteps fn s₀ (query.take t) t <;> rfl

end Online

/-! ### The pages of the adversary -/

/-- The pages `0..N`. -/
def pagesUpTo (N : ℕ) : Finset UInt8 := (Finset.range (N + 1)).image UInt8.ofNat

theorem mem_pagesUpTo (hN' : N ≤ 128) {p : UInt8} : p ∈ pagesUpTo N ↔ p.toNat ≤ N := by
  unfold pagesUpTo
  rw [Finset.mem_image]
  constructor
  · rintro ⟨n, hn, rfl⟩
    rw [Finset.mem_range] at hn
    rw [UInt8.toNat_ofNat']
    omega
  · intro hp
    exact ⟨p.toNat, Finset.mem_range.mpr (by omega), UInt8.ofNat_toNat⟩

theorem card_pagesUpTo (hN' : N ≤ 128) : (pagesUpTo N).card = N + 1 := by
  unfold pagesUpTo
  rw [Finset.card_image_of_injOn, Finset.card_range]
  intro a ha b hb h
  have hmod := congrArg UInt8.toNat h
  rw [Finset.coe_range, Set.mem_Iio] at ha hb
  rw [UInt8.toNat_ofNat', UInt8.toNat_ofNat'] at hmod
  omega

theorem ne_empty_of_mem_pagesUpTo (hN' : N ≤ 128) {p : UInt8} (hp : p ∈ pagesUpTo N) :
    p ≠ FRAME_EMPTY := by
  rintro rfl
  have hle := (mem_pagesUpTo hN').mp hp
  rw [show FRAME_EMPTY.toNat = 255 from rfl] at hle
  omega

theorem Refinement.card_residentAt_le {fn : Algo N} (R : Refinement fn) (s₀ : State N)
    {query : List UInt8} (hlen : query.length < 2 ^ 32) (hq : ∀ p ∈ query, p ≠ FRAME_EMPTY)
    {t : ℕ} (ht : t ≤ query.length) : (residentAt fn s₀ query t).card ≤ N := by
  obtain ⟨s, rs, hrun, -, hri⟩ := R.run s₀ hlen hq t ht
  rw [residentAt_eq hrun, card_resident hri.distinct]
  exact occupied_le s.frames

/-- MIN on the pages `0..N`. -/
theorem min_misses_le (hN : 1 ≤ N) (hN' : N ≤ 128) (s₀ : State N) {query : List UInt8}
    (hlen : query.length ≤ MAX_QUERY) (hpages : ∀ p ∈ query, p ∈ pagesUpTo N) :
    ∃ s rs, runOne schedulerMin s₀ query = .ok (s, rs) ∧
      s.misses.toNat ≤ N + (query.length - 1) / N := by
  have hq : ∀ p ∈ query, p ≠ FRAME_EMPTY := fun p hp =>
    ne_empty_of_mem_pagesUpTo hN' (hpages p hp)
  have hlen32 : query.length < 2 ^ 32 := lt_of_le_of_lt hlen (by decide)
  have R := minRefinement hN hN'
  obtain ⟨s, rs, hrun, -⟩ := R.run s₀ hlen32 hq _ le_rfl
  refine ⟨s, rs, hrun, ?_⟩
  rw [R.misses_eq s₀ hlen32 hq le_rfl hrun]
  apply (min_isFarthest hN hN' s₀ hlen hq).misses_le_div _ (R.isDemandPaging s₀ hlen32 hq) hN
    (card_pagesUpTo hN')
  intro t ht
  rw [List.getD_eq_getElem _ _ ht]
  exact hpages _ (List.getElem_mem ht)

/-- **No policy that does not see the future is better than competitive**: for each length there is
a sequence of that length on the pages `0..N` on which FIFO, LRU or Second Chance misses every
reference and MIN about one in `N`. -/
theorem online_misses {policy : Policy} (honline : policy ≠ .min) (hN : 1 ≤ N) (hN' : N ≤ 128)
    (s₀ t₀ : State N) {L : ℕ} (hL : L ≤ MAX_QUERY) :
    ∃ query : List UInt8, query.length = L ∧ (∀ p ∈ query, p.toNat ≤ N) ∧
      (∃ s rs, runOne policy.algo s₀ query = .ok (s, rs) ∧ s.misses.toNat = L) ∧
      ∃ t ts, runOne schedulerMin t₀ query = .ok (t, ts) ∧
        t.misses.toNat ≤ N + (L - 1) / N := by
  obtain ⟨R⟩ := policy.nonempty_refinement hN hN'
  have hfn : IsOnline (policy.algo : Algo N) := Policy.isOnline honline
  have hL32 : L < 2 ^ 32 := lt_of_le_of_lt hL (by decide)
  have hne {query : List UInt8} (hpages : ∀ p ∈ query, p ∈ pagesUpTo N) :
      ∀ p ∈ query, p ≠ FRAME_EMPTY := fun p hp => ne_empty_of_mem_pagesUpTo hN' (hpages p hp)
  have hcard : ∀ query : List UInt8, query.length < L → (∀ p ∈ query, p ∈ pagesUpTo N) →
      (residentAt policy.algo s₀ query query.length).card < (pagesUpTo N).card := by
    intro query hlen hpages
    rw [card_pagesUpTo hN']
    exact Nat.lt_succ_of_le (R.card_residentAt_le s₀ (by omega) (hne hpages) le_rfl)
  obtain ⟨query, rfl, hpages, hmiss⟩ :=
    exists_adversary (fun query => residentAt policy.algo s₀ query query.length) hcard
  refine ⟨query, rfl, fun p hp => (mem_pagesUpTo hN').mp (hpages p hp), ?_,
    min_misses_le hN hN' t₀ hL hpages⟩
  obtain ⟨s, rs, hrun, -⟩ := R.run s₀ hL32 (hne hpages) _ le_rfl
  refine ⟨s, rs, hrun, ?_⟩
  have hall : ∀ t ∈ Finset.range query.length,
      query.getD t 0 ∉ residentAt policy.algo s₀ query t := by
    intro t ht
    have htlt := Finset.mem_range.mp ht
    have h := hmiss t htlt
    rw [List.length_take_of_le htlt.le] at h
    rw [List.getD_eq_getElem _ _ htlt, residentAt_take hfn s₀ query htlt.le]
    exact h
  rw [R.misses_eq s₀ hL32 (hne hpages) le_rfl hrun, misses, Finset.filter_true_of_mem hall,
    Finset.card_range]

/-- LRU with three frames and a hundred references. -/
theorem online_misses_hundred :
    ∃ query : List UInt8, query.length = 100 ∧ (∀ p ∈ query, p.toNat ≤ 3) ∧
      (∃ s rs, runOne Policy.lru.algo (zeroMemory 3) query = .ok (s, rs) ∧
        s.misses.toNat = 100) ∧
      ∃ t ts, runOne schedulerMin (zeroMemory 3) query = .ok (t, ts) ∧
        t.misses.toNat ≤ 3 + (100 - 1) / 3 :=
  online_misses (by decide) (by decide) (by decide) (zeroMemory 3) (zeroMemory 3) (by decide)

end OsLabs.PageReplace
