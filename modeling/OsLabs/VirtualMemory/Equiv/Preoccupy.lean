import OsLabs.Lib.Lcg
import OsLabs.VirtualMemory.Equiv.Load

/-!
# The random frames of `ram_init`

`rand_range` steps a linear congruential generator of full period.  A loop that draws until a frame
is free therefore ends as long as there is one: the state `i * 65536` draws frame `i`, and it is
reached from any state.  After `k` rounds of the outer loop `k` frames are preoccupied
(`Preoccupied`).
-/

namespace OsLabs.VirtualMemory

open Function
open scoped UInt32.CommRing

/-! ### The generator -/

/-- `_seed` after a call of `rand_range`. -/
def nextSeed (seed : UInt32) : UInt32 := seed * 1664525 + 1013904223

/-- The constants satisfy the conditions for a full period. -/
theorem nextSeed_eq : nextSeed = lcg (1 + 4 * 416131) (1 + 2 * 506952111) := by
  funext seed
  show seed * 1664525 + 1013904223 = (1 + 4 * 416131) * seed + (1 + 2 * 506952111)
  rw [mul_comm seed]
  rfl

/-- A number is even or odd. -/
theorem UInt32.parity (e : UInt32) : ∃ d, e = 2 * d ∨ e = 2 * d + 1 := by
  have he := e.toNat_lt
  refine ⟨e / 2, ?_⟩
  rcases Nat.mod_two_eq_zero_or_one e.toNat with h | h
  · left
    apply UInt32.toNat_inj.mp
    rw [UInt32.toNat_mul, UInt32.toNat_div]
    show _ = 2 * (e.toNat / 2) % _
    omega
  · right
    apply UInt32.toNat_inj.mp
    rw [UInt32.toNat_add, UInt32.toNat_mul, UInt32.toNat_div]
    show _ = (2 * (e.toNat / 2) % _ + 1) % _
    omega

/-- Any state of the generator is reached from any other. -/
theorem nextSeed_reaches (seed seed' : UInt32) : ∃ n < 2 ^ 32, nextSeed^[n] seed = seed' := by
  rw [nextSeed_eq]
  exact lcg_reaches _ _ UInt32.parity (by decide +kernel) seed seed'

/-- The bits of `_seed` that `rand_range` uses. -/
def drawnBits (seed : UInt32) : ℕ := seed.toNat / 65536 % 32768

/-- `rand_range` in whole numbers; the range must have at most 15 bits. -/
theorem randRange_eq {min max : ℤ} (hmin : min ≤ max) (hmax : max - min < 32768) (seed : UInt32) :
    randRange min max seed
      = (min + (drawnBits (nextSeed seed) % (max - min + 1).toNat : ℕ), nextSeed seed) := by
  have hbits : ((nextSeed seed >>> 16) &&& 0x7FFF).toNat = drawnBits (nextSeed seed) := by
    rw [UInt32.toNat_and, UInt32.toNat_shiftRight]
    show (nextSeed seed).toNat >>> 16 &&& (2 ^ 15 - 1) = _
    rw [Nat.and_two_pow_sub_one_eq_mod, Nat.shiftRight_eq_div_pow]
    rfl
  have hrange : (UInt32.ofInt (max - min + 1)).toNat = (max - min + 1).toNat := by
    unfold UInt32.ofInt
    rw [UInt32.toNat_ofNat']
    omega
  have hlt : drawnBits (nextSeed seed) % (max - min + 1).toNat < 32769 := by
    have := Nat.mod_lt (drawnBits (nextSeed seed)) (y := (max - min + 1).toNat) (by omega)
    omega
  show (min + int32 (((nextSeed seed >>> 16) &&& 0x7FFF) % .ofInt (max - min + 1)).toNat,
    nextSeed seed) = _
  rw [UInt32.toNat_mod, hbits, hrange, int32_of_lt (Int.natCast_nonneg _) (by omega)]

/-- The frame that is drawn. -/
def drawnFrame (seed : UInt32) : Fin NUM_FRAMES :=
  ⟨drawnBits (nextSeed seed) % NUM_FRAMES, Nat.mod_lt _ (by decide)⟩

theorem coe_drawnFrame (seed : UInt32) :
    (drawnFrame seed : ℕ) = drawnBits (nextSeed seed) % NUM_FRAMES := rfl

/-- Any frame is drawn, sooner or later. -/
theorem exists_drawnFrame (i : Fin NUM_FRAMES) (seed : UInt32) :
    ∃ n < 2 ^ 32, drawnFrame (nextSeed^[n] seed) = i := by
  have hi := fin_lt i
  -- `rand_range` uses the bits from the 16th on
  obtain ⟨n, hn, hreach⟩ := nextSeed_reaches (nextSeed seed) (.ofNat (i * 65536))
  refine ⟨n, hn, Fin.ext ?_⟩
  show drawnBits (nextSeed (nextSeed^[n] seed)) % 100 = i
  rw [← iterate_succ_apply' nextSeed, iterate_succ_apply, hreach, drawnBits, UInt32.toNat_ofNat']
  omega

/-! ### The loops of `ram_init` -/

theorem getFrame_fin (frames : Fin NUM_FRAMES → Frame) (i : Fin NUM_FRAMES) :
    getFrame frames (i : ℕ) = .ok (frames i) := by
  unfold getFrame
  rw [dif_pos ⟨Int.natCast_nonneg _, by simp⟩]
  rfl

theorem preoccupyDrawn_fin (frames : Fin NUM_FRAMES → Frame) (i : Fin NUM_FRAMES)
    (seed : UInt32) :
    preoccupyDrawn frames (i : ℕ) seed = if (frames i).state = .free then
      .inr (.ok (update frames i { frames i with state := .preoccupied }, seed))
      else .inl seed := by
  unfold preoccupyDrawn
  simp only [getFrame_fin, setFrame_fin]
  rfl

/-- A round of the inner loop ends it if and only if the drawn frame is free. -/
theorem preoccupyRound_eq (frames : Fin NUM_FRAMES → Frame) (seed : UInt32) :
    preoccupyRound frames seed = if (frames (drawnFrame seed)).state = .free then
      .inr (.ok (update frames (drawnFrame seed)
        { frames (drawnFrame seed) with state := .preoccupied }, nextSeed seed))
      else .inl (nextSeed seed) := by
  have hidx : randRange 0 (NUM_FRAMES - 1) seed = (((drawnFrame seed : ℕ) : ℤ), nextSeed seed) := by
    have hrange : ((NUM_FRAMES : ℤ) - 1 - 0 + 1).toNat = NUM_FRAMES := rfl
    rw [randRange_eq (by decide) (by decide), hrange, zero_add, coe_drawnFrame]
  rw [← preoccupyDrawn_fin, preoccupyRound, hidx]

/-- `k` frames are preoccupied, and the others are free, all with page 0. -/
structure Preoccupied (k : ℕ) (frames : Fin NUM_FRAMES → Frame) : Prop where
  free : (freeFrames frames).length + k = NUM_FRAMES
  frame : ∀ i, frames i = ⟨.free, 0⟩ ∨ frames i = ⟨.preoccupied, 0⟩

theorem preoccupied_zero : Preoccupied 0 fun _ => { state := .free, vPage := 0 } where
  free := rfl
  frame _ := .inl rfl

/-- A free frame is taken. -/
theorem Preoccupied.update {k : ℕ} {frames : Fin NUM_FRAMES → Frame} (h : Preoccupied k frames)
    {i : Fin NUM_FRAMES} (hi : (frames i).state = .free) :
    Preoccupied (k + 1) (update frames i { frames i with state := .preoccupied }) where
  free := by
    have hmem : i ∈ freeFrames frames :=
      List.mem_filter.mpr ⟨List.mem_finRange i, by simpa using hi⟩
    have hpos := List.length_pos_of_mem hmem
    have := h.free
    rw [freeFrames_update_eq frames i (by simp), List.length_erase_of_mem hmem]
    omega
  frame j := by
    by_cases hj : j = i
    · subst hj
      right
      rw [update_self]
      rcases h.frame j with hfree | hpre
      · rw [hfree]
      · rw [hpre]
    · rw [update_of_ne hj]
      exact h.frame j

/-- One frame more, as long as one is free: 2^32 draws find it. -/
theorem Preoccupied.round {k : ℕ} {frames : Fin NUM_FRAMES → Frame} (h : Preoccupied k frames)
    (hk : k < NUM_FRAMES) (seed : UInt32) :
    ∃ frames' seed', Preoccupied (k + 1) frames' ∧
      ∀ fuel ≥ 2 ^ 32,
        breakLoop (preoccupyRound frames) fuel seed = some (.ok (frames', seed')) := by
  have hpos : 0 < (freeFrames frames).length := by
    have := h.free
    omega
  obtain ⟨i, hi⟩ := List.exists_mem_of_length_pos hpos
  have hfree : (frames i).state = .free := by simpa using (List.mem_filter.mp hi).2
  obtain ⟨n, hn, hdraw⟩ := exists_drawnFrame i seed
  have hnext (s s' : UInt32) (hs : preoccupyRound frames s = .inl s') : s' = nextSeed s := by
    rw [preoccupyRound_eq] at hs
    split at hs
    · exact absurd hs nofun
    · exact (Sum.inl.inj hs).symm
  obtain ⟨m, b, hbreak, hloop⟩ := exists_breakLoop hnext (n := n) (s := seed)
    (by rw [preoccupyRound_eq, hdraw, if_pos hfree])
  -- the loop leaves with the frame drawn in its last round, which was free
  rw [preoccupyRound_eq] at hbreak
  split at hbreak
  · rename_i hlast
    obtain rfl := Sum.inr.inj hbreak
    exact ⟨_, _, h.update hlast, fun fuel hfuel => hloop fuel (by omega)⟩
  · exact absurd hbreak nofun

/-- The outer loop. -/
theorem Preoccupied.loop {occCount k : ℕ} {frames : Fin NUM_FRAMES → Frame}
    (h : Preoccupied k frames) (hk : k + occCount ≤ NUM_FRAMES) (seed : UInt32) :
    ∃ frames' seed', Preoccupied (k + occCount) frames' ∧
      ∀ fuel ≥ 2 ^ 32, preoccupy fuel occCount (frames, seed) = some (.ok (frames', seed')) := by
  induction occCount generalizing k frames seed with
  | zero => exact ⟨frames, seed, h, fun _ _ => rfl⟩
  | succ occCount ih =>
    obtain ⟨frames₁, seed₁, h₁, hround⟩ := h.round (by omega) seed
    obtain ⟨frames', seed', h', hloop⟩ := ih h₁ (by omega) seed₁
    refine ⟨frames', seed', by rwa [← Nat.add_assoc, Nat.add_right_comm], fun fuel hfuel => ?_⟩
    rw [preoccupy, hround fuel hfuel]
    exact hloop fuel hfuel

/-- There are no other frames in that state. -/
theorem Preoccupied.count {k : ℕ} {frames : Fin NUM_FRAMES → Frame} (h : Preoccupied k frames) :
    (List.finRange NUM_FRAMES).countP (fun i => (frames i).state = .preoccupied) = k := by
  have hfree : (freeFrames frames).length + k = NUM_FRAMES := h.free
  have hsplit := List.length_eq_countP_add_countP (fun i => decide ((frames i).state = .free))
    (l := List.finRange NUM_FRAMES)
  -- a frame that is not free is preoccupied
  have hneg : (List.finRange NUM_FRAMES).countP (fun i => (frames i).state = .preoccupied)
      = (List.finRange NUM_FRAMES).countP fun i => ¬decide ((frames i).state = .free) := by
    apply List.countP_congr
    intro i _
    rcases h.frame i with hi | hi <;> simp [hi]
  rw [hneg]
  rw [List.length_finRange, List.countP_eq_length_filter] at hsplit
  unfold freeFrames at hfree
  omega

/-- `ram_init` returns, with a fresh page table. -/
theorem exists_ramInit (numVpage : UInt8) {occCount : UInt8} (hocc : occCount.toNat ≤ NUM_FRAMES)
    (seed : UInt32) :
    ∃ frames seed', Preoccupied occCount.toNat frames ∧ ∀ fuel ≥ 2 ^ 32,
      ramInit fuel numVpage occCount seed
        = some (.ok ({ frames := frames, table := ptCreate numVpage }, seed')) := by
  obtain ⟨frames, seed', h, hloop⟩ := preoccupied_zero.loop
    (show 0 + occCount.toNat ≤ NUM_FRAMES by omega) seed
  rw [Nat.zero_add] at h
  refine ⟨frames, seed', h, fun fuel hfuel => ?_⟩
  rw [ramInit, hloop fuel hfuel]
  rfl

/-- **Random pre-occupation terminates with the exact count**, from any state of the generator:
`2 ^ 32` draws for each frame are enough, and `occCount` frames are preoccupied. -/
theorem ramInit_preoccupies (numVpage occCount : UInt8) (hocc : occCount.toNat ≤ NUM_FRAMES)
    (seed : UInt32) :
    ∃ m seed', (∀ fuel ≥ 2 ^ 32, ramInit fuel numVpage occCount seed = some (.ok (m, seed'))) ∧
      (List.finRange NUM_FRAMES).countP (fun i => (m.frames i).state = .preoccupied)
        = occCount.toNat ∧
      ∀ i, (m.frames i).state = .preoccupied ∨ m.frames i = ⟨.free, 0⟩ := by
  obtain ⟨frames, seed', h, hinit⟩ := exists_ramInit numVpage hocc seed
  refine ⟨⟨frames, ptCreate numVpage⟩, seed', hinit, h.count, fun i => ?_⟩
  rcases h.frame i with hi | hi
  · exact .inr hi
  · left
    show (frames i).state = _
    rw [hi]

/-- All frames but one. -/
theorem ramInit_preoccupies_ninetyNine :
    ∃ m seed', (∀ fuel ≥ 2 ^ 32, ramInit fuel 1 99 4951 = some (.ok (m, seed'))) ∧
      (List.finRange NUM_FRAMES).countP (fun i => (m.frames i).state = .preoccupied) = 99 ∧
      ∀ i, (m.frames i).state = .preoccupied ∨ m.frames i = ⟨.free, 0⟩ :=
  ramInit_preoccupies 1 99 (by decide) 4951

end OsLabs.VirtualMemory
