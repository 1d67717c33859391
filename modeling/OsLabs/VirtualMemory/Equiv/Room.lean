import OsLabs.VirtualMemory.Memio
import OsLabs.VirtualMemory.Equiv.Preoccupy

/-!
# Room for the process

The second test of the loop of `RAM_init` holds for every number that it can draw, so the first
number drawn is kept, whether it leaves room for the process or not (`occCountRound_eq`).  The
process is loaded if and only if that number leaves room (`RAMInit_leavesRoom_iff`); otherwise
`load_process` ends the program (`RAMInit_of_noRoom`).
-/

namespace OsLabs.VirtualMemory

/-- The first number that `RAM_init` draws. -/
def firstDraw (seed : UInt32) : UInt8 := .ofNat (10 + drawnBits (nextSeed seed) % 51)

theorem toNat_firstDraw (seed : UInt32) :
    (firstDraw seed).toNat = 10 + drawnBits (nextSeed seed) % 51 := by
  rw [firstDraw, UInt8.toNat_ofNat']
  omega

/-- At most 60 of the 100 frames are preoccupied. -/
theorem firstDraw_le (seed : UInt32) : (firstDraw seed).toNat ≤ 60 := by
  rw [toNat_firstDraw]
  omega

/-- `drawnBits` of the next state in terms of the seed. -/
theorem drawnBits_nextSeed (seed : UInt32) : drawnBits (nextSeed seed)
    = (1664525 * seed.toNat + 1013904223) % 4294967296 / 65536 % 32768 := by
  have hnext : (nextSeed seed).toNat = (1664525 * seed.toNat + 1013904223) % 4294967296 := by
    unfold nextSeed
    rw [UInt32.toNat_add, UInt32.toNat_mul]
    show (seed.toNat * 1664525 % 4294967296 + 1013904223) % 4294967296 = _
    omega
  rw [drawnBits, hnext]

/-- The first number drawn is kept. -/
theorem occCountRound_eq (numVpage : UInt8) (seed : UInt32) :
    occCountRound numVpage seed = .inr (firstDraw seed, nextSeed seed) := by
  have hdraw : randRange (NUM_FRAMES / 10) (NUM_FRAMES * 3 / 5) seed
      = (((10 + drawnBits (nextSeed seed) % 51 : ℕ) : ℤ), nextSeed seed) := by
    have hmin : (NUM_FRAMES : ℤ) / 10 = 10 := rfl
    have hmax : (NUM_FRAMES : ℤ) * 3 / 5 = 60 := rfl
    have hrange : ((60 : ℤ) - 10 + 1).toNat = 51 := rfl
    rw [hmin, hmax, randRange_eq (by decide) (by decide), hrange, Nat.cast_add, Nat.cast_ofNat]
  have hocc : UInt8.ofInt ((10 + drawnBits (nextSeed seed) % 51 : ℕ) : ℤ) = firstDraw seed := by
    apply UInt8.toNat_inj.mp
    rw [toNat_ofInt_of_lt (by omega) (by omega), toNat_firstDraw, Int.toNat_natCast]
  have hroom : (NUM_FRAMES : ℤ) - (firstDraw seed).toNat ≥ 10 := by
    have := firstDraw_le seed
    show (100 : ℤ) - _ ≥ 10
    omega
  unfold occCountRound
  simp only [hdraw, hocc, if_pos hroom, ite_self]

/-- The loop ends in its first round. -/
theorem breakLoop_occCount (numVpage : UInt8) (seed : UInt32) {fuel : ℕ} (hfuel : fuel > 0) :
    breakLoop (occCountRound numVpage) fuel seed = some (firstDraw seed, nextSeed seed) := by
  obtain ⟨fuel, rfl⟩ := Nat.exists_eq_add_one.mpr hfuel
  exact breakLoop_of_break (occCountRound_eq numVpage seed) fuel

/-! ### Loading after the initialization -/

/-- At least 40 frames are left, so the assertion holds. -/
theorem loadAfterInit_eq (numVpage : UInt8) {occCount : UInt8} (hocc : occCount.toNat ≤ 60)
    (m : Mmu) (seed : UInt32) : loadAfterInit numVpage occCount (m, seed)
      = ((loadProcess m numVpage).mapError .fault).map (·, seed) := by
  have hroom : (NUM_FRAMES : ℤ) - occCount.toNat ≥ 10 := by
    show (100 : ℤ) - _ ≥ 10
    omega
  rw [loadAfterInit, if_pos (.inr hroom)]

/-- `RAM_init` loads the process into a RAM where as many frames are preoccupied as it drew. -/
theorem exists_RAMInit {numVpage occCount : UInt8} (hocc : occCount.toNat ≤ 60)
    {seed seed₁ : UInt32} (hdraw : ∀ fuel > 0,
      breakLoop (occCountRound numVpage) fuel seed = some (occCount, seed₁)) :
    ∃ frames seed', Preoccupied occCount.toNat frames ∧ ∀ fuel ≥ 2 ^ 32,
      RAMInit fuel numVpage seed
        = some (((loadProcess { frames := frames, table := ptCreate numVpage } numVpage).mapError
            .fault).map (·, seed')) := by
  obtain ⟨frames, seed', h, hinit⟩ :=
    exists_ramInit numVpage (show occCount.toNat ≤ NUM_FRAMES from hocc.trans (by decide)) seed₁
  refine ⟨frames, seed', h, fun fuel hfuel => ?_⟩
  rw [RAMInit, hdraw fuel (by omega), Option.bind_some]
  show (ramInit fuel numVpage occCount seed₁).map _ = _
  rw [hinit fuel hfuel, ← loadAfterInit_eq numVpage hocc]
  rfl

/-- Without room, `load_process` ends the program. -/
theorem RAMInit_of_noRoom {numVpage : UInt8} {seed : UInt32}
    (h : NUM_FRAMES < numVpage.toNat + (firstDraw seed).toNat) (fuel : ℕ) (hfuel : fuel ≥ 2 ^ 32) :
    RAMInit fuel numVpage seed = some (.error (.fault .noFreeFrame)) := by
  obtain ⟨frames, seed', hpre, hinit⟩ := exists_RAMInit (firstDraw_le seed)
    fun _ => breakLoop_occCount numVpage seed
  have hfree := hpre.free
  rw [hinit fuel hfuel, loadProcess_of_gt (by omega)]
  rfl

/-- The number that the loop of `RAM_init` draws leaves room for the process, and it is loaded. -/
structure LeavesRoom (numVpage : UInt8) (seed : UInt32) : Prop where
  drawn : ∃ occCount seed', (∀ fuel > 0,
    breakLoop (occCountRound numVpage) fuel seed = some (occCount, seed')) ∧
      NUM_FRAMES - occCount.toNat ≥ numVpage.toNat
  loaded : ∃ m seed', ∀ fuel ≥ 2 ^ 32, RAMInit fuel numVpage seed = some (.ok (m, seed'))

/-- The room is what the first number leaves. -/
theorem leavesRoom_iff_firstDraw (numVpage : UInt8) (seed : UInt32) :
    LeavesRoom numVpage seed ↔ numVpage.toNat + (firstDraw seed).toNat ≤ NUM_FRAMES := by
  have hle := firstDraw_le seed
  constructor
  · intro h
    obtain ⟨occCount, seed', hloop, hroom⟩ := h.drawn
    have hfirst := hloop 1 Nat.one_pos
    rw [breakLoop_occCount numVpage seed Nat.one_pos] at hfirst
    obtain ⟨rfl, -⟩ := Prod.mk.inj (Option.some.inj hfirst)
    rw [NUM_FRAMES] at hroom ⊢
    omega
  · intro h
    have hroom : NUM_FRAMES - (firstDraw seed).toNat ≥ numVpage.toNat := by omega
    refine ⟨⟨_, _, fun _ => breakLoop_occCount numVpage seed, hroom⟩, ?_⟩
    obtain ⟨frames, seed', hpre, hinit⟩ := exists_RAMInit (firstDraw_le seed)
      fun _ => breakLoop_occCount numVpage seed
    have hfree := hpre.free
    obtain ⟨m, hload, -⟩ := exists_loadProcess frames numVpage (by omega)
    refine ⟨m, seed', fun fuel hfuel => ?_⟩
    rw [hinit fuel hfuel, hload]
    rfl

/-- **Room for the process**: `RAM_init` leaves room for a process of `numVpage` pages, and loads
it, if and only if the first draw of the seed, between 10 and 60, is at most `100 - numVpage`. -/
theorem RAMInit_leavesRoom_iff (numVpage : UInt8) (seed : UInt32) :
    LeavesRoom numVpage seed ↔ numVpage.toNat
      + (10 + (1664525 * seed.toNat + 1013904223) % 4294967296 / 65536 % 32768 % 51) ≤ 100 := by
  rw [leavesRoom_iff_firstDraw, toNat_firstDraw, drawnBits_nextSeed]
  rfl

/-- The seed 1 preoccupies 53 frames, and a process of the default size has 49 pages. -/
theorem not_RAMInit_leavesRoom :
    ¬∀ (numVpage : UInt8) (seed : UInt32), 10 < numVpage.toNat →
      numVpage.toNat ≤ NUM_FRAMES - NUM_FRAMES / 10 → LeavesRoom numVpage seed := by
  intro hall
  have hroom := (leavesRoom_iff_firstDraw 49 1).mp (hall 49 1 (by decide) (by decide))
  exact absurd hroom (by decide)

end OsLabs.VirtualMemory
