import OsLabs.VirtualMemory.Mmu

/-!
# Memory set-up and address display (`009VirtualMemory/lib/memio.c`)

`RAM_init` is the function `RAMInit`; the maps of the RAM that it prints are in `Display`.  What
`addr_translate` prints is the value `Printed`, with the arguments of its `printf`.
-/

namespace OsLabs.VirtualMemory

/-- What can stop `RAM_init`. -/
inductive InitFault where
  /-- Its `assert`. -/
  | assertion
  | fault (f : Fault)
  deriving DecidableEq, Repr

/-- A round of the `while (1)` loop of `RAM_init`. -/
def occCountRound (numVpage : UInt8) (seed : UInt32) : UInt32 ⊕ UInt8 × UInt32 :=
  let draw := randRange (NUM_FRAMES / 10) (NUM_FRAMES * 3 / 5) seed
  let occCount : UInt8 := .ofInt draw.1
  if numVpage > 10 ∧ (NUM_FRAMES : ℤ) - occCount.toNat ≥ numVpage.toNat then .inr (occCount, draw.2)
  else if (NUM_FRAMES : ℤ) - occCount.toNat ≥ 10 then .inr (occCount, draw.2)
  else .inl draw.2

/-- `RAM_init` after the call of `ram_init`: the `assert`, and `load_process`. -/
def loadAfterInit (numVpage occCount : UInt8) : Mmu × UInt32 → Except InitFault (Mmu × UInt32)
  | (m, seed) =>
    if (NUM_FRAMES : ℤ) - (occupiedCount m.frames).toNat ≥ numVpage.toNat ∨
        (NUM_FRAMES : ℤ) - occCount.toNat ≥ 10 then
      ((loadProcess m numVpage).mapError .fault).map (·, seed)
    else .error .assertion

/-- `RAM_init`, with the `_seed` on entry and on return. -/
def RAMInit (fuel : ℕ) (numVpage : UInt8) (seed : UInt32) :
    Option (Except InitFault (Mmu × UInt32)) :=
  (breakLoop (occCountRound numVpage) fuel seed).bind fun (occCount, seed) =>
    (ramInit fuel numVpage occCount seed).map fun out =>
      (out.mapError .fault).bind (loadAfterInit numVpage occCount)

/-- What `addr_translate` prints. -/
inductive Printed where
  /-- `ERROR! VA out of range.` -/
  | outOfRange
  /-- `VA = .. - VPN = .. - OFF = .. - PFN = .. - PA = ..` -/
  | address (va : UInt16) (vpn off pfn : ℕ) (pa : ℤ)
  deriving DecidableEq, Repr

/-- `addr_translate` -/
def addrTranslate (m : Mmu) (vAddr : UInt16) : Except Fault Printed := do
  let pAddr ← translate m vAddr
  if pAddr = -1 then return .outOfRange
  return .address vAddr (vAddr.toNat / 256 % 256) (vAddr.toNat % 256) (pAddr / 256 % 256).toNat
    pAddr

end OsLabs.VirtualMemory
