import OsLabs.Lib.CInt

/-!
# The random number generator (`009VirtualMemory/lib/random.c`)

The static `_seed` is passed along.  `rand_seed` sets it.
-/

namespace OsLabs.VirtualMemory

/-- `rand_range`, with the new `_seed`. -/
def randRange (min max : ℤ) (seed : UInt32) : ℤ × UInt32 :=
  let seed := seed * 1664525 + 1013904223
  let r := (seed >>> 16) &&& 0x7FFF
  (min + int32 (r % .ofInt (max - min + 1)).toNat, seed)

end OsLabs.VirtualMemory
