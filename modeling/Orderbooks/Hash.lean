import Mathlib.Tactic.Common
import Mathlib.Data.Nat.Notation

/-!
# Hashing

`hash.hpp`: the SplitMix64 finaliser, the shard a symbol falls into and the
first stamp of a shard's sequence range.
-/
namespace Orderbooks

def mix13Shift1 : UInt64 := 30
def mix13Multiplier1 : UInt64 := 0xBF58476D1CE4E5B9
def mix13Shift2 : UInt64 := 27
def mix13Multiplier2 : UInt64 := 0x94D049BB133111EB
def mix13Shift3 : UInt64 := 31

def splitmix64 (x : UInt64) : UInt64 :=
  let x := (x ^^^ (x >>> mix13Shift1)) * mix13Multiplier1
  let x := (x ^^^ (x >>> mix13Shift2)) * mix13Multiplier2
  x ^^^ (x >>> mix13Shift3)

/-- `numShards` is a power of two, so the modulus is a mask. -/
def shardIndex (sym : UInt64) (numShards : ℕ) : ℕ :=
  (splitmix64 sym).toNat &&& (numShards - 1)

/-- Shard `i` stamps from `i * 2^(64 - log2 N)` on. -/
def shardSeqBase (shardIdx numShards : ℕ) : UInt64 :=
  if numShards ≤ 1 then 0
  else
    let log2Shards := (BitVec.ofNat 64 numShards).ctz.toNat
    UInt64.ofNat shardIdx <<< UInt64.ofNat (64 - log2Shards)

end Orderbooks
