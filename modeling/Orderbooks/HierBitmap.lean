import Orderbooks.Lib.WordTiers
import Orderbooks.Lib.Runs

/-!
# The hierarchical bitmap

`bitmap.hpp`. Up to four tiers of 64-bit words hold a set of ticks. The tier
sizes are those of the class template; a tier whose size is zero is never
touched. Each array is a function from word positions, and no operation below
leaves its bounds.

`Represents bm S` is the tier invariant together with the set the base tier
stores. Every query is then an extremum of `S`.
-/
namespace Orderbooks
open WordTiers Runs

structure HierBitmap (ticks : ℕ) where
  l0 : ℕ → BitVec 64
  l1 : ℕ → BitVec 64
  l2 : ℕ → BitVec 64
  l3 : ℕ → BitVec 64

namespace HierBitmap

def ceildiv (a b : ℕ) : ℕ := (a + b - 1) / b

def l0W (ticks : ℕ) : ℕ := ceildiv ticks 64
def l1W (ticks : ℕ) : ℕ := if 1 < l0W ticks then ceildiv (l0W ticks) 64 else 0
def l2W (ticks : ℕ) : ℕ := if 1 < l1W ticks then ceildiv (l1W ticks) 64 else 0
def l3W (ticks : ℕ) : ℕ := if 1 < l2W ticks then ceildiv (l2W ticks) 64 else 0

def countrZero (x : BitVec 64) : ℕ := x.ctz.toNat
def countlZero (x : BitVec 64) : ℕ := x.clz.toNat

def mask (bit : ℕ) : BitVec 64 := 1#64 <<< (bit % 64)

/-- Bits at position `off` and above within a word. -/
def highMask (off : ℕ) : BitVec 64 := BitVec.allOnes 64 <<< off

/-- Bits at position `off` and below within a word. -/
def lowMaskInclusive (off : ℕ) : BitVec 64 :=
  if off = 63 then BitVec.allOnes 64 else (1#64 <<< (off + 1)) - 1#64

variable {ticks : ℕ}

def new (ticks : ℕ) : HierBitmap ticks :=
  ⟨fun _ => 0, fun _ => 0, fun _ => 0, fun _ => 0⟩

def set (bm : HierBitmap ticks) (bit : ℕ) : HierBitmap ticks :=
  let bm := { bm with l0 := Function.update bm.l0 (bit / 64) (bm.l0 (bit / 64) ||| mask bit) }
  if 0 < l1W ticks then
    let l1Bit := bit / 64
    let bm := { bm with
      l1 := Function.update bm.l1 (l1Bit / 64) (bm.l1 (l1Bit / 64) ||| mask l1Bit) }
    if 0 < l2W ticks then
      let l2Bit := l1Bit / 64
      let bm := { bm with
        l2 := Function.update bm.l2 (l2Bit / 64) (bm.l2 (l2Bit / 64) ||| mask l2Bit) }
      if 0 < l3W ticks then
        let l3Bit := l2Bit / 64
        { bm with
          l3 := Function.update bm.l3 (l3Bit / 64) (bm.l3 (l3Bit / 64) ||| mask l3Bit) }
      else bm
    else bm
  else bm

/-- The branchless test of the cascading clear, as a 0/1 word. -/
def isZero (x : BitVec 64) : BitVec 64 := if x = 0 then 1#64 else 0#64

def clear (bm : HierBitmap ticks) (bit : ℕ) : HierBitmap ticks :=
  let l0Word := bit / 64
  let l0Post := bm.l0 l0Word &&& ~~~mask bit
  let bm := { bm with l0 := Function.update bm.l0 l0Word l0Post }
  if 0 < l1W ticks then
    let l0Empty := isZero l0Post
    let l1Bit := l0Word
    let l1Word := l1Bit / 64
    let l1ClearMask := mask l1Bit &&& (0#64 - l0Empty)
    let l1Post := bm.l1 l1Word &&& ~~~l1ClearMask
    let bm := { bm with l1 := Function.update bm.l1 l1Word l1Post }
    if 0 < l2W ticks then
      let l1Empty := isZero l1Post &&& l0Empty
      let l2Bit := l1Word
      let l2Word := l2Bit / 64
      let l2ClearMask := mask l2Bit &&& (0#64 - l1Empty)
      let l2Post := bm.l2 l2Word &&& ~~~l2ClearMask
      let bm := { bm with l2 := Function.update bm.l2 l2Word l2Post }
      if 0 < l3W ticks then
        let l2Empty := isZero l2Post &&& l1Empty
        let l3Bit := l2Word
        let l3Word := l3Bit / 64
        let l3ClearMask := mask l3Bit &&& (0#64 - l2Empty)
        { bm with l3 := Function.update bm.l3 l3Word (bm.l3 l3Word &&& ~~~l3ClearMask) }
      else bm
    else bm
  else bm

def test (bm : HierBitmap ticks) (bit : ℕ) : Bool :=
  (bm.l0 (bit / 64) >>> (bit % 64)).getLsbD 0

def empty (bm : HierBitmap ticks) : Bool :=
  if 0 < l3W ticks then bm.l3 0 == 0
  else if 0 < l2W ticks then bm.l2 0 == 0
  else if 0 < l1W ticks then bm.l1 0 == 0
  else bm.l0 0 == 0

def lowestSet (bm : HierBitmap ticks) : Option ℕ :=
  if bm.empty then none else
    let idx := 0
    let idx := if 0 < l3W ticks then countrZero (bm.l3 0) else idx
    let idx := if 0 < l2W ticks then idx * 64 + countrZero (bm.l2 idx) else idx
    let idx := if 0 < l1W ticks then idx * 64 + countrZero (bm.l1 idx) else idx
    some (idx * 64 + countrZero (bm.l0 idx))

def highestSet (bm : HierBitmap ticks) : Option ℕ :=
  if bm.empty then none else
    let idx := 0
    let idx := if 0 < l3W ticks then (64 - 1) - countlZero (bm.l3 0) else idx
    let idx := if 0 < l2W ticks then idx * 64 + ((64 - 1) - countlZero (bm.l2 idx)) else idx
    let idx := if 0 < l1W ticks then idx * 64 + ((64 - 1) - countlZero (bm.l1 idx)) else idx
    some (idx * 64 + ((64 - 1) - countlZero (bm.l0 idx)))

def clearAll (bm : HierBitmap ticks) : HierBitmap ticks :=
  { l0 := fun _ => 0
    l1 := if 0 < l1W ticks then fun _ => 0 else bm.l1
    l2 := if 0 < l2W ticks then fun _ => 0 else bm.l2
    l3 := if 0 < l3W ticks then fun _ => 0 else bm.l3 }

def nextSetAtOrAfter (bm : HierBitmap ticks) (start : ℕ) : Option ℕ :=
  if ticks ≤ start then none else
  let l0Word := start / 64
  let l0Off := start % 64
  let l0Masked := bm.l0 l0Word &&& highMask l0Off
  if l0Masked ≠ 0 then some (l0Word * 64 + countrZero l0Masked) else
  if 0 < l1W ticks then
    let l1Pos := l0Word + 1
    if l0W ticks ≤ l1Pos then none else
    let l1Word := l1Pos / 64
    let l1Off := l1Pos % 64
    let l1Masked := bm.l1 l1Word &&& highMask l1Off
    if l1Masked ≠ 0 then
      let l0Idx := l1Word * 64 + countrZero l1Masked
      some (l0Idx * 64 + countrZero (bm.l0 l0Idx))
    else
    if 0 < l2W ticks then
      let l2Pos := l1Word + 1
      if l1W ticks ≤ l2Pos then none else
      let l2Word := l2Pos / 64
      let l2Off := l2Pos % 64
      let l2Masked := bm.l2 l2Word &&& highMask l2Off
      if l2Masked ≠ 0 then
        let l1Idx := l2Word * 64 + countrZero l2Masked
        let l0Idx := l1Idx * 64 + countrZero (bm.l1 l1Idx)
        some (l0Idx * 64 + countrZero (bm.l0 l0Idx))
      else
      if 0 < l3W ticks then
        let l3Pos := l2Word + 1
        if l2W ticks ≤ l3Pos then none else
        let l3Masked := bm.l3 0 &&& highMask l3Pos
        if l3Masked = 0 then none else
        let l2Idx := countrZero l3Masked
        let l1Idx := l2Idx * 64 + countrZero (bm.l2 l2Idx)
        let l0Idx := l1Idx * 64 + countrZero (bm.l1 l1Idx)
        some (l0Idx * 64 + countrZero (bm.l0 l0Idx))
      else none
    else none
  else none

def prevSetAtOrBefore (bm : HierBitmap ticks) (start : ℕ) : Option ℕ :=
  if ticks = 0 ∨ bm.empty then none else
  let start := if ticks ≤ start then ticks - 1 else start
  let l0Word := start / 64
  let l0Off := start % 64
  let l0Masked := bm.l0 l0Word &&& lowMaskInclusive l0Off
  if l0Masked ≠ 0 then some (l0Word * 64 + (64 - 1 - countlZero l0Masked)) else
  if 0 < l1W ticks then
    if l0Word = 0 then none else
    let l1Pos := l0Word - 1
    let l1Word := l1Pos / 64
    let l1Off := l1Pos % 64
    let l1Masked := bm.l1 l1Word &&& lowMaskInclusive l1Off
    if l1Masked ≠ 0 then
      let l0Idx := l1Word * 64 + (64 - 1 - countlZero l1Masked)
      some (l0Idx * 64 + (64 - 1 - countlZero (bm.l0 l0Idx)))
    else
    if 0 < l2W ticks then
      if l1Word = 0 then none else
      let l2Pos := l1Word - 1
      let l2Word := l2Pos / 64
      let l2Off := l2Pos % 64
      let l2Masked := bm.l2 l2Word &&& lowMaskInclusive l2Off
      if l2Masked ≠ 0 then
        let l1Idx := l2Word * 64 + (64 - 1 - countlZero l2Masked)
        let l0Idx := l1Idx * 64 + (64 - 1 - countlZero (bm.l1 l1Idx))
        some (l0Idx * 64 + (64 - 1 - countlZero (bm.l0 l0Idx)))
      else
      if 0 < l3W ticks then
        if l2Word = 0 then none else
        let l3Pos := l2Word - 1
        let l3Masked := bm.l3 0 &&& lowMaskInclusive l3Pos
        if l3Masked = 0 then none else
        let l2Idx := 64 - 1 - countlZero l3Masked
        let l1Idx := l2Idx * 64 + (64 - 1 - countlZero (bm.l2 l2Idx))
        let l0Idx := l1Idx * 64 + (64 - 1 - countlZero (bm.l1 l1Idx))
        some (l0Idx * 64 + (64 - 1 - countlZero (bm.l0 l0Idx)))
      else none
    else none
  else none

/-! ## The set a bitmap represents -/

/-- The base tier stores `S`, and every tier in use summarises the one below. -/
structure Represents (bm : HierBitmap ticks) (S : Set ℕ) : Prop where
  base : bits bm.l0 = S
  bound : ∀ i ∈ S, i < ticks
  tier1 : 0 < l1W ticks → Summarises bm.l1 bm.l0
  tier2 : 0 < l2W ticks → Summarises bm.l2 bm.l1
  tier3 : 0 < l3W ticks → Summarises bm.l3 bm.l2

theorem l1W_pos_iff : 0 < l1W ticks ↔ 1 < l0W ticks := by
  unfold l1W ceildiv
  split_ifs <;> omega

theorem l2W_pos_iff : 0 < l2W ticks ↔ 1 < l1W ticks := by
  unfold l2W ceildiv
  split_ifs <;> omega

theorem l3W_pos_iff : 0 < l3W ticks ↔ 1 < l2W ticks := by
  unfold l3W ceildiv
  split_ifs <;> omega

theorem l1W_eq (h : 0 < l1W ticks) : l1W ticks = ceildiv (l0W ticks) 64 :=
  if_pos (l1W_pos_iff.mp h)

theorem l2W_eq (h : 0 < l2W ticks) : l2W ticks = ceildiv (l1W ticks) 64 :=
  if_pos (l2W_pos_iff.mp h)

theorem l1W_pos_of_l2W (h : 0 < l2W ticks) : 0 < l1W ticks := by
  have := l2W_pos_iff.mp h
  omega

theorem l2W_pos_of_l3W (h : 0 < l3W ticks) : 0 < l2W ticks := by
  have := l3W_pos_iff.mp h
  omega

theorem div_lt_ceildiv {i a : ℕ} (h : i < a) : i / 64 < ceildiv a 64 := by
  unfold ceildiv
  omega

/-- The static assertion on the tier count. -/
theorem l2W_le (h : ticks ≤ 64 ^ 4) : l2W ticks ≤ 64 := by
  unfold l2W l1W l0W ceildiv
  split_ifs <;> omega

theorem new_represents (ticks : ℕ) : (new ticks).Represents ∅ where
  base := by
    ext i
    simp [mem_bits, bit, new]
  bound := by simp
  tier1 _ j := by simp [bit, new]
  tier2 _ j := by simp [bit, new]
  tier3 _ j := by simp [bit, new]

theorem clearAll_represents (bm : HierBitmap ticks) : bm.clearAll.Represents ∅ where
  base := by
    ext i
    simp [mem_bits, bit, clearAll]
  bound := by simp
  tier1 h j := by simp [bit, clearAll, h]
  tier2 h j := by simp [bit, clearAll, h, l1W_pos_of_l2W h]
  tier3 h j := by simp [bit, clearAll, h, l2W_pos_of_l3W h]

/-- The 0/1 word that stands for a flag. -/
def flag (e : Bool) : BitVec 64 := if e then 1#64 else 0#64

theorem isZero_and_flag (x : BitVec 64) (e : Bool) :
    isZero x &&& flag e = flag (decide (x = 0#64) && e) := by
  by_cases hx : x = 0#64 <;> cases e <;> simp [isZero, flag, hx]

/-- The clear masks are all-ones or zero, so a tier either drops the bit of a
word that just became zero or is written back unchanged. -/
theorem and_clearMask (w : ℕ → BitVec 64) (b : ℕ) (e : Bool) :
    w (b / 64) &&& ~~~(mask b &&& (0#64 - flag e)) = drop w b e (b / 64) := by
  cases e with
  | false =>
      simp only [flag, drop, Bool.false_eq_true, if_false, BitVec.sub_zero, BitVec.and_zero,
        BitVec.not_zero, BitVec.and_allOnes]
  | true =>
      have hones : (0#64 - 1#64) = BitVec.allOnes 64 := by decide
      simp only [flag, drop, mask, if_true, hones, BitVec.and_allOnes, Function.update_self]

theorem update_drop (w : ℕ → BitVec 64) (b : ℕ) (e : Bool) :
    Function.update w (b / 64) (drop w b e (b / 64)) = drop w b e := by
  cases e <;> simp [drop]

theorem clear_eq (bm : HierBitmap ticks) (b : ℕ) :
    bm.clear b =
      let e0 := decide (drop bm.l0 b true (b / 64) = 0#64) && true
      let e1 := decide (drop bm.l1 (b / 64) e0 (b / 64 / 64) = 0#64) && e0
      let e2 := decide (drop bm.l2 (b / 64 / 64) e1 (b / 64 / 64 / 64) = 0#64) && e1
      if 0 < l1W ticks then
        if 0 < l2W ticks then
          if 0 < l3W ticks then
            ⟨drop bm.l0 b true, drop bm.l1 (b / 64) e0, drop bm.l2 (b / 64 / 64) e1,
              drop bm.l3 (b / 64 / 64 / 64) e2⟩
          else ⟨drop bm.l0 b true, drop bm.l1 (b / 64) e0, drop bm.l2 (b / 64 / 64) e1, bm.l3⟩
        else ⟨drop bm.l0 b true, drop bm.l1 (b / 64) e0, bm.l2, bm.l3⟩
      else ⟨drop bm.l0 b true, bm.l1, bm.l2, bm.l3⟩ := by
  have hpost : bm.l0 (b / 64) &&& ~~~mask b = drop bm.l0 b true (b / 64) := by
    simp [drop, mask]
  have hflag : isZero (drop bm.l0 b true (b / 64)) =
      flag (decide (drop bm.l0 b true (b / 64) = 0#64) && true) := by
    rw [Bool.and_true, isZero, flag]
    simp only [decide_eq_true_eq]
    rfl
  simp only [clear, hpost, hflag, and_clearMask, update_drop, isZero_and_flag]

namespace Represents

variable {bm : HierBitmap ticks} {S : Set ℕ}

theorem lt_l0W (h : bm.Represents S) (h1 : 0 < l1W ticks) {j : ℕ} (hj : j ∈ bits bm.l1) :
    j < l0W ticks := by
  obtain ⟨i, hi, rfl⟩ := ((h.tier1 h1).mem_iff (by decide)).mp hj
  exact div_lt_ceildiv (h.bound i (h.base ▸ hi))

theorem lt_l1W (h : bm.Represents S) (h2 : 0 < l2W ticks) {j : ℕ} (hj : j ∈ bits bm.l2) :
    j < l1W ticks := by
  obtain ⟨i, hi, rfl⟩ := ((h.tier2 h2).mem_iff (by decide)).mp hj
  rw [l1W_eq (l1W_pos_of_l2W h2)]
  exact div_lt_ceildiv (h.lt_l0W (l1W_pos_of_l2W h2) hi)

theorem lt_l2W (h : bm.Represents S) (h3 : 0 < l3W ticks) {j : ℕ} (hj : j ∈ bits bm.l3) :
    j < l2W ticks := by
  obtain ⟨i, hi, rfl⟩ := ((h.tier3 h3).mem_iff (by decide)).mp hj
  rw [l2W_eq (l2W_pos_of_l3W h3)]
  exact div_lt_ceildiv (h.lt_l1W (l2W_pos_of_l3W h3) hi)

theorem set (h : bm.Represents S) {b : ℕ} (hb : b < ticks) :
    (bm.set b).Represents (insert b S) := by
  have hbase : ∀ w : ℕ → BitVec 64, bits w = S →
      bits (Function.update w (b / 64) (w (b / 64) ||| mask b)) = insert b S := by
    intro w hw
    ext i
    rw [mem_bits, mask, bit_set (by decide), ← hw]
    simp [mem_bits, or_comm]
  have hbound : ∀ i ∈ insert b S, i < ticks := by
    rintro i (rfl | hi)
    · exact hb
    · exact h.bound i hi
  unfold HierBitmap.set
  split_ifs with h1 h2 h3
  · exact ⟨hbase _ h.base, hbound, fun _ => (h.tier1 h1).set (by decide) b,
      fun _ => (h.tier2 h2).set (by decide) (b / 64),
      fun _ => (h.tier3 h3).set (by decide) (b / 64 / 64)⟩
  · exact ⟨hbase _ h.base, hbound, fun _ => (h.tier1 h1).set (by decide) b,
      fun _ => (h.tier2 h2).set (by decide) (b / 64), fun h3' => absurd h3' h3⟩
  · exact ⟨hbase _ h.base, hbound, fun _ => (h.tier1 h1).set (by decide) b,
      fun h2' => absurd h2' h2, fun h3' => absurd (l2W_pos_of_l3W h3') h2⟩
  · exact ⟨hbase _ h.base, hbound, fun h1' => absurd h1' h1,
      fun h2' => absurd (l1W_pos_of_l2W h2') h1,
      fun h3' => absurd (l1W_pos_of_l2W (l2W_pos_of_l3W h3')) h1⟩

theorem clear (h : bm.Represents S) (b : ℕ) : (bm.clear b).Represents (S \ {b}) := by
  have hbase : bits (drop bm.l0 b true) = S \ {b} := by
    rw [bits_drop (by decide), h.base]
  have hbound : ∀ i ∈ S \ {b}, i < ticks := fun i hi => h.bound i hi.1
  have ht1 := fun h1 => (h.tier1 h1).drop (by decide) b true
  have ht2 := fun h2 => (h.tier2 h2).drop (by decide) (b / 64)
    (decide (drop bm.l0 b true (b / 64) = 0#64) && true)
  rw [clear_eq]
  split_ifs with h1 h2 h3
  · exact ⟨hbase, hbound, ht1, ht2, fun h3 => (h.tier3 h3).drop (by decide) _ _⟩
  · exact ⟨hbase, hbound, ht1, ht2, fun h3' => absurd h3' h3⟩
  · exact ⟨hbase, hbound, ht1, fun h2' => absurd h2' h2,
      fun h3' => absurd (l2W_pos_of_l3W h3') h2⟩
  · exact ⟨hbase, hbound, fun h1' => absurd h1' h1,
      fun h2' => absurd (l1W_pos_of_l2W h2') h1,
      fun h3' => absurd (l1W_pos_of_l2W (l2W_pos_of_l3W h3')) h1⟩

theorem test_eq (h : bm.Represents S) (b : ℕ) : bm.test b = true ↔ b ∈ S := by
  rw [← h.base, mem_bits, bit, test, BitVec.getLsbD_ushiftRight, Nat.add_zero]

/-! ## Queries -/

theorem base_lt (h : bm.Represents S) (h1 : ¬ 0 < l1W ticks) {i : ℕ} (hi : i ∈ bits bm.l0) :
    i < 64 := by
  have hlt := h.bound i (h.base ▸ hi)
  have hone := mt l1W_pos_iff.mpr h1
  unfold l0W ceildiv at hone
  omega

theorem tier1_lt (h : bm.Represents S) (h1 : 0 < l1W ticks) (h2 : ¬ 0 < l2W ticks) {j : ℕ}
    (hj : j ∈ bits bm.l1) : j < 64 := by
  have hlt := h.lt_l0W h1 hj
  have hone := mt l2W_pos_iff.mpr h2
  rw [l1W_eq h1] at hone
  unfold ceildiv at hone
  omega

theorem tier2_lt (h : bm.Represents S) (h2 : 0 < l2W ticks) (h3 : ¬ 0 < l3W ticks) {j : ℕ}
    (hj : j ∈ bits bm.l2) : j < 64 := by
  have hlt := h.lt_l1W h2 hj
  have hone := mt l3W_pos_iff.mpr h3
  rw [l2W_eq h2] at hone
  unfold ceildiv at hone
  omega

theorem tier3_lt (h : bm.Represents S) (ht : ticks ≤ 64 ^ 4) (h3 : 0 < l3W ticks) {j : ℕ}
    (hj : j ∈ bits bm.l3) : j < 64 :=
  (h.lt_l2W h3 hj).trans_le (l2W_le ht)

theorem eq_empty (h : bm.Represents S) (ht : ticks ≤ 64 ^ 4) (he : bm.empty = true) : S = ∅ := by
  rw [← h.base]
  unfold HierBitmap.empty at he
  split_ifs at he with h3 h2 h1 <;> rw [beq_iff_eq] at he
  · have e3 := WordTiers.bits_eq_empty he fun j => h.tier3_lt ht h3
    have e2 := (h.tier3 h3).bits_eq_empty (by decide) e3
    have e1 := (h.tier2 (l2W_pos_of_l3W h3)).bits_eq_empty (by decide) e2
    exact (h.tier1 (l1W_pos_of_l2W (l2W_pos_of_l3W h3))).bits_eq_empty (by decide) e1
  · have e2 := WordTiers.bits_eq_empty he fun j => h.tier2_lt h2 h3
    have e1 := (h.tier2 h2).bits_eq_empty (by decide) e2
    exact (h.tier1 (l1W_pos_of_l2W h2)).bits_eq_empty (by decide) e1
  · exact (h.tier1 h1).bits_eq_empty (by decide)
      (WordTiers.bits_eq_empty he fun j => h.tier1_lt h1 h2)
  · exact WordTiers.bits_eq_empty he fun j => h.base_lt h1

theorem lowestSet_eq_none_iff : bm.lowestSet = none ↔ bm.empty = true := by
  unfold HierBitmap.lowestSet
  split_ifs with he <;> simp [he]

theorem highestSet_eq_none_iff : bm.highestSet = none ↔ bm.empty = true := by
  unfold HierBitmap.highestSet
  split_ifs with he <;> simp [he]

/-- The descent of `lowestSet` starts at the first tier in use and visits the
word that holds the least element of each tier below. -/
theorem lowestSet_isLeast (h : bm.Represents S) {r : ℕ} (hr : bm.lowestSet = some r) :
    IsLeast S r := by
  rw [← h.base]
  have he : ¬ bm.empty = true := fun he => by
    rw [lowestSet_eq_none_iff.mpr he] at hr
    cases hr
  rw [HierBitmap.lowestSet, if_neg he] at hr
  unfold HierBitmap.empty at he
  by_cases h3 : 0 < l3W ticks
  · have h2 := l2W_pos_of_l3W h3
    have h1 := l1W_pos_of_l2W h2
    simp only [h3, h2, h1, if_true, Option.some.injEq] at he hr
    have d3 := isLeast_first (w := bm.l3) (by simpa using he)
    have d2 := (h.tier3 h3).isLeast_bits (by decide) d3
    have d1 := (h.tier2 h2).isLeast_bits (by decide) d2
    exact hr ▸ (h.tier1 h1).isLeast_bits (by decide) d1
  by_cases h2 : 0 < l2W ticks
  · have h1 := l1W_pos_of_l2W h2
    simp only [h3, h2, h1, if_true, if_false, Nat.zero_mul, Nat.zero_add,
      Option.some.injEq] at he hr
    have d2 := isLeast_first (w := bm.l2) (by simpa using he)
    have d1 := (h.tier2 h2).isLeast_bits (by decide) d2
    exact hr ▸ (h.tier1 h1).isLeast_bits (by decide) d1
  by_cases h1 : 0 < l1W ticks
  · simp only [h3, h2, h1, if_true, if_false, Nat.zero_mul, Nat.zero_add,
      Option.some.injEq] at he hr
    have d1 := isLeast_first (w := bm.l1) (by simpa using he)
    exact hr ▸ (h.tier1 h1).isLeast_bits (by decide) d1
  · simp only [h3, h2, h1, if_false, Nat.zero_mul, Nat.zero_add, Option.some.injEq] at he hr
    exact hr ▸ isLeast_first (w := bm.l0) (by simpa using he)

theorem highestSet_isGreatest (h : bm.Represents S) (ht : ticks ≤ 64 ^ 4) {r : ℕ}
    (hr : bm.highestSet = some r) : IsGreatest S r := by
  rw [← h.base]
  have he : ¬ bm.empty = true := fun he => by
    rw [highestSet_eq_none_iff.mpr he] at hr
    cases hr
  rw [HierBitmap.highestSet, if_neg he] at hr
  unfold HierBitmap.empty at he
  by_cases h3 : 0 < l3W ticks
  · have h2 := l2W_pos_of_l3W h3
    have h1 := l1W_pos_of_l2W h2
    simp only [h3, h2, h1, if_true, Option.some.injEq] at he hr
    have d3 := isGreatest_first (w := bm.l3) (by simpa using he) fun j => h.tier3_lt ht h3
    have d2 := (h.tier3 h3).isGreatest_bits (by decide) d3
    have d1 := (h.tier2 h2).isGreatest_bits (by decide) d2
    exact hr ▸ (h.tier1 h1).isGreatest_bits (by decide) d1
  by_cases h2 : 0 < l2W ticks
  · have h1 := l1W_pos_of_l2W h2
    simp only [h3, h2, h1, if_true, if_false, Nat.zero_mul, Nat.zero_add,
      Option.some.injEq] at he hr
    have d2 := isGreatest_first (w := bm.l2) (by simpa using he) fun j => h.tier2_lt h2 h3
    have d1 := (h.tier2 h2).isGreatest_bits (by decide) d2
    exact hr ▸ (h.tier1 h1).isGreatest_bits (by decide) d1
  by_cases h1 : 0 < l1W ticks
  · simp only [h3, h2, h1, if_true, if_false, Nat.zero_mul, Nat.zero_add,
      Option.some.injEq] at he hr
    have d1 := isGreatest_first (w := bm.l1) (by simpa using he) fun j => h.tier1_lt h1 h2
    exact hr ▸ (h.tier1 h1).isGreatest_bits (by decide) d1
  · simp only [h3, h2, h1, if_false, Nat.zero_mul, Nat.zero_add, Option.some.injEq] at he hr
    exact hr ▸ isGreatest_first (w := bm.l0) (by simpa using he) fun j => h.base_lt h1

theorem empty_iff (h : bm.Represents S) (ht : ticks ≤ 64 ^ 4) : bm.empty = true ↔ S = ∅ := by
  refine ⟨h.eq_empty ht, fun hS => ?_⟩
  by_contra he
  cases hr : bm.lowestSet with
  | none => exact he (lowestSet_eq_none_iff.mp hr)
  | some r =>
      have := (h.lowestSet_isLeast hr).1
      rw [hS] at this
      exact this

/-! ## Searches -/

theorem getLsbD_highMask (x : BitVec 64) {off k : ℕ} (hk : k < 64) :
    (x &&& highMask off).getLsbD k = (x.getLsbD k && decide (off ≤ k)) := by
  rw [BitVec.getLsbD_and, highMask, BitVec.getLsbD_shiftLeft, BitVec.getLsbD_allOnes]
  by_cases h : off ≤ k
  · have hk' : k - off < 64 := by omega
    simp [h, hk, hk', Nat.not_lt.mpr h]
  · simp [h, Nat.lt_of_not_le h]

theorem getLsbD_lowMaskInclusive (x : BitVec 64) {off k : ℕ} (ho : off < 64) (hk : k < 64) :
    (x &&& lowMaskInclusive off).getLsbD k = (x.getLsbD k && decide (k ≤ off)) := by
  rw [BitVec.getLsbD_and, lowMaskInclusive]
  split_ifs with h
  · have : k ≤ off := by omega
    simp only [BitVec.getLsbD_allOnes, hk, this, decide_true, Bool.and_true]
  · have hpow : (1#64 <<< (off + 1) - 1#64) = BitVec.ofNat 64 (2 ^ (off + 1) - 1) := by
      apply BitVec.eq_of_toNat_eq
      have hlt : 2 ^ (off + 1) < 2 ^ 64 := Nat.pow_lt_pow_right (by decide) (by omega)
      have hpos : 0 < 2 ^ (off + 1) := Nat.two_pow_pos _
      simp only [BitVec.toNat_sub, BitVec.toNat_shiftLeft, BitVec.toNat_ofNat, Nat.shiftLeft_eq]
      omega
    rw [hpow, BitVec.getLsbD_ofNat, Nat.testBit_two_pow_sub_one, decide_eq_true hk,
      Bool.true_and, decide_eq_decide.mpr Nat.lt_succ_iff]

theorem isNext_bound {w : ℕ → BitVec 64} {b start : ℕ} (hw : ∀ i ∈ bits w, i < b)
    (hs : b ≤ start) : IsNext (bits w) start none := fun i hi => (hw i hi).trans_le hs

/-- A search leaves a word only upwards, so each tier's answer is carried back
down by the tier below. -/
theorem nextSetAtOrAfter_isNext (h : bm.Represents S) (ht : ticks ≤ 64 ^ 4) (start : ℕ) :
    IsNext S start (bm.nextSetAtOrAfter start) := by
  have hv : ∀ (w : ℕ → BitVec 64) (p k : ℕ), k < 64 →
      (w (p / 64) &&& highMask (p % 64)).getLsbD k =
        ((w (p / 64)).getLsbD k && decide (p % 64 ≤ k)) := fun w p k hk =>
    getLsbD_highMask (w (p / 64)) hk
  have found : ∀ (w : ℕ → BitVec 64) (p : ℕ), w (p / 64) &&& highMask (p % 64) ≠ 0 →
      IsNext (bits w) p (some (p / 64 * 64 + countrZero (w (p / 64) &&& highMask (p % 64)))) :=
    fun w p hne => isLeast_of_word (by decide) (hv w p) hne
  have hbound : ∀ i ∈ bits bm.l0, i < ticks := fun i hi => h.bound i (h.base ▸ hi)
  rw [← h.base]
  unfold HierBitmap.nextSetAtOrAfter
  by_cases hs : ticks ≤ start
  · rw [if_pos hs]
    exact isNext_bound hbound hs
  rw [if_neg hs]
  extract_lets l0Word l0Off l0Masked l1Pos l1Word l1Off l1Masked l0Idx₁ l2Pos l2Word l2Off
    l2Masked l1Idx₂ l0Idx₂ l3Pos l3Masked l2Idx₃ l1Idx₃ l0Idx₃
  by_cases m0 : l0Masked ≠ 0
  · rw [if_pos m0]
    exact found bm.l0 start m0
  rw [if_neg m0]
  by_cases h1 : 0 < l1W ticks
  swap
  · rw [if_neg h1]
    refine isNext_none (by decide) (hv bm.l0 start) (not_not.mp m0) fun i hi => ?_
    have := h.base_lt h1 hi
    omega
  rw [if_pos h1]
  have climb1 : ∀ r, IsNext (bits bm.l1) l1Pos r →
      IsNext (bits bm.l0) start (r.map fun j => j * 64 + countrZero (bm.l0 j)) := fun r hr =>
    (h.tier1 h1).isNext (by decide) (hv bm.l0 start) (not_not.mp m0) hr
  by_cases p1 : l0W ticks ≤ l1Pos
  · rw [if_pos p1]
    exact climb1 none (isNext_bound (fun j => h.lt_l0W h1) p1)
  rw [if_neg p1]
  by_cases m1 : l1Masked ≠ 0
  · rw [if_pos m1]
    exact climb1 (some _) (found bm.l1 l1Pos m1)
  rw [if_neg m1]
  by_cases h2 : 0 < l2W ticks
  swap
  · rw [if_neg h2]
    refine climb1 none (isNext_none (by decide) (hv bm.l1 l1Pos) (not_not.mp m1) fun i hi => ?_)
    have := h.tier1_lt h1 h2 hi
    omega
  rw [if_pos h2]
  have climb2 : ∀ r, IsNext (bits bm.l2) l2Pos r →
      IsNext (bits bm.l1) l1Pos (r.map fun j => j * 64 + countrZero (bm.l1 j)) := fun r hr =>
    (h.tier2 h2).isNext (by decide) (hv bm.l1 l1Pos) (not_not.mp m1) hr
  by_cases p2 : l1W ticks ≤ l2Pos
  · rw [if_pos p2]
    exact climb1 none (climb2 none (isNext_bound (fun j => h.lt_l1W h2) p2))
  rw [if_neg p2]
  by_cases m2 : l2Masked ≠ 0
  · rw [if_pos m2]
    exact climb1 (some _) (climb2 (some _) (found bm.l2 l2Pos m2))
  rw [if_neg m2]
  by_cases h3 : 0 < l3W ticks
  swap
  · rw [if_neg h3]
    refine climb1 none (climb2 none (isNext_none (by decide) (hv bm.l2 l2Pos)
      (not_not.mp m2) fun i hi => ?_))
    have := h.tier2_lt h2 h3 hi
    omega
  rw [if_pos h3]
  have climb3 : ∀ r, IsNext (bits bm.l3) l3Pos r →
      IsNext (bits bm.l2) l2Pos (r.map fun j => j * 64 + countrZero (bm.l2 j)) := fun r hr =>
    (h.tier3 h3).isNext (by decide) (hv bm.l2 l2Pos) (not_not.mp m2) hr
  by_cases p3 : l2W ticks ≤ l3Pos
  · rw [if_pos p3]
    exact climb1 none (climb2 none (climb3 none (isNext_bound (fun j => h.lt_l2W h3) p3)))
  rw [if_neg p3]
  -- the top tier is one word, so its position is its offset
  have hpos : l3Pos < 64 := by
    have := l2W_le ht
    omega
  have hdiv : l3Pos / 64 = 0 := Nat.div_eq_of_lt hpos
  have hmod : l3Pos % 64 = l3Pos := Nat.mod_eq_of_lt hpos
  have hv3 := hv bm.l3 l3Pos
  have found3 := found bm.l3 l3Pos
  rw [hdiv, hmod] at hv3 found3
  by_cases m3 : l3Masked = 0
  · rw [if_pos m3]
    refine climb1 none (climb2 none (climb3 none (isNext_none (v := l3Masked) (by decide)
      (by rw [hdiv, hmod]; exact hv3) m3 fun i hi => ?_)))
    have := h.tier3_lt ht h3 hi
    omega
  · rw [if_neg m3]
    rw [Nat.zero_mul, Nat.zero_add] at found3
    exact climb1 (some _) (climb2 (some _) (climb3 (some _) (found3 m3)))

/-- Starting at or past the end of the ladder is starting at its last tick. -/
theorem isPrev_clamp (h : bm.Represents S) {start : ℕ} {r : Option ℕ}
    (hr : IsPrev S (if ticks ≤ start then ticks - 1 else start) r) : IsPrev S start r := by
  split_ifs at hr with hs
  · cases r with
    | none =>
        intro i hi
        have := h.bound i hi
        have := hr i hi
        omega
    | some x =>
        refine ⟨⟨hr.1.1, by have := hr.1.2; omega⟩, fun i hi => hr.2 ⟨hi.1, ?_⟩⟩
        have := h.bound i hi.1
        omega
  · exact hr

/-- The mirror of `nextSetAtOrAfter_isNext`. -/
theorem prevSetAtOrBefore_isPrev (h : bm.Represents S) (ht : ticks ≤ 64 ^ 4) (start : ℕ) :
    IsPrev S start (bm.prevSetAtOrBefore start) := by
  have hv : ∀ (w : ℕ → BitVec 64) (p k : ℕ), k < 64 →
      (w (p / 64) &&& lowMaskInclusive (p % 64)).getLsbD k =
        ((w (p / 64)).getLsbD k && decide (k ≤ p % 64)) := fun w p k hk =>
    getLsbD_lowMaskInclusive (w (p / 64)) (Nat.mod_lt p (by decide)) hk
  have found : ∀ (w : ℕ → BitVec 64) (p : ℕ), w (p / 64) &&& lowMaskInclusive (p % 64) ≠ 0 →
      IsPrev (bits w) p
        (some (p / 64 * 64 + (64 - 1 - countlZero (w (p / 64) &&& lowMaskInclusive (p % 64))))) :=
    fun w p hne => isGreatest_of_word (by decide) (hv w p) hne
  unfold HierBitmap.prevSetAtOrBefore
  by_cases he : ticks = 0 ∨ bm.empty = true
  · rw [if_pos he]
    intro i hi
    rcases he with rfl | he
    · exact absurd (h.bound i hi) (Nat.not_lt_zero i)
    · rw [h.eq_empty ht he] at hi
      exact absurd hi (Set.notMem_empty i)
  rw [if_neg he]
  extract_lets start' l0Word l0Off l0Masked l1Pos l1Word l1Off l1Masked l0Idx₁ l2Pos l2Word
    l2Off l2Masked l1Idx₂ l0Idx₂ l3Pos l3Masked l2Idx₃ l1Idx₃ l0Idx₃
  have hstart : start' < ticks := by
    have : ticks ≠ 0 := fun h0 => he (Or.inl h0)
    simp only [start']
    split_ifs <;> omega
  have hword : l0Word < l0W ticks := div_lt_ceildiv hstart
  apply h.isPrev_clamp
  change IsPrev S start' _
  rw [← h.base]
  by_cases m0 : l0Masked ≠ 0
  · rw [if_pos m0]
    exact found bm.l0 start' m0
  rw [if_neg m0]
  by_cases h1 : 0 < l1W ticks
  swap
  · rw [if_neg h1]
    have hone := mt l1W_pos_iff.mpr h1
    exact isPrev_none (by decide) (hv bm.l0 start') (not_not.mp m0)
      (show l0Word = 0 by omega)
  rw [if_pos h1]
  by_cases p1 : l0Word = 0
  · rw [if_pos p1]
    exact isPrev_none (by decide) (hv bm.l0 start') (not_not.mp m0) p1
  rw [if_neg p1]
  have climb1 : ∀ r, IsPrev (bits bm.l1) l1Pos r →
      IsPrev (bits bm.l0) start' (r.map fun j => j * 64 + (64 - 1 - countlZero (bm.l0 j))) :=
    fun r hr => (h.tier1 h1).isPrev (by decide) (hv bm.l0 start') (not_not.mp m0)
      (Nat.pos_of_ne_zero p1) hr
  by_cases m1 : l1Masked ≠ 0
  · rw [if_pos m1]
    exact climb1 (some _) (found bm.l1 l1Pos m1)
  rw [if_neg m1]
  have hword1 : l1Word < l1W ticks := by
    rw [l1W_eq h1]
    exact div_lt_ceildiv (show l1Pos < l0W ticks by omega)
  by_cases h2 : 0 < l2W ticks
  swap
  · rw [if_neg h2]
    have hone := mt l2W_pos_iff.mpr h2
    exact climb1 none (isPrev_none (by decide) (hv bm.l1 l1Pos) (not_not.mp m1)
      (show l1Word = 0 by omega))
  rw [if_pos h2]
  by_cases p2 : l1Word = 0
  · rw [if_pos p2]
    exact climb1 none (isPrev_none (by decide) (hv bm.l1 l1Pos) (not_not.mp m1) p2)
  rw [if_neg p2]
  have climb2 : ∀ r, IsPrev (bits bm.l2) l2Pos r →
      IsPrev (bits bm.l1) l1Pos (r.map fun j => j * 64 + (64 - 1 - countlZero (bm.l1 j))) :=
    fun r hr => (h.tier2 h2).isPrev (by decide) (hv bm.l1 l1Pos) (not_not.mp m1)
      (Nat.pos_of_ne_zero p2) hr
  by_cases m2 : l2Masked ≠ 0
  · rw [if_pos m2]
    exact climb1 (some _) (climb2 (some _) (found bm.l2 l2Pos m2))
  rw [if_neg m2]
  have hword2 : l2Word < l2W ticks := by
    rw [l2W_eq h2]
    exact div_lt_ceildiv (show l2Pos < l1W ticks by omega)
  by_cases h3 : 0 < l3W ticks
  swap
  · rw [if_neg h3]
    have hone := mt l3W_pos_iff.mpr h3
    exact climb1 none (climb2 none (isPrev_none (by decide) (hv bm.l2 l2Pos) (not_not.mp m2)
      (show l2Word = 0 by omega)))
  rw [if_pos h3]
  by_cases p3 : l2Word = 0
  · rw [if_pos p3]
    exact climb1 none (climb2 none
      (isPrev_none (by decide) (hv bm.l2 l2Pos) (not_not.mp m2) p3))
  rw [if_neg p3]
  have climb3 : ∀ r, IsPrev (bits bm.l3) l3Pos r →
      IsPrev (bits bm.l2) l2Pos (r.map fun j => j * 64 + (64 - 1 - countlZero (bm.l2 j))) :=
    fun r hr => (h.tier3 h3).isPrev (by decide) (hv bm.l2 l2Pos) (not_not.mp m2)
      (Nat.pos_of_ne_zero p3) hr
  -- the top tier is one word, so its position is its offset
  have hpos : l3Pos < 64 := by
    have := l2W_le ht
    omega
  have hdiv : l3Pos / 64 = 0 := Nat.div_eq_of_lt hpos
  have hmod : l3Pos % 64 = l3Pos := Nat.mod_eq_of_lt hpos
  have hv3 := hv bm.l3 l3Pos
  have found3 := found bm.l3 l3Pos
  rw [hdiv, hmod] at hv3 found3
  by_cases m3 : l3Masked = 0
  · rw [if_pos m3]
    exact climb1 none (climb2 none (climb3 none (isPrev_none (v := l3Masked) (by decide)
      (by rw [hdiv, hmod]; exact hv3) m3 hdiv)))
  · rw [if_neg m3]
    rw [Nat.zero_mul, Nat.zero_add] at found3
    exact climb1 (some _) (climb2 (some _) (climb3 (some _) (found3 m3)))

end Represents

/-! ## Whole runs -/

/-- The operations that change a bitmap. -/
inductive BitmapOp where
  | set (bit : ℕ)
  | clear (bit : ℕ)
  | clearAll
  deriving DecidableEq, Repr

/-- Bits are addressed below the number of ticks, as the source asserts. -/
def BitmapOp.Within (ticks : ℕ) : BitmapOp → Prop
  | .set b => b < ticks
  | .clear b => b < ticks
  | .clearAll => True

instance (ticks : ℕ) : DecidablePred (BitmapOp.Within ticks) := fun op =>
  match op with
  | .set b => inferInstanceAs (Decidable (b < ticks))
  | .clear b => inferInstanceAs (Decidable (b < ticks))
  | .clearAll => isTrue trivial

/-- What an operation does to the set that a bitmap stands for. -/
def BitmapOp.onSet (S : Set ℕ) : BitmapOp → Set ℕ
  | .set b => insert b S
  | .clear b => S \ {b}
  | .clearAll => ∅

def step (bm : HierBitmap ticks) : BitmapOp → HierBitmap ticks
  | .set b => bm.set b
  | .clear b => bm.clear b
  | .clearAll => bm.clearAll

theorem Represents.step {bm : HierBitmap ticks} {S : Set ℕ} {op : BitmapOp}
    (h : bm.Represents S) (hop : op.Within ticks) :
    (bm.step op).Represents (op.onSet S) := by
  cases op with
  | set b => exact h.set hop
  | clear b => exact h.clear b
  | clearAll => exact clearAll_represents bm

theorem run_represents {ops : List BitmapOp} (hops : ∀ op ∈ ops, op.Within ticks) :
    (ops.foldl HierBitmap.step (new ticks)).Represents (ops.foldl BitmapOp.onSet ∅) := by
  have halong : Along HierBitmap.step (fun _ op => op.Within ticks) (new ticks) ops :=
    along_of_forall hops
  refine halong.lockstep Represents ?_ (new_represents ticks)
  intro bm S op h hop
  exact h.step hop

/-- After any run of updates the bitmap answers as the set it stands for. -/
theorem run_answers_as_set (ticks : ℕ) (ht : ticks ≤ 64 ^ 4) (ops : List BitmapOp)
    (hops : ∀ op ∈ ops, op.Within ticks) :
    let bm := ops.foldl HierBitmap.step (new ticks)
    let S := ops.foldl BitmapOp.onSet ∅
    ((0 < l1W ticks → ∀ j, bit bm.l1 j = true ↔ bm.l0 j ≠ 0#64) ∧
      (0 < l2W ticks → ∀ j, bit bm.l2 j = true ↔ bm.l1 j ≠ 0#64) ∧
      (0 < l3W ticks → ∀ j, bit bm.l3 j = true ↔ bm.l2 j ≠ 0#64)) ∧
    (∀ b, bm.test b = true ↔ b ∈ S) ∧
    (bm.empty = true ↔ S = ∅) ∧
    ((bm.lowestSet = none ↔ S = ∅) ∧ ∀ r, bm.lowestSet = some r → IsLeast S r) ∧
    ((bm.highestSet = none ↔ S = ∅) ∧ ∀ r, bm.highestSet = some r → IsGreatest S r) ∧
    ∀ start, IsNext S start (bm.nextSetAtOrAfter start) ∧
      IsPrev S start (bm.prevSetAtOrBefore start) := by
  intro bm S
  have h : bm.Represents S := run_represents hops
  have hempty := h.empty_iff ht
  exact ⟨⟨h.tier1, h.tier2, h.tier3⟩, h.test_eq, hempty,
    ⟨Represents.lowestSet_eq_none_iff.trans hempty, fun _ => h.lowestSet_isLeast⟩,
    ⟨Represents.highestSet_eq_none_iff.trans hempty, fun _ => h.highestSet_isGreatest ht⟩,
    fun start => ⟨h.nextSetAtOrAfter_isNext ht start, h.prevSetAtOrBefore_isPrev ht start⟩⟩

/-- Four tiers, the last word of the base tier holding a single tick. -/
theorem run_answers_as_set_four_tiers :
    let ops : List BitmapOp := [.set 3, .set (64 ^ 3 + 64), .clear 3, .clear 9]
    let bm := ops.foldl HierBitmap.step (new (64 ^ 3 + 65))
    let S := ops.foldl BitmapOp.onSet ∅
    0 < l3W (64 ^ 3 + 65) ∧ bm.test (64 ^ 3 + 64) = true ∧ bm.test 3 = false ∧
      bm.empty = false ∧ IsNext S 4 (bm.nextSetAtOrAfter 4) := by
  intro ops bm S
  have h := run_answers_as_set (64 ^ 3 + 65) (by decide) ops (by decide)
  have hmem : 64 ^ 3 + 64 ∈ S := by simp [S, ops, BitmapOp.onSet]
  have hgone : 3 ∉ S := by simp [S, ops, BitmapOp.onSet]
  refine ⟨by decide, (h.2.1 _).mpr hmem, ?_, ?_, (h.2.2.2.2.2 4).1⟩
  · exact Bool.eq_false_iff.mpr fun htest => hgone ((h.2.1 3).mp htest)
  · refine Bool.eq_false_iff.mpr fun hempty => ?_
    exact Set.eq_empty_iff_forall_notMem.mp (h.2.2.1.mp hempty) _ hmem

end HierBitmap
end Orderbooks
