import Orderbooks.Hash
import Orderbooks.Lib.Loop
import Orderbooks.Lib.Runs
import Orderbooks.Lib.Probing
import Mathlib.Data.Nat.Bitwise

/-!
# The id index

`id_index.hpp`: an open-addressed hash table from order ids to arena slots. The
largest id marks an empty slot. `insert`, `lookup` and `take` share one probe,
`find`, and differ in what they do where it stops.

`Represents x m` says that the table stores the map `m`. It holds of a new
index for the empty map, and every operation on a table that has room changes
the map as its name says.
-/
namespace Orderbooks
open Loop Probing Runs

/-- The sentinel key of an empty slot, `numeric_limits<order_id_t>::max()`. -/
def emptyKey : UInt64 := 18446744073709551615

structure IndexSlot where
  key : UInt64
  value : Option ℕ

def IndexSlot.empty : IndexSlot := ⟨emptyKey, none⟩

/-- The vector has no elements before `init_storage_`, and nothing reads it then. The hash is
a parameter, so that results about the table do not depend on `splitmix64`, which the source
uses. `assertsHeld` records whether the assertions of `insert` have held so far; no operation
reads it. -/
structure IdIndex (hash : UInt64 → UInt64 := splitmix64) where
  slots : ℕ → IndexSlot := fun _ => .empty
  mask : ℕ
  size : ℕ := 0
  storageInitialised : Bool := false
  assertsHeld : Bool := true

/-- `std::bit_ceil`. -/
def bitCeil (x : ℕ) : ℕ := if x ≤ 1 then 1 else 2 ^ (Nat.log2 (x - 1) + 1)

namespace IdIndex

variable {hash : UInt64 → UInt64}

def defaultCapacity : ℕ := 256

def new (capacityHint : ℕ) : IdIndex hash :=
  let want := if capacityHint = 0 then defaultCapacity else capacityHint
  let cap := bitCeil (want * 2)
  { mask := cap - 1 }

def initStorage (x : IdIndex hash) : IdIndex hash :=
  { x with slots := fun _ => .empty, storageInitialised := true }

def home (x : IdIndex hash) (id : UInt64) : ℕ := (hash id).toNat &&& x.mask

def findTurn (x : IdIndex hash) (id : UInt64) (i : ℕ) : Turn ℕ :=
  if (x.slots i).key = emptyKey ∨ (x.slots i).key = id then .done i
  else .again ((i + 1) &&& x.mask)

/-- Where a probe for `id` stops: at the slot that holds it or at an empty one. -/
def find (x : IdIndex hash) (id : UInt64) : ℕ := run (x.findTurn id) (x.mask + 1) (x.home id)

/-- The two assertions of `insert`. -/
def assertInsert (x : IdIndex hash) (id : UInt64) : IdIndex hash :=
  { x with
    assertsHeld := x.assertsHeld && decide (id ≠ emptyKey) && decide (x.size < (x.mask + 1) / 2) }

def insert (x : IdIndex hash) (id : UInt64) (p : ℕ) : IdIndex hash :=
  let x := x.assertInsert id
  let x := if x.storageInitialised then x else x.initStorage
  let i := x.find id
  if (x.slots i).key = emptyKey then
    { x with slots := Function.update x.slots i ⟨id, some p⟩, size := x.size + 1 }
  else if (x.slots i).key = id then
    { x with slots := Function.update x.slots i ⟨id, some p⟩ }
  else x

def lookup (x : IdIndex hash) (id : UInt64) : Option ℕ :=
  if x.storageInitialised then
    let s := x.slots (x.find id)
    if s.key = id then s.value else none
  else none

/-- The slots, the hole and the scan position of `shift_back_from_`. -/
structure Shift where
  slots : ℕ → IndexSlot
  hole : ℕ
  j : ℕ

/-- Subtraction wraps in the source; adding the ring size first keeps it in `ℕ`. -/
def shiftTurn (x : IdIndex hash) (c : Shift) : Turn Shift :=
  let k := (c.slots c.j).key
  if k = emptyKey then .done { c with slots := Function.update c.slots c.hole .empty }
  else
    let holeDist := (c.hole + (x.mask + 1) - x.home k) &&& x.mask
    let jDist := (c.j + (x.mask + 1) - x.home k) &&& x.mask
    if holeDist < jDist then
      .again ⟨Function.update c.slots c.hole (c.slots c.j), c.j, (c.j + 1) &&& x.mask⟩
    else .again { c with j := (c.j + 1) &&& x.mask }

def shiftBackFrom (x : IdIndex hash) (hole : ℕ) : IdIndex hash :=
  { x with slots :=
      (run x.shiftTurn (x.mask + 1) ⟨x.slots, hole, (hole + 1) &&& x.mask⟩).slots }

def take (x : IdIndex hash) (id : UInt64) : Option ℕ × IdIndex hash :=
  if x.storageInitialised then
    let i := x.find id
    let s := x.slots i
    if s.key = id then
      (s.value, { x.shiftBackFrom i with size := x.size - 1 })
    else (none, x)
  else (none, x)

def erase (x : IdIndex hash) (id : UInt64) : IdIndex hash := (x.take id).2

def clear (x : IdIndex hash) : IdIndex hash :=
  { x with
    slots := if x.storageInitialised then fun _ => .empty else x.slots
    size := 0 }

/-! ## The map an index stores -/

/-- The slots as entries of a probing table. -/
def entries (slots : ℕ → IndexSlot) (i : ℕ) : Option (UInt64 × Option ℕ) :=
  if (slots i).key = emptyKey then none else some ((slots i).key, (slots i).value)

/-- The map with its pointers as the slots hold them. -/
def stored (m : UInt64 → Option ℕ) (k : UInt64) : Option (Option ℕ) := (m k).map some

structure Represents (x : IdIndex hash) (m : UInt64 → Option ℕ) : Prop where
  ring : ∃ b, x.mask + 1 = 2 ^ b
  table : x.storageInitialised = true → Table (x.mask + 1) x.home (entries x.slots) (stored m)
  unused : x.storageInitialised = false → ∀ k, m k = none
  sized : Sized m x.size

variable {x : IdIndex hash} {m : UInt64 → Option ℕ} {id : UInt64} {p : ℕ}

theorem le_bitCeil (n : ℕ) : n ≤ bitCeil n := by
  unfold bitCeil
  split_ifs with h
  · exact h
  · have := Nat.lt_log2_self (n := n - 1)
    omega

theorem bitCeil_le {n b : ℕ} (h : n ≤ 2 ^ b) : bitCeil n ≤ 2 ^ b := by
  unfold bitCeil
  split_ifs with hn
  · exact Nat.one_le_two_pow
  · refine Nat.pow_le_pow_right (by decide) ?_
    exact (Nat.log2_lt (by omega)).mpr (by omega)

theorem bitCeil_eq_two_pow (n : ℕ) : ∃ b, bitCeil n = 2 ^ b := by
  unfold bitCeil
  split_ifs
  · exact ⟨0, rfl⟩
  · exact ⟨_, rfl⟩

theorem bitCeil_pos (n : ℕ) : 0 < bitCeil n := by
  obtain ⟨b, hb⟩ := bitCeil_eq_two_pow n
  rw [hb]
  exact Nat.two_pow_pos b

theorem new_mask (n : ℕ) (hn : n ≠ 0) : (new n : IdIndex hash).mask + 1 = bitCeil (n * 2) := by
  have := bitCeil_pos (n * 2)
  simp only [new, hn, if_false]
  omega

/-- The slots of an index can be counted, and their positions added, in a machine word. -/
theorem new_mask_le {hint : ℕ} (h : hint < 2 ^ 62) :
    (new hint : IdIndex hash).mask + 1 ≤ 2 ^ 63 := by
  have hpos := bitCeil_pos ((if hint = 0 then defaultCapacity else hint) * 2)
  have hle : bitCeil ((if hint = 0 then defaultCapacity else hint) * 2) ≤ 2 ^ 63 :=
    bitCeil_le (by unfold defaultCapacity; split_ifs <;> omega)
  simp only [new]
  omega

theorem new_represents (n : ℕ) : (new n : IdIndex hash).Represents fun _ => none where
  ring := by
    simp only [new]
    obtain ⟨b, hb⟩ := bitCeil_eq_two_pow ((if n = 0 then defaultCapacity else n) * 2)
    refine ⟨b, ?_⟩
    rw [hb]
    have := Nat.two_pow_pos b
    omega
  table h := by simp [new] at h
  unused _ _ := rfl
  sized := Sized.empty

/-! ## Masks and distances -/

section Ring

variable {mask b i h c : ℕ}

theorem and_mask (hr : mask + 1 = 2 ^ b) (a : ℕ) : a &&& mask = a % (mask + 1) := by
  rw [hr, show mask = 2 ^ b - 1 by omega, Nat.and_two_pow_sub_one_eq_mod]

theorem and_mask_lt (hr : mask + 1 = 2 ^ b) (a : ℕ) : a &&& mask < mask + 1 := by
  rw [and_mask hr]
  exact Nat.mod_lt a (by omega)

theorem succ_and_mask (hr : mask + 1 = 2 ^ b) (hi : i < mask + 1) :
    (i + 1) &&& mask = next (mask + 1) i := by
  rw [and_mask hr]
  unfold next
  split_ifs with hlt
  · exact Nat.mod_eq_of_lt hlt
  · rw [show i + 1 = mask + 1 by omega, Nat.mod_self]

theorem sub_and_mask (hr : mask + 1 = 2 ^ b) (hc : c < mask + 1) (hh : h < mask + 1) :
    (h + (mask + 1) - c) &&& mask = offset (mask + 1) c h := by
  rw [and_mask hr]
  unfold offset
  split_ifs with hle
  · rw [show h + (mask + 1) - c = (h - c) + (mask + 1) by omega, Nat.add_mod_right]
    exact Nat.mod_eq_of_lt (by omega)
  · exact Nat.mod_eq_of_lt (by omega)

end Ring

theorem Represents.home_lt (h : x.Represents m) (id : UInt64) : x.home id < x.mask + 1 := by
  obtain ⟨b, hb⟩ := h.ring
  exact and_mask_lt hb _

theorem Represents.exists_empty (h : x.Represents m) (hi : x.storageInitialised = true)
    (room : x.size < x.mask + 1) : ∃ z < x.mask + 1, entries x.slots z = none := by
  refine (h.table hi).exists_empty (s := x.size) ?_ room
  obtain ⟨S, hcard, hS⟩ := h.sized
  exact ⟨S, hcard, fun k => by simp [hS, stored]⟩

theorem stored_update (k : UInt64) (v : Option ℕ) :
    stored (Function.update m k v) = Function.update (stored m) k (v.map some) := by
  funext q
  by_cases hq : q = k
  · simp [hq, stored]
  · simp [hq, stored]

theorem entries_eq_none {slots : ℕ → IndexSlot} {i : ℕ} :
    entries slots i = none ↔ (slots i).key = emptyKey := by
  simp [entries]

theorem entries_of_ne {v : ℕ → IndexSlot} {i : ℕ} (h : (v i).key ≠ emptyKey) :
    entries v i = some ((v i).key, (v i).value) := by
  simp [entries, h]

theorem entries_update (slots : ℕ → IndexSlot) (i : ℕ) (s : IndexSlot) :
    entries (Function.update slots i s) =
      Function.update (entries slots) i
        (if s.key = emptyKey then none else some (s.key, s.value)) := by
  funext j
  by_cases hj : j = i
  · simp [hj, entries]
  · simp [hj, entries]

/-! ## The probe -/

/-- A turn of a probe that does not stop comes closer to any empty slot. -/
theorem Represents.findTurn_again (h : x.Represents m) {z i i' : ℕ} (hz : z < x.mask + 1)
    (hez : entries x.slots z = none) (hp : Passed (x.mask + 1) x.home (entries x.slots) id i)
    (ht : x.findTurn id i = .again i') :
    Passed (x.mask + 1) x.home (entries x.slots) id i' ∧
      offset (x.mask + 1) i' z < offset (x.mask + 1) i z := by
  obtain ⟨b, hb⟩ := h.ring
  unfold findTurn at ht
  split_ifs at ht with hstop
  push Not at hstop
  simp only [Turn.again.injEq] at ht
  rw [← ht, succ_and_mask hb hp.lt]
  exact hp.advance (h.home_lt id) hz hez (entries_of_ne hstop.1) hstop.2

/-- A probe in a table with room stops. -/
theorem Represents.find_exits (h : x.Represents m) (hi : x.storageInitialised = true)
    (room : x.size < x.mask + 1) (id : UInt64) :
    Exits (x.findTurn id) (x.mask + 1) (x.home id) := by
  obtain ⟨z, hz, hez⟩ := h.exists_empty hi room
  refine exits_of_variant (fun i => Passed (x.mask + 1) x.home (entries x.slots) id i)
    (fun i => offset (x.mask + 1) i z) (fun _ _ => h.findTurn_again hz hez) _ _
    (Passed.start (h.home_lt id)) ?_
  exact offset_lt (h.home_lt id) hz

/-- Where a probe stops it has decided whether the id is present. -/
theorem Represents.find_spec (h : x.Represents m) (hi : x.storageInitialised = true)
    (room : x.size < x.mask + 1) :
    Passed (x.mask + 1) x.home (entries x.slots) id (x.find id) ∧
      ((x.slots (x.find id)).key = emptyKey ∨ (x.slots (x.find id)).key = id) := by
  obtain ⟨z, hz, hez⟩ := h.exists_empty hi room
  refine run_spec (f := x.findTurn id)
    (fun i => Passed (x.mask + 1) x.home (entries x.slots) id i)
    (fun i => Passed (x.mask + 1) x.home (entries x.slots) id i ∧
      ((x.slots i).key = emptyKey ∨ (x.slots i).key = id))
    (fun i => offset (x.mask + 1) i z) (fun _ _ => h.findTurn_again hz hez) ?_ _ _
    (Passed.start (h.home_lt id)) (offset_lt (h.home_lt id) hz)
  intro i i' hp ht
  unfold findTurn at ht
  split_ifs at ht with hstop
  simp only [Turn.done.injEq] at ht
  rw [← ht]
  exact ⟨hp, hstop⟩

theorem Represents.find_present (h : x.Represents m) (hi : x.storageInitialised = true)
    (hid : id ≠ emptyKey) (hlt : x.find id < x.mask + 1)
    (hkey : (x.slots (x.find id)).key = id) :
    m id ≠ none ∧ m id = (x.slots (x.find id)).value := by
  have he := entries_of_ne (v := x.slots) (i := x.find id) (by rw [hkey]; exact hid)
  rw [hkey] at he
  have := ((h.table hi).holds id _).mpr ⟨_, hlt, he⟩
  unfold stored at this
  obtain ⟨p, hp, hv⟩ := Option.map_eq_some_iff.mp this
  rw [hp, ← hv]
  simp

theorem Represents.lookup_eq (h : x.Represents m) (room : x.size < x.mask + 1)
    (hid : id ≠ emptyKey) : x.lookup id = m id := by
  unfold lookup
  split_ifs with hi
  · obtain ⟨hp, hkey⟩ := h.find_spec hi room
    simp only
    split_ifs with heq
    · exact (h.find_present hi hid hp.lt heq).2.symm
    · have hempty : entries x.slots (x.find id) = none :=
        entries_eq_none.mpr (hkey.resolve_right heq)
      have := hp.absent (h.table hi) (h.home_lt id) hempty
      simp only [stored, Option.map_eq_none_iff] at this
      exact this.symm
  · exact (h.unused (by simpa using hi) id).symm

/-! ## Insertion -/

theorem Represents.init (h : x.Represents m) :
    let y := if x.storageInitialised then x else x.initStorage
    y.Represents m ∧ y.storageInitialised = true ∧ y.size = x.size ∧ y.mask = x.mask := by
  intro y
  cases hi : x.storageInitialised with
  | true =>
      have hy : y = x := by simp [y, hi]
      rw [hy]
      exact ⟨h, hi, rfl, rfl⟩
  | false =>
      have hy : y = x.initStorage := by simp [y, hi]
      have hm : m = fun _ => none := funext (h.unused hi)
      rw [hy]
      refine ⟨⟨h.ring, fun _ => ?_, fun hu => ?_, h.sized⟩, rfl, rfl, rfl⟩
      · have : entries x.initStorage.slots = fun _ => none := by
          funext i
          simp [entries, initStorage, IndexSlot.empty]
        rw [this, hm]
        exact Table.empty
      · simp [initStorage] at hu

theorem Represents.assertInsert (h : x.Represents m) (id : UInt64) :
    (x.assertInsert id).Represents m := ⟨h.ring, h.table, h.unused, h.sized⟩

theorem Represents.insert (h : x.Represents m) (room : x.size < x.mask + 1)
    (hid : id ≠ emptyKey) (p : ℕ) :
    (x.insert id p).Represents (Function.update m id (some p)) := by
  obtain ⟨hy, hi, hsize, hmask⟩ := (h.assertInsert id).init
  dsimp only [IdIndex.insert]
  generalize (if (x.assertInsert id).storageInitialised = true then x.assertInsert id
    else (x.assertInsert id).initStorage) = y at hy hi hsize hmask
  have room' : y.size < y.mask + 1 := by
    rw [hsize, hmask]
    exact room
  obtain ⟨hp, hkey⟩ := hy.find_spec hi room'
  have hset : entries (Function.update y.slots (y.find id) ⟨id, some p⟩) =
      Function.update (entries y.slots) (y.find id) (some (id, some p)) := by
    rw [entries_update, if_neg hid]
  split_ifs with hempty hpresent
  · have he := entries_eq_none.mpr hempty
    refine ⟨hy.ring, fun _ => ?_, fun hu => by simp [hi] at hu, hy.sized.insert ?_⟩
    · rw [hset, stored_update]
      exact hp.insert (hy.table hi) (hy.home_lt id) he (some p)
    · simpa [stored] using hp.absent (hy.table hi) (hy.home_lt id) he
  · have he := entries_of_ne (v := y.slots) (i := y.find id) hempty
    rw [hpresent] at he
    refine ⟨hy.ring, fun _ => ?_, fun hu => by simp [hi] at hu, hy.sized.overwrite ?_⟩
    · rw [hset, stored_update]
      exact (hy.table hi).overwrite hp.lt he (some p)
    · exact (hy.find_present hi hid hp.lt hpresent).1
  · exact absurd hkey (by simp [hempty, hpresent])

@[simp] theorem insert_mask (x : IdIndex hash) (id : UInt64) (p : ℕ) :
    (x.insert id p).mask = x.mask := by
  unfold IdIndex.insert initStorage assertInsert
  cases x.storageInitialised <;> simp only <;> split_ifs <;> rfl

theorem insert_assertsHeld (x : IdIndex hash) (id : UInt64) (p : ℕ) :
    (x.insert id p).assertsHeld = (x.assertInsert id).assertsHeld := by
  unfold IdIndex.insert initStorage
  cases x.storageInitialised <;> simp only <;> split_ifs <;> rfl

/-! ## Removal -/

/-- A turn of the backward shift that does not stop keeps the gap and moves the scan closer
to any empty slot. -/
theorem Represents.shiftTurn_again (h : x.Represents m) {n : UInt64 → Option (Option ℕ)} {z : ℕ}
    {c c' : Shift} (g : Gap (x.mask + 1) x.home (entries c.slots) n c.hole c.j z)
    (ht : x.shiftTurn c = .again c') :
    Gap (x.mask + 1) x.home (entries c'.slots) n c'.hole c'.j z ∧
      offset (x.mask + 1) c'.j z < offset (x.mask + 1) c.j z := by
  obtain ⟨b, hb⟩ := h.ring
  obtain ⟨slots, hole, j⟩ := c
  dsimp only at g
  simp only [shiftTurn] at ht
  split_ifs at ht with hempty hd
  all_goals
    simp only [Turn.again.injEq] at ht
    have hj := entries_of_ne hempty
    rw [sub_and_mask hb (h.home_lt _) g.hole, sub_and_mask hb (h.home_lt _) g.scan] at hd
    rw [← ht]
    refine ⟨?_, ?_⟩
  · rw [succ_and_mask hb g.scan, entries_update, if_neg hempty, ← hj]
    exact g.move hj hd
  · rw [succ_and_mask hb g.scan]
    exact g.closer (by simp [hj])
  · rw [succ_and_mask hb g.scan]
    exact g.skip hj hd
  · rw [succ_and_mask hb g.scan]
    exact g.closer (by simp [hj])

section Shift

variable (h : x.Represents m) (hi : x.storageInitialised = true) (room : x.size < x.mask + 1)
  {i : ℕ} {v : Option ℕ} (hlt : i < x.mask + 1) (he : entries x.slots i = some (id, v))
include h hi room hlt he

/-- The shift starts with a gap where the key was, short of some empty slot. -/
theorem Represents.shift_start : ∃ z < x.mask + 1,
    Gap (x.mask + 1) x.home (entries x.slots) (Function.update (stored m) id none) i
      ((i + 1) &&& x.mask) z := by
  obtain ⟨b, hb⟩ := h.ring
  obtain ⟨z, hz, hez⟩ := h.exists_empty hi room
  refine ⟨z, hz, ?_⟩
  rw [succ_and_mask hb hlt]
  exact Gap.start (h.table hi) hlt he hz hez

theorem Represents.shift_exits :
    Exits x.shiftTurn (x.mask + 1) ⟨x.slots, i, (i + 1) &&& x.mask⟩ := by
  obtain ⟨b, hb⟩ := h.ring
  obtain ⟨z, hz, hgap⟩ := h.shift_start hi room hlt he
  exact exits_of_variant (fun c : Shift => Gap (x.mask + 1) x.home (entries c.slots)
      (Function.update (stored m) id none) c.hole c.j z)
    (fun c => offset (x.mask + 1) c.j z) (fun _ _ => h.shiftTurn_again) _ _ hgap
    (offset_lt (and_mask_lt hb (i + 1)) hz)

/-- Backward shift from the slot of a key stores the map without that key. -/
theorem Represents.shiftBackFrom :
    Table (x.mask + 1) x.home (entries (x.shiftBackFrom i).slots)
      (Function.update (stored m) id none) := by
  obtain ⟨b, hb⟩ := h.ring
  obtain ⟨z, hz, hgap⟩ := h.shift_start hi room hlt he
  refine run_spec (f := x.shiftTurn)
    (fun c => Gap (x.mask + 1) x.home (entries c.slots) (Function.update (stored m) id none)
      c.hole c.j z)
    (fun c => Table (x.mask + 1) x.home (entries c.slots) (Function.update (stored m) id none))
    (fun c => offset (x.mask + 1) c.j z) (fun _ _ => h.shiftTurn_again) ?_ _ _ hgap
    (offset_lt (and_mask_lt hb (i + 1)) hz)
  rintro ⟨slots, hole, j⟩ c' g ht
  dsimp only at g
  simp only [shiftTurn] at ht
  split_ifs at ht with hempty hd
  simp only [Turn.done.injEq] at ht
  rw [← ht, entries_update]
  simpa [IndexSlot.empty] using g.finish h.home_lt (entries_eq_none.mpr hempty)

end Shift

theorem Represents.take_spec (h : x.Represents m) (room : x.size < x.mask + 1)
    (hid : id ≠ emptyKey) :
    (x.take id).1 = m id ∧ (x.take id).2.Represents (Function.update m id none) := by
  unfold take
  split_ifs with hi
  · obtain ⟨hp, hkey⟩ := h.find_spec hi room
    simp only
    split_ifs with heq
    · obtain ⟨hne, hval⟩ := h.find_present hi hid hp.lt heq
      have he := entries_of_ne (v := x.slots) (i := x.find id) (by rw [heq]; exact hid)
      rw [heq] at he
      refine ⟨hval.symm, h.ring, fun _ => ?_, fun hu => ?_, h.sized.erase hne⟩
      · rw [stored_update]
        exact h.shiftBackFrom hi room hp.lt he
      · simp [IdIndex.shiftBackFrom, hi] at hu
    · have hempty : entries x.slots (x.find id) = none :=
        entries_eq_none.mpr (hkey.resolve_right heq)
      have habs : m id = none := by
        simpa [stored] using hp.absent (h.table hi) (h.home_lt id) hempty
      rw [Function.update_eq_self_iff.mpr habs.symm]
      exact ⟨habs.symm, h⟩
  · have habs := h.unused (by simpa using hi) id
    rw [Function.update_eq_self_iff.mpr habs.symm]
    exact ⟨habs.symm, h⟩

theorem Represents.erase (h : x.Represents m) (room : x.size < x.mask + 1)
    (hid : id ≠ emptyKey) : (x.erase id).Represents (Function.update m id none) :=
  (h.take_spec room hid).2

theorem Represents.clear (h : x.Represents m) : x.clear.Represents fun _ => none where
  ring := h.ring
  table hi := by
    have hi : x.storageInitialised = true := hi
    have : entries x.clear.slots = fun _ => none := by
      funext i
      simp [entries, IdIndex.clear, IndexSlot.empty, hi]
    rw [this]
    exact Table.empty
  unused _ _ := rfl
  sized := Sized.empty

@[simp] theorem take_mask (x : IdIndex hash) (id : UInt64) : (x.take id).2.mask = x.mask := by
  unfold take IdIndex.shiftBackFrom
  split_ifs <;> simp only
  split_ifs <;> rfl

@[simp] theorem take_assertsHeld (x : IdIndex hash) (id : UInt64) :
    (x.take id).2.assertsHeld = x.assertsHeld := by
  unfold take IdIndex.shiftBackFrom
  split_ifs <;> simp only
  split_ifs <;> rfl

@[simp] theorem erase_mask (x : IdIndex hash) (id : UInt64) : (x.erase id).mask = x.mask :=
  take_mask x id

theorem insert_size_le (x : IdIndex hash) (id : UInt64) (p : ℕ) :
    (x.insert id p).size ≤ x.size + 1 := by
  unfold IdIndex.insert initStorage assertInsert
  cases x.storageInitialised <;> simp only <;> split_ifs <;> simp

theorem take_size_le (x : IdIndex hash) (id : UInt64) : (x.take id).2.size ≤ x.size := by
  unfold take IdIndex.shiftBackFrom
  split_ifs <;> simp only
  · split_ifs <;> simp
  · exact le_refl _

/-! ## Whole runs

Beside the index runs the map it stores: a function from ids, with an entry for finitely
many of them. Both answer every call. -/

inductive IndexOp where
  | insert (id : UInt64) (p : ℕ)
  | lookup (id : UInt64)
  | take (id : UInt64)
  | erase (id : UInt64)
  | clear
  deriving DecidableEq, Repr

/-- What a call answers, and the map it leaves. -/
def IndexOp.onMap (m : UInt64 → Option ℕ) : IndexOp → Option ℕ × (UInt64 → Option ℕ)
  | .insert id p => (none, Function.update m id (some p))
  | .lookup id => (m id, m)
  | .take id => (m id, Function.update m id none)
  | .erase id => (none, Function.update m id none)
  | .clear => (none, fun _ => none)

def call (x : IdIndex hash) : IndexOp → Option ℕ × IdIndex hash
  | .insert id p => (none, x.insert id p)
  | .lookup id => (x.lookup id, x)
  | .take id => x.take id
  | .erase id => (none, x.erase id)
  | .clear => (none, x.clear)

/-- The sentinel is not an id, and an insert finds the table less than half full. -/
def Admits (x : IdIndex hash) : IndexOp → Prop
  | .insert id _ => id ≠ emptyKey ∧ x.size < (x.mask + 1) / 2
  | .lookup id => id ≠ emptyKey
  | .take id => id ≠ emptyKey
  | .erase id => id ≠ emptyKey
  | .clear => True

instance (x : IdIndex hash) : DecidablePred x.Admits := fun op =>
  match op with
  | .insert id _ => inferInstanceAs (Decidable (id ≠ emptyKey ∧ x.size < (x.mask + 1) / 2))
  | .lookup id => inferInstanceAs (Decidable (id ≠ emptyKey))
  | .take id => inferInstanceAs (Decidable (id ≠ emptyKey))
  | .erase id => inferInstanceAs (Decidable (id ≠ emptyKey))
  | .clear => isTrue trivial

/-- The probe loop for `id` ends. -/
def ProbeEnds (x : IdIndex hash) (id : UInt64) : Prop :=
  Exits (x.findTurn id) (x.mask + 1) (x.home id)

/-- The loop of `shift_back_from_` ends. -/
def ShiftEnds (x : IdIndex hash) (hole : ℕ) : Prop :=
  Exits x.shiftTurn (x.mask + 1) ⟨x.slots, hole, (hole + 1) &&& x.mask⟩

/-- Every loop that a removal enters ends. -/
def RemovalEnds (x : IdIndex hash) (id : UInt64) : Prop :=
  x.storageInitialised = true →
    x.ProbeEnds id ∧ ((x.slots (x.find id)).key = id → x.ShiftEnds (x.find id))

/-- Every loop that a call enters ends. -/
def Ends (x : IdIndex hash) : IndexOp → Prop
  | .insert id _ => (if x.storageInitialised then x else x.initStorage).ProbeEnds id
  | .lookup id => x.storageInitialised = true → x.ProbeEnds id
  | .take id => x.RemovalEnds id
  | .erase id => x.RemovalEnds id
  | .clear => True

/-- An index that stores `m` and is at most half full. -/
structure Running (x : IdIndex hash) (m : UInt64 → Option ℕ) : Prop where
  stores : x.Represents m
  load : x.size ≤ (x.mask + 1) / 2

theorem Running.room (h : x.Running m) : x.size < x.mask + 1 := by
  have := h.load
  omega

theorem Running.removalEnds (h : x.Running m) (hid : id ≠ emptyKey) : x.RemovalEnds id := by
  intro hi
  refine ⟨h.stores.find_exits hi h.room id, fun hkey => ?_⟩
  have hlt : x.find id < x.mask + 1 := (h.stores.find_spec hi h.room).1.lt
  have he := entries_of_ne (v := x.slots) (i := x.find id) (by rw [hkey]; exact hid)
  exact h.stores.shift_exits hi h.room hlt he

theorem Running.ends {op : IndexOp} (h : x.Running m) (hop : x.Admits op) : x.Ends op := by
  cases op with
  | insert id p =>
      obtain ⟨hy, hi, hsize, hmask⟩ := h.stores.init
      refine hy.find_exits hi ?_ id
      rw [hsize, hmask]
      exact h.room
  | lookup id => exact fun hi => h.stores.find_exits hi h.room id
  | take id => exact h.removalEnds hop
  | erase id => exact h.removalEnds hop
  | clear => trivial

/-- One call: the index answers as the map does, and goes on storing it. -/
theorem Running.call {op : IndexOp} (h : x.Running m) (hop : x.Admits op) :
    (x.call op).1 = (op.onMap m).1 ∧ (x.call op).2.Running (op.onMap m).2 := by
  have hload := h.load
  cases op with
  | insert id p =>
      refine ⟨rfl, h.stores.insert h.room hop.1 p, ?_⟩
      have hsize := insert_size_le x id p
      have hlt := hop.2
      simp only [IdIndex.call, insert_mask]
      omega
  | lookup id => exact ⟨h.stores.lookup_eq h.room hop, h⟩
  | take id =>
      obtain ⟨hval, hrep⟩ := h.stores.take_spec h.room hop
      refine ⟨hval, hrep, ?_⟩
      have hsize := take_size_le x id
      simp only [IdIndex.call, take_mask]
      omega
  | erase id =>
      refine ⟨rfl, h.stores.erase h.room hop, ?_⟩
      have hsize := take_size_le x id
      simp only [IdIndex.call, IdIndex.erase, take_mask]
      omega
  | clear => exact ⟨rfl, h.stores.clear, Nat.zero_le _⟩

theorem new_running (n : ℕ) : (new n : IdIndex hash).Running fun _ => none :=
  ⟨new_represents n, Nat.zero_le _⟩

theorem call_mask (x : IdIndex hash) (op : IndexOp) : (x.call op).2.mask = x.mask := by
  cases op with
  | insert id p => exact insert_mask x id p
  | lookup id => rfl
  | take id => exact take_mask x id
  | erase id => exact erase_mask x id
  | clear => rfl

theorem final_mask (x : IdIndex hash) (ops : List IndexOp) : (final call x ops).mask = x.mask := by
  induction ops generalizing x with
  | nil => rfl
  | cons op ops ih => exact (ih _).trans (call_mask x op)

/-- The assertions of `insert`, asked of a call. -/
def Asserted (x : IdIndex hash) : IndexOp → Prop
  | .insert id _ => id ≠ emptyKey ∧ x.size < (x.mask + 1) / 2
  | .lookup _ => True
  | .take _ => True
  | .erase _ => True
  | .clear => True

theorem call_assertsHeld (x : IdIndex hash) (op : IndexOp) :
    (x.call op).2.assertsHeld = true ↔ x.assertsHeld = true ∧ x.Asserted op := by
  cases op with
  | insert id p =>
      simp [IdIndex.call, insert_assertsHeld, IdIndex.assertInsert, Asserted, and_assoc]
  | lookup id => exact (and_iff_left trivial).symm
  | take id =>
      rw [IdIndex.call, take_assertsHeld]
      exact (and_iff_left trivial).symm
  | erase id =>
      rw [IdIndex.call, IdIndex.erase, take_assertsHeld]
      exact (and_iff_left trivial).symm
  | clear => exact (and_iff_left trivial).symm

/-- What the record says: every insert of the run found its assertions true. -/
theorem final_assertsHeld (x : IdIndex hash) (ops : List IndexOp) :
    (final IdIndex.call x ops).assertsHeld = true ↔
      x.assertsHeld = true ∧ Along (fun x op => (IdIndex.call x op).2) Asserted x ops := by
  induction ops generalizing x with
  | nil => exact (and_iff_left trivial).symm
  | cons op ops ih =>
      change (final IdIndex.call (x.call op).2 ops).assertsHeld = true ↔ _
      rw [ih, call_assertsHeld, and_assoc]
      rfl

section Run

variable {ops : List IndexOp} {hint : ℕ}
  (hops : Along (fun x op => (IdIndex.call x op).2) Admits (new hint : IdIndex hash) ops)
include hops

theorem run_answers :
    answers IdIndex.call (new hint : IdIndex hash) ops =
        answers IndexOp.onMap (fun _ => none) ops ∧
      (final IdIndex.call (new hint : IdIndex hash) ops).Running
        (final IndexOp.onMap (fun _ => none) ops) := by
  refine hops.answers_eq Running ?_ (new_running hint)
  intro x m op h hop
  exact h.call hop

theorem run_ends :
    Along (fun x op => (IdIndex.call x op).2) Ends (new hint : IdIndex hash) ops :=
  hops.of_invariant (fun x => ∃ m, x.Running m)
    (fun _ _ ⟨_, h⟩ hop => ⟨⟨_, (h.call hop).2⟩, h.ends hop⟩) ⟨_, new_running hint⟩

end Run

end IdIndex
end Orderbooks
