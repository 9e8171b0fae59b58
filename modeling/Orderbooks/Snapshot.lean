import Orderbooks.Engine
import Orderbooks.Lib.LittleEndian

/-!
# Snapshots

`snapshot.hpp`, and `snapshot` and `restore` of `engine.hpp`. A blob is a header
and a record per resting order, bids before asks, ascending in price, first come
first. What is read is a byte string with a cursor, here the bytes that are left.

A structure goes into the blob as it lies in memory: each field little-endian at
its offset. The padding that is declared as a member is zero. The four bytes that
fill a record up to 32 belong to no member, and `rec{}` is an aggregate
initialisation, which leaves them indeterminate: what they are is an argument of
whatever writes a record. Reading ignores them.
-/
namespace Orderbooks
open Loop LittleEndian

/-! ## Enumerators as bytes -/

def Side.code : Side → UInt8
  | .bid => 0
  | .ask => 1

/-- The cast of a byte that is known to be an enumerator. -/
def Side.ofCode (c : UInt8) : Side := if c = 0 then .bid else .ask

def Tif.code : Tif → UInt8
  | .gtc => 0
  | .ioc => 1
  | .fok => 2

def Tif.ofCode (c : UInt8) : Tif := if c = 0 then .gtc else if c = 1 then .ioc else .fok

def SelfCrossPolicy.code : SelfCrossPolicy → UInt8
  | .cancelNewest => 0
  | .cancelOldest => 1
  | .decrementTrade => 2

def SelfCrossPolicy.ofCode (c : UInt8) : SelfCrossPolicy :=
  if c = 0 then .cancelNewest else if c = 1 then .cancelOldest else .decrementTrade

@[simp] theorem Side.ofCode_code (s : Side) : Side.ofCode s.code = s := by
  cases s <;> rfl

@[simp] theorem Tif.ofCode_code (t : Tif) : Tif.ofCode t.code = t := by
  cases t <;> rfl

@[simp] theorem SelfCrossPolicy.ofCode_code (c : SelfCrossPolicy) :
    SelfCrossPolicy.ofCode c.code = c := by
  cases c <;> rfl

theorem Side.code_ofCode {c : UInt8} (h : c ≤ Side.ask.code) : (Side.ofCode c).code = c := by
  unfold ofCode
  split_ifs with h0
  · exact h0.symm
  · have hle : c.toNat ≤ 1 := UInt8.le_iff_toNat_le.mp h
    have hne : c.toNat ≠ 0 := fun hz => h0 (UInt8.toNat_inj.mp hz)
    have hone : c.toNat = 1 := by omega
    exact (UInt8.toNat_inj.mp hone).symm

theorem Tif.eq_gtc_code {c : UInt8} (h : Tif.ofCode c = .gtc) : c = Tif.gtc.code := by
  unfold ofCode at h
  split_ifs at h with h0
  exact h0

theorem SelfCrossPolicy.code_ofCode {c : UInt8} (h : c ≤ SelfCrossPolicy.decrementTrade.code) :
    (SelfCrossPolicy.ofCode c).code = c := by
  unfold ofCode
  split_ifs with h0 h1
  · exact h0.symm
  · exact h1.symm
  · have hle : c.toNat ≤ 2 := UInt8.le_iff_toNat_le.mp h
    have hne₀ : c.toNat ≠ 0 := fun hz => h0 (UInt8.toNat_inj.mp hz)
    have hne₁ : c.toNat ≠ 1 := fun hz => h1 (UInt8.toNat_inj.mp hz)
    have htwo : c.toNat = 2 := by omega
    exact (UInt8.toNat_inj.mp htwo).symm

theorem Side.code_le (s : Side) : s.code ≤ Side.ask.code := by
  cases s <;> decide

theorem Tif.code_le (t : Tif) : t.code ≤ Tif.fok.code := by
  cases t <;> decide

theorem SelfCrossPolicy.code_le (c : SelfCrossPolicy) :
    c.code ≤ SelfCrossPolicy.decrementTrade.code := by
  cases c <;> decide

def flagByte (b : Bool) : UInt8 := if b then 1 else 0

@[simp] theorem flagByte_bne_zero (b : Bool) : (flagByte b != 0) = b := by
  cases b <;> rfl

/-! ## The wire structures -/

namespace SnapshotHeader

/-- The letters `LOBS`. -/
def magicBytes : List UInt8 := [76, 79, 66, 83]

def wireVersion : UInt32 := 1

end SnapshotHeader

structure SnapshotHeader where
  magic : List UInt8 := SnapshotHeader.magicBytes
  version : UInt32 := SnapshotHeader.wireVersion
  ticks : UInt64 := 0
  maxOrders : UInt64 := 0
  selfCross : UInt8 := 0
  topThrottle : UInt8 := 0
  seq : UInt64 := 0
  lastBidPx : UInt32 := 0
  lastAskPx : UInt32 := 0
  lastBidQty : UInt64 := 0
  lastAskQty : UInt64 := 0
  haveTop : UInt8 := 0
  numOrders : UInt64 := 0
  deriving DecidableEq, Repr

namespace SnapshotHeader

/-- `sizeof(snapshot_header)`. -/
def size : ℕ := 80

def bytes (h : SnapshotHeader) : List UInt8 :=
  [h.magic,
    store 4 h.version.toNat,
    store 8 h.ticks.toNat,
    store 8 h.maxOrders.toNat,
    store 1 h.selfCross.toNat,
    store 1 h.topThrottle.toNat,
    store 2 0,
    store 4 0,
    store 8 h.seq.toNat,
    store 4 h.lastBidPx.toNat,
    store 4 h.lastAskPx.toNat,
    store 8 h.lastBidQty.toNat,
    store 8 h.lastAskQty.toNat,
    store 1 h.haveTop.toNat,
    store 7 0,
    store 8 h.numOrders.toNat].flatten

def ofBytes (bs : List UInt8) : SnapshotHeader where
  magic := bs.take 4
  version := .ofNat (uint 4 4 bs)
  ticks := .ofNat (uint 8 8 bs)
  maxOrders := .ofNat (uint 16 8 bs)
  selfCross := .ofNat (uint 24 1 bs)
  topThrottle := .ofNat (uint 25 1 bs)
  seq := .ofNat (uint 32 8 bs)
  lastBidPx := .ofNat (uint 40 4 bs)
  lastAskPx := .ofNat (uint 44 4 bs)
  lastBidQty := .ofNat (uint 48 8 bs)
  lastAskQty := .ofNat (uint 56 8 bs)
  haveTop := .ofNat (uint 64 1 bs)
  numOrders := .ofNat (uint 72 8 bs)

theorem length_bytes {h : SnapshotHeader} (hm : h.magic.length = 4) : h.bytes.length = size := by
  simp [bytes, hm, size]

theorem ofBytes_bytes {h : SnapshotHeader} (hm : h.magic.length = 4) : ofBytes h.bytes = h := by
  simp (disch := simp [hm]) only [ofBytes, bytes, List.flatten_cons, uint_append_right,
    uint_append_left, length_store, hm, Nat.reduceSub, Nat.sub_self, ofNat_value_store_uint8,
    ofNat_value_store_uint32, ofNat_value_store_uint64, List.take_left' hm]

end SnapshotHeader

structure SnapshotOrderRecord where
  id : UInt64
  remaining : UInt64
  px : UInt32
  s : UInt8
  t : UInt8
  accountId : UInt32
  deriving DecidableEq, Repr

namespace SnapshotOrderRecord

/-- `sizeof(snapshot_order_record)`. -/
def size : ℕ := 32

/-- A record in memory, where `pad` is what its last four bytes happen to hold. -/
def bytes (r : SnapshotOrderRecord) (pad : UInt32) : List UInt8 :=
  [store 8 r.id.toNat,
    store 8 r.remaining.toNat,
    store 4 r.px.toNat,
    store 1 r.s.toNat,
    store 1 r.t.toNat,
    store 2 0,
    store 4 r.accountId.toNat,
    store 4 pad.toNat].flatten

def ofBytes (bs : List UInt8) : SnapshotOrderRecord where
  id := .ofNat (uint 0 8 bs)
  remaining := .ofNat (uint 8 8 bs)
  px := .ofNat (uint 16 4 bs)
  s := .ofNat (uint 20 1 bs)
  t := .ofNat (uint 21 1 bs)
  accountId := .ofNat (uint 24 4 bs)

theorem length_bytes (r : SnapshotOrderRecord) (pad : UInt32) : (r.bytes pad).length = size := by
  simp [bytes, size]

theorem ofBytes_bytes (r : SnapshotOrderRecord) (pad : UInt32) : ofBytes (r.bytes pad) = r := by
  simp (disch := simp) only [ofBytes, bytes, List.flatten_cons, uint_append_right,
    uint_append_left, length_store, Nat.reduceSub, Nat.sub_self, ofNat_value_store_uint8,
    ofNat_value_store_uint32, ofNat_value_store_uint64]

theorem bytes_injective (r : SnapshotOrderRecord) : Function.Injective r.bytes := by
  have hpad (pad : UInt32) : UInt32.ofNat (uint 28 4 (r.bytes pad)) = pad := by
    simp (disch := simp) only [bytes, List.flatten_cons, uint_append_right, uint_append_left,
      length_store, Nat.reduceSub, Nat.sub_self, ofNat_value_store_uint32]
  intro pad pad' h
  rw [← hpad pad, h, hpad]

/-- The records one after another, where the `i`th holds `pad i` in its last four bytes. -/
def emit (pad : ℕ → UInt32) (rs : List SnapshotOrderRecord) : List UInt8 :=
  (rs.mapIdx fun i r => r.bytes (pad i)).flatten

@[simp] theorem emit_nil (pad : ℕ → UInt32) : emit pad [] = [] := rfl

@[simp] theorem emit_cons (pad : ℕ → UInt32) (r : SnapshotOrderRecord)
    (rs : List SnapshotOrderRecord) :
    emit pad (r :: rs) = r.bytes (pad 0) ++ emit (fun i => pad (i + 1)) rs := by
  simp [emit, List.mapIdx_cons]

theorem length_emit (pad : ℕ → UInt32) (rs : List SnapshotOrderRecord) :
    (emit pad rs).length = size * rs.length := by
  induction rs generalizing pad with
  | nil => rfl
  | cons r rs ih =>
      rw [emit_cons, List.length_append, ih, length_bytes, List.length_cons, Nat.mul_succ,
        Nat.add_comm]

/-- Records are written alike where their padding is alike, and nowhere else. -/
theorem emit_eq_iff {pad pad' : ℕ → UInt32} {rs : List SnapshotOrderRecord} :
    emit pad rs = emit pad' rs ↔ ∀ i < rs.length, pad i = pad' i := by
  induction rs generalizing pad pad' with
  | nil => simp
  | cons r rs ih =>
      have hlength : (r.bytes (pad 0)).length = (r.bytes (pad' 0)).length := by
        rw [length_bytes, length_bytes]
      rw [emit_cons, emit_cons, List.length_cons, Nat.forall_lt_succ_left, ← ih]
      constructor
      · intro h
        obtain ⟨hhead, htail⟩ := List.append_inj h hlength
        exact ⟨r.bytes_injective hhead, htail⟩
      · rintro ⟨hhead, htail⟩
        rw [hhead, htail]

/-- The record of a resting order of side `side`. -/
def ofOrder (side : Side) (o : Order) : SnapshotOrderRecord where
  id := o.id
  remaining := o.remaining
  px := .ofNat o.px
  s := side.code
  t := o.t.code
  accountId := o.accountId

/-- The order a record becomes once its bytes are known to be enumerators. -/
def order (r : SnapshotOrderRecord) : Order :=
  ⟨r.id, r.remaining, r.px.toNat, .ofCode r.s, .ofCode r.t, r.accountId⟩

end SnapshotOrderRecord

/-- `read` of a source: the next `n` bytes and what is left, if there are as many. -/
def readBytes (n : ℕ) (src : List UInt8) : Option (List UInt8 × List UInt8) :=
  if src.length < n then none else some (src.take n, src.drop n)

theorem readBytes_append {n : ℕ} {bs : List UInt8} (h : bs.length = n) (src : List UInt8) :
    readBytes n (bs ++ src) = some (bs, src) := by
  unfold readBytes
  rw [if_neg (by rw [List.length_append]; omega), List.take_left' h, List.drop_left' h]

namespace Engine

variable {P : Type} {ticks maxOrders : ℕ} {lookup : OrderLookup}

/-! ## Writing -/

def countResting (e : Engine P ticks maxOrders lookup) : UInt64 :=
  let add := fun (bs : BookSide ticks) (count : UInt64) (px : ℕ) =>
    count + UInt64.ofNat (bs.levelAt px).orderCount
  let count := (e.side .bid).forEachLevel.foldl (add (e.side .bid)) 0
  (e.side .ask).forEachLevel.foldl (add (e.side .ask)) count

/-- The records of a side, in the order they are emitted. -/
def emitSide (e : Engine P ticks maxOrders lookup) (s : Side) : List SnapshotOrderRecord :=
  (e.side s).forEachLevel.flatMap fun px =>
    ((e.side s).levelAt px).fifo.map fun p => .ofOrder s (e.order p)

def records (e : Engine P ticks maxOrders lookup) : List SnapshotOrderRecord :=
  e.emitSide .bid ++ e.emitSide .ask

def snapshotHeader (e : Engine P ticks maxOrders lookup) : SnapshotHeader where
  ticks := .ofNat ticks
  maxOrders := .ofNat maxOrders
  selfCross := e.cfg.selfCross.code
  topThrottle := flagByte e.cfg.topThrottle
  seq := e.state.seq
  lastBidPx := .ofNat e.state.lastBidPx
  lastAskPx := .ofNat e.state.lastAskPx
  lastBidQty := e.state.lastBidQty
  lastAskQty := e.state.lastAskQty
  haveTop := flagByte e.state.haveTop
  numOrders := e.countResting

/-- The bytes a sink is given, where `pad` is what the last four bytes of each record hold. -/
def snapshot (e : Engine P ticks maxOrders lookup) (pad : ℕ → UInt32) : List UInt8 :=
  e.snapshotHeader.bytes ++ SnapshotOrderRecord.emit pad e.records

/-! ## Clearing -/

/-- One turn of the loop over the orders of the level at `px`. -/
def clearTurn (s : Side) (px : ℕ) (e : Engine P ticks maxOrders lookup) :
    Turn (Engine P ticks maxOrders lookup) :=
  match ((e.side s).levelAt px).fifo with
  | [] => .done e
  | p :: _ =>
      let o := e.order p
      let e := e.setSide s ((e.side s).remove s p o)
      let e := e.unindex o.id
      .again (e.setArena (e.book.arena.deallocate (some p)))

def clearLevel (s : Side) (px : ℕ) (e : Engine P ticks maxOrders lookup) :
    Engine P ticks maxOrders lookup :=
  run (clearTurn s px) (((e.side s).levelAt px).fifo.length + 1) e

/-- One turn of the loop over the levels of a side. -/
def clearSideTurn (s : Side) (e : Engine P ticks maxOrders lookup) :
    Turn (Engine P ticks maxOrders lookup) :=
  match (e.side s).best with
  | none => .done e
  | some px => .again (e.clearLevel s px)

/-- Every turn gives back the slot of at least one order. -/
def clearSide (s : Side) (e : Engine P ticks maxOrders lookup) : Engine P ticks maxOrders lookup :=
  run (clearSideTurn s) (e.book.arena.inUse + 1) e

def clearState (e : Engine P ticks maxOrders lookup) : Engine P ticks maxOrders lookup :=
  let e := (e.clearSide .bid).clearSide .ask
  { e with state := { seq := e.cfg.seqBase } }

/-! ## Reading -/

/-- A record that passed the checks takes a slot, if there is one. -/
def enterRecord (e : Engine P ticks maxOrders lookup) (r : SnapshotOrderRecord) :
    Bool × Engine P ticks maxOrders lookup :=
  match e.book.arena.allocate with
  | (none, a) => (false, e.setArena a)
  | (some p, a) =>
      let o := r.order
      let e := e.setArena (a.put p o)
      let e := e.setSide o.s ((e.side o.s).add o.s p o)
      if lookup = .byHandle then (true, e)
      else (true, e.setIdx (e.book.idx.insert r.id p))

/-- Returns whether the record was accepted. The largest 64-bit id is the
index's empty-slot sentinel. -/
def replayRecord (e : Engine P ticks maxOrders lookup) (r : SnapshotOrderRecord) :
    Bool × Engine P ticks maxOrders lookup :=
  if r.id = 0 ∨ r.id = emptyKey then (false, e)
  else if ticks ≤ r.px.toNat then (false, e)
  else if Side.ask.code < r.s then (false, e)
  else if Tif.fok.code < r.t then (false, e)
  else if r.remaining = 0 ∨ e.cfg.maxOrderQty < r.remaining then (false, e)
  else e.enterRecord r

/-- The loop over the records, with what it returns when one is missing or refused. -/
def replayRecords : ℕ → List UInt8 → Engine P ticks maxOrders lookup →
    Bool × Engine P ticks maxOrders lookup
  | 0, _, e => (true, e)
  | n + 1, src, e =>
      match readBytes SnapshotOrderRecord.size src with
      | none => (false, e.clearState)
      | some (bytes, src) =>
          match e.replayRecord (.ofBytes bytes) with
          | (false, e) => (false, e.clearState)
          | (true, e) => replayRecords n src e

/-- What a header that passed the checks sets. -/
def adoptHeader (e : Engine P ticks maxOrders lookup) (hdr : SnapshotHeader) :
    Engine P ticks maxOrders lookup :=
  { e with
    cfg := { e.cfg with
      selfCross := .ofCode hdr.selfCross
      topThrottle := hdr.topThrottle != 0 }
    state := { e.state with
      seq := hdr.seq
      lastBidPx := hdr.lastBidPx.toNat
      lastAskPx := hdr.lastAskPx.toNat
      lastBidQty := hdr.lastBidQty
      lastAskQty := hdr.lastAskQty
      haveTop := hdr.haveTop != 0
      topDirty := false } }

/-- The presence flags of a book that has been replayed to its end. -/
def seedSides (e : Engine P ticks maxOrders lookup) : Engine P ticks maxOrders lookup :=
  { e with
    state := { e.state with
      haveBidSide := (e.side .bid).best.isSome
      haveAskSide := (e.side .ask).best.isSome
      topDirty := false } }

def clearStateAndFail (e : Engine P ticks maxOrders lookup) :
    Bool × Engine P ticks maxOrders lookup :=
  (false, e.clearState)

def restore (e : Engine P ticks maxOrders lookup) (src : List UInt8) :
    Bool × Engine P ticks maxOrders lookup :=
  match readBytes SnapshotHeader.size src with
  | none => (false, e.clearState)
  | some (bytes, src) =>
      let hdr := SnapshotHeader.ofBytes bytes
      if hdr.magic ≠ SnapshotHeader.magicBytes then e.clearStateAndFail
      else if hdr.version ≠ SnapshotHeader.wireVersion then e.clearStateAndFail
      else if hdr.ticks.toNat ≠ ticks then e.clearStateAndFail
      else if hdr.maxOrders.toNat ≠ maxOrders then e.clearStateAndFail
      else if SelfCrossPolicy.decrementTrade.code < hdr.selfCross then e.clearStateAndFail
      else
        match (e.clearState.adoptHeader hdr).replayRecords hdr.numOrders.toNat src with
        | (false, e) => (false, e)
        | (true, e) => (true, e.seedSides)

end Engine

end Orderbooks
