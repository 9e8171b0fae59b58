import Orderbooks.Snapshot
import Orderbooks.Lib.Framing

/-!
# The order-entry gateway

`apps/gateway/wire.hpp` and the two serve loops of `apps/gateway/main.cpp`. A client sends
records of 32 bytes; each is validated, run on an engine of the connection's own and answered
by one ack, whose fill summary is what the engine's publisher accumulated over that record.

A socket is seen through the results of its reads. Writes to it succeed, so the loop of a
connection ends only when a read says so. On the shared-memory path a server spins on an
empty or a full ring; what it does is decided by the requests it takes, in their order.
-/
namespace Orderbooks.Gateway
open Loop LittleEndian

/-! ## The wire protocol -/

inductive WireOp where
  | submit
  | cancel
  | modify
  deriving DecidableEq, Repr

/-- The protocol defines three op bytes and nothing else. -/
def WireOp.ofByte (op : UInt8) : Option WireOp :=
  if op = 0 then some .submit
  else if op = 1 then some .cancel
  else if op = 2 then some .modify
  else none

structure WireOrder where
  id : UInt64
  qty : UInt64
  px : UInt32
  newPx : UInt32
  op : UInt8
  side : UInt8
  tif : UInt8
  pad : UInt8 := 0
  deriving DecidableEq, Repr

/-- `sizeof(wire_order)`: 28 bytes of fields and four of tail padding. -/
def WireOrder.size : ℕ := 32

/-- The `memcpy` of a record out of the read buffer. -/
def WireOrder.ofBytes (bs : List UInt8) : WireOrder where
  id := .ofNat (uint 0 8 bs)
  qty := .ofNat (uint 8 8 bs)
  px := .ofNat (uint 16 4 bs)
  newPx := .ofNat (uint 20 4 bs)
  op := .ofNat (uint 24 1 bs)
  side := .ofNat (uint 25 1 bs)
  tif := .ofNat (uint 26 1 bs)
  pad := .ofNat (uint 27 1 bs)

structure WireAck where
  id : UInt64
  filled : UInt64
  lastPx : ℕ
  status : UInt32
  deriving DecidableEq, Repr

abbrev ackAccepted : UInt32 := 0
abbrev ackFilled : UInt32 := 1
abbrev ackProcessed : UInt32 := 2
abbrev ackRejected : UInt32 := 3
abbrev ackKilled : UInt32 := 4

/-- Accumulates one order's fills for its ack. -/
structure AccumPub where
  filled : UInt64 := 0
  lastPx : ℕ := 0
  rejected : Bool := false
  deriving DecidableEq, Repr

def AccumPub.publish (p : AccumPub) : Event → AccumPub
  | .fill f => { p with filled := p.filled + f.qty, lastPx := f.px }
  | .reject _ => { p with rejected := true }
  | .top _ => p
  | .trade _ => p
  | .selfTrade _ => p

instance : Publisher AccumPub := ⟨AccumPub.publish⟩

/-- Zero means "keep the id" in a modify and the largest id marks an empty index slot. -/
def validOrderId (id : UInt64) : Bool := id != 0 && id != emptyKey

namespace WireOrder

/-- Any side byte but zero is an ask. -/
def s (wo : WireOrder) : Side := if wo.side = 0 then .bid else .ask

def submitMsg (wo : WireOrder) : SubmitMsg :=
  ⟨wo.id, wo.px.toNat, wo.qty, wo.s, .ofCode wo.tif, 0⟩

def modifyMsg (wo : WireOrder) : ModifyMsg :=
  { id := wo.id, newPx := wo.newPx.toNat, newQty := wo.qty }

end WireOrder

def validateOrder (ticks : ℕ) (wo : WireOrder) (maxQty : UInt64) : Bool :=
  if !validOrderId wo.id then false
  else match WireOp.ofByte wo.op with
    | none => false
    | some .submit =>
        decide (wo.px.toNat < ticks) && decide (0 < wo.qty) && decide (wo.qty ≤ maxQty) &&
          decide (wo.tif ≤ Tif.fok.code)
    | some .cancel => true
    | some .modify =>
        decide (wo.newPx.toNat < ticks) && decide (0 < wo.qty) && decide (wo.qty ≤ maxQty)

section ApplyOrder
variable {ticks maxOrders : ℕ}

/-- `pub.reset()` on the publisher the engine was built with. -/
def resetPub (e : Engine AccumPub ticks maxOrders .byId) : Engine AccumPub ticks maxOrders .byId :=
  { e with pub := {} }

/-- The command of a record that passed validation, and the status it would be acked with. -/
def dispatch (e : Engine AccumPub ticks maxOrders .byId) (wo : WireOrder) :
    UInt32 × Engine AccumPub ticks maxOrders .byId :=
  match WireOp.ofByte wo.op with
  | some .submit =>
      let e := (e.onSubmit wo.submitMsg).2
      (if 0 < e.pub.filled then ackFilled else if wo.tif ≠ 0 then ackKilled else ackAccepted, e)
  | some .cancel => (ackProcessed, e.onCancel { id := wo.id })
  | some .modify => (ackProcessed, (e.onModify wo.modifyMsg).2)
  | none => (0, e)

def applyOrder (e : Engine AccumPub ticks maxOrders .byId) (wo : WireOrder) :
    Engine AccumPub ticks maxOrders .byId × WireAck :=
  let e := resetPub e
  if !validateOrder ticks wo e.cfg.maxOrderQty then (e, ⟨wo.id, 0, 0, ackRejected⟩)
  else
    let (status, e) := dispatch e wo
    -- a residual the arena had no room for
    let status := if e.pub.rejected then ackRejected else status
    (e, ⟨wo.id, e.pub.filled, e.pub.lastPx, status⟩)

/-- Records one after another, with their acks. -/
def applyOrders (e : Engine AccumPub ticks maxOrders .byId) :
    List WireOrder → Engine AccumPub ticks maxOrders .byId × List WireAck
  | [] => (e, [])
  | wo :: wos =>
      let (e, ack) := applyOrder e wo
      let (e, acks) := applyOrders e wos
      (e, ack :: acks)

end ApplyOrder

/-! ## One connection -/

def ticks : ℕ := 4096

def maxOrders : ℕ := 65536

/-- Every connection and every channel has an engine of its own, with the default
configuration. -/
def freshEngine (mem : Memory) : Engine AccumPub ticks maxOrders .byId := .new {} {} mem

/-- Records staged per read. -/
def ioBatch : ℕ := 256

/-- The locals of `serve_connection` between two reads, and what has been written. -/
structure Connection where
  engine : Engine AccumPub ticks maxOrders .byId
  rbuf : List UInt8
  carry : ℕ
  writes : List (List WireAck)
  returned : Bool

def Connection.new (mem : Memory) : Connection where
  engine := freshEngine mem
  rbuf := List.replicate (ioBatch * WireOrder.size) 0
  carry := 0
  writes := []
  returned := false

/-- How a `read` ends. -/
inductive ReadResult where
  | bytes (bs : List UInt8)
  | closed
  | wouldBlock
  | failed
  deriving DecidableEq, Repr

/-- The locals of the loop over the records of one batch. -/
structure Batch where
  engine : Engine AccumPub ticks maxOrders .byId
  off : ℕ
  acks : List WireAck

/-- A turn of `while (avail - off >= sizeof(wire_order))`. -/
def recordTurn (rbuf : List UInt8) (avail : ℕ) (t : Batch) : Turn Batch :=
  if WireOrder.size ≤ avail - t.off then
    let wo := WireOrder.ofBytes ((rbuf.drop t.off).take WireOrder.size)
    let (engine, ack) := applyOrder t.engine wo
    .again ⟨engine, t.off + WireOrder.size, t.acks ++ [ack]⟩
  else .done t

namespace Connection

/-- How many bytes the next `read` asks for. -/
def space (c : Connection) : ℕ := c.rbuf.length - c.carry

/-- What follows a `read` that put `bs` behind the carried bytes. -/
def batch (c : Connection) (bs : List UInt8) : Connection :=
  let rbuf := c.rbuf.take c.carry ++ bs ++ c.rbuf.drop (c.carry + bs.length)
  let avail := c.carry + bs.length
  let t := run (recordTurn rbuf avail) (avail + 1) ⟨c.engine, 0, []⟩
  let carry := avail - t.off
  { c with
    engine := t.engine
    -- the `memmove` of the partial record to the front
    rbuf := if 0 < carry then (rbuf.drop t.off).take carry ++ rbuf.drop carry else rbuf
    carry := carry
    writes := if 0 < t.acks.length then c.writes ++ [t.acks] else c.writes }

/-- A turn of the `for` loop, given how its `read` ends. -/
def turn (c : Connection) (r : ReadResult) : Connection :=
  if c.returned then c
  else match r with
    | .bytes bs => c.batch bs
    | .closed => { c with returned := true }
    | .wouldBlock => c
    | .failed => { c with returned := true }

/-- A read returns at least a byte and no more than it was asked for. -/
def Fits (c : Connection) : ReadResult → Prop
  | .bytes bs => 0 < bs.length ∧ bs.length ≤ c.space
  | _ => True

instance (c : Connection) : DecidablePred c.Fits := fun r =>
  match r with
  | .bytes bs => inferInstanceAs (Decidable (0 < bs.length ∧ bs.length ≤ c.space))
  | .closed => isTrue trivial
  | .wouldBlock => isTrue trivial
  | .failed => isTrue trivial

end Connection

/-- What a connection reads before its loop ends, read by read. -/
def chunks : List ReadResult → List (List UInt8)
  | [] => []
  | .bytes bs :: rs => bs :: chunks rs
  | .wouldBlock :: rs => chunks rs
  | .closed :: _ => []
  | .failed :: _ => []

/-- The bytes of a client. -/
def stream (rs : List ReadResult) : List UInt8 := (chunks rs).flatten

/-! ## The shared-memory channel -/

/-- The op of the request that ends a session. -/
def opDisconnect : UInt8 := 0xFF

/-- `serve_shm` on the requests it pops: the replies it pushes. -/
def serveShm (e : Engine AccumPub ticks maxOrders .byId) : List WireOrder → List WireAck
  | [] => []
  | wo :: wos =>
      if wo.op = opDisconnect then [⟨wo.id, 0, 0, ackProcessed⟩]
      else
        let (e, ack) := applyOrder e wo
        ack :: serveShm e wos

end Orderbooks.Gateway
