import Orderbooks.GatewayFraming

/-!
# Records and acks as bytes

Both structures of `apps/gateway/wire.hpp` travel as they lie in memory, little-endian and with
their tail padding. A server finds in the bytes of a client the records the client wrote, as
many of them as have arrived whole.
-/
namespace Orderbooks.Gateway
open LittleEndian Framing

namespace WireOrder

/-- The bytes of a `wire_order`, where `tail` is what its tail padding happens to hold. -/
def bytes (wo : WireOrder) (tail : UInt32) : List UInt8 :=
  [store 8 wo.id.toNat,
    store 8 wo.qty.toNat,
    store 4 wo.px.toNat,
    store 4 wo.newPx.toNat,
    store 1 wo.op.toNat,
    store 1 wo.side.toNat,
    store 1 wo.tif.toNat,
    store 1 wo.pad.toNat,
    store 4 tail.toNat].flatten

theorem length_bytes (wo : WireOrder) (tail : UInt32) : (wo.bytes tail).length = size := by
  simp [bytes, size]

theorem ofBytes_bytes (wo : WireOrder) (tail : UInt32) : ofBytes (wo.bytes tail) = wo := by
  simp (disch := simp) only [ofBytes, bytes, List.flatten_cons, uint_append_right,
    uint_append_left, length_store, Nat.reduceSub, Nat.sub_self, ofNat_value_store_uint8,
    ofNat_value_store_uint32, ofNat_value_store_uint64]

end WireOrder

namespace WireAck

/-- `sizeof(wire_ack)`. -/
def size : ℕ := 24

def bytes (a : WireAck) : List UInt8 :=
  [store 8 a.id.toNat,
    store 8 a.filled.toNat,
    store 4 a.lastPx,
    store 4 a.status.toNat].flatten

def ofBytes (bs : List UInt8) : WireAck where
  id := .ofNat (uint 0 8 bs)
  filled := .ofNat (uint 8 8 bs)
  lastPx := uint 16 4 bs
  status := .ofNat (uint 20 4 bs)

theorem length_bytes (a : WireAck) : a.bytes.length = size := by
  simp [bytes, size]

theorem filled_ofBytes_bytes (a : WireAck) : (ofBytes a.bytes).filled = a.filled := by
  simp (disch := simp) only [ofBytes, bytes, List.flatten_cons, uint_append_right,
    uint_append_left, length_store, Nat.reduceSub, Nat.sub_self, ofNat_value_store_uint64]

end WireAck

/-- What a client writes for its records, where `tail` is what their tail padding holds. -/
def orderBytes (tail : WireOrder → UInt32) (wos : List WireOrder) : List UInt8 :=
  wos.flatMap fun wo => wo.bytes (tail wo)

/-- What the gateway writes for its acks. -/
def ackBytes (acks : List WireAck) : List UInt8 := acks.flatMap WireAck.bytes

@[simp] theorem length_orderBytes (tail : WireOrder → UInt32) (wos : List WireOrder) :
    (orderBytes tail wos).length = WireOrder.size * wos.length := by
  induction wos with
  | nil => rfl
  | cons wo wos ih =>
      rw [orderBytes, List.flatMap_cons, List.length_append, wo.length_bytes, List.length_cons]
      change _ + (orderBytes tail wos).length = _
      rw [ih, Nat.mul_succ, Nat.add_comm]

@[simp] theorem length_ackBytes (acks : List WireAck) :
    (ackBytes acks).length = WireAck.size * acks.length := by
  induction acks with
  | nil => rfl
  | cons a acks ih =>
      rw [ackBytes, List.flatMap_cons, List.length_append, a.length_bytes, List.length_cons]
      change _ + (ackBytes acks).length = _
      rw [ih, Nat.mul_succ, Nat.add_comm]

@[simp] theorem orderBytes_append (tail : WireOrder → UInt32) (wos more : List WireOrder) :
    orderBytes tail (wos ++ more) = orderBytes tail wos ++ orderBytes tail more :=
  List.flatMap_append

@[simp] theorem ackBytes_append (acks more : List WireAck) :
    ackBytes (acks ++ more) = ackBytes acks ++ ackBytes more := List.flatMap_append

/-- Of the records a client writes the server has those that have arrived whole. -/
theorem wireRecords_of_prefix {tail : WireOrder → UInt32} {bs : List UInt8} {wos : List WireOrder}
    (h : bs <+: orderBytes tail wos) :
    wireRecords bs = wos.take (bs.length / WireOrder.size) := by
  have hall : (wos.map fun wo => wo.bytes (tail wo)).map WireOrder.ofBytes = wos := by
    rw [List.map_map]
    exact (List.map_congr_left fun wo _ => wo.ofBytes_bytes (tail wo)).trans (List.map_id wos)
  rw [wireRecords, records_of_prefix h, orderBytes,
    records_flatMap (by decide) fun wo => wo.length_bytes (tail wo), List.map_take, hall]

end Orderbooks.Gateway
