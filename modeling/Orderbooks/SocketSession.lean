import Orderbooks.GatewayBytes

/-!
# A session over a socket

`serve_connection` with its writes, and the loop of `run_pipeline_client` at the other end. The
client works through windows of records: it writes the bytes of a window with `write_all`, reads
as many acks with `read_all`, adds up their fills and goes on to the next.

Each turn is one system call with what follows it in memory. The kernel holds a bounded number of
bytes in each direction, moves at least one byte when it can and as many more as it likes, says
that a call would block when it can move none, and may fail any call. A call that fails ends
`serve_connection`, and it ends the loop of the client. The peer of a party that has returned
reads the end of the stream.

`written`, `taken`, `sent` and `received` record the bytes that have gone through the calls and
`past` the records of finished windows; no turn reads them.
-/
namespace Orderbooks.Gateway
open Framing

/-- What the kernel makes of a call: how many bytes beyond the first it is ready to move, and
whether the call fails. -/
structure Kernel where
  extra : ℕ
  fails : Bool := false
  deriving DecidableEq, Repr

/-- How many bytes a call moves, out of `limit` that it could. -/
def Kernel.moves (k : Kernel) (limit : ℕ) : ℕ := min (k.extra + 1) limit

inductive SocketPhase where
  | writing
  | reading
  | returned
  deriving DecidableEq, Repr

/-- `tail` is what the tail padding of the client's records happens to hold. -/
structure SocketClient where
  tail : WireOrder → UInt32
  todo : List (List WireOrder)
  window : List WireOrder := []
  out : List UInt8 := []
  got : List UInt8 := []
  fills : UInt64 := 0
  phase : SocketPhase := .returned
  past : List WireOrder := []

namespace SocketClient

/-- The head of the loop over the windows. -/
def next (c : SocketClient) : SocketClient :=
  match c.todo with
  | [] => { c with window := [], out := [], got := [], phase := .returned }
  | w :: ws =>
      { c with todo := ws, window := w, out := orderBytes c.tail w, got := [], phase := .writing }

/-- How many bytes of acks the present window is answered with. -/
def need (c : SocketClient) : ℕ := WireAck.size * c.window.length

/-- `fills` with the fills that acks report. -/
def addFills (fills : UInt64) (acks : List WireAck) : UInt64 :=
  acks.foldl (fun n a => n + a.filled) fills

/-- The acks of the present window are all there. -/
def finish (c : SocketClient) : SocketClient :=
  { c with
    fills := addFills c.fills ((records WireAck.size c.got).map WireAck.ofBytes)
    past := c.past ++ c.window }.next

end SocketClient

structure SocketSession where
  client : SocketClient
  server : Connection
  out : List UInt8 := []
  up : List UInt8 := []
  down : List UInt8 := []
  written : List UInt8 := []
  taken : List UInt8 := []
  sent : List UInt8 := []
  received : List UInt8 := []

/-- The bytes the kernel holds in each direction, at most. -/
structure Buffers where
  up : ℕ
  down : ℕ

inductive SocketTurn where
  | server (k : Kernel)
  | client (k : Kernel)
  deriving DecidableEq, Repr

namespace SocketSession

def new (mem : Memory) (tail : WireOrder → UInt32) (ws : List (List WireOrder)) :
    SocketSession where
  client := SocketClient.next { tail := tail, todo := ws }
  server := .new mem

/-- `serve_connection` returns, and the connection is closed. -/
def hangUp (s : SocketSession) : SocketSession :=
  { s with server := { s.server with returned := true } }

/-- The `write` of a batch's acks, or of what is left of them. -/
def serverWrite (buf : Buffers) (k : Kernel) (s : SocketSession) : SocketSession :=
  if k.fails then s.hangUp
  else
    let n := k.moves (min s.out.length (buf.down - s.down.length))
    { s with
      out := s.out.drop n
      down := s.down ++ s.out.take n
      sent := s.sent ++ s.out.take n }

/-- The `read` at the head of the loop, and the batch it brings. -/
def serverRead (k : Kernel) (s : SocketSession) : SocketSession :=
  if k.fails then s.hangUp
  else if s.up = [] ∧ s.client.phase = .returned then s.hangUp
  else if s.up = [] then s
  else
    let n := k.moves (min s.server.space s.up.length)
    let server := s.server.batch (s.up.take n)
    { s with
      server := server
      out := ackBytes (server.writes.drop s.server.writes.length).flatten
      up := s.up.drop n
      taken := s.taken ++ s.up.take n }

def serverTurn (buf : Buffers) (k : Kernel) (s : SocketSession) : SocketSession :=
  if s.server.returned then s
  else if s.out = [] then s.serverRead k
  else s.serverWrite buf k

/-- The client leaves its loop because a call has failed. -/
def breakOff (s : SocketSession) : SocketSession :=
  { s with client := { s.client with phase := .returned } }

/-- A `write` of `write_all`. -/
def clientWrite (buf : Buffers) (k : Kernel) (s : SocketSession) : SocketSession :=
  if k.fails then s.breakOff
  else
    let n := k.moves (min s.client.out.length (buf.up - s.up.length))
    let out := s.client.out.drop n
    { s with
      client := { s.client with out := out, phase := if out = [] then .reading else .writing }
      up := s.up ++ s.client.out.take n
      written := s.written ++ s.client.out.take n }

/-- A `read` of `read_all`. -/
def clientRead (k : Kernel) (s : SocketSession) : SocketSession :=
  if k.fails then s.breakOff
  else if s.down = [] ∧ s.server.returned then s.breakOff
  else
    let n := k.moves (min (s.client.need - s.client.got.length) s.down.length)
    let client := { s.client with got := s.client.got ++ s.down.take n }
    { s with
      client := if client.got.length = client.need then client.finish else client
      down := s.down.drop n
      received := s.received ++ s.down.take n }

def clientTurn (buf : Buffers) (k : Kernel) (s : SocketSession) : SocketSession :=
  match s.client.phase with
  | .writing => s.clientWrite buf k
  | .reading => s.clientRead k
  | .returned => s

def turn (buf : Buffers) (s : SocketSession) : SocketTurn → SocketSession
  | .server k => s.serverTurn buf k
  | .client k => s.clientTurn buf k

end SocketSession

/-! ## What every turn keeps -/

/-- A read is answered with one write, or with none when it completes no record. -/
theorem Connection.writes_batch (c : Connection) (bs : List UInt8) :
    ∃ more, (c.batch bs).writes = c.writes ++ more ∧ more.length ≤ 1 := by
  unfold batch
  dsimp only
  split_ifs
  · exact ⟨_, rfl, Nat.le_refl 1⟩
  · exact ⟨[], (List.append_nil _).symm, Nat.zero_le 1⟩

theorem Kernel.moves_le (k : Kernel) (limit : ℕ) : k.moves limit ≤ limit := Nat.min_le_right _ _

/-- The answers to what a client has written. -/
def answersTo (mem : Memory) (wos : List WireOrder) : List WireAck :=
  (applyOrders (freshEngine mem) wos).2

theorem length_answersTo (mem : Memory) (wos : List WireOrder) :
    (answersTo mem wos).length = wos.length := by
  have hids := congrArg List.length (applyOrders_ids (e := freshEngine mem) wos)
  rwa [List.length_map, List.length_map] at hids

/-- Answering more leaves the answers there are alone. -/
theorem answersTo_append (mem : Memory) (wos more : List WireOrder) :
    answersTo mem wos <+: answersTo mem (wos ++ more) := by
  rw [answersTo, answersTo, applyOrders_append]
  exact List.prefix_append _ _

/-- What a client adds up is what the acks said before they were bytes. -/
theorem SocketClient.addFills_bytes (acks : List WireAck) (n : UInt64) :
    addFills n ((records WireAck.size (ackBytes acks)).map WireAck.ofBytes) = addFills n acks := by
  rw [ackBytes, records_flatMap (by decide) WireAck.length_bytes, addFills, List.map_map,
    List.foldl_map]
  simp only [Function.comp_apply, WireAck.filled_ofBytes_bytes]
  rfl

namespace SocketSession

variable {buf : Buffers} {mem : Memory} {ws : List (List WireOrder)} {s : SocketSession}

structure Sound (buf : Buffers) (mem : Memory) (ws : List (List WireOrder)) (s : SocketSession) :
    Prop where
  windows : s.client.past ++ s.client.window ++ s.client.todo.flatten = ws.flatten
  written : s.written ++ s.client.out =
    orderBytes s.client.tail (s.client.past ++ s.client.window)
  up : s.taken ++ s.up = s.written
  follows : s.server.Follows mem (decoder.drain { buffer := s.taken })
  sent : s.sent ++ s.out = ackBytes s.server.writes.flatten
  down : s.received ++ s.down = s.sent
  got : s.received.drop (WireAck.size * s.client.past.length) = s.client.got
  past : WireAck.size * s.client.past.length ≤ s.received.length
  fills : s.client.fills = SocketClient.addFills 0 (answersTo mem s.client.past)
  outFits : s.out.length ≤ WireAck.size * ioBatch
  upFits : s.up.length ≤ buf.up
  downFits : s.down.length ≤ buf.down

namespace Sound

theorem new {tail : WireOrder → UInt32} : (SocketSession.new mem tail ws).Sound buf mem ws := by
  have hfollows : (Connection.new mem).Follows mem (decoder.drain {}) := by
    rw [Decoder.drain_more decoder.idle]
    exact .new mem
  cases ws with
  | nil =>
      exact ⟨rfl, rfl, rfl, hfollows, rfl, rfl, rfl, Nat.le_refl _, rfl, Nat.zero_le _,
        Nat.zero_le _, Nat.zero_le _⟩
  | cons w ws =>
      exact ⟨rfl, rfl, rfl, hfollows, rfl, rfl, rfl, Nat.le_refl _, rfl, Nat.zero_le _,
        Nat.zero_le _, Nat.zero_le _⟩

variable (h : s.Sound buf mem ws)
include h

/-- The records the server has found. -/
theorem found : s.server.writes.flatten = answersTo mem (wireRecords s.taken) := by
  have hsession := h.follows.acks
  have hdrain : decoder.drain { buffer := s.taken } = _ := Decoder.drain_fixed _
  rw [hdrain] at hsession
  have hacks : (applyOrders (freshEngine mem) (wireRecords s.taken)).2 =
      s.server.writes.flatten := congrArg Prod.snd hsession
  exact hacks.symm

theorem taken_prefix :
    s.taken <+: orderBytes s.client.tail (s.client.past ++ s.client.window) := by
  rw [← h.written, ← h.up, List.append_assoc]
  exact List.prefix_append _ _

/-- What the client has read are the first bytes of the answers to its records. -/
theorem received_prefix :
    s.received <+: ackBytes (answersTo mem (wireRecords s.taken)) := by
  rw [← h.found, ← h.sent, ← h.down, List.append_assoc]
  exact List.prefix_append _ _

theorem taken_prefix_all : s.taken <+: orderBytes s.client.tail ws.flatten := by
  rw [← h.windows, orderBytes_append]
  exact h.taken_prefix.trans (List.prefix_append _ _)

/-- And so of the answers to all that it will ever write. -/
theorem received_prefix_all : s.received <+: ackBytes (answersTo mem ws.flatten) := by
  have hfound := wireRecords_of_prefix h.taken_prefix_all
  have hpre := h.received_prefix
  set k := s.taken.length / WireOrder.size
  obtain ⟨acks, hacks⟩ := answersTo_append mem (ws.flatten.take k) (ws.flatten.drop k)
  rw [List.take_append_drop] at hacks
  rw [← hacks, ackBytes_append, ← hfound]
  exact hpre.trans (List.prefix_append _ _)

theorem hangUp : s.hangUp.Sound buf mem ws :=
  ⟨h.windows, h.written, h.up,
    ⟨h.follows.size, h.follows.carry, h.follows.buffer, h.follows.opened, h.follows.acks,
      h.follows.batches⟩,
    h.sent, h.down, h.got, h.past, h.fills, h.outFits, h.upFits, h.downFits⟩

theorem breakOff : s.breakOff.Sound buf mem ws :=
  ⟨h.windows, h.written, h.up, h.follows, h.sent, h.down, h.got, h.past, h.fills, h.outFits,
    h.upFits, h.downFits⟩

theorem serverWrite (k : Kernel) : (s.serverWrite buf k).Sound buf mem ws := by
  unfold SocketSession.serverWrite
  split_ifs
  · exact h.hangUp
  · have hmoves := k.moves_le (min s.out.length (buf.down - s.down.length))
    have hfits := h.downFits
    refine { h with sent := ?_, down := ?_, outFits := ?_, downFits := ?_ }
    · rw [List.append_assoc, List.take_append_drop]
      exact h.sent
    · dsimp only
      rw [← h.down, List.append_assoc]
    · exact (List.drop_sublist _ _).length_le.trans h.outFits
    · rw [List.length_append, List.length_take]
      omega

theorem serverRead (k : Kernel) (hout : s.out = []) : (s.serverRead k).Sound buf mem ws := by
  unfold SocketSession.serverRead
  split_ifs
  · exact h.hangUp
  · exact h.hangUp
  · exact h
  · set n := k.moves (min s.server.space s.up.length) with hn
    have hmoves := k.moves_le (min s.server.space s.up.length)
    have hfits := h.upFits
    have hread : (s.up.take n).length ≤ s.server.space := by
      rw [List.length_take]
      omega
    have hbatch := h.follows.batch hread
    rw [Decoder.receive_drain _ _ rfl] at hbatch
    obtain ⟨more, hmore, hone⟩ := s.server.writes_batch (s.up.take n)
    have hlen : more.flatten.length ≤ ioBatch := by
      have hbatches := hbatch.batches
      rw [hmore] at hbatches
      cases more with
      | nil => exact Nat.zero_le _
      | cons w rest =>
          obtain rfl : rest = [] := List.eq_nil_of_length_eq_zero (by simpa using hone)
          rw [List.flatten_singleton]
          exact hbatches w (by simp)
    have hsent := h.sent
    rw [hout, List.append_nil] at hsent
    refine { h with up := ?_, follows := hbatch, sent := ?_, outFits := ?_, upFits := ?_ }
    · rw [List.append_assoc, List.take_append_drop]
      exact h.up
    · dsimp only
      rw [hmore, List.drop_left, hsent, List.flatten_append, ackBytes_append]
    · dsimp only
      rw [hmore, List.drop_left, length_ackBytes]
      exact Nat.mul_le_mul_left _ hlen
    · dsimp only
      rw [List.length_drop]
      omega

theorem serverTurn (k : Kernel) : (s.serverTurn buf k).Sound buf mem ws := by
  unfold SocketSession.serverTurn
  split_ifs with hret hout
  · exact h
  · exact h.serverRead k hout
  · exact h.serverWrite k

theorem clientWrite (k : Kernel) : (s.clientWrite buf k).Sound buf mem ws := by
  unfold SocketSession.clientWrite
  split_ifs
  · exact h.breakOff
  · have hmoves := k.moves_le (min s.client.out.length (buf.up - s.up.length))
    have hfits := h.upFits
    refine { h with written := ?_, up := ?_, upFits := ?_ }
    · rw [List.append_assoc, List.take_append_drop]
      exact h.written
    · dsimp only
      rw [← h.up, List.append_assoc]
    · rw [List.length_append, List.length_take]
      omega

/-- Bytes come to the client, whether or not they complete the acks of its window. -/
theorem arrive (n : ℕ) :
    ({ s with
      client := { s.client with got := s.client.got ++ s.down.take n }
      down := s.down.drop n
      received := s.received ++ s.down.take n } : SocketSession).Sound buf mem ws := by
  have hpast := h.past
  have hfits := h.downFits
  refine { h with down := ?_, got := ?_, past := ?_, downFits := ?_ }
  · rw [List.append_assoc, List.take_append_drop]
    exact h.down
  · rw [List.drop_append_of_le_length hpast, h.got]
  · rw [List.length_append]
    exact Nat.le_add_right_of_le hpast
  · dsimp only
    rw [List.length_drop]
    omega

/-- Once the acks of a window are all there, so is everything that led to them. -/
theorem complete (hgot : s.client.got.length = s.client.need) :
    s.client.out = [] ∧ s.up = [] ∧
      s.received = ackBytes (answersTo mem (s.client.past ++ s.client.window)) := by
  set wos := s.client.past ++ s.client.window with hwos
  have hlen : s.received.length = WireAck.size * wos.length := by
    have hdrop := congrArg List.length h.got
    have hpast := h.past
    rw [List.length_drop, hgot, SocketClient.need] at hdrop
    rw [hwos, List.length_append, Nat.mul_add]
    omega
  -- the server can only have answered that many records if it has found them all
  have hfound := wireRecords_of_prefix h.taken_prefix
  have hpre := h.received_prefix
  rw [hfound] at hpre
  have hall : wos.length ≤ s.taken.length / WireOrder.size := by
    have hle := hpre.length_le
    rw [hlen, length_ackBytes, length_answersTo, List.length_take] at hle
    have := Nat.le_of_mul_le_mul_left hle (by decide)
    omega
  rw [List.take_of_length_le hall] at hpre
  have htaken : s.taken = orderBytes s.client.tail wos := by
    refine h.taken_prefix.eq_of_length_le ?_
    rw [length_orderBytes]
    exact (Nat.mul_le_mul_left _ hall).trans (Nat.mul_div_le _ _)
  have hrest := h.written
  rw [← h.up, ← hwos, ← htaken, List.append_assoc] at hrest
  have hnil := List.append_right_eq_self.mp hrest
  refine ⟨(List.append_eq_nil_iff.mp hnil).2, (List.append_eq_nil_iff.mp hnil).1, ?_⟩
  refine hpre.eq_of_length ?_
  rw [hlen, length_ackBytes, length_answersTo]

/-- The client goes on to its next window. -/
theorem finish (hgot : s.client.got.length = s.client.need) :
    ({ s with client := s.client.finish } : SocketSession).Sound buf mem ws := by
  obtain ⟨hout, -, hreceived⟩ := h.complete hgot
  have hlen : s.received.length = WireAck.size * (s.client.past ++ s.client.window).length := by
    rw [hreceived, length_ackBytes, length_answersTo]
  have hwritten := h.written
  rw [hout, List.append_nil] at hwritten
  have hfills : SocketClient.addFills s.client.fills
      ((records WireAck.size s.client.got).map WireAck.ofBytes) =
      SocketClient.addFills 0 (answersTo mem (s.client.past ++ s.client.window)) := by
    obtain ⟨acks, hacks⟩ := answersTo_append mem s.client.past s.client.window
    have hbytes : s.client.got = ackBytes acks := by
      rw [← h.got, hreceived, ← hacks, ackBytes_append]
      exact List.drop_left' (by rw [length_ackBytes, length_answersTo])
    rw [hbytes, SocketClient.addFills_bytes, h.fills, ← hacks]
    exact (List.foldl_append ..).symm
  have hwindows := h.windows
  unfold SocketClient.finish SocketClient.next
  cases htodo : s.client.todo with
  | nil =>
      rw [htodo] at hwindows
      refine { h with windows := ?_, written := ?_, got := ?_, past := ?_, fills := hfills }
      · simpa using hwindows
      · simpa using hwritten
      · exact List.drop_eq_nil_of_le (Nat.le_of_eq hlen)
      · exact Nat.le_of_eq hlen.symm
  | cons w rest =>
      rw [htodo] at hwindows
      refine { h with windows := ?_, written := ?_, got := ?_, past := ?_, fills := hfills }
      · simpa using hwindows
      · change s.written ++ orderBytes s.client.tail w =
          orderBytes s.client.tail (s.client.past ++ s.client.window ++ w)
        rw [hwritten, orderBytes_append _ _ w]
      · exact List.drop_eq_nil_of_le (Nat.le_of_eq hlen)
      · exact Nat.le_of_eq hlen.symm

theorem clientRead (k : Kernel) : (s.clientRead k).Sound buf mem ws := by
  unfold SocketSession.clientRead
  split_ifs
  · exact h.breakOff
  · exact h.breakOff
  · have harrive := h.arrive (k.moves (min (s.client.need - s.client.got.length) s.down.length))
    dsimp only
    split_ifs with hgot
    · exact harrive.finish hgot
    · exact harrive

theorem turn (t : SocketTurn) : (s.turn buf t).Sound buf mem ws := by
  cases t with
  | server k => exact h.serverTurn k
  | client k =>
      change (s.clientTurn buf k).Sound buf mem ws
      unfold SocketSession.clientTurn
      split
      · exact h.clientWrite k
      · exact h.clientRead k
      · exact h

theorem run (ts : List SocketTurn) : (ts.foldl (SocketSession.turn buf) s).Sound buf mem ws := by
  induction ts generalizing s with
  | nil => exact h
  | cons t ts ih => exact ih (h.turn t)

end Sound

theorem tail_next (c : SocketClient) : c.next.tail = c.tail := by
  unfold SocketClient.next
  split <;> rfl

theorem tail_new (mem : Memory) (tail : WireOrder → UInt32) (ws : List (List WireOrder)) :
    (new mem tail ws).client.tail = tail :=
  tail_next _

theorem tail_turn (s : SocketSession) (t : SocketTurn) :
    (s.turn buf t).client.tail = s.client.tail := by
  cases t with
  | server k =>
      change (s.serverTurn buf k).client.tail = _
      unfold serverTurn serverRead serverWrite
      split_ifs <;> rfl
  | client k =>
      change (s.clientTurn buf k).client.tail = _
      unfold clientTurn
      cases s.client.phase with
      | returned => rfl
      | writing =>
          change (s.clientWrite buf k).client.tail = _
          unfold clientWrite
          split_ifs <;> rfl
      | reading =>
          change (s.clientRead k).client.tail = _
          unfold clientRead
          split_ifs
          · rfl
          · rfl
          · dsimp only
            split_ifs
            · exact tail_next _
            · rfl

/-- The padding of a client's records stays what it was. -/
theorem tail_run (s : SocketSession) (ts : List SocketTurn) :
    (ts.foldl (turn buf) s).client.tail = s.client.tail := by
  induction ts generalizing s with
  | nil => rfl
  | cons t ts ih => exact (ih _).trans (s.tail_turn t)

end SocketSession

end Orderbooks.Gateway
