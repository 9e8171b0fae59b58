import Orderbooks.Gateway
import Orderbooks.Lib.Runs

/-!
# Framing at the gateway

A connection answers the records of its stream however the reads cut it. Between two reads
the loop is a session over records of one size: the carried bytes are what the session has
not used, and the acks written so far are those of the records it has found.
-/
namespace Orderbooks.Gateway
open Loop Runs Framing

section Records
variable {ticks maxOrders : ℕ} {e : Engine AccumPub ticks maxOrders .byId}

theorem applyOrders_append (wos more : List WireOrder) :
    applyOrders e (wos ++ more) =
      ((applyOrders (applyOrders e wos).1 more).1,
        (applyOrders e wos).2 ++ (applyOrders (applyOrders e wos).1 more).2) := by
  induction wos generalizing e with
  | nil => rfl
  | cons wo wos ih => simp only [List.cons_append, applyOrders, ih]

theorem applyOrders_concat (wos : List WireOrder) (wo : WireOrder) :
    applyOrders e (wos ++ [wo]) =
      ((applyOrder (applyOrders e wos).1 wo).1,
        (applyOrders e wos).2 ++ [(applyOrder (applyOrders e wos).1 wo).2]) :=
  applyOrders_append wos [wo]

theorem applyOrder_id (e : Engine AccumPub ticks maxOrders .byId) (wo : WireOrder) :
    (applyOrder e wo).2.id = wo.id := by
  simp only [applyOrder]
  split <;> rfl

/-- One ack per record, in record order. -/
theorem applyOrders_ids (wos : List WireOrder) :
    (applyOrders e wos).2.map (·.id) = wos.map (·.id) := by
  induction wos generalizing e with
  | nil => rfl
  | cons wo wos ih => simp only [applyOrders, List.map_cons, applyOrder_id, ih]

end Records

/-- Records as the read buffer holds them. -/
def decoder : Decoder UInt8 WireOrder Empty := .fixed WireOrder.size (by decide) WireOrder.ofBytes

/-- What a session that stopped looking has left is less than a record. -/
theorem decoder_more {w : List UInt8} (h : w.length < WireOrder.size) : decoder.decode w = .more :=
  Decoder.fixed_more h

/-! ## One batch -/

section Batch
variable {rbuf : List UInt8} {avail : ℕ} {e : Engine AccumPub ticks maxOrders .byId}

/-- The loop has used the front of a session's bytes for the records `wos`. -/
structure Used (rbuf : List UInt8) (avail : ℕ) (e : Engine AccumPub ticks maxOrders .byId)
    (s : Session UInt8 WireOrder Empty) (t : Batch) (wos : List WireOrder) : Prop where
  within : t.off ≤ avail
  off : t.off = 32 * t.acks.length
  acks : applyOrders e wos = (t.engine, t.acks)
  drained : decoder.drain s =
    decoder.drain { s with buffer := (rbuf.take avail).drop t.off, out := s.out ++ wos }

variable {s : Session UInt8 WireOrder Empty} {t t' : Batch} {wos : List WireOrder}

theorem recordTurn_of_le (h : WireOrder.size ≤ avail - t.off) :
    recordTurn rbuf avail t =
      let r := applyOrder t.engine (.ofBytes ((rbuf.drop t.off).take WireOrder.size))
      .again ⟨r.1, t.off + WireOrder.size, t.acks ++ [r.2]⟩ := if_pos h

theorem recordTurn_of_lt (h : avail - t.off < WireOrder.size) :
    recordTurn rbuf avail t = .done t := if_neg (by omega)

theorem Used.again (h : Used rbuf avail e s t wos) (ha : avail ≤ rbuf.length)
    (hturn : recordTurn rbuf avail t = .again t') :
    t.off < t'.off ∧ ∃ wo, Used rbuf avail e s t' (wos ++ [wo]) := by
  have hle : WireOrder.size ≤ avail - t.off := by
    by_contra hlt
    rw [recordTurn_of_lt (by omega)] at hturn
    cases hturn
  rw [recordTurn_of_le hle] at hturn
  obtain rfl := Turn.again.inj hturn
  have hoff := h.off
  have hsize : WireOrder.size = 32 := rfl
  have hin : t.off + WireOrder.size ≤ avail := by omega
  -- the record lies inside the bytes that were read
  have hrec : ((rbuf.take avail).drop t.off).take WireOrder.size =
      (rbuf.drop t.off).take WireOrder.size := by
    rw [List.drop_take, List.take_take, min_eq_left hle]
  refine ⟨Nat.lt_add_of_pos_right (by decide),
    WireOrder.ofBytes ((rbuf.drop t.off).take WireOrder.size), hin, ?_, ?_, ?_⟩
  · simp only [List.length_append, List.length_singleton]
    omega
  · rw [applyOrders_concat, h.acks]
  · have hmsg : decoder.decode ((rbuf.take avail).drop t.off) =
        .message (WireOrder.ofBytes ((rbuf.drop t.off).take WireOrder.size)) WireOrder.size := by
      rw [← hrec]
      refine Decoder.fixed_message ?_
      rw [List.length_drop, List.length_take, min_eq_left ha]
      exact hle
    have hdrain := Decoder.drain_message (D := decoder) (s := { s with
      buffer := (rbuf.take avail).drop t.off, out := s.out ++ wos }) hmsg
    rw [h.drained, hdrain]
    simp only [List.drop_drop, List.append_assoc]

/-- The loop takes every whole record there is and stops inside the last. -/
theorem batch_used (ha : avail ≤ rbuf.length) (hs : s.buffer = rbuf.take avail) :
    ∃ wos, Used rbuf avail e s (run (recordTurn rbuf avail) (avail + 1) ⟨e, 0, []⟩) wos ∧
      avail - (run (recordTurn rbuf avail) (avail + 1) ⟨e, 0, []⟩).off < WireOrder.size := by
  refine run_spec (f := recordTurn rbuf avail) (fun t => ∃ wos, Used rbuf avail e s t wos)
    (fun t => ∃ wos, Used rbuf avail e s t wos ∧ avail - t.off < WireOrder.size)
    (fun t => avail - t.off) ?_ ?_ (avail + 1) ⟨e, 0, []⟩ ?_ (by simp)
  · rintro t t' ⟨wos, h⟩ hturn
    obtain ⟨hlt, wo, h'⟩ := h.again ha hturn
    have hle := h'.within
    exact ⟨⟨_, h'⟩, by omega⟩
  · rintro t t' ⟨wos, h⟩ hturn
    by_cases hle : WireOrder.size ≤ avail - t.off
    · rw [recordTurn_of_le hle] at hturn
      cases hturn
    · have hlt : avail - t.off < WireOrder.size := by omega
      rw [recordTurn_of_lt hlt] at hturn
      obtain rfl := Turn.done.inj hturn
      exact ⟨wos, h, hlt⟩
  · refine ⟨[], by simp, rfl, rfl, ?_⟩
    simp [← hs]

end Batch

/-! ## A connection -/

/-- A connection whose reads have brought the records and the bytes of a session. -/
structure Connection.Follows (mem : Memory) (c : Connection)
    (s : Session UInt8 WireOrder Empty) : Prop where
  size : c.rbuf.length = ioBatch * WireOrder.size
  carry : c.carry < WireOrder.size
  buffer : s.buffer = c.rbuf.take c.carry
  opened : s.fault = none
  acks : applyOrders (freshEngine mem) s.out = (c.engine, c.writes.flatten)
  batches : ∀ w ∈ c.writes, w.length ≤ ioBatch

namespace Connection.Follows

variable {mem : Memory} {c : Connection} {s : Session UInt8 WireOrder Empty}

theorem new (mem : Memory) : (Connection.new mem).Follows mem {} where
  size := by simp [Connection.new]
  carry := Nat.zero_lt_succ 31
  buffer := rfl
  opened := rfl
  acks := rfl
  batches w hw := by simp [Connection.new] at hw

theorem space_pos (h : c.Follows mem s) : 0 < c.space := by
  have hsize := h.size
  have hcarry := h.carry
  simp only [Connection.space, ioBatch, WireOrder.size] at *
  omega

/-- A batch takes the session on by the bytes that were read. -/
theorem batch (h : c.Follows mem s) {bs : List UInt8} (hbs : bs.length ≤ c.space) :
    (c.batch bs).Follows mem (decoder.receive s bs) := by
  have hsize := h.size
  have hcarry := h.carry
  have hspace : c.carry + bs.length ≤ c.rbuf.length := by
    unfold Connection.space at hbs
    simp only [ioBatch, WireOrder.size] at *
    omega
  set rbuf := c.rbuf.take c.carry ++ bs ++ c.rbuf.drop (c.carry + bs.length) with hrbuf
  set avail := c.carry + bs.length with havail
  have hheld : (c.rbuf.take c.carry).length = c.carry := by
    rw [List.length_take]
    omega
  have hlen : rbuf.length = c.rbuf.length := by
    simp only [hrbuf, List.length_append, hheld, List.length_drop]
    omega
  have hbytes : rbuf.take avail = s.buffer ++ bs := by
    rw [h.buffer, hrbuf, List.take_left']
    rw [List.length_append, hheld]
  set t := run (recordTurn rbuf avail) (avail + 1) ⟨c.engine, 0, []⟩ with ht
  obtain ⟨wos, hused, hshort⟩ : ∃ wos,
      Used rbuf avail c.engine { s with buffer := s.buffer ++ bs } t wos ∧
        avail - t.off < WireOrder.size :=
    batch_used (by omega) hbytes.symm
  have hreceive : decoder.receive s bs =
      { s with buffer := (rbuf.take avail).drop t.off, out := s.out ++ wos } := by
    rw [Decoder.receive_open h.opened]
    refine hused.drained.trans (Decoder.drain_more (decoder_more ?_))
    rw [List.length_drop, List.length_take]
    omega
  have hc : c.batch bs =
      { c with
        engine := t.engine
        rbuf := if 0 < avail - t.off then
          (rbuf.drop t.off).take (avail - t.off) ++ rbuf.drop (avail - t.off) else rbuf
        carry := avail - t.off
        writes := if 0 < t.acks.length then c.writes ++ [t.acks] else c.writes } := rfl
  have hmoved : ((rbuf.drop t.off).take (avail - t.off)).length = avail - t.off := by
    rw [List.length_take, List.length_drop]
    omega
  have hoff := hused.off
  have hin := hused.within
  rw [hc, hreceive]
  refine ⟨?_, hshort, ?_, h.opened, ?_, ?_⟩
  · dsimp only
    split_ifs
    · rw [List.length_append, hmoved, List.length_drop]
      omega
    · rw [hlen, hsize]
  · dsimp only
    rw [List.drop_take]
    split_ifs with hpos
    · rw [List.take_left' hmoved]
    · rw [Nat.eq_zero_of_not_pos hpos]
      rfl
  · dsimp only
    rw [applyOrders_append, h.acks, hused.acks]
    split_ifs with hpos
    · simp
    · rw [List.eq_nil_of_length_eq_zero (Nat.eq_zero_of_not_pos hpos), List.append_nil]
  · intro w hw
    dsimp only at hw
    have hbatch : t.acks.length ≤ ioBatch := by
      simp only [ioBatch, WireOrder.size] at *
      omega
    split_ifs at hw
    · rcases List.mem_append.mp hw with hw | hw
      · exact h.batches w hw
      · rwa [List.mem_singleton.mp hw]
    · exact h.batches w hw

end Connection.Follows

theorem foldl_turn_returned {c : Connection} (h : c.returned = true) (rs : List ReadResult) :
    rs.foldl Connection.turn c = c := by
  induction rs with
  | nil => rfl
  | cons r rs ih =>
      have hturn : c.turn r = c := if_pos h
      rw [List.foldl_cons, hturn, ih]

/-- A whole connection is the session that is handed its chunks. -/
theorem Connection.Follows.foldl_turn {mem : Memory} (rs : List ReadResult) :
    ∀ {c : Connection} {s : Session UInt8 WireOrder Empty}, c.Follows mem s →
      c.returned = false → Along Connection.turn Connection.Fits c rs →
      (rs.foldl Connection.turn c).Follows mem ((chunks rs).foldl decoder.receive s) := by
  induction rs with
  | nil =>
      intro c s h _ _
      exact h
  | cons r rs ih =>
      intro c s h hopen hfits
      obtain ⟨hr, hrest⟩ := hfits
      rw [List.foldl_cons]
      cases r with
      | bytes bs =>
          have hturn : c.turn (.bytes bs) = c.batch bs := by simp [Connection.turn, hopen]
          rw [hturn] at hrest ⊢
          exact ih (h.batch hr.2) hopen hrest
      | wouldBlock =>
          have hturn : c.turn .wouldBlock = c := by simp [Connection.turn, hopen]
          rw [hturn] at hrest ⊢
          exact ih h hopen hrest
      | closed =>
          have hturn : c.turn .closed = { c with returned := true } := by
            simp [Connection.turn, hopen]
          rw [hturn, foldl_turn_returned rfl]
          exact ⟨h.size, h.carry, h.buffer, h.opened, h.acks, h.batches⟩
      | failed =>
          have hturn : c.turn .failed = { c with returned := true } := by
            simp [Connection.turn, hopen]
          rw [hturn, foldl_turn_returned rfl]
          exact ⟨h.size, h.carry, h.buffer, h.opened, h.acks, h.batches⟩

theorem serveShm_eq (wos : List WireOrder) (hops : ∀ wo ∈ wos, wo.op ≠ opDisconnect) :
    ∀ e, serveShm e wos = (applyOrders e wos).2 := by
  induction wos with
  | nil =>
      intro e
      rfl
  | cons wo wos ih =>
      intro e
      rw [serveShm, if_neg (hops wo List.mem_cons_self)]
      exact congrArg (List.cons (applyOrder e wo).2)
        (ih (fun wo' hwo' => hops wo' (List.mem_cons_of_mem _ hwo')) _)

/-- The complete records of a client's bytes. -/
def wireRecords (bs : List UInt8) : List WireOrder :=
  (records WireOrder.size bs).map WireOrder.ofBytes

/-- Whatever the reads of a connection return, the acks it writes are those of the complete
records of its stream, applied one after another to a fresh engine; between reads less than a
record is carried, so there is always room to read into, and no batch has more acks than the
array holds. A channel that is sent the same records, none of them a disconnect, replies with
the same acks. -/
theorem serve_segments (mem : Memory) (rs : List ReadResult)
    (hfits : Along Connection.turn Connection.Fits (.new mem) rs) :
    let c := rs.foldl Connection.turn (.new mem)
    let wos := wireRecords (stream rs)
    c.writes.flatten = (applyOrders (freshEngine mem) wos).2 ∧
      c.writes.flatten.map (·.id) = wos.map (·.id) ∧
      c.carry < WireOrder.size ∧ 0 < c.space ∧ (∀ w ∈ c.writes, w.length ≤ ioBatch) ∧
      ((∀ wo ∈ wos, wo.op ≠ opDisconnect) →
        serveShm (freshEngine mem) wos = c.writes.flatten) := by
  intro c wos
  have h := (Connection.Follows.new mem).foldl_turn rs rfl hfits
  have hsession : (chunks rs).foldl decoder.receive {} =
      { buffer := (stream rs).drop (WireOrder.size * ((stream rs).length / WireOrder.size))
        out := wos } := by
    have hstart : decoder.drain {} = {} := Decoder.drain_more decoder.idle
    have hfold := Decoder.foldl_receive (D := decoder) (chunks rs) {} rfl
    rw [hstart, List.nil_append] at hfold
    exact hfold.trans (Decoder.drain_fixed _)
  rw [hsession] at h
  have hacks : c.writes.flatten = (applyOrders (freshEngine mem) wos).2 := by rw [h.acks]
  refine ⟨hacks, ?_, h.carry, h.space_pos, h.batches, fun hops => ?_⟩
  · rw [hacks, applyOrders_ids]
  · rw [hacks, serveShm_eq wos hops]

/-- A submit that arrives in two pieces, the second with the start of another record. -/
theorem serve_segments_split :
    let rs : List ReadResult := [.bytes (List.replicate 20 1), .bytes (List.replicate 13 0)]
    let c := rs.foldl Connection.turn (.new .zeroed)
    c.writes.flatten.map (·.id) = [0x0101010101010101] := by
  intro rs c
  have hfits : Along Connection.turn Connection.Fits (.new .zeroed) rs := by decide +kernel
  have h := (serve_segments .zeroed rs hfits).2.1
  rw [h]
  decide +kernel

end Orderbooks.Gateway
