import Orderbooks.ShmSession
import Orderbooks.GatewayWorkload

/-!
# A client and a server over shared memory

The shared-memory modes of `apps/gateway/main.cpp` with the set-up of `shm_channel.hpp`. The server
sizes a segment, constructs the channel in it and publishes the ready word; the client maps the
segment, spins on the word for a bounded number of polls and then drives its workload with one
order in flight. They share nothing but the segment, and a schedule is any order of their turns.

A turn of the client that maps the segment is also given whether the system lets it. The rings
exist once they are constructed; `raw` records a use of one that was not.
-/
namespace Orderbooks.Gateway

/-- The word "LOBSHM01". -/
def shmMagic : UInt64 := 0x4C4F4253484D3031

/-- What the server still has to do before it serves. -/
inductive SetUp where
  | creating
  | constructing
  | publishing
  | serving
  deriving DecidableEq, Repr

/-- The three orders `run_shm_client` sends. -/
inductive Leg where
  | ask
  | bid
  | bye
  deriving DecidableEq, Repr

/-- The request that ends a session. -/
def disconnect (id : UInt64) : WireOrder :=
  { id := id, qty := 0, px := 0, newPx := 0, op := opDisconnect, side := 0, tif := 0 }

def Leg.order (next : UInt64) : Leg → WireOrder
  | .ask => restingAsk next
  | .bid => crossingBid next
  | .bye => disconnect next

/-- A `send` is two loops: the push of the order and the pop of its ack. -/
inductive ClientPc where
  | attaching
  | waiting (spins : ℕ)
  | sending (leg : Leg)
  | awaiting (leg : Leg)
  | returned (rc : ℕ)
  deriving DecidableEq, Repr

structure ShmClient where
  pc : ClientPc := .attaching
  next : UInt64 := 1
  i : UInt64 := 0
  submitted : UInt64 := 0
  fills : UInt64 := 0
  deriving DecidableEq, Repr

namespace ShmClient

/-- The head of the loop over the pairs. -/
def loop (pairs : UInt64) (c : ShmClient) : ShmClient :=
  { c with pc := .sending (if c.i < pairs then .ask else .bye) }

/-- The order of a leg is in the ring. -/
def pushed (c : ShmClient) (leg : Leg) : ShmClient :=
  { c with pc := .awaiting leg, next := if leg = .bye then c.next else c.next + 1 }

/-- The ack of a leg has come. -/
def acked (pairs : UInt64) (c : ShmClient) (ack : WireAck) : Leg → ShmClient
  | .ask => { c with pc := .sending .bid }
  | .bid =>
      loop pairs { c with
        fills := c.fills + ack.filled
        submitted := c.submitted + 2
        i := c.i + 1 }
  | .bye => { c with pc := .returned (if c.fills = pairs then 0 else 1) }

end ShmClient

structure ShmGateway where
  server : ShmServer
  setUp : SetUp := .creating
  ready : UInt64 := 0
  built : Bool := false
  client : ShmClient := {}
  raw : Bool := false

/-- Who takes a turn; a client that attaches is told whether it may. -/
inductive ShmTurn where
  | server
  | client (granted : Bool)
  deriving DecidableEq, Repr

inductive ShmParty where
  | server
  | client
  deriving DecidableEq, Repr

def ShmTurn.party : ShmTurn → ShmParty
  | .server => .server
  | .client _ => .client

namespace ShmGateway

/-- Two processes that start together. -/
def new (mem : Memory) : ShmGateway := { server := .new mem }

/-- The self-test, whose channel is published before the client attaches. -/
def published (mem : Memory) : ShmGateway :=
  { server := .new mem, setUp := .serving, ready := shmMagic, built := true }

def serverTurn (capacity : ℕ) (g : ShmGateway) : ShmGateway :=
  match g.setUp with
  | .creating => { g with setUp := .constructing }
  | .constructing => { g with setUp := .publishing, built := true, ready := 0 }
  | .publishing => { g with setUp := .serving, ready := shmMagic }
  | .serving => { g with server := g.server.serve capacity }

/-- A client that uses a ring finds it constructed or not. -/
def touch (g : ShmGateway) : ShmGateway := { g with raw := g.raw || !g.built }

def clientTurn (capacity : ℕ) (pairs : UInt64) (spins : ℕ) (granted : Bool) (g : ShmGateway) :
    ShmGateway :=
  match g.client.pc with
  | .attaching =>
      -- before it is sized the segment is not there, or too small to be mapped
      if g.setUp = .creating ∨ granted = false then
        { g with client := { g.client with pc := .returned 1 } }
      else { g with client := { g.client with pc := .waiting spins } }
  | .waiting 0 => { g with client := { g.client with pc := .returned 1 } }
  | .waiting (k + 1) =>
      if g.ready = shmMagic then { g with client := g.client.loop pairs }
      else { g with client := { g.client with pc := .waiting k } }
  | .sending leg =>
      match g.server.tryPush capacity (leg.order g.client.next) with
      | (false, _) => g.touch
      | (true, s) => { g.touch with server := s, client := g.client.pushed leg }
  | .awaiting leg =>
      match g.server.tryPop with
      | (none, _) => g.touch
      | (some ack, s) => { g.touch with server := s, client := g.client.acked pairs ack leg }
  | .returned _ => g

def turn (capacity : ℕ) (pairs : UInt64) (spins : ℕ) (g : ShmGateway) : ShmTurn → ShmGateway
  | .server => g.serverTurn capacity
  | .client granted => g.clientTurn capacity pairs spins granted

end ShmGateway

/-! ## Where the client stands -/

theorem workload_op (n : ℕ) (next : UInt64) : ∀ wo ∈ workload n next, wo.op ≠ opDisconnect := by
  induction n generalizing next with
  | zero =>
      intro wo hwo
      simp [workload] at hwo
  | succ n ih =>
      intro wo hwo
      rcases List.mem_cons.mp hwo with rfl | hwo
      · exact (by decide : (0 : UInt8) ≠ opDisconnect)
      rcases List.mem_cons.mp hwo with rfl | hwo
      · exact (by decide : (0 : UInt8) ≠ opDisconnect)
      · exact ih (next + 2) wo hwo

/-- The client's locals after `n` pairs, with `k` orders of the next one sent. -/
def ShmClient.atPair (n k : ℕ) (pc : ClientPc) : ShmClient where
  pc := pc
  next := UInt64.ofNat (2 * n + k + 1)
  i := UInt64.ofNat n
  submitted := UInt64.ofNat (2 * n)
  fills := UInt64.ofNat n

/-- The last request, which follows all the pairs. -/
def lastRequest (pairs : ℕ) : WireOrder := disconnect (UInt64.ofNat (2 * pairs + 1))

/-- The requests of `n` pairs and the ask of the next one. -/
def openPair (n : ℕ) : List WireOrder := workload n 1 ++ [restingAsk (UInt64.ofNat (2 * n + 1))]

/-- A state of the client with the requests it has pushed. -/
inductive Stage (pairs : ℕ) : ShmClient → List WireOrder → Prop
  | attaching : Stage pairs {} []
  | waiting (k : ℕ) : Stage pairs { pc := .waiting k } []
  | refused : Stage pairs { pc := .returned 1 } []
  | sendAsk {n : ℕ} : n < pairs → Stage pairs (.atPair n 0 (.sending .ask)) (workload n 1)
  | awaitAsk {n : ℕ} : n < pairs → Stage pairs (.atPair n 1 (.awaiting .ask)) (openPair n)
  | sendBid {n : ℕ} : n < pairs → Stage pairs (.atPair n 1 (.sending .bid)) (openPair n)
  | awaitBid {n : ℕ} : n < pairs → Stage pairs (.atPair n 2 (.awaiting .bid)) (workload (n + 1) 1)
  | sendBye : Stage pairs (.atPair pairs 0 (.sending .bye)) (workload pairs 1)
  | awaitBye :
      Stage pairs (.atPair pairs 0 (.awaiting .bye)) (workload pairs 1 ++ [lastRequest pairs])
  | done : Stage pairs (.atPair pairs 0 (.returned 0)) (workload pairs 1 ++ [lastRequest pairs])

/-- How many of the client's orders have no ack yet. -/
def ClientPc.inFlight : ClientPc → ℕ
  | .awaiting _ => 1
  | _ => 0

/-- The client works with the rings. -/
def ClientPc.Driving : ClientPc → Prop
  | .sending _ => True
  | .awaiting _ => True
  | _ => False

theorem openPair_succ (n : ℕ) :
    workload (n + 1) 1 = openPair n ++ [crossingBid (UInt64.ofNat (2 * n + 2))] := by
  have hid : (1 : UInt64) + 2 * UInt64.ofNat n = UInt64.ofNat (2 * n + 1) := by
    rw [UInt64.ofNat_add, UInt64.ofNat_mul, UInt64.add_comm]
    rfl
  have hid' : UInt64.ofNat (2 * n + 1) + 1 = UInt64.ofNat (2 * n + 2) := by
    rw [← UInt64.ofNat_one, ← UInt64.ofNat_add]
  rw [workload_succ, hid, hid', openPair, List.append_assoc]
  rfl

/-- From the head of the loop the client goes to the next ask or leaves. -/
theorem Stage.loop {pairs : UInt64} {n : ℕ} (h : n ≤ pairs.toNat) (pc : ClientPc) :
    Stage pairs.toNat ((ShmClient.atPair n 0 pc).loop pairs) (workload n 1) := by
  have hi : (UInt64.ofNat n).toNat = n :=
    UInt64.toNat_ofNat_of_lt' (lt_of_le_of_lt h pairs.toNat_lt)
  by_cases hn : n < pairs.toNat
  · have hlt : (ShmClient.atPair n 0 pc).i < pairs := by
      rw [UInt64.lt_iff_toNat_lt]
      simpa [ShmClient.atPair, hi] using hn
    rw [ShmClient.loop, if_pos hlt]
    exact .sendAsk hn
  · have hlt : ¬(ShmClient.atPair n 0 pc).i < pairs := by
      rw [UInt64.lt_iff_toNat_lt]
      simpa [ShmClient.atPair, hi] using hn
    rw [ShmClient.loop, if_neg hlt]
    obtain rfl : n = pairs.toNat := by omega
    exact .sendBye

/-- Before it drives the rings the client is as it started. -/
theorem Stage.unstarted {pairs : ℕ} {c : ShmClient} {sent : List WireOrder}
    (h : Stage pairs c sent) (hd : ¬c.pc.Driving) (hr : ∀ rc, c.pc ≠ .returned rc) :
    c = { pc := c.pc } ∧ sent = [] := by
  cases h with
  | attaching => exact ⟨rfl, rfl⟩
  | waiting k => exact ⟨rfl, rfl⟩
  | refused => exact absurd rfl (hr 1)
  | done => exact absurd rfl (hr 0)
  | sendAsk | awaitAsk | sendBid | awaitBid | sendBye | awaitBye => exact absurd trivial hd

/-- Only the last request can be a disconnect. -/
theorem Stage.op_dropLast {pairs : ℕ} {c : ShmClient} {sent : List WireOrder}
    (h : Stage pairs c sent) : ∀ wo ∈ sent.dropLast, wo.op ≠ opDisconnect := by
  have hpairs : ∀ n, ∀ wo ∈ (workload n 1).dropLast, wo.op ≠ opDisconnect :=
    fun n wo hwo => workload_op n 1 wo (List.mem_of_mem_dropLast hwo)
  have hopen : ∀ n, ∀ wo ∈ (openPair n).dropLast, wo.op ≠ opDisconnect := by
    intro n wo hwo
    rw [openPair, List.dropLast_concat] at hwo
    exact workload_op n 1 wo hwo
  have hlast : ∀ wo ∈ (workload pairs 1 ++ [lastRequest pairs]).dropLast,
      wo.op ≠ opDisconnect := by
    intro wo hwo
    rw [List.dropLast_concat] at hwo
    exact workload_op pairs 1 wo hwo
  cases h with
  | attaching | waiting | refused => exact fun wo hwo => absurd hwo List.not_mem_nil
  | sendAsk | awaitBid | sendBye => exact hpairs _
  | awaitAsk | sendBid => exact hopen _
  | awaitBye | done => exact hlast

theorem ShmClient.atPair_pushed (n k : ℕ) {leg : Leg} (hleg : leg ≠ .bye) :
    (atPair n k (.sending leg)).pushed leg = atPair n (k + 1) (.awaiting leg) := by
  have hnext : UInt64.ofNat (2 * n + k + 1) + 1 = UInt64.ofNat (2 * n + (k + 1) + 1) := by
    rw [← Nat.add_assoc, UInt64.ofNat_add (2 * n + k + 1)]
    rfl
  simp only [pushed, atPair, hnext, if_neg hleg]

theorem Stage.pushed {pairs : ℕ} {c : ShmClient} {sent : List WireOrder} {leg : Leg}
    (h : Stage pairs c sent) (hpc : c.pc = .sending leg) :
    Stage pairs (c.pushed leg) (sent ++ [leg.order c.next]) := by
  cases h with
  | @sendAsk n hn =>
      obtain rfl : Leg.ask = leg := ClientPc.sending.inj hpc
      rw [ShmClient.atPair_pushed n 0 (by decide)]
      exact .awaitAsk hn
  | @sendBid n hn =>
      obtain rfl : Leg.bid = leg := ClientPc.sending.inj hpc
      have hsent := openPair_succ n
      rw [ShmClient.atPair_pushed n 1 (by decide)]
      exact hsent ▸ .awaitBid hn
  | sendBye =>
      obtain rfl : Leg.bye = leg := ClientPc.sending.inj hpc
      exact .awaitBye
  | attaching | waiting | refused | done | awaitAsk | awaitBid | awaitBye => cases hpc

/-! ## What every turn keeps -/

namespace ShmGateway

variable {capacity : ℕ} {mem : Memory} {pairs : UInt64} {spins : ℕ} {g : ShmGateway}

structure Sound (capacity : ℕ) (mem : Memory) (pairs : UInt64) (g : ShmGateway) : Prop where
  answers : g.server.Answers capacity mem
  stage : Stage pairs.toNat g.client g.server.sent
  flight : g.server.received.length + g.client.pc.inFlight = g.server.sent.length
  ready : g.ready = shmMagic → g.setUp = .serving
  built : g.setUp = .publishing ∨ g.setUp = .serving → g.built = true
  driving : g.client.pc.Driving → g.setUp = .serving
  raw : g.raw = false

namespace Sound

theorem new : (ShmGateway.new mem).Sound capacity mem pairs where
  answers := .new mem
  stage := .attaching
  flight := rfl
  ready h := absurd h (by decide : (0 : UInt64) ≠ shmMagic)
  built h := by simp [ShmGateway.new] at h
  driving h := h.elim
  raw := rfl

theorem published : (ShmGateway.published mem).Sound capacity mem pairs where
  answers := .new mem
  stage := .attaching
  flight := rfl
  ready _ := rfl
  built _ := rfl
  driving h := h.elim
  raw := rfl

variable (h : g.Sound capacity mem pairs)
include h

theorem serverTurn : (g.serverTurn capacity).Sound capacity mem pairs := by
  have hidle : g.setUp ≠ .serving → ¬g.client.pc.Driving := fun hs hd => hs (h.driving hd)
  have hready : g.setUp ≠ .serving → g.ready ≠ shmMagic := fun hs hr => hs (h.ready hr)
  unfold ShmGateway.serverTurn
  split
  · rename_i hs
    have hs' : g.setUp ≠ .serving := by simp [hs]
    exact { h with
      ready := fun hr => absurd hr (hready hs')
      built := fun hb => by simp at hb
      driving := fun hd => absurd hd (hidle hs') }
  · rename_i hs
    have hs' : g.setUp ≠ .serving := by simp [hs]
    exact { h with
      ready := fun hr => absurd hr (by decide : (0 : UInt64) ≠ shmMagic)
      built := fun _ => rfl
      driving := fun hd => absurd hd (hidle hs') }
  · rename_i hs
    exact { h with
      ready := fun _ => rfl
      built := fun _ => h.built (.inl hs)
      driving := fun _ => rfl }
  · obtain ⟨hsent, hreceived⟩ := g.server.serve_client capacity
    exact { h with
      answers := h.answers.serve
      stage := by rw [hsent]; exact h.stage
      flight := by rw [hsent, hreceived]; exact h.flight }

/-- While the client works with the rings they are there. -/
theorem touch (hd : g.client.pc.Driving) : g.touch = g := by
  have hraw : (g.raw || !g.built) = g.raw := by
    rw [h.built (.inr (h.driving hd)), Bool.not_true, Bool.or_false]
  rw [ShmGateway.touch, hraw]

/-- What the client pops is the answer to the order it waits for. -/
theorem received_concat {leg : Leg} (hpc : g.client.pc = .awaiting leg) {ack : WireAck}
    {rest : List WireAck} (hrep : g.server.replies = ack :: rest) :
    g.server.received ++ [ack] = serveShm (freshEngine mem) g.server.sent := by
  have hflight := h.flight
  have hpop := h.answers.tryPop
  have hr : g.server.tryPop.2 =
      { g.server with replies := rest, received := g.server.received ++ [ack] } := by
    simp [ShmServer.tryPop, hrep]
  rw [hr] at hpop
  refine hpop.caughtUp ?_
  rw [hpc] at hflight
  simpa [ClientPc.inFlight] using hflight

omit h in
/-- A crossing bid is filled. -/
theorem bid_filled (hpairs : 2 * pairs.toNat + 1 < 2 ^ 64) {n : ℕ} (hn : n < pairs.toNat)
    {acks : List WireAck} {ack : WireAck}
    (hack : acks ++ [ack] = serveShm (freshEngine mem) (workload (n + 1) 1)) :
    ack.filled = 1 := by
  have hfills := (Idle.workload (n + 1) (freshEngine_idle mem)
    (by decide : 0 < (1 : UInt64).toNat) (by simp; omega)).1
  rw [serveShm_eq _ (workload_op _ _)] at hack
  rw [← hack, List.replicate_succ', List.flatten_append, List.map_append] at hfills
  simpa using congrArg List.getLast? hfills

theorem acked (hpairs : 2 * pairs.toNat + 1 < 2 ^ 64) {leg : Leg}
    (hpc : g.client.pc = .awaiting leg) {ack : WireAck}
    (hack : g.server.received ++ [ack] = serveShm (freshEngine mem) g.server.sent) :
    Stage pairs.toNat (g.client.acked pairs ack leg) g.server.sent := by
  have hstage := h.stage
  generalize hc : g.client = c at hstage hpc ⊢
  generalize hs : g.server.sent = sent at hstage
  cases hstage with
  | attaching => simp at hpc
  | waiting k => simp at hpc
  | refused => simp at hpc
  | sendAsk hn => simp [ShmClient.atPair] at hpc
  | sendBid hn => simp [ShmClient.atPair] at hpc
  | sendBye => simp [ShmClient.atPair] at hpc
  | done => simp [ShmClient.atPair] at hpc
  | awaitAsk hn =>
      obtain rfl : Leg.ask = leg := by simpa [ShmClient.atPair] using hpc
      exact .sendBid hn
  | @awaitBid n hn =>
      obtain rfl : Leg.bid = leg := by simpa [ShmClient.atPair] using hpc
      have hfill := bid_filled hpairs hn (hs ▸ hack)
      have hnext : (ShmClient.atPair n 2 (.awaiting .bid)).acked pairs ack .bid =
          (ShmClient.atPair (n + 1) 0 (.awaiting .bid)).loop pairs := by
        simp only [ShmClient.acked, ShmClient.atPair, hfill, Nat.mul_succ, Nat.add_zero,
          UInt64.ofNat_add]
        rfl
      rw [hnext]
      exact .loop hn _
  | awaitBye =>
      obtain rfl : Leg.bye = leg := by simpa [ShmClient.atPair] using hpc
      have hrc : (ShmClient.atPair pairs.toNat 0 (.awaiting .bye)).fills = pairs :=
        UInt64.ofNat_toNat
      rw [ShmClient.acked, if_pos hrc]
      exact .done

/-- The client moves on by itself, without a use of the rings. -/
theorem setClient {c : ShmClient} (hstage : Stage pairs.toNat c g.server.sent)
    (hflight : c.pc.inFlight = g.client.pc.inFlight) (hd : c.pc.Driving → g.setUp = .serving) :
    ({ g with client := c } : ShmGateway).Sound capacity mem pairs := by
  refine { h with stage := hstage, flight := ?_, driving := hd }
  rw [hflight]
  exact h.flight

theorem attachingTurn (hpc : g.client.pc = .attaching) (granted : Bool) :
    (g.clientTurn capacity pairs spins granted).Sound capacity mem pairs := by
  obtain ⟨hc, hsent⟩ := h.stage.unstarted (by simp [hpc, ClientPc.Driving]) (by simp [hpc])
  simp only [ShmGateway.clientTurn, hpc]
  split_ifs
  · refine h.setClient ?_ (by simp [hpc, ClientPc.inFlight]) fun hd => hd.elim
    rw [hsent, hc]
    exact .refused
  · refine h.setClient ?_ (by simp [hpc, ClientPc.inFlight]) fun hd => hd.elim
    rw [hsent, hc]
    exact .waiting spins

theorem waitingTurn {k : ℕ} (hpc : g.client.pc = .waiting k) (granted : Bool) :
    (g.clientTurn capacity pairs spins granted).Sound capacity mem pairs := by
  obtain ⟨hc, hsent⟩ := h.stage.unstarted (by simp [hpc, ClientPc.Driving]) (by simp [hpc])
  have hidle : g.client.pc.inFlight = 0 := by simp [hpc, ClientPc.inFlight]
  cases k with
  | zero =>
      simp only [ShmGateway.clientTurn, hpc]
      refine h.setClient ?_ hidle.symm fun hd => hd.elim
      rw [hsent, hc]
      exact .refused
  | succ k =>
      simp only [ShmGateway.clientTurn, hpc]
      split_ifs with hready
      · refine h.setClient ?_ hidle.symm fun _ => h.ready hready
        rw [hsent, hc]
        exact .loop (Nat.zero_le _) _
      · refine h.setClient ?_ hidle.symm fun hd => hd.elim
        rw [hsent, hc]
        exact .waiting k

theorem sendingTurn {leg : Leg} (hpc : g.client.pc = .sending leg) (granted : Bool) :
    (g.clientTurn capacity pairs spins granted).Sound capacity mem pairs := by
  have hd : g.client.pc.Driving := by
    rw [hpc]
    trivial
  simp only [ShmGateway.clientTurn, hpc, h.touch hd]
  have hpush := h.answers.tryPush (leg.order g.client.next)
  unfold ShmServer.tryPush at hpush ⊢
  cases hq : Channel.push capacity g.server.requests (leg.order g.client.next) with
  | none => exact h
  | some q =>
      rw [hq] at hpush
      have hflight := h.flight
      simp only [hpc, ClientPc.inFlight, Nat.add_zero] at hflight
      refine { h with answers := hpush, stage := h.stage.pushed hpc, flight := ?_, driving := ?_ }
      · simp [ShmClient.pushed, ClientPc.inFlight, hflight]
      · exact fun _ => h.driving hd

theorem awaitingTurn (hpairs : 2 * pairs.toNat + 1 < 2 ^ 64) {leg : Leg}
    (hpc : g.client.pc = .awaiting leg) (granted : Bool) :
    (g.clientTurn capacity pairs spins granted).Sound capacity mem pairs := by
  have hd : g.client.pc.Driving := by
    rw [hpc]
    trivial
  simp only [ShmGateway.clientTurn, hpc, h.touch hd]
  have hpop := h.answers.tryPop
  unfold ShmServer.tryPop at hpop ⊢
  cases hrep : g.server.replies with
  | nil => exact h
  | cons ack rest =>
      rw [hrep] at hpop
      have hstage := h.acked hpairs hpc (h.received_concat hpc hrep)
      have hflight := h.flight
      have hidle : (g.client.acked pairs ack leg).pc.inFlight = 0 := by
        cases leg <;> rfl
      simp only [hpc, ClientPc.inFlight] at hflight
      refine { h with answers := hpop, stage := hstage, flight := ?_, driving := ?_ }
      · simp [hidle, hflight]
      · exact fun _ => h.driving hd

theorem turn (hpairs : 2 * pairs.toNat + 1 < 2 ^ 64) (t : ShmTurn) :
    (g.turn capacity pairs spins t).Sound capacity mem pairs := by
  cases t with
  | server => exact h.serverTurn
  | client granted =>
      change (g.clientTurn capacity pairs spins granted).Sound capacity mem pairs
      cases hpc : g.client.pc with
      | attaching => exact h.attachingTurn hpc granted
      | waiting k => exact h.waitingTurn hpc granted
      | sending leg => exact h.sendingTurn hpc granted
      | awaiting leg => exact h.awaitingTurn hpairs hpc granted
      | returned rc =>
          simp only [ShmGateway.clientTurn, hpc]
          exact h

end Sound

end ShmGateway

end Orderbooks.Gateway
