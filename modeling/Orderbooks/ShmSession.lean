import Orderbooks.GatewayFraming
import Orderbooks.Lib.Channel

/-!
# A session over shared memory

`serve_shm` of `apps/gateway/main.cpp` between the two rings of a `shm_channel`. The server pops
a request, answers it and pushes the ack; on a ring that is empty or full it spins, which is a
turn that changes nothing. The client is any process at all that pushes requests and pops
replies when it likes, so a schedule is any list of turns of the server and calls of the client.

Rings are channels. `sent`, `taken` and `received` record what the calls returned; no turn reads
them.
-/
namespace Orderbooks.Gateway

/-- Where `serve_shm` is. An answer is `last` when it is the one to a disconnect. -/
inductive ShmPc where
  | polling
  | answering (ack : WireAck) (last : Bool)
  | returned
  deriving DecidableEq, Repr

structure ShmServer where
  engine : Engine AccumPub ticks maxOrders .byId
  requests : List WireOrder := []
  replies : List WireAck := []
  pc : ShmPc := .polling
  sent : List WireOrder := []
  taken : List WireOrder := []
  received : List WireAck := []

inductive ShmAction where
  | serve
  | push (wo : WireOrder)
  | pop
  deriving DecidableEq, Repr

namespace ShmServer

def new (mem : Memory) : ShmServer := { engine := freshEngine mem }

/-- What the server does with a request it has popped. -/
def take (s : ShmServer) (wo : WireOrder) : ShmServer :=
  let s := { s with taken := s.taken ++ [wo] }
  if wo.op = opDisconnect then { s with pc := .answering ⟨wo.id, 0, 0, ackProcessed⟩ true }
  else
    let (engine, ack) := applyOrder s.engine wo
    { s with engine := engine, pc := .answering ack false }

/-- A turn of the server. -/
def serve (capacity : ℕ) (s : ShmServer) : ShmServer :=
  match s.pc with
  | .polling =>
      match s.requests with
      | [] => s
      | wo :: rest => { s with requests := rest }.take wo
  | .answering ack last =>
      match Channel.push capacity s.replies ack with
      | none => s
      | some q => { s with replies := q, pc := if last then .returned else .polling }
  | .returned => s

/-- `requests.try_push`, as the client calls it. -/
def tryPush (capacity : ℕ) (s : ShmServer) (wo : WireOrder) : Bool × ShmServer :=
  match Channel.push capacity s.requests wo with
  | none => (false, s)
  | some q => (true, { s with requests := q, sent := s.sent ++ [wo] })

/-- `replies.try_pop`, as the client calls it. -/
def tryPop (s : ShmServer) : Option WireAck × ShmServer :=
  match s.replies with
  | [] => (none, s)
  | ack :: rest => (some ack, { s with replies := rest, received := s.received ++ [ack] })

def step (capacity : ℕ) (s : ShmServer) : ShmAction → ShmServer
  | .serve => s.serve capacity
  | .push wo => (s.tryPush capacity wo).2
  | .pop => s.tryPop.2

end ShmServer

/-! ## What a session answers -/

/-- The answer the server has in hand. -/
def ShmPc.pending : ShmPc → List WireAck
  | .polling => []
  | .answering ack _ => [ack]
  | .returned => []

theorem ShmPc.pending_answered (last : Bool) :
    pending (if last then .returned else .polling) = [] := by
  cases last <;> rfl

/-- The server has seen the request that ends the session. -/
def ShmPc.Leaving : ShmPc → Prop
  | .polling => False
  | .answering _ last => last = true
  | .returned => True

theorem serveShm_append {e : Engine AccumPub ticks maxOrders .byId} {wos : List WireOrder}
    (hops : ∀ wo ∈ wos, wo.op ≠ opDisconnect) (more : List WireOrder) :
    serveShm e (wos ++ more) = (applyOrders e wos).2 ++ serveShm (applyOrders e wos).1 more := by
  induction wos generalizing e with
  | nil => rfl
  | cons wo wos ih =>
      rw [List.cons_append, serveShm, if_neg (hops wo List.mem_cons_self)]
      exact congrArg (List.cons (applyOrder e wo).2)
        (ih fun wo' hwo' => hops wo' (List.mem_cons_of_mem _ hwo'))

/-- Nothing that follows a disconnect is answered. -/
theorem serveShm_disconnect {e : Engine AccumPub ticks maxOrders .byId} {wos : List WireOrder}
    (hops : ∀ wo ∈ wos, wo.op ≠ opDisconnect) {bye : WireOrder} (hbye : bye.op = opDisconnect)
    (more : List WireOrder) :
    serveShm e (wos ++ bye :: more) =
      (applyOrders e wos).2 ++ [⟨bye.id, 0, 0, ackProcessed⟩] := by
  rw [serveShm_append hops, serveShm, if_pos hbye]

theorem serveShm_length_le (wos : List WireOrder) (e : Engine AccumPub ticks maxOrders .byId) :
    (serveShm e wos).length ≤ wos.length := by
  induction wos generalizing e with
  | nil => exact Nat.le_refl 0
  | cons wo wos ih =>
      rw [serveShm]
      split_ifs
      · exact Nat.succ_le_succ (Nat.zero_le _)
      · exact Nat.succ_le_succ (ih _)

namespace ShmServer

variable {capacity : ℕ} {mem : Memory} {s : ShmServer}

/-- The server leaves alone what the client has pushed and popped. -/
theorem serve_client (capacity : ℕ) (s : ShmServer) :
    (s.serve capacity).sent = s.sent ∧ (s.serve capacity).received = s.received := by
  unfold serve
  split
  · split
    · exact ⟨rfl, rfl⟩
    · unfold take
      dsimp only
      split <;> exact ⟨rfl, rfl⟩
  · split <;> exact ⟨rfl, rfl⟩
  · exact ⟨rfl, rfl⟩

/-- The turns of the server and of the client that what is in the rings still takes. -/
def work (s : ShmServer) : ℕ :=
  3 * s.requests.length + 2 * s.pc.pending.length + s.replies.length

/-- A turn of the server is a spin or gets some of the work done. -/
theorem serve_work (capacity : ℕ) (s : ShmServer) :
    s.serve capacity = s ∨ (s.serve capacity).work < s.work := by
  unfold serve
  split
  · rename_i hpc
    split
    · exact .inl rfl
    · rename_i wo rest hreq
      refine .inr ?_
      unfold take
      dsimp only
      split <;> simp only [work, hpc, hreq, ShmPc.pending, List.length_cons, List.length_nil] <;>
        omega
  · rename_i ack last hpc
    split
    · exact .inl rfl
    · rename_i q hq
      obtain ⟨-, rfl⟩ := Channel.push_eq_some.mp hq
      refine .inr ?_
      have hnone := congrArg List.length (ShmPc.pending_answered last)
      have hone : s.pc.pending.length = 1 := by rw [hpc, ShmPc.pending, List.length_singleton]
      simp only [work, hnone, hone, List.length_append, List.length_cons, List.length_nil]
      omega
  · exact .inl rfl

/-- A session so far: what was taken has been answered in its order, with at most the last
answer still in hand, and only the last request taken can be a disconnect. -/
structure Answers (capacity : ℕ) (mem : Memory) (s : ShmServer) : Prop where
  sent : s.sent = s.taken ++ s.requests
  acks : s.received ++ s.replies ++ s.pc.pending = serveShm (freshEngine mem) s.taken
  counts : s.received.length + s.replies.length + s.pc.pending.length = s.taken.length
  engine : ¬s.pc.Leaving → s.engine = (applyOrders (freshEngine mem) s.taken).1
  serving : ¬s.pc.Leaving → ∀ wo ∈ s.taken, wo.op ≠ opDisconnect
  leaving : s.pc.Leaving → ∃ wos bye, s.taken = wos ++ [bye] ∧ bye.op = opDisconnect ∧
    ∀ wo ∈ wos, wo.op ≠ opDisconnect
  requestsFit : s.requests.length ≤ capacity
  repliesFit : s.replies.length ≤ capacity

namespace Answers

theorem new (mem : Memory) : (ShmServer.new mem).Answers capacity mem where
  sent := rfl
  acks := rfl
  counts := rfl
  engine _ := rfl
  serving _ wo hwo := by simp [ShmServer.new] at hwo
  leaving h := h.elim
  requestsFit := Nat.zero_le _
  repliesFit := Nat.zero_le _

variable (h : s.Answers capacity mem)
include h

theorem take (hpc : s.pc = .polling) {wo : WireOrder} {rest : List WireOrder}
    (hreq : s.requests = wo :: rest) :
    ({ s with requests := rest }.take wo).Answers capacity mem := by
  have hopen : ¬s.pc.Leaving := by
    rw [hpc]
    exact id
  have hsent : s.sent = s.taken ++ [wo] ++ rest := by
    rw [h.sent, hreq, List.append_assoc]
    rfl
  have hacks : s.received ++ s.replies = (applyOrders (freshEngine mem) s.taken).2 := by
    rw [← serveShm_eq s.taken (h.serving hopen), ← h.acks, hpc]
    simp [ShmPc.pending]
  have hcount := h.counts
  have hfit := h.requestsFit
  simp only [hpc, ShmPc.pending, List.length_nil] at hcount
  simp only [hreq, List.length_cons] at hfit
  by_cases hop : wo.op = opDisconnect
  · have htake : { s with requests := rest }.take wo =
        { s with
          requests := rest
          taken := s.taken ++ [wo]
          pc := .answering ⟨wo.id, 0, 0, ackProcessed⟩ true } := if_pos hop
    rw [htake]
    refine ⟨hsent, ?_, ?_, fun hl => absurd rfl hl, fun hl => absurd rfl hl,
      fun _ => ⟨s.taken, wo, rfl, hop, h.serving hopen⟩, by simp only; omega, h.repliesFit⟩
    · rw [serveShm_disconnect (h.serving hopen) hop, ← hacks]
      rfl
    · simp only [ShmPc.pending, List.length_append, List.length_singleton]
      omega
  · have htake : { s with requests := rest }.take wo =
        { s with
          requests := rest
          taken := s.taken ++ [wo]
          engine := (applyOrder s.engine wo).1
          pc := .answering (applyOrder s.engine wo).2 false } := if_neg hop
    rw [htake]
    have hserving : ∀ wo' ∈ s.taken ++ [wo], wo'.op ≠ opDisconnect := by
      intro wo' hwo'
      rcases List.mem_append.mp hwo' with hwo' | hwo'
      · exact h.serving hopen wo' hwo'
      · rwa [List.mem_singleton.mp hwo']
    refine ⟨hsent, ?_, ?_, fun _ => ?_, fun _ => hserving, fun hl => by simp [ShmPc.Leaving] at hl,
      by simp only; omega, h.repliesFit⟩
    · rw [serveShm_eq _ hserving, applyOrders_concat, ← hacks, ← h.engine hopen]
      rfl
    · simp only [ShmPc.pending, List.length_append, List.length_singleton]
      omega
    · rw [applyOrders_concat, ← h.engine hopen]

theorem serve : (s.serve capacity).Answers capacity mem := by
  unfold ShmServer.serve
  split
  · rename_i hpc
    split
    · exact h
    · rename_i hreq
      exact h.take hpc hreq
  · rename_i ack last hpc
    split
    · exact h
    · rename_i q hq
      obtain ⟨hroom, rfl⟩ := Channel.push_eq_some.mp hq
      have hleaving : ShmPc.Leaving (if last = true then .returned else .polling) ↔
          s.pc.Leaving := by
        rw [hpc]
        cases last <;> simp [ShmPc.Leaving]
      have hacks := h.acks
      have hcount := h.counts
      simp only [hpc, ShmPc.pending, List.length_singleton] at hacks hcount
      refine ⟨h.sent, ?_, ?_, fun hl => h.engine (mt hleaving.mpr hl),
        fun hl => h.serving (mt hleaving.mpr hl), fun hl => h.leaving (hleaving.mp hl),
        h.requestsFit, ?_⟩
      · rw [ShmPc.pending_answered, List.append_nil, ← List.append_assoc, hacks]
      · simp only [ShmPc.pending_answered, List.length_append, List.length_nil,
          List.length_singleton]
        omega
      · simp only [List.length_append, List.length_singleton]
        omega
  · exact h

theorem tryPush (wo : WireOrder) : (s.tryPush capacity wo).2.Answers capacity mem := by
  unfold ShmServer.tryPush
  split
  · exact h
  · rename_i q hq
    obtain ⟨hroom, rfl⟩ := Channel.push_eq_some.mp hq
    refine { h with sent := ?_, requestsFit := ?_ }
    · rw [h.sent, List.append_assoc]
    · simp only [List.length_append, List.length_singleton]
      omega

theorem tryPop : s.tryPop.2.Answers capacity mem := by
  unfold ShmServer.tryPop
  split
  · exact h
  · rename_i ack rest hrep
    have hacks := h.acks
    have hcount := h.counts
    have hfit := h.repliesFit
    rw [hrep] at hacks hcount hfit
    simp only [List.length_cons] at hcount hfit
    refine { h with acks := ?_, counts := ?_, repliesFit := by simp only; omega }
    · rw [← hacks]
      simp
    · simp only [List.length_append, List.length_singleton]
      omega

theorem step (a : ShmAction) : (s.step capacity a).Answers capacity mem := by
  cases a with
  | serve => exact h.serve
  | push wo => exact h.tryPush wo
  | pop => exact h.tryPop

theorem run (acts : List ShmAction) :
    (acts.foldl (ShmServer.step capacity) s).Answers capacity mem := by
  induction acts generalizing s with
  | nil => exact h
  | cons a acts ih => exact ih (h.step a)

/-- What the requests not taken yet will be answered with comes after what there is. -/
theorem isPrefix :
    s.received ++ s.replies ++ s.pc.pending <+: serveShm (freshEngine mem) s.sent := by
  rw [h.acks, h.sent]
  by_cases hl : s.pc.Leaving
  · obtain ⟨wos, bye, htaken, hbye, hops⟩ := h.leaving hl
    rw [htaken, List.append_assoc, List.singleton_append, serveShm_disconnect hops hbye,
      serveShm_disconnect hops hbye]
  · rw [serveShm_append (h.serving hl), serveShm_eq _ (h.serving hl)]
    exact List.prefix_append _ _

/-- A client that has an ack for each of its requests has the answers to all of them. -/
theorem caughtUp (hlen : s.received.length = s.sent.length) :
    s.received = serveShm (freshEngine mem) s.sent := by
  have hpre := h.isPrefix
  rw [List.append_assoc] at hpre
  refine ((List.prefix_append _ _).trans hpre).eq_of_length_le ?_
  rw [hlen]
  exact serveShm_length_le _ _

/-- Once the server has left, the session is answered to its end. -/
theorem returned (hpc : s.pc = .returned) :
    s.received ++ s.replies = serveShm (freshEngine mem) s.sent := by
  have hl : s.pc.Leaving := by
    rw [hpc]
    trivial
  have hacks := h.acks
  obtain ⟨wos, bye, htaken, hbye, hops⟩ := h.leaving hl
  rw [hpc, ShmPc.pending, List.append_nil] at hacks
  rw [hacks, h.sent, htaken, List.append_assoc, List.singleton_append,
    serveShm_disconnect hops hbye, serveShm_disconnect hops hbye]

/-- A server that has nothing to do has answered everything. -/
theorem idle (hpc : s.pc = .polling) (hreq : s.requests = []) :
    s.received ++ s.replies = serveShm (freshEngine mem) s.sent := by
  have hacks := h.acks
  rw [hpc, ShmPc.pending, List.append_nil] at hacks
  rw [hacks, h.sent, hreq, List.append_nil]

/-- The reply ring has room for the answer in hand while the client keeps to its window. -/
theorem room (hwindow : s.sent.length ≤ s.received.length + capacity) {ack : WireAck}
    {last : Bool} (hpc : s.pc = .answering ack last) : s.replies.length < capacity := by
  have hcount := h.counts
  have hsent := congrArg List.length h.sent
  rw [hpc] at hcount
  simp only [ShmPc.pending, List.length_singleton, List.length_append] at hcount hsent
  omega

end Answers

/-- Whatever a client pushes and pops and however its calls fall between the turns of the server,
the replies it has popped are the first answers of `serveShm` to the requests it has pushed, in
their order; neither ring holds more than its capacity; a client that keeps at most that many
requests unanswered never makes the server wait; a server with nothing to take has answered
everything; and a server that has returned has done so at the first disconnect, with every
request before it answered and no request after it taken. -/
theorem shm_run_answers (capacity : ℕ) (mem : Memory) (acts : List ShmAction) :
    let s := acts.foldl (ShmServer.step capacity) (.new mem)
    s.received <+: serveShm (freshEngine mem) s.sent ∧
      s.requests.length ≤ capacity ∧ s.replies.length ≤ capacity ∧
      (s.sent.length ≤ s.received.length + capacity → ∀ ack last, s.pc = .answering ack last →
        s.replies.length < capacity) ∧
      (s.pc = .polling → s.requests = [] →
        s.received ++ s.replies = serveShm (freshEngine mem) s.sent) ∧
      (s.pc = .returned → s.received ++ s.replies = serveShm (freshEngine mem) s.sent ∧
        ∃ wos bye, s.sent = wos ++ [bye] ++ s.requests ∧ bye.op = opDisconnect ∧
          ∀ wo ∈ wos, wo.op ≠ opDisconnect) := by
  intro s
  have h : s.Answers capacity mem := (Answers.new mem).run acts
  refine ⟨?_, h.requestsFit, h.repliesFit, fun hwindow ack last hpc => h.room hwindow hpc,
    fun hpc hreq => h.idle hpc hreq, fun hpc => ⟨h.returned hpc, ?_⟩⟩
  · have hpre := h.isPrefix
    rw [List.append_assoc] at hpre
    exact (List.prefix_append _ _).trans hpre
  · have hl : s.pc.Leaving := by
      rw [hpc]
      trivial
    obtain ⟨wos, bye, htaken, hbye, hops⟩ := h.leaving hl
    exact ⟨wos, bye, by rw [h.sent, htaken], hbye, hops⟩

end ShmServer

end Orderbooks.Gateway
