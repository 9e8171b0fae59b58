import Orderbooks.Lib.Fairness
import Orderbooks.SocketSession
import Orderbooks.GatewayWorkload

/-!
# Progress of a session over a socket

Both ends spin on calls that would block. When no call fails, a turn changes something exactly
when its party is ready, and every turn that does moves bytes or ends the server; so under any
fair schedule the two come to a state where neither is ready.

Which state that is depends on the window. Short of its last ack the client writes a whole window
before it reads, and the server writes the acks of one batch before it reads again. When the acks
of a window fit in the buffer, both return. When the window is large enough, each waits for the
other to read.
-/
namespace Orderbooks.Gateway
open Framing Fairness

inductive SocketParty where
  | server
  | client
  deriving DecidableEq, Repr

namespace SocketTurn

def party : SocketTurn → SocketParty
  | .server _ => .server
  | .client _ => .client

/-- The kernel does not fail the call. -/
def Granted : SocketTurn → Prop
  | .server k => k.fails = false
  | .client k => k.fails = false

/-- The parties take turns, and the kernel moves a byte at a time. -/
def alternating (n : ℕ) : SocketTurn := if n % 2 = 0 then .server ⟨0, false⟩ else .client ⟨0, false⟩

theorem alternating_fair : Fair party alternating := by
  refine fair_alternate fun i => ?_
  cases i with
  | server => exact .inl rfl
  | client => exact .inr rfl

theorem alternating_granted (n : ℕ) : (alternating n).Granted := by
  unfold alternating
  split_ifs <;> rfl

end SocketTurn

theorem Kernel.moves_pos (k : Kernel) {limit : ℕ} (h : 0 < limit) : 0 < k.moves limit := by
  unfold moves
  omega

@[simp] theorem Kernel.moves_zero (k : Kernel) : k.moves 0 = 0 := Nat.min_zero _

/-! ## The client's loop -/

namespace SocketClient
variable {c : SocketClient}

/-- Where a client is in its loop while no call has failed. -/
structure InLoop (c : SocketClient) : Prop where
  writing : c.phase = .writing → c.out ≠ [] ∧ c.got = [] ∧ c.window ≠ []
  reading : c.phase = .reading → c.out = [] ∧ c.got.length < c.need
  returned : c.phase = .returned → c.out = [] ∧ c.window = [] ∧ c.todo = []
  todo : ∀ w ∈ c.todo, w ≠ []

theorem InLoop.next (h : ∀ w ∈ c.todo, w ≠ []) : c.next.InLoop := by
  unfold SocketClient.next
  cases htodo : c.todo with
  | nil => exact ⟨by simp, by simp, fun _ => ⟨rfl, rfl, rfl⟩, by simp⟩
  | cons w ws =>
      rw [htodo] at h
      have hw := h w List.mem_cons_self
      have hbytes : orderBytes c.tail w ≠ [] := by
        intro hnil
        have hlen := congrArg List.length hnil
        rw [length_orderBytes] at hlen
        have := List.length_pos_iff.mpr hw
        simp only [WireOrder.size, List.length_nil] at hlen
        omega
      exact ⟨fun _ => ⟨hbytes, rfl, hw⟩, by simp, by simp,
        fun v hv => h v (List.mem_cons_of_mem _ hv)⟩

/-- No window that the client still has to do with has more than `n` records. -/
def Within (n : ℕ) (c : SocketClient) : Prop := ∀ w ∈ c.window :: c.todo, w.length ≤ n

theorem Within.next {n : ℕ} (h : ∀ w ∈ c.todo, w.length ≤ n) : c.next.Within n := by
  unfold SocketClient.next
  cases htodo : c.todo with
  | nil => exact fun w hw => List.mem_singleton.mp hw ▸ Nat.zero_le n
  | cons v ws =>
      rw [htodo] at h
      exact h

end SocketClient

namespace SocketSession

variable {buf : Buffers} {mem : Memory} {tail : WireOrder → UInt32} {ws : List (List WireOrder)}
  {s : SocketSession} {k : Kernel}

/-! ## How many bytes have gone where -/

namespace Sound
variable (h : s.Sound buf mem ws)
include h

theorem windows_length :
    s.client.past.length + s.client.window.length + s.client.todo.flatten.length =
      ws.flatten.length := by
  simpa only [List.length_append] using congrArg List.length h.windows

theorem written_length : s.written.length + s.client.out.length =
    WireOrder.size * (s.client.past.length + s.client.window.length) := by
  simpa only [List.length_append, length_orderBytes] using congrArg List.length h.written

theorem taken_length : s.taken.length + s.up.length = s.written.length := by
  simpa only [List.length_append] using congrArg List.length h.up

/-- The records that have arrived whole have been answered, if not yet sent. -/
theorem sent_length :
    s.sent.length + s.out.length = WireAck.size * (s.taken.length / WireOrder.size) := by
  have hsent := congrArg List.length h.sent
  have hle := h.taken_prefix.length_le
  rw [h.found, length_ackBytes, length_answersTo, wireRecords_of_prefix h.taken_prefix,
    List.length_take, List.length_append] at hsent
  rw [length_orderBytes] at hle
  have hdiv : s.taken.length / WireOrder.size ≤ (s.client.past ++ s.client.window).length :=
    Nat.div_le_of_le_mul hle
  rw [hsent, Nat.min_eq_left hdiv]

theorem received_length : s.received.length + s.down.length = s.sent.length := by
  simpa only [List.length_append] using congrArg List.length h.down

theorem got_length :
    s.received.length = WireAck.size * s.client.past.length + s.client.got.length := by
  have hgot := congrArg List.length h.got
  have hpast := h.past
  rw [List.length_drop] at hgot
  omega

/-- What is on its way to the client answers its present window. -/
theorem waiting_le :
    s.client.got.length + s.down.length + s.out.length ≤ s.client.need := by
  have hwritten := h.written_length
  have htaken := h.taken_length
  have hsent := h.sent_length
  have hreceived := h.received_length
  have hgot := h.got_length
  simp only [SocketClient.need, WireOrder.size, WireAck.size] at *
  omega

end Sound

/-- The bytes that the calls of both parties have moved. -/
def moved (s : SocketSession) : ℕ :=
  s.written.length + s.taken.length + s.sent.length + s.received.length

/-- The bytes of `n` records and of their acks, each written once and read once. -/
def traffic (n : ℕ) : ℕ := 2 * (WireOrder.size * n + WireAck.size * n)

theorem Sound.moved_le (h : s.Sound buf mem ws) : s.moved ≤ traffic ws.flatten.length := by
  have hwindows := h.windows_length
  have hwritten := h.written_length
  have htaken := h.taken_length
  have hsent := h.sent_length
  have hreceived := h.received_length
  simp only [moved, traffic, WireOrder.size, WireAck.size] at *
  omega

/-! ## When a turn changes something -/

/-- A party whose next call moves bytes or finds that the other has gone. -/
def Ready (buf : Buffers) (s : SocketSession) : SocketParty → Prop
  | .server =>
      s.server.returned = false ∧
        if s.out = [] then s.up ≠ [] ∨ s.client.phase = .returned else s.down.length < buf.down
  | .client =>
      match s.client.phase with
      | .writing => s.up.length < buf.up
      | .reading => s.down ≠ []
      | .returned => False

/-- No call has failed: the client is in its loop, and the server outlives it. -/
structure Unbroken (s : SocketSession) : Prop where
  client : s.client.InLoop
  server : s.server.returned = true → s.client.phase = .returned

theorem Unbroken.running (u : s.Unbroken) (h : s.client.phase ≠ .returned) :
    s.server.returned = false := by
  by_contra hret
  exact h (u.server (by simpa using hret))

theorem Unbroken.new (hws : ∀ w ∈ ws, w ≠ []) : (SocketSession.new mem tail ws).Unbroken :=
  ⟨.next hws, nofun⟩

/-- A call that has moved `n` bytes and ended neither party. -/
structure Moves (s s' : SocketSession) (n : ℕ) : Prop where
  blocked : n = 0 → s' = s
  moved : s'.moved = s.moved + n
  returned : s'.server.returned = s.server.returned

theorem moves_serverWrite (hk : k.fails = false) :
    s.Moves (s.serverWrite buf k) (k.moves (min s.out.length (buf.down - s.down.length))) := by
  have hle := k.moves_le (min s.out.length (buf.down - s.down.length))
  rw [serverWrite, hk, if_neg Bool.false_ne_true]
  refine ⟨fun h => ?_, ?_, rfl⟩
  · simp only [h, List.drop_zero, List.take_zero, List.append_nil]
  · simp only [SocketSession.moved, List.length_append, List.length_take]
    omega

theorem moves_serverRead (hk : k.fails = false) (hup : s.up ≠ []) (hspace : 0 < s.server.space) :
    s.Moves (s.serverRead k) (k.moves (min s.server.space s.up.length)) := by
  have hle := k.moves_le (min s.server.space s.up.length)
  have hpos := List.length_pos_iff.mpr hup
  have hmoves := k.moves_pos (Nat.lt_min.mpr ⟨hspace, hpos⟩)
  rw [serverRead, hk, if_neg Bool.false_ne_true, if_neg fun hnil => hup hnil.1, if_neg hup]
  refine ⟨fun h => absurd h (Nat.ne_of_gt hmoves), ?_, rfl⟩
  simp only [SocketSession.moved, List.length_append, List.length_take]
  omega

theorem moves_clientWrite (hk : k.fails = false) (hphase : s.client.phase = .writing)
    (hout : s.client.out ≠ []) :
    s.Moves (s.clientWrite buf k) (k.moves (min s.client.out.length (buf.up - s.up.length))) := by
  have hle := k.moves_le (min s.client.out.length (buf.up - s.up.length))
  rw [clientWrite, hk, if_neg Bool.false_ne_true]
  refine ⟨fun h => ?_, ?_, rfl⟩
  · simp only [h, List.drop_zero, List.take_zero, List.append_nil, if_neg hout, ← hphase]
  · simp only [SocketSession.moved, List.length_append, List.length_take]
    omega

theorem moves_clientRead (hk : k.fails = false) (hopen : s.server.returned = false)
    (hgot : s.client.got.length < s.client.need) :
    s.Moves (s.clientRead k)
      (k.moves (min (s.client.need - s.client.got.length) s.down.length)) := by
  have hle := k.moves_le (min (s.client.need - s.client.got.length) s.down.length)
  rw [clientRead, hk, if_neg Bool.false_ne_true, if_neg (by simp [hopen])]
  refine ⟨fun h => ?_, ?_, rfl⟩
  · have hshort : ¬s.client.got.length = SocketClient.need { s.client with got := s.client.got } :=
      Nat.ne_of_lt hgot
    simp only [h, List.drop_zero, List.take_zero, List.append_nil, if_neg hshort]
  · simp only [SocketSession.moved, List.length_append, List.length_take]
    omega

/-- What is left to be done, in bytes to be moved and a server to end. -/
def rank (ws : List (List WireOrder)) (s : SocketSession) : ℕ :=
  traffic ws.flatten.length - s.moved + if s.server.returned then 0 else 1

theorem Moves.rank_lt {s' : SocketSession} {n : ℕ} (hm : s.Moves s' n) (hn : 0 < n)
    (h' : s'.Sound buf mem ws) : s'.rank ws < s.rank ws := by
  have hle := h'.moved_le
  have hmoved := hm.moved
  rw [rank, rank, hm.returned]
  omega

/-- A party that is not ready spins. -/
theorem Unbroken.turn_of_not_ready (u : s.Unbroken) {t : SocketTurn} (ht : t.Granted)
    (hr : ¬s.Ready buf t.party) : s.turn buf t = s := by
  cases t with
  | server k =>
      change s.serverTurn buf k = s
      unfold serverTurn
      split_ifs with hret hout
      · rfl
      · simp only [SocketTurn.party, Ready, hret, hout, if_true, not_and, not_or, not_not] at hr
        obtain ⟨hup, hphase⟩ := hr trivial
        rw [serverRead, ht, if_neg Bool.false_ne_true, if_neg fun hgone => hphase hgone.2,
          if_pos hup]
      · simp only [SocketTurn.party, Ready, hret, hout, if_false, not_and, Nat.not_lt] at hr
        refine (moves_serverWrite ht).blocked ?_
        rw [Nat.sub_eq_zero_of_le (hr trivial), Nat.min_zero, Kernel.moves_zero]
  | client k =>
      change s.clientTurn buf k = s
      unfold clientTurn
      cases hphase : s.client.phase with
      | writing =>
          simp only [SocketTurn.party, Ready, hphase, Nat.not_lt] at hr
          refine (moves_clientWrite ht hphase (u.client.writing hphase).1).blocked ?_
          rw [Nat.sub_eq_zero_of_le hr, Nat.min_zero, Kernel.moves_zero]
      | reading =>
          simp only [SocketTurn.party, Ready, hphase, not_not] at hr
          have hopen := u.running (by simp [hphase])
          refine (moves_clientRead ht hopen (u.client.reading hphase).2).blocked ?_
          rw [hr, List.length_nil, Nat.min_zero, Kernel.moves_zero]
      | returned => rfl

/-- A party that is ready moves bytes, or the server returns. -/
theorem Sound.turn_of_ready (h : s.Sound buf mem ws) (u : s.Unbroken) {t : SocketTurn}
    (ht : t.Granted) (hr : s.Ready buf t.party) : (s.turn buf t).rank ws < s.rank ws := by
  have h' := h.turn t
  cases t with
  | server k =>
      obtain ⟨hret, hr⟩ := hr
      change (s.serverTurn buf k).Sound buf mem ws at h'
      change (s.serverTurn buf k).rank ws < _
      unfold SocketSession.serverTurn at h' ⊢
      rw [if_neg (by simp [hret])] at h' ⊢
      split_ifs at hr h' ⊢ with hout
      · by_cases hup : s.up = []
        · have hgone : s.client.phase = .returned := hr.resolve_left fun hne => hne hup
          rw [SocketSession.serverRead, ht, if_neg Bool.false_ne_true, if_pos ⟨hup, hgone⟩]
          simp only [rank, SocketSession.hangUp, moved, if_true, hret, Bool.false_eq_true, if_false]
          omega
        · have hspace := h.follows.space_pos
          exact (moves_serverRead ht hup hspace).rank_lt
            (k.moves_pos (Nat.lt_min.mpr ⟨hspace, List.length_pos_iff.mpr hup⟩)) h'
      · refine (moves_serverWrite ht).rank_lt (k.moves_pos ?_) h'
        exact Nat.lt_min.mpr ⟨List.length_pos_iff.mpr hout, Nat.sub_pos_of_lt hr⟩
  | client k =>
      change (s.clientTurn buf k).Sound buf mem ws at h'
      change (s.clientTurn buf k).rank ws < _
      unfold SocketSession.clientTurn at h' ⊢
      cases hphase : s.client.phase with
      | writing =>
          simp only [SocketTurn.party, Ready, hphase] at hr h'
          have hout := (u.client.writing hphase).1
          refine (moves_clientWrite ht hphase hout).rank_lt (k.moves_pos ?_) h'
          exact Nat.lt_min.mpr ⟨List.length_pos_iff.mpr hout, Nat.sub_pos_of_lt hr⟩
      | reading =>
          simp only [SocketTurn.party, Ready, hphase] at hr h'
          have hgot := (u.client.reading hphase).2
          have hopen := u.running (by simp [hphase])
          refine (moves_clientRead ht hopen hgot).rank_lt (k.moves_pos ?_) h'
          exact Nat.lt_min.mpr ⟨Nat.sub_pos_of_lt hgot, List.length_pos_iff.mpr hr⟩
      | returned =>
          simp only [SocketTurn.party, Ready, hphase] at hr

theorem Unbroken.serverTurn (u : s.Unbroken) (hk : k.fails = false) :
    (s.serverTurn buf k).Unbroken := by
  unfold SocketSession.serverTurn SocketSession.serverRead SocketSession.serverWrite
  simp only [hk, Bool.false_eq_true, if_false]
  split_ifs with hret hout hgone
  · exact u
  · exact ⟨u.client, fun _ => hgone.2⟩
  · exact u
  · exact ⟨u.client, u.server⟩
  · exact ⟨u.client, u.server⟩

theorem Unbroken.clientTurn (u : s.Unbroken) (hk : k.fails = false) :
    (s.clientTurn buf k).Unbroken := by
  unfold SocketSession.clientTurn
  cases hphase : s.client.phase with
  | returned => exact u
  | writing =>
      have hopen := u.running (by simp [hphase])
      obtain ⟨-, hgot, hwindow⟩ := u.client.writing hphase
      have hneed : s.client.got.length < s.client.need := by
        have := List.length_pos_iff.mpr hwindow
        simp only [hgot, SocketClient.need, WireAck.size, List.length_nil]
        omega
      dsimp only
      rw [SocketSession.clientWrite, hk, if_neg Bool.false_ne_true]
      refine ⟨⟨fun hw => ?_, fun hrd => ?_, fun hret => ?_, u.client.todo⟩, fun hret => ?_⟩
      · dsimp only at hw ⊢
        split_ifs at hw with hout
        exact ⟨hout, hgot, hwindow⟩
      · dsimp only at hrd ⊢
        split_ifs at hrd with hout
        exact ⟨hout, hneed⟩
      · dsimp only at hret
        split_ifs at hret
      · rw [hopen] at hret
        cases hret
  | reading =>
      have hopen := u.running (by simp [hphase])
      obtain ⟨hout, hgot⟩ := u.client.reading hphase
      dsimp only
      rw [SocketSession.clientRead, hk, if_neg Bool.false_ne_true, if_neg (by simp [hopen])]
      have hle := k.moves_le (min (s.client.need - s.client.got.length) s.down.length)
      refine ⟨?_, fun hret => absurd (hopen.symm.trans hret) Bool.false_ne_true⟩
      dsimp only
      split_ifs with hfull
      · exact .next u.client.todo
      · refine ⟨fun hw => ?_, fun _ => ⟨hout, ?_⟩, fun hret => ?_, u.client.todo⟩
        · rw [hphase] at hw
          cases hw
        · refine Nat.lt_of_le_of_ne ?_ hfull
          simp only [List.length_append, List.length_take, SocketClient.need] at hle hgot ⊢
          omega
        · rw [hphase] at hret
          cases hret

theorem Unbroken.turn (u : s.Unbroken) {t : SocketTurn} (ht : t.Granted) :
    (s.turn buf t).Unbroken := by
  cases t with
  | server k => exact u.serverTurn ht
  | client k => exact u.clientTurn ht

/-- Neither party is ready. -/
def Stuck (buf : Buffers) (s : SocketSession) : Prop := ∀ i, ¬s.Ready buf i

variable (buf mem) in
/-- Under a fair schedule whose calls do not fail the session comes to rest. -/
theorem exists_stuck (hws : ∀ w ∈ ws, w ≠ []) {sched : ℕ → SocketTurn}
    (hfair : Fair SocketTurn.party sched) (hgranted : ∀ n, (sched n).Granted) :
    let run := trace (SocketSession.turn buf) sched (.new mem tail ws)
    (∀ n, (run n).Sound buf mem ws ∧ (run n).Unbroken) ∧
      ∃ N, (run N).Stuck buf ∧ ∀ n, N ≤ n → run n = run N := by
  intro run
  -- the turns of the schedule, with the fact that the kernel does not fail them
  let step : SocketSession → {t : SocketTurn // t.Granted} → SocketSession :=
    fun s t => s.turn buf t.1
  let turns : ℕ → {t : SocketTurn // t.Granted} := fun n => ⟨sched n, hgranted n⟩
  have hrun : ∀ n, trace step turns (.new mem tail ws) n = run n := trace_comp Subtype.val turns _
  have hstep : ∀ (s : SocketSession) t, s.Sound buf mem ws ∧ s.Unbroken →
      (step s t).Sound buf mem ws ∧ (step s t).Unbroken :=
    fun s t hs => ⟨hs.1.turn t.1, hs.2.turn t.2⟩
  have h₀ : (new mem tail ws).Sound buf mem ws ∧ (new mem tail ws).Unbroken := ⟨.new, .new hws⟩
  have hinv : ∀ n, (run n).Sound buf mem ws ∧ (run n).Unbroken := by
    intro n
    rw [← hrun]
    exact trace_invariant _ hstep h₀ n
  have hturns : Fair (fun t : {t : SocketTurn // t.Granted} => t.1.party) turns := hfair
  obtain ⟨N, hstuck⟩ : ∃ N, (trace step turns (.new mem tail ws) N).Stuck buf := by
    refine hturns.reaches (fun s => s.Sound buf mem ws ∧ s.Unbroken) _ (rank ws) hstep ?_ ?_ h₀
    · intro s t hs
      by_cases hr : s.Ready buf t.1.party
      · exact .inr (hs.1.turn_of_ready hs.2 t.2 hr)
      · exact .inl (hs.2.turn_of_not_ready t.2 hr)
    · intro s hs hlive
      simp only [Stuck, not_forall, not_not] at hlive
      obtain ⟨i, hi⟩ := hlive
      refine ⟨i, fun t ht heq => ?_⟩
      have hlt : (step s t).rank ws < s.rank ws := hs.1.turn_of_ready hs.2 t.2 (ht ▸ hi)
      rw [heq] at hlt
      exact Nat.lt_irrefl _ hlt
  rw [hrun] at hstuck
  refine ⟨hinv, N, hstuck, fun n hn => ?_⟩
  obtain ⟨m, rfl⟩ := Nat.exists_eq_add_of_le hn
  rw [← hrun, ← hrun, trace_add, trace_of_stuck]
  intro t
  rw [hrun]
  exact (hinv N).2.turn_of_not_ready t.2 (hstuck _)

/-! ## Windows whose acks fit -/

theorem within_turn {n : ℕ} (h : s.client.Within n) (t : SocketTurn) :
    (s.turn buf t).client.Within n := by
  cases t with
  | server k =>
      have hclient : (s.serverTurn buf k).client = s.client := by
        unfold serverTurn serverRead serverWrite
        split_ifs <;> rfl
      exact hclient ▸ h
  | client k =>
      change (s.clientTurn buf k).client.Within n
      unfold clientTurn clientWrite clientRead
      split
      · split_ifs <;> exact h
      · split_ifs
        · exact h
        · exact h
        · dsimp only
          split_ifs
          · exact .next fun w hw => h w (List.mem_cons_of_mem _ hw)
          · exact h
      · exact h

/-- With room for the acks of a window there is only one way to come to rest. -/
theorem Sound.returned_of_stuck (h : s.Sound buf mem ws) (u : s.Unbroken) (hup : 0 < buf.up)
    (hfits : s.client.need ≤ buf.down) (hstuck : s.Stuck buf) :
    s.client.phase = .returned ∧ s.server.returned = true := by
  have hserver := hstuck .server
  have hclient := hstuck .client
  have hwaiting := h.waiting_le
  simp only [Ready, not_and] at hserver
  have hphase : s.client.phase = .returned := by
    by_contra hphase
    have hidle := hserver (u.running hphase)
    -- the server has written all it has to say and has nothing to read
    have hout : s.out = [] := by
      by_contra hout
      rw [if_neg hout] at hidle
      have := List.length_pos_iff.mpr hout
      omega
    rw [if_pos hout, not_or, not_not] at hidle
    cases hc : s.client.phase with
    | writing =>
        simp only [Ready, hc, hidle.1, List.length_nil] at hclient
        exact hclient hup
    | reading =>
        obtain ⟨hcout, hgot⟩ := u.client.reading hc
        simp only [Ready, hc, not_not] at hclient
        have hwritten := h.written_length
        have htaken := h.taken_length
        have hsent := h.sent_length
        have hreceived := h.received_length
        have hlen := h.got_length
        simp only [hcout, hidle.1, hout, hclient, SocketClient.need, WireOrder.size, WireAck.size,
          List.length_nil] at *
        omega
    | returned => exact hphase hc
  refine ⟨hphase, ?_⟩
  by_contra hret
  obtain ⟨-, hwindow, -⟩ := u.client.returned hphase
  have hout : s.out = [] := by
    rw [SocketClient.need, hwindow] at hwaiting
    exact List.eq_nil_of_length_eq_zero (by simp only [List.length_nil] at hwaiting; omega)
  have hidle := hserver (by simpa using hret)
  rw [if_pos hout, not_or] at hidle
  exact hidle.2 hphase

/-- A client that has left its loop by itself has every ack. -/
theorem Sound.served (h : s.Sound buf mem ws) (u : s.Unbroken)
    (hphase : s.client.phase = .returned) :
    s.client.past = ws.flatten ∧ s.received = ackBytes (answersTo mem ws.flatten) := by
  obtain ⟨hout, hwindow, htodo⟩ := u.client.returned hphase
  have hpast : s.client.past = ws.flatten := by
    simpa [hwindow, htodo] using h.windows
  have hneed : s.client.got.length = s.client.need := by
    have := h.waiting_le
    simp only [SocketClient.need, hwindow, List.length_nil] at *
    omega
  obtain ⟨-, -, hreceived⟩ := h.complete hneed
  rw [hwindow, List.append_nil, hpast] at hreceived
  exact ⟨hpast, hreceived⟩

/-! ## Windows that are too large -/

/-- The bytes of a window that a client cannot have written before it has read an ack: what the
buffers hold, and the batch that the server is about to answer. -/
def reach (buf : Buffers) : ℕ :=
  buf.up + WireOrder.size * ((buf.down + WireAck.size * ioBatch) / WireAck.size + 1)

theorem Sound.written_lt (h : s.Sound buf mem ws) (hr : s.received = []) :
    s.written.length < reach buf := by
  have htaken := h.taken_length
  have hsent := h.sent_length
  have hreceived := h.received_length
  have hout := h.outFits
  have hup := h.upFits
  have hdown := h.downFits
  simp only [hr, reach, WireOrder.size, WireAck.size, ioBatch, List.length_nil] at *
  omega

/-- The client is still at the window `w` it began with, or has given up on it. -/
structure Flooded (w : List WireOrder) (s : SocketSession) : Prop where
  past : s.client.past = []
  window : s.client.window = w
  received : s.received = []
  phase : s.client.phase ≠ .reading

theorem Flooded.turn {w : List WireOrder} (h : s.Sound buf mem ws) (f : s.Flooded w)
    (hw : reach buf ≤ WireOrder.size * w.length) (t : SocketTurn) :
    (s.turn buf t).Flooded w := by
  have h' := h.turn t
  cases t with
  | server k =>
      have hsame : (s.serverTurn buf k).client = s.client ∧
          (s.serverTurn buf k).received = s.received := by
        unfold serverTurn serverRead serverWrite
        split_ifs <;> exact ⟨rfl, rfl⟩
      obtain ⟨hclient, hreceived⟩ := hsame
      exact ⟨hclient ▸ f.past, hclient ▸ f.window, hreceived.trans f.received, hclient ▸ f.phase⟩
  | client k =>
      change (s.clientTurn buf k).Sound buf mem ws at h'
      change (s.clientTurn buf k).Flooded w
      unfold SocketSession.clientTurn at h' ⊢
      cases hphase : s.client.phase with
      | reading => exact absurd hphase f.phase
      | returned => exact f
      | writing =>
          simp only [hphase] at h'
          have hlt := h'.written_lt
          have hlen := h'.written_length
          unfold SocketSession.clientWrite at hlt hlen ⊢
          split_ifs at hlt hlen ⊢
          · exact ⟨f.past, f.window, f.received, nofun⟩
          · refine ⟨f.past, f.window, f.received, ?_⟩
            dsimp only at hlt hlen ⊢
            have hshort := hlt f.received
            split_ifs with hout
            · -- the window would be written, which is further than the client can get
              rw [hout, f.past, f.window] at hlen
              simp only [List.length_nil, Nat.zero_add, Nat.add_zero] at hlen
              omega
            · exact nofun

theorem Flooded.run {w : List WireOrder} (hw : reach buf ≤ WireOrder.size * w.length)
    (ts : List SocketTurn) (h : s.Sound buf mem ws) (f : s.Flooded w) :
    (ts.foldl (SocketSession.turn buf) s).Flooded w := by
  induction ts generalizing s with
  | nil => exact f
  | cons t ts ih => exact ih (h.turn t) (.turn h f hw t)

/-- At rest in the middle of its first window, the client waits for the server to read and the
server for the client. -/
theorem Flooded.of_stuck {w : List WireOrder} (f : s.Flooded w) (h : s.Sound buf mem ws)
    (u : s.Unbroken) (hw : w ≠ []) (hup : 0 < buf.up) (hstuck : s.Stuck buf) :
    s.client.phase = .writing ∧ s.client.out ≠ [] ∧ s.up.length = buf.up ∧
      s.server.returned = false ∧ s.out ≠ [] ∧ s.down.length = buf.down := by
  have hphase : s.client.phase = .writing := by
    cases hc : s.client.phase with
    | writing => rfl
    | reading => exact absurd hc f.phase
    | returned =>
        have hnil := (u.client.returned hc).2.1
        rw [f.window] at hnil
        exact absurd hnil hw
  have hrunning := u.running (by simp [hphase])
  have hclient := hstuck .client
  simp only [Ready, hphase, Nat.not_lt] at hclient
  have hfull := Nat.le_antisymm h.upFits hclient
  have hserver := hstuck .server
  simp only [Ready, hrunning, true_and] at hserver
  have hout : s.out ≠ [] := by
    intro hnil
    rw [if_pos hnil] at hserver
    exact hserver (.inl (List.length_pos_iff.mp (hfull ▸ hup)))
  rw [if_neg hout, Nat.not_lt] at hserver
  exact ⟨hphase, (u.client.writing hphase).1, hfull, hrunning, hout,
    Nat.le_antisymm h.downFits hserver⟩

/-- A client that writes more than `reach` before it reads never gets an ack, whatever the kernel
does. When no call fails, under every fair schedule the two end up writing to each other, with
both buffers full, and stay so. -/
theorem oversized_window_deadlocks (buf : Buffers) (mem : Memory) (tail : WireOrder → UInt32)
    (w : List WireOrder) (ws : List (List WireOrder)) (hws : ∀ v ∈ w :: ws, v ≠ [])
    (hup : 0 < buf.up) (hw : reach buf ≤ WireOrder.size * w.length) :
    (∀ ts : List SocketTurn, (ts.foldl (turn buf) (new mem tail (w :: ws))).received = []) ∧
      ∀ sched, Fair SocketTurn.party sched → (∀ n, (sched n).Granted) →
        ∃ N, ∀ n, N ≤ n →
          let s := trace (turn buf) sched (new mem tail (w :: ws)) n
          s.client.phase = .writing ∧ s.client.out ≠ [] ∧ s.up.length = buf.up ∧
            s.server.returned = false ∧ s.out ≠ [] ∧ s.down.length = buf.down := by
  have f₀ : (new mem tail (w :: ws)).Flooded w := ⟨rfl, rfl, rfl, nofun⟩
  refine ⟨fun ts => (f₀.run hw ts .new).received, fun sched hfair hgranted => ?_⟩
  obtain ⟨hinv, N, hstuck, hrest⟩ := exists_stuck buf mem hws hfair hgranted
  refine ⟨N, fun n hn => ?_⟩
  intro s
  have hs : s = trace (turn buf) sched (new mem tail (w :: ws)) N := hrest n hn
  rw [← hs] at hstuck
  have hflood : ∀ m, (trace (turn buf) sched (new mem tail (w :: ws)) m).Flooded w := by
    intro m
    induction m with
    | zero => exact f₀
    | succ m ih => exact .turn (hinv m).1 ih hw (sched m)
  exact (hflood n).of_stuck (hinv n).1 (hinv n).2 (hws w List.mem_cons_self) hup hstuck

/-- The widest window that `run_pipeline_client` writes, through buffers of a page. -/
theorem oversized_window_deadlocks_pages :
    ∃ N, ∀ n, N ≤ n → (trace (turn ⟨4096, 4096⟩) SocketTurn.alternating
      (new .zeroed (fun _ => 0) [workload 512 1]) n).client.phase = .writing := by
  have hws : ∀ v ∈ [workload 512 1], v ≠ [] := by
    intro v hv
    rw [List.mem_singleton.mp hv]
    exact List.cons_ne_nil _ _
  have hw : reach ⟨4096, 4096⟩ ≤ WireOrder.size * (workload 512 1).length := by
    rw [length_workload]
    decide
  obtain ⟨N, hN⟩ := (oversized_window_deadlocks ⟨4096, 4096⟩ .zeroed (fun _ => 0)
    (workload 512 1) [] hws (by decide) hw).2 SocketTurn.alternating SocketTurn.alternating_fair
    SocketTurn.alternating_granted
  exact ⟨N, fun n hn => (hN n hn).1⟩

end SocketSession

end Orderbooks.Gateway
