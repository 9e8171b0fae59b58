import Orderbooks.ShmSelfTest
import Orderbooks.Lib.Fairness

/-!
# Every fair run over shared memory ends

A turn of either process is a spin or brings the end nearer: a step of the set-up, a poll of the
ready word, or one of the four turns that an order takes on its way through the two rings. With
one order in flight a ring is never full when something is to be put in, so one of the two can
always move until the client has returned.
-/
namespace Orderbooks.Gateway
open Fairness

def SetUp.rank : SetUp → ℕ
  | .creating => 3
  | .constructing => 2
  | .publishing => 1
  | .serving => 0

/-- The orders the client has yet to push, of `pairs` pairs and the last request. -/
def ShmClient.unsent (pairs : ℕ) (c : ShmClient) : ℕ :=
  match c.pc with
  | .attaching => 2 * pairs + 1
  | .waiting _ => 2 * pairs + 1
  | .sending .ask => 2 * (pairs - c.i.toNat) + 1
  | .awaiting .ask => 2 * (pairs - c.i.toNat)
  | .sending .bid => 2 * (pairs - c.i.toNat)
  | .awaiting .bid => 2 * (pairs - c.i.toNat) - 1
  | .sending .bye => 1
  | .awaiting .bye => 0
  | .returned _ => 0

/-- The polls of the ready word, and the call before them. -/
def ClientPc.polls (spins : ℕ) : ClientPc → ℕ
  | .attaching => spins + 2
  | .waiting k => k + 1
  | .sending _ => 0
  | .awaiting _ => 0
  | .returned _ => 0

namespace ShmGateway

variable {capacity : ℕ} {mem : Memory} {pairs : UInt64} {spins : ℕ} {g : ShmGateway}

/-- The turns a run still takes, spins apart. -/
def rank (pairs : UInt64) (spins : ℕ) (g : ShmGateway) : ℕ :=
  g.setUp.rank + g.client.pc.polls spins + 4 * g.client.unsent pairs.toNat + g.server.work

theorem serverTurn_rank (g : ShmGateway) :
    g.serverTurn capacity = g ∨ (g.serverTurn capacity).rank pairs spins < g.rank pairs spins := by
  unfold serverTurn
  split
  · rename_i hs
    exact .inr (by simp only [rank, hs, SetUp.rank]; omega)
  · rename_i hs
    exact .inr (by simp only [rank, hs, SetUp.rank]; omega)
  · rename_i hs
    exact .inr (by simp only [rank, hs, SetUp.rank]; omega)
  · rcases g.server.serve_work capacity with heq | hlt
    · rw [heq]
      exact .inl rfl
    · exact .inr (by simp only [rank]; omega)

end ShmGateway

theorem ShmClient.unsent_loop (pairs : UInt64) (c : ShmClient) :
    (c.loop pairs).unsent pairs.toNat = 2 * (pairs.toNat - c.i.toNat) + 1 := by
  by_cases hi : c.i < pairs
  · simp only [loop, unsent, if_pos hi]
  · have hle : pairs.toNat ≤ c.i.toNat := Nat.le_of_not_lt (mt UInt64.lt_iff_toNat_lt.mpr hi)
    simp only [loop, unsent, if_neg hi]
    omega

section Unsent
variable {pairs : UInt64} {c : ShmClient} {sent : List WireOrder} {leg : Leg} {n : ℕ}

theorem ShmClient.atPair_i (hn : n < pairs.toNat) (k : ℕ) (pc : ClientPc) :
    (atPair n k pc).i.toNat = n :=
  UInt64.toNat_ofNat_of_lt' (lt_trans hn pairs.toNat_lt)

theorem Stage.unsent_pushed (h : Stage pairs.toNat c sent) (hpc : c.pc = .sending leg) :
    (c.pushed leg).unsent pairs.toNat + 1 = c.unsent pairs.toNat := by
  cases h with
  | sendAsk hn =>
      obtain rfl : Leg.ask = leg := ClientPc.sending.inj hpc
      rfl
  | @sendBid n hn =>
      obtain rfl : Leg.bid = leg := ClientPc.sending.inj hpc
      have hi := ShmClient.atPair_i hn 1 (.sending .bid)
      change 2 * (pairs.toNat - (ShmClient.atPair n 1 (.sending .bid)).i.toNat) - 1 + 1 =
        2 * (pairs.toNat - (ShmClient.atPair n 1 (.sending .bid)).i.toNat)
      omega
  | sendBye =>
      obtain rfl : Leg.bye = leg := ClientPc.sending.inj hpc
      rfl
  | attaching | waiting | refused | done | awaitAsk | awaitBid | awaitBye => cases hpc

theorem Stage.unsent_acked (h : Stage pairs.toNat c sent) (hpc : c.pc = .awaiting leg)
    (ack : WireAck) : (c.acked pairs ack leg).unsent pairs.toNat = c.unsent pairs.toNat := by
  cases h with
  | awaitAsk hn =>
      obtain rfl : Leg.ask = leg := ClientPc.awaiting.inj hpc
      rfl
  | @awaitBid n hn =>
      obtain rfl : Leg.bid = leg := ClientPc.awaiting.inj hpc
      have hi := ShmClient.atPair_i hn 2 (.awaiting .bid)
      have hi' : ((ShmClient.atPair n 2 (.awaiting .bid)).i + 1).toNat = n + 1 := by
        have := pairs.toNat_lt
        rw [UInt64.toNat_add, hi]
        exact Nat.mod_eq_of_lt (by simp; omega)
      rw [ShmClient.acked, ShmClient.unsent_loop, hi']
      change _ = 2 * (pairs.toNat - (ShmClient.atPair n 2 (.awaiting .bid)).i.toNat) - 1
      omega
  | awaitBye =>
      obtain rfl : Leg.bye = leg := ClientPc.awaiting.inj hpc
      rfl
  | attaching | waiting | refused | done | sendAsk | sendBid | sendBye => cases hpc

end Unsent

namespace ShmGateway

variable {capacity : ℕ} {mem : Memory} {pairs : UInt64} {spins : ℕ} {g : ShmGateway}

theorem Sound.clientTurn_rank (h : g.Sound capacity mem pairs) (granted : Bool) :
    g.clientTurn capacity pairs spins granted = g ∨
      (g.clientTurn capacity pairs spins granted).rank pairs spins < g.rank pairs spins := by
  cases hpc : g.client.pc with
  | attaching =>
      refine .inr ?_
      simp only [clientTurn, hpc]
      split_ifs <;> simp only [rank, hpc, ClientPc.polls, ShmClient.unsent] <;> omega
  | waiting k =>
      obtain ⟨hc, -⟩ := h.stage.unstarted (by simp [hpc, ClientPc.Driving]) (by simp [hpc])
      refine .inr ?_
      cases k with
      | zero =>
          simp only [clientTurn, hpc, rank, ClientPc.polls, ShmClient.unsent]
          omega
      | succ k =>
          simp only [clientTurn, hpc]
          split_ifs
          · have hi : g.client.i.toNat = 0 := by
              rw [hc]
              rfl
            have hunsent := g.client.unsent_loop pairs
            have hbefore : g.client.unsent pairs.toNat = 2 * pairs.toNat + 1 := by
              simp only [ShmClient.unsent, hpc]
            have hpolls : (g.client.loop pairs).pc.polls spins = 0 := rfl
            have hpolls' : g.client.pc.polls spins = k + 2 := by
              rw [hpc]
              rfl
            simp only [rank, hpolls, hpolls', hunsent, hbefore]
            omega
          · simp only [rank, hpc, ClientPc.polls, ShmClient.unsent]
            omega
  | sending leg =>
      have hd : g.client.pc.Driving := by
        rw [hpc]
        trivial
      have hunsent := h.stage.unsent_pushed hpc
      simp only [clientTurn, hpc, h.touch hd]
      unfold ShmServer.tryPush
      cases hq : Channel.push capacity g.server.requests (leg.order g.client.next) with
      | none => exact .inl rfl
      | some q =>
          obtain ⟨-, rfl⟩ := Channel.push_eq_some.mp hq
          refine .inr ?_
          have hpolls : (g.client.pushed leg).pc.polls spins = 0 := rfl
          simp only [rank, hpolls, ShmServer.work, List.length_append, List.length_singleton]
          omega
  | awaiting leg =>
      have hd : g.client.pc.Driving := by
        rw [hpc]
        trivial
      simp only [clientTurn, hpc, h.touch hd]
      unfold ShmServer.tryPop
      cases hrep : g.server.replies with
      | nil => exact .inl rfl
      | cons ack rest =>
          refine .inr ?_
          have hunsent := h.stage.unsent_acked hpc ack
          have hpolls : (g.client.acked pairs ack leg).pc.polls spins = 0 := by
            cases leg <;> rfl
          simp only [rank, hpolls, hunsent, ShmServer.work, hrep, List.length_cons]
          omega
  | returned rc =>
      refine .inl ?_
      simp only [clientTurn, hpc]

theorem Sound.turn_rank (h : g.Sound capacity mem pairs) (t : ShmTurn) :
    g.turn capacity pairs spins t = g ∨
      (g.turn capacity pairs spins t).rank pairs spins < g.rank pairs spins := by
  cases t with
  | server => exact g.serverTurn_rank
  | client granted => exact h.clientTurn_rank granted

/-- What is in the rings or in the server's hands is what the client waits for. -/
theorem Sound.outstanding (h : g.Sound capacity mem pairs) :
    g.server.requests.length + g.server.pc.pending.length + g.server.replies.length =
      g.client.pc.inFlight := by
  have hcount := h.answers.counts
  have hflight := h.flight
  rw [h.answers.sent, List.length_append] at hflight
  omega

/-- The server does not leave a request behind. -/
theorem Sound.not_returned (h : g.Sound capacity mem pairs) (hreq : g.server.requests ≠ []) :
    g.server.pc ≠ .returned := by
  intro hpc
  have hl : g.server.pc.Leaving := by
    rw [hpc]
    trivial
  obtain ⟨wos, bye, htaken, hbye, -⟩ := h.answers.leaving hl
  refine h.stage.op_dropLast bye ?_ hbye
  rw [h.answers.sent, htaken, List.dropLast_append_of_ne_nil hreq]
  simp

/-- The client is through, and so is the server's set-up. -/
def Over (g : ShmGateway) : Prop := g.setUp = .serving ∧ ∃ rc, g.client.pc = .returned rc

theorem serverTurn_serving (hs : g.setUp = .serving) :
    g.serverTurn capacity = { g with server := g.server.serve capacity } := by
  unfold serverTurn
  rw [hs]

theorem serverTurn_ne (hs : g.setUp ≠ .serving) : g.serverTurn capacity ≠ g := by
  intro hsame
  have hset := congrArg ShmGateway.setUp hsame
  unfold serverTurn at hset
  cases hcase : g.setUp with
  | serving => exact hs hcase
  | creating | constructing | publishing => simp [hcase] at hset

/-- A server with work to do and room to do it moves. -/
theorem serve_ne {s : ShmServer} (hpc : s.pc ≠ .returned) (hroom : s.replies.length < capacity)
    (hwork : s.pc = .polling → s.requests ≠ []) : s.serve capacity ≠ s := by
  intro hsame
  have hpc' := congrArg ShmServer.pc hsame
  unfold ShmServer.serve at hpc'
  cases hcase : s.pc with
  | returned => exact hpc hcase
  | polling =>
      obtain ⟨wo, rest, hreq⟩ := List.exists_cons_of_ne_nil (hwork hcase)
      rw [hcase, hreq] at hpc'
      simp only [ShmServer.take] at hpc'
      split at hpc' <;> simp at hpc'
  | answering ack last =>
      simp only [hcase, Channel.push, if_pos hroom] at hpc'
      cases last <;> simp at hpc'

/-- The client waits for room in the one ring and for a reply in the other, and for nothing
else. -/
theorem clientTurn_ne (granted : Bool) (hr : ∀ rc, g.client.pc ≠ .returned rc)
    (hpush : ∀ leg, g.client.pc = .sending leg → g.server.requests.length < capacity)
    (hpop : ∀ leg, g.client.pc = .awaiting leg → g.server.replies ≠ []) :
    g.clientTurn capacity pairs spins granted ≠ g := by
  intro hsame
  have hpc' : (g.clientTurn capacity pairs spins granted).client.pc = g.client.pc := by rw [hsame]
  cases hpc : g.client.pc with
  | attaching =>
      simp only [clientTurn, hpc] at hpc'
      split_ifs at hpc'
  | waiting k =>
      cases k with
      | zero => simp [clientTurn, hpc] at hpc'
      | succ k =>
          simp only [clientTurn, hpc] at hpc'
          split_ifs at hpc' <;> simp [ShmClient.loop] at hpc'
  | sending leg =>
      simp [clientTurn, hpc, ShmServer.tryPush, Channel.push, hpush leg hpc, ShmClient.pushed]
        at hpc'
  | awaiting leg =>
      obtain ⟨ack, rest, hrep⟩ := List.exists_cons_of_ne_nil (hpop leg hpc)
      simp only [clientTurn, hpc, ShmServer.tryPop, hrep] at hpc'
      cases leg <;> simp [ShmClient.acked, ShmClient.loop] at hpc'
  | returned rc => exact hr rc hpc

/-- Short of the end one of the two is not waiting for the other. -/
theorem Sound.live (h : g.Sound capacity mem pairs) (hcap : 0 < capacity) (hover : ¬g.Over) :
    ∃ i, ∀ t : ShmTurn, t.party = i → g.turn capacity pairs spins t ≠ g := by
  have hout := h.outstanding
  by_cases hs : g.setUp = .serving
  · have hr : ∀ rc, g.client.pc ≠ .returned rc := fun rc hpc => hover ⟨hs, rc, hpc⟩
    by_cases hwait : (∃ leg, g.client.pc = .awaiting leg) ∧ g.server.replies = []
    · -- the order in flight is with the server
      obtain ⟨⟨leg, hpc⟩, hrep⟩ := hwait
      rw [hpc, hrep] at hout
      simp only [ClientPc.inFlight, List.length_nil, Nat.add_zero] at hout
      refine ⟨.server, fun t ht => ?_⟩
      obtain rfl : t = .server := by
        cases t with
        | server => rfl
        | client granted => cases ht
      have hroom : g.server.replies.length < capacity := by
        rw [hrep]
        exact hcap
      have hwork : g.server.pc = .polling → g.server.requests ≠ [] := by
        intro hpoll hreq
        rw [hpoll, hreq] at hout
        exact absurd hout (by decide)
      have hleft : g.server.pc ≠ .returned := by
        intro hret
        rw [hret] at hout
        refine h.not_returned (List.ne_nil_of_length_pos ?_) hret
        simp only [ShmPc.pending, List.length_nil, Nat.add_zero] at hout
        omega
      intro hsame
      have hserve := congrArg ShmGateway.server ((serverTurn_serving hs).symm.trans hsame)
      exact serve_ne hleft hroom hwork hserve
    · refine ⟨.client, fun t ht => ?_⟩
      cases t with
      | server => cases ht
      | client granted =>
          refine clientTurn_ne granted hr (fun leg hpc => ?_) fun leg hpc hrep =>
            hwait ⟨⟨leg, hpc⟩, hrep⟩
          rw [hpc] at hout
          simp only [ClientPc.inFlight] at hout
          omega
  · refine ⟨.server, fun t ht => ?_⟩
    cases t with
    | client granted => cases ht
    | server => exact serverTurn_ne hs

/-- How a run ends: with every order answered and every pair filled, or with a client that never
used the channel and a server that still polls it. -/
inductive Ending (mem : Memory) (pairs : UInt64) (g : ShmGateway) : Prop
  | served (hclient : g.client.pc = .returned 0) (hfills : g.client.fills = pairs)
      (hsubmitted : g.client.submitted = 2 * pairs) (hserver : g.server.pc = .returned)
      (hsent : g.server.sent = workload pairs.toNat 1 ++ [lastRequest pairs.toNat])
      (hacks : g.server.received = serveShm (freshEngine mem) g.server.sent)
      (hrings : g.server.requests = [] ∧ g.server.replies = []) : Ending mem pairs g
  | refused (hclient : g.client.pc = .returned 1) (hserver : g.server.pc = .polling)
      (hsent : g.server.sent = []) : Ending mem pairs g

theorem Sound.ending (h : g.Sound capacity mem pairs) (hover : g.Over) : Ending mem pairs g := by
  obtain ⟨-, rc, hpc⟩ := hover
  have hout := h.outstanding
  have hflight := h.flight
  rw [hpc] at hout hflight
  simp only [ClientPc.inFlight, Nat.add_zero] at hout hflight
  have hreq : g.server.requests = [] := List.eq_nil_of_length_eq_zero (by omega)
  have hrep : g.server.replies = [] := List.eq_nil_of_length_eq_zero (by omega)
  have hpend : g.server.pc.pending = [] := List.eq_nil_of_length_eq_zero (by omega)
  have hacks := h.answers.caughtUp hflight
  have hsent := h.answers.sent
  rw [hreq, List.append_nil] at hsent
  have hstage := h.stage
  generalize hc : g.client = c at hstage hpc
  generalize hs : g.server.sent = sent at hstage
  cases hstage with
  | refused =>
      refine .refused (by rw [hc]) ?_ hs
      cases hcase : g.server.pc with
      | polling => rfl
      | answering ack last => simp [hcase, ShmPc.pending] at hpend
      | returned =>
          obtain ⟨wos, bye, htaken, -⟩ := h.answers.leaving (by rw [hcase]; trivial)
          rw [htaken, hs] at hsent
          simp at hsent
  | done =>
      have hsubmitted : UInt64.ofNat (2 * pairs.toNat) = 2 * pairs := by
        rw [UInt64.ofNat_mul, UInt64.ofNat_toNat]
        rfl
      refine .served (by rw [hc]; rfl) (by rw [hc]; exact UInt64.ofNat_toNat)
        (by rw [hc]; exact hsubmitted) ?_ hs hacks ⟨hreq, hrep⟩
      by_contra hne
      have hserving : ¬g.server.pc.Leaving := by
        cases hcase : g.server.pc with
        | polling => exact id
        | answering ack last => simp [hcase, ShmPc.pending] at hpend
        | returned => exact absurd hcase hne
      refine h.answers.serving hserving (lastRequest pairs.toNat) ?_ rfl
      rw [← hsent, hs]
      simp
  | attaching | waiting | sendAsk | sendBid | sendBye | awaitAsk | awaitBid | awaitBye => cases hpc

/-- Nothing happens after the end. -/
theorem Sound.over_turn (h : g.Sound capacity mem pairs) (hover : g.Over) (t : ShmTurn) :
    g.turn capacity pairs spins t = g := by
  cases t with
  | client granted =>
      obtain ⟨-, rc, hpc⟩ := hover
      simp only [ShmGateway.turn, clientTurn, hpc]
  | server =>
      have hserve : g.server.serve capacity = g.server := by
        cases h.ending hover with
        | served _ _ _ hserver _ _ _ => simp only [ShmServer.serve, hserver]
        | refused _ hserver hsent =>
            have hreq : g.server.requests = [] := by
              have := h.answers.sent
              rw [hsent] at this
              exact (List.append_eq_nil_iff.mp this.symm).2
            simp only [ShmServer.serve, hserver, hreq]
      rw [ShmGateway.turn, serverTurn_serving hover.1, hserve]

/-- The channel is published and the client has not given it up. -/
structure Prompt (g : ShmGateway) : Prop where
  serving : g.setUp = .serving
  ready : g.ready = shmMagic
  kept : g.client.pc = .returned 1 → g.server.sent ≠ []
  polls : g.client.pc ≠ .waiting 0

theorem Sound.prompt (h : g.Sound capacity mem pairs) (hp : g.Prompt) (hspins : 0 < spins)
    {t : ShmTurn} (ht : t ≠ .client false) : (g.turn capacity pairs spins t).Prompt := by
  cases t with
  | server =>
      rw [ShmGateway.turn, serverTurn_serving hp.serving]
      refine { hp with kept := fun hpc => ?_ }
      rw [(g.server.serve_client capacity).1]
      exact hp.kept hpc
  | client granted =>
      obtain rfl : granted = true := by
        cases granted with
        | false => exact absurd rfl ht
        | true => rfl
      change (g.clientTurn capacity pairs spins true).Prompt
      cases hpc : g.client.pc with
      | attaching =>
          have hgo : ¬(g.setUp = .creating ∨ true = false) := by simp [hp.serving]
          simp only [clientTurn, hpc, if_neg hgo]
          exact ⟨hp.serving, hp.ready, fun hr => by simp at hr, by simp; omega⟩
      | waiting k =>
          cases k with
          | zero => exact absurd hpc hp.polls
          | succ k =>
              simp only [clientTurn, hpc, if_pos hp.ready]
              exact ⟨hp.serving, hp.ready, fun hr => by simp [ShmClient.loop] at hr,
                by simp [ShmClient.loop]⟩
      | sending leg =>
          have hd : g.client.pc.Driving := by
            rw [hpc]
            trivial
          simp only [clientTurn, hpc, h.touch hd]
          split
          · exact hp
          · exact ⟨hp.serving, hp.ready, fun hr => by simp [ShmClient.pushed] at hr,
              by simp [ShmClient.pushed]⟩
      | awaiting leg =>
          have hd : g.client.pc.Driving := by
            rw [hpc]
            trivial
          have hflight := h.flight
          simp only [hpc, ClientPc.inFlight] at hflight
          have hsent : g.server.tryPop.2.sent ≠ [] := by
            have hkeep : g.server.tryPop.2.sent = g.server.sent := by
              unfold ShmServer.tryPop
              split <;> rfl
            rw [hkeep]
            exact List.ne_nil_of_length_pos (by omega)
          simp only [clientTurn, hpc, h.touch hd]
          split
          · exact hp
          · rename_i ack s hpop
            rw [hpop] at hsent
            refine ⟨hp.serving, hp.ready, fun _ => hsent, ?_⟩
            cases leg <;> simp [ShmClient.acked, ShmClient.loop]
      | returned rc =>
          simp only [clientTurn, hpc]
          exact hp

/-- However the turns of the two processes fall, as long as each keeps getting one: the client
never touches a ring that is not constructed, and from some point on the run is over for good.
Either the client has returned success, every order of its workload was answered in order, every
bid filled, and the server has returned, or the client gave up before it used the channel and
the server polls it forever. When the channel is published before the client attaches and the
attach succeeds, it is the first. -/
theorem shm_fair_run_ends (capacity : ℕ) (hcap : 0 < capacity) (mem : Memory) (orders : UInt64)
    (spins : ℕ) (sched : ℕ → ShmTurn) (hfair : Fair ShmTurn.party sched) (g₀ : ShmGateway)
    (hstart : g₀ = .new mem ∨ g₀ = .published mem) :
    let pairs := orders / 2
    let run := trace (ShmGateway.turn capacity pairs spins) sched g₀
    (∀ n, (run n).raw = false) ∧
      ∃ N, (∀ n, N ≤ n → run n = run N) ∧ Ending mem pairs (run N) ∧
        (g₀ = .published mem → 0 < spins → (∀ n, sched n ≠ .client false) →
          (run N).client.pc = .returned 0) := by
  intro pairs run
  have hpairs : 2 * pairs.toNat + 1 < 2 ^ 64 := by
    have hlt := orders.toNat_lt
    have hdiv : pairs.toNat = orders.toNat / 2 := UInt64.toNat_div orders 2
    omega
  have hstep : ∀ (g : ShmGateway) t, g.Sound capacity mem pairs →
      (g.turn capacity pairs spins t).Sound capacity mem pairs := fun g t h => h.turn hpairs t
  have h₀ : g₀.Sound capacity mem pairs := by
    rcases hstart with rfl | rfl
    · exact .new
    · exact .published
  have hsound : ∀ n, (run n).Sound capacity mem pairs := trace_invariant _ hstep h₀
  obtain ⟨N, hover⟩ := hfair.reaches (Sound capacity mem pairs) Over (rank pairs spins) hstep
    (fun g t h => h.turn_rank t) (fun g h hover => h.live hcap hover) h₀
  refine ⟨fun n => (hsound n).raw, N, fun n hn => ?_, (hsound N).ending hover,
    fun hpub hspins hgranted => ?_⟩
  · obtain ⟨k, rfl⟩ := Nat.exists_eq_add_of_le hn
    exact (trace_add _ N k).trans (trace_of_stuck ((hsound N).over_turn hover) k)
  · have hprompt : ∀ n, (run n).Prompt := by
      intro n
      induction n with
      | zero =>
          change g₀.Prompt
          rw [hpub]
          exact ⟨rfl, rfl, fun hr => by simp [ShmGateway.published] at hr,
            by simp [ShmGateway.published]⟩
      | succ n ih => exact (hsound n).prompt ih hspins (hgranted n)
    cases (hsound N).ending hover with
    | served hclient _ _ _ _ _ _ => exact hclient
    | refused hclient _ hsent => exact absurd hsent ((hprompt N).kept hclient)

/-- The self-test with the two taking turns, two pairs and one poll. -/
theorem shm_fair_run_ends_alternating :
    ∃ N, (trace (ShmGateway.turn 1024 (4 / 2) 1)
      (fun n => if n % 2 = 0 then .server else .client true) (.published .zeroed) N).client.pc =
        .returned 0 := by
  have hfair : Fair ShmTurn.party fun n => if n % 2 = 0 then .server else .client true := by
    refine fair_alternate fun i => ?_
    cases i with
    | server => exact .inl rfl
    | client => exact .inr rfl
  obtain ⟨-, N, -, -, hserved⟩ :=
    shm_fair_run_ends 1024 (by decide) .zeroed 4 1 _ hfair (.published .zeroed) (.inr rfl)
  refine ⟨N, hserved rfl (by decide) fun n => ?_⟩
  split_ifs <;> simp

end ShmGateway

end Orderbooks.Gateway
