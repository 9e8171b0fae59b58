import Orderbooks.SocketProgress

/-!
# The pipelined self-test

`run_pipeline_client` cuts the workload of the gateway's clients into windows of at most
`max_window` pairs. Each window is one write and one read of the session in `SocketSession`, and
the self-test passes when the acks of the whole run report one fill for each pair.

The windows depend on nothing that is read, so they are laid out here before the run. The exit
status is `fills == pairs`, where `pairs` is half of the orders asked for.
-/
namespace Orderbooks.Gateway
open Fairness

def maxWindow : ℕ := 512

/-- `std::clamp(window, 1, max_window)`. -/
def clampWindow (window : UInt64) : ℕ := max 1 (min window.toNat maxWindow)

theorem clampWindow_pos (window : UInt64) : 0 < clampWindow window := Nat.le_max_left _ _

/-- The loop of `run_pipeline_client`, with `pairs` pairs left and `next` the id of the first. -/
def windows {win : ℕ} (hwin : 0 < win) (pairs : ℕ) (next : UInt64) : List (List WireOrder) :=
  if h : 0 < pairs then
    let w := min win pairs
    workload w next :: windows hwin (pairs - w) (next + 2 * UInt64.ofNat w)
  else []
termination_by pairs
decreasing_by omega

section Windows
variable {win : ℕ} (hwin : 0 < win) (pairs : ℕ) (next : UInt64)

theorem flatten_windows : (windows hwin pairs next).flatten = workload pairs next := by
  fun_induction windows hwin pairs next with
  | case1 pairs next h w ih =>
      rw [List.flatten_cons, ih, ← workload_add, Nat.add_sub_cancel' (Nat.min_le_right _ _)]
  | case2 pairs next h =>
      rw [Nat.eq_zero_of_not_pos h]
      rfl

theorem windows_bounds : ∀ w ∈ windows hwin pairs next, w ≠ [] ∧ w.length ≤ 2 * win := by
  fun_induction windows hwin pairs next with
  | case1 pairs next h w ih =>
      refine List.forall_mem_cons.mpr ⟨⟨?_, ?_⟩, ih⟩
      · rw [← List.length_pos_iff, length_workload]
        omega
      · rw [length_workload]
        omega
  | case2 pairs next h => exact nofun

end Windows

/-- The session of the self-test with `--orders` and `--pipeline`. -/
def SocketSession.pipeline (mem : Memory) (tail : WireOrder → UInt32) (window orders : UInt64) :
    SocketSession :=
  .new mem tail (windows (clampWindow_pos window) (orders / 2).toNat 1)

/-! ## The fills -/

/-- The fills that the first acks of a run of pairs report. -/
theorem foldl_fills (n : ℕ) : ∀ {k : ℕ} (fills : UInt64), k ≤ 2 * n →
    ((List.replicate n [0, 1]).flatten.take k).foldl (· + ·) fills =
      fills + UInt64.ofNat (k / 2) := by
  induction n with
  | zero =>
      intro k fills hk
      rw [Nat.eq_zero_of_le_zero hk]
      exact (UInt64.add_zero fills).symm
  | succ n ih =>
      intro k fills hk
      rw [List.replicate_succ, List.flatten_cons]
      match k with
      | 0 => exact (UInt64.add_zero fills).symm
      | 1 => rfl
      | k + 2 =>
          change ((List.replicate n [0, 1]).flatten.take k).foldl (· + ·) (fills + 0 + 1) = _
          rw [ih _ (by omega), Nat.add_div_right k (by decide), UInt64.add_zero, UInt64.add_assoc,
            UInt64.ofNat_add, UInt64.add_comm 1]
          rfl

namespace SocketSession.Sound

variable {buf : Buffers} {mem : Memory} {ws : List (List WireOrder)} {s : SocketSession}
  {n : ℕ} (h : s.Sound buf mem ws) (hws : ws.flatten = workload n 1)
include h hws

theorem past_prefix : s.client.past <+: workload n 1 := by
  rw [← hws, ← h.windows, List.append_assoc]
  exact List.prefix_append _ _

/-- The client has counted the pairs of the windows it has finished. -/
theorem fills_eq (hn : 2 * n + 1 < 2 ^ 64) :
    s.client.fills = UInt64.ofNat (s.client.past.length / 2) := by
  have hpast := h.past_prefix hws
  have hle := hpast.length_le
  rw [length_workload] at hle
  obtain ⟨rest, hrest⟩ := hpast
  have hpre := answersTo_append mem s.client.past rest
  rw [hrest] at hpre
  have hacks : (answersTo mem (workload n 1)).map (·.filled) = (List.replicate n [0, 1]).flatten :=
    ((freshEngine_idle mem).workload n (by decide) (by simpa [Nat.add_comm] using hn)).1
  have hfills := List.prefix_iff_eq_take.mp (hpre.map (·.filled))
  rw [hacks, List.length_map, length_answersTo] at hfills
  rw [h.fills, SocketClient.addFills, ← List.foldl_map, hfills, foldl_fills n 0 hle,
    UInt64.zero_add]

/-- A client that has counted every pair has read every ack. -/
theorem received_of_fills (hn : 2 * n + 1 < 2 ^ 64) (hfills : s.client.fills = UInt64.ofNat n) :
    s.received = ackBytes (answersTo mem (workload n 1)) := by
  have hpast := h.past_prefix hws
  have hle := hpast.length_le
  rw [length_workload] at hle
  have hcount : s.client.past.length / 2 = n := by
    have hnat := congrArg UInt64.toNat (hfills.symm.trans (h.fills_eq hws hn))
    rw [UInt64.toNat_ofNat_of_lt' (by simp only [UInt64.size]; omega),
      UInt64.toNat_ofNat_of_lt' (by simp only [UInt64.size]; omega)] at hnat
    exact hnat.symm
  have hall : s.client.past = workload n 1 := by
    refine hpast.eq_of_length_le ?_
    rw [length_workload]
    omega
  -- nothing beyond the workload is left to be answered
  have hlen := h.windows_length
  have hwaiting := h.waiting_le
  rw [hws, hall] at hlen
  have hwindow : s.client.window = [] := List.eq_nil_of_length_eq_zero (by omega)
  have hgot : s.client.got.length = s.client.need := by
    rw [SocketClient.need, hwindow, List.length_nil] at hwaiting ⊢
    omega
  have hreceived := (h.complete hgot).2.2
  rwa [hwindow, List.append_nil, hall] at hreceived

end SocketSession.Sound

namespace SocketSession

theorem half_lt (orders : UInt64) : 2 * (orders / 2).toNat + 1 < 2 ^ 64 := by
  have hlt := orders.toNat_lt
  have hdiv : (orders / 2).toNat = orders.toNat / 2 := UInt64.toNat_div orders 2
  omega

/-- Whatever the kernel makes of the calls, the buffers hold no more than they can, each party has
read the first bytes of what the other has written, the server reads the records of the workload
in order, the client reads the acks of a gateway that applies them one after another, and it counts
no more fills than there are pairs. It counts as many only when it has read every ack, so the
self-test does not pass otherwise. -/
theorem pipeline_run_safe (buf : Buffers) (mem : Memory) (tail : WireOrder → UInt32)
    (window orders : UInt64) (ts : List SocketTurn) :
    let pairs := orders / 2
    let s := ts.foldl (turn buf) (pipeline mem tail window orders)
    let acks := ackBytes (answersTo mem (workload pairs.toNat 1))
    s.up.length ≤ buf.up ∧ s.down.length ≤ buf.down ∧
      s.taken <+: s.written ∧ s.received <+: s.sent ∧
      s.taken <+: orderBytes tail (workload pairs.toNat 1) ∧ s.received <+: acks ∧
      s.client.fills ≤ pairs ∧ (s.client.fills = pairs → s.received = acks) := by
  intro pairs s acks
  have h : s.Sound buf mem (windows (clampWindow_pos window) pairs.toNat 1) := Sound.new.run ts
  have hws := flatten_windows (clampWindow_pos window) pairs.toNat 1
  have hn : 2 * pairs.toNat + 1 < 2 ^ 64 := half_lt orders
  have htaken := h.taken_prefix_all
  have hreceived := h.received_prefix_all
  have htail : s.client.tail = tail := (tail_run _ ts).trans (tail_new mem tail _)
  rw [hws, htail] at htaken
  rw [hws] at hreceived
  refine ⟨h.upFits, h.downFits, ⟨_, h.up⟩, ⟨_, h.down⟩, htaken, hreceived, ?_, fun hfills => ?_⟩
  · have hle := (h.past_prefix hws).length_le
    rw [length_workload] at hle
    rw [h.fills_eq hws hn, UInt64.le_iff_toNat_le,
      UInt64.toNat_ofNat_of_lt' (by simp only [UInt64.size]; omega)]
    omega
  · exact h.received_of_fills hws hn (hfills.trans (UInt64.ofNat_toNat).symm)

theorem within_trace {buf : Buffers} {n : ℕ} {sched : ℕ → SocketTurn} {s : SocketSession}
    (h : s.client.Within n) (m : ℕ) : (trace (turn buf) sched s m).client.Within n :=
  trace_invariant (fun s : SocketSession => s.client.Within n) (fun _ t hs => within_turn hs t) h m

/-- When no call fails and the acks of a window fit in the buffer towards the client, every fair
schedule brings the self-test to its end: both parties have returned, the client has read the acks
of the whole workload, and it has counted a fill for each pair. -/
theorem pipeline_fair_run_ends (buf : Buffers) (mem : Memory) (tail : WireOrder → UInt32)
    (window orders : UInt64)
    (hup : 0 < buf.up) (hdown : WireAck.size * (2 * clampWindow window) ≤ buf.down)
    (sched : ℕ → SocketTurn) (hfair : Fair SocketTurn.party sched)
    (hgranted : ∀ n, (sched n).Granted) :
    ∃ N, ∀ n, N ≤ n →
      let s := trace (turn buf) sched (pipeline mem tail window orders) n
      s.client.phase = .returned ∧ s.server.returned = true ∧
        s.received = ackBytes (answersTo mem (workload (orders / 2).toNat 1)) ∧
        s.client.fills = orders / 2 := by
  have hwin := clampWindow_pos window
  have hbounds := windows_bounds hwin (orders / 2).toNat 1
  have hws := flatten_windows hwin (orders / 2).toNat 1
  obtain ⟨hinv, N, hstuck, hrest⟩ :=
    exists_stuck buf mem (fun w hw => (hbounds w hw).1) hfair hgranted
  refine ⟨N, fun n hn => ?_⟩
  intro s
  obtain ⟨h, u⟩ := hinv n
  have hwithin : s.client.Within (2 * clampWindow window) :=
    within_trace (.next fun w hw => (hbounds w hw).2) n
  have hneed : s.client.need ≤ buf.down :=
    (Nat.mul_le_mul_left _ (hwithin _ List.mem_cons_self)).trans hdown
  obtain ⟨hphase, hret⟩ := h.returned_of_stuck u hup hneed (hrest n hn ▸ hstuck)
  obtain ⟨hpast, hreceived⟩ := h.served u hphase
  rw [hws] at hpast hreceived
  refine ⟨hphase, hret, hreceived, ?_⟩
  have hfills := h.fills_eq hws (half_lt orders)
  rw [hpast, length_workload, Nat.mul_div_cancel_left _ (by decide), UInt64.ofNat_toNat] at hfills
  exact hfills

/-- Ten thousand orders in the widest windows, through a buffer for the acks of one of them and
another for a single byte. -/
theorem pipeline_fair_run_ends_alternating :
    ∃ N, (trace (turn ⟨1, 24576⟩) SocketTurn.alternating
      (pipeline .zeroed (fun _ => 0) 100000 10000) N).client.fills = 5000 := by
  obtain ⟨N, hN⟩ := pipeline_fair_run_ends ⟨1, 24576⟩ .zeroed (fun _ => 0) 100000 10000 (by decide)
    (by decide) SocketTurn.alternating SocketTurn.alternating_fair SocketTurn.alternating_granted
  exact ⟨N, (hN N (Nat.le_refl N)).2.2.2⟩

end SocketSession

end Orderbooks.Gateway
