import Orderbooks.GatewayAcks

/-!
# The workload of the gateway's clients

Every client of `apps/gateway/main.cpp` drives the same records: an ask that rests and a bid that
takes it, at one price and for one lot, under ids that count up. The clients judge a run by the
fills their acks report, one for each pair.

Between two pairs nothing rests, so the arena never fills up however long the run is, and the
ids of a run of any length the client can be asked for stay clear of the two reserved ones.
-/
namespace Orderbooks.Gateway

/-- `mid`, in the middle of the ladder. -/
def midPx : UInt32 := 2048

def restingAsk (id : UInt64) : WireOrder :=
  { id := id, qty := 1, px := midPx, newPx := 0, op := 0, side := 1, tif := 0 }

def crossingBid (id : UInt64) : WireOrder :=
  { id := id, qty := 1, px := midPx, newPx := 0, op := 0, side := 0, tif := 1 }

/-- The records of `n` pairs, where `next` is the id of the first. -/
def workload : ℕ → UInt64 → List WireOrder
  | 0, _ => []
  | n + 1, next => restingAsk next :: crossingBid (next + 1) :: workload n (next + 2)

@[simp] theorem length_workload (n : ℕ) (next : UInt64) : (workload n next).length = 2 * n := by
  induction n generalizing next with
  | zero => rfl
  | succ n ih =>
      simp only [workload, List.length_cons, ih]
      omega

/-! ## One submit -/

section Generic
variable {ticks maxOrders : ℕ} {e : Engine AccumPub ticks maxOrders .byId}
  {b : PriorityBook ticks} {wo : WireOrder}

/-- Nothing is turned away while there is room, or when the residual is not to rest. -/
theorem Serves.not_rejected (h : Serves e b) (hlog : b.log = []) {m : SubmitMsg}
    (h' : (e.onSubmit m).2.Refines {} (b.onSubmit m))
    (hroom : b.queues.live < b.capacity ∨ m.t ≠ .gtc) :
    (e.onSubmit m).2.pub.rejected = false := by
  rcases PriorityBook.onSubmit_rejects (m := m) h.steady.wf h.steady.counted with
    ⟨evs, hevs, hnone⟩ | ⟨hfull, _, hgtc, _⟩
  · obtain ⟨_, _, hrep⟩ := h'
    rw [hrep.pub, hevs, hlog, List.nil_append, AccumPub.rejected_foldl, Bool.false_or,
      List.any_eq_false]
    intro ev hev
    rw [hnone ev hev]
    exact Bool.false_ne_true
  · rcases hroom with hroom | hroom
    · omega
    · exact absurd hgtc hroom

/-- A record that is a valid submit, as a submission to the machine behind the gateway. -/
theorem Serves.submitted (h : Serves e b) (hc : 0 < maxOrders) (ht : ticks ≤ 64 ^ 4)
    (hcmd : wo.command ticks e.cfg.maxOrderQty = some (.submit wo.submitMsg)) :
    ∃ (b₀ b' : PriorityBook ticks) (k : Outcome) (r : Remainder) (tail : List Event),
      Serves (applyOrder e wo).1 b' ∧ b₀.queues = b.queues ∧
      b₀.Closes wo.submitMsg b' k r tail ∧ (applyOrder e wo).2.filled.toNat = taken k.fates ∧
      (b.queues.live < b.capacity ∨ wo.submitMsg.t ≠ .gtc → ∀ qty, r ≠ .rejected qty) := by
  have h₀ := h.reset
  obtain ⟨k, r, tail, h', hclose, hfilled, hrejected, -⟩ :=
    h₀.onSubmit_pub rfl hc ht rfl (command_eq_some hcmd).1
  have hstep := h.step hc ht wo
  rw [hcmd] at hstep
  refine ⟨{ b with log := [] }, _, k, r, tail, hstep, rfl, hclose, ?_, fun hroom qty hq => ?_⟩
  · rw [applyOrder_of_some hcmd]
    exact hfilled
  · have hrej := hrejected.mpr ⟨qty, hq⟩
    rw [h₀.not_rejected rfl h' hroom] at hrej
    exact Bool.false_ne_true hrej

/-- Nothing is open on either side. -/
def Vacant (b : PriorityBook ticks) : Prop := ∀ s, b.queues.openOn s = 0

theorem Serves.levels_eq_nil (h : Serves e b) {s : Side} (hs : b.queues.openOn s = 0) (p : ℕ) :
    b.queues.levels s p = [] := by
  rw [List.eq_nil_iff_forall_not_mem]
  intro u hu
  have hp : p < ticks := (h.steady.wf.placed s p u hu).2.2
  have hsum : openSum (b.queues.ordersAt s p) = 0 :=
    Finset.sum_eq_zero_iff.mp hs p (Finset.mem_range.mpr hp)
  have hzero : (b.order u).remaining.toNat = 0 :=
    List.sum_eq_zero_iff.mp hsum _ (List.mem_map_of_mem (List.mem_map_of_mem hu))
  exact (h.steady.sound u (h.steady.wf.linked hu)).open_qty (UInt64.toNat_inj.mp hzero)

theorem Serves.live_eq_zero (h : Serves e b) (hv : Vacant b) : b.queues.live = 0 := by
  rw [h.steady.counted.live]
  refine Finset.sum_eq_zero fun p _ => ?_
  rw [h.levels_eq_nil (hv .bid), h.levels_eq_nil (hv .ask)]
  rfl

/-- An order that is to rest on a vacant book does so untouched. -/
theorem Serves.rests (h : Serves e b) (hc : 0 < maxOrders) (ht : ticks ≤ 64 ^ 4) (hv : Vacant b)
    (hcmd : wo.command ticks e.cfg.maxOrderQty = some (.submit wo.submitMsg))
    (hgtc : wo.submitMsg.t = .gtc) :
    ∃ b', Serves (applyOrder e wo).1 b' ∧ b'.queues.openOn wo.s.opposite = 0 ∧
      b'.queues.openOn wo.s = wo.qty.toNat ∧ b'.queues.ordersAt wo.s wo.px.toNat ≠ [] ∧
      (applyOrder e wo).2.filled = 0 := by
  have hdom := (command_eq_some hcmd).1
  have hroom : b.queues.live < b.capacity := by
    rw [h.live_eq_zero hv, h.refines.capacity]
    exact hc
  obtain ⟨b₀, b', k, r, tail, h', hq, hclose, hfilled, hkept⟩ := h.submitted hc ht hcmd
  have hopp := hclose.openOn_opposite rfl
  have hown := hclose.own_gain rfl hdom.1 (hkept (.inl hroom))
  rw [hq] at hopp hown
  have hnone : taken k.fates = 0 := by
    rw [hv] at hopp
    omega
  rw [hnone, hgtc, if_pos rfl, hv] at hown
  have hqty : wo.submitMsg.qty ≠ 0 := fun hz => absurd hdom.2.1 (by rw [hz]; decide)
  have hrests := hclose.accepted (hq ▸ h.steady.wf) h'.steady.wf (hq ▸ h.steady.sound) rfl hgtc
    hqty (hkept (.inl hroom)) hnone wo.s wo.px.toNat
  refine ⟨b', h', ?_, ?_, ?_, UInt64.toNat_inj.mp (hfilled.trans hnone)⟩
  · rw [hv] at hopp
    exact Nat.eq_zero_of_add_eq_zero_right hopp
  · rw [Nat.zero_add] at hown
    exact hown
  · rw [hrests, if_pos ⟨rfl, rfl⟩]
    simp

/-- An order for one lot that is not to rest takes the one lot there is within its limit. -/
theorem Serves.takes (h : Serves e b) (hc : 0 < maxOrders) (ht : ticks ≤ 64 ^ 4)
    (hcmd : wo.command ticks e.cfg.maxOrderQty = some (.submit wo.submitMsg))
    (hioc : wo.submitMsg.t = .ioc) (hqty : wo.qty = 1) (hown : b.queues.openOn wo.s = 0)
    (hopp : b.queues.openOn wo.s.opposite = 1) {p : ℕ}
    (hp : b.queues.ordersAt wo.s.opposite p ≠ []) (hcross : wo.s.crosses wo.px.toNat p = true) :
    ∃ b', Serves (applyOrder e wo).1 b' ∧ Vacant b' ∧ (applyOrder e wo).2.filled = 1 := by
  have hdom := (command_eq_some hcmd).1
  obtain ⟨b₀, b', k, r, tail, h', hq, hclose, hfilled, hkept⟩ := h.submitted hc ht hcmd
  have hkept' := hkept (.inr (by rw [hioc]; decide))
  have hafter := hclose.openOn_opposite rfl
  have hgain := hclose.own_gain rfl hdom.1 hkept'
  have hsum := hclose.taken_add_left rfl
  rw [hq] at hafter hgain
  have hsome : taken k.fates ≠ 0 := by
    intro hnone
    have hnil := hclose.crossing_eq_nil rfl (hq ▸ h.steady.wf) (hq ▸ h.steady.sound)
      (fun hk => absurd (hioc.symm.trans hk.1) (by decide))
      (fun hz => absurd (hqty.symm.trans hz) (by decide)) hnone
    obtain ⟨o, os, ho⟩ := List.exists_cons_of_ne_nil hp
    have hmem : o ∈ b.queues.ordersAt wo.s.opposite p := ho ▸ List.mem_cons_self
    obtain ⟨u, hu, rfl⟩ := List.mem_map.mp hmem
    have hpx : (b.queues.orders u).px = p := (h.steady.wf.placed _ _ u hu).2.1
    have hin : b.queues.orders u ∈ b.queues.crossing wo.submitMsg := by
      refine (Queues.mem_crossing h.steady.wf).mpr ?_
      rw [hpx]
      exact ⟨hmem, hcross⟩
    rw [← hq, hnil] at hin
    exact List.not_mem_nil hin
  have hone : wo.submitMsg.qty.toNat = 1 := congrArg UInt64.toNat hqty
  have htaken : taken k.fates = 1 := by omega
  refine ⟨b', h', fun s => ?_, UInt64.toNat_inj.mp (hfilled.trans htaken)⟩
  have hs : s = wo.s ∨ s = wo.s.opposite := by
    cases s <;> cases wo.s <;> simp [Side.opposite]
  rcases hs with rfl | rfl
  · rw [if_neg (by rw [hioc]; decide)] at hgain
    exact hgain.trans hown
  · rw [htaken] at hafter
    change _ = b.queues.openOn wo.s.opposite at hafter
    rw [hopp] at hafter
    exact Nat.succ_injective hafter

end Generic

/-! ## The run of pairs -/

variable {e : Engine AccumPub ticks maxOrders .byId} {id next : UInt64}

/-- A gateway engine with nothing on its book. -/
def Idle (e : Engine AccumPub ticks maxOrders .byId) : Prop :=
  (∃ b, Serves e b ∧ Vacant b) ∧ 1 ≤ e.cfg.maxOrderQty

theorem freshEngine_idle (mem : Memory) : Idle (freshEngine mem) := by
  have hqty : (1 : UInt64) ≤ ({} : EngineConfig).maxOrderQty := by decide
  refine ⟨⟨_, freshEngine_serves mem, fun s => ?_⟩, hqty⟩
  exact Finset.sum_eq_zero fun p _ => rfl

theorem restingAsk_command {maxQty : UInt64} (hqty : 1 ≤ maxQty) (hid : ValidId id) :
    (restingAsk id).command ticks maxQty = some (.submit (restingAsk id).submitMsg) := by
  have hpos : (0 : UInt64) < 1 := by decide
  have hpx : midPx.toNat < ticks := by decide
  simp [WireOrder.command, validateOrder, restingAsk, validOrderId_iff.mpr hid, WireOp.ofByte, hqty,
    hpos, hpx]

theorem crossingBid_command {maxQty : UInt64} (hqty : 1 ≤ maxQty) (hid : ValidId id) :
    (crossingBid id).command ticks maxQty = some (.submit (crossingBid id).submitMsg) := by
  have hpos : (0 : UInt64) < 1 := by decide
  have hpx : midPx.toNat < ticks := by decide
  have htif : (1 : UInt8) ≤ Tif.fok.code := by decide
  simp [WireOrder.command, validateOrder, crossingBid, validOrderId_iff.mpr hid, WireOp.ofByte,
    hqty, hpos, hpx, htif]

/-- The ask rests, the bid fills, and nothing is left. -/
theorem Idle.pair (h : Idle e) (hask : ValidId id) {id' : UInt64} (hbid : ValidId id') :
    let r := applyOrder e (restingAsk id)
    let r' := applyOrder r.1 (crossingBid id')
    r.2.filled = 0 ∧ r'.2.filled = 1 ∧ Idle r'.1 := by
  intro r r'
  obtain ⟨⟨b, hb, hv⟩, hqty⟩ := h
  obtain ⟨b₁, hb₁, hbids, hasks, hrec, hfilled⟩ :=
    hb.rests (by decide) (by decide) hv (restingAsk_command hqty hask) rfl
  have hqty₁ : 1 ≤ r.1.cfg.maxOrderQty := by
    rw [applyOrder_cfg]
    exact hqty
  have hcross : Side.bid.crosses midPx.toNat midPx.toNat = true := by decide
  obtain ⟨b₂, hb₂, hv₂, hfilled₂⟩ := hb₁.takes (by decide) (by decide)
    (crossingBid_command hqty₁ hbid) rfl rfl hbids hasks hrec hcross
  refine ⟨hfilled, hfilled₂, ⟨b₂, hb₂, hv₂⟩, ?_⟩
  rw [applyOrder_cfg]
  exact hqty₁

theorem validId_of_lt (hpos : 0 < id.toNat) (hlt : id.toNat < 2 ^ 64 - 1) : ValidId id := by
  refine ⟨fun h => ?_, fun h => ?_⟩
  · rw [h] at hpos
    exact absurd hpos (by decide)
  · rw [h] at hlt
    exact absurd hlt (by decide)

/-- Any number of pairs whose ids stay below the reserved one. -/
theorem Idle.workload (n : ℕ) : ∀ {e : Engine AccumPub ticks maxOrders .byId} {next : UInt64},
    Idle e → 0 < next.toNat → next.toNat + 2 * n < 2 ^ 64 →
    (applyOrders e (workload n next)).2.map (·.filled) = (List.replicate n [0, 1]).flatten ∧
      Idle (applyOrders e (Gateway.workload n next)).1 := by
  induction n with
  | zero =>
      intro e next h _ _
      exact ⟨rfl, h⟩
  | succ n ih =>
      intro e next h hpos hlt
      have hnext : (next + 1).toNat = next.toNat + 1 := by
        rw [UInt64.toNat_add]
        exact Nat.mod_eq_of_lt (by simp; omega)
      have hnext₂ : (next + 2).toNat = next.toNat + 2 := by
        rw [UInt64.toNat_add]
        exact Nat.mod_eq_of_lt (by simp; omega)
      have hvalid : ValidId (next + 1) := validId_of_lt (by omega) (by omega)
      obtain ⟨hask, hbid, hidle⟩ := h.pair (validId_of_lt hpos (by omega)) hvalid
      obtain ⟨hacks, hend⟩ := ih hidle (by omega : 0 < (next + 2).toNat) (by omega)
      refine ⟨?_, hend⟩
      simp only [Gateway.workload, applyOrders, List.map_cons, hask, hbid, hacks,
        List.replicate_succ, List.flatten_cons, List.cons_append, List.nil_append]

theorem workload_add (m n : ℕ) (next : UInt64) :
    workload (m + n) next = workload m next ++ workload n (next + 2 * UInt64.ofNat m) := by
  induction m generalizing next with
  | zero => simp [workload]
  | succ m ih =>
      have hid : next + 2 + 2 * UInt64.ofNat m = next + 2 * UInt64.ofNat (m + 1) := by
        rw [UInt64.ofNat_add, UInt64.mul_add, UInt64.add_assoc,
          UInt64.add_comm 2 (2 * UInt64.ofNat m)]
        rfl
      rw [Nat.add_right_comm, workload, workload, ih, hid, List.cons_append, List.cons_append]

theorem workload_succ (n : ℕ) (next : UInt64) :
    workload (n + 1) next = workload n next ++
      [restingAsk (next + 2 * UInt64.ofNat n), crossingBid (next + 2 * UInt64.ofNat n + 1)] :=
  workload_add n 1 next

end Orderbooks.Gateway
