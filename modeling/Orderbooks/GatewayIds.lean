import Orderbooks.GatewayAcks

/-!
# Orders a client can reach

A client names its orders by id, and the gateway leaves the choice of ids to it. A record
that rests under an id which is resting already takes over the index entry, and the order
that had it can no longer be named. As long as no such record arrives, every resting order
is the one its id leads to.
-/
namespace Orderbooks
open Runs

namespace Queues

variable {ticks cap : ℕ} {d d' : Queues ticks} {target : Option ℕ} {cmd : Command}

/-- Only an order that may rest needs an id of its own. -/
theorem Exact.keeps {g : UInt64 → UInt32} (h : d.Exact) (hd : d.WellFormed)
    (hu : ∀ u, target = some u → d.Linked u) (hcmd : Keeps g cmd)
    (hfresh : ∀ m, cmd = .submit m → m.t = .gtc → d.Absent m.id)
    (he : Effect cap d target cmd d') : d'.Exact := by
  cases he with
  | @submit _ m _ hs =>
      cases hs with
      | left hw => exact h.worn hw hd
      | rested hw _ _ hgtc =>
          exact (h.worn hw hd).rest (hw.wellFormed hd) ((hfresh m rfl hgtc).worn hw hd)
  | cancelNone => exact h
  | cancel => exact h.drop hd (hu _ rfl)
  | modifyNone => exact h
  | @modify u m _ hr =>
      rw [chained_eq hcmd] at hr
      exact h.repriced hd (hu u rfl) hr

theorem Exact.ordersAt_drop (h : d.Exact) (hd : d.WellFormed) {u : ℕ} (hu : d.Linked u) (s : Side)
    (p : ℕ) : (d.drop u).ordersAt s p =
      (d.ordersAt s p).filter fun o => o.id ≠ (d.orders u).id := by
  have hlev : (d.drop u).levels s p = (d.levels s p).filter fun v => v ≠ u := by
    change (d.unlink u).levels s p = _
    rw [hd.unlink_levels_eq_erase, (hd.nodup s p).erase_eq_filter]
    refine List.filter_congr fun v _ => ?_
    simp [bne, BEq.beq]
  unfold ordersAt
  rw [hlev, drop_orders, List.filter_map]
  congr 1
  refine List.filter_congr fun v hv => ?_
  have hiff : (d.orders v).id = (d.orders u).id ↔ v = u :=
    ⟨h.injective (hd.linked hv) hu, fun heq => heq ▸ rfl⟩
  simp only [Function.comp_apply, ne_eq, hiff]

end Queues

/-- An order that the machine's index has lost is lost to the engine's. -/
theorem Engine.Refines.lookup_ne {P : Type} [Publisher P] {ticks maxOrders : ℕ} {p0 : P}
    {e : Engine P ticks maxOrders .byId} {b : PriorityBook ticks} (h : e.Refines p0 b)
    {s : Side} {p u : ℕ} (hc : 0 < maxOrders) (hu : u ∈ b.queues.levels s p)
    (hid : (b.order u).id ≠ emptyKey) (hindex : b.queues.index (b.order u).id ≠ some u) :
    ∃ x ∈ ((e.side s).levels p).fifo, e.book.idx.lookup (e.order x).id ≠ some x := by
  obtain ⟨hd, tag, hrep⟩ := h
  obtain ⟨x, hx, rfl⟩ := hrep.book.exists_slot hu
  have horder : e.order x = b.order (tag x) := hrep.book.slotAt ⟨s, p, hx⟩
  refine ⟨x, hx, fun hl => hindex ?_⟩
  rw [horder] at hl
  rw [← (hrep.book.lookup_eq hd rfl hc hid).1, hl]
  rfl

namespace Gateway

section Generic

variable {ticks maxOrders : ℕ} {e : Engine AccumPub ticks maxOrders .byId}
  {b : PriorityBook ticks} {wo : WireOrder}

/-- A record that is to rest does not name an order that rests. -/
def Unused (e : Engine AccumPub ticks maxOrders .byId) (wo : WireOrder) : Prop :=
  WireOp.ofByte wo.op = some .submit → validateOrder ticks wo e.cfg.maxOrderQty = true →
    wo.tif = 0 → ¬ e.Resting wo.id

theorem Serves.exact (h : Serves e b) (hx : b.queues.Exact) (hc : 0 < maxOrders)
    (ht : ticks ≤ 64 ^ 4) (hun : Unused e wo) :
    (serve b (wo.command ticks e.cfg.maxOrderQty)).queues.Exact := by
  cases hcmd : wo.command ticks e.cfg.maxOrderQty with
  | none => exact hx
  | some cmd =>
      obtain ⟨hdom, hkeeps, hshape⟩ := command_eq_some hcmd
      have h₀ := h.reset
      obtain ⟨target, hreach, _⟩ := h₀.refines.apply hc ht hdom.inRange
      obtain ⟨hu, heffect⟩ := h₀.refines.effect hreach
      have hvalid : validateOrder ticks wo e.cfg.maxOrderQty = true := by
        by_contra hnot
        simp [WireOrder.command, hnot] at hcmd
      have hfresh : ∀ m, cmd = .submit m → m.t = .gtc → b.queues.Absent m.id := by
        rintro m rfl hgtc
        rcases hshape with ⟨hop, heq, _⟩ | ⟨_, heq⟩ | ⟨_, heq⟩
        · obtain rfl := Command.submit.inj heq
          exact (h.refines.absent_iff wo.id).mpr (hun hop hvalid (ofCode_eq_gtc.mp hgtc))
        · cases heq
        · cases heq
      have hexact := Queues.Exact.keeps hx h.steady.wf hu hkeeps hfresh heffect
      rw [hreach.2 rfl] at hexact
      exact hexact

theorem Serves.run_exact (hc : 0 < maxOrders) (ht : ticks ≤ 64 ^ 4) (wos : List WireOrder) :
    ∀ {e : Engine AccumPub ticks maxOrders .byId}, (∃ b, Serves e b ∧ b.queues.Exact) →
      Along (fun e wo => (applyOrder e wo).1) Unused e wos →
      ∃ b, Serves (applyOrders e wos).1 b ∧ b.queues.Exact := by
  induction wos with
  | nil =>
      intro e h _
      exact h
  | cons wo wos ih =>
      rintro e ⟨b, h, hx⟩ ⟨hun, hrest⟩
      exact ih ⟨_, h.step hc ht wo, h.exact hx hc ht hun⟩ hrest

/-- A cancel of an order takes that order and no other off the book. -/
theorem Serves.cancel_exact (h : Serves e b) (hx : b.queues.Exact) (hc : 0 < maxOrders)
    (ht : ticks ≤ 64 ^ 4) {x : ℕ} (hheld : e.book.Held x)
    (hop : WireOp.ofByte wo.op = some .cancel) (hid : wo.id = (e.order x).id) (s : Side) (p : ℕ) :
    (applyOrder e wo).1.recordsAt s p = (e.recordsAt s p).filter fun o => o.id ≠ wo.id := by
  obtain ⟨hd, tag, hrep⟩ := id h.refines
  have hlinked := hrep.book.linked hd hheld
  have horder : e.order x = b.queues.orders (tag x) := hrep.book.slotAt hheld
  have hindex : b.queues.index wo.id = some (tag x) := by
    rw [hid, horder]
    exact hx _ hlinked
  have hvalid : ValidId wo.id := by
    rw [hid, horder]
    exact (h.steady.sound _ hlinked).id
  have hcmd : wo.command ticks e.cfg.maxOrderQty = some (.cancel { id := wo.id }) := by
    simp [WireOrder.command, validateOrder, hop, validOrderId_iff.mpr hvalid]
  have h' := applyOrder_refines h.refines hc ht wo
  rw [hcmd] at h'
  have hserve : serve b (some (.cancel { id := wo.id })) =
      ({ b with log := [] } : PriorityBook ticks).cancelAt (tag x) := by
    change Option.elim (b.queues.index wo.id) _ _ = _
    rw [hindex]
    rfl
  rw [h'.recordsAt_eq, hserve, PriorityBook.cancelAt_queues, h.refines.recordsAt_eq]
  rw [hid, horder]
  exact hx.ordersAt_drop hd hlinked s p

end Generic

/-- In every run whose resting records name no order that rests at that time, each resting
order is the one the index has for its id, and a cancel record that names it removes exactly
that order. -/
theorem applyOrders_reachable (mem : Memory) (wos : List WireOrder)
    (hunused : Along (fun e wo => (applyOrder e wo).1) Unused (freshEngine mem) wos) :
    let e := (applyOrders (freshEngine mem) wos).1
    ∀ s p, ∀ x ∈ ((e.side s).levels p).fifo, e.book.idx.lookup (e.order x).id = some x ∧
      ∀ wo, WireOp.ofByte wo.op = some .cancel → wo.id = (e.order x).id → ∀ t r,
        (applyOrder e wo).1.recordsAt t r = (e.recordsAt t r).filter fun o => o.id ≠ wo.id := by
  intro e s p x hx
  obtain ⟨b, h, hexact⟩ : ∃ b, Serves e b ∧ b.queues.Exact :=
    Serves.run_exact (by decide) (by decide) wos ⟨_, freshEngine_serves mem, .empty⟩ hunused
  have hheld : e.book.Held x := ⟨s, p, hx⟩
  refine ⟨(h.refines.indexed rfl (by decide) hexact).lookup_id x hheld, fun wo hop hid t r => ?_⟩
  exact h.cancel_exact hexact (by decide) (by decide) hheld hop hid t r

/-- The records of a bid of five under `id`, and of a cancel of `id`. -/
def bidRecord (id : UInt64) (px : UInt32) : WireOrder := ⟨id, 5, px, 0, 0, 0, 0, 0⟩

def cancelRecord (id : UInt64) : WireOrder := ⟨id, 0, 0, 0, 1, 0, 0, 0⟩

/-- The machine that a fresh gateway's engine stands for after `wos`. -/
def machine (wos : List WireOrder) : PriorityBook ticks :=
  wos.foldl (fun b wo => serve b (wo.command ticks ({} : EngineConfig).maxOrderQty))
    (.new {} maxOrders)

theorem freshEngine_machine (mem : Memory) (wos : List WireOrder) :
    (applyOrders (freshEngine mem) wos).1.Refines {} (machine wos) :=
  applyOrders_refines (by decide) (by decide) wos (freshEngine_serves mem).refines

theorem applyOrders_reachable_bid :
    let e := (applyOrders (freshEngine .zeroed) [bidRecord 7 0]).1
    e.recordsAt .bid 0 = [⟨7, 5, 0, .bid, .gtc, 0⟩] ∧
    ∀ s p, ∀ x ∈ ((e.side s).levels p).fifo, e.book.idx.lookup (e.order x).id = some x ∧
      ∀ wo, WireOp.ofByte wo.op = some .cancel → wo.id = (e.order x).id → ∀ t r,
        (applyOrder e wo).1.recordsAt t r = (e.recordsAt t r).filter fun o => o.id ≠ wo.id := by
  have hnone : ¬ (freshEngine .zeroed).Resting 7 := by
    rintro ⟨s, p, _, x, hx, _⟩
    cases s <;> exact List.not_mem_nil hx
  refine ⟨?_, applyOrders_reachable .zeroed [bidRecord 7 0] ⟨fun _ _ _ => hnone, trivial⟩⟩
  rw [(freshEngine_machine .zeroed [bidRecord 7 0]).recordsAt_eq]
  decide +kernel

/-- Two bids under one id. The index has the second; once that is cancelled, no cancel record
reaches the first. -/
theorem applyOrders_strands :
    let after := fun wos => (applyOrders (freshEngine .zeroed) wos).1
    let bids := [bidRecord 7 0, bidRecord 7 1]
    (∃ x ∈ (((after bids).side .bid).levels 0).fifo,
        (after bids).book.idx.lookup ((after bids).order x).id ≠ some x) ∧
      (after bids).recordsAt .bid 0 = [⟨7, 5, 0, .bid, .gtc, 0⟩] ∧
      (after (bids ++ [cancelRecord 7])).recordsAt .bid 0 = [⟨7, 5, 0, .bid, .gtc, 0⟩] ∧
      (after (bids ++ [cancelRecord 7, cancelRecord 7])).recordsAt .bid 0 =
        [⟨7, 5, 0, .bid, .gtc, 0⟩] := by
  intro after bids
  have hrun : ∀ wos, (after wos).Refines {} (machine wos) := freshEngine_machine .zeroed
  clear_value after
  have hstate : 0 ∈ (machine bids).queues.levels .bid 0 ∧
      ((machine bids).order 0).id ≠ emptyKey ∧
      (machine bids).queues.index ((machine bids).order 0).id ≠ some 0 ∧
      (machine bids).queues.ordersAt .bid 0 = [⟨7, 5, 0, .bid, .gtc, 0⟩] ∧
      (machine (bids ++ [cancelRecord 7])).queues.ordersAt .bid 0 =
        [⟨7, 5, 0, .bid, .gtc, 0⟩] ∧
      (machine (bids ++ [cancelRecord 7, cancelRecord 7])).queues.ordersAt .bid 0 =
        [⟨7, 5, 0, .bid, .gtc, 0⟩] := by
    decide +kernel
  obtain ⟨hmem, hid, hindex, hrest, hrest', hrest''⟩ := hstate
  exact ⟨(hrun bids).lookup_ne (by decide) hmem hid hindex,
    ((hrun _).recordsAt_eq _ _).trans hrest, ((hrun _).recordsAt_eq _ _).trans hrest',
    ((hrun _).recordsAt_eq _ _).trans hrest''⟩

end Gateway

end Orderbooks
