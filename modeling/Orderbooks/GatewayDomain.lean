import Orderbooks.GatewayIds

/-!
# What the gateway lets through

A record of the wire has a domain for every field its command consumes. The gateway refuses
a record without calling the engine, or runs it. What it runs should lie in the domain, so
that no byte the protocol leaves undefined is taken for another command or side.

Validation checks every consumed field but one. The side of a submit is not checked, and the
decoder takes every byte but zero for an ask.
-/
namespace Orderbooks
namespace Gateway

/-! ## The domain of a record -/

/-- The values the protocol defines, for the command that the record names. -/
structure WireOrder.InProtocol (ticks : ℕ) (maxQty : UInt64) (wo : WireOrder) : Prop where
  op : wo.op = 0 ∨ wo.op = 1 ∨ wo.op = 2
  id : 1 ≤ wo.id.toNat ∧ wo.id.toNat ≤ 2 ^ 64 - 2
  submit : wo.op = 0 → (wo.side = 0 ∨ wo.side = 1) ∧ (wo.tif = 0 ∨ wo.tif = 1 ∨ wo.tif = 2) ∧
    wo.px.toNat < ticks ∧ 0 < wo.qty ∧ wo.qty ≤ maxQty
  modify : wo.op = 2 → wo.newPx.toNat < ticks ∧ 0 < wo.qty ∧ wo.qty ≤ maxQty

/-- The same record with its side byte set to that of a bid. -/
def WireOrder.asBid (wo : WireOrder) : WireOrder := { wo with side := 0 }

section Generic

variable {ticks maxOrders : ℕ} {e : Engine AccumPub ticks maxOrders .byId} {wo : WireOrder}
  {maxQty : UInt64}

theorem WireOrder.inProtocol_iff_asBid :
    wo.InProtocol ticks maxQty ↔
      wo.asBid.InProtocol ticks maxQty ∧ (wo.op = 0 → wo.side = 0 ∨ wo.side = 1) := by
  constructor
  · intro h
    exact ⟨⟨h.op, h.id, fun hop => ⟨.inl rfl, (h.submit hop).2⟩, h.modify⟩,
      fun hop => (h.submit hop).1⟩
  · rintro ⟨h, hside⟩
    exact ⟨h.op, h.id, fun hop => ⟨hside hop, (h.submit hop).2⟩, h.modify⟩

/-! ## What validation decides -/

theorem validOrderId_iff_toNat (id : UInt64) :
    validOrderId id = true ↔ 1 ≤ id.toNat ∧ id.toNat ≤ 2 ^ 64 - 2 := by
  have hlt := id.toNat_lt
  simp only [validOrderId, emptyKey, Bool.and_eq_true, bne_iff_ne, ne_eq, ← UInt64.toNat_inj]
  change ¬ id.toNat = 0 ∧ ¬ id.toNat = 18446744073709551615 ↔ _
  omega

theorem tif_le_fok (t : UInt8) : t ≤ Tif.fok.code ↔ t = 0 ∨ t = 1 ∨ t = 2 := by
  rw [UInt8.le_iff_toNat_le, ← UInt8.toNat_inj, ← UInt8.toNat_inj, ← UInt8.toNat_inj]
  change t.toNat ≤ 2 ↔ t.toNat = 0 ∨ t.toNat = 1 ∨ t.toNat = 2
  omega

theorem ofByte_cases (op : UInt8) :
    (op = 0 ∧ WireOp.ofByte op = some .submit) ∨ (op = 1 ∧ WireOp.ofByte op = some .cancel) ∨
      (op = 2 ∧ WireOp.ofByte op = some .modify) ∨
      (¬ (op = 0 ∨ op = 1 ∨ op = 2) ∧ WireOp.ofByte op = none) := by
  by_cases h0 : op = 0
  · exact .inl ⟨h0, by rw [h0]; rfl⟩
  · by_cases h1 : op = 1
    · exact .inr (.inl ⟨h1, by rw [h1]; rfl⟩)
    · by_cases h2 : op = 2
      · exact .inr (.inr (.inl ⟨h2, by rw [h2]; rfl⟩))
      · exact .inr (.inr (.inr ⟨by simp [h0, h1, h2], by simp [WireOp.ofByte, h0, h1, h2]⟩))

/-- Validation checks all of the domain except the side. -/
theorem validateOrder_iff :
    validateOrder ticks wo maxQty = true ↔ wo.asBid.InProtocol ticks maxQty := by
  have hid := validOrderId_iff_toNat wo.id
  unfold validateOrder
  cases hv : validOrderId wo.id with
  | false =>
      have hout : ¬ wo.asBid.InProtocol ticks maxQty := fun h => by
        rw [hid.mpr h.id] at hv
        exact Bool.noConfusion hv
      simpa using hout
  | true =>
      have hin := hid.mp hv
      rcases ofByte_cases wo.op with ⟨hop, hb⟩ | ⟨hop, hb⟩ | ⟨hop, hb⟩ | ⟨hop, hb⟩
      · simp only [hb, Bool.not_true, Bool.false_eq_true, if_false, Bool.and_eq_true,
          decide_eq_true_eq, tif_le_fok]
        constructor
        · rintro ⟨⟨⟨hpx, hpos⟩, hle⟩, htif⟩
          exact ⟨.inl hop, hin, fun _ => ⟨.inl rfl, htif, hpx, hpos, hle⟩,
            fun hmod => absurd (hop.symm.trans hmod) (by decide)⟩
        · intro h
          obtain ⟨-, htif, hpx, hpos, hle⟩ := h.submit hop
          exact ⟨⟨⟨hpx, hpos⟩, hle⟩, htif⟩
      · simp only [hb, Bool.not_true, Bool.false_eq_true, if_false, true_iff]
        exact ⟨.inr (.inl hop), hin, fun hsub => absurd (hop.symm.trans hsub) (by decide),
          fun hmod => absurd (hop.symm.trans hmod) (by decide)⟩
      · simp only [hb, Bool.not_true, Bool.false_eq_true, if_false, Bool.and_eq_true,
          decide_eq_true_eq]
        constructor
        · rintro ⟨⟨hpx, hpos⟩, hle⟩
          exact ⟨.inr (.inr hop), hin, fun hsub => absurd (hop.symm.trans hsub) (by decide),
            fun _ => ⟨hpx, hpos, hle⟩⟩
        · intro h
          obtain ⟨hpx, hpos, hle⟩ := h.modify hop
          exact ⟨⟨hpx, hpos⟩, hle⟩
      · simp only [hb, Bool.not_true, Bool.false_eq_true, if_false, false_iff]
        exact fun h => hop h.op

/-! ## Refused records -/

/-- The record is answered with `ack_rejected`, and nothing happened but the reset of the
publisher. -/
def Refused (e : Engine AccumPub ticks maxOrders .byId) (wo : WireOrder) : Prop :=
  applyOrder e wo = (resetPub e, ⟨wo.id, 0, 0, ackRejected⟩)

theorem dispatch_status_ne (e : Engine AccumPub ticks maxOrders .byId) (wo : WireOrder) :
    (dispatch e wo).1 ≠ ackRejected := by
  unfold dispatch
  cases WireOp.ofByte wo.op with
  | none => exact (by decide : (0 : UInt32) ≠ ackRejected)
  | some op =>
      cases op with
      | submit =>
          dsimp only
          split_ifs <;> decide
      | cancel => exact (by decide : ackProcessed ≠ ackRejected)
      | modify => exact (by decide : ackProcessed ≠ ackRejected)

/-- A record that the engine is called for is not answered as if it had been refused: the
engine's own rejections leave their mark on the publisher. -/
theorem refused_iff : Refused e wo ↔ validateOrder ticks wo e.cfg.maxOrderQty = false := by
  have hcfg : (resetPub e).cfg = e.cfg := rfl
  unfold Refused applyOrder
  dsimp only
  rw [hcfg]
  cases validateOrder ticks wo e.cfg.maxOrderQty with
  | false => exact iff_of_true rfl rfl
  | true =>
      refine iff_of_false (fun h => ?_) Bool.noConfusion
      have hengine : (dispatch (resetPub e) wo).2 = resetPub e := congrArg Prod.fst h
      have hstatus : (if (dispatch (resetPub e) wo).2.pub.rejected then ackRejected
          else (dispatch (resetPub e) wo).1) = ackRejected := congrArg (fun r => r.2.status) h
      have hquiet : ¬ (resetPub e).pub.rejected = true := Bool.noConfusion
      rw [hengine, if_neg hquiet] at hstatus
      exact dispatch_status_ne _ _ hstatus

/-- The property holds of a record exactly when the record is no submit whose fields are all
in their domains but for the side. -/
theorem applyOrder_in_protocol_iff (e : Engine AccumPub ticks maxOrders .byId) (wo : WireOrder) :
    (Refused e wo ∨ wo.InProtocol ticks e.cfg.maxOrderQty) ↔
      (wo.op = 0 → wo.asBid.InProtocol ticks e.cfg.maxOrderQty → wo.side = 0 ∨ wo.side = 1) := by
  rw [refused_iff, WireOrder.inProtocol_iff_asBid, Bool.eq_false_iff, ne_eq, validateOrder_iff]
  tauto

end Generic

/-- A submit with side byte 2 rests as an ask. -/
theorem applyOrder_undefined_side :
    let e := freshEngine .zeroed
    let wo : WireOrder := ⟨1, 5, 10, 0, 0, 2, 0, 0⟩
    ¬ (Refused e wo ∨ wo.InProtocol ticks e.cfg.maxOrderQty) ∧
      (applyOrder e wo).2.status ≠ ackRejected ∧
      (applyOrder e wo).1.recordsAt .ask 10 = [⟨1, 5, 10, .ask, .gtc, 0⟩] := by
  intro e wo
  have hrest : (applyOrder e wo).1.recordsAt .ask 10 = [⟨1, 5, 10, .ask, .gtc, 0⟩] := by
    refine ((freshEngine_machine .zeroed [wo]).recordsAt_eq .ask 10).trans ?_
    decide +kernel
  have hbefore : e.recordsAt .ask 10 = [] :=
    (freshEngine_serves .zeroed).refines.recordsAt_eq .ask 10
  have hmoved : (applyOrder e wo).1.book ≠ e.book := fun h => by
    have horder : (applyOrder e wo).1.order = e.order := by
      funext x
      simp only [Engine.order, h]
    have hsame : (applyOrder e wo).1.recordsAt .ask 10 = e.recordsAt .ask 10 := by
      simp only [Engine.recordsAt, Engine.side, h, horder]
    rw [hrest, hbefore] at hsame
    exact List.cons_ne_nil _ _ hsame
  refine ⟨?_, fun hrej => hmoved ?_, hrest⟩
  · rintro (hrefused | hin)
    · exact hmoved (by rw [hrefused]; rfl)
    · exact absurd (hin.submit rfl).1 (by decide)
  · exact ((freshEngine_serves .zeroed).truthful (by decide) (by decide) wo).rejected hrej |>.1

end Gateway
end Orderbooks
