import Orderbooks.RestingBook

/-!
# The submission a command makes

A submit is handed to the matching code as it comes. A modify whose new price
crosses cancels the order and submits it again: its submission is made to the
engine that the cancel leaves. What is proved of a submission in an engine that
stands for a machine holds of both.
-/
namespace Orderbooks

/-! ## On the machine -/

namespace PriorityBook
open Queues

variable {ticks : ℕ} {b b₁ : PriorityBook ticks} {cmd : Command} {m : SubmitMsg}

/-- The command `cmd` submits `m` to the machine `b₁`. -/
inductive Submits (b : PriorityBook ticks) : Command → SubmitMsg → PriorityBook ticks → Prop
  | submit {m : SubmitMsg} : Submits b (.submit m) m b
  | resubmit {m : ModifyMsg} {u : ℕ} : b.queues.Linked u → (b.order u).id = m.id →
      Submits b (.modify m) ((b.queues.chained u m).asSubmit u m.newPx m.newQty)
        ((b.onQueues (·.chained u m)).suppress.cancelAt u)

namespace Submits

theorem config (h : b.Submits cmd m b₁) :
    b₁.selfCross = b.selfCross ∧ b₁.topThrottle = b.topThrottle ∧ b₁.capacity = b.capacity := by
  cases h with
  | submit => exact ⟨rfl, rfl, rfl⟩
  | resubmit =>
      unfold cancelAt publishTopIfChanged
      dsimp only
      split <;> exact ⟨rfl, rfl, rfl⟩

theorem queues (h : b.Submits cmd m b₁) :
    b₁.queues = b.queues ∨ ∃ u mm, b.queues.Linked u ∧ cmd = .modify mm ∧
      b₁.queues = (b.queues.chained u mm).drop u := by
  cases h with
  | submit => exact .inl rfl
  | resubmit hu _ => exact .inr ⟨_, _, hu, rfl, cancelAt_queues⟩

theorem sound {maxQty : UInt64} (h : b.Submits cmd m b₁) (hd : b.queues.WellFormed)
    (hs : b.queues.Sound maxQty) (hdom : cmd.InDomain ticks maxQty) :
    b₁.queues.Sound maxQty := by
  rcases h.queues with heq | ⟨u, mm, hu, rfl, heq⟩
  · rwa [heq]
  · rw [heq]
    exact (hs.chained hu hdom.2.2.2.2).drop (hd.chained hu mm) u

/-- What is submitted is in its domain. -/
theorem inDomain {maxQty : UInt64} (h : b.Submits cmd m b₁) (hs : b.queues.Sound maxQty)
    (hdom : cmd.InDomain ticks maxQty) : (Command.submit m).InDomain ticks maxQty := by
  cases h with
  | submit => exact hdom
  | @resubmit mm u hu _ =>
      obtain ⟨hpx, hpos, hle, _, hnew⟩ := hdom
      exact ⟨hpx, hpos, hle, (hs.chained hu hnew u ((linked_chained mm).mpr hu)).id⟩

theorem inRange (h : b.Submits cmd m b₁) (hr : cmd.InRange ticks) :
    (Command.submit m).InRange ticks := by
  cases h with
  | submit => exact hr
  | @resubmit mm u hu hid =>
      refine ⟨hr.1, ?_⟩
      change ((b.queues.chained u mm).orders u).id ≠ emptyKey
      unfold Queues.chained
      split_ifs
      · rw [rename_orders, Function.update_self]
        exact hr.2.2
      · have : (b.queues.orders u).id = mm.id := hid
        rw [this]
        exact hr.2.1

theorem exact (h : b.Submits cmd m b₁) (hd : b.queues.WellFormed) (hx : b.queues.Exact)
    (hfresh : b.queues.Fresh cmd) : b₁.queues.Exact ∧ b₁.queues.Absent m.id := by
  cases h with
  | submit => exact ⟨hx, hfresh⟩
  | @resubmit mm u hu _ =>
      have hx' := hx.chained hu hfresh
      have hwf := hd.chained hu mm
      have hu' := (linked_chained (d := b.queues) (u := u) mm).mpr hu
      rw [cancelAt_queues]
      exact ⟨hx'.drop hwf hu', hx'.absent_drop hwf hu'⟩

end Submits
end PriorityBook

/-! ## On the engine -/

namespace Engine

variable {P : Type} [Publisher P] {ticks maxOrders : ℕ} {lookup : OrderLookup} {p0 : P}

/-- What a modify submits again, once the id chain is applied. -/
def legOfReprice (e : Engine P ticks maxOrders lookup) (p : ℕ) (m : ModifyMsg) :
    Option (SubmitMsg × Engine P ticks maxOrders lookup) :=
  let o := e.order p
  if m.newPx = o.px then none
  else match (e.side o.s.opposite).best with
    | none => none
    | some b =>
        if !o.s.crosses m.newPx b then none
        else some (⟨o.id, m.newPx, m.newQty, o.s, o.t, o.accountId⟩,
          e.suppress.onCancel ⟨o.id, m.handle⟩)

/-- The submission a command makes, and the engine it is made to. -/
def leg (e : Engine P ticks maxOrders lookup) :
    Command → Option (SubmitMsg × Engine P ticks maxOrders lookup)
  | .submit m => some (m, e)
  | .cancel _ => none
  | .modify m =>
      match e.find m.id m.handle m.renames with
      | (none, _) => none
      | (some p, e) => (if m.renames then e.rename p m.newId else e).legOfReprice p m

theorem leg_modify_none {e : Engine P ticks maxOrders lookup} {m : ModifyMsg}
    (hf : (e.find m.id m.handle m.renames).1 = none) : e.leg (.modify m) = none := by
  unfold leg
  dsimp only
  revert hf
  generalize e.find m.id m.handle m.renames = r
  obtain ⟨o, e'⟩ := r
  rintro rfl
  rfl

theorem leg_modify_some {e : Engine P ticks maxOrders lookup} {m : ModifyMsg} {x : ℕ}
    (hf : (e.find m.id m.handle m.renames).1 = some x) :
    e.leg (.modify m) = (if m.renames then
      (e.find m.id m.handle m.renames).2.rename x m.newId
      else (e.find m.id m.handle m.renames).2).legOfReprice x m := by
  unfold leg
  dsimp only
  revert hf
  generalize e.find m.id m.handle m.renames = r
  obtain ⟨o, e'⟩ := r
  rintro rfl
  rfl

/-- What follows the submission of a modify: the top of book it held back. -/
def settleLeg (e : Engine P ticks maxOrders lookup) : Command → Engine P ticks maxOrders lookup
  | .modify _ => e.unsuppress.publishTopIfChanged
  | _ => e

variable {e e₁ : Engine P ticks maxOrders lookup} {b : PriorityBook ticks} {m : SubmitMsg}

theorem reprice_of_leg {x : ℕ} {mm : ModifyMsg} (hl : e.legOfReprice x mm = some (m, e₁)) :
    e.reprice x mm = ((e₁.onSubmit m).1, (e₁.onSubmit m).2.unsuppress.publishTopIfChanged) := by
  unfold legOfReprice at hl
  unfold reprice
  dsimp only at hl ⊢
  split_ifs at hl ⊢ with hpx
  cases hbest : (e.side (e.order x).s.opposite).best with
  | none => simp [hbest] at hl
  | some q =>
      rw [hbest] at hl
      dsimp only at hl ⊢
      split_ifs at hl ⊢ with hcross
      obtain ⟨rfl, rfl⟩ := Prod.mk.inj (Option.some.inj hl)
      rfl

theorem legOfReprice_eq {x : ℕ} {mm : ModifyMsg} (hl : e.legOfReprice x mm = some (m, e₁)) :
    m = ⟨(e.order x).id, mm.newPx, mm.newQty, (e.order x).s, (e.order x).t,
        (e.order x).accountId⟩ ∧
      e₁ = e.suppress.onCancel ⟨(e.order x).id, mm.handle⟩ := by
  unfold legOfReprice at hl
  dsimp only at hl
  split_ifs at hl with hpx
  cases hbest : (e.side (e.order x).s.opposite).best with
  | none => simp [hbest] at hl
  | some q =>
      rw [hbest] at hl
      dsimp only at hl
      split_ifs at hl with hcross
      obtain ⟨rfl, rfl⟩ := Prod.mk.inj (Option.some.inj hl)
      exact ⟨rfl, rfl⟩

theorem onModify_of_leg {mm : ModifyMsg} (hl : e.leg (.modify mm) = some (m, e₁)) :
    e.onModify mm = ((e₁.onSubmit m).1, (e₁.onSubmit m).2.unsuppress.publishTopIfChanged) := by
  cases hf : (e.find mm.id mm.handle mm.renames).1 with
  | none => simp [leg_modify_none hf] at hl
  | some x =>
      rw [leg_modify_some hf] at hl
      rw [onModify_some hf]
      exact reprice_of_leg hl

/-- A command that submits does nothing else that shows but a top of book at its end. -/
theorem apply_of_leg {cmd : Command} (hl : e.leg cmd = some (m, e₁)) :
    e.apply cmd = (e₁.onSubmit m).2.settleLeg cmd := by
  cases cmd with
  | submit m' =>
      obtain ⟨rfl, rfl⟩ := Prod.mk.inj (Option.some.inj hl)
      rfl
  | cancel m' => simp [leg] at hl
  | modify m' =>
      change (e.onModify m').2 = _
      rw [onModify_of_leg hl]
      rfl

/-- The engine a submission is made to stands for the machine it is made to. -/
theorem Refines.leg (h : e.Refines p0 b) (hc : 0 < maxOrders) (ht : ticks ≤ 64 ^ 4)
    {cmd : Command} (hr : cmd.InRange ticks) (hl : e.leg cmd = some (m, e₁)) :
    ∃ b₁, e₁.Refines p0 b₁ ∧ b.Submits cmd m b₁ := by
  cases cmd with
  | submit m' =>
      obtain ⟨rfl, rfl⟩ := Prod.mk.inj (Option.some.inj hl)
      exact ⟨b, h, .submit⟩
  | cancel m' => simp [Engine.leg] at hl
  | modify m' =>
      obtain ⟨hd, tag, h⟩ := h
      cases hf : (e.find m'.id m'.handle m'.renames).1 with
      | none => simp [leg_modify_none hf] at hl
      | some x =>
          obtain ⟨hheld₀, hid⟩ := h.find_held hd hc hr.2.1 hf
          have hx := h.book.linked hd hheld₀
          obtain ⟨hrep, hwf, hheld, hne, hagain⟩ := h.chain hd hc hr.2.1 hr.2.2 hf
          rw [leg_modify_some hf] at hl
          have hb' : (if m'.renames then b.onQueues (·.rename (tag x) m'.newId) else b) =
              b.onQueues (·.chained (tag x) m') := by
            unfold Queues.chained
            split_ifs <;> rfl
          rw [hb'] at hrep hwf hne hagain
          generalize (if m'.renames then (e.find m'.id m'.handle m'.renames).2.rename x m'.newId
            else (e.find m'.id m'.handle m'.renames).2) = e' at *
          obtain ⟨rfl, rfl⟩ := legOfReprice_eq hl
          rw [hrep.order_eq hheld]
          have hf' := (find_congr (show e'.suppress.book = e'.book from rfl) _ _ _).trans hagain
          have hcancel := hrep.suppress.onCancel hwf hc ht
            (m := ⟨((b.onQueues (·.chained (tag x) m')).order (tag x)).id, m'.handle⟩) hne
          dsimp only at hcancel
          rw [hf'] at hcancel
          exact ⟨_, hcancel, .resubmit hx hid⟩

end Engine
end Orderbooks
