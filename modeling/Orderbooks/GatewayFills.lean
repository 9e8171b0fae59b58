import Orderbooks.Gateway
import Orderbooks.SelfCross
import Orderbooks.FillOrKill
import Orderbooks.Exhaustion
import Mathlib.Order.Interval.Finset.Nat

/-!
# Fills without owners

All orders of a gateway carry the account zero, so no two of them are of one owner and
every meeting is a fill. What the opposite side of the book loses to a command is then what
its fills add up to, and that is what the gateway's publisher accumulates.
-/
namespace Orderbooks

/-! ## What the publisher has accumulated -/

/-- The quantity a fill reports. -/
def Event.executed : Event → ℕ
  | .fill f => f.qty.toNat
  | _ => 0

theorem tally_executed_eq_zero {log : List Event} (h : ∀ f, .fill f ∉ log) :
    tally Event.executed log = 0 := by
  refine tally_eq_zero fun ev hev => ?_
  cases ev with
  | fill f => exact absurd hev (h f)
  | top t => rfl
  | trade t => rfl
  | selfTrade t => rfl
  | reject r => rfl

namespace Gateway.AccumPub

theorem filled_foldl (log : List Event) : ∀ p : AccumPub,
    (log.foldl Publisher.publish p).filled.toNat =
      (p.filled.toNat + tally Event.executed log) % 2 ^ 64 := by
  induction log with
  | nil =>
      intro p
      simp [Nat.mod_eq_of_lt p.filled.toNat_lt]
  | cons ev log ih =>
      intro p
      rw [List.foldl_cons, ih, tally_cons]
      cases ev with
      | fill f =>
          have hadd : (Publisher.publish p (.fill f)).filled.toNat =
              (p.filled.toNat + f.qty.toNat) % 2 ^ 64 := UInt64.toNat_add p.filled f.qty
          rw [hadd, Nat.mod_add_mod, Nat.add_assoc]
          rfl
      | top t => simp [Publisher.publish, publish, Event.executed]
      | trade t => simp [Publisher.publish, publish, Event.executed]
      | selfTrade t => simp [Publisher.publish, publish, Event.executed]
      | reject r => simp [Publisher.publish, publish, Event.executed]

theorem rejected_foldl (log : List Event) : ∀ p : AccumPub,
    (log.foldl Publisher.publish p).rejected = (p.rejected || log.any Event.isReject) := by
  induction log with
  | nil =>
      intro p
      simp
  | cons ev log ih =>
      intro p
      rw [List.foldl_cons, ih, List.any_cons]
      cases ev <;> simp [Publisher.publish, publish, Event.isReject]

/-- The last price is that of some fill, if there was one. -/
theorem lastPx_foldl (log : List Event) : ∀ p : AccumPub,
    ((∀ f, .fill f ∉ log) ∧ (log.foldl Publisher.publish p).lastPx = p.lastPx) ∨
      ∃ f, .fill f ∈ log ∧ (log.foldl Publisher.publish p).lastPx = f.px := by
  induction log with
  | nil =>
      intro p
      simp
  | cons ev log ih =>
      intro p
      rw [List.foldl_cons]
      rcases ih (Publisher.publish p ev) with ⟨hnone, hpx⟩ | ⟨f, hf, hpx⟩
      · rw [hpx]
        cases ev with
        | fill f => exact .inr ⟨f, List.mem_cons_self, rfl⟩
        | top t => exact .inl ⟨by simpa using hnone, rfl⟩
        | trade t => exact .inl ⟨by simpa using hnone, rfl⟩
        | selfTrade t => exact .inl ⟨by simpa using hnone, rfl⟩
        | reject r => exact .inl ⟨by simpa using hnone, rfl⟩
      · exact .inr ⟨f, List.mem_cons_of_mem _ hf, hpx⟩

end Gateway.AccumPub

/-! ## Quantities of a side -/

namespace Queues

variable {ticks : ℕ} {d d' : Queues ticks} {m : SubmitMsg} {s : Side} {u : ℕ}

/-- The open quantity of a whole side. -/
def openOn (d : Queues ticks) (s : Side) : ℕ := ∑ p ∈ Finset.range ticks, openSum (d.ordersAt s p)

theorem openOn_congr (h : ∀ p, d'.ordersAt s p = d.ordersAt s p) : d'.openOn s = d.openOn s := by
  simp only [openOn, h]

/-- A side holds no more than its orders at the cap. -/
theorem Recordable.openOn_le {maxQty : UInt64} {cap : ℕ} (h : d.Recordable maxQty)
    (hd : d.WellFormed) (hcount : d.Counted cap) (s : Side) :
    d.openOn s ≤ cap * maxQty.toNat := by
  have hlen : ∑ p ∈ Finset.range ticks, (d.levels s p).length ≤ d.count := by
    refine Finset.sum_le_sum fun p _ => ?_
    cases s <;> simp
  calc d.openOn s ≤ ∑ p ∈ Finset.range ticks, (d.levels s p).length * maxQty.toNat :=
        Finset.sum_le_sum fun p _ => h.openAt_le hd s p
    _ = (∑ p ∈ Finset.range ticks, (d.levels s p).length) * maxQty.toNat :=
        (Finset.sum_mul ..).symm
    _ ≤ cap * maxQty.toNat := by
        have hle := hcount.le
        have hlive := hcount.live
        exact Nat.mul_le_mul_right _ (by omega)

theorem openSum_flatMap (f : ℕ → List Order) (ps : List ℕ) :
    openSum (ps.flatMap f) = (ps.map fun p => openSum (f p)).sum := by
  induction ps with
  | nil => rfl
  | cons p ps ih => simp [ih]

theorem priority_perm (s : Side) : (s.priority ticks).Perm (List.range ticks) := by
  cases s with
  | bid => exact List.reverse_perm _
  | ask => exact .refl _

/-- The side an incoming order looks at is what it can reach and the rest. -/
theorem openOn_split (d : Queues ticks) (m : SubmitMsg) :
    d.openOn m.s.opposite = openSum (d.crossing m) +
      ∑ p ∈ (Finset.range ticks).filter (¬ m.s.crosses m.px · = true),
        openSum (d.ordersAt m.s.opposite p) := by
  have hreach : openSum (d.crossing m) =
      ∑ p ∈ (Finset.range ticks).filter (m.s.crosses m.px · = true),
        openSum (d.ordersAt m.s.opposite p) := by
    have hnodup : ((List.range ticks).filter (m.s.crosses m.px)).Nodup :=
      List.nodup_range.filter _
    rw [crossing, openSum_flatMap,
      (((priority_perm m.s.opposite).filter (m.s.crosses m.px)).map _).sum_eq,
      ← List.sum_toFinset _ hnodup, List.toFinset_filter, List.toFinset_range]
  rw [openOn, hreach, Finset.sum_filter_add_sum_filter_not]

/-- An order of one side does not count on the other. -/
theorem WellFormed.openOn_setRemaining (hd : d.WellFormed) (hs : (d.orders u).s ≠ s)
    (qty : UInt64) : (d.setRemaining u qty).openOn s = d.openOn s :=
  openOn_congr fun _ => hd.ordersAt_setRemaining qty fun h => hs h.1.symm

theorem openOn_drop (hs : (d.orders u).s ≠ s) : (d.drop u).openOn s = d.openOn s :=
  openOn_congr fun _ => ordersAt_drop fun h => hs h.1.symm

theorem WellFormed.openOn_move (hd : d.WellFormed) (hs : (d.orders u).s ≠ s) (newPx : ℕ)
    (newQty : UInt64) : (d.move u newPx newQty).openOn s = d.openOn s := by
  refine openOn_congr fun p => ?_
  have hmem : u ∉ d.levels s p := fun h => hs (hd.placed s p u h).1
  have hlev : (d.move u newPx newQty).levels s p = d.levels s p := by
    rw [hd.move_levels, if_neg fun h => hs h.1.symm, List.erase_of_not_mem hmem]
  unfold ordersAt
  rw [hlev]
  refine List.map_congr_left fun v hv => ?_
  have hne : v ≠ u := fun h => hmem (h ▸ hv)
  rw [move_orders, Function.update_of_ne hne]

end Queues

/-! ## Fills without owners -/

section Plain

variable {fates : List (Order × Fate)}

/-- Makers that were left alone or filled. -/
def Plain (fates : List (Order × Fate)) : Prop :=
  ∀ a ∈ fates, a.2 = .kept ∨ ∃ qty, a.2 = .filled qty

theorem Outcome.Lawful.plain {pol : SelfCrossPolicy} {os : List Order} {rem : UInt64} {k : Outcome}
    (h : k.Lawful pol 0 os rem) : Plain k.fates := by
  intro a ha
  have hallowed := h.allowed a ha
  obtain ⟨o, f⟩ := a
  cases f with
  | kept => exact .inl rfl
  | filled qty => exact .inr ⟨qty, rfl⟩
  | selfTraded qty => exact absurd rfl hallowed.2.1
  | expired => exact absurd rfl hallowed.2.1

theorem tally_executed_notices (h : Plain fates) (m : SubmitMsg) (seq : UInt64) :
    tally Event.executed (notices m seq fates) = taken fates := by
  induction fates generalizing seq with
  | nil => rfl
  | cons a fates ih =>
      have hrest := ih fun a' ha' => h a' (List.mem_cons_of_mem _ ha')
      obtain ⟨o, f⟩ := a
      rcases h _ List.mem_cons_self with hf | ⟨qty, hf⟩ <;> dsimp only at hf <;> subst hf
      · simp [notices, hrest, Fate.taken]
      · simp [notices, hrest, Fate.taken, Event.executed]

/-- What the makers lost is what was taken from them. -/
theorem openSum_survivors (h : Plain fates) (hle : ∀ a ∈ fates, a.2.taken ≤ a.1.remaining) :
    openSum (survivors fates) + taken fates = openSum (fates.map Prod.fst) := by
  induction fates with
  | nil => rfl
  | cons a fates ih =>
      have hrest := ih (fun a' ha' => h a' (List.mem_cons_of_mem _ ha'))
        (fun a' ha' => hle a' (List.mem_cons_of_mem _ ha'))
      have hone := hle a List.mem_cons_self
      obtain ⟨o, f⟩ := a
      rw [List.map_cons, openSum_cons, taken_cons]
      rcases h _ List.mem_cons_self with hf | ⟨qty, hf⟩ <;> dsimp only at hf <;> subst hf
      · have hcons : survivors ((o, .kept) :: fates) = o :: survivors fates := rfl
        rw [hcons, openSum_cons]
        simp only [Fate.taken, UInt64.toNat_zero]
        omega
      · have hqty : qty.toNat ≤ o.remaining.toNat := UInt64.le_iff_toNat_le.mp hone
        have hsub : (o.remaining - qty).toNat = o.remaining.toNat - qty.toNat :=
          UInt64.toNat_sub_of_le _ _ hone
        have hcons : openSum (survivors ((o, .filled qty) :: fates)) =
            (o.remaining - qty).toNat + openSum (survivors fates) := by
          unfold survivors
          by_cases hz : o.remaining - qty = 0
          · simp [Fate.after, Order.less, hz]
          · simp [Fate.after, Order.less, hz]
        simp only [Fate.taken]
        omega

end Plain

namespace PriorityBook
open Queues

variable {ticks : ℕ} {b b' : PriorityBook ticks} {m : SubmitMsg} {k : Outcome} {r : Remainder}
  {tail : List Event}

section Closed

variable (h : Closes m b b' k r tail)
include h

theorem Closes.fill_crosses (hd : b.queues.WellFormed) {f : FillMsg}
    (hf : .fill f ∈ notices m b.state.seq k.fates ++ tail) : m.s.crosses m.px f.px = true := by
  obtain ⟨_, o, ho, _, hpx⟩ := Engine.fill_mem_closes h hf
  have hmem : o ∈ b.queues.crossing m := by
    rw [← h.lawful.makers]
    exact List.mem_map_of_mem (f := Prod.fst) ho
  rw [hpx]
  exact ((mem_crossing hd).mp hmem).2

theorem Closes.openOn_own (hpx : m.px < ticks) :
    b'.queues.openOn m.s = b.queues.openOn m.s + openSum (r.records m) := by
  have hlevel (p : ℕ) : openSum (b'.queues.ordersAt m.s p) = openSum (b.queues.ordersAt m.s p) +
      if p = m.px then openSum (r.records m) else 0 := by
    rw [h.others m.s p fun hopp => m.s.opposite_ne hopp.1.symm, openSum_append]
    by_cases hp : p = m.px <;> simp [hp]
  simp only [openOn, hlevel, Finset.sum_add_distrib]
  rw [Finset.sum_ite_eq' (Finset.range ticks) m.px, if_pos (Finset.mem_range.mpr hpx)]

variable (hacct : m.accountId = 0)
include hacct

theorem Closes.plain : Plain k.fates := by
  have hlaw := h.lawful
  rw [hacct] at hlaw
  exact hlaw.plain

theorem Closes.executed :
    tally Event.executed (notices m b.state.seq k.fates ++ tail) = taken k.fates := by
  have htail : tally Event.executed tail = 0 :=
    tally_executed_eq_zero fun f hf => (h.announced.parties hf).2 f rfl
  rw [tally_append, tally_executed_notices (h.plain hacct), htail, Nat.add_zero]

theorem Closes.taken_add_left : taken k.fates + k.left.toNat = m.qty.toNat := by
  rcases h.lawful.complete with hsum | ⟨_, _, _, o, _, hown⟩
  · exact hsum
  · exact absurd hacct hown.1

theorem Closes.openOn_opposite :
    b'.queues.openOn m.s.opposite + taken k.fates = b.queues.openOn m.s.opposite := by
  have hrest : ∀ p ∈ (Finset.range ticks).filter (¬ m.s.crosses m.px · = true),
      openSum (b'.queues.ordersAt m.s.opposite p) = openSum (b.queues.ordersAt m.s.opposite p) := by
    intro p hp
    rw [h.others _ p fun hopp => (Finset.mem_filter.mp hp).2 hopp.2,
      if_neg fun hs => m.s.opposite_ne hs.1, List.append_nil]
  have hmakers := openSum_survivors (h.plain hacct) h.lawful.bounded
  rw [h.lawful.makers, ← h.makers] at hmakers
  rw [openOn_split b.queues, openOn_split b'.queues, Finset.sum_congr rfl hrest]
  omega

/-- Nothing was taken: the order was killed, or there was nobody to meet. -/
theorem Closes.crossing_eq_nil {maxQty : UInt64} (hd : b.queues.WellFormed)
    (hs : b.queues.Sound maxQty) (hkill : ¬b.Killed m) (hqty : m.qty ≠ 0)
    (hnone : taken k.fates = 0) : b.queues.crossing m = [] := by
  have hk := (h.outcome.resolve_right fun hkilled => hkill hkilled.1).2
  rw [hk, hacct, taken_settle_all (.inl rfl)] at hnone
  have hpos : 0 < m.qty.toNat := Nat.pos_of_ne_zero fun hz => hqty (UInt64.toNat_inj.mp hz)
  cases hcross : b.queues.crossing m with
  | nil => rfl
  | cons o os =>
      have hmem : o ∈ b.queues.crossing m := hcross ▸ List.mem_cons_self
      obtain ⟨u, hu, rfl⟩ := List.mem_map.mp ((mem_crossing hd).mp hmem).1
      have hopen := (hs u (hd.linked hu)).open_qty
      have hposo : 0 < (b.queues.orders u).remaining.toNat :=
        Nat.pos_of_ne_zero fun hz => hopen (UInt64.toNat_inj.mp hz)
      rw [hcross, openSum_cons] at hnone
      omega

end Closed

theorem halted_of_crossing_nil (hd : b.queues.WellFormed) (h : b.queues.crossing m = [])
    (rem : UInt64) : Halted m b rem := by
  by_contra hrun
  obtain ⟨_, p, u, q, hbest, hcross, hq⟩ := exists_maker hrun
  obtain ⟨os, hlist, _⟩ := crossing_strike hd hbest hcross hq
  rw [h] at hlist
  cases hlist

/-! ## A modify -/

/-- The fills between two states take from side `s` what it loses. -/
def Trades (s : Side) (b b' : PriorityBook ticks) : Prop :=
  ∃ evs, b'.log = b.log ++ evs ∧
    b'.queues.openOn s + tally Event.executed evs = b.queues.openOn s

section Trades

variable {s : Side} {u newPx : ℕ} {newQty : UInt64}

theorem Trades.of_quiet (hlog : b'.log = b.log) (hopen : b'.queues.openOn s = b.queues.openOn s) :
    Trades s b b' :=
  ⟨[], by simp [hlog], by simp [hopen]⟩

theorem Trades.trans {b₁ : PriorityBook ticks} (h : Trades s b b₁) (h' : Trades s b₁ b') :
    Trades s b b' := by
  obtain ⟨evs, hlog, hopen⟩ := h
  obtain ⟨evs', hlog', hopen'⟩ := h'
  refine ⟨evs ++ evs', by rw [hlog', hlog, List.append_assoc], ?_⟩
  rw [tally_append]
  omega

theorem Closes.trades (h : Closes m b b' k r tail) (hacct : m.accountId = 0) :
    Trades m.s.opposite b b' := by
  refine ⟨_, by rw [h.log, List.append_assoc], ?_⟩
  rw [h.executed hacct]
  exact h.openOn_opposite hacct

theorem Trades.publishTop (h : Trades s b b') : Trades s b b'.publishTopIfChanged := by
  obtain ⟨tops, hlog, htops⟩ := publishTopIfChanged_log (b := b')
  refine h.trans ⟨tops, hlog, ?_⟩
  rw [publishTopIfChanged_queues, tally_eq_zero, Nat.add_zero]
  intro ev hev
  obtain ⟨top, rfl⟩ := htops ev hev
  rfl

theorem Trades.unsuppress (h : Trades s b b') : Trades s b b'.unsuppress := h

theorem reprice_trades (hd : b.queues.WellFormed) (hacct : (b.order u).accountId = 0)
    (newPx : ℕ) (newQty : UInt64) :
    Trades (b.order u).s.opposite b (b.reprice u newPx newQty) := by
  have hside : (b.queues.orders u).s ≠ (b.order u).s.opposite := (Side.opposite_ne _).symm
  have hmove : Trades (b.order u).s.opposite b
      (((b.onQueues (·.move u newPx newQty)).markTop (b.order u).s (b.order u).px).markTop
        (b.order u).s newPx) :=
    .of_quiet rfl (hd.openOn_move hside newPx newQty)
  have hqty : Trades (b.order u).s.opposite b
      ((b.onQueues (·.setRemaining u newQty)).markTop (b.order u).s (b.order u).px) :=
    .of_quiet rfl (hd.openOn_setRemaining hside newQty)
  have hdrop : Trades (b.order u).s.opposite b
      ((b.suppress.drop u).markTop (b.order u).s (b.order u).px) :=
    .of_quiet rfl (openOn_drop hside)
  unfold reprice
  dsimp only
  split_ifs
  · exact .of_quiet rfl rfl
  · exact hqty.publishTop
  · split
    · exact hmove.publishTop
    · split_ifs
      · exact hmove.publishTop
      · -- cancelled, and submitted again with the account it carries
        have hcancel : Trades (b.order u).s.opposite b (b.suppress.cancelAt u) :=
          hdrop.publishTop
        have hwf : (b.suppress.cancelAt u).queues.WellFormed := by
          rw [cancelAt_queues]
          exact hd.drop u
        obtain ⟨k, r, tail, hclose⟩ := onSubmit_closes (b.queues.asSubmit u newPx newQty) hwf
        exact (hcancel.trans (hclose.trades hacct)).unsuppress.publishTop

end Trades

end PriorityBook

end Orderbooks
