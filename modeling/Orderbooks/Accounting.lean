import Orderbooks.Closing
import Orderbooks.SubmitLeg
import Orderbooks.TopStream

/-!
# Quantity accounting

Where the quantity of a submission goes: to fills, to self-trades, to the book or
to a reject, and only an order that is not to rest, or one that `cancel_newest`
stopped, loses any. What the events say was taken of a maker is what the book says
it lost, and orders that are named by no event are as they were.
-/
namespace Orderbooks

namespace PriorityBook
open Queues

variable {ticks : ℕ} {b : PriorityBook ticks} {m : SubmitMsg} {u : ℕ}

/-! ## The policy stays -/

@[simp] theorem publishTopIfChanged_selfCross :
    b.publishTopIfChanged.selfCross = b.selfCross := by
  unfold publishTopIfChanged
  dsimp only
  split <;> rfl

theorem onSubmit_selfCross (hd : b.queues.WellFormed) (hpx : m.px < ticks) :
    (b.onSubmit m).selfCross = b.selfCross :=
  publishTopIfChanged_selfCross.trans (handleSubmit_moved hd hpx).config.1

theorem reprice_selfCross (hd : b.queues.WellFormed) (u : ℕ) {newPx : ℕ} (hpx : newPx < ticks)
    (newQty : UInt64) : (b.reprice u newPx newQty).selfCross = b.selfCross := by
  have hresubmit : (b.resubmit u newPx newQty).selfCross = b.selfCross := by
    have hcancel : (b.suppress.cancelAt u).selfCross = b.selfCross := publishTopIfChanged_selfCross
    have hwf : (b.suppress.cancelAt u).queues.WellFormed := by
      rw [cancelAt_queues]
      exact hd.drop u
    exact publishTopIfChanged_selfCross.trans ((onSubmit_selfCross hwf hpx).trans hcancel)
  unfold reprice
  dsimp only
  split_ifs
  · rfl
  · exact publishTopIfChanged_selfCross
  · split
    · exact publishTopIfChanged_selfCross
    · split_ifs
      · exact publishTopIfChanged_selfCross
      · exact hresubmit

theorem applyAt_selfCross {target : Option ℕ} {cmd : Command} (hd : b.queues.WellFormed)
    (hu : ∀ u, target = some u → b.queues.Linked u) (hrange : cmd.InRange ticks) :
    (b.applyAt target cmd).selfCross = b.selfCross := by
  cases cmd with
  | submit m => exact onSubmit_selfCross hd hrange.1
  | cancel m =>
      cases target with
      | none => rfl
      | some u => exact publishTopIfChanged_selfCross
  | modify m =>
      cases target with
      | none => rfl
      | some u =>
          change (modifyAt b u m).selfCross = _
          unfold modifyAt
          dsimp only
          split_ifs
          · exact reprice_selfCross (b := b.onQueues (·.rename u m.newId))
              (hd.rename (hu u rfl) m.newId) u hrange.1 m.newQty
          · exact reprice_selfCross hd u hrange.1 m.newQty

/-- What holds of the machine behind a run in the documented domains that reuses no resting
id. -/
structure Orderly (cfg : EngineConfig) (b : PriorityBook ticks) : Prop where
  exact : b.queues.Exact
  sound : b.queues.Sound cfg.maxOrderQty
  selfCross : b.selfCross = cfg.selfCross

theorem Orderly.applyAt {cfg : EngineConfig} {cap : ℕ} {target : Option ℕ} {cmd : Command}
    (h : b.Orderly cfg) (hd : b.queues.WellFormed)
    (hu : ∀ u, target = some u → b.queues.Linked u) (hdom : cmd.InDomain ticks cfg.maxOrderQty)
    (hfresh : b.queues.Fresh cmd)
    (heffect : Effect cap b.queues target cmd (b.applyAt target cmd).queues) :
    (b.applyAt target cmd).Orderly cfg :=
  ⟨h.exact.effect hd hu hfresh heffect, h.sound.effect hd hu hdom heffect,
    (applyAt_selfCross hd hu hdom.inRange).trans h.selfCross⟩

end PriorityBook

/-! ## Records and sinks -/

/-- What a submission `m` makes of the resting order `o`, which its events say lost `n`. -/
def Meets (pol : SelfCrossPolicy) (m : SubmitMsg) (o : Order) (n : ℕ) (after : Option Order) :
    Prop :=
  (n < o.remaining.toNat ∧
    after = some { o with remaining := o.remaining - UInt64.ofNat n }) ∨
  (n = o.remaining.toNat ∧ after = none) ∨
  (n = 0 ∧ after = none ∧ pol = .cancelOldest ∧ o.OwnOf m.accountId ∧ o.s = m.s.opposite ∧
    m.s.crosses m.px o.px = true)

/-- A maker that loses `qty` stays with the rest, or leaves if that is nothing. -/
theorem Order.less_meets (pol : SelfCrossPolicy) (m : SubmitMsg) {o : Order} {qty : UInt64}
    {after : Option Order} (hle : qty.toNat ≤ o.remaining.toNat) (ha : after = o.less qty) :
    Meets pol m o qty.toNat after := by
  have hsub := UInt64.toNat_sub_of_le o.remaining qty (UInt64.le_iff_toNat_le.mpr hle)
  unfold Order.less at ha
  by_cases hz : o.remaining - qty = 0
  · rw [if_pos hz] at ha
    refine .inr (.inl ⟨?_, ha⟩)
    rw [hz] at hsub
    have : (0 : UInt64).toNat = 0 := rfl
    omega
  · rw [if_neg hz] at ha
    refine .inl ⟨?_, by simpa using ha⟩
    have : (o.remaining - qty).toNat ≠ 0 := fun h => hz (UInt64.toNat_inj.mp h)
    omega

namespace Engine
open Runs

variable {P : Type} {ticks maxOrders : ℕ} {lookup : OrderLookup}

/-- The records that rest at a price, in queue order. -/
def recordsAt (e : Engine P ticks maxOrders lookup) (s : Side) (p : ℕ) : List Order :=
  ((e.side s).levels p).fifo.map e.order

/-- The makers `m` can trade with, best price first and each price in time order. -/
def makers (e : Engine P ticks maxOrders lookup) (m : SubmitMsg) : List Order :=
  ((m.s.opposite.priority ticks).filter (m.s.crosses m.px)).flatMap (e.recordsAt m.s.opposite)

/-- The quantity that rests under an id. -/
def restingQty (e : Engine P ticks maxOrders lookup) (id : UInt64) : ℕ :=
  ∑ s : Side, ∑ p ∈ Finset.range ticks,
    (((e.recordsAt s p).filter (·.id = id)).map fun o => o.remaining.toNat).sum

/-- `cancel_newest` holds, and the next maker in line belongs to the aggressor's account. -/
def StoppedByOwn (e : Engine P ticks maxOrders lookup) (m : SubmitMsg) : Prop :=
  e.cfg.selfCross = .cancelNewest ∧ ∃ o, (e.makers m).head? = some o ∧ o.OwnOf m.accountId

/-- The sinks of the quantity of `m`: fills, self-trades, the book and rejects. -/
def accountedFor (e : Engine P ticks maxOrders lookup) (m : SubmitMsg) (evs : List Event) : ℕ :=
  tally (Event.filled m.id) evs + tally (Event.selfTraded m.id) evs + e.restingQty m.id +
    tally (Event.rejected m.id) evs

/-- The submission of `m` in `e`, which publishes `evs` and leaves `e'`. A resting order `o`
becomes `after o`, and `residue` is what rests of `m`. -/
structure Accounts (m : SubmitMsg) (e e' : Engine P ticks maxOrders lookup) (evs : List Event)
    (after : Order → Option Order) (residue : List Order) : Prop where
  conserved : e'.accountedFor m evs ≤ m.qty.toNat
  complete : m.t = .gtc → e'.accountedFor m evs = m.qty.toNat ∨
    (e'.accountedFor m evs < m.qty.toNat ∧ e'.StoppedByOwn m)
  maker : ∀ s p, ∀ o ∈ e.recordsAt s p,
    Meets e.cfg.selfCross m o (tally (Event.takenFrom o.id) evs) (after o)
  own : ∀ p, ∀ o ∈ e.recordsAt m.s p, after o = some o
  book : ∀ s p, e'.recordsAt s p =
    (e.recordsAt s p).filterMap after ++ if s = m.s ∧ p = m.px then residue else []
  residue : residue = [] ∨
    ∃ qty ≠ 0, m.t = .gtc ∧ residue = [⟨m.id, qty, m.px, m.s, m.t, m.accountId⟩]
  paired : Paired evs

variable [Publisher P] {p0 : P} {e e' : Engine P ticks maxOrders lookup}
  {b b' : PriorityBook ticks} {m : SubmitMsg} {k : Outcome} {r : Remainder} {tail : List Event}

theorem Refines.recordsAt_eq (h : e.Refines p0 b) (s : Side) (p : ℕ) :
    e.recordsAt s p = b.queues.ordersAt s p := by
  obtain ⟨_, tag, h⟩ := h
  exact h.map_order_eq s p

theorem Refines.makers_eq (h : e.Refines p0 b) (m : SubmitMsg) :
    e.makers m = b.queues.crossing m :=
  List.flatMap_congr fun p _ => h.recordsAt_eq m.s.opposite p

theorem Refines.selfCross (h : e.Refines p0 b) : e.cfg.selfCross = b.selfCross := by
  obtain ⟨_, _, h⟩ := h
  exact h.selfCross

omit [Publisher P] in
/-- What rests under the id of the submission is what rests of the submission. -/
theorem restingQty_of_book (after : Order → Option Order) {residue : List Order}
    (hpx : m.px < ticks) (hbook : ∀ s p, e'.recordsAt s p =
      (e.recordsAt s p).filterMap after ++ if s = m.s ∧ p = m.px then residue else [])
    (hold : ∀ s p, ∀ o ∈ e.recordsAt s p, ∀ o', after o = some o' → o'.id ≠ m.id)
    (hnew : ∀ o ∈ residue, o.id = m.id) :
    e'.restingQty m.id = (residue.map fun o => o.remaining.toNat).sum := by
  have hlevel : ∀ s p, (((e'.recordsAt s p).filter (·.id = m.id)).map
      fun o => o.remaining.toNat).sum =
        if s = m.s then if p = m.px then (residue.map fun o => o.remaining.toNat).sum else 0
        else 0 := by
    intro s p
    have hnil : ((e.recordsAt s p).filterMap after).filter (·.id = m.id) = [] := by
      rw [List.filter_eq_nil_iff]
      intro o' ho'
      obtain ⟨o, ho, ha⟩ := List.mem_filterMap.mp ho'
      simpa using hold s p o ho o' ha
    rw [hbook, List.filter_append, hnil, List.nil_append, ← ite_and]
    split_ifs
    · rw [List.filter_eq_self.mpr fun o ho => by simpa using hnew o ho]
    · rfl
  unfold restingQty
  simp only [hlevel]
  rw [Finset.sum_eq_single m.s (fun s _ hs => by simp [hs]) (by simp)]
  simp only [if_true]
  rw [Finset.sum_ite_eq' (Finset.range ticks), if_pos (Finset.mem_range.mpr hpx)]

section Closed

variable (h : e.Refines p0 b) (h' : e'.Refines p0 b') (hclose : b.Closes m b' k r tail)
  (hx : b.queues.Exact)
include h hclose hx

/-- What the events say was taken of a resting order is what its fate says. -/
theorem Refines.takenFrom_eq {s : Side} {p : ℕ} {o : Order} (ho : o ∈ e.recordsAt s p) :
    tally (Event.takenFrom o.id) (notices m b.state.seq k.fates ++ tail) =
      (fateOf k.fates o).taken.toNat := by
  rw [h.recordsAt_eq] at ho
  have htail : tally (Event.takenFrom o.id) tail = 0 := tally_eq_zero fun ev hev =>
    (Event.filled_of_parties (hclose.announced.parties hev).1 o.id).2.2
  rw [tally_append, htail, Nat.add_zero]
  refine tally_takenFrom m _ ?_ fun o' ho' hid => ?_
  · rw [hclose.lawful.makers]
    exact hx.crossing_nodup h.1 m
  · rw [hclose.lawful.makers] at ho'
    exact hx.ordersAt_inj h.1 ((Queues.mem_crossing h.1).mp ho').1 ho hid

theorem Refines.meets {maxQty : UInt64} (hs : b.queues.Sound maxQty) {s : Side} {p : ℕ} {o : Order}
    (ho : o ∈ e.recordsAt s p) :
    Meets e.cfg.selfCross m o
      (tally (Event.takenFrom o.id) (notices m b.state.seq k.fates ++ tail))
      ((fateOf k.fates o).after o) := by
  rw [h.takenFrom_eq hclose hx ho, h.selfCross]
  rw [h.recordsAt_eq] at ho
  have hopen : o.remaining.toNat ≠ 0 := by
    obtain ⟨u, hu, rfl⟩ := List.mem_map.mp ho
    exact fun hz => (hs u (h.1.linked hu)).open_qty (UInt64.toNat_inj.mp hz)
  by_cases hmem : o ∈ b.queues.crossing m
  · obtain ⟨hmakers, hbounded, hallowed, _⟩ := hclose.lawful
    have hfate := fateOf_mem (hmakers.symm ▸ hmem)
    have hle := UInt64.le_iff_toNat_le.mp (hbounded _ hfate)
    have hless : (fateOf k.fates o).after o = o.less (fateOf k.fates o).taken → _ := fun ha =>
      Order.less_meets b.selfCross m hle ha
    cases hf : fateOf k.fates o with
    | kept => exact .inl ⟨Nat.pos_of_ne_zero hopen, by simp [Fate.after, Fate.taken]⟩
    | filled qty =>
        rw [hf] at hless
        exact hless rfl
    | selfTraded qty =>
        rw [hf] at hless
        exact hless rfl
    | expired =>
        have hallow := hallowed _ hfate
        rw [hf] at hallow
        obtain ⟨hpol, hown⟩ := hallow
        have hplace := (Queues.mem_crossing h.1).mp hmem
        exact .inr (.inr ⟨rfl, rfl, hpol, hown, (h.1.ordersAt_place hplace.1).1, hplace.2⟩)
  · rw [fateOf_of_notMem (hclose.lawful.makers.symm ▸ hmem)]
    exact .inl ⟨Nat.pos_of_ne_zero hopen, by simp [Fate.after, Fate.taken]⟩

include h' in
/-- The sinks add up to what the makers lost and what rests or is rejected. -/
theorem Refines.accountedFor_eq (habs : b.queues.Absent m.id) (hpx : m.px < ticks) :
    e'.accountedFor m (notices m b.state.seq k.fates ++ tail) = taken k.fates + r.qty := by
  have hquiet : ∀ ev ∈ tail, _ := fun ev hev =>
    Event.filled_of_parties (hclose.announced.parties hev).1 m.id
  have hrest : e'.restingQty m.id = ((r.records m).map fun o => o.remaining.toNat).sum := by
    refine restingQty_of_book (e := e) (fun o => (fateOf k.fates o).after o) hpx
      (fun s p => ?_) (fun s p o ho o' ha => ?_) fun o ho => ?_
    · rw [h'.recordsAt_eq, h.recordsAt_eq]
      exact hclose.ordersAt_eq h.1 h'.1 hx s p
    · rw [h.recordsAt_eq] at ho
      obtain ⟨u, hu, rfl⟩ := List.mem_map.mp ho
      rw [Fate.after_eq_some ha]
      exact habs u (h.1.linked hu)
    · cases r with
      | gone => simp [Remainder.records] at ho
      | rests qty => rw [List.mem_singleton.mp ho]
      | rejected qty => simp [Remainder.records] at ho
  unfold accountedFor
  rw [hrest, tally_append, tally_append, tally_append, tally_rejected_notices,
    tally_eq_zero fun ev hev => (hquiet ev hev).1, tally_eq_zero fun ev hev => (hquiet ev hev).2.1,
    ← tally_notices m b.state.seq k.fates, ← hclose.announced.rejected]
  omega

include h' in
theorem Refines.accounts {maxQty : UInt64} (hs : b.queues.Sound maxQty)
    (habs : b.queues.Absent m.id) (hpx : m.px < ticks) (hpol : b'.selfCross = b.selfCross) :
    Accounts m e e' (notices m b.state.seq k.fates ++ tail)
      (fun o => (fateOf k.fates o).after o) (r.records m) := by
  have htotal := h.accountedFor_eq h' hclose hx habs hpx
  have hof := hclose.remainder
  obtain ⟨hmakers, _, _, hcomplete⟩ := hclose.lawful
  refine ⟨?_, fun ht => ?_, fun s p o ho => h.meets hclose hx hs ho, fun p o ho => ?_,
    fun s p => ?_, ?_, (paired_notices m _ _).append fun ev hev =>
      (hclose.announced.parties hev).2⟩
  · rw [htotal]
    have hzero : k.left = 0 → k.left.toNat = 0 := fun hz => congrArg UInt64.toNat hz
    cases r with
    | gone => rcases hcomplete with hall | hstop <;> simp only [Remainder.qty] <;> omega
    | rests qty =>
        rcases hcomplete with hall | hstop
        · rw [Remainder.qty, hof.1]
          omega
        · exact absurd hstop.2.1 hof.2.1
    | rejected qty =>
        rcases hcomplete with hall | hstop
        · rw [Remainder.qty, hof.1]
          omega
        · exact absurd hstop.2.1 hof.2.1
  · rw [htotal]
    rcases hcomplete with hall | ⟨hlt, hleft, hnewest, o, hhead, hown⟩
    · left
      cases r with
      | gone =>
          have hz : k.left = 0 := hof.resolve_right fun h => h ht
          rw [hz] at hall
          exact hall
      | rests qty => rwa [Remainder.qty, hof.1]
      | rejected qty => rwa [Remainder.qty, hof.1]
    · right
      have hgone : r.qty = 0 := by
        cases r with
        | gone => rfl
        | rests qty => exact absurd hleft hof.2.1
        | rejected qty => exact absurd hleft hof.2.1
      refine ⟨by omega, h'.selfCross.trans (hpol.trans hnewest), o, ?_, hown⟩
      rw [h'.makers_eq, hclose.makers]
      exact hhead
  · rw [h.recordsAt_eq] at ho
    rw [fateOf_of_notMem]
    · rfl
    · rw [hmakers, Queues.mem_crossing h.1]
      rintro ⟨ho', _⟩
      exact m.s.opposite_ne
        ((h.1.ordersAt_place ho').1.symm.trans (h.1.ordersAt_place ho).1)
  · rw [h'.recordsAt_eq, h.recordsAt_eq]
    exact hclose.ordersAt_eq h.1 h'.1 hx s p
  · cases r with
    | gone => exact .inl rfl
    | rejected qty => exact .inl rfl
    | rests qty => exact .inr ⟨qty, hof.1 ▸ hof.2.1, hof.2.2, rfl⟩

end Closed

/-- A submission in an engine that stands for a machine. -/
theorem Refines.onSubmit_closes (h : e.Refines p0 b) (hc : 0 < maxOrders) (ht : ticks ≤ 64 ^ 4)
    (hr : (Command.submit m).InRange ticks) :
    ∃ b' k r tail, (e.onSubmit m).2.Refines p0 b' ∧ b.Closes m b' k r tail ∧
      b'.selfCross = b.selfCross := by
  obtain ⟨hd, tag, hrep⟩ := h
  obtain ⟨k, r, tail, hclose⟩ := PriorityBook.onSubmit_closes m hd
  exact ⟨_, k, r, tail, hrep.onSubmit hd hc ht hr.1 hr.2, hclose,
    PriorityBook.onSubmit_selfCross hd hr.1⟩

/-! ## Whole histories -/

/-- The machine behind a run in the documented domains that reuses no resting id. -/
theorem play_orderly (pub : P) (cfg : EngineConfig) (mem : Memory) (hc : 0 < maxOrders)
    (ht : ticks ≤ 64 ^ 4) {cmds : List Command}
    (hdom : ∀ cmd ∈ cmds, cmd.InDomain ticks cfg.maxOrderQty)
    (hfresh : Along apply Fresh (new pub cfg mem : Engine P ticks maxOrders lookup) cmds) :
    ∃ b, (play pub cfg mem cmds : Engine P ticks maxOrders lookup).Refines pub b ∧
      b.Orderly cfg := by
  refine (new_refines pub cfg mem hc).run
    (fun e cmd => cmd.InDomain ticks cfg.maxOrderQty ∧ e.Fresh cmd) (·.Orderly cfg) hc ht
    (fun _ _ hok => hok.1.inRange) (fun e b cmd target h hb hok hreach => ?_)
    ⟨.empty, .empty, rfl⟩ ((along_of_forall hdom).and hfresh)
  obtain ⟨hu, heffect⟩ := h.effect hreach
  exact hb.applyAt h.1 hu hok.1 (h.fresh hok.2) heffect

/-- Quantity accounting over whole histories. After any run in the documented domains that
reuses no resting id, the submission that the next command makes, on its own or as the second
leg of a modify, accounts for its quantity and for that of every resting order. -/
theorem play_accounts (cfg : EngineConfig) (mem : Memory) (hc : 0 < maxOrders)
    (ht : ticks ≤ 64 ^ 4) (cmds : List Command) (cmd : Command)
    (hdom : ∀ c ∈ cmds ++ [cmd], c.InDomain ticks cfg.maxOrderQty)
    (hfresh : Along apply Fresh
      (new [] cfg mem : Engine (List Event) ticks maxOrders lookup) (cmds ++ [cmd]))
    (m : SubmitMsg) (e₁ : Engine (List Event) ticks maxOrders lookup)
    (hleg : (play [] cfg mem cmds : Engine (List Event) ticks maxOrders lookup).leg cmd =
      some (m, e₁)) :
    (play [] cfg mem cmds).apply cmd = (e₁.onSubmit m).2.settleLeg cmd ∧
      ∃ evs after residue, (e₁.onSubmit m).2.pub = e₁.pub ++ evs ∧
        Accounts m e₁ (e₁.onSubmit m).2 evs after residue := by
  refine ⟨apply_of_leg hleg, ?_⟩
  obtain ⟨hfresh, hnext, -⟩ := along_append.mp hfresh
  obtain ⟨b, h, hb⟩ := play_orderly [] cfg mem hc ht
    (fun c hmem => hdom c (by simp [hmem])) hfresh
  have hcmd := hdom cmd (by simp)
  obtain ⟨b₁, h₁, hsub⟩ := h.leg hc ht hcmd.inRange hleg
  obtain ⟨hx₁, habs⟩ := hsub.exact h.1 hb.exact (h.fresh hnext)
  have hs₁ := hsub.sound h.1 hb.sound hcmd
  have hm := hsub.inRange hcmd.inRange
  obtain ⟨b₂, k, r, tail, h₂, hclose, hpol⟩ := h₁.onSubmit_closes hc ht hm
  refine ⟨_, _, _, ?_, h₁.accounts h₂ hclose hx₁ hs₁ habs hm.1 hpol⟩
  rw [h₁.pub_eq, h₂.pub_eq, hclose.log]
  simp

/-- A modify that crosses an order of its own account, and rests what the self-trade left. -/
theorem play_accounts_crossing_modify :
    let cmds : List Command := [.submit ⟨1, 1, 3, .ask, .gtc, 7⟩, .submit ⟨2, 0, 5, .bid, .gtc, 7⟩]
    let e : Engine (List Event) 2 2 .byId :=
      play [] { selfCross := .decrementTrade } .zeroed cmds
    let m : SubmitMsg := ⟨2, 1, 5, .bid, .gtc, 7⟩
    let e₁ := e.suppress.onCancel ⟨2, {}⟩
    e.leg (.modify { id := 2, newPx := 1, newQty := 5 }) = some (m, e₁) ∧
      (e₁.onSubmit m).2.restingQty 2 = 2 ∧
      ∃ evs after residue, (e₁.onSubmit m).2.pub = e₁.pub ++ evs ∧
        Accounts m e₁ (e₁.onSubmit m).2 evs after residue := by
  have h := play_accounts { selfCross := .decrementTrade } .zeroed (by decide) (by decide)
    [.submit ⟨1, 1, 3, .ask, .gtc, 7⟩, .submit ⟨2, 0, 5, .bid, .gtc, 7⟩]
    (.modify { id := 2, newPx := 1, newQty := 5 }) (by decide)
    (by decide : Along apply Fresh
      (new [] { selfCross := .decrementTrade } .zeroed : Engine (List Event) 2 2 .byId) _) _ _ rfl
  exact ⟨rfl, by decide, h.2⟩

end Engine
end Orderbooks
