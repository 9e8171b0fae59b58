import Orderbooks.GatewayFills
import Orderbooks.WarmStart
import Orderbooks.Publishing

/-!
# What an ack says of the book

An ack is made of the publisher's three counters and of the record's time in force. Over
every sequence of records it tells the client what the record did to the book.
-/
namespace Orderbooks
open Runs

/-! ## Accounts and ids over the records of a gateway -/

namespace Queues

variable {ticks cap : ℕ} {d d' : Queues ticks} {target : Option ℕ} {cmd : Command}

/-- Commands that keep the ledger: submissions under the account it has for their id, and
modifies that do not rename. -/
def Keeps (g : UInt64 → UInt32) : Command → Prop
  | .submit m => m.accountId = g m.id
  | .cancel _ => True
  | .modify m => m.renames = false

theorem chained_eq {u : ℕ} {m : ModifyMsg} (h : m.renames = false) : d.chained u m = d := by
  simp [chained, h]

theorem Owned.keeps {g : UInt64 → UInt32} (h : d.Owned g) (hd : d.WellFormed)
    (hu : ∀ u, target = some u → d.Linked u) (hcmd : Keeps g cmd)
    (he : Effect cap d target cmd d') : d'.Owned g := by
  cases he with
  | submit hs => exact h.submitted hd hcmd hs
  | cancelNone => exact h
  | cancel => exact h.drop hd _
  | modifyNone => exact h
  | @modify u m _ hr =>
      rw [chained_eq hcmd] at hr
      exact h.repriced hd (hu u rfl) hr

end Queues

namespace PriorityBook
open Queues

variable {ticks : ℕ} {b b' : PriorityBook ticks} {m : SubmitMsg} {k : Outcome} {r : Remainder}
  {tail : List Event}

/-- A residual that was not turned away rests if it may. -/
theorem Closes.own_gain (h : Closes m b b' k r tail) (hacct : m.accountId = 0)
    (hpx : m.px < ticks) (hkept : ∀ qty, r ≠ .rejected qty) :
    b'.queues.openOn m.s = b.queues.openOn m.s +
      if m.t = .gtc then m.qty.toNat - taken k.fates else 0 := by
  have hsum := h.taken_add_left hacct
  have hrem := h.remainder
  rw [h.openOn_own hpx]
  congr 1
  cases r with
  | gone =>
      change 0 = _
      rcases hrem with hz | hne
      · rw [hz, UInt64.toNat_zero] at hsum
        split_ifs <;> omega
      · rw [if_neg hne]
  | rests qty =>
      obtain ⟨rfl, _, hgtc⟩ := hrem
      rw [if_pos hgtc]
      change k.left.toNat + 0 = _
      omega
  | rejected qty => exact absurd rfl (hkept qty)

/-- A fill-or-kill order that met somebody was filled. -/
theorem Closes.fok_all {maxQty : UInt64} (h : Closes m b b' k r tail) (hb : b.Steady maxQty)
    (hfok : m.t = .fok) (hqty : m.qty ≠ 0) (hpos : 0 < taken k.fates) :
    taken k.fates = m.qty.toNat := by
  rcases h.outcome with ⟨hlive, rfl⟩ | ⟨_, rfl⟩
  · have hcan : b.canFullyFill m.s.opposite m.px m.qty m.accountId = true := by
      by_contra hnot
      exact hlive ⟨hfok, by simpa using hnot⟩
    exact (hb.canFullyFill_iff m hqty).mp hcan
  · rw [taken_untouched] at hpos
    exact absurd hpos (Nat.lt_irrefl 0)

/-- An order that met nobody and was not turned away is the book's last at its price. -/
theorem Closes.accepted {maxQty : UInt64} (h : Closes m b b' k r tail) (hd : b.queues.WellFormed)
    (hd' : b'.queues.WellFormed) (hs : b.queues.Sound maxQty) (hacct : m.accountId = 0)
    (hgtc : m.t = .gtc) (hqty : m.qty ≠ 0) (hkept : ∀ qty, r ≠ .rejected qty)
    (hnone : taken k.fates = 0) (t : Side) (p : ℕ) :
    b'.queues.ordersAt t p = b.queues.ordersAt t p ++
      if t = m.s ∧ p = m.px then [⟨m.id, m.qty, m.px, m.s, .gtc, 0⟩] else [] := by
  have hkill : ¬b.Killed m := fun hk => absurd (hgtc.symm.trans hk.1) (by decide)
  have hcross := h.crossing_eq_nil hacct hd hs hkill hqty hnone
  have hleft : k.left = m.qty := by
    have := h.taken_add_left hacct
    exact UInt64.toNat_inj.mp (by omega)
  have hrecords : r.records m = [⟨m.id, m.qty, m.px, m.s, .gtc, 0⟩] := by
    have hrem := h.remainder
    cases r with
    | gone =>
        rcases hrem with hz | hne
        · exact absurd (hleft.symm.trans hz) hqty
        · exact absurd hgtc hne
    | rests qty =>
        obtain ⟨rfl, _, _⟩ := hrem
        simp only [Remainder.records, hleft, hgtc, hacct]
    | rejected qty => exact absurd rfl (hkept qty)
  by_cases hreach : t = m.s.opposite ∧ m.s.crosses m.px p = true
  · -- nobody was within reach, and nobody is
    obtain ⟨rfl, hp⟩ := hreach
    have hfates : k.fates = [] := by
      have := h.lawful.makers
      rw [hcross] at this
      exact List.map_eq_nil_iff.mp this
    have hafter : b'.queues.crossing m = [] := by
      rw [h.makers, hfates]
      rfl
    rw [← crossing_filter hd hp, ← crossing_filter hd' hp, hcross, hafter,
      if_neg fun hm => m.s.opposite_ne hm.1]
    rfl
  · rw [h.others t p hreach, hrecords]

end PriorityBook

namespace Engine

variable {P : Type} {ticks maxOrders : ℕ} {lookup : OrderLookup}

/-- The quantity resting on a side. -/
def restingOn (e : Engine P ticks maxOrders lookup) (s : Side) : ℕ :=
  ∑ p ∈ Finset.range ticks, openSum (e.recordsAt s p)

theorem Refines.restingOn_eq [Publisher P] {p0 : P} {e : Engine P ticks maxOrders lookup}
    {b : PriorityBook ticks} (h : e.Refines p0 b) (s : Side) :
    e.restingOn s = b.queues.openOn s := by
  simp only [restingOn, Queues.openOn, h.recordsAt_eq]

end Engine

namespace Gateway

section Generic

variable {ticks maxOrders : ℕ} {e : Engine AccumPub ticks maxOrders .byId}
  {b : PriorityBook ticks} {wo : WireOrder} {maxQty : UInt64} {cmd : Command} {p0 : AccumPub}

/-! ## From records to commands -/

/-- The command of a record, if it passes validation. -/
def WireOrder.command (ticks : ℕ) (maxQty : UInt64) (wo : WireOrder) : Option Command :=
  if validateOrder ticks wo maxQty then
    (WireOp.ofByte wo.op).map fun
      | .submit => .submit wo.submitMsg
      | .cancel => .cancel { id := wo.id }
      | .modify => .modify wo.modifyMsg
  else none

theorem validOrderId_iff {id : UInt64} : validOrderId id = true ↔ ValidId id := by
  simp [validOrderId, ValidId]

/-- A record whose op is defined and whose fields are in their domains. -/
theorem command_eq_some (h : wo.command ticks maxQty = some cmd) :
    cmd.InDomain ticks maxQty ∧ Queues.Keeps (fun _ => 0) cmd ∧
      ((WireOp.ofByte wo.op = some .submit ∧ cmd = .submit wo.submitMsg ∧ wo.tif ≤ 2) ∨
        (WireOp.ofByte wo.op = some .cancel ∧ cmd = .cancel { id := wo.id }) ∨
        (WireOp.ofByte wo.op = some .modify ∧ cmd = .modify wo.modifyMsg)) := by
  unfold WireOrder.command validateOrder at h
  by_cases hid : validOrderId wo.id = true
  · have hvalid := validOrderId_iff.mp hid
    cases hop : WireOp.ofByte wo.op with
    | none => simp [hid, hop] at h
    | some op =>
        cases op with
        | submit =>
            simp only [hid, hop, Bool.not_true, Bool.false_eq_true, if_false, Bool.and_eq_true,
              decide_eq_true_eq, Option.map_some] at h
            split_ifs at h with hok
            obtain rfl := Option.some.inj h
            obtain ⟨⟨⟨hpx, hpos⟩, hle⟩, htif⟩ := hok
            exact ⟨⟨hpx, hpos, hle, hvalid⟩, rfl, .inl ⟨rfl, rfl, htif⟩⟩
        | cancel =>
            simp only [hid, hop, Bool.not_true, Bool.false_eq_true, if_false, if_true,
              Option.map_some] at h
            obtain rfl := Option.some.inj h
            exact ⟨hvalid, trivial, .inr (.inl ⟨rfl, rfl⟩)⟩
        | modify =>
            simp only [hid, hop, Bool.not_true, Bool.false_eq_true, if_false, Bool.and_eq_true,
              decide_eq_true_eq, Option.map_some] at h
            split_ifs at h with hok
            obtain rfl := Option.some.inj h
            obtain ⟨⟨hpx, hpos⟩, hle⟩ := hok
            have hzero : (0 : UInt64) ≠ emptyKey := by decide
            have hkeep : wo.modifyMsg.renames = false := by
              simp [ModifyMsg.renames, WireOrder.modifyMsg]
            exact ⟨⟨hpx, hpos, hle, hvalid, hzero⟩, hkeep, .inr (.inr ⟨rfl, rfl⟩)⟩
  · simp [hid] at h

theorem validateOrder_of_command_none (h : wo.command ticks maxQty = none) :
    validateOrder ticks wo maxQty = false := by
  by_contra hvalid
  rw [Bool.not_eq_false] at hvalid
  unfold WireOrder.command at h
  rw [if_pos hvalid, Option.map_eq_none_iff] at h
  unfold validateOrder at hvalid
  rw [h] at hvalid
  split_ifs at hvalid

theorem applyOrder_of_none (h : wo.command ticks e.cfg.maxOrderQty = none) :
    applyOrder e wo = (resetPub e, ⟨wo.id, 0, 0, ackRejected⟩) := by
  have hvalid := validateOrder_of_command_none h
  have hcfg : (resetPub e).cfg = e.cfg := rfl
  simp only [applyOrder, hcfg, hvalid, Bool.not_false, if_true]

/-- The status a command is acked with, unless a residual was turned away. -/
def statusOf (wo : WireOrder) (filled : UInt64) : Command → UInt32
  | .submit _ => if 0 < filled then ackFilled else if wo.tif ≠ 0 then ackKilled else ackAccepted
  | .cancel _ => ackProcessed
  | .modify _ => ackProcessed

theorem applyOrder_of_some (h : wo.command ticks e.cfg.maxOrderQty = some cmd) :
    applyOrder e wo =
      let e' := (resetPub e).apply cmd
      (e', ⟨wo.id, e'.pub.filled, e'.pub.lastPx,
        if e'.pub.rejected then ackRejected else statusOf wo e'.pub.filled cmd⟩) := by
  have hvalid : validateOrder ticks wo e.cfg.maxOrderQty = true := by
    by_contra hnot
    simp [WireOrder.command, hnot] at h
  have hcfg : (resetPub e).cfg = e.cfg := rfl
  have hdispatch : dispatch (resetPub e) wo =
      (statusOf wo ((resetPub e).apply cmd).pub.filled cmd, (resetPub e).apply cmd) := by
    unfold dispatch
    rcases (command_eq_some h).2.2 with ⟨hop, rfl, _⟩ | ⟨hop, rfl⟩ | ⟨hop, rfl⟩ <;> rw [hop] <;> rfl
  simp only [applyOrder, hcfg, hvalid, Bool.not_true, Bool.false_eq_true, if_false, hdispatch]

/-! ## The machine behind a gateway -/

/-- A machine that takes a record's command, if any, and logs what it does. -/
def serve (b : PriorityBook ticks) : Option Command → PriorityBook ticks
  | none => { b with log := [] }
  | some cmd => ({ b with log := [] } : PriorityBook ticks).apply cmd

theorem resetPub_refines (h : e.Refines p0 b) :
    (resetPub e).Refines {} { b with log := [] } := by
  obtain ⟨hd, tag, h⟩ := h
  exact ⟨hd, tag, rfl, h.selfCross, h.topThrottle, h.capacity, h.state, h.book⟩

theorem applyOrder_refines (h : e.Refines p0 b) (hc : 0 < maxOrders) (ht : ticks ≤ 64 ^ 4)
    (wo : WireOrder) :
    (applyOrder e wo).1.Refines {} (serve b (wo.command ticks e.cfg.maxOrderQty)) := by
  cases hcmd : wo.command ticks e.cfg.maxOrderQty with
  | none =>
      rw [applyOrder_of_none hcmd]
      exact resetPub_refines h
  | some cmd =>
      rw [applyOrder_of_some hcmd]
      obtain ⟨target, hreach, h'⟩ :=
        (resetPub_refines h).apply hc ht (command_eq_some hcmd).1.inRange
      rw [hreach.2 rfl] at h'
      exact h'

theorem applyOrder_cfg (e : Engine AccumPub ticks maxOrders .byId) (wo : WireOrder) :
    (applyOrder e wo).1.cfg = e.cfg := by
  cases hcmd : wo.command ticks e.cfg.maxOrderQty with
  | none =>
      rw [applyOrder_of_none hcmd]
      rfl
  | some cmd =>
      rw [applyOrder_of_some hcmd]
      exact Engine.apply_cfg _ cmd

theorem applyOrders_refines (hc : 0 < maxOrders) (ht : ticks ≤ 64 ^ 4) (wos : List WireOrder) :
    ∀ {e : Engine AccumPub ticks maxOrders .byId} {b : PriorityBook ticks}, e.Refines {} b →
      (applyOrders e wos).1.Refines {}
        (wos.foldl (fun b wo => serve b (wo.command ticks e.cfg.maxOrderQty)) b) := by
  induction wos with
  | nil =>
      intro e b h
      exact h
  | cons wo wos ih =>
      intro e b h
      have hnext := ih (applyOrder_refines h hc ht wo)
      rw [applyOrder_cfg] at hnext
      exact hnext

/-- What an engine behind a gateway is known to be. -/
structure Serves (e : Engine AccumPub ticks maxOrders .byId) (b : PriorityBook ticks) : Prop where
  refines : e.Refines {} b
  steady : b.Steady e.cfg.maxOrderQty
  owned : b.queues.Owned fun _ => 0

theorem Serves.reset (h : Serves e b) : Serves (resetPub e) { b with log := [] } where
  refines := resetPub_refines h.refines
  steady := ⟨h.steady.wf, ⟨h.steady.quiet.clean, h.steady.quiet.released, h.steady.quiet.accurate⟩,
    h.steady.sound, h.steady.counted, h.steady.cap⟩
  owned := h.owned

theorem Serves.step (h : Serves e b) (hc : 0 < maxOrders) (ht : ticks ≤ 64 ^ 4)
    (wo : WireOrder) :
    Serves (applyOrder e wo).1 (serve b (wo.command ticks e.cfg.maxOrderQty)) := by
  have hrefines := applyOrder_refines h.refines hc ht wo
  have hcfg := applyOrder_cfg e wo
  cases hcmd : wo.command ticks e.cfg.maxOrderQty with
  | none =>
      rw [applyOrder_of_none hcmd]
      exact h.reset
  | some cmd =>
      obtain ⟨hdom, hkeeps, _⟩ := command_eq_some hcmd
      have h₀ := h.reset
      obtain ⟨target, hreach, h'⟩ := h₀.refines.apply hc ht hdom.inRange
      obtain ⟨hu, heffect⟩ := h₀.refines.effect hreach
      have hsteady := h₀.refines.steady_applyAt h₀.steady hdom hreach h'
      have howned := h₀.owned.keeps h₀.steady.wf hu hkeeps heffect
      rw [hcmd] at hrefines
      rw [hreach.2 rfl] at hsteady howned
      exact ⟨hrefines, hcfg ▸ hsteady, howned⟩

theorem Serves.new (cfg : EngineConfig) (mem : Memory) (hc : 0 < maxOrders)
    (hcap : maxOrders * cfg.maxOrderQty.toNat < 2 ^ 64) :
    Serves (.new {} cfg mem : Engine AccumPub ticks maxOrders .byId) (.new cfg maxOrders) where
  refines := Engine.new_refines ({} : AccumPub) cfg mem hc
  steady := ⟨.empty, .new cfg maxOrders, .empty, .empty, hcap⟩
  owned := .empty _

/-! ## Submits -/

section Submit

variable {m : SubmitMsg}

/-- The publisher after a submission: what was taken, and whether the residual was turned
away. -/
theorem Serves.onSubmit_pub (h : Serves e b) (hlog : b.log = []) (hc : 0 < maxOrders)
    (ht : ticks ≤ 64 ^ 4) (hacct : m.accountId = 0)
    (hdom : (Command.submit m).InDomain ticks e.cfg.maxOrderQty) :
    ∃ k r tail, (e.onSubmit m).2.Refines {} (b.onSubmit m) ∧ b.Closes m (b.onSubmit m) k r tail ∧
      (e.onSubmit m).2.pub.filled.toNat = taken k.fates ∧
      ((e.onSubmit m).2.pub.rejected = true ↔ ∃ qty, r = .rejected qty) ∧
      (0 < taken k.fates → m.s.crosses m.px (e.onSubmit m).2.pub.lastPx = true) := by
  obtain ⟨target, _, h'⟩ := h.refines.apply hc ht hdom.inRange
  change (e.onSubmit m).2.Refines {} (b.onSubmit m) at h'
  obtain ⟨k, r, tail, hclose⟩ := PriorityBook.onSubmit_closes m h.steady.wf
  have hevents : (b.onSubmit m).log = notices m b.state.seq k.fates ++ tail := by
    rw [hclose.log, hlog, List.nil_append]
  have hpub : (e.onSubmit m).2.pub =
      (notices m b.state.seq k.fates ++ tail).foldl Publisher.publish ({} : AccumPub) := by
    obtain ⟨_, _, hrep⟩ := h'
    rw [hrep.pub, hevents]
  have hexec := hclose.executed hacct
  have hsum := hclose.taken_add_left hacct
  have hlt := m.qty.toNat_lt
  refine ⟨k, r, tail, h', hclose, ?_, ?_, ?_⟩
  · rw [hpub, AccumPub.filled_foldl, hexec]
    simp only [UInt64.toNat_zero, Nat.zero_add]
    exact Nat.mod_eq_of_lt (by omega)
  · rw [hpub, AccumPub.rejected_foldl, List.any_append]
    have hquiet : (notices m b.state.seq k.fates).any Event.isReject = false := by
      rw [List.any_eq_false]
      intro ev hev
      rw [isReject_notices m _ _ ev hev]
      exact Bool.false_ne_true
    obtain ⟨told, tops, rfl, htops, htold⟩ := hclose.announced
    have htop : tops.any Event.isReject = false := by
      rw [List.any_eq_false]
      intro ev hev
      obtain ⟨top, rfl⟩ := htops ev hev
      exact Bool.false_ne_true
    rw [hquiet, List.any_append, htop]
    cases r with
    | gone => simp [show told = [] from htold]
    | rests qty => simp [show told = [] from htold]
    | rejected qty =>
        obtain ⟨seq, rfl⟩ := htold
        simp [Event.isReject]
  · intro hpos
    rw [hpub]
    rcases AccumPub.lastPx_foldl (notices m b.state.seq k.fates ++ tail) {} with
      ⟨hnone, _⟩ | ⟨f, hf, hpx⟩
    · have hzero := tally_executed_eq_zero hnone
      omega
    · rw [hpx]
      exact hclose.fill_crosses h.steady.wf hf

/-- An order that is not to rest and meets nobody leaves the engine as it was. -/
theorem Serves.onSubmit_killed (h : Serves e b) (ht : ticks ≤ 64 ^ 4) (htif : m.t ≠ .gtc)
    (hnone : b.Killed m ∨ PriorityBook.Halted m b m.qty) : (e.onSubmit m).2 = e := by
  have hclean := h.refines.publishTop_clean h.steady.quiet
  have hsame : (e.handleSubmit m).2 = e := by
    unfold Engine.handleSubmit
    rcases hnone with hkill | hhalt
    · exact congrArg Prod.snd (if_pos ((h.refines.killed_iff ht).mpr hkill))
    · rw [h.refines.matchAgainstOpposite_halted hhalt]
      split_ifs
      · rfl
      · dsimp only
        split_ifs
        · rfl
        · cases hm : m.t with
          | gtc => exact absurd hm htif
          | ioc => rfl
          | fok => rfl
  unfold Engine.onSubmit
  rw [show e.handleSubmit m = ((e.handleSubmit m).1, e) from Prod.ext rfl hsame]
  exact hclean

end Submit

/-! ## Every record -/

/-- What the ack of a record says about the books before and after it. -/
structure Truthful (e e' : Engine AccumPub ticks maxOrders .byId) (wo : WireOrder)
    (ack : WireAck) : Prop where
  rejected : ack.status = ackRejected → e'.book = e.book ∧ ack.filled = 0
  killed : ack.status = ackKilled →
    (wo.tif = 1 ∨ wo.tif = 2) ∧ e'.book = e.book ∧ ack.filled = 0
  accepted : ack.status = ackAccepted → wo.tif = 0 ∧ ack.filled = 0 ∧
    ∀ s p, e'.recordsAt s p = e.recordsAt s p ++
      if s = wo.s ∧ p = wo.px.toNat then [⟨wo.id, wo.qty, wo.px.toNat, wo.s, .gtc, 0⟩] else []
  filled : ack.status = ackFilled → 0 < ack.filled ∧ ack.filled ≤ wo.qty ∧
    e'.restingOn wo.s.opposite + ack.filled.toNat = e.restingOn wo.s.opposite ∧
    e'.restingOn wo.s = e.restingOn wo.s +
      (if wo.tif = 0 then wo.qty.toNat - ack.filled.toNat else 0) ∧
    (wo.tif = 2 → ack.filled = wo.qty) ∧ wo.s.crosses wo.px.toNat ack.lastPx = true
  modified : WireOp.ofByte wo.op = some .modify →
    match e.book.idx.lookup wo.id with
    | none => e'.book = e.book ∧ ack.filled = 0
    | some x => e'.restingOn (e.order x).s.opposite + ack.filled.toNat =
        e.restingOn (e.order x).s.opposite

theorem Truthful.of_invalid (h : wo.command ticks e.cfg.maxOrderQty = none) :
    Truthful e (applyOrder e wo).1 wo (applyOrder e wo).2 := by
  rw [applyOrder_of_none h]
  refine ⟨fun _ => ⟨rfl, rfl⟩, fun hs => ?_, fun hs => ?_, fun hs => ?_, fun _ => ?_⟩
  · exact absurd hs (by decide : ackRejected ≠ ackKilled)
  · exact absurd hs (by decide : ackRejected ≠ ackAccepted)
  · exact absurd hs (by decide : ackRejected ≠ ackFilled)
  · split
    · exact ⟨rfl, rfl⟩
    · rfl

/-- A submission turned away by a full arena. -/
theorem Serves.submit_rejected (h : Serves e b) (hlog : b.log = []) {m : SubmitMsg}
    (hc : 0 < maxOrders) (hlog' : (e.onSubmit m).2.Refines {} (b.onSubmit m))
    (hrej : (e.onSubmit m).2.pub.rejected = true) :
    (e.onSubmit m).2.book = e.book ∧ (e.onSubmit m).2.pub.filled = 0 := by
  rcases PriorityBook.onSubmit_rejects (m := m) h.steady.wf h.steady.counted with
    ⟨evs, hevs, hnone⟩ | ⟨hfull, hhalt, hgtc, hqty⟩
  · obtain ⟨_, _, hrep⟩ := hlog'
    rw [hrep.pub, hevs, hlog, List.nil_append, AccumPub.rejected_foldl, Bool.false_or,
      List.any_eq_true] at hrej
    obtain ⟨ev, hev, htrue⟩ := hrej
    rw [hnone ev hev] at htrue
    exact absurd htrue Bool.false_ne_true
  · have hpub : e.pub = {} := by
      obtain ⟨_, _, hrep⟩ := h.refines
      rw [hrep.pub, hlog]
      rfl
    rw [h.refines.onSubmit_full h.steady.quiet hc hfull hhalt hgtc hqty]
    refine ⟨rfl, ?_⟩
    change (Publisher.publish e.pub _).filled = 0
    rw [hpub]
    rfl

theorem ofCode_eq_gtc {c : UInt8} : Tif.ofCode c = .gtc ↔ c = 0 := by
  unfold Tif.ofCode
  split_ifs with h0 h1 <;> simp [h0]

/-- A valid submit. -/
theorem Serves.submit_truthful (h : Serves e b) (hc : 0 < maxOrders) (ht : ticks ≤ 64 ^ 4)
    (hop : WireOp.ofByte wo.op = some .submit) (htif : wo.tif ≤ 2)
    (hcmd : wo.command ticks e.cfg.maxOrderQty = some (.submit wo.submitMsg)) :
    Truthful e (applyOrder e wo).1 wo (applyOrder e wo).2 := by
  have hdom := (command_eq_some hcmd).1
  have hqty : wo.submitMsg.qty ≠ 0 := fun hz => absurd hdom.2.1 (by rw [hz]; decide)
  have h₀ := h.reset
  obtain ⟨k, r, tail, h', hclose, hfilled, hrej, hlast⟩ := h₀.onSubmit_pub rfl hc ht rfl hdom
  rw [applyOrder_of_some hcmd]
  set e' := ((resetPub e).onSubmit wo.submitMsg).2 with he'
  change Truthful e e' wo ⟨wo.id, e'.pub.filled, e'.pub.lastPx,
    if e'.pub.rejected then ackRejected else statusOf wo e'.pub.filled (.submit wo.submitMsg)⟩
  have hnotmod : WireOp.ofByte wo.op ≠ some .modify := by
    rw [hop]
    decide
  have hsum := hclose.taken_add_left rfl
  by_cases hr : e'.pub.rejected = true
  · rw [if_pos hr]
    have hsame := h₀.submit_rejected rfl hc h' hr
    exact ⟨fun _ => hsame, fun hs => absurd hs (by decide : ackRejected ≠ ackKilled),
      fun hs => absurd hs (by decide : ackRejected ≠ ackAccepted),
      fun hs => absurd hs (by decide : ackRejected ≠ ackFilled), fun hm => absurd hm hnotmod⟩
  rw [if_neg hr]
  have hkept : ∀ qty, r ≠ .rejected qty := fun qty hq => hr (hrej.mpr ⟨qty, hq⟩)
  simp only [statusOf]
  by_cases hpos : 0 < e'.pub.filled
  · rw [if_pos hpos]
    have htaken : 0 < taken k.fates := by
      rw [← hfilled]
      exact UInt64.lt_iff_toNat_lt.mp hpos
    refine ⟨fun hs => absurd hs (by decide : ackFilled ≠ ackRejected),
      fun hs => absurd hs (by decide : ackFilled ≠ ackKilled),
      fun hs => absurd hs (by decide : ackFilled ≠ ackAccepted), fun _ => ?_,
      fun hm => absurd hm hnotmod⟩
    have hopp := hclose.openOn_opposite rfl
    have hown := hclose.own_gain rfl hdom.1 hkept
    rw [← h'.restingOn_eq, ← h₀.refines.restingOn_eq, ← hfilled] at hopp hown
    refine ⟨hpos, ?_, hopp, ?_, fun hfok => ?_, hlast htaken⟩
    · rw [UInt64.le_iff_toNat_le]
      change e'.pub.filled.toNat ≤ wo.submitMsg.qty.toNat
      omega
    · refine hown.trans ?_
      simp only [WireOrder.submitMsg, ofCode_eq_gtc]
      rfl
    · have hm : wo.submitMsg.t = .fok := by
        simp only [WireOrder.submitMsg, hfok]
        rfl
      have hall := hclose.fok_all h₀.steady hm hqty htaken
      exact UInt64.toNat_inj.mp (hfilled.trans hall)
  rw [if_neg hpos]
  have hzero : e'.pub.filled = 0 := by
    have hle : e'.pub.filled.toNat ≤ 0 :=
      Nat.le_of_not_lt fun hlt => hpos (UInt64.lt_iff_toNat_lt.mpr hlt)
    exact UInt64.toNat_inj.mp (by simpa using hle)
  have hnone : taken k.fates = 0 := by
    rw [← hfilled, hzero]
    rfl
  by_cases hz : wo.tif = 0
  · have hgtc : wo.submitMsg.t = .gtc := ofCode_eq_gtc.mpr hz
    rw [if_neg (not_not.mpr hz)]
    refine ⟨fun hs => absurd hs (by decide : ackAccepted ≠ ackRejected),
      fun hs => absurd hs (by decide : ackAccepted ≠ ackKilled), fun _ => ⟨hz, hzero, ?_⟩,
      fun hs => absurd hs (by decide : ackAccepted ≠ ackFilled), fun hm => absurd hm hnotmod⟩
    intro s p
    have hacc := hclose.accepted h₀.steady.wf h'.1 h₀.steady.sound rfl hgtc hqty hkept hnone s p
    rw [← h'.recordsAt_eq, ← h₀.refines.recordsAt_eq] at hacc
    exact hacc
  · have hne : wo.submitMsg.t ≠ .gtc := fun hm => hz (ofCode_eq_gtc.mp hm)
    rw [if_pos hz]
    refine ⟨fun hs => absurd hs (by decide : ackKilled ≠ ackRejected), fun _ => ⟨?_, ?_, hzero⟩,
      fun hs => absurd hs (by decide : ackKilled ≠ ackAccepted),
      fun hs => absurd hs (by decide : ackKilled ≠ ackFilled), fun hm => absurd hm hnotmod⟩
    · have hle : wo.tif.toNat ≤ 2 := UInt8.le_iff_toNat_le.mp htif
      have hpos : wo.tif.toNat ≠ 0 := fun h0 => hz (UInt8.toNat_inj.mp h0)
      by_cases hone : wo.tif.toNat = 1
      · exact .inl (UInt8.toNat_inj.mp hone)
      · exact .inr (UInt8.toNat_inj.mp (show wo.tif.toNat = 2 by omega))
    · have hstop : PriorityBook.Killed { b with log := [] } wo.submitMsg ∨
          PriorityBook.Halted wo.submitMsg { b with log := [] } wo.submitMsg.qty := by
        by_cases hkill : PriorityBook.Killed { b with log := [] } wo.submitMsg
        · exact .inl hkill
        · exact .inr (PriorityBook.halted_of_crossing_nil h₀.steady.wf
            (hclose.crossing_eq_nil rfl h₀.steady.wf h₀.steady.sound hkill hqty hnone) _)
      rw [he', h₀.onSubmit_killed ht hne hstop]
      rfl

/-- Cancels and modifies turn nothing away. -/
theorem Serves.apply_not_rejected (h : Serves e b) (hlog : b.log = []) (hc : 0 < maxOrders)
    (ht : ticks ≤ 64 ^ 4) (hr : cmd.InRange ticks) (hcmd : ∀ m, cmd ≠ .submit m) :
    (e.apply cmd).pub.rejected = false := by
  obtain ⟨target, hreach, h'⟩ := h.refines.apply hc ht hr
  rcases PriorityBook.applyAt_rejects cmd h.steady.wf h.steady.counted
    (h.refines.effect hreach).1 with ⟨evs, hevs, hnone⟩ | ⟨m, hm, _⟩
  · obtain ⟨_, _, hrep⟩ := h'
    rw [hrep.pub, hevs, hlog, List.nil_append, AccumPub.rejected_foldl, Bool.false_or,
      List.any_eq_false]
    intro ev hev
    rw [hnone ev hev]
    exact Bool.false_ne_true
  · exact absurd hm (hcmd m)

theorem Truthful.of_processed {e' : Engine AccumPub ticks maxOrders .byId} {ack : WireAck}
    (hs : ack.status = ackProcessed)
    (hmod : WireOp.ofByte wo.op = some .modify →
      match e.book.idx.lookup wo.id with
      | none => e'.book = e.book ∧ ack.filled = 0
      | some x => e'.restingOn (e.order x).s.opposite + ack.filled.toNat =
          e.restingOn (e.order x).s.opposite) : Truthful e e' wo ack where
  rejected h := absurd (hs.symm.trans h) (by decide)
  killed h := absurd (hs.symm.trans h) (by decide)
  accepted h := absurd (hs.symm.trans h) (by decide)
  filled h := absurd (hs.symm.trans h) (by decide)
  modified := hmod

/-- A valid cancel. -/
theorem Serves.cancel_truthful (h : Serves e b) (hc : 0 < maxOrders) (ht : ticks ≤ 64 ^ 4)
    (hop : WireOp.ofByte wo.op = some .cancel)
    (hcmd : wo.command ticks e.cfg.maxOrderQty = some (.cancel { id := wo.id })) :
    Truthful e (applyOrder e wo).1 wo (applyOrder e wo).2 := by
  have hrej := h.reset.apply_not_rejected rfl hc ht (command_eq_some hcmd).1.inRange (by simp)
  rw [applyOrder_of_some hcmd]
  refine .of_processed ?_ fun hm => ?_
  · simp only [hrej, Bool.false_eq_true, if_false, statusOf]
  · rw [hop] at hm
    exact absurd hm (by decide)

/-- A valid modify. -/
theorem Serves.modify_truthful (h : Serves e b) (hc : 0 < maxOrders) (ht : ticks ≤ 64 ^ 4)
    (hcmd : wo.command ticks e.cfg.maxOrderQty = some (.modify wo.modifyMsg)) :
    Truthful e (applyOrder e wo).1 wo (applyOrder e wo).2 := by
  have hdom := (command_eq_some hcmd).1
  have h₀ := h.reset
  have hrej := h₀.apply_not_rejected rfl hc ht hdom.inRange (by simp)
  rw [applyOrder_of_some hcmd]
  refine .of_processed ?_ fun _ => ?_
  · simp only [hrej, Bool.false_eq_true, if_false, statusOf]
  have hren : wo.modifyMsg.renames = false := (command_eq_some hcmd).2.1
  have hfind : (resetPub e).find wo.modifyMsg.id wo.modifyMsg.handle wo.modifyMsg.renames =
      (e.book.idx.lookup wo.id, resetPub e) := by
    rw [hren]
    rfl
  cases hl : e.book.idx.lookup wo.id with
  | none =>
      have hsame : (resetPub e).apply (.modify wo.modifyMsg) = resetPub e := by
        change ((resetPub e).onModify wo.modifyMsg).2 = resetPub e
        unfold Engine.onModify
        rw [hfind, hl]
      dsimp only
      rw [hsame]
      exact ⟨rfl, rfl⟩
  | some x =>
      obtain ⟨target, hreach, h'⟩ := h₀.refines.apply hc ht hdom.inRange
      obtain ⟨hd, tag, hrep⟩ := h₀.refines
      have hid : wo.id ≠ emptyKey := hdom.2.2.2.1.2
      obtain ⟨hindex, hheld⟩ := hrep.book.lookup_eq hd rfl hc hid
      have hx := hheld x hl
      have hlookup : (resetPub e).book.idx.lookup wo.id = some x := hl
      rw [hlookup, Option.map_some] at hindex
      have htarget : target = some (tag x) := (hreach.2 rfl).trans hindex.symm
      subst htarget
      have hlinked := hrep.book.linked hd hx
      have horder : e.order x = b.queues.orders (tag x) := hrep.book.slotAt hx
      have happly : ({ b with log := [] } : PriorityBook ticks).applyAt (some (tag x))
          (.modify wo.modifyMsg) = ({ b with log := [] } : PriorityBook ticks).reprice (tag x)
            wo.newPx.toNat wo.qty := by
        change PriorityBook.modifyAt _ _ _ = _
        unfold PriorityBook.modifyAt
        rw [hren]
        rfl
      rw [happly] at h'
      obtain ⟨evs, hevs, hopen⟩ := PriorityBook.reprice_trades (u := tag x) hd
        (h₀.owned _ hlinked) wo.newPx.toNat wo.qty
      have hfilled : ((resetPub e).apply (.modify wo.modifyMsg)).pub.filled.toNat =
          tally Event.executed evs := by
        obtain ⟨_, _, hrep'⟩ := h'
        rw [hrep'.pub, hevs, List.nil_append, AccumPub.filled_foldl]
        have hle := h₀.steady.sound.recordable.openOn_le hd h₀.steady.counted
          (b.queues.orders (tag x)).s.opposite
        have hcap := h₀.steady.cap
        simp only [UInt64.toNat_zero, Nat.zero_add]
        refine Nat.mod_eq_of_lt (lt_of_le_of_lt ?_ hcap)
        refine le_trans ?_ hle
        exact Nat.le.intro (Nat.add_comm _ _ ▸ hopen)
      dsimp only
      rw [horder, hfilled, h'.restingOn_eq]
      refine hopen.trans ?_
      rw [← h.refines.restingOn_eq]

/-- Any record at all. -/
theorem Serves.truthful (h : Serves e b) (hc : 0 < maxOrders) (ht : ticks ≤ 64 ^ 4)
    (wo : WireOrder) : Truthful e (applyOrder e wo).1 wo (applyOrder e wo).2 := by
  cases hcmd : wo.command ticks e.cfg.maxOrderQty with
  | none => exact .of_invalid hcmd
  | some cmd =>
      rcases (command_eq_some hcmd).2.2 with ⟨hop, rfl, htif⟩ | ⟨hop, rfl⟩ | ⟨_, rfl⟩
      · exact h.submit_truthful hc ht hop htif hcmd
      · exact h.cancel_truthful hc ht hop hcmd
      · exact h.modify_truthful hc ht hcmd

theorem Serves.run (hc : 0 < maxOrders) (ht : ticks ≤ 64 ^ 4) (wos : List WireOrder) :
    ∀ {e : Engine AccumPub ticks maxOrders .byId}, (∃ b, Serves e b) →
      ∃ b, Serves (applyOrders e wos).1 b := by
  induction wos with
  | nil =>
      intro e h
      exact h
  | cons wo wos ih =>
      rintro e ⟨b, h⟩
      exact ih ⟨_, h.step hc ht wo⟩

end Generic

theorem freshEngine_serves (mem : Memory) :
    Serves (freshEngine mem) (.new {} maxOrders : PriorityBook ticks) :=
  .new {} mem (by decide) (by decide)

/-- After any records, the ack of the next one tells what it did to the book. -/
theorem applyOrder_truthful (mem : Memory) (wos : List WireOrder) (wo : WireOrder) :
    let e := (applyOrders (freshEngine mem) wos).1
    Truthful e (applyOrder e wo).1 wo (applyOrder e wo).2 := by
  intro e
  obtain ⟨b, h⟩ : ∃ b, Serves e b :=
    Serves.run (by decide) (by decide) wos ⟨_, freshEngine_serves mem⟩
  exact h.truthful (by decide) (by decide) wo

end Gateway

end Orderbooks
