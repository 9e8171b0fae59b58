import Orderbooks.ReferenceRefinement
import Orderbooks.Closing

/-!
# Fill or kill

The precheck of a fill-or-kill order reads the book without touching it. What it adds up is what
the match would take, so the order either does what an immediate-or-cancel order of the same
terms does, all of it trading, or it does nothing.

The sums of the precheck are 64 bits wide. They do not wrap as long as the capacity times the
largest order does not.
-/
namespace Orderbooks
open Loop Queues Runs PriorityBook

/-! ## What a match takes -/

section Settle
variable {pol : SelfCrossPolicy} {acct : UInt32} {want : UInt64}

def openSum (os : List Order) : ℕ := (os.map fun o => o.remaining.toNat).sum

@[simp] theorem openSum_nil : openSum [] = 0 := rfl

@[simp] theorem openSum_cons (o : Order) (os : List Order) :
    openSum (o :: os) = o.remaining.toNat + openSum os := by
  simp [openSum]

@[simp] theorem openSum_append (os os' : List Order) :
    openSum (os ++ os') = openSum os + openSum os' := by
  simp [openSum]

/-- Where every maker trades, the aggressor gets what there is. -/
theorem taken_settle_all (hall : acct = 0 ∨ pol = .decrementTrade) (os : List Order)
    (rem : UInt64) : taken (settle pol acct os rem).fates = min rem.toNat (openSum os) := by
  induction os generalizing rem with
  | nil => simp [settle]
  | cons o os ih =>
      by_cases hrem : rem = 0
      · rw [hrem, settle_zero, taken_untouched]
        simp
      · have hown : o.OwnOf acct → pol = .decrementTrade := fun h => hall.resolve_left h.1
        rw [settle_trade os hrem hown]
        have htake := toNat_min rem o.remaining
        have hleft := (toNat_sub_min rem o.remaining).1
        simp only [Outcome.cons, taken_cons, Fate.taken_traded, ih, openSum_cons, htake, hleft]
        omega

/-- The verdict of the precheck. -/
def Engine.Precheck.passes (want : UInt64) (c : Engine.Precheck) : Bool :=
  !c.aborted && decide (want ≤ c.total)

theorem consumeFifo_cons (o : Order) (os : List Order) (c : Engine.Precheck) :
    Engine.consumeFifo pol want acct (o :: os) c =
      if o.accountId = acct then
        if pol = .cancelNewest then (true, { c with aborted := true })
        else Engine.consumeFifo pol want acct os c
      else if want ≤ c.total + o.remaining then (true, { c with total := c.total + o.remaining })
      else Engine.consumeFifo pol want acct os { c with total := c.total + o.remaining } := rfl

theorem consumeFifo_append (os os' : List Order) (c : Engine.Precheck) :
    Engine.consumeFifo pol want acct (os ++ os') c =
      if (Engine.consumeFifo pol want acct os c).1 then Engine.consumeFifo pol want acct os c
      else Engine.consumeFifo pol want acct os' (Engine.consumeFifo pol want acct os c).2 := by
  induction os generalizing c with
  | nil => rfl
  | cons o os ih =>
      rw [List.cons_append, consumeFifo_cons, consumeFifo_cons]
      by_cases hacct : o.accountId = acct
      · simp only [hacct, if_true]
        by_cases hpol : pol = .cancelNewest
        · simp only [hpol, if_true]
        · simp only [hpol, if_false, ih]
      · simp only [hacct, if_false]
        by_cases hstop : want ≤ c.total + o.remaining
        · simp only [hstop, if_true]
        · simp only [hstop, if_false, ih]

theorem sub_of_lt {a c : UInt64} (h : a < c) :
    (c - a).toNat = c.toNat - a.toNat ∧ c - a ≠ 0 := by
  have hlt := UInt64.lt_iff_toNat_lt.mp h
  have hsub : (c - a).toNat = c.toNat - a.toNat :=
    UInt64.toNat_sub_of_le _ _ (UInt64.le_of_lt h)
  refine ⟨hsub, fun hz => ?_⟩
  rw [hz, UInt64.toNat_zero] at hsub
  omega

/-- Where own makers do not trade, the walk over the makers stops where the match does. -/
theorem consumeFifo_passes (hown : ¬(acct = 0 ∨ pol = .decrementTrade)) (os : List Order)
    (c : Engine.Precheck) (hab : c.aborted = false) (hlt : c.total < want)
    (hsum : c.total.toNat + openSum os < 2 ^ 64) :
    (Engine.consumeFifo pol want acct os c).2.passes want = true ↔
      taken (settle pol acct os (want - c.total)).fates = (want - c.total).toNat := by
  induction os generalizing c with
  | nil =>
      have hlt' := UInt64.lt_iff_toNat_lt.mp hlt
      refine iff_of_false ?_ ?_
      · simp [Engine.consumeFifo, Engine.Precheck.passes, hab, UInt64.not_le.mpr hlt]
      · rw [settle, (sub_of_lt hlt).1, taken_nil]
        omega
  | cons o os ih =>
      obtain ⟨hopen, hrem⟩ := sub_of_lt hlt
      have hlt' := UInt64.lt_iff_toNat_lt.mp hlt
      rw [openSum_cons] at hsum
      rw [consumeFifo_cons]
      by_cases hacct : o.accountId = acct
      · rw [if_pos hacct]
        have hmine : o.OwnOf acct := ⟨fun h => hown (.inl h), hacct⟩
        by_cases hpol : pol = .cancelNewest
        · rw [if_pos hpol, hpol, settle_abort os hrem hmine, taken_untouched, hopen]
          refine iff_of_false (by simp [Engine.Precheck.passes]) ?_
          omega
        · have hold : pol = .cancelOldest := by
            cases pol <;> simp_all
          rw [if_neg hpol, hold, settle_expire os hrem hmine, ← hold]
          simp only [Outcome.cons, taken_cons, Fate.taken, UInt64.toNat_zero, Nat.zero_add]
          exact ih c hab hlt (by omega)
      · rw [if_neg hacct]
        have hnot : o.OwnOf acct → pol = .decrementTrade := fun h => absurd h.2 hacct
        have htotal : (c.total + o.remaining).toNat = c.total.toNat + o.remaining.toNat := by
          rw [UInt64.toNat_add, Nat.mod_eq_of_lt (by omega)]
        have htake := toNat_min (want - c.total) o.remaining
        rw [settle_trade os hrem hnot]
        simp only [Outcome.cons, taken_cons, Fate.taken_traded, htake, hopen]
        by_cases hstop : want ≤ c.total + o.remaining
        · have hle := UInt64.le_iff_toNat_le.mp hstop
          have hused : want - c.total - min (want - c.total) o.remaining = 0 := by
            rw [← UInt64.toNat_inj, (toNat_sub_min _ _).1, hopen, UInt64.toNat_zero]
            omega
          rw [if_pos hstop, hused, settle_zero, taken_untouched]
          refine iff_of_true (by simpa [Engine.Precheck.passes, hab] using hstop) ?_
          omega
        · have hmore : c.total + o.remaining < want := UInt64.not_le.mp hstop
          have hless := UInt64.lt_iff_toNat_lt.mp hmore
          have hleft : want - c.total - min (want - c.total) o.remaining =
              want - (c.total + o.remaining) := by
            rw [← UInt64.toNat_inj, (toNat_sub_min _ _).1, hopen, (sub_of_lt hmore).1, htotal]
            omega
          rw [if_neg hstop, hleft]
          refine (ih { c with total := c.total + o.remaining } hab hmore ?_).trans ?_
          · dsimp only
            omega
          · dsimp only
            rw [(sub_of_lt hmore).1]
            omega

end Settle

/-! ## The walk over the levels -/

section Levels
variable {ticks : ℕ} {m : SubmitMsg} {p : ℕ} {ps : List ℕ}

/-- A price behind one that does not cross does not cross. -/
theorem crosses_of_worse {s : Side} {px q : ℕ} (hbetter : s.opposite.better p q = true)
    (hcross : s.crosses px p = false) : s.crosses px q = false := by
  cases s <;> simp only [Side.opposite, Side.better, Side.crosses, decide_eq_true_eq,
    decide_eq_false_iff_not] at * <;> omega

/-- The makers at those of the prices that cross. -/
def Queues.makersAt (d : Queues ticks) (m : SubmitMsg) (ps : List ℕ) : List Order :=
  (ps.filter (m.s.crosses m.px)).flatMap (d.ordersAt m.s.opposite)

variable {d : Queues ticks} {b : PriorityBook ticks}

theorem makersAt_cons_of_crosses (d : Queues ticks) (ps : List ℕ)
    (h : m.s.crosses m.px p = true) :
    d.makersAt m (p :: ps) = d.ordersAt m.s.opposite p ++ d.makersAt m ps := by
  rw [makersAt, List.filter_cons_of_pos h, List.flatMap_cons, ← makersAt]

theorem makersAt_cons_of_empty (ps : List ℕ) (h : d.levels m.s.opposite p = []) :
    d.makersAt m (p :: ps) = d.makersAt m ps := by
  by_cases hcross : m.s.crosses m.px p = true
  · rw [makersAt_cons_of_crosses d ps hcross, ordersAt, h, List.map_nil, List.nil_append]
  · rw [makersAt, List.filter_cons_of_neg hcross, ← makersAt]

theorem makersAt_eq_nil
    (hsorted : (p :: ps).Pairwise fun p q => m.s.opposite.better p q = true)
    (h : m.s.crosses m.px p = false) : d.makersAt m (p :: ps) = [] := by
  have hnone : (p :: ps).filter (m.s.crosses m.px) = [] := by
    refine List.filter_eq_nil_iff.mpr fun q hq => ?_
    rcases List.mem_cons.mp hq with rfl | hq
    · simp [h]
    · simp [crosses_of_worse ((List.pairwise_cons.mp hsorted).1 q hq) h]
  rw [makersAt, hnone, List.flatMap_nil]

theorem reach_eq_openSum (hsorted : ps.Pairwise fun p q => m.s.opposite.better p q = true) :
    d.reach m.s.opposite m.px ps = openSum (d.makersAt m ps) := by
  induction ps with
  | nil => rfl
  | cons p ps ih =>
      have hnext := ih (List.pairwise_cons.mp hsorted).2
      unfold reach
      rw [Side.opposite_opposite]
      by_cases hnil : d.levels m.s.opposite p = []
      · rw [if_pos hnil, hnext, makersAt_cons_of_empty ps hnil]
      · rw [if_neg hnil]
        by_cases hcross : m.s.crosses m.px p = true
        · rw [makersAt_cons_of_crosses d ps hcross, openSum_append, ← hnext]
          simp only [hcross, Bool.not_true, Bool.false_eq_true, if_false]
          rfl
        · rw [Bool.not_eq_true] at hcross
          rw [makersAt_eq_nil hsorted hcross]
          simp [hcross]

/-- Where own makers do not trade, the walk goes over the makers one after another. -/
theorem precheckFrom_own {want : UInt64} {acct : UInt32}
    (hown : ¬(acct = 0 ∨ b.selfCross = .decrementTrade))
    (hsorted : ps.Pairwise fun p q => m.s.opposite.better p q = true) (c : Engine.Precheck) :
    b.precheckFrom m.s.opposite m.px want acct ps c =
      (Engine.consumeFifo b.selfCross want acct (b.queues.makersAt m ps) c).2 := by
  induction ps generalizing c with
  | nil => rfl
  | cons p ps ih =>
      have hnext := ih (List.pairwise_cons.mp hsorted).2
      by_cases hnil : b.queues.levels m.s.opposite p = []
      · rw [makersAt_cons_of_empty ps hnil, ← hnext, precheckFrom, if_pos hnil]
      · rw [precheckFrom_cons hnil, Side.opposite_opposite]
        by_cases hcross : m.s.crosses m.px p = true
        · rw [makersAt_cons_of_crosses _ ps hcross, consumeFifo_append]
          simp only [hcross, Bool.not_true, Bool.false_eq_true, if_false, hnext]
          unfold consumeLevel
          rw [if_neg hown]
          split_ifs <;> rfl
        · rw [Bool.not_eq_true] at hcross
          rw [makersAt_eq_nil hsorted hcross]
          simp [hcross, Engine.consumeFifo]

/-- The precheck says whether the match would take the whole quantity. -/
theorem PriorityBook.Steady.canFullyFill_iff {maxQty : UInt64} (hb : b.Steady maxQty)
    (m : SubmitMsg) (hqty : m.qty ≠ 0) :
    b.canFullyFill m.s.opposite m.px m.qty m.accountId = true ↔
      taken (settle b.selfCross m.accountId (b.queues.crossing m) m.qty).fates =
        m.qty.toNat := by
  have hsorted := m.s.opposite.pairwise_priority ticks
  have hlt := hb.sound.reach_lt hb.wf hb.counted hb.cap m.s.opposite m.px
  change (b.precheckFrom m.s.opposite m.px m.qty m.accountId
    (m.s.opposite.priority ticks) {}).passes m.qty = true ↔ _
  by_cases hall : m.accountId = 0 ∨ b.selfCross = .decrementTrade
  · obtain ⟨hab, hle⟩ := PriorityBook.precheckFrom_reach hall
      (fun p => hb.sound.recordable.aggregateAt_toNat hb.wf hb.counted hb.cap m.s.opposite p)
      m.px m.qty
      (m.s.opposite.priority ticks) {} (by simpa using hlt)
    rw [reach_eq_openSum hsorted] at hle
    rw [taken_settle_all hall]
    simp only [Engine.Precheck.passes, hab, hle, Bool.not_false, Bool.true_and,
      decide_eq_true_eq]
    change m.qty.toNat ≤ 0 + openSum (b.queues.crossing m) ↔ _
    omega
  · rw [precheckFrom_own hall hsorted]
    have hpos : (0 : UInt64) < m.qty := by
      rw [UInt64.lt_iff_toNat_lt, UInt64.toNat_zero]
      refine Nat.pos_of_ne_zero fun h => hqty ?_
      rw [← UInt64.toNat_inj, h, UInt64.toNat_zero]
    rw [reach_eq_openSum hsorted] at hlt
    have := consumeFifo_passes hall (b.queues.makersAt m (m.s.opposite.priority ticks)) {} rfl hpos
      (by simpa using hlt)
    rwa [show m.qty - ({} : Engine.Precheck).total = m.qty from UInt64.sub_zero _] at this

end Levels

namespace Engine

variable {P : Type} [Publisher P] {ticks maxOrders : ℕ} {lookup : OrderLookup}

/-- The machine behind a run in the documented domains. -/
theorem play_steady (pub : P) (cfg : EngineConfig) (mem : Memory) (hc : 0 < maxOrders)
    (ht : ticks ≤ 64 ^ 4) (hcap : maxOrders * cfg.maxOrderQty.toNat < 2 ^ 64)
    {cmds : List Command} (hdom : ∀ cmd ∈ cmds, cmd.InDomain ticks cfg.maxOrderQty) :
    ∃ b, (play pub cfg mem cmds : Engine P ticks maxOrders lookup).Refines pub b ∧
      b.Steady cfg.maxOrderQty := by
  have hnew : (PriorityBook.new cfg maxOrders : PriorityBook ticks).Steady cfg.maxOrderQty :=
    ⟨.empty, .new cfg maxOrders, .empty, .empty, hcap⟩
  have step : ∀ (e : Engine P ticks maxOrders lookup) (cmd : Command),
      (∃ b, e.Refines pub b ∧ b.Steady cfg.maxOrderQty) → cmd.InDomain ticks cfg.maxOrderQty →
      ∃ b, (e.apply cmd).Refines pub b ∧ b.Steady cfg.maxOrderQty := by
    rintro e cmd ⟨b, h, hb⟩ hcmd
    obtain ⟨target, hreach, h'⟩ := h.apply hc ht hcmd.inRange
    exact ⟨_, h', h.steady_applyAt hb hcmd hreach h'⟩
  exact (along_of_forall hdom).invariant _ step ⟨_, new_refines pub cfg mem hc, hnew⟩

theorem matchAgainstOpposite_t (e : Engine P ticks maxOrders lookup) (m : SubmitMsg) (t t' : Tif) :
    matchAgainstOpposite { m with t := t } e = matchAgainstOpposite { m with t := t' } e := rfl

/-- Without its precheck a fill-or-kill order is an immediate-or-cancel order. -/
theorem onSubmit_fok (e : Engine P ticks maxOrders lookup) (m : SubmitMsg) :
    e.onSubmit { m with t := .fok } =
      if e.canFullyFill m.s.opposite m.px m.qty m.accountId then e.onSubmit { m with t := .ioc }
      else ({}, e.publishTopIfChanged) := by
  unfold onSubmit handleSubmit
  rw [matchAgainstOpposite_t e m .fok .ioc]
  by_cases hfill : e.canFullyFill m.s.opposite m.px m.qty m.accountId = true
  · simp [hfill]
  · simp [hfill]

theorem Refines.publishTop_clean {p0 : P} {e : Engine P ticks maxOrders lookup}
    {b : PriorityBook ticks} (h : e.Refines p0 b) (hq : b.Quiet) : e.publishTopIfChanged = e := by
  obtain ⟨-, tag, hrep⟩ := h
  have hclean : e.state.topDirty = false := by
    rw [hrep.state]
    exact hq.clean
  unfold publishTopIfChanged HotState.publishTopIfChanged
  simp [hclean]

/-- An immediate-or-cancel order announces what the match takes. -/
theorem Refines.onSubmit_ioc {e : Engine (List Event) ticks maxOrders lookup}
    {b : PriorityBook ticks} (h : e.Refines [] b) (hc : 0 < maxOrders) (ht : ticks ≤ 64 ^ 4)
    {m : SubmitMsg} (hioc : m.t = .ioc) :
    ∃ evs, (e.onSubmit m).2.pub = e.pub ++ evs ∧
      tally (Event.filled m.id) evs + tally (Event.selfTraded m.id) evs =
        taken (settle b.selfCross m.accountId (b.queues.crossing m) m.qty).fates := by
  obtain ⟨hd, tag, hrep⟩ := h
  have h' : (e.onSubmit m).2.Refines [] (b.onSubmit m) := by
    obtain ⟨hrep', hwf, -, -, -⟩ := hrep.matchAgainstOpposite hd hc ht (m := m)
      (J := fun _ _ => True) (fun _ _ _ _ _ _ _ _ _ _ _ => trivial) trivial
    unfold onSubmit handleSubmit PriorityBook.onSubmit PriorityBook.handleSubmit
    simp only [hioc, reduceCtorEq, false_and, if_false, ite_self]
    exact hrep'.publishTop hwf
  obtain ⟨k, r, tail, hclose⟩ := PriorityBook.onSubmit_closes m hd
  have hkill : ¬b.Killed m := by
    rintro ⟨hfok, -⟩
    rw [hioc] at hfok
    exact Tif.noConfusion hfok
  have hk := hclose.outcome.resolve_right fun h => hkill h.1
  refine ⟨notices m b.state.seq k.fates ++ tail, ?_, ?_⟩
  · rw [h'.pub_eq, Refines.pub_eq ⟨hd, tag, hrep⟩, hclose.log]
    simp
  · have htail : ∀ ev ∈ tail, ev.filled m.id = 0 ∧ ev.selfTraded m.id = 0 := fun ev hev =>
      have := Event.filled_of_parties (hclose.announced.parties hev).1 m.id
      ⟨this.1, this.2.1⟩
    rw [tally_append, tally_append, tally_eq_zero fun ev hev => (htail ev hev).1,
      tally_eq_zero fun ev hev => (htail ev hev).2, ← hk.2]
    exact tally_notices m b.state.seq k.fates

theorem onSubmit_ioc_zero (e : Engine P ticks maxOrders lookup) {m : SubmitMsg}
    (hioc : m.t = .ioc) (hqty : m.qty = 0) : e.onSubmit m = ({}, e.publishTopIfChanged) := by
  have hmatch : matchAgainstOpposite m e = ⟨e, 0, false⟩ := by
    have hturn : levelTurn m ⟨e, 0, false⟩ = .done ⟨e, 0, false⟩ := if_pos rfl
    unfold matchAgainstOpposite
    rw [hqty]
    exact run_done hturn _
  unfold onSubmit handleSubmit
  simp [hioc, hmatch]

/-- A fill-or-kill order that an immediate-or-cancel order would fill does what that order does,
and otherwise nothing. -/
theorem play_fok (cfg : EngineConfig) (mem : Memory) (hc : 0 < maxOrders) (ht : ticks ≤ 64 ^ 4)
    (hcap : maxOrders * cfg.maxOrderQty.toNat < 2 ^ 64) (cmds : List Command)
    (hdom : ∀ cmd ∈ cmds, cmd.InDomain ticks cfg.maxOrderQty) (m : SubmitMsg) :
    let e : Engine (List Event) ticks maxOrders lookup := play [] cfg mem cmds
    ∃ evs, (e.onSubmit { m with t := .ioc }).2.pub = e.pub ++ evs ∧
      if tally (Event.filled m.id) evs + tally (Event.selfTraded m.id) evs = m.qty.toNat then
        e.onSubmit { m with t := .fok } = e.onSubmit { m with t := .ioc }
      else e.onSubmit { m with t := .fok } = ({}, e) := by
  intro e
  obtain ⟨b, h, hb⟩ : ∃ b, e.Refines [] b ∧ b.Steady cfg.maxOrderQty :=
    play_steady [] cfg mem hc ht hcap hdom
  obtain ⟨evs, hpub, htally⟩ := h.onSubmit_ioc hc ht (m := { m with t := .ioc }) rfl
  refine ⟨evs, hpub, ?_⟩
  dsimp only at htally
  have hfill : e.canFullyFill m.s.opposite m.px m.qty m.accountId =
      b.canFullyFill m.s.opposite m.px m.qty m.accountId := by
    obtain ⟨hd, tag, hrep⟩ := h
    exact hrep.canFullyFill_eq hd ht _ _ _ _
  rw [htally, onSubmit_fok, hfill, h.publishTop_clean hb.quiet]
  by_cases hqty : m.qty = 0
  · have hioc := onSubmit_ioc_zero e (m := { m with t := .ioc }) rfl hqty
    rw [hioc, h.publishTop_clean hb.quiet, ite_self, ite_self]
  · have hiff := hb.canFullyFill_iff m hqty
    split_ifs with hall hpass hpass
    · rfl
    · exact absurd (hiff.mpr hall) hpass
    · exact absurd (hiff.mp hpass) hall
    · rfl

/-- Two makers hold seven: a fill-or-kill order for seven trades, one for eight does not. -/
theorem play_fok_two_makers :
    let cmds : List Command := [.submit ⟨1, 0, 3, .ask, .gtc, 5⟩, .submit ⟨2, 1, 4, .ask, .gtc, 5⟩]
    let e : Engine (List Event) 2 4 .byId := play [] { selfCross := .decrementTrade } .zeroed cmds
    (e.onSubmit ⟨3, 1, 7, .bid, .fok, 5⟩).2.pub.length = e.pub.length + 3 ∧
    (∃ evs, (e.onSubmit ⟨3, 1, 7, .bid, .ioc, 5⟩).2.pub = e.pub ++ evs ∧
      if tally (Event.filled 3) evs + tally (Event.selfTraded 3) evs = 7 then
        e.onSubmit ⟨3, 1, 7, .bid, .fok, 5⟩ = e.onSubmit ⟨3, 1, 7, .bid, .ioc, 5⟩
      else e.onSubmit ⟨3, 1, 7, .bid, .fok, 5⟩ = ({}, e)) ∧
    ∃ evs, (e.onSubmit ⟨3, 1, 8, .bid, .ioc, 5⟩).2.pub = e.pub ++ evs ∧
      if tally (Event.filled 3) evs + tally (Event.selfTraded 3) evs = 8 then
        e.onSubmit ⟨3, 1, 8, .bid, .fok, 5⟩ = e.onSubmit ⟨3, 1, 8, .bid, .ioc, 5⟩
      else e.onSubmit ⟨3, 1, 8, .bid, .fok, 5⟩ = ({}, e) := by
  intro cmds e
  refine ⟨by decide +kernel, ?_, ?_⟩
  · exact play_fok _ .zeroed (by decide) (by decide) (by decide) cmds (by decide)
      ⟨3, 1, 7, .bid, .ioc, 5⟩
  · exact play_fok _ .zeroed (by decide) (by decide) (by decide) cmds (by decide)
      ⟨3, 1, 8, .bid, .ioc, 5⟩

end Engine

end Orderbooks
