import Orderbooks.Market
import Orderbooks.Listing
import Orderbooks.Accounting
import Orderbooks.Sequencing

/-!
# The engine runs the market

A machine in the state of an engine between two commands, with the ids of its resting orders
distinct, does to its resting orders what the market does and publishes what the market says,
each event under the next stamp. The fast path of a modify, which moves the order without
matching it, is the market's cancel and submit.
-/
namespace Orderbooks
open Runs

/-! ## News -/

theorem unstamped_notices (m : SubmitMsg) (seq : UInt64) (fates : List (Order × Fate)) :
    (notices m seq fates).map Event.unstamped = deals m fates := by
  unfold deals
  generalize (0 : UInt64) = seq'
  induction fates generalizing seq seq' with
  | nil => rfl
  | cons a fates ih =>
      obtain ⟨o, f⟩ := a
      cases f with
      | kept => exact ih seq seq'
      | expired => exact ih seq seq'
      | filled qty =>
          simp only [notices, List.map_cons, Event.unstamped, Event.stamp]
          rw [ih (seq + 1) (seq' + 1)]
      | selfTraded qty =>
          simp only [notices, List.map_cons, Event.unstamped, Event.stamp]
          rw [ih (seq + 1) (seq' + 1)]

theorem isTop_notices (m : SubmitMsg) (seq : UInt64) (fates : List (Order × Fate)) :
    ∀ ev ∈ notices m seq fates, ev.isTop = false := by
  induction fates generalizing seq with
  | nil => exact nofun
  | cons a fates ih =>
      obtain ⟨o, f⟩ := a
      cases f with
      | kept => exact ih seq
      | expired => exact ih seq
      | filled qty =>
          simp only [notices, List.forall_mem_cons]
          exact ⟨rfl, rfl, ih (seq + 1)⟩
      | selfTraded qty =>
          simp only [notices, List.forall_mem_cons]
          exact ⟨rfl, ih (seq + 1)⟩

@[simp] theorem Event.isTop_unstamped (ev : Event) : ev.unstamped.isTop = ev.isTop := by
  cases ev <;> rfl

/-- What a log says besides tops. -/
def told (log : List Event) : List Event := (log.filter (!·.isTop)).map Event.unstamped

@[simp] theorem told_append (log evs : List Event) : told (log ++ evs) = told log ++ told evs := by
  simp [told]

theorem told_of_tops {evs : List Event} (h : ∀ ev ∈ evs, ∃ top, ev = .top top) : told evs = [] := by
  rw [told, List.map_eq_nil_iff, List.filter_eq_nil_iff]
  intro ev hev
  obtain ⟨top, rfl⟩ := h ev hev
  simp [Event.isTop]

theorem told_of_not_top {evs : List Event} (h : ∀ ev ∈ evs, ev.isTop = false) :
    told evs = evs.map Event.unstamped := by
  rw [told, List.filter_eq_self.mpr fun ev hev => by simp [h ev hev]]

theorem told_notices (m : SubmitMsg) (seq : UInt64) (fates : List (Order × Fate)) :
    told (notices m seq fates) = deals m fates := by
  rw [told_of_not_top (isTop_notices m seq fates), unstamped_notices]

namespace PriorityBook

variable {ticks : ℕ} {b b' b₁ : PriorityBook ticks} {m : SubmitMsg} {u newPx : ℕ}
  {newQty maxQty : UInt64} {r : Market × List Event}

/-- The rules a machine plays by. -/
def rules (b : PriorityBook ticks) : Rules := ⟨ticks, b.capacity, b.selfCross, b.topThrottle⟩

/-- From `b` to `b'` the market changes as `r` says, and so are the news told. -/
structure Plays (b b' : PriorityBook ticks) (r : Market × List Event) : Prop where
  market : b'.queues.ordersAt = r.1
  news : told b'.log = told b.log ++ r.2

theorem Plays.publishTop (h : Plays b b' r) : Plays b b'.publishTopIfChanged r := by
  obtain ⟨tops, hlog, htops⟩ := publishTopIfChanged_log (b := b')
  refine ⟨?_, ?_⟩
  · rw [publishTopIfChanged_queues]
    exact h.market
  · rw [hlog, told_append, told_of_tops htops, List.append_nil]
    exact h.news

theorem Plays.markTop (h : Plays b b' r) (s : Side) (p : ℕ) : Plays b (b'.markTop s p) r :=
  ⟨h.market, h.news⟩

/-! ## Submits -/

theorem size_eq_count (d : Queues ticks) (R : Rules) (hR : R.ticks = ticks) :
    Market.size R d.ordersAt = d.count := by
  simp only [Market.size, Queues.count, Queues.ordersAt, List.length_map, hR]

/-- A market in which the makers in reach are what `fates` leaves of them. -/
theorem ordersAt_eq_matched {d d' : Queues ticks} {fates : List (Order × Fate)}
    (hd' : d'.WellFormed) (hmakers : d'.crossing m = survivors fates)
    (hothers : ∀ t p, ¬(t = m.s.opposite ∧ m.s.crosses m.px p = true) →
      d'.ordersAt t p = d.ordersAt t p) :
    d'.ordersAt = Market.matched d.ordersAt m fates := by
  funext s p
  unfold Market.matched
  split_ifs with h
  · rw [← hmakers, Queues.crossing_filter hd' h.2, h.1]
  · exact hothers s p h

/-- What is left of an aggressor. -/
theorem rest_plays (hd : b.queues.WellFormed) (hcount : b.queues.Counted b.capacity)
    {left : UInt64} (hopen : ¬(left = 0 ∨ m.t ≠ .gtc)) :
    Plays b (b.rest m left)
      (Market.join b.queues.ordersAt m (Market.remainder b.rules b.queues.ordersAt m left),
        (Market.remainder b.rules b.queues.ordersAt m left).news m) := by
  have hsize : Market.size b.rules b.queues.ordersAt = b.queues.live := by
    rw [size_eq_count b.queues b.rules rfl, hcount.live]
  unfold Market.remainder
  rw [if_neg hopen, hsize]
  change Plays b _ (Market.join _ m (if b.capacity ≤ b.queues.live then _ else _),
    (if b.capacity ≤ b.queues.live then _ else _ : Remainder).news m)
  by_cases hfull : b.capacity ≤ b.queues.live
  · rw [if_pos hfull, Market.join_rejected]
    unfold rest
    rw [if_pos hfull]
    exact ⟨rfl, told_append _ _⟩
  · rw [if_neg hfull]
    refine ⟨?_, ?_⟩
    · rw [rest_queues hfull]
      funext s p
      exact ordersAt_rest hd m left s p
    · unfold rest
      rw [if_neg hfull]
      exact (List.append_nil _).symm

theorem handleSubmit_of_not_killed (hk : ¬b.Killed m) :
    b.handleSubmit m = if (sweep m b m.qty).remaining = 0 ∨ m.t ≠ .gtc then (sweep m b m.qty).book
      else (sweep m b m.qty).book.rest m (sweep m b m.qty).remaining := by
  unfold handleSubmit
  rw [if_neg (show ¬(m.t = .fok ∧ _) from hk)]
  cases m.t <;> simp

/-- What a machine makes of a submit, when its precheck of a fill-or-kill order is right. -/
theorem handleSubmit_plays (hd : b.queues.WellFormed) (hcount : b.queues.Counted b.capacity)
    (hkill : b.Killed m ↔ m.t = .fok ∧
      taken (settle b.selfCross m.accountId (b.queues.crossing m) m.qty).fates ≠ m.qty.toNat) :
    Plays b (b.handleSubmit m) (Market.submit b.rules b.queues.ordersAt m) := by
  unfold Market.submit
  by_cases hk : b.Killed m
  · have hout : Market.outcome b.rules b.queues.ordersAt m =
        ⟨untouched (b.queues.crossing m), m.qty, false⟩ := if_pos (hkill.mp hk)
    have hsame : b.handleSubmit m = b := if_pos hk
    have hmatched : Market.matched b.queues.ordersAt m (untouched (b.queues.crossing m)) =
        b.queues.ordersAt :=
      (ordersAt_eq_matched hd (survivors_untouched _).symm fun _ _ _ => rfl).symm
    have hgone : Market.remainder b.rules b.queues.ordersAt m m.qty = .gone :=
      if_pos (.inr (by rw [hk.1]; exact nofun))
    simp only [hsame, hout, hmatched, hgone, Market.join_gone, Remainder.news, deals,
      notices_untouched, List.map_nil, List.append_nil]
    exact ⟨rfl, (List.append_nil _).symm⟩
  · have hout : Market.outcome b.rules b.queues.ordersAt m =
        settle b.selfCross m.accountId (b.queues.crossing m) m.qty := if_neg (hkill.not.mp hk)
    obtain ⟨hleft, _, hmakers, hlog, hothers⟩ := sweep_settledBy (m := m) hd m.qty
    obtain ⟨hworn, _, hcap, hwf, _⟩ := sweep_effect m m.qty hd
    have hrules : b.rules = (sweep m b m.qty).book.rules := by
      obtain ⟨hpol, hthrottle, hcap⟩ := (sweep_moved m m.qty hd).config
      simp only [rules, hpol, hthrottle, hcap]
    have hnews : told (sweep m b m.qty).book.log = told b.log ++
        deals m (settle b.selfCross m.accountId (b.queues.crossing m) m.qty).fates := by
      rw [hlog, told_append, told_notices]
    rw [handleSubmit_of_not_killed hk]
    simp only [hout, ← ordersAt_eq_matched hwf hmakers hothers, ← hleft]
    rw [hrules]
    split_ifs with hgone
    · have hrem : Market.remainder (sweep m b m.qty).book.rules
          (sweep m b m.qty).book.queues.ordersAt m (sweep m b m.qty).remaining = .gone :=
        if_pos hgone
      rw [hrem, Market.join_gone]
      exact ⟨rfl, hnews.trans (congrArg _ (List.append_nil _).symm)⟩
    · have hrest := rest_plays hwf (hcap ▸ hcount.worn hworn hd) hgone
      exact ⟨hrest.market, by rw [hrest.news, hnews, List.append_assoc]⟩

/-! ## Orders by their ids -/

section Named
variable {d d' : Queues ticks} (hd : d.WellFormed) (hx : d.Exact)
include hd

theorem listing_eq (R : Rules) (hR : R.ticks = ticks) :
    Market.listing R d.ordersAt = d.listing.map d.orders := by
  subst hR
  simp only [Market.listing, Queues.listing, List.map_flatMap]
  rfl

theorem find_of_absent {R : Rules} (hR : R.ticks = ticks) {id : UInt64} (h : d.Absent id) :
    Market.find R d.ordersAt id = none := by
  rw [Market.find, listing_eq hd R hR, List.find?_eq_none]
  intro o ho
  obtain ⟨v, hv, rfl⟩ := List.mem_map.mp ho
  simpa using h v ((Queues.mem_listing hd).mp hv)

/-- What becomes of an order that is dropped does not matter to those that stay. -/
theorem map_erase_update (o : Order) (s : Side) (p : ℕ) :
    ((d.levels s p).erase u).map (Function.update d.orders u o) = (d.drop u).ordersAt s p := by
  have hlev : (d.drop u).levels s p = (d.levels s p).erase u := hd.unlink_levels_eq_erase
  rw [Queues.ordersAt, hlev]
  refine List.map_congr_left fun v hv => ?_
  exact Function.update_of_ne ((hd.nodup s p).mem_erase_iff.mp hv).1 _ _

/-- An order moved is an order dropped that joins another queue. -/
theorem ordersAt_move : (d.move u newPx newQty).ordersAt =
    ((d.drop u).rest (d.asSubmit u newPx newQty) newQty).ordersAt := by
  funext s p
  rw [ordersAt_rest (hd.drop u), Queues.ordersAt, hd.move_levels, Queues.move_orders]
  change List.map _ (if s = (d.orders u).s ∧ p = newPx then _ else _) =
    _ ++ if s = (d.orders u).s ∧ p = newPx then _ else _
  split_ifs
  · rw [List.map_append, map_erase_update hd, List.map_singleton, Function.update_self]
    rfl
  · rw [map_erase_update hd, List.append_nil]

variable (hu : d.Linked u)
include hx hu

omit hd in
/-- Among the resting orders an id picks out one. -/
theorem id_eq_iff {v : ℕ} (hv : d.Linked v) : (d.orders v).id = (d.orders u).id ↔ v = u :=
  ⟨fun h => hx.injective hv hu h, fun h => h ▸ rfl⟩

theorem find_of_linked {R : Rules} (hR : R.ticks = ticks) :
    Market.find R d.ordersAt (d.orders u).id = some (d.orders u) := by
  rw [Market.find, listing_eq hd R hR, List.find?_map]
  cases hf : d.listing.find? ((fun o : Order => decide (o.id = (d.orders u).id)) ∘ d.orders) with
  | none =>
      have := List.find?_eq_none.mp hf u ((Queues.mem_listing hd).mpr hu)
      simp at this
  | some v =>
      have hv := (Queues.mem_listing hd).mp (List.mem_of_find?_eq_some hf)
      have hid := List.find?_some hf
      rw [(id_eq_iff hx hu hv).mp (by simpa using hid)]
      rfl

theorem ordersAt_drop_eq : (d.drop u).ordersAt = Market.cancel d.ordersAt (d.orders u).id := by
  funext s p
  have hlev : (d.drop u).levels s p = (d.levels s p).filter (· ≠ u) := by
    change (d.unlink u).levels s p = _
    rw [hd.unlink_levels_eq_erase, (hd.nodup s p).erase_eq_filter]
    exact List.filter_congr fun v _ => Bool.eq_iff_iff.mpr (by simp)
  rw [Queues.ordersAt, hlev, Market.cancel, Queues.ordersAt, List.filter_map]
  change List.map d.orders _ = _
  refine congrArg _ (List.filter_congr fun v hv => ?_)
  simp [id_eq_iff hx hu (hd.linked hv)]

/-- An order changed where it stands. -/
theorem ordersAt_eq_amend {f : Order → Order} (hlev : d'.levels = d.levels)
    (hord : d'.orders = Function.update d.orders u (f (d.orders u))) :
    d'.ordersAt = Market.amend d.ordersAt (d.orders u).id f := by
  funext s p
  rw [Queues.ordersAt, Market.amend, Queues.ordersAt, List.map_map, hlev]
  refine List.map_congr_left fun v hv => ?_
  rw [hord, Function.comp_apply]
  by_cases hvu : v = u
  · rw [hvu, Function.update_self, if_pos rfl]
  · rw [Function.update_of_ne hvu, if_neg fun h => hvu ((id_eq_iff hx hu (hd.linked hv)).mp h)]

end Named

/-! ## Cancels and modifies -/

theorem cancelAt_plays (hd : b.queues.WellFormed) (hx : b.queues.Exact) (hu : b.queues.Linked u) :
    Plays b (b.cancelAt u) (Market.cancel b.queues.ordersAt (b.order u).id, []) := by
  have hdrop : Plays b (b.drop u) (Market.cancel b.queues.ordersAt (b.order u).id, []) :=
    ⟨ordersAt_drop_eq hd hx hu, (List.append_nil _).symm⟩
  exact (hdrop.markTop _ _).publishTop

/-- Whichever path it takes, a change of price is a cancel and a submit. -/
theorem reprice_plays (hb : b.Steady maxQty) (hx : b.queues.Exact) (hu : b.queues.Linked u)
    (hqty : newQty ≠ 0) (hpx : newPx < ticks) (hne : newPx ≠ (b.order u).px) :
    Plays b (b.reprice u newPx newQty)
      (Market.submit b.rules (Market.cancel b.queues.ordersAt (b.order u).id)
        (b.queues.asSubmit u newPx newQty)) := by
  have hgtc : (b.queues.asSubmit u newPx newQty).t = .gtc := (hb.sound u hu).gtc
  have hsubmit : Plays (b.withdrawn u)
      ((b.withdrawn u).handleSubmit (b.queues.asSubmit u newPx newQty))
      (Market.submit b.rules (Market.cancel b.queues.ordersAt (b.order u).id)
        (b.queues.asSubmit u newPx newQty)) := by
    rw [← ordersAt_drop_eq hb.wf hx hu]
    refine handleSubmit_plays (hb.wf.drop u) (hb.counted.drop hb.wf hu) ?_
    simp [Killed, hgtc]
  have hwhole : Plays b ((b.withdrawn u).handleSubmit (b.queues.asSubmit u newPx newQty)).unsuppress
      (Market.submit b.rules (Market.cancel b.queues.ordersAt (b.order u).id)
        (b.queues.asSubmit u newPx newQty)) := ⟨hsubmit.market, hsubmit.news⟩
  have hrelink (hclear : b.queues.Clear (b.order u).s newPx) :
      Plays b (b.relink u newPx newQty)
        (Market.submit b.rules (Market.cancel b.queues.ordersAt (b.order u).id)
          (b.queues.asSubmit u newPx newQty)) := by
    rw [handleSubmit_withdrawn hb hu hqty hclear] at hwhole
    exact Plays.publishTop ⟨(ordersAt_move hb.wf).trans hwhole.market, hwhole.news⟩
  unfold reprice
  dsimp only
  rw [if_neg hne]
  cases hbest : b.queues.best (b.order u).s.opposite with
  | none => exact hrelink (Queues.clear_of_best hb.wf (.inl hbest))
  | some q =>
      dsimp only
      split_ifs with hcross
      · exact hrelink (Queues.clear_of_best hb.wf (.inr ⟨q, hbest, by simpa using hcross⟩))
      · rw [resubmit_eq hb.wf hpx]
        exact hwhole.publishTop

theorem chained_orders {d : Queues ticks} {mm : ModifyMsg} (hid : (d.orders u).id = mm.id) :
    (d.chained u mm).orders =
      Function.update d.orders u { d.orders u with id := mm.effectiveId } := by
  rw [mm.effectiveId_eq]
  unfold Queues.chained
  split_ifs
  · rfl
  · rw [← hid]
    exact (Function.update_eq_self u d.orders).symm

theorem chained_levels (d : Queues ticks) (u : ℕ) (mm : ModifyMsg) :
    (d.chained u mm).levels = d.levels := by
  unfold Queues.chained
  split_ifs <;> rfl

theorem modifyAt_plays (hb : b.Steady maxQty) (hx : b.queues.Exact) (hu : b.queues.Linked u)
    {mm : ModifyMsg} (hid : (b.order u).id = mm.id) (hfresh : b.queues.Fresh (.modify mm))
    (hdom : (Command.modify mm).InDomain ticks maxQty) :
    Plays b (b.modifyAt u mm) (Market.modify b.rules b.queues.ordersAt mm) := by
  obtain ⟨hpx, hqty, -, -, hnew⟩ := hdom
  -- the machine once the order has its new id
  set b₁ := b.onQueues (·.chained u mm) with hb₁
  have hmodify : b.modifyAt u mm = b₁.reprice u mm.newPx mm.newQty := by
    unfold modifyAt
    rw [hb₁]
    unfold Queues.chained onQueues
    split_ifs <;> rfl
  have hord : b₁.queues.orders = Function.update b.queues.orders u
      { b.order u with id := mm.effectiveId } := chained_orders hid
  have horder : b₁.order u = { b.order u with id := mm.effectiveId } := by
    rw [order, hord, Function.update_self]
  have hfind : Market.find b.rules b.queues.ordersAt mm.id = some (b.order u) := by
    rw [← hid]
    exact find_of_linked hb.wf hx hu rfl
  rw [hmodify, Market.modify, hfind]
  dsimp only
  split_ifs with hsame
  · have hmarket : ∀ {d : Queues ticks}, d.levels = b₁.queues.levels →
        d.orders = Function.update b₁.queues.orders u
          { b₁.order u with remaining := mm.newQty } →
        d.ordersAt = Market.amend b.queues.ordersAt mm.id
          fun o => { o with id := mm.effectiveId, remaining := mm.newQty } := by
      intro d hlev hord'
      rw [← hid]
      refine ordersAt_eq_amend hb.wf hx hu (hlev.trans (chained_levels _ _ _)) ?_
      rw [hord', horder, hord, Function.update_idem]
    unfold reprice
    dsimp only
    rw [horder, if_pos hsame]
    split_ifs with heq
    · refine ⟨hmarket rfl ?_, (List.append_nil _).symm⟩
      rw [heq, ← horder, Function.update_eq_self]
    · refine Plays.publishTop (Plays.markTop ⟨?_, (List.append_nil _).symm⟩ _ _)
      exact hmarket rfl rfl
  · have hne : mm.newPx ≠ (b₁.order u).px := by rwa [horder]
    have hwf₁ : b₁.queues.WellFormed := hb.wf.chained hu mm
    have hx₁ : b₁.queues.Exact := hx.chained hu hfresh
    have hu₁ : b₁.queues.Linked u := (Queues.linked_chained mm).mpr hu
    have htrade := reprice_plays (hb.chained hu hnew) hx₁ hu₁ (UInt64.ne_of_lt hqty).symm hpx
      hne
    have hcancel : Market.cancel b₁.queues.ordersAt (b₁.order u).id =
        Market.cancel b.queues.ordersAt mm.id := by
      rw [← hid, ← ordersAt_drop_eq hb.wf hx hu, ← ordersAt_drop_eq hwf₁ hx₁ hu₁]
      funext s p
      rw [← map_erase_update hb.wf { b.order u with id := mm.effectiveId }, ← hord,
        ← map_erase_update hwf₁ (b₁.order u), Function.update_eq_self]
      rw [show b₁.queues.levels = b.queues.levels from chained_levels _ _ _]
    have hagain : b₁.queues.asSubmit u mm.newPx mm.newQty = ⟨mm.effectiveId, mm.newPx, mm.newQty,
        (b.order u).s, (b.order u).t, (b.order u).accountId⟩ := by
      change (⟨(b₁.order u).id, _, _, (b₁.order u).s, (b₁.order u).t, (b₁.order u).accountId⟩ :
        SubmitMsg) = _
      rw [horder]
    change Plays b₁ _ (Market.submit b.rules (Market.cancel b₁.queues.ordersAt (b₁.order u).id)
      (b₁.queues.asSubmit u mm.newPx mm.newQty)) at htrade
    rw [hcancel, hagain] at htrade
    exact ⟨htrade.market, htrade.news⟩

theorem absent_of_index (hx : b.queues.Exact) {id : UInt64} (h : b.queues.index id = none) :
    b.queues.Absent id := by
  intro v hv hid
  rw [← hid, hx v hv] at h
  cases h

theorem cancel_of_absent {d : Queues ticks} (hd : d.WellFormed) {id : UInt64} (h : d.Absent id) :
    Market.cancel d.ordersAt id = d.ordersAt := by
  funext s p
  refine List.filter_eq_self.mpr fun o ho => ?_
  obtain ⟨v, hv, rfl⟩ := List.mem_map.mp ho
  simpa using h v (hd.linked hv)

/-! ## A command -/

theorem apply_plays (hb : b.Steady maxQty) (hx : b.queues.Exact) {cmd : Command}
    (hdom : cmd.InDomain ticks maxQty) (hfresh : b.queues.Fresh cmd) :
    Plays b (b.apply cmd) (Market.step b.rules b.queues.ordersAt cmd) := by
  cases cmd with
  | submit m =>
      refine Plays.publishTop (handleSubmit_plays hb.wf hb.counted ?_)
      have hfill := hb.canFullyFill_iff m (UInt64.ne_of_lt hdom.2.1).symm
      rw [Killed, Bool.not_eq_true', ← Bool.not_eq_true, hfill]
  | cancel m =>
      unfold apply applyAt
      cases hi : b.queues.index (Command.cancel m).id with
      | none =>
          have hnone := cancel_of_absent hb.wf (absent_of_index hx hi)
          exact ⟨hnone.symm, (List.append_nil _).symm⟩
      | some u =>
          obtain ⟨hu, hid⟩ := hb.wf.indexed _ _ hi
          have hcancel := cancelAt_plays hb.wf hx hu
          rwa [show (b.order u).id = m.id from hid] at hcancel
  | modify m =>
      unfold apply applyAt
      cases hi : b.queues.index (Command.modify m).id with
      | none =>
          have hfind : Market.find b.rules b.queues.ordersAt m.id = none :=
            find_of_absent hb.wf rfl (absent_of_index hx hi)
          have hstep : Market.step b.rules b.queues.ordersAt (.modify m) =
              (b.queues.ordersAt, []) := by
            simp only [Market.step, Market.modify, hfind]
          rw [hstep]
          exact ⟨rfl, (List.append_nil _).symm⟩
      | some u =>
          obtain ⟨hu, hid⟩ := hb.wf.indexed _ _ hi
          exact modifyAt_plays hb hx hu hid hfresh hdom

theorem top_eq (d : Queues ticks) (R : Rules) (hR : R.ticks = ticks) :
    Market.top R d.ordersAt = d.top := by
  subst hR
  have hbest : Market.best R d.ordersAt = d.best := by
    funext s
    simp only [Market.best, Queues.best, Queues.ordersAt, List.isEmpty_map]
  rw [Market.top, hbest]
  rfl

/-- Two sets of queues differ in their quantities at a price of the ladder or not at all. -/
theorem quantities_ne_iff {d d' : Queues ticks} (hd : d.WellFormed) (hd' : d'.WellFormed) :
    d'.quantities ≠ d.quantities ↔
      ∃ s, ∃ p < ticks, Market.quantities d'.ordersAt s p ≠ Market.quantities d.ordersAt s p := by
  have hq : ∀ d : Queues ticks, Market.quantities d.ordersAt = d.quantities := by
    intro d
    funext s p
    simp only [Market.quantities, Queues.ordersAt, Queues.quantities, List.map_map]
    rfl
  have hfar : ∀ {d : Queues ticks}, d.WellFormed → ∀ s p, ¬p < ticks → d.quantities s p = [] := by
    intro d hd s p hp
    rw [Queues.quantities_eq_nil]
    by_contra hne
    exact hp (hd.lt_of_ne_nil hne)
  rw [hq, hq]
  constructor
  · intro hne
    by_contra hall
    push Not at hall
    refine hne (funext fun s => funext fun p => ?_)
    by_cases hp : p < ticks
    · exact hall s p hp
    · rw [hfar hd s p hp, hfar hd' s p hp]
  · rintro ⟨s, p, -, hne⟩ heq
    exact hne (by rw [heq])

/-- What a command publishes is what the market says, with the stamps left out. -/
theorem apply_news (hb : b.Steady maxQty) (hx : b.queues.Exact) {cmd : Command}
    (hdom : cmd.InDomain ticks maxQty) (hfresh : b.queues.Fresh cmd)
    (hwf' : (b.apply cmd).queues.WellFormed) :
    ∃ evs, (b.apply cmd).log = b.log ++ evs ∧
      evs.map Event.unstamped = (Market.apply b.rules b.queues.ordersAt cmd).2 := by
  have htrade := apply_plays hb hx hdom hfresh
  have hu : ∀ u, b.queues.index cmd.id = some u → b.queues.Linked u :=
    fun u hi => (hb.wf.indexed _ _ hi).1
  obtain ⟨evs, msg, hlog, hnot, htop, hon, hoff⟩ := (hb.quiet.applyAt hb.wf hu hdom.inRange).log
  change (b.apply cmd).log = _ at hlog
  refine ⟨evs ++ (msg.map Event.top).toList, by rw [hlog, List.append_assoc], ?_⟩
  have hnews : evs.map Event.unstamped = (Market.step b.rules b.queues.ordersAt cmd).2 := by
    have htold := htrade.news
    have htops : told (msg.map Event.top).toList = [] := by
      refine told_of_tops fun ev hev => ?_
      cases msg with
      | none => simp at hev
      | some m => exact ⟨m, by simpa using hev⟩
    rw [hlog, told_append, told_append, htops, List.append_nil, told_of_not_top hnot] at htold
    exact List.append_cancel_left htold
  have hdue : Market.due b.rules b.queues.ordersAt (Market.step b.rules b.queues.ordersAt cmd).1 =
      msg.isSome := by
    rw [← htrade.market]
    unfold Market.due
    rw [top_eq (b.apply cmd).queues b.rules rfl, top_eq b.queues b.rules rfl]
    cases hth : b.topThrottle with
    | true =>
        have hth' : b.rules.topThrottle = true := hth
        rw [if_pos hth', Bool.eq_iff_iff, hon hth, decide_eq_true_iff]
        rfl
    | false =>
        have hth' : ¬b.rules.topThrottle = true := by simp [rules, hth]
        rw [if_neg hth', Bool.eq_iff_iff, hoff hth, decide_eq_true_iff]
        exact (quantities_ne_iff hb.wf hwf').symm
  unfold Market.apply
  dsimp only
  rw [List.map_append, hnews, hdue, ← htrade.market, top_eq (b.apply cmd).queues b.rules rfl]
  cases msg with
  | none => rfl
  | some m =>
      have hm : m.top = (b.apply cmd).queues.top := htop m rfl
      rw [← hm]
      rfl

theorem absent_iff {d : Queues ticks} (hd : d.WellFormed) (id : UInt64) :
    Market.Absent d.ordersAt id ↔ d.Absent id := by
  constructor
  · intro h u hu
    exact h _ _ _ (List.mem_map_of_mem hu)
  · intro h s p o ho
    obtain ⟨u, hu, rfl⟩ := List.mem_map.mp ho
    exact h u (hd.linked hu)

theorem fresh_iff {d : Queues ticks} (hd : d.WellFormed) (cmd : Command) :
    Market.Fresh d.ordersAt cmd ↔ d.Fresh cmd := by
  cases cmd with
  | submit m => exact absent_iff hd m.id
  | cancel m => exact Iff.rfl
  | modify m => exact imp_congr Iff.rfl (absent_iff hd m.newId)

theorem Steady.sane (hb : b.Steady maxQty) (hx : b.queues.Exact) :
    Market.Sane b.rules b.queues.ordersAt where
  filed s p o ho := by
    obtain ⟨v, hv, rfl⟩ := List.mem_map.mp ho
    exact hb.wf.placed s p v hv
  named s p s' p' o ho o' ho' hid := by
    obtain ⟨v, hv, rfl⟩ := List.mem_map.mp ho
    obtain ⟨w, hw, rfl⟩ := List.mem_map.mp ho'
    have hsame : v = w := (id_eq_iff hx (hb.wf.linked hw) (hb.wf.linked hv)).mp hid
    rw [hsame]
  nodup s p := by
    change (((b.queues.levels s p).map b.queues.orders).map Order.id).Nodup
    rw [List.map_map]
    refine (hb.wf.nodup s p).map_on fun v hv w hw hid => ?_
    exact (id_eq_iff hx (hb.wf.linked hw) (hb.wf.linked hv)).mp hid
  quoted s p hne hzero := by
    obtain ⟨o, ho⟩ := List.exists_mem_of_ne_nil _ hne
    obtain ⟨v, hv, rfl⟩ := List.mem_map.mp ho
    have hsum : (b.queues.aggregateAt s p).toNat = b.queues.openAt s p :=
      hb.sound.recordable.aggregateAt_toNat hb.wf hb.counted hb.cap s p
    rw [show b.queues.aggregateAt s p = 0 from hzero] at hsum
    have hle : (b.queues.orders v).remaining.toNat ≤ b.queues.openAt s p :=
      List.single_le_sum (by simp) _ (List.mem_map_of_mem ho)
    refine (hb.sound v (hb.wf.linked hv)).open_qty (UInt64.toNat_inj.mp ?_)
    have : (0 : UInt64).toNat = 0 := rfl
    omega

end PriorityBook

/-! ## Stamps -/

/-- Number news with the stamps after `seq`, where a trade has the stamp of the fill before it. -/
def stampAll : UInt64 → List Event → List Event
  | _, [] => []
  | seq, ev :: evs =>
      if ev.kind = .trade then ev.stamp seq :: stampAll seq evs
      else ev.stamp (seq + 1) :: stampAll (seq + 1) evs

@[simp] theorem Event.seq_stamp (seq : UInt64) (ev : Event) : (ev.stamp seq).seq = seq := by
  cases ev <;> rfl

@[simp] theorem Event.kind_stamp (seq : UInt64) (ev : Event) : (ev.stamp seq).kind = ev.kind := by
  cases ev <;> rfl

@[simp] theorem Event.kind_unstamped (ev : Event) : ev.unstamped.kind = ev.kind :=
  ev.kind_stamp 0

theorem Event.stamp_unstamped (ev : Event) : ev.unstamped.stamp ev.seq = ev := by
  cases ev <;> rfl

theorem Stamping.stampAll {seq : UInt64} {new : List Event} (h : Stamping (seq + 1) new)
    (evs : List Event) :
    stampAll seq (new.map Event.unstamped ++ evs) = new ++ stampAll (seq + 1) evs := by
  cases h with
  | @fill f t hf ht =>
      change (Event.fill f).unstamped.stamp (seq + 1) ::
        (Event.trade t).unstamped.stamp (seq + 1) :: Orderbooks.stampAll (seq + 1) evs = _
      rw [show seq + 1 = (Event.fill f).seq from hf.symm, Event.stamp_unstamped,
        show (Event.fill f).seq = (Event.trade t).seq from hf.trans ht.symm,
        Event.stamp_unstamped]
      rfl
  | @single ev _ ht hs =>
      change Orderbooks.stampAll seq (ev.unstamped :: evs) = _
      rw [Orderbooks.stampAll, Event.kind_unstamped, if_neg ht, ← hs, Event.stamp_unstamped]
      rfl

/-- The stamps of a tape follow from what it says. -/
theorem Stamped.stampAll {base : UInt64} {n : ℕ} {evs : List Event} (h : Stamped base n evs) :
    stampAll base (evs.map Event.unstamped) = evs := by
  -- generalised over what comes after, as the stamps are dealt out from the left
  suffices hmore : ∀ more, Orderbooks.stampAll base (evs.map Event.unstamped ++ more) =
      evs ++ Orderbooks.stampAll (base + UInt64.ofNat n) more by
    simpa [Orderbooks.stampAll] using hmore []
  induction h with
  | nil => simp
  | @snoc n evs new _ hnew ih =>
      intro more
      have hnext : base + UInt64.ofNat (n + 1) = base + UInt64.ofNat n + 1 := by
        rw [UInt64.ofNat_add, ← UInt64.add_assoc]
        rfl
      rw [hnext] at hnew ⊢
      rw [List.map_append, List.append_assoc, ih, hnew.stampAll, List.append_assoc]

/-! ## Runs -/

namespace Engine

variable {ticks maxOrders : ℕ} {e : Engine (List Event) ticks maxOrders .byId}
  {R : Rules} {maxQty : UInt64} {day : Market.Day} {cmd : Command}

/-- The engine holds the market of the day and has published what the day has brought. -/
def Shows (R : Rules) (maxQty : UInt64) (e : Engine (List Event) ticks maxOrders .byId)
    (day : Market.Day) : Prop :=
  ∃ b : PriorityBook ticks, e.Refines [] b ∧ b.Steady maxQty ∧ b.queues.Exact ∧ b.rules = R ∧
    b.queues.ordersAt = day.1 ∧ b.log.map Event.unstamped = day.2

namespace Shows

theorem records (h : e.Shows R maxQty day) : e.recordsAt = day.1 := by
  obtain ⟨b, href, -, -, -, hmarket, -⟩ := h
  rw [← hmarket]
  funext s p
  exact href.recordsAt_eq s p

theorem published (h : e.Shows R maxQty day) : e.pub.map Event.unstamped = day.2 := by
  obtain ⟨b, href, -, -, -, -, hlog⟩ := h
  rw [href.pub_eq, List.nil_append, hlog]

theorem apply (h : e.Shows R maxQty day) (hc : 0 < maxOrders) (ht : ticks ≤ 64 ^ 4)
    (hok : day.Permits R maxQty cmd) : (e.apply cmd).Shows R maxQty (day.next R cmd) := by
  obtain ⟨b, href, hb, hx, rfl, hmarket, hlog⟩ := h
  obtain ⟨hdom, hfresh⟩ := hok
  rw [← hmarket, PriorityBook.fresh_iff hb.wf] at hfresh
  change cmd.InDomain ticks maxQty at hdom
  obtain ⟨target, hreach, href'⟩ := href.apply hc ht hdom.inRange
  obtain rfl : target = b.queues.index cmd.id := hreach.2 rfl
  obtain ⟨hu, heffect⟩ := href.effect hreach
  have hb' := href.steady_applyAt hb hdom hreach href'
  have hplays := PriorityBook.apply_plays hb hx hdom hfresh
  obtain ⟨evs, hevs, hnews⟩ := PriorityBook.apply_news hb hx hdom hfresh hb'.wf
  refine ⟨b.apply cmd, href', hb', hx.effect hb.wf hu hfresh heffect, ?_, ?_, ?_⟩
  · have hpol : (b.apply cmd).selfCross = b.selfCross :=
      PriorityBook.applyAt_selfCross hb.wf hu hdom.inRange
    have hthrottle : (b.apply cmd).topThrottle = b.topThrottle :=
      (hb.quiet.applyAt hb.wf hu hdom.inRange).throttle
    have hcap : (b.apply cmd).capacity = b.capacity := href'.capacity.trans href.capacity.symm
    simp only [PriorityBook.rules, hpol, hthrottle, hcap]
  · rw [hplays.market, hmarket]
    rfl
  · rw [hevs, List.map_append, hlog, hnews, hmarket]
    rfl

theorem permits (h : e.Shows R maxQty day) (hdom : cmd.InDomain ticks maxQty)
    (hfresh : e.Fresh cmd) : day.Permits R maxQty cmd := by
  obtain ⟨b, href, hb, -, rfl, hmarket, -⟩ := h
  refine ⟨hdom, ?_⟩
  rw [← hmarket, PriorityBook.fresh_iff hb.wf]
  exact href.fresh hfresh

theorem sane (h : e.Shows R maxQty day) : day.1.Sane R := by
  obtain ⟨b, -, hb, hx, rfl, hmarket, -⟩ := h
  rw [← hmarket]
  exact hb.sane hx

end Shows

/-- The rules of an engine. -/
def rulesOf (cfg : EngineConfig) (ticks maxOrders : ℕ) : Rules :=
  ⟨ticks, maxOrders, cfg.selfCross, cfg.topThrottle⟩

theorem new_shows (cfg : EngineConfig) (mem : Memory) (hc : 0 < maxOrders)
    (hcap : maxOrders * cfg.maxOrderQty.toNat < 2 ^ 64) :
    (new [] cfg mem : Engine (List Event) ticks maxOrders .byId).Shows
      (rulesOf cfg ticks maxOrders) cfg.maxOrderQty (fun _ _ => [], []) :=
  ⟨_, new_refines [] cfg mem hc, ⟨.empty, .new cfg maxOrders, .empty, .empty, hcap⟩, .empty, rfl,
    rfl, rfl⟩

theorem play_shows (cfg : EngineConfig) (mem : Memory) (hc : 0 < maxOrders) (ht : ticks ≤ 64 ^ 4)
    (hcap : maxOrders * cfg.maxOrderQty.toNat < 2 ^ 64) {cmds : List Command}
    (hok : Market.Permitted (rulesOf cfg ticks maxOrders) cfg.maxOrderQty cmds) :
    (play [] cfg mem cmds : Engine (List Event) ticks maxOrders .byId).Shows
      (rulesOf cfg ticks maxOrders) cfg.maxOrderQty
      (Market.play (rulesOf cfg ticks maxOrders) cmds) := by
  have hlock (day : Market.Day) (e : Engine (List Event) ticks maxOrders .byId) (cmd : Command)
      (hday : e.Shows (rulesOf cfg ticks maxOrders) cfg.maxOrderQty day)
      (hcmd : day.Permits (rulesOf cfg ticks maxOrders) cfg.maxOrderQty cmd) :=
    hday.apply hc ht hcmd
  exact hok.lockstep _ hlock (new_shows cfg mem hc hcap)

/-- What an engine may be given, its market may be given. -/
theorem permitted (cfg : EngineConfig) (mem : Memory) (hc : 0 < maxOrders) (ht : ticks ≤ 64 ^ 4)
    (hcap : maxOrders * cfg.maxOrderQty.toNat < 2 ^ 64) {cmds : List Command}
    (hdom : ∀ cmd ∈ cmds, cmd.InDomain ticks cfg.maxOrderQty)
    (hfresh : Along apply Fresh
      (new [] cfg mem : Engine (List Event) ticks maxOrders .byId) cmds) :
    Market.Permitted (rulesOf cfg ticks maxOrders) cfg.maxOrderQty cmds := by
  refine ((along_of_forall hdom).and hfresh).transport
    (fun e day => e.Shows (rulesOf cfg ticks maxOrders) cfg.maxOrderQty day)
    (fun e day cmd h hcmd => ?_) (new_shows cfg mem hc hcap)
  have hok := h.permits hcmd.1 hcmd.2
  exact ⟨h.apply hc ht hok, hok⟩

/-- On every history in the documented domains that reuses no resting id the engine, with its
arena, index, bitmaps and chains, is the plain market: the same orders in the same priority, and
the news of the day under the stamps after the configured base. -/
theorem play_market (cfg : EngineConfig) (mem : Memory) (hc : 0 < maxOrders) (ht : ticks ≤ 64 ^ 4)
    (hcap : maxOrders * cfg.maxOrderQty.toNat < 2 ^ 64) {cmds : List Command}
    (hok : Market.Permitted (rulesOf cfg ticks maxOrders) cfg.maxOrderQty cmds) :
    let e : Engine (List Event) ticks maxOrders .byId := play [] cfg mem cmds
    let day := Market.play (rulesOf cfg ticks maxOrders) cmds
    e.recordsAt = day.1 ∧ e.pub = stampAll cfg.seqBase day.2 := by
  intro e day
  have h : e.Shows (rulesOf cfg ticks maxOrders) cfg.maxOrderQty day :=
    play_shows cfg mem hc ht hcap hok
  obtain ⟨n, hst, -⟩ : ∃ n, Stamped cfg.seqBase n e.pub ∧ _ := play_stamped cfg mem cmds
  refine ⟨h.records, ?_⟩
  rw [← h.published, hst.stampAll]

end Engine

/-- A permitted run leads to sane markets. -/
theorem Market.Permitted.sane {R : Rules} {maxQty : UInt64} {cmds : List Command}
    (hok : Permitted R maxQty cmds) (hc : 0 < R.capacity)
    (ht : R.ticks ≤ 64 ^ 4) (hcap : R.capacity * maxQty.toNat < 2 ^ 64) :
    (play R cmds).1.Sane R := by
  let cfg : EngineConfig :=
    { maxOrderQty := maxQty, selfCross := R.selfCross, topThrottle := R.topThrottle }
  have hrules : Engine.rulesOf cfg R.ticks R.capacity = R := rfl
  have hshows := Engine.play_shows cfg .zeroed hc ht hcap (hrules.symm ▸ hok)
  exact hshows.sane

end Orderbooks
