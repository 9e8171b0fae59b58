import Orderbooks.RestingBook
import Orderbooks.TopOfBook

/-!
# The stream of top messages

Every command is a stretch without tops, followed by at most one top at its end.
The flag that asks for it is raised exactly when some resting order came, left,
moved or changed its open quantity, except where the guard shows that the top
cannot have moved.
-/
namespace Orderbooks

namespace PriorityBook
open Queues

variable {ticks : ℕ} {b b₁ : PriorityBook ticks} {m : SubmitMsg} {rem : UInt64} {p u : ℕ}
  {q : List ℕ}

/-! ## A sweep that met a maker shows -/

/-- How much is open on a side, every order counting one on top. -/
def weight (d : Queues ticks) (s : Side) : ℕ :=
  ∑ p ∈ Finset.range ticks, ((d.quantities s p).map fun qty => qty.toNat + 1).sum

theorem announce_order (qty : UInt64) (v : ℕ) :
    (b.announce m u p qty).order v = b.order v := by
  rw [order, announce_queues]

theorem decrement_remaining (qty : UInt64) :
    ((b.decrement u qty).order u).remaining = (b.order u).remaining - qty := by
  change ((b.queues.setRemaining u _).orders u).remaining = _
  simp

/-- Meeting a maker changes no record but its own. -/
theorem strike_orders {v : ℕ} (hv : v ≠ u) :
    (strike m p u b rem).book.queues.orders v = b.queues.orders v := by
  rcases strike_cases m p u b rem with ⟨_, _, hb⟩ | ⟨_, _, hb⟩ | ⟨qty, _, _, _, hb⟩
  · rw [hb]
  · rw [hb]
    rfl
  · rw [hb]
    split_ifs
    · rw [drop_queues, decrement_queues, announce_queues, drop_orders, setRemaining_orders,
        Function.update_of_ne hv]
    · rw [decrement_queues, announce_queues, setRemaining_orders, Function.update_of_ne hv]

/-- At the price of the maker the front quantity goes or shrinks. -/
theorem strike_front (hd : b.queues.WellFormed) (hq : b.queues.levels m.s.opposite p = u :: q)
    (hrem : rem ≠ 0) (ha : (strike m p u b rem).aborted = false) :
    (strike m p u b rem).book.queues.levels m.s.opposite p = q ∨
      (strike m p u b rem).book.queues.levels m.s.opposite p = u :: q ∧
        ((strike m p u b rem).book.order u).remaining < (b.order u).remaining := by
  by_cases hr : (strike m p u b rem).remaining = 0
  · rcases strike_cases m p u b rem with ⟨hab, _⟩ | ⟨_, hr', _⟩ | ⟨qty, rfl, _, _, hb⟩
    · simp [ha] at hab
    · exact absurd (hr'.symm.trans hr) hrem
    · have hwf : ((b.announce m u p (min rem (b.order u).remaining)).decrement u
          (min rem (b.order u).remaining)).queues.WellFormed := by
        rw [decrement_queues, announce_queues]
        exact hd.setRemaining u _
      rw [hb]
      split_ifs with hz
      · left
        rw [drop_queues]
        refine hwf.unlink_levels_eq_erase.trans ?_
        rw [decrement_queues, announce_queues]
        change (b.queues.levels m.s.opposite p).erase u = q
        rw [hq, List.erase_cons_head]
      · right
        have hlt := (toNat_sub_min rem (b.order u).remaining).2
        have hpos : rem.toNat ≠ 0 := fun h => hrem (UInt64.toNat_inj.mp h)
        have hne : ((b.order u).remaining - min rem (b.order u).remaining).toNat ≠ 0 :=
          fun h => hz (UInt64.toNat_inj.mp h)
        refine ⟨?_, ?_⟩
        · rw [decrement_queues, announce_queues]
          exact hq
        · rw [decrement_remaining, announce_order, UInt64.lt_iff_toNat_lt]
          omega
  · exact .inl (strike_level hd hq ha hr)

theorem strike_weight (hd : b.queues.WellFormed) (hq : b.queues.levels m.s.opposite p = u :: q)
    (hrem : rem ≠ 0) (ha : (strike m p u b rem).aborted = false) :
    weight (strike m p u b rem).book.queues m.s.opposite < weight b.queues m.s.opposite := by
  have hmem : u ∈ b.queues.levels m.s.opposite p := by simp [hq]
  have hnotin : u ∉ q := by
    have := hd.nodup m.s.opposite p
    rw [hq] at this
    exact (List.nodup_cons.mp this).1
  have hrest : q.map (fun v => ((strike m p u b rem).book.queues.orders v).remaining) =
      q.map fun v => (b.queues.orders v).remaining :=
    List.map_congr_left fun v hv => by
      rw [strike_orders fun h : v = u => hnotin (h ▸ hv)]
  have hat : (((strike m p u b rem).book.queues.quantities m.s.opposite p).map
      fun qty => qty.toNat + 1).sum <
      ((b.queues.quantities m.s.opposite p).map fun qty => qty.toNat + 1).sum := by
    unfold quantities
    rw [hq]
    rcases strike_front hd hq hrem ha with h | ⟨h, hlt⟩
    · rw [h, hrest, List.map_cons, List.map_cons, List.sum_cons]
      omega
    · rw [h, List.map_cons, List.map_cons, hrest, List.map_cons, List.map_cons, List.sum_cons,
        List.sum_cons]
      have : ((strike m p u b rem).book.queues.orders u).remaining.toNat <
          (b.queues.orders u).remaining.toNat := UInt64.lt_iff_toNat_lt.mp hlt
      omega
  refine Finset.sum_lt_sum (fun r _ => ?_) ⟨p, Finset.mem_range.mpr (hd.lt_of_ne_nil
    (List.ne_nil_of_mem hmem)), hat⟩
  by_cases hr : r = p
  · rw [hr]
    exact hat.le
  · rw [quantities_congr (strike_levels_of_ne rem hd hq fun h => hr h.2) fun v hv => ?_]
    rw [strike_orders fun h => ?_]
    obtain ⟨_, hp, _⟩ := hd.placed _ _ u hmem
    obtain ⟨_, hp', _⟩ := hd.placed _ _ v hv
    exact hr (hp'.symm.trans (h ▸ hp))

/-- A sweep that raised the flag took something off the opposite side. -/
theorem sweep_stirs (m : SubmitMsg) (rem : UInt64) (hd : b.queues.WellFormed) :
    ((sweep m b rem).book.queues = b.queues ∧
        (sweep m b rem).book.state.topDirty = b.state.topDirty) ∨
      weight (sweep m b rem).book.queues m.s.opposite < weight b.queues m.s.opposite := by
  refine (sweep_induct (m := m) (I := fun b' _ =>
    (b'.queues = b.queues ∧ b'.state.topDirty = b.state.topDirty) ∨
      weight b'.queues m.s.opposite < weight b.queues m.s.opposite) ?_ b rem hd
    (.inl ⟨rfl, rfl⟩)).1
  intro b' r p u q hwf hI hr _ _ hq
  cases ha : (strike m p u b' r).aborted with
  | true =>
      rw [strike_book_of_aborted ha]
      exact hI
  | false =>
      have hlt := strike_weight hwf hq hr ha
      right
      rcases hI with ⟨hsame, _⟩ | hless
      · rwa [hsame] at hlt
      · exact hlt.trans hless

/-! ## Every marked change shows -/

variable {d d' : Queues ticks} {newPx : ℕ} {newQty : UInt64}

theorem weight_congr (h : d'.quantities = d.quantities) (s : Side) : weight d' s = weight d s := by
  unfold weight
  rw [h]

theorem length_quantities (d : Queues ticks) (s : Side) (p : ℕ) :
    (d.quantities s p).length = (d.levels s p).length := List.length_map _

theorem drop_stirs (hu : d.Linked u) : (d.drop u).quantities ≠ d.quantities := by
  intro h
  have hlen := congrArg List.length (congrFun (congrFun h (d.orders u).s) (d.orders u).px)
  rw [length_quantities, length_quantities] at hlen
  change ((d.unlink u).levels _ _).length = _ at hlen
  rw [unlink_levels, if_pos ⟨rfl, rfl⟩, List.length_erase_of_mem hu] at hlen
  have := List.length_pos_of_mem hu
  omega

theorem move_stirs (hd : d.WellFormed) (hu : d.Linked u) (hpx : newPx ≠ (d.orders u).px) :
    (d.move u newPx newQty).quantities ≠ d.quantities := by
  intro h
  have hlen := congrArg List.length (congrFun (congrFun h (d.orders u).s) (d.orders u).px)
  rw [length_quantities, length_quantities, hd.move_levels, if_neg fun h => hpx h.2.symm,
    List.length_erase_of_mem hu] at hlen
  have := List.length_pos_of_mem hu
  omega

theorem setRemaining_stirs (hu : d.Linked u) (hqty : newQty ≠ (d.orders u).remaining) :
    (d.setRemaining u newQty).quantities ≠ d.quantities := by
  intro h
  have hmap := congrFun (congrFun h (d.orders u).s) (d.orders u).px
  have := List.map_inj_left.mp hmap u hu
  simp at this
  exact hqty this

/-- What rests on the side of the aggressor is there as before, but for the aggressor. -/
theorem submitted_own (hd : d.WellFormed) {cap r : ℕ} (hs : Submitted cap m d d')
    (hr : r ≠ m.px) : d'.quantities m.s r = d.quantities m.s r := by
  cases hs with
  | left hw => exact hw.quantities_of_ne hd m.s.opposite_ne.symm r
  | rested hw =>
      rw [(hw.wellFormed hd).quantities_rest fun h => hr h.2,
        hw.quantities_of_ne hd m.s.opposite_ne.symm r]

theorem resubmitted_stirs (hd : d.WellFormed) (hu : d.Linked u) {cap : ℕ}
    (hpx : newPx ≠ (d.orders u).px)
    (hs : Submitted cap (d.asSubmit u newPx newQty) (d.drop u) d') :
    d'.quantities ≠ d.quantities := by
  intro h
  have hown := submitted_own (hd.drop u) hs (r := (d.orders u).px) fun h => hpx h.symm
  have hlen := congrArg List.length hown
  rw [h, length_quantities, length_quantities] at hlen
  change ((d.levels (d.orders u).s (d.orders u).px)).length =
    ((d.unlink u).levels (d.orders u).s (d.orders u).px).length at hlen
  rw [unlink_levels, if_pos ⟨rfl, rfl⟩, List.length_erase_of_mem hu] at hlen
  have := List.length_pos_of_mem hu
  omega

/-- A submit that changed no open quantity raised no flag. -/
theorem handleSubmit_stirs (hd : b.queues.WellFormed)
    (h : (b.handleSubmit m).queues.quantities = b.queues.quantities) :
    (b.handleSubmit m).state.topDirty = b.state.topDirty := by
  have hsweep : (sweep m b m.qty).book.queues.quantities = b.queues.quantities →
      (sweep m b m.qty).book.state.topDirty = b.state.topDirty := fun h => by
    rcases sweep_stirs m m.qty hd with ⟨_, hsame⟩ | hlt
    · exact hsame
    · rw [weight_congr h] at hlt
      exact absurd hlt (lt_irrefl _)
  obtain ⟨hworn, _⟩ := sweep_effect m m.qty hd
  unfold handleSubmit at h ⊢
  dsimp only at h ⊢
  split_ifs at h ⊢
  · rfl
  · exact hsweep h
  · cases ht : m.t with
    | ioc =>
        rw [ht] at h
        exact hsweep h
    | fok =>
        rw [ht] at h
        exact hsweep h
    | gtc =>
        rw [ht] at h
        dsimp only at h ⊢
        by_cases hfull : (sweep m b m.qty).book.capacity ≤ (sweep m b m.qty).book.queues.live
        · unfold PriorityBook.rest at h ⊢
          rw [if_pos hfull] at h ⊢
          exact hsweep h
        · have hlen := congrArg List.length (congrFun (congrFun h m.s) m.px)
          rw [rest_queues hfull, length_quantities, rest_levels, if_pos ⟨rfl, rfl⟩,
            ← hworn.quantities_of_ne hd m.s.opposite_ne.symm m.px, length_quantities,
            List.length_append] at hlen
          simp at hlen

/-! ## One command -/

/-- A stretch without tops that ends in `b'` with the top it is due. -/
def Settles (b b' : PriorityBook ticks) : Prop :=
  ∃ b₁, Moved b b₁ ∧ b₁.queues.WellFormed ∧ b' = b₁.publishTopIfChanged ∧
    (b₁.queues.quantities = b.queues.quantities → b₁.state.topDirty = b.state.topDirty)

/-- A marked change of one order, and the top after it. -/
theorem Settles.marked (h : Moved b b₁) (hwf : b₁.queues.WellFormed)
    (hstir : b₁.queues.quantities ≠ b.queues.quantities) :
    Settles b b₁.publishTopIfChanged :=
  ⟨b₁, h, hwf, rfl, fun hsame => absurd hsame hstir⟩

theorem onSubmit_settles (hd : b.queues.WellFormed) (hpx : m.px < ticks) :
    Settles b (b.onSubmit m) :=
  ⟨_, handleSubmit_moved hd hpx, (handleSubmit_effect m hd).wellFormed hd hpx, rfl,
    handleSubmit_stirs hd⟩

theorem drop_moved (hd : b.queues.WellFormed) (u : ℕ) :
    Moved b ((b.drop u).markTop (b.order u).s (b.order u).px) :=
  marked_moved hd (hd.drop u) u fun _ _ hne => quantities_drop hne

theorem cancelAt_settles (hd : b.queues.WellFormed) (hu : b.queues.Linked u) :
    Settles b (b.cancelAt u) :=
  .marked (drop_moved hd u) (hd.drop u) (drop_stirs hu)

/-- The machine between the two halves of a crossing modify. -/
def withdrawn (b : PriorityBook ticks) (u : ℕ) : PriorityBook ticks :=
  (b.suppress.drop u).markTop (b.order u).s (b.order u).px

theorem publishTopIfChanged_of_moved (h : Moved b.suppress b₁) : b₁.publishTopIfChanged = b₁ := by
  refine publishTopIfChanged_held ?_
  rw [h.frame]
  exact Nat.succ_ne_zero _

theorem resubmit_moved (hd : b.queues.WellFormed) (hpx : newPx < ticks) :
    Moved b.suppress ((b.withdrawn u).handleSubmit (b.queues.asSubmit u newPx newQty)) :=
  (drop_moved (b := b.suppress) hd u).trans
    (handleSubmit_moved (b := b.withdrawn u) (hd.drop u) hpx)

/-- With tops held back, cancelling and submitting publish none. -/
theorem resubmit_eq (hd : b.queues.WellFormed) (hpx : newPx < ticks) :
    b.resubmit u newPx newQty = ((b.withdrawn u).handleSubmit
      (b.queues.asSubmit u newPx newQty)).unsuppress.publishTopIfChanged := by
  have hcancel : b.suppress.cancelAt u = b.withdrawn u :=
    publishTopIfChanged_of_moved (drop_moved (b := b.suppress) hd u)
  unfold resubmit onSubmit
  dsimp only
  rw [hcancel]
  exact congrArg (fun b => b.unsuppress.publishTopIfChanged)
    (publishTopIfChanged_of_moved (resubmit_moved hd hpx))

theorem resubmit_settles (hd : b.queues.WellFormed) (hu : b.queues.Linked u)
    (hpx : newPx < ticks) (hne : newPx ≠ (b.order u).px) :
    Settles b (b.resubmit u newPx newQty) := by
  have hwf : (b.withdrawn u).queues.WellFormed := hd.drop u
  have heffect := handleSubmit_effect (b := b.withdrawn u) (b.queues.asSubmit u newPx newQty) hwf
  rw [resubmit_eq hd hpx]
  exact .marked (resubmit_moved hd hpx).unsuppress (heffect.wellFormed hwf hpx)
    (resubmitted_stirs hd hu hne heffect)

/-- Nothing happened, and no top is due. -/
theorem Settles.refl (hd : b.queues.WellFormed) (hclean : b.state.topDirty = false) :
    Settles b b :=
  ⟨b, .refl b, hd, (publishTopIfChanged_clean hclean).symm, fun _ => rfl⟩

theorem reprice_settles (hd : b.queues.WellFormed) (hu : b.queues.Linked u)
    (hclean : b.state.topDirty = false) (hpx : newPx < ticks) :
    Settles b (b.reprice u newPx newQty) := by
  have hrelink : newPx ≠ (b.order u).px → Settles b (b.relink u newPx newQty) := fun hne =>
    .marked (relink_moved hd hu hpx newQty) (hd.move hu hpx newQty) (move_stirs hd hu hne)
  unfold reprice
  dsimp only
  split_ifs with hsame hqty
  · exact .refl hd hclean
  · exact .marked (marked_moved hd (hd.setRemaining u newQty) u
      fun _ _ hne => hd.quantities_setRemaining hne) (hd.setRemaining u newQty)
      (setRemaining_stirs hu hqty)
  · cases b.queues.best (b.order u).s.opposite with
    | none => exact hrelink hsame
    | some q =>
        dsimp only
        split_ifs
        · exact hrelink hsame
        · exact resubmit_settles hd hu hpx hsame

/-- Another id moves nothing. -/
theorem rename_moved (hd : b.queues.WellFormed) (hu : b.queues.Linked u) (newId : UInt64) :
    Moved b (b.onQueues (·.rename u newId)) :=
  .marked (f := (·.rename u newId)) hd (hd.rename hu newId) [] rfl id
    (fun _ a ha => by simp at ha) fun t r _ => quantities_rename newId t r

theorem modifyAt_settles (hd : b.queues.WellFormed) (hu : b.queues.Linked u)
    (hclean : b.state.topDirty = false) {m : ModifyMsg} (hpx : m.newPx < ticks) :
    Settles b (b.modifyAt u m) := by
  unfold modifyAt
  dsimp only
  split_ifs
  · have hq : (b.queues.rename u m.newId).quantities = b.queues.quantities := by
      funext t r
      exact quantities_rename m.newId t r
    have hmoved := rename_moved hd hu m.newId
    obtain ⟨b₁, h₁, hwf, heq, hstir⟩ := reprice_settles (b := b.onQueues (·.rename u m.newId))
      (hd.rename hu m.newId) ((linked_rename m.newId).mpr hu) hclean hpx
    exact ⟨b₁, hmoved.trans h₁, hwf, heq, fun h => hstir (h.trans hq.symm)⟩
  · exact reprice_settles hd hu hclean hpx

/-- Every command is a stretch without tops, and the top it is due. -/
theorem applyAt_settles {target : Option ℕ} {cmd : Command} (hd : b.queues.WellFormed)
    (hu : ∀ u, target = some u → b.queues.Linked u) (hclean : b.state.topDirty = false)
    (hrange : cmd.InRange ticks) : Settles b (b.applyAt target cmd) := by
  cases cmd with
  | submit m => exact onSubmit_settles hd hrange.1
  | cancel m =>
      cases target with
      | none => exact .refl hd hclean
      | some u => exact cancelAt_settles hd (hu u rfl)
  | modify m =>
      cases target with
      | none => exact .refl hd hclean
      | some u => exact modifyAt_settles hd (hu u rfl) hclean hrange.1

/-! ## The top a command is due -/

/-- A machine between commands: no top is due and none is held back. -/
structure Quiet (b : PriorityBook ticks) : Prop where
  clean : b.state.topDirty = false
  released : b.state.suppressTopDepth = 0
  accurate : Accurate b.state b.queues

theorem Quiet.new (cfg : EngineConfig) (capacity : ℕ) :
    Quiet (PriorityBook.new cfg capacity : PriorityBook ticks) := by
  have hbest : ∀ s, ({} : Queues ticks).best s = none := fun s =>
    (best_eq_none WellFormed.empty).mpr fun _ => rfl
  refine ⟨rfl, rfl, ?_, fun s => ?_, fun _ => hbest⟩
  · change (⟨0, 0, 0, 0⟩ : Top) = Top.of _ _
    unfold Top.of
    rw [PriorityBook.new, hbest, hbest]
    rfl
  · rw [PriorityBook.new, hbest]
    cases s <;> rfl

end PriorityBook

namespace HotState

/-- The state once the top has been looked at. -/
def seen (st : HotState) (best : Side → Option ℕ) : HotState :=
  { st with
    topDirty := false
    haveBidSide := (best .bid).isSome
    haveAskSide := (best .ask).isSome }

/-- The state once a top has been published. -/
def shown (st : HotState) (best : Side → Option ℕ) (top : Top) : HotState :=
  { st.seen best with
    seq := st.seq + 1
    lastBidPx := top.bidPx
    lastAskPx := top.askPx
    lastBidQty := top.bidQty
    lastAskQty := top.askQty
    haveTop := true }

/-- A top that is due is published unless it is the one published last. -/
theorem publishTopIfChanged_due {st : HotState} (hdirty : st.topDirty = true)
    (hfree : st.suppressTopDepth = 0) (throttle : Bool) (best : Side → Option ℕ)
    (aggregateAt : Side → ℕ → UInt64) :
    st.publishTopIfChanged throttle best aggregateAt =
      if throttle ∧ st.haveTop ∧ Top.of best aggregateAt = st.last then (st.seen best, none)
      else (st.shown best (.of best aggregateAt),
        some ⟨(Top.of best aggregateAt).bidPx, (Top.of best aggregateAt).askPx,
          (Top.of best aggregateAt).bidQty, (Top.of best aggregateAt).askQty, st.seq + 1⟩) := by
  unfold publishTopIfChanged
  rw [if_neg (by simp [hdirty]), if_neg (by simp [hfree])]
  refine if_congr ?_ rfl rfl
  rw [last, Top.of, Top.mk.injEq]

end HotState

namespace PriorityBook
open Queues

variable {ticks : ℕ} {b b₁ : PriorityBook ticks}

theorem publishTopIfChanged_due (hdirty : b.state.topDirty = true)
    (hfree : b.state.suppressTopDepth = 0) :
    b.publishTopIfChanged =
      if b.topThrottle ∧ b.state.haveTop ∧ b.queues.top = b.state.last then
        { b with state := b.state.seen b.queues.best }
      else
        { b with
          log := b.log ++ [.top ⟨b.queues.top.bidPx, b.queues.top.askPx, b.queues.top.bidQty,
            b.queues.top.askQty, b.state.seq + 1⟩]
          state := b.state.shown b.queues.best b.queues.top } := by
  unfold publishTopIfChanged
  rw [HotState.publishTopIfChanged_due hdirty hfree,
    show Top.of b.queues.best b.queues.aggregateAt = b.queues.top from rfl]
  split_ifs <;> rfl

end PriorityBook

theorem Accurate.seen {ticks : ℕ} {st : HotState} {d : Queues ticks} (hlast : st.last = d.top)
    (hfresh : st.haveTop = false → ∀ s, d.best s = none) : Accurate (st.seen d.best) d :=
  ⟨hlast, fun s => by cases s <;> rfl, hfresh⟩

theorem Accurate.shown {ticks : ℕ} (st : HotState) (d : Queues ticks) :
    Accurate (st.shown d.best d.top) d :=
  ⟨rfl, fun s => by cases s <;> rfl, fun h => by simp [HotState.shown] at h⟩

namespace PriorityBook
open Queues

variable {ticks : ℕ} {b b' b₁ : PriorityBook ticks}

/-- What one command publishes: events that are no tops, and then the top when it
is due. -/
structure Tick (b b' : PriorityBook ticks) : Prop where
  quiet : Quiet b'
  throttle : b'.topThrottle = b.topThrottle
  log : ∃ evs msg, b'.log = b.log ++ evs ++ (msg.map Event.top).toList ∧
    (∀ ev ∈ evs, ev.isTop = false) ∧ (∀ m, msg = some m → m.top = b'.queues.top) ∧
    (b.topThrottle = true → (msg.isSome ↔ b'.queues.top ≠ b.queues.top)) ∧
    (b.topThrottle = false → (msg.isSome ↔ b'.queues.quantities ≠ b.queues.quantities))

/-- The flag is down: nothing that shows has changed. -/
theorem Quiet.tick_clean (hq : Quiet b) (h : Moved b b₁)
    (hc : b₁.state.topDirty = false) : Tick b b₁ := by
  obtain ⟨evs, hlog, hevs⟩ := h.log
  have hacc := h.accurate hc hq.accurate
  have hsup : b₁.state.suppressTopDepth = 0 := by
    rw [h.frame]
    exact hq.released
  have hlast : b₁.state.last = b.state.last := by
    rw [h.frame]
    rfl
  have htop : b₁.queues.top = b.queues.top := by
    rw [← hacc.last, hlast, hq.accurate.last]
  refine ⟨⟨hc, hsup, hacc⟩, h.config.2.1, evs, none, by simpa using hlog, hevs, by simp,
    fun _ => by simp [htop], fun hth => by simp [h.quiet hc hth]⟩

/-- The flag is up: the top is published unless it is the one shown last. -/
theorem Quiet.tick_due (hq : Quiet b) (h : Moved b b₁) (hdirty : b₁.state.topDirty = true)
    (hstir : b₁.queues.quantities ≠ b.queues.quantities)
    (hfirst : (∀ s, b.queues.best s = none) → b₁.queues.top ≠ b.queues.top) :
    Tick b b₁.publishTopIfChanged := by
  obtain ⟨evs, hlog, hevs⟩ := h.log
  have hsup : b₁.state.suppressTopDepth = 0 := by
    rw [h.frame]
    exact hq.released
  have hlast : b₁.state.last = b.queues.top := by
    rw [← hq.accurate.last, h.frame]
    rfl
  have hhave : b₁.state.haveTop = b.state.haveTop := by rw [h.frame]
  have hth := h.config.2.1
  rw [publishTopIfChanged_due hdirty hsup]
  split_ifs with hc
  · obtain ⟨hon, htop, hsame⟩ := hc
    refine ⟨⟨rfl, hsup, .seen hsame.symm fun hf => by simp [htop] at hf⟩, hth, evs, none,
      by simpa using hlog, hevs, by simp, fun _ => ?_, fun hoff => ?_⟩
    · simp [hsame, hlast]
    · rw [hth, hoff] at hon
      exact absurd hon (by decide)
  · refine ⟨⟨rfl, hsup, .shown _ _⟩, hth, evs, some _, by rw [hlog]; rfl, hevs, ?_, fun hon => ?_,
      fun _ => by simpa using hstir⟩
    · intro m hm
      rw [← Option.some.inj hm]
      rfl
    · simp only [Option.isSome_some, true_iff]
      cases hb : b.state.haveTop with
      | false => exact hfirst (hq.accurate.fresh hb)
      | true =>
          intro hsame
          exact hc ⟨hth.trans hon, hhave.trans hb, hsame.trans hlast.symm⟩

/-- On an empty book nothing wears down. -/
theorem worn_of_empty {opp : Side} {d d' : Queues ticks} (h : Worn opp d d')
    (hempty : ∀ s p, d.levels s p = []) : d' = d := by
  induction h with
  | refl => rfl
  | decrement _ hu _ _ _ ih =>
      rw [ih] at hu
      exact absurd hu (by simp [Linked, hempty])
  | drop _ hu _ ih =>
      rw [ih] at hu
      exact absurd hu (by simp [Linked, hempty])

/-- The first order that rests is the top. -/
theorem rest_top {d : Queues ticks} {m : SubmitMsg} {rem : UInt64} (hd : d.WellFormed)
    (hempty : ∀ s p, d.levels s p = []) (hpx : m.px < ticks) (hrem : rem ≠ 0) :
    (d.rest m rem).top ≠ d.top := by
  have hwf := hd.rest hpx rem
  have hlev : ∀ t r, (d.rest m rem).levels t r = if t = m.s ∧ r = m.px then [d.next] else [] :=
    fun t r => by
      rw [rest_levels, hempty]
      rfl
  have hbest : (d.rest m rem).best m.s = some m.px := by
    refine (hwf.isBest_best m.s).unique ⟨?_, fun r hr => ?_⟩
    · change (d.rest m rem).levels m.s m.px ≠ []
      simp [hlev]
    · have hr : (d.rest m rem).levels m.s r ≠ [] := hr
      rw [hlev] at hr
      split_ifs at hr with hat
      · rw [hat.2]
        cases m.s <;> simp [Side.better]
      · exact absurd rfl hr
  have hagg : (d.rest m rem).aggregateAt m.s m.px = rem := by
    simp [aggregateAt_eq_sum, quantities, hlev]
  have hnone : ∀ s, d.best s = none := fun s => (best_eq_none hd).mpr (hempty s)
  intro htop
  unfold Queues.top Top.of at htop
  rw [hnone, hnone, Top.mk.injEq] at htop
  cases hs : m.s with
  | bid =>
      rw [hs] at hbest hagg
      rw [hbest] at htop
      exact hrem (hagg.symm.trans htop.2.2.1)
  | ask =>
      rw [hs] at hbest hagg
      rw [hbest] at htop
      exact hrem (hagg.symm.trans htop.2.2.2)

/-- Whatever changes an empty book moves its top. -/
theorem effect_of_empty {cap : ℕ} {d d' : Queues ticks} {target : Option ℕ} {cmd : Command}
    (he : Effect cap d target cmd d') (hd : d.WellFormed)
    (hu : ∀ u, target = some u → d.Linked u) (hrange : cmd.InRange ticks)
    (hnone : ∀ s, d.best s = none) (hstir : d'.quantities ≠ d.quantities) : d'.top ≠ d.top := by
  have hempty : ∀ s p, d.levels s p = [] := fun s => (best_eq_none hd).mp (hnone s)
  have hlinked : ∀ u, ¬ d.Linked u := fun u h => by simp [Linked, hempty] at h
  cases he with
  | submit hs =>
      cases hs with
      | left hw =>
          rw [worn_of_empty hw hempty] at hstir
          exact absurd rfl hstir
      | rested hw hrem =>
          rw [worn_of_empty hw hempty]
          exact rest_top hd hempty hrange.1 hrem
  | cancelNone => exact absurd rfl hstir
  | cancel => exact absurd (hu _ rfl) (hlinked _)
  | modifyNone => exact absurd rfl hstir
  | modify => exact absurd (hu _ rfl) (hlinked _)

theorem Quiet.applyAt {target : Option ℕ} {cmd : Command} (hq : Quiet b)
    (hd : b.queues.WellFormed) (hu : ∀ u, target = some u → b.queues.Linked u)
    (hrange : cmd.InRange ticks) : Tick b (b.applyAt target cmd) := by
  obtain ⟨b₁, h, _, heq, hstir⟩ := applyAt_settles hd hu hq.clean hrange
  have he := applyAt_effect cmd hd hu
  rw [heq, publishTopIfChanged_queues] at he
  rw [heq]
  cases hc : b₁.state.topDirty with
  | false =>
      rw [publishTopIfChanged_clean hc]
      exact hq.tick_clean h hc
  | true =>
      have hne : b₁.queues.quantities ≠ b.queues.quantities := fun hsame => by
        have := hstir hsame
        rw [hc, hq.clean] at this
        exact Bool.noConfusion this
      exact hq.tick_due h hc hne fun hnone => effect_of_empty he hd hu hrange hnone hne

end PriorityBook
/-! ## The engine's tops -/

/-- What a consumer knows that keeps the latest top only, starting from zeros. -/
def latestTop (log : List Event) : Top :=
  log.foldl (fun top ev => match ev with
    | .top m => m.top
    | _ => top) ⟨0, 0, 0, 0⟩

theorem latestTop_append_of_not_top {log evs : List Event} (h : ∀ ev ∈ evs, ev.isTop = false) :
    latestTop (log ++ evs) = latestTop log := by
  unfold latestTop
  rw [List.foldl_append]
  generalize log.foldl _ _ = top
  induction evs generalizing top with
  | nil => rfl
  | cons ev evs ih =>
      have hev := h ev (by simp)
      rw [List.foldl_cons]
      cases ev with
      | top m => simp [Event.isTop] at hev
      | fill m => exact ih (fun ev' hev' => h ev' (by simp [hev'])) top
      | trade m => exact ih (fun ev' hev' => h ev' (by simp [hev'])) top
      | selfTrade m => exact ih (fun ev' hev' => h ev' (by simp [hev'])) top
      | reject m => exact ih (fun ev' hev' => h ev' (by simp [hev'])) top

theorem latestTop_append_top (log : List Event) (m : TopMsg) :
    latestTop (log ++ [.top m]) = m.top := by
  simp [latestTop]

/-- A consumer that knew the top before a command knows it afterwards. -/
theorem PriorityBook.Tick.latestTop_eq {ticks : ℕ} {b b' : PriorityBook ticks}
    (h : PriorityBook.Tick b b') (hb : latestTop b.log = b.queues.top) :
    latestTop b'.log = b'.queues.top := by
  obtain ⟨evs, msg, hlog, hevs, hmsg, hon, hoff⟩ := h.log
  rw [hlog]
  cases msg with
  | some m =>
      rw [Option.map_some, Option.toList_some, latestTop_append_top]
      exact hmsg m rfl
  | none =>
      rw [Option.map_none, Option.toList_none, List.append_nil, latestTop_append_of_not_top hevs,
        hb]
      cases hth : b.topThrottle with
      | true =>
          have := hon hth
          simpa [eq_comm] using this
      | false =>
          have := hoff hth
          exact (Queues.top_congr (by simpa using this)).symm

namespace Engine
open Runs

variable {ticks maxOrders : ℕ} {lookup : OrderLookup}

/-- The top of the book an engine holds. -/
def top {P : Type} (e : Engine P ticks maxOrders lookup) : Top :=
  .of (fun s => (e.side s).best) fun s => (e.side s).aggregateAt

/-- The open quantities resting at a price, first come first. -/
def quantities {P : Type} (e : Engine P ticks maxOrders lookup) (s : Side) (p : ℕ) : List UInt64 :=
  ((e.side s).levels p).fifo.map fun x => (e.order x).remaining

variable {P : Type} [Publisher P] {p0 : P} {e : Engine P ticks maxOrders lookup}
  {b : PriorityBook ticks}

theorem Refines.top_eq (h : e.Refines p0 b) : e.top = b.queues.top := by
  obtain ⟨hd, tag, h⟩ := h
  unfold Engine.top Queues.top
  rw [funext fun s => h.best_eq hd s, funext fun s => h.aggregateAt_eq s]

theorem Refines.quantities_eq (h : e.Refines p0 b) (s : Side) (p : ℕ) :
    e.quantities s p = b.queues.quantities s p := by
  obtain ⟨hd, tag, h⟩ := h
  unfold Engine.quantities Queues.quantities
  rw [(h.book.level s p).fifo, List.map_map]
  refine List.map_congr_left fun x hx => ?_
  rw [h.order_eq ⟨s, p, hx⟩]
  rfl

/-- With the recording publisher the log of the machine is what was published. -/
theorem Refines.pub_eq {e : Engine (List Event) ticks maxOrders lookup} {p0 : List Event}
    (h : e.Refines p0 b) : e.pub = p0 ++ b.log := by
  obtain ⟨_, tag, h⟩ := h
  exact h.pub.trans (foldl_publish_list p0 b.log)

/-- The events of one command: at most one top, the last of them, and there is one
exactly when the setting of the throttle asks for it. A command that adds, removes,
reprices or requantifies a resting order changes the quantities at some level; a
change of id alone does not. -/
def TopsExact (throttle : Bool) (e e' : Engine (List Event) ticks maxOrders lookup) : Prop :=
  ∃ (evs : List Event) (msg : Option TopMsg),
    e'.pub = e.pub ++ evs ++ (msg.map Event.top).toList ∧ (∀ ev ∈ evs, ev.isTop = false) ∧
    (throttle = true → (msg.isSome ↔ e'.top ≠ e.top)) ∧
    (throttle = false → (msg.isSome ↔ ∃ s p, e'.quantities s p ≠ e.quantities s p))

theorem Refines.topsExact {e e' : Engine (List Event) ticks maxOrders lookup}
    {b b' : PriorityBook ticks} (h : e.Refines [] b) (h' : e'.Refines [] b')
    (htick : PriorityBook.Tick b b') : TopsExact b.topThrottle e e' := by
  obtain ⟨evs, msg, hlog, hevs, _, hon, hoff⟩ := htick.log
  refine ⟨evs, msg, ?_, hevs, fun hth => ?_, fun hth => ?_⟩
  · rw [h'.pub_eq, hlog, h.pub_eq]
    rfl
  · rw [h'.top_eq, h.top_eq]
    exact hon hth
  · rw [hoff hth]
    simp only [Function.ne_iff, h'.quantities_eq, h.quantities_eq]

theorem Refines.latestTop_eq {e : Engine (List Event) ticks maxOrders lookup}
    (h : e.Refines [] b) (hlatest : latestTop b.log = b.queues.top) : latestTop e.pub = e.top := by
  rw [h.pub_eq, h.top_eq, ← hlatest]
  rfl

/-- After any run of commands with prices on the ladder, the next command publishes
exactly the top it owes, and the latest top published is the top of the book. -/
theorem play_tops_exact (cfg : EngineConfig) (mem : Memory) (hc : 0 < maxOrders)
    (ht : ticks ≤ 64 ^ 4) (cmds : List Command) (cmd : Command)
    (hcmds : ∀ c ∈ cmds, c.InRange ticks) (hcmd : cmd.InRange ticks) :
    let e : Engine (List Event) ticks maxOrders lookup := play [] cfg mem cmds
    TopsExact cfg.topThrottle e (e.apply cmd) ∧ latestTop e.pub = e.top := by
  have hnew : (new [] cfg mem : Engine (List Event) ticks maxOrders lookup).Refines []
      (PriorityBook.new cfg maxOrders) := new_refines [] cfg mem hc
  have hquiet : (PriorityBook.new cfg maxOrders : PriorityBook ticks).Quiet := .new cfg maxOrders
  obtain ⟨b, h, hq, hth, hlatest⟩ := hnew.run (fun _ cmd => cmd.InRange ticks)
    (fun b => b.Quiet ∧ b.topThrottle = cfg.topThrottle ∧ latestTop b.log = b.queues.top)
    hc ht (fun _ _ h => h)
    (fun e b cmd target h hI hr hreach =>
      have htick := hI.1.applyAt h.1 (h.effect hreach).1 hr
      ⟨htick.quiet, htick.throttle.trans hI.2.1, htick.latestTop_eq hI.2.2⟩)
    ⟨hquiet, rfl, hquiet.accurate.last⟩ (along_of_forall hcmds)
  obtain ⟨target, hreach, h'⟩ := h.apply hc ht hcmd
  have htick := hq.applyAt h.1 (h.effect hreach).1 hcmd
  intro e
  exact ⟨hth ▸ h.topsExact h' htick, h.latestTop_eq hlatest⟩

/-- A modify that crosses trades, rests its rest at another price and owes one top. -/
theorem play_tops_exact_crossing_modify :
    let cmds : List Command := [.submit ⟨1, 1, 5, .ask, .gtc, 0⟩, .submit ⟨2, 0, 9, .bid, .gtc, 0⟩]
    let cmd : Command := .modify { id := 2, newPx := 1, newQty := 9 }
    let e : Engine (List Event) 2 2 .byId := play [] {} .zeroed cmds
    (e.apply cmd).top ≠ e.top ∧ TopsExact true e (e.apply cmd) ∧ latestTop e.pub = e.top :=
  ⟨by decide, play_tops_exact {} .zeroed (by decide) (by decide) _ _ (by decide) (by decide)⟩

end Engine
end Orderbooks
