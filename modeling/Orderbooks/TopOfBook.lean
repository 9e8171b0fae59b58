import Orderbooks.Effects

/-!
# The top of the book and its guard

The last published top and the two presence flags stay accurate: as long as the
dirty flag is down they describe the book. A mutation that leaves the flag down
was guarded, so it happened strictly behind the best price of its side, and the
best price and the quantity there are what they were.
-/
namespace Orderbooks

/-- Best prices and the quantities there, with 0 for a side that is empty. -/
structure Top where
  bidPx : ℕ
  askPx : ℕ
  bidQty : UInt64
  askQty : UInt64
  deriving DecidableEq, Repr

/-- The top of a book given by its best prices and its aggregates. -/
def Top.of (best : Side → Option ℕ) (aggregateAt : Side → ℕ → UInt64) : Top :=
  ⟨(best .bid).getD 0, (best .ask).getD 0, (best .bid).elim 0 (aggregateAt .bid),
    (best .ask).elim 0 (aggregateAt .ask)⟩

def TopMsg.top (m : TopMsg) : Top := ⟨m.bidPx, m.askPx, m.bidQty, m.askQty⟩

def Event.isTop : Event → Bool
  | .top _ => true
  | _ => false

/-- The last published top. -/
def HotState.last (st : HotState) : Top :=
  ⟨st.lastBidPx, st.lastAskPx, st.lastBidQty, st.lastAskQty⟩

def HotState.haveSide (st : HotState) : Side → Bool
  | .bid => st.haveBidSide
  | .ask => st.haveAskSide

namespace Queues

variable {ticks : ℕ} {d d' : Queues ticks} {s t : Side} {p r u : ℕ}

/-- The open quantities at a price, first come first. -/
def quantities (d : Queues ticks) (s : Side) (p : ℕ) : List UInt64 :=
  (d.levels s p).map fun u => (d.orders u).remaining

def top (d : Queues ticks) : Top := .of d.best d.aggregateAt

theorem aggregateAt_eq_sum (d : Queues ticks) (s : Side) (p : ℕ) :
    d.aggregateAt s p = (d.quantities s p).sum := by
  simp only [aggregateAt, ordersAt, quantities, List.map_map]
  rfl

theorem quantities_eq_nil : d.quantities s p = [] ↔ d.levels s p = [] := List.map_eq_nil_iff

/-- The best price only depends on where quantities are open. -/
theorem best_congr (h : ∀ r, d'.quantities s r = [] ↔ d.quantities s r = []) :
    d'.best s = d.best s := by
  unfold best
  congr 1
  funext r
  have := h r
  rw [quantities_eq_nil, quantities_eq_nil] at this
  by_cases hr : d.levels s r = []
  · simp [hr, this.mpr hr]
  · have hr' : d'.levels s r ≠ [] := fun h' => hr (this.mp h')
    rw [List.isEmpty_eq_false_iff.mpr hr, List.isEmpty_eq_false_iff.mpr hr']

theorem top_congr (h : d'.quantities = d.quantities) : d'.top = d.top := by
  have hbest : d'.best = d.best := funext fun s => best_congr fun r => by rw [h]
  have hagg : d'.aggregateAt = d.aggregateAt := by
    funext s r
    rw [aggregateAt_eq_sum, aggregateAt_eq_sum, h]
  rw [top, top, hbest, hagg]

/-- Behind the best price of a side nothing shows. -/
theorem best_of_behind (hd : d.WellFormed) (hd' : d'.WellFormed) (hbest : d.best s = some p)
    (hsame : ∀ r, s.better p r = false → d'.quantities s r = d.quantities s r) :
    d'.best s = some p := by
  have hself : s.better p p = false := by cases s <;> simp [Side.better]
  have hne : d'.levels s p ≠ [] := by
    rw [ne_eq, ← quantities_eq_nil, hsame p hself, quantities_eq_nil]
    exact (best_eq_some.mp hbest).1
  refine Side.IsBest.unique (hd'.isBest_best s) ⟨hne, fun r hr => ?_⟩
  by_contra hb
  have hb : s.better r p = true := by simpa using hb
  have hpr : s.better p r = false := by
    cases s <;> simp only [Side.better, decide_eq_true_eq, decide_eq_false_iff_not] at hb ⊢ <;>
      omega
  refine hr ?_
  rw [← quantities_eq_nil, hsame r hpr, quantities_eq_nil]
  exact better_eq_nil hbest hd hb

end Queues

/-! ## Accurate states -/

open Queues

variable {ticks : ℕ} {st st' : HotState} {d d' : Queues ticks} {s : Side} {px : ℕ}

/-- The last published top and the presence flags describe the book. -/
structure Accurate (st : HotState) (d : Queues ticks) : Prop where
  last : st.last = d.top
  sides : ∀ s, st.haveSide s = (d.best s).isSome
  fresh : st.haveTop = false → ∀ s, d.best s = none

/-- A guarded price lies strictly behind the best price of its side. -/
theorem Accurate.behind_best (h : Accurate st d) (hg : st.affectsTop s px = false) :
    ∃ p, d.best s = some p ∧ s.better p px = true := by
  have hside := h.sides s
  unfold HotState.affectsTop at hg
  split_ifs at hg
  cases s with
  | bid =>
      have hpx : st.lastBidPx = (d.best .bid).getD 0 := congrArg Top.bidPx h.last
      obtain ⟨hhave, hworse⟩ := Bool.or_eq_false_iff.mp hg
      obtain ⟨p, hp⟩ := Option.isSome_iff_exists.mp
        (hside.symm.trans (by simpa [HotState.haveSide] using hhave))
      rw [hp, Option.getD_some] at hpx
      refine ⟨p, hp, ?_⟩
      rw [← hpx]
      simpa [Side.better] using hworse
  | ask =>
      have hpx : st.lastAskPx = (d.best .ask).getD 0 := congrArg Top.askPx h.last
      obtain ⟨hhave, hworse⟩ := Bool.or_eq_false_iff.mp hg
      obtain ⟨p, hp⟩ := Option.isSome_iff_exists.mp
        (hside.symm.trans (by simpa [HotState.haveSide] using hhave))
      rw [hp, Option.getD_some] at hpx
      refine ⟨p, hp, ?_⟩
      rw [← hpx]
      simpa [Side.better] using hworse

/-- Changes at guarded prices leave the top of a side alone. -/
theorem Accurate.side_same (h : Accurate st d) (hd : d.WellFormed) (hd' : d'.WellFormed)
    {touched : List (Side × ℕ)} (hg : ∀ a ∈ touched, st.affectsTop a.1 a.2 = false)
    (hsame : ∀ t r, (t, r) ∉ touched → d'.quantities t r = d.quantities t r) (t : Side) :
    d'.best t = d.best t ∧
      (d'.best t).elim 0 (d'.aggregateAt t) = (d.best t).elim 0 (d.aggregateAt t) := by
  by_cases ht : ∃ r, (t, r) ∈ touched
  · obtain ⟨r₀, hr₀⟩ := ht
    obtain ⟨p, hbest, _⟩ := h.behind_best (hg _ hr₀)
    have hbehind : ∀ r, t.better p r = false → d'.quantities t r = d.quantities t r := by
      intro r hr
      refine hsame t r fun hmem => ?_
      obtain ⟨p', hbest', hb⟩ := h.behind_best (hg _ hmem)
      rw [hbest] at hbest'
      rw [← Option.some.inj hbest', hr] at hb
      exact Bool.noConfusion hb
    have hself : t.better p p = false := by cases t <;> simp [Side.better]
    rw [best_of_behind hd hd' hbest hbehind, hbest]
    refine ⟨rfl, ?_⟩
    simp only [Option.elim, aggregateAt_eq_sum, hbehind p hself]
  · have hall : ∀ r, d'.quantities t r = d.quantities t r := fun r =>
      hsame t r fun hmem => ht ⟨r, hmem⟩
    have hbest : d'.best t = d.best t := best_congr fun r => by rw [hall r]
    have hagg : d'.aggregateAt t = d.aggregateAt t := by
      funext r
      rw [aggregateAt_eq_sum, aggregateAt_eq_sum, hall r]
    rw [hbest, hagg]
    exact ⟨rfl, rfl⟩

theorem Accurate.guarded (h : Accurate st d) (hd : d.WellFormed) (hd' : d'.WellFormed)
    (touched : List (Side × ℕ)) (hg : ∀ a ∈ touched, st.affectsTop a.1 a.2 = false)
    (hsame : ∀ t r, (t, r) ∉ touched → d'.quantities t r = d.quantities t r) :
    Accurate st d' := by
  have key := h.side_same hd hd' hg hsame
  have htop : d'.top = d.top := by
    unfold top Top.of
    rw [(key .bid).2, (key .ask).2, (key .bid).1, (key .ask).1]
  exact ⟨h.last.trans htop.symm, fun s => by rw [(key s).1, h.sides s],
    fun hf s => by rw [(key s).1, h.fresh hf s]⟩

/-- Only the stamp counter and the dirty flag have moved. -/
theorem Accurate.frame (h : Accurate st d)
    (hst : st' = { st with seq := st'.seq, topDirty := st'.topDirty }) : Accurate st' d := by
  rw [hst]
  exact ⟨h.last, fun s => by
    cases s with
    | bid => exact h.sides .bid
    | ask => exact h.sides .ask, h.fresh⟩

/-- Holding tops back changes nothing the state says about the book. -/
theorem Accurate.held (h : Accurate st d) (n : ℕ) :
    Accurate { st with suppressTopDepth := n } d :=
  ⟨h.last, fun s => by
    cases s with
    | bid => exact h.sides .bid
    | ask => exact h.sides .ask, h.fresh⟩

/-- A mark that leaves the flag down was guarded. -/
theorem HotState.markTop_clean {th : Bool} (h : (st.markTop th s px).topDirty = false) :
    st.markTop th s px = st ∧ th = true ∧ st.affectsTop s px = false := by
  unfold markTop at h ⊢
  split_ifs at h ⊢ with hc
  simpa using hc

theorem HotState.markTop_frame (th : Bool) (st : HotState) (s : Side) (px : ℕ) :
    st.markTop th s px = { st with topDirty := (st.markTop th s px).topDirty } := by
  unfold markTop
  split_ifs <;> rfl

theorem HotState.markTop_mono {th : Bool} (h : st.topDirty = true) :
    (st.markTop th s px).topDirty = true := by
  unfold markTop
  split_ifs
  · rfl
  · exact h

/-! ## Between two tops -/

namespace Queues

variable {m : SubmitMsg} {rem qty : UInt64} {u newPx : ℕ}

/-- A change of one order shows at its price only. -/
theorem quantities_congr {t : Side} {r : ℕ} (hlev : d'.levels t r = d.levels t r)
    (hord : ∀ v ∈ d.levels t r, (d'.orders v).remaining = (d.orders v).remaining) :
    d'.quantities t r = d.quantities t r := by
  unfold quantities
  rw [hlev]
  exact List.map_congr_left hord

theorem WellFormed.quantities_setRemaining (hd : d.WellFormed) {t : Side} {r : ℕ}
    (hne : ¬ (t = (d.orders u).s ∧ r = (d.orders u).px)) :
    (d.setRemaining u qty).quantities t r = d.quantities t r :=
  quantities_congr rfl fun v hv => by
    rw [setRemaining_orders, Function.update_of_ne (hd.ne_of_mem hne hv)]

theorem quantities_drop {t : Side} {r : ℕ}
    (hne : ¬ (t = (d.orders u).s ∧ r = (d.orders u).px)) :
    (d.drop u).quantities t r = d.quantities t r :=
  quantities_congr (by
    change (d.unlink u).levels t r = _
    rw [unlink_levels, if_neg hne]) fun _ _ => rfl

theorem WellFormed.quantities_move (hd : d.WellFormed) {t : Side} {r : ℕ} {newQty : UInt64}
    (hne : ¬ (t = (d.orders u).s ∧ r = (d.orders u).px))
    (hne' : ¬ (t = (d.orders u).s ∧ r = newPx)) :
    (d.move u newPx newQty).quantities t r = d.quantities t r := by
  refine quantities_congr ?_ fun v hv => ?_
  · rw [hd.move_levels, if_neg hne']
    exact List.erase_of_not_mem fun hu => hd.ne_of_mem hne hu rfl
  · rw [move_orders, Function.update_of_ne (hd.ne_of_mem hne hv)]

theorem WellFormed.quantities_rest (hd : d.WellFormed) {t : Side} {r : ℕ}
    (hne : ¬ (t = m.s ∧ r = m.px)) : (d.rest m rem).quantities t r = d.quantities t r := by
  refine quantities_congr ?_ fun v hv => ?_
  · rw [rest_levels, if_neg hne]
  · have hv' : v ≠ d.next := fun h => hd.next_notMem t r (h ▸ hv)
    rw [rest_orders, Function.update_of_ne hv']

theorem quantities_rename (newId : UInt64) (t : Side) (r : ℕ) :
    (d.rename u newId).quantities t r = d.quantities t r :=
  quantities_congr rfl fun v _ => by
    by_cases hv : v = u
    · subst hv
      simp
    · simp [hv]

/-- Wearing down one side leaves the other alone. -/
theorem Worn.quantities_of_ne {opp : Side} (h : Worn opp d d') (hd : d.WellFormed)
    {t : Side} (ht : t ≠ opp) (r : ℕ) : d'.quantities t r = d.quantities t r := by
  induction h with
  | refl => rfl
  | decrement hw _ hs _ _ ih =>
      rw [(hw.wellFormed hd).quantities_setRemaining fun h => ht (h.1.trans hs), ih]
  | @drop d' u qty hw _ hs ih =>
      rw [quantities_drop fun h => ht (h.1.trans (by simpa using hs)),
        (hw.wellFormed hd).quantities_setRemaining fun h => ht (h.1.trans hs), ih]

end Queues

namespace PriorityBook

variable {b b₁ b₂ : PriorityBook ticks} {m : SubmitMsg} {rem : UInt64} {u : ℕ}

/-- From `b` to `b₁` no top was published, and what moved was marked. -/
structure Moved (b b₁ : PriorityBook ticks) : Prop where
  log : ∃ evs, b₁.log = b.log ++ evs ∧ ∀ ev ∈ evs, ev.isTop = false
  config : b₁.selfCross = b.selfCross ∧ b₁.topThrottle = b.topThrottle ∧
    b₁.capacity = b.capacity
  frame : b₁.state = { b.state with seq := b₁.state.seq, topDirty := b₁.state.topDirty }
  mono : b.state.topDirty = true → b₁.state.topDirty = true
  accurate : b₁.state.topDirty = false → Accurate b.state b.queues →
    Accurate b₁.state b₁.queues
  quiet : b₁.state.topDirty = false → b.topThrottle = false →
    b₁.queues.quantities = b.queues.quantities

theorem Moved.refl (b : PriorityBook ticks) : Moved b b :=
  ⟨⟨[], by simp, by simp⟩, ⟨rfl, rfl, rfl⟩, rfl, id, fun _ h => h, fun _ _ => rfl⟩

theorem Moved.trans (h : Moved b b₁) (h' : Moved b₁ b₂) : Moved b b₂ := by
  obtain ⟨evs, hlog, hevs⟩ := h.log
  obtain ⟨evs', hlog', hevs'⟩ := h'.log
  have hdown : b₂.state.topDirty = false → b₁.state.topDirty = false := fun hc => by
    by_contra hd
    have := h'.mono (by simpa using hd)
    simp [hc] at this
  refine ⟨⟨evs ++ evs', by rw [hlog', hlog, List.append_assoc], fun ev hev => ?_⟩,
    ⟨h'.config.1.trans h.config.1, h'.config.2.1.trans h.config.2.1,
      h'.config.2.2.trans h.config.2.2⟩, ?_, fun hd => h'.mono (h.mono hd), fun hc ha => ?_,
    fun hc hth => ?_⟩
  · rcases List.mem_append.mp hev with hev | hev
    · exact hevs ev hev
    · exact hevs' ev hev
  · have := h'.frame
    rw [h.frame] at this
    exact this
  · exact h'.accurate hc (h.accurate (hdown hc) ha)
  · rw [h'.quiet hc (h.config.2.1.trans hth), h.quiet (hdown hc) hth]

/-- A change of the queues that raises the flag or is guarded. -/
theorem Moved.marked {f : Queues ticks → Queues ticks} (hd : b.queues.WellFormed)
    (hd' : (f b.queues).WellFormed) (touched : List (Side × ℕ))
    (hst : st = { b.state with topDirty := st.topDirty })
    (hmono : b.state.topDirty = true → st.topDirty = true)
    (hmark : st.topDirty = false →
      ∀ a ∈ touched, b.topThrottle = true ∧ b.state.affectsTop a.1 a.2 = false)
    (hsame : ∀ t r, (t, r) ∉ touched →
      (f b.queues).quantities t r = b.queues.quantities t r) :
    Moved b { b with queues := f b.queues, state := st } := by
  refine ⟨⟨[], by simp, by simp⟩, ⟨rfl, rfl, rfl⟩, ?_, hmono, fun hc ha => ?_, fun hc hth => ?_⟩
  · change st = { b.state with seq := st.seq, topDirty := st.topDirty }
    rw [hst]
  · have hguard := ha.guarded hd hd' touched (fun a hmem => (hmark hc a hmem).2) hsame
    refine hguard.frame ?_
    change st = { b.state with seq := st.seq, topDirty := st.topDirty }
    rw [hst]
  · funext t r
    refine hsame t r fun hmem => ?_
    have := (hmark hc _ hmem).1
    simp [hth] at this

/-- A change that raised the flag. -/
theorem Moved.dirtied (hdirty : b₁.state.topDirty = true)
    (hlog : ∃ evs, b₁.log = b.log ++ evs ∧ ∀ ev ∈ evs, ev.isTop = false)
    (hcfg : b₁.selfCross = b.selfCross ∧ b₁.topThrottle = b.topThrottle ∧
      b₁.capacity = b.capacity)
    (hframe : b₁.state = { b.state with seq := b₁.state.seq, topDirty := b₁.state.topDirty }) :
    Moved b b₁ :=
  ⟨hlog, hcfg, hframe, fun _ => hdirty, fun hc => by simp [hdirty] at hc,
    fun hc => by simp [hdirty] at hc⟩

theorem announce_moved (m : SubmitMsg) (u p : ℕ) (qty : UInt64) :
    Moved b (b.announce m u p qty) := by
  unfold announce
  dsimp only
  split_ifs
  · exact ⟨⟨[_], rfl, by simp [Event.isTop]⟩, ⟨rfl, rfl, rfl⟩, rfl, id,
      fun _ h => h.frame rfl, fun _ _ => rfl⟩
  · refine ⟨⟨[.fill _, .trade _], List.append_assoc _ _ _, by simp [Event.isTop]⟩,
      ⟨rfl, rfl, rfl⟩, rfl, id, fun _ h => h.frame rfl, fun _ _ => rfl⟩

theorem strike_moved (m : SubmitMsg) (p u : ℕ) (b : PriorityBook ticks) (rem : UInt64) :
    Moved b (strike m p u b rem).book := by
  rcases strike_cases m p u b rem with ⟨_, _, hb⟩ | ⟨_, _, hb⟩ | ⟨qty, _, _, _, hb⟩
  · rw [hb]
    exact .refl b
  · rw [hb]
    exact .dirtied rfl ⟨[], by simp [drop, dirty, onQueues], by simp⟩ ⟨rfl, rfl, rfl⟩ rfl
  · have hdec : Moved b ((b.announce m u p qty).decrement u qty) :=
      (announce_moved m u p qty).trans
        (.dirtied rfl ⟨[], by simp [decrement, dirty, onQueues], by simp⟩ ⟨rfl, rfl, rfl⟩ rfl)
    rw [hb]
    split_ifs
    · exact hdec.trans
        (.dirtied rfl ⟨[], by simp [drop, onQueues], by simp⟩ ⟨rfl, rfl, rfl⟩ rfl)
    · exact hdec

theorem sweep_moved (m : SubmitMsg) (rem : UInt64) (hd : b.queues.WellFormed) :
    Moved b (sweep m b rem).book :=
  (sweep_induct (I := fun b' _ => Moved b b')
    (fun b' _ p u _ _ h _ _ _ _ => h.trans (strike_moved m p u b' _)) b rem hd (.refl b)).1

theorem rest_moved (hd : b.queues.WellFormed) (hpx : m.px < ticks) (rem : UInt64) :
    Moved b (b.rest m rem) := by
  by_cases hfull : b.capacity ≤ b.queues.live
  · unfold PriorityBook.rest
    rw [if_pos hfull]
    exact ⟨⟨[_], rfl, by simp [Event.isTop]⟩, ⟨rfl, rfl, rfl⟩, rfl, id, fun _ h => h.frame rfl,
      fun _ _ => rfl⟩
  · have hrest : b.rest m rem =
        { b with
          queues := b.queues.rest m rem
          state := b.state.markTop b.topThrottle m.s m.px } := by
      unfold PriorityBook.rest
      rw [if_neg hfull]
      rfl
    rw [hrest]
    refine .marked (f := fun d => d.rest m rem) hd (hd.rest hpx rem) [(m.s, m.px)]
      (HotState.markTop_frame ..) HotState.markTop_mono (fun hc a ha => ?_) fun t r hne => ?_
    · obtain rfl := List.mem_singleton.mp ha
      exact (HotState.markTop_clean hc).2
    · exact hd.quantities_rest fun h => hne (by simp [h.1, h.2])

/-- A change at the price of one order, marked there. -/
theorem marked_moved {f : Queues ticks → Queues ticks} (hd : b.queues.WellFormed)
    (hd' : (f b.queues).WellFormed) (u : ℕ)
    (hsame : ∀ t r, ¬ (t = (b.order u).s ∧ r = (b.order u).px) →
      (f b.queues).quantities t r = b.queues.quantities t r) :
    Moved b ((b.onQueues f).markTop (b.order u).s (b.order u).px) := by
  refine .marked hd hd' [((b.order u).s, (b.order u).px)] (HotState.markTop_frame ..)
    HotState.markTop_mono (fun hc a ha => ?_) fun t r hne => ?_
  · obtain rfl := List.mem_singleton.mp ha
    exact (HotState.markTop_clean hc).2
  · exact hsame t r fun h => hne (by simp [h.1, h.2])

theorem relink_moved (hd : b.queues.WellFormed) (hu : b.queues.Linked u) {newPx : ℕ}
    (hpx : newPx < ticks) (newQty : UInt64) :
    Moved b (((b.onQueues (·.move u newPx newQty)).markTop (b.order u).s (b.order u).px).markTop
      (b.order u).s newPx) := by
  refine .marked (f := (·.move u newPx newQty)) hd (hd.move hu hpx newQty)
    [((b.order u).s, (b.order u).px), ((b.order u).s, newPx)] ?_
    (fun h => HotState.markTop_mono (HotState.markTop_mono h)) (fun hc a ha => ?_)
    fun t r hne => ?_
  · dsimp only [PriorityBook.markTop, onQueues]
    rw [HotState.markTop_frame, HotState.markTop_frame b.topThrottle b.state]
  · obtain ⟨heq, hth, hg⟩ := HotState.markTop_clean hc
    have hc' : (b.state.markTop b.topThrottle (b.order u).s (b.order u).px).topDirty = false := by
      rw [heq] at hc
      exact hc
    obtain ⟨heq', _, hg'⟩ := HotState.markTop_clean hc'
    rcases List.mem_cons.mp ha with rfl | ha
    · exact ⟨hth, hg'⟩
    · obtain rfl := List.mem_singleton.mp ha
      have hback : ((b.onQueues (·.move u newPx newQty)).markTop (b.order u).s
          (b.order u).px).state = b.state := heq'
      rw [hback] at hg
      exact ⟨hth, hg⟩
  · exact hd.quantities_move (fun h => hne (by simp [h.1, h.2, order]))
      fun h => hne (by simp [h.1, h.2, order])

theorem handleSubmit_moved (hd : b.queues.WellFormed) (hpx : m.px < ticks) :
    Moved b (b.handleSubmit m) := by
  have hsweep := sweep_moved m m.qty hd
  obtain ⟨_, _, _, hwf, _⟩ := sweep_effect m m.qty hd
  unfold handleSubmit
  dsimp only
  split_ifs
  · exact .refl b
  · exact hsweep
  · cases m.t with
    | ioc => exact hsweep
    | fok => exact hsweep
    | gtc => exact hsweep.trans (rest_moved hwf hpx _)

theorem publishTopIfChanged_held (h : b.state.suppressTopDepth ≠ 0) :
    b.publishTopIfChanged = b := by
  unfold publishTopIfChanged HotState.publishTopIfChanged
  split_ifs <;> rfl

theorem publishTopIfChanged_clean (h : b.state.topDirty = false) :
    b.publishTopIfChanged = b := by
  unfold publishTopIfChanged HotState.publishTopIfChanged
  rw [if_pos (by simp [h])]

theorem Moved.unsuppress (h : Moved b.suppress b₁) : Moved b b₁.unsuppress := by
  refine ⟨h.log, h.config, ?_, h.mono, fun hc ha => ?_, h.quiet⟩
  · unfold PriorityBook.unsuppress
    rw [h.frame]
    rfl
  · have := h.accurate hc (ha.held _)
    exact this.held _

end PriorityBook
end Orderbooks
