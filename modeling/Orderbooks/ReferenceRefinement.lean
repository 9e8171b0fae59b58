import Orderbooks.ReferenceMatching
import Orderbooks.RestingBook
import Mathlib.Algebra.BigOperators.Ring.Finset

/-!
# The engine and the reference engine agree

Both refine the priority machine, so they publish the same events and hold the
same books. Two things the reference engine does in its own way remain: its
fill-or-kill precheck adds up orders, where the machine adds up levels, and it
moves an order to another price by cancelling and submitting it, where the
machine relinks it if nothing crosses.
-/
namespace Orderbooks
open Loop Queues Runs

/-! ## What a fill-or-kill order can reach -/

namespace Queues

variable {ticks : ℕ} {d : Queues ticks} {opp : Side} {px : ℕ} {maxQty : UInt64} {cap : ℕ}

/-- The open quantity at those of the prices, best first, that cross. -/
def reach (d : Queues ticks) (opp : Side) (px : ℕ) : List ℕ → ℕ
  | [] => 0
  | p :: ps =>
      if d.levels opp p = [] then d.reach opp px ps
      else if !opp.opposite.crosses px p then 0
      else d.openAt opp p + d.reach opp px ps

theorem reach_le (ps : List ℕ) : d.reach opp px ps ≤ (ps.map (d.openAt opp)).sum := by
  induction ps with
  | nil => exact Nat.le_refl _
  | cons p ps ih =>
      unfold reach
      rw [List.map_cons, List.sum_cons]
      split_ifs <;> omega

theorem sum_priority (s : Side) (f : ℕ → ℕ) :
    ((s.priority ticks).map f).sum = ∑ p ∈ Finset.range ticks, f p := by
  have hrange : ((List.range ticks).map f).sum = ∑ p ∈ Finset.range ticks, f p := rfl
  cases s with
  | bid => rw [Side.priority, List.map_reverse, List.sum_reverse, hrange]
  | ask => exact hrange

/-- Within the capacity nothing an order can reach wraps. -/
theorem Sound.reach_lt (h : d.Sound maxQty) (hd : d.WellFormed) (hcount : d.Counted cap)
    (hcap : cap * maxQty.toNat < 2 ^ 64) (opp : Side) (px : ℕ) :
    d.reach opp px (opp.priority ticks) < 2 ^ 64 := by
  have hlen : ∀ p, (d.levels opp p).length ≤
      (d.levels .bid p).length + (d.levels .ask p).length := fun p => by cases opp <;> omega
  calc d.reach opp px (opp.priority ticks)
      ≤ ((opp.priority ticks).map (d.openAt opp)).sum := reach_le _
    _ = ∑ p ∈ Finset.range ticks, d.openAt opp p := sum_priority opp _
    _ ≤ ∑ p ∈ Finset.range ticks,
          ((d.levels .bid p).length + (d.levels .ask p).length) * maxQty.toNat :=
        Finset.sum_le_sum fun p _ =>
          (h.recordable.openAt_le hd opp p).trans (Nat.mul_le_mul_right _ (hlen p))
    _ = d.count * maxQty.toNat := (Finset.sum_mul ..).symm
    _ ≤ cap * maxQty.toNat := Nat.mul_le_mul_right _ (hcount.live ▸ hcount.le)
    _ < 2 ^ 64 := hcap

end Queues

/-- Where every order counts, the machine's walk finds out whether enough is in reach. -/
theorem PriorityBook.precheckFrom_reach {ticks : ℕ} {b : PriorityBook ticks} {opp : Side}
    {acct : UInt32} (hall : acct = 0 ∨ b.selfCross = .decrementTrade)
    (hagg : ∀ p, (b.queues.aggregateAt opp p).toNat = b.queues.openAt opp p) (px : ℕ)
    (want : UInt64) (ps : List ℕ)
    (c : Engine.Precheck) (hlt : c.total.toNat + b.queues.reach opp px ps < 2 ^ 64) :
    (b.precheckFrom opp px want acct ps c).aborted = c.aborted ∧
      (want ≤ (b.precheckFrom opp px want acct ps c).total ↔
        want.toNat ≤ c.total.toNat + b.queues.reach opp px ps) := by
  induction ps generalizing c with
  | nil => exact ⟨rfl, UInt64.le_iff_toNat_le⟩
  | cons p ps ih =>
      unfold reach at hlt ⊢
      unfold precheckFrom
      split_ifs at hlt ⊢ with hnil hcross
      · exact ih c hlt
      · exact ⟨rfl, UInt64.le_iff_toNat_le⟩
      · have htotal : (c.total + b.queues.aggregateAt opp p).toNat =
            c.total.toNat + b.queues.openAt opp p := by
          rw [UInt64.toNat_add, hagg, Nat.mod_eq_of_lt (by omega)]
        unfold consumeLevel
        rw [if_pos hall]
        dsimp only
        by_cases hstop : want ≤ c.total + b.queues.aggregateAt opp p
        · rw [if_pos (by simpa using hstop)]
          refine ⟨rfl, iff_of_true hstop ?_⟩
          have := UInt64.le_iff_toNat_le.mp hstop
          omega
        · rw [if_neg (by simpa using hstop)]
          have := ih { c with total := c.total + b.queues.aggregateAt opp p }
          rw [htotal, Nat.add_assoc] at this
          exact this hlt

/-- What a machine between commands in their domains is known to be. -/
structure PriorityBook.Steady {ticks : ℕ} (maxQty : UInt64) (b : PriorityBook ticks) : Prop where
  wf : b.queues.WellFormed
  quiet : Quiet b
  sound : b.queues.Sound maxQty
  counted : b.queues.Counted b.capacity
  cap : b.capacity * maxQty.toNat < 2 ^ 64

theorem Engine.Refines.steady_applyAt {P : Type} [Publisher P] {ticks maxOrders : ℕ}
    {lookup : OrderLookup} {p0 : P} {e : Engine P ticks maxOrders lookup} {b : PriorityBook ticks}
    {maxQty : UInt64} {cmd : Command} {target : Option ℕ} (h : e.Refines p0 b)
    (hb : b.Steady maxQty) (hdom : cmd.InDomain ticks maxQty)
    (hreach : b.Reaches lookup cmd target) (h' : (e.apply cmd).Refines p0 (b.applyAt target cmd)) :
    (b.applyAt target cmd).Steady maxQty := by
  obtain ⟨hu, heffect⟩ := h.effect hreach
  have hcap : (b.applyAt target cmd).capacity = b.capacity := by rw [h.capacity, h'.capacity]
  refine ⟨h'.1, (hb.quiet.applyAt hb.wf hu hdom.inRange).quiet,
    hb.sound.effect hb.wf hu hdom heffect, ?_, hcap ▸ hb.cap⟩
  rw [hcap]
  exact hb.counted.effect hb.wf hu hdom.inRange (h.capacity ▸ heffect)

/-! ## A cancel and a submit that cross nothing are a move -/

theorem HotState.markTop_hold (st : HotState) (k : ℕ) (throttle : Bool) (s : Side) (px : ℕ) :
    ({ st with suppressTopDepth := k } : HotState).markTop throttle s px =
      { st.markTop throttle s px with suppressTopDepth := k } := by
  unfold HotState.markTop HotState.affectsTop
  split_ifs <;> rfl

namespace PriorityBook

variable {ticks : ℕ} {b : PriorityBook ticks} {u newPx : ℕ} {newQty maxQty : UInt64}

theorem Steady.chained (h : b.Steady maxQty) (hu : b.queues.Linked u) {m : ModifyMsg}
    (hnew : m.newId ≠ emptyKey) : (b.onQueues (·.chained u m)).Steady maxQty := by
  refine ⟨h.wf.chained hu m, ⟨h.quiet.clean, h.quiet.released, ?_⟩, h.sound.chained hu hnew,
    h.counted.chained u m, h.cap⟩
  unfold Queues.chained
  split_ifs
  · exact (rename_moved h.wf hu m.newId).accurate h.quiet.clean h.quiet.accurate
  · exact h.quiet.accurate

/-- An order cancelled and submitted again where nothing trades with it. -/
theorem handleSubmit_withdrawn (hb : b.Steady maxQty) (hu : b.queues.Linked u)
    (hqty : newQty ≠ 0) (hclear : b.queues.Clear (b.order u).s newPx) :
    ((b.withdrawn u).handleSubmit (b.queues.asSubmit u newPx newQty)).unsuppress =
      { ((b.onQueues (·.move u newPx newQty)).markTop (b.order u).s (b.order u).px).markTop
          (b.order u).s newPx with
        queues := (b.queues.drop u).rest (b.queues.asSubmit u newPx newQty) newQty } := by
  have hwf : (b.withdrawn u).queues.WellFormed := hb.wf.drop u
  have hhalt : Halted (b.queues.asSubmit u newPx newQty) (b.withdrawn u) newQty := by
    right
    cases hbest : (b.withdrawn u).queues.best (b.queues.asSubmit u newPx newQty).s.opposite with
    | none => exact .inl rfl
    | some p =>
        refine .inr ⟨p, rfl, hclear p fun hnil => (best_eq_some.mp hbest).1 ?_⟩
        change (b.queues.unlink u).levels _ p = []
        rw [hb.wf.unlink_levels_eq_erase]
        change (b.queues.levels (b.order u).s.opposite p).erase u = []
        rw [hnil]
        rfl
  have hroom : ¬(b.withdrawn u).capacity ≤ (b.withdrawn u).queues.live := by
    have hle := hb.counted.le
    have hpos : 0 < b.queues.live := by
      rw [hb.counted.live, count_unlink hb.wf hu]
      exact Nat.succ_pos _
    change ¬b.capacity ≤ b.queues.live - 1
    omega
  have hgtc : (b.queues.asSubmit u newPx newQty).t = .gtc := (hb.sound u hu).gtc
  have hsubmit : (b.withdrawn u).handleSubmit (b.queues.asSubmit u newPx newQty) =
      (b.withdrawn u).rest (b.queues.asSubmit u newPx newQty) newQty := by
    unfold handleSubmit
    rw [if_neg (by simp [hgtc]), show (b.queues.asSubmit u newPx newQty).qty = newQty from rfl,
      sweep_stop hwf hhalt]
    dsimp only
    rw [if_neg hqty, hgtc]
  rw [hsubmit]
  unfold PriorityBook.rest
  rw [if_neg hroom]
  unfold withdrawn suppress unsuppress PriorityBook.markTop onQueues PriorityBook.drop asSubmit
  simp only [onQueues, HotState.markTop_hold, Nat.add_sub_cancel]
  rw [HotState.markTop_frame, HotState.markTop_frame b.topThrottle b.state]
  rfl

end PriorityBook

namespace ReferenceEngine

/-- A modify to another price, up to the top it publishes at its end. -/
def replaced (r : ReferenceEngine) (o : Order) (newPx : ℕ) (newQty : UInt64) : ReferenceEngine :=
  let r : ReferenceEngine := { r with suppressTopDepth := r.suppressTopDepth + 1 }
  let r := r.onCancel o.id
  let r := r.onSubmit ⟨o.id, newPx, newQty, o.s, o.t, o.accountId⟩
  { r with suppressTopDepth := r.suppressTopDepth - 1 }

/-- Where every order counts, a level worked through adds all it holds. -/
theorem consumeLevel_all (pol : SelfCrossPolicy) (want : UInt64) (acct : UInt32)
    (os : List Order) (c : Engine.Precheck)
    (hlt : c.total.toNat + (os.map fun o => o.remaining.toNat).sum < 2 ^ 64) :
    let k := consumeLevel true pol want acct os c
    k.2.aborted = c.aborted ∧
      (k.1 = true → want ≤ k.2.total ∧
        k.2.total.toNat ≤ c.total.toNat + (os.map fun o => o.remaining.toNat).sum) ∧
      (k.1 = false →
        k.2.total.toNat = c.total.toNat + (os.map fun o => o.remaining.toNat).sum) := by
  induction os generalizing c with
  | nil => exact ⟨rfl, fun h => by simp [consumeLevel] at h, fun _ => rfl⟩
  | cons o os ih =>
      rw [List.map_cons, List.sum_cons] at hlt
      have htotal : (c.total + o.remaining).toNat = c.total.toNat + o.remaining.toNat := by
        rw [UInt64.toNat_add, Nat.mod_eq_of_lt (by omega)]
      unfold consumeLevel
      simp only [Bool.not_true, Bool.false_and, Bool.false_eq_true, if_false]
      rw [List.map_cons, List.sum_cons]
      by_cases hstop : want ≤ c.total + o.remaining
      · rw [if_pos hstop]
        refine ⟨rfl, fun _ => ⟨hstop, ?_⟩, fun h => by simp at h⟩
        rw [htotal]
        omega
      · rw [if_neg hstop]
        have := ih { c with total := c.total + o.remaining }
        dsimp only at this
        rw [htotal] at this
        obtain ⟨hab, hyes, hno⟩ := this (by omega)
        refine ⟨hab, fun h => ⟨(hyes h).1, ?_⟩, fun h => ?_⟩
        · have := (hyes h).2
          omega
        · have := hno h
          omega

/-- Where own orders do not count, a level is worked through as the engine does it. -/
theorem consumeLevel_own (pol : SelfCrossPolicy) (want : UInt64) (acct : UInt32)
    (os : List Order) (c : Engine.Precheck) :
    consumeLevel false pol want acct os c = Engine.consumeFifo pol want acct os c := by
  induction os generalizing c with
  | nil => rfl
  | cons o os ih =>
      unfold consumeLevel Engine.consumeFifo
      simp only [Bool.not_false, Bool.true_and, decide_eq_true_eq, ih]

namespace Represents

variable {ticks : ℕ} {r r' : ReferenceEngine} {b b' : PriorityBook ticks} {tag : ℕ → ℕ}
  {pop : Side → Set ℕ} {s : Side} {px : ℕ} {m : SubmitMsg} {want : UInt64} {acct : UInt32}
  {maxQty : UInt64}

theorem map_nodes_eq (h : r.Represents b tag pop) (s : Side) (p : ℕ) :
    (r.fifo s p).map r.nodes = b.queues.ordersAt s p := by
  unfold Queues.ordersAt
  rw [h.book.level, List.map_map]
  exact List.map_congr_left fun x hx => h.node_eq ⟨s, p, hx⟩

/-- A map is iterated over the populated prices, best first. -/
theorem entries_eq (h : r.Represents b tag b.queues.populated) (hd : b.queues.WellFormed)
    (s : Side) : (r.books s).entries =
      ((s.priority ticks).filter fun p => !(b.queues.levels s p).isEmpty).map
        fun p => (p, r.fifo s p) := by
  have hsome : ∀ p, ((r.books s).find? p).isSome = !(b.queues.levels s p).isEmpty := fun p => by
    rw [Bool.eq_iff_iff, h.book.listed]
    simp [Queues.populated]
  have hkeys := OrderedMap.keys_eq_filter (m := r.books s) (s.pairwise_priority ticks)
    fun p hp => s.mem_priority.mpr (hd.lt_of_ne_nil ((h.book.listed s p).mp hp))
  simp only [hsome] at hkeys
  rw [← hkeys, List.map_map]
  refine (List.map_id _).symm.trans (List.map_congr_left fun a ha => ?_)
  have hfind := OrderedMap.mem_entries.mp (show (a.1, a.2) ∈ _ from ha)
  simp [fifo, hfind]

/-- The walk, where own orders do not count. -/
theorem walkLevels_own (h : r.Represents b tag b.queues.populated)
    (hown : ¬(acct = 0 ∨ b.selfCross = .decrementTrade)) (ps : List ℕ) (c : Engine.Precheck) :
    r.walkLevels s px want acct
      ((ps.filter fun p => !(b.queues.levels s.opposite p).isEmpty).map
        fun p => (p, r.fifo s.opposite p)) c =
      b.precheckFrom s.opposite px want acct ps c := by
  induction ps generalizing c with
  | nil => rfl
  | cons p ps ih =>
      unfold PriorityBook.precheckFrom
      by_cases hnil : b.queues.levels s.opposite p = []
      · rw [if_pos hnil, ← ih]
        simp [hnil]
      · rw [if_neg hnil, List.filter_cons_of_pos (by simpa using hnil), List.map_cons]
        unfold walkLevels PriorityBook.consumeLevel
        simp only [h.selfCross, hown, decide_false, consumeLevel_own, h.map_nodes_eq,
          Side.opposite_opposite, if_false, ih]

/-- The walk, where every order counts. -/
theorem walkLevels_all (h : r.Represents b tag b.queues.populated)
    (hall : acct = 0 ∨ b.selfCross = .decrementTrade) (s : Side) (px : ℕ) (want : UInt64)
    (ps : List ℕ) (c : Engine.Precheck)
    (hlt : c.total.toNat + b.queues.reach s.opposite px ps < 2 ^ 64) :
    let k := r.walkLevels s px want acct
      ((ps.filter fun p => !(b.queues.levels s.opposite p).isEmpty).map
        fun p => (p, r.fifo s.opposite p)) c
    k.aborted = c.aborted ∧
      (want ≤ k.total ↔ want.toNat ≤ c.total.toNat + b.queues.reach s.opposite px ps) := by
  induction ps generalizing c with
  | nil => exact ⟨rfl, UInt64.le_iff_toNat_le⟩
  | cons p ps ih =>
      unfold Queues.reach at hlt ⊢
      by_cases hnil : b.queues.levels s.opposite p = []
      · rw [if_pos hnil] at hlt ⊢
        rw [List.filter_cons_of_neg (by simp [hnil])]
        exact ih c hlt
      · rw [if_neg hnil] at hlt ⊢
        rw [List.filter_cons_of_pos (by simpa using hnil), List.map_cons]
        unfold walkLevels
        simp only [h.selfCross, hall, decide_true, h.map_nodes_eq]
        rw [Side.opposite_opposite] at hlt ⊢
        by_cases hcross : (!s.crosses px p) = true
        · rw [if_pos hcross, if_pos hcross]
          exact ⟨rfl, UInt64.le_iff_toNat_le⟩
        · rw [if_neg hcross] at hlt ⊢
          rw [if_neg hcross]
          have hlevel := consumeLevel_all b.selfCross want acct
            (b.queues.ordersAt s.opposite p) c (by unfold Queues.openAt at hlt; omega)
          generalize consumeLevel true b.selfCross want acct
            (b.queues.ordersAt s.opposite p) c = k at hlevel
          obtain ⟨stop, c'⟩ := k
          obtain ⟨hab, hyes, hno⟩ := hlevel
          rw [show ((b.queues.ordersAt s.opposite p).map fun o => o.remaining.toNat).sum =
            b.queues.openAt s.opposite p from rfl] at hyes hno
          dsimp only at hab hyes hno ⊢
          cases stop with
          | true =>
              obtain ⟨hwant, hle⟩ := hyes rfl
              refine ⟨hab, iff_of_true hwant ?_⟩
              have := UInt64.le_iff_toNat_le.mp hwant
              omega
          | false =>
              have htotal := hno rfl
              have := ih c' (by omega)
              dsimp only at this
              rw [htotal, Nat.add_assoc, hab] at this
              exact this

/-- The precheck counts orders, the machine's levels, to the same verdict. -/
theorem canFullyFill_eq (h : r.Represents b tag b.queues.populated) (hd : b.queues.WellFormed)
    (hs : b.queues.Sound maxQty) (hcount : b.queues.Counted b.capacity)
    (hcap : b.capacity * maxQty.toNat < 2 ^ 64) :
    r.canFullyFill s px want acct = b.canFullyFill s.opposite px want acct := by
  unfold ReferenceEngine.canFullyFill PriorityBook.canFullyFill
  rw [h.entries_eq hd]
  by_cases hall : acct = 0 ∨ b.selfCross = .decrementTrade
  · have hlt := hs.reach_lt hd hcount hcap s.opposite px
    obtain ⟨hab, hle⟩ := h.walkLevels_all hall s px want
      (s.opposite.priority ticks) {} (by simpa using hlt)
    obtain ⟨hab', hle'⟩ := PriorityBook.precheckFrom_reach hall
      (fun p => hs.recordable.aggregateAt_toNat hd hcount hcap s.opposite p) px want
      (s.opposite.priority ticks) {} (by simpa using hlt)
    dsimp only
    rw [hab, hab']
    simp only [hle, hle']
  · dsimp only
    rw [h.walkLevels_own hall]

/-! ## Commands -/

/-- A new order rests, or is turned away. -/
theorem rest (h : r.Represents b tag b.queues.populated) (hd : b.queues.WellFormed)
    (hid : b.queues.Absent m.id) (rem : UInt64) :
    ∃ tag', (r.rest m rem).Represents (b.rest m rem) tag' (b.rest m rem).queues.populated := by
  unfold ReferenceEngine.rest
  by_cases hfull : b.capacity ≤ b.queues.live
  · rw [if_pos (by rwa [h.capacity, h.book.sized])]
    have hrest : b.rest m rem = { b.bumpSeq with log := b.log ++
        [.reject ⟨m.id, m.accountId, m.px, rem, .arenaFull, b.state.seq + 1⟩] } := if_pos hfull
    rw [hrest]
    refine ⟨tag, ?_⟩
    apply h.publish
    · rfl
    · rfl
    · exact h.book.relist (fun _ _ => rfl) h.book.listed rfl rfl rfl
    have hstreams : r.streams = .of b.log := congrArg Control.streams h.control
    rw [Streams.of_append, ← hstreams, ← h.seq]
    rfl
  · rw [if_neg (by rwa [h.capacity, h.book.sized])]
    have hrest : b.rest m rem = (b.onQueues (·.rest m rem)).markTop m.s m.px := if_neg hfull
    rw [hrest]
    refine ⟨Function.update tag r.nextNode b.queues.next, ?_⟩
    dsimp only
    refine mark ?_ m.s m.px
    refine h.withBook ?_ ?_ (h.book.rest hd hid ?_ ?_ ?_ ?_) <;> rfl

theorem handle (h : r.Represents b tag b.queues.populated) (hd : b.queues.WellFormed)
    (hs : b.queues.Sound maxQty) (hcount : b.queues.Counted b.capacity)
    (hcap : b.capacity * maxQty.toNat < 2 ^ 64) (hid : b.queues.Absent m.id) :
    ∃ tag', (r.handle m).Represents (b.handleSubmit m) tag'
      (b.handleSubmit m).queues.populated := by
  unfold ReferenceEngine.handle PriorityBook.handleSubmit
  rw [h.canFullyFill_eq hd hs hcount hcap]
  split_ifs with hkill
  · exact ⟨tag, h⟩
  have hmatch := h.matchOpposite (m := m) hd
  have hworn := (PriorityBook.sweep_effect m m.qty hd).1
  have hrem : (ReferenceEngine.matchOpposite m r).remaining =
      (PriorityBook.sweep m b m.qty).remaining := hmatch.remaining
  dsimp only
  rw [hrem]
  split_ifs with hz
  · exact ⟨tag, hmatch.rep⟩
  cases m.t with
  | ioc => exact ⟨tag, hmatch.rep⟩
  | fok => exact ⟨tag, hmatch.rep⟩
  | gtc => exact hmatch.rep.rest hmatch.wf (hid.worn hworn hd) _

/-- The record a node holds leaves the book. -/
theorem erase (h : r.Represents b tag b.queues.populated) (hd : b.queues.WellFormed) {x : ℕ}
    {id : UInt64} (hx : r.idx.lookup id = some x) :
    ((r.setIdx (r.idx.erase id)).eraseFrom x).dirty.Represents
      ((b.drop (tag x)).markTop (b.order (tag x)).s (b.order (tag x)).px) tag
      (b.drop (tag x)).queues.populated := by
  have hheld := h.book.named id x hx
  have hmem := h.book.mem_fifo hd hheld
  obtain ⟨l, hl⟩ := Option.isSome_iff_exists.mp
    ((h.book.listed_iff rfl _ _).mpr (List.ne_nil_of_mem hmem))
  have hdef : (r.setIdx (r.idx.erase id)).eraseFrom x =
      (((r.setIdx (r.idx.erase id)).onFifo (r.nodes x).s (r.nodes x).px (·.erase x)).dropIfEmpty
        (r.nodes x).s (r.nodes x).px) := by
    have hl' : ((r.setIdx (r.idx.erase id)).books ((r.setIdx (r.idx.erase id)).nodes x).s).find?
        ((r.setIdx (r.idx.erase id)).nodes x).px = some l := hl
    unfold eraseFrom
    simp only [hl']
    rfl
  have herase := h.eraseNode hd hmem (f := (·.erase x)) rfl
  rw [h.book.lookup_node hd hx] at herase
  rw [hdef]
  refine mark (herase.dropIfEmpty fun t => ?_) _ _
  -- the price was listed, and every other level is as before
  have hnode := h.node_eq hheld
  have hlev : ∀ t q, ¬(t = (r.nodes x).s ∧ q = (r.nodes x).px) →
      (q ∈ b.queues.populated t ↔ q ∈ (b.drop (tag x)).queues.populated t) := fun t q hne => by
    change _ ↔ (b.queues.unlink (tag x)).levels t q ≠ []
    rw [unlink_levels, if_neg]
    · rfl
    · rwa [hnode] at hne
  ext q
  split_ifs with ht
  · by_cases hq : q = (r.nodes x).px
    · rw [hq, ht]
      refine iff_of_true ?_ (Set.mem_insert _ _)
      exact List.ne_nil_of_mem (h.book.mem_levels hmem)
    · rw [Set.mem_insert_iff, or_iff_right hq]
      exact hlev t q fun hat => hq hat.2
  · exact hlev t q fun hat => ht hat.1

theorem onCancel (h : r.Represents b tag b.queues.populated) (hd : b.queues.WellFormed)
    (hq : PriorityBook.Quiet b) (id : UInt64) :
    (r.onCancel id).Represents ((b.queues.index id).elim b b.cancelAt) tag
      ((b.queues.index id).elim b b.cancelAt).queues.populated := by
  unfold ReferenceEngine.onCancel
  rw [h.book.index]
  cases hx : r.idx.lookup id with
  | none => exact h
  | some x =>
      have hmoved := PriorityBook.drop_moved hd (tag x)
      have := (h.erase hd hx).publishTop (hd.drop (tag x)) fun hc => hmoved.accurate hc hq.accurate
      simpa [PriorityBook.cancelAt] using this

theorem onSubmit (h : r.Represents b tag b.queues.populated) (hb : b.Steady maxQty)
    (hpx : m.px < ticks) (hid : b.queues.Absent m.id) :
    ∃ tag', (r.onSubmit m).Represents (b.onSubmit m) tag' (b.onSubmit m).queues.populated := by
  obtain ⟨tag', h'⟩ := h.handle hb.wf hb.sound hb.counted hb.cap hid
  have hwf := (PriorityBook.handleSubmit_effect m hb.wf).wellFormed hb.wf hpx
  have hmoved := PriorityBook.handleSubmit_moved (m := m) hb.wf hpx
  refine ⟨tag', ?_⟩
  have := h'.publishTop hwf fun hc => hmoved.accurate hc hb.quiet.accurate
  simpa [PriorityBook.onSubmit, ReferenceEngine.onSubmit] using this

/-- While a composite runs nothing is published. -/
theorem publishTop_of_moved (h : r.Represents b' tag pop)
    (hmoved : PriorityBook.Moved b.suppress b') : r.publishTop = r := by
  refine publishTop_held ?_
  rw [h.held, hmoved.frame]
  exact Nat.succ_ne_zero _

/-- A cancel and a submit, up to the one top they publish together. -/
theorem resubmitted (h : r.Represents b tag b.queues.populated) (hb : b.Steady maxQty) {x : ℕ}
    (hx : r.Held x) {newPx : ℕ} (hpx : newPx < ticks) (newQty : UInt64) :
    ∃ tag', (r.replaced (r.nodes x) newPx newQty).Represents
      ((b.withdrawn (tag x)).handleSubmit (b.queues.asSubmit (tag x) newPx newQty)).unsuppress tag'
      ((b.withdrawn (tag x)).handleSubmit
        (b.queues.asSubmit (tag x) newPx newQty)).queues.populated := by
  have hu := h.book.linked hb.wf hx
  have hhold := h.hold
  have hlookup : ({ r with suppressTopDepth := r.suppressTopDepth + 1 } :
      ReferenceEngine).idx.lookup (r.nodes x).id = some x := h.book.lookup_id hb.wf hx
  have herase := hhold.erase hb.wf hlookup
  have hmoved : PriorityBook.Moved b.suppress (b.withdrawn (tag x)) :=
    PriorityBook.drop_moved (b := b.suppress) hb.wf (tag x)
  have hcancel : ({ r with suppressTopDepth := r.suppressTopDepth + 1 } :
      ReferenceEngine).onCancel (r.nodes x).id = (((({ r with
        suppressTopDepth := r.suppressTopDepth + 1 } : ReferenceEngine).setIdx
          (r.idx.erase (r.nodes x).id)).eraseFrom x).dirty) := by
    unfold ReferenceEngine.onCancel
    rw [hlookup]
    exact publishTop_of_moved herase hmoved
  have hasSubmit : (⟨(r.nodes x).id, newPx, newQty, (r.nodes x).s, (r.nodes x).t,
      (r.nodes x).accountId⟩ : SubmitMsg) = b.queues.asSubmit (tag x) newPx newQty := by
    rw [h.node_eq hx]
    rfl
  obtain ⟨tag', h'⟩ := Represents.handle (b := b.withdrawn (tag x)) (m := b.queues.asSubmit (tag x)
    newPx newQty) herase (hb.wf.drop (tag x)) (hb.sound.drop hb.wf (tag x))
    (hb.counted.drop hb.wf hu) hb.cap (h.book.exact.absent_drop hb.wf hu)
  refine ⟨tag', ?_⟩
  unfold replaced
  dsimp only
  rw [hcancel, hasSubmit]
  unfold ReferenceEngine.onSubmit
  rw [publishTop_of_moved h' (PriorityBook.resubmit_moved hb.wf hpx)]
  exact h'.release

theorem requantify (h : r.Represents b tag b.queues.populated) (hb : b.Steady maxQty) {x : ℕ}
    (hx : r.Held x) (newQty : UInt64) :
    ((r.setNode x { r.nodes x with remaining := newQty }).dirty.publishTop).Represents
      (b.requantify (tag x) newQty) tag (b.requantify (tag x) newQty).queues.populated := by
  have hset : (r.setNode x { r.nodes x with remaining := newQty }).Represents
      (b.onQueues (·.setRemaining (tag x) newQty)) tag b.queues.populated :=
    h.withBook rfl rfl (h.book.setRemaining hx rfl _)
  have hwf : (b.queues.setRemaining (tag x) newQty).WellFormed := hb.wf.setRemaining _ _
  have hmoved := PriorityBook.marked_moved (f := (·.setRemaining (tag x) newQty)) hb.wf hwf (tag x)
    fun t q hne => hb.wf.quantities_setRemaining hne
  have := (hset.mark (b.order (tag x)).s (b.order (tag x)).px).publishTop hwf
    fun hc => hmoved.accurate hc hb.quiet.accurate
  simpa [PriorityBook.requantify] using this

/-- The order that entered again under a new number is the one that moved. -/
theorem moved (hb : b.Steady maxQty) {u newPx : ℕ} {newQty : UInt64} (hu : b.queues.Linked u)
    (hexact : b.queues.Exact) (hpx : newPx < ticks)
    (h : r.Stores ((b.queues.drop u).rest (b.queues.asSubmit u newPx newQty) newQty) tag
      ((b.queues.drop u).rest (b.queues.asSubmit u newPx newQty) newQty).populated) :
    ∃ tag', r.Stores (b.queues.move u newPx newQty) tag'
      (b.queues.move u newPx newQty).populated := by
  have hd := hb.wf
  have hwf : ((b.queues.drop u).rest (b.queues.asSubmit u newPx newQty) newQty).WellFormed :=
    (hd.drop u).rest hpx newQty
  have hnext : ∀ v, b.queues.Linked v → v ≠ b.queues.next := fun v hv heq =>
    hd.next_notMem _ _ (heq ▸ hv)
  have hne : ∀ {v}, v ≠ b.queues.next → Function.update id b.queues.next u v = v := fun hv =>
    Function.update_of_ne hv _ _
  have hlinked : ∀ v, ((b.queues.drop u).rest (b.queues.asSubmit u newPx newQty) newQty).Linked v ↔
      (b.queues.Linked v ∧ v ≠ u) ∨ v = b.queues.next := fun v =>
    ((hd.drop u).linked_rest _ _).trans (or_congr_left hd.linked_drop)
  have hlevels : ∀ s p, (b.queues.move u newPx newQty).levels s p =
      (((b.queues.drop u).rest (b.queues.asSubmit u newPx newQty) newQty).levels s p).map
        (Function.update id b.queues.next u) := by
    intro s p
    have hmap : ((b.queues.levels s p).erase u).map (Function.update id b.queues.next u) =
        (b.queues.levels s p).erase u := by
      refine (List.map_congr_left fun v hv => ?_).trans (List.map_id _)
      exact hne (hnext v (hd.linked (List.mem_of_mem_erase hv)))
    rw [hd.move_levels, rest_levels, show (b.queues.drop u).levels s p =
      (b.queues.levels s p).erase u from hd.unlink_levels_eq_erase]
    change (if s = (b.queues.orders u).s ∧ p = newPx then _ else _) = List.map _
      (if s = (b.queues.orders u).s ∧ p = newPx then _ ++ [b.queues.next] else _)
    split_ifs
    · rw [List.map_append, hmap, List.map_singleton, Function.update_self]
    · exact hmap.symm
  have hpop : (b.queues.move u newPx newQty).populated =
      ((b.queues.drop u).rest (b.queues.asSubmit u newPx newQty) newQty).populated := by
    funext s
    ext p
    change (b.queues.move u newPx newQty).levels s p ≠ [] ↔ _ ≠ []
    rw [hlevels, ne_eq, List.map_eq_nil_iff]
  rw [hpop]
  refine ⟨_, h.renumber hwf (Function.update id b.queues.next u) hlevels (fun v hv => ?_)
    (fun v w hv hw heq => ?_) (fun k => ?_) ?_ (hexact.move hd hu newPx newQty)⟩
  · rw [move_orders, rest_orders]
    rcases (hlinked v).mp hv with ⟨hv, hvu⟩ | rfl
    · rw [hne (hnext v hv), Function.update_of_ne hvu]
      exact (Function.update_of_ne (hnext v hv) _ _).symm
    · rw [Function.update_self, Function.update_self]
      change _ = Function.update b.queues.orders b.queues.next _ b.queues.next
      rw [Function.update_self]
      rfl
  · rcases (hlinked v).mp hv with ⟨hv, hvu⟩ | rfl <;> rcases (hlinked w).mp hw with ⟨hw, hwu⟩ | rfl
    · rwa [hne (hnext v hv), hne (hnext w hw)] at heq
    · rw [hne (hnext v hv), Function.update_self] at heq
      exact absurd heq hvu
    · rw [Function.update_self, hne (hnext w hw)] at heq
      exact absurd heq.symm hwu
    · rfl
  · change b.queues.index k = (Function.update (Function.update b.queues.index
      (b.queues.orders u).id none) (b.queues.orders u).id (some b.queues.next) k).map _
    by_cases hk : k = (b.queues.orders u).id
    · rw [hk, Function.update_self, Option.map_some, Function.update_self]
      exact hexact u hu
    · rw [Function.update_of_ne hk, Function.update_of_ne hk]
      cases hi : b.queues.index k with
      | none => rfl
      | some v => rw [Option.map_some, hne (hnext v (hd.indexed k v hi).1)]
  · have hpos : 0 < b.queues.live := by
      rw [hb.counted.live, count_unlink hd hu]
      exact Nat.succ_pos _
    change b.queues.live = b.queues.live - 1 + 1
    omega

/-- The price and quantity branches of a modify. -/
theorem reprice (h : r.Represents b tag b.queues.populated) (hb : b.Steady maxQty) {x : ℕ}
    (hx : r.Held x) {newPx : ℕ} (hpx : newPx < ticks) {newQty : UInt64} (hqty : newQty ≠ 0) :
    ∃ tag', (r.reprice x newPx newQty).Represents (b.reprice (tag x) newPx newQty) tag'
      (b.reprice (tag x) newPx newQty).queues.populated := by
  have hnode := h.node_eq hx
  have hu := h.book.linked hb.wf hx
  obtain ⟨tag', hrep⟩ := h.resubmitted hb hx hpx newQty
  -- where nothing crosses, cancelling and submitting comes to a move
  have hrelink : b.queues.Clear (b.order (tag x)).s newPx →
      ∃ tag', (r.replaced (r.nodes x) newPx newQty).publishTop.Represents
        (b.relink (tag x) newPx newQty) tag' (b.relink (tag x) newPx newQty).queues.populated := by
    intro hclear
    rw [show ((b.withdrawn (tag x)).handleSubmit (b.queues.asSubmit (tag x) newPx newQty)).queues =
      ((b.withdrawn (tag x)).handleSubmit
        (b.queues.asSubmit (tag x) newPx newQty)).unsuppress.queues from rfl,
      PriorityBook.handleSubmit_withdrawn hb hu hqty hclear] at hrep
    obtain ⟨tag₂, hbook⟩ := moved hb hu h.book.exact hpx hrep.book
    have hmoved := PriorityBook.relink_moved hb.wf hu hpx newQty
    have := Represents.publishTop (b := ((b.onQueues (·.move (tag x) newPx newQty)).markTop
      (b.order (tag x)).s (b.order (tag x)).px).markTop (b.order (tag x)).s newPx)
      ⟨hrep.control, hrep.dirty, hrep.guarded, hbook⟩ (hb.wf.move hu hpx newQty)
      fun hc => hmoved.accurate hc hb.quiet.accurate
    exact ⟨tag₂, by simpa [PriorityBook.relink] using this⟩
  have hresubmit : ∃ tag', (r.replaced (r.nodes x) newPx newQty).publishTop.Represents
      (b.resubmit (tag x) newPx newQty) tag'
      (b.resubmit (tag x) newPx newQty).queues.populated := by
    have hmoved : PriorityBook.Moved b ((b.withdrawn (tag x)).handleSubmit
        (b.queues.asSubmit (tag x) newPx newQty)).unsuppress :=
      (PriorityBook.resubmit_moved hb.wf hpx).unsuppress
    have hwf := (PriorityBook.handleSubmit_effect (b := b.withdrawn (tag x))
      (b.queues.asSubmit (tag x) newPx newQty) (hb.wf.drop _)).wellFormed (hb.wf.drop _) hpx
    rw [PriorityBook.resubmit_eq hb.wf hpx, PriorityBook.publishTopIfChanged_queues]
    exact ⟨tag', hrep.publishTop hwf fun hc => hmoved.accurate hc hb.quiet.accurate⟩
  unfold ReferenceEngine.reprice PriorityBook.reprice
  rw [hnode]
  dsimp only
  by_cases hsame : newPx = (b.order (tag x)).px
  · rw [if_pos hsame, if_pos hsame]
    split_ifs
    · exact ⟨tag, h⟩
    · have := h.requantify hb hx newQty
      rw [hnode] at this
      exact ⟨tag, this⟩
  · rw [if_neg hsame, if_neg hsame]
    rw [hnode] at hrelink hresubmit
    cases hbest : b.queues.best (b.order (tag x)).s.opposite with
    | none => exact hrelink (clear_of_best hb.wf (.inl hbest))
    | some q =>
        dsimp only
        split_ifs with hcross
        · exact hrelink (clear_of_best hb.wf (.inr ⟨q, hbest, by simpa using hcross⟩))
        · exact hresubmit

/-- The id chain of a modify. -/
theorem chain (h : r.Represents b tag b.queues.populated) (hd : b.queues.WellFormed) {x : ℕ}
    {m : ModifyMsg} (hx : r.idx.lookup m.id = some x) (hfresh : b.queues.Fresh (.modify m)) :
    (r.chain x m).Represents (b.onQueues (·.chained (tag x) m)) tag b.queues.populated ∧
      (r.chain x m).Held x := by
  have hheld := h.book.named m.id x hx
  have hid := h.book.lookup_node hd hx
  unfold ReferenceEngine.chain Queues.chained
  rw [hid]
  by_cases hren : m.renames = true
  · have hne : m.newId ≠ 0 ∧ m.newId ≠ m.id := by
      simpa only [ModifyMsg.renames, decide_eq_true_eq] using hren
    have hbook := h.book.rename hd hheld (hfresh hren)
    rw [hid] at hbook
    simp only [hne, or_self, if_false, hren, if_true]
    rw [if_pos hne.2]
    exact ⟨h.withBook rfl rfl hbook, hheld⟩
  · have heff : (if m.newId = 0 ∨ m.newId = m.id then m.id else m.newId) = m.id := by
      rw [if_pos]
      simpa only [ModifyMsg.renames, decide_eq_true_eq, not_and_or, not_not] using hren
    simp only [heff, hren, if_false, ne_eq, not_true_eq_false, Bool.false_eq_true]
    exact ⟨h, hheld⟩

theorem onModify (h : r.Represents b tag b.queues.populated) (hb : b.Steady maxQty)
    {m : ModifyMsg} (hdom : (Command.modify m).InDomain ticks maxQty)
    (hfresh : b.queues.Fresh (.modify m)) :
    ∃ tag', (r.onModify m).Represents ((b.queues.index m.id).elim b fun u => b.modifyAt u m) tag'
      ((b.queues.index m.id).elim b fun u => b.modifyAt u m).queues.populated := by
  unfold ReferenceEngine.onModify
  rw [h.book.index]
  cases hx : r.idx.lookup m.id with
  | none => exact ⟨tag, h⟩
  | some x =>
      obtain ⟨hpx, hpos, _, _, hnew⟩ := hdom
      obtain ⟨hchain, hheld⟩ := h.chain hb.wf hx hfresh
      have hu := h.book.linked hb.wf (h.book.named m.id x hx)
      have hpop : (b.queues.chained (tag x) m).populated = b.queues.populated := by
        unfold Queues.chained
        split_ifs <;> rfl
      have hmodify : b.modifyAt (tag x) m =
          (b.onQueues (·.chained (tag x) m)).reprice (tag x) m.newPx m.newQty := by
        unfold PriorityBook.modifyAt Queues.chained
        split_ifs <;> rfl
      rw [Option.map_some, Option.elim_some, hmodify]
      refine Represents.reprice (b := b.onQueues (·.chained (tag x) m)) ?_ (hb.chained hu hnew)
        hheld hpx (UInt64.pos_iff_ne_zero.mp hpos)
      exact hpop.symm ▸ hchain

/-- One command on both. -/
theorem apply (h : r.Represents b tag b.queues.populated) (hb : b.Steady maxQty) {cmd : Command}
    (hdom : cmd.InDomain ticks maxQty) (hfresh : b.queues.Fresh cmd) :
    ∃ tag', (r.apply cmd).Represents (b.apply cmd) tag' (b.apply cmd).queues.populated := by
  cases cmd with
  | submit m => exact h.onSubmit hb hdom.1 hfresh
  | cancel m => exact ⟨tag, h.onCancel hb.wf hb.quiet m.id⟩
  | modify m => exact h.onModify hb hdom hfresh

/-- A new reference engine stands for the machine a new engine stands for. -/
theorem new (cfg : EngineConfig) (hseq : cfg.seqBase = 0) (maxOrders : ℕ) :
    Represents { cfg := cfg, maxOrders := maxOrders }
      (PriorityBook.new cfg maxOrders : PriorityBook ticks) (fun _ => 0)
      (PriorityBook.new cfg maxOrders : PriorityBook ticks).queues.populated := by
  refine ⟨?_, fun hd => hd, fun hd => .inl hd, ?_⟩
  · unfold ReferenceEngine.control PriorityBook.control PriorityBook.new
    simp only [hseq]
    rfl
  · change Stores _ ({} : Queues ticks) _ ({} : Queues ticks).populated
    rw [Queues.populated_empty]
    exact .empty cfg maxOrders _

end Represents
end ReferenceEngine

/-! ## Runs -/

namespace Engine

variable {ticks maxOrders : ℕ}

/-- The engine and the reference engine implement the same machine. -/
def Agrees (maxQty : UInt64) (e : Engine (List Event) ticks maxOrders .byId)
    (r : ReferenceEngine) : Prop :=
  ∃ b tag, e.Refines [] b ∧ b.Steady maxQty ∧ r.Represents b tag b.queues.populated

variable {maxQty : UInt64} {e : Engine (List Event) ticks maxOrders .byId} {r : ReferenceEngine}

theorem Agrees.apply (h : Agrees maxQty e r) (hc : 0 < maxOrders) (ht : ticks ≤ 64 ^ 4)
    {cmd : Command} (hdom : cmd.InDomain ticks maxQty) (hfresh : e.Fresh cmd) :
    Agrees maxQty (e.apply cmd) (r.apply cmd) := by
  obtain ⟨b, tag, he, hb, hr⟩ := h
  obtain ⟨target, hreach, he'⟩ := he.apply hc ht hdom.inRange
  obtain ⟨tag', hr'⟩ := hr.apply hb hdom (he.fresh hfresh)
  have happly : b.applyAt target cmd = b.apply cmd := by rw [hreach.2 rfl]; rfl
  exact ⟨b.applyAt target cmd, tag', he', he.steady_applyAt hb hdom hreach he', happly ▸ hr'⟩

theorem Agrees.new (cfg : EngineConfig) (hseq : cfg.seqBase = 0) (mem : Memory)
    (hc : 0 < maxOrders) (hcap : maxOrders * cfg.maxOrderQty.toNat < 2 ^ 64) :
    Agrees cfg.maxOrderQty (Engine.new [] cfg mem : Engine (List Event) ticks maxOrders .byId)
      { cfg := cfg, maxOrders := maxOrders } :=
  ⟨_, _, new_refines [] cfg mem hc, ⟨.empty, .new cfg maxOrders, .empty, .empty, hcap⟩,
    .new cfg hseq maxOrders⟩

theorem Agrees.streams_eq (h : Agrees maxQty e r) : r.streams = .of e.pub := by
  obtain ⟨b, tag, he, _, hr⟩ := h
  rw [he.pub_eq, List.nil_append]
  exact congrArg Control.streams hr.control

theorem Agrees.recordsAt_eq (h : Agrees maxQty e r) (s : Side) (p : ℕ) :
    r.recordsAt s p = ((e.side s).levels p).fifo.map e.order := by
  obtain ⟨b, tag, ⟨_, tag', he⟩, _, hr⟩ := h
  rw [he.map_order_eq]
  exact hr.map_nodes_eq s p

/-- After any run in which commands are in their domains and no resting id is used
again, an engine and a reference engine of the same configuration have published
the same fills, tops, trades, self-trades and rejects, with the same stamps, and
hold the same records in the same order at every price. -/
theorem play_matches_reference (cfg : EngineConfig) (hseq : cfg.seqBase = 0) (mem : Memory)
    (hc : 0 < maxOrders) (ht : ticks ≤ 64 ^ 4)
    (hcap : maxOrders * cfg.maxOrderQty.toNat < 2 ^ 64) (cmds : List Command)
    (hcmds : ∀ cmd ∈ cmds, cmd.InDomain ticks cfg.maxOrderQty)
    (hfresh : Along apply Fresh (new [] cfg mem : Engine (List Event) ticks maxOrders .byId) cmds) :
    let e : Engine (List Event) ticks maxOrders .byId := play [] cfg mem cmds
    let r := ReferenceEngine.play cfg maxOrders cmds
    r.streams = .of e.pub ∧
      ∀ s p, r.recordsAt s p = ((e.side s).levels p).fifo.map e.order := by
  have step : ∀ (e : Engine (List Event) ticks maxOrders .byId) (r : ReferenceEngine)
      (cmd : Command), Agrees cfg.maxOrderQty e r →
      cmd.InDomain ticks cfg.maxOrderQty ∧ e.Fresh cmd →
      Agrees cfg.maxOrderQty (e.apply cmd) (r.apply cmd) :=
    fun _ _ _ h hok => h.apply hc ht hok.1 hok.2
  have h : Agrees cfg.maxOrderQty (play [] cfg mem cmds)
      (ReferenceEngine.play cfg maxOrders cmds) :=
    ((along_of_forall hcmds).and hfresh).lockstep _ step (.new cfg hseq mem hc hcap)
  exact ⟨h.streams_eq, h.recordsAt_eq⟩

/-- A partial fill, a modify that moves an order, and a reject. -/
theorem play_matches_reference_moved :
    let cmds : List Command := [.submit ⟨1, 2, 5, .ask, .gtc, 0⟩, .submit ⟨2, 2, 3, .bid, .gtc, 0⟩,
      .submit ⟨3, 0, 4, .bid, .gtc, 0⟩, .modify ⟨1, 1, 2, 9, {}⟩, .submit ⟨4, 0, 1, .bid, .gtc, 0⟩]
    let e : Engine (List Event) 3 2 .byId := play [] {} .zeroed cmds
    (ReferenceEngine.play {} 2 cmds).streams = .of e.pub ∧
      ∀ s p, (ReferenceEngine.play {} 2 cmds).recordsAt s p =
        ((e.side s).levels p).fifo.map e.order :=
  play_matches_reference {} rfl .zeroed (by decide) (by decide) (by decide) _ (by decide)
    (by decide)

end Engine
end Orderbooks
