import Orderbooks.Engine
import Orderbooks.Queues

/-!
# The price-time priority machine

The engine without its data structures: a state of resting orders in queues, to
which there is no bitmap, no cached best price, no aggregate, no hash table and
no free list. Matching walks the prices of the opposite side from best to worst
and each queue from front to back.

A cancel or modify is given its target, since engines of the two lookup kinds
find it in different ways; `apply` takes the target the id index names.
-/
namespace Orderbooks

structure PriorityBook (ticks : ℕ) where
  log : List Event := []
  selfCross : SelfCrossPolicy
  topThrottle : Bool
  capacity : ℕ
  queues : Queues ticks := {}
  state : HotState

namespace PriorityBook

variable {ticks : ℕ}

/-- The machine a new engine starts as. -/
def new (cfg : EngineConfig) (capacity : ℕ) : PriorityBook ticks :=
  { selfCross := cfg.selfCross
    topThrottle := cfg.topThrottle
    capacity := capacity
    state := { seq := cfg.seqBase } }

/-! ## Parts -/

/-- Change what rests, and nothing else. -/
def onQueues (b : PriorityBook ticks) (f : Queues ticks → Queues ticks) : PriorityBook ticks :=
  { b with queues := f b.queues }

abbrev order (b : PriorityBook ticks) (u : ℕ) : Order := b.queues.orders u

def publish (b : PriorityBook ticks) (ev : Event) : PriorityBook ticks :=
  { b with log := b.log ++ [ev] }

def bumpSeq (b : PriorityBook ticks) : PriorityBook ticks :=
  { b with state := { b.state with seq := b.state.seq + 1 } }

def dirty (b : PriorityBook ticks) : PriorityBook ticks :=
  { b with state := { b.state with topDirty := true } }

def markTop (b : PriorityBook ticks) (s : Side) (px : ℕ) : PriorityBook ticks :=
  { b with state := b.state.markTop b.topThrottle s px }

def publishTopIfChanged (b : PriorityBook ticks) : PriorityBook ticks :=
  let (st, msg) := b.state.publishTopIfChanged b.topThrottle b.queues.best
    b.queues.aggregateAt
  let b := { b with state := st }
  match msg with
  | none => b
  | some top => b.publish (.top top)

/-! ## Matching -/

structure Sweep (ticks : ℕ) where
  book : PriorityBook ticks
  remaining : UInt64
  aborted : Bool := false

def isOwn (b : PriorityBook ticks) (m : SubmitMsg) (u : ℕ) : Prop :=
  m.accountId ≠ 0 ∧ (b.order u).accountId = m.accountId

instance (b : PriorityBook ticks) (m : SubmitMsg) (u : ℕ) : Decidable (b.isOwn m u) :=
  inferInstanceAs (Decidable (_ ∧ _))

/-- Publish what a trade of `qty` between the aggressor and `u` looks like. -/
def announce (b : PriorityBook ticks) (m : SubmitMsg) (u p : ℕ) (qty : UInt64) :
    PriorityBook ticks :=
  let maker := b.order u
  let b := b.bumpSeq
  if b.isOwn m u then
    b.publish (.selfTrade ⟨m.id, maker.id, m.accountId, p, qty, b.state.seq⟩)
  else
    (b.publish (.fill ⟨maker.id, m.id, p, qty, b.state.seq⟩)).publish
      (.trade ⟨p, qty, b.state.seq⟩)

/-- Take `qty` off an order's open quantity. -/
def decrement (b : PriorityBook ticks) (u : ℕ) (qty : UInt64) : PriorityBook ticks :=
  (b.onQueues (·.setRemaining u ((b.order u).remaining - qty))).dirty

def drop (b : PriorityBook ticks) (u : ℕ) : PriorityBook ticks := b.onQueues (·.drop u)

/-- What meeting the maker `u` at price `p` does. -/
def strike (m : SubmitMsg) (p u : ℕ) (b : PriorityBook ticks) (rem : UInt64) : Sweep ticks :=
  if b.isOwn m u ∧ b.selfCross = .cancelNewest then ⟨b, 0, true⟩
  else if b.isOwn m u ∧ b.selfCross = .cancelOldest then ⟨(b.drop u).dirty, rem, false⟩
  else
    let qty := min rem (b.order u).remaining
    let b' := (b.announce m u p qty).decrement u qty
    ⟨if (b.order u).remaining - qty = 0 then b'.drop u else b', rem - qty, false⟩

/-- Match against the makers of the queue at price `p`, front first. -/
def sweepLevel (m : SubmitMsg) (p : ℕ) : List ℕ → PriorityBook ticks → UInt64 → Sweep ticks
  | [], b, rem => ⟨b, rem, false⟩
  | u :: q, b, rem =>
      if rem = 0 then ⟨b, rem, false⟩
      else
        let c := strike m p u b rem
        if c.aborted then c else sweepLevel m p q c.book c.remaining

/-- Match against the levels at the prices `ps` while they cross. -/
def sweepFrom (m : SubmitMsg) : List ℕ → PriorityBook ticks → UInt64 → Sweep ticks
  | [], b, rem => ⟨b, rem, false⟩
  | p :: ps, b, rem =>
      if rem = 0 then ⟨b, rem, false⟩
      else if b.queues.levels m.s.opposite p = [] then sweepFrom m ps b rem
      else if !m.s.crosses m.px p then ⟨b, rem, false⟩
      else
        let c := sweepLevel m p (b.queues.levels m.s.opposite p) b rem
        if c.aborted then c else sweepFrom m ps c.book c.remaining

def sweep (m : SubmitMsg) (b : PriorityBook ticks) (rem : UInt64) : Sweep ticks :=
  sweepFrom m (m.s.opposite.priority ticks) b rem

/-- What the precheck of a fill-or-kill order counts at one level. -/
def consumeLevel (b : PriorityBook ticks) (opp : Side) (want : UInt64) (acct : UInt32) (p : ℕ)
    (c : Engine.Precheck) : Bool × Engine.Precheck :=
  if acct = 0 ∨ b.selfCross = .decrementTrade then
    let c := { c with total := c.total + b.queues.aggregateAt opp p }
    (decide (want ≤ c.total), c)
  else Engine.consumeFifo b.selfCross want acct (b.queues.ordersAt opp p) c

def precheckFrom (b : PriorityBook ticks) (opp : Side) (aggressorPx : ℕ) (want : UInt64)
    (acct : UInt32) : List ℕ → Engine.Precheck → Engine.Precheck
  | [], c => c
  | p :: ps, c =>
      if b.queues.levels opp p = [] then precheckFrom b opp aggressorPx want acct ps c
      else if !opp.opposite.crosses aggressorPx p then c
      else
        let (stop, c') := b.consumeLevel opp want acct p c
        if stop then c' else precheckFrom b opp aggressorPx want acct ps c'

def canFullyFill (b : PriorityBook ticks) (opp : Side) (aggressorPx : ℕ) (want : UInt64)
    (acct : UInt32) : Bool :=
  let c := b.precheckFrom opp aggressorPx want acct (opp.priority ticks) {}
  !c.aborted && decide (want ≤ c.total)

/-! ## Commands -/

/-- A new order rests under the next number. -/
def rest (b : PriorityBook ticks) (m : SubmitMsg) (remaining : UInt64) : PriorityBook ticks :=
  if b.capacity ≤ b.queues.live then
    let b := b.bumpSeq
    b.publish (.reject ⟨m.id, m.accountId, m.px, remaining, .arenaFull, b.state.seq⟩)
  else
    let u := b.queues.next
    let o : Order := ⟨m.id, remaining, m.px, m.s, m.t, m.accountId⟩
    let b := b.onQueues fun d => ({ d with next := u + 1 } : Queues ticks).enter u o
    (b.markTop m.s m.px).onQueues (·.setIndex m.id (some u))

def handleSubmit (b : PriorityBook ticks) (m : SubmitMsg) : PriorityBook ticks :=
  if m.t = .fok ∧ !b.canFullyFill m.s.opposite m.px m.qty m.accountId then b
  else
    let c := sweep m b m.qty
    if c.remaining = 0 then c.book
    else match m.t with
      | .ioc => c.book
      | .fok => c.book
      | .gtc => c.book.rest m c.remaining

def onSubmit (b : PriorityBook ticks) (m : SubmitMsg) : PriorityBook ticks :=
  (b.handleSubmit m).publishTopIfChanged

/-- Cancel the resting order `u`. -/
def cancelAt (b : PriorityBook ticks) (u : ℕ) : PriorityBook ticks :=
  let o := b.order u
  ((b.drop u).markTop o.s o.px).publishTopIfChanged

def requantify (b : PriorityBook ticks) (u : ℕ) (newQty : UInt64) : PriorityBook ticks :=
  let o := b.order u
  ((b.onQueues (·.setRemaining u newQty)).markTop o.s o.px).publishTopIfChanged

def relink (b : PriorityBook ticks) (u newPx : ℕ) (newQty : UInt64) : PriorityBook ticks :=
  let o := b.order u
  let b := b.onQueues (·.move u newPx newQty)
  ((b.markTop o.s o.px).markTop o.s newPx).publishTopIfChanged

def suppress (b : PriorityBook ticks) : PriorityBook ticks :=
  { b with state := { b.state with suppressTopDepth := b.state.suppressTopDepth + 1 } }

def unsuppress (b : PriorityBook ticks) : PriorityBook ticks :=
  { b with state := { b.state with suppressTopDepth := b.state.suppressTopDepth - 1 } }

def resubmit (b : PriorityBook ticks) (u newPx : ℕ) (newQty : UInt64) : PriorityBook ticks :=
  let o := b.order u
  let b := b.suppress.cancelAt u
  let b := b.onSubmit ⟨o.id, newPx, newQty, o.s, o.t, o.accountId⟩
  b.unsuppress.publishTopIfChanged

/-- The price and quantity branches of a modify. -/
def reprice (b : PriorityBook ticks) (u newPx : ℕ) (newQty : UInt64) : PriorityBook ticks :=
  let o := b.order u
  if newPx = o.px then
    if newQty = o.remaining then b else b.requantify u newQty
  else match b.queues.best o.s.opposite with
    | none => b.relink u newPx newQty
    | some q =>
        if !o.s.crosses newPx q then b.relink u newPx newQty else b.resubmit u newPx newQty

/-- Modify the resting order `u`. -/
def modifyAt (b : PriorityBook ticks) (u : ℕ) (m : ModifyMsg) : PriorityBook ticks :=
  let b := if m.renames then b.onQueues (·.rename u m.newId) else b
  b.reprice u m.newPx m.newQty

/-- One command, whose cancel or modify reaches `target`. -/
def applyAt (b : PriorityBook ticks) (target : Option ℕ) : Command → PriorityBook ticks
  | .submit m => b.onSubmit m
  | .cancel _ => target.elim b b.cancelAt
  | .modify m => target.elim b fun u => b.modifyAt u m

/-- One command on a machine that looks orders up by id. -/
def apply (b : PriorityBook ticks) (cmd : Command) : PriorityBook ticks :=
  b.applyAt (b.queues.index cmd.id) cmd

end PriorityBook
end Orderbooks
