import Orderbooks.Engine
import Orderbooks.Lib.OrderedMap
import Mathlib.Data.List.AList

/-!
# The reference engine

`reference_engine.hpp`, the book the tests compare the engine with: a map from
price to FIFO per side, a FIFO that is a list of records, and a map from id to
record. Records are list nodes and are pointed at, so a FIFO is a list of node
addresses here, and a new node gets an address that was never used.
-/
namespace Orderbooks
open Loop

instance (s : Side) : IsStrictTotalOrder ℕ (fun p q => s.better p q = true) where
  irrefl p := by cases s <;> simp [Side.better]
  trans p q r hpq hqr := by
    cases s <;> simp only [Side.better, decide_eq_true_eq] at * <;> omega
  trichotomous p q hpq hqp := by
    cases s <;> simp only [Side.better, decide_eq_true_eq] at * <;> omega

structure ReferenceEngine where
  /-- `bids` and `asks`. -/
  books : (s : Side) → OrderedMap ℕ (List ℕ) s.better := fun _ => {}
  nodes : ℕ → Order := fun _ => default
  nextNode : ℕ := 0
  idx : AList (fun _ : UInt64 => ℕ) := ∅
  cfg : EngineConfig
  maxOrders : ℕ
  seq : UInt64 := 0
  fills : List FillMsg := []
  tops : List TopMsg := []
  trades : List TradeMsg := []
  selfTrades : List SelfTradeMsg := []
  rejects : List RejectMsg := []
  haveTop : Bool := false
  lastBidPx : ℕ := 0
  lastAskPx : ℕ := 0
  lastBidQty : UInt64 := 0
  lastAskQty : UInt64 := 0
  topDirty : Bool := false
  suppressTopDepth : ℕ := 0

namespace ReferenceEngine

/-! ## Parts -/

/-- The FIFO at a price. -/
def fifo (r : ReferenceEngine) (s : Side) (px : ℕ) : List ℕ := ((r.books s).find? px).getD []

def setBook (r : ReferenceEngine) (s : Side) (b : OrderedMap ℕ (List ℕ) s.better) :
    ReferenceEngine :=
  { r with books := Function.update r.books s b }

/-- Change a FIFO through a reference to it. -/
def onFifo (r : ReferenceEngine) (s : Side) (px : ℕ) (f : List ℕ → List ℕ) : ReferenceEngine :=
  r.setBook s ((r.books s).upsert px fun l => f (l.getD []))

def setNode (r : ReferenceEngine) (x : ℕ) (o : Order) : ReferenceEngine :=
  { r with nodes := Function.update r.nodes x o }

def setIdx (r : ReferenceEngine) (idx : AList (fun _ : UInt64 => ℕ)) : ReferenceEngine :=
  { r with idx := idx }

def dirty (r : ReferenceEngine) : ReferenceEngine := { r with topDirty := true }

def best (r : ReferenceEngine) (s : Side) : Option ℕ := (r.books s).first?.map Prod.fst

def aggregate (r : ReferenceEngine) (s : Side) (px : ℕ) : UInt64 :=
  match (r.books s).find? px with
  | none => 0
  | some fifo => fifo.foldl (fun sum x => sum + (r.nodes x).remaining) 0

def publishTop (r : ReferenceEngine) : ReferenceEngine :=
  if !r.topDirty then r
  else if r.suppressTopDepth ≠ 0 then r
  else
    let r : ReferenceEngine := { r with topDirty := false }
    let bb := r.best .bid
    let ba := r.best .ask
    let bidPx := bb.getD 0
    let askPx := ba.getD 0
    let bidQty := bb.elim 0 (r.aggregate .bid)
    let askQty := ba.elim 0 (r.aggregate .ask)
    if r.cfg.topThrottle ∧ r.haveTop ∧ bidPx = r.lastBidPx ∧ askPx = r.lastAskPx ∧
        bidQty = r.lastBidQty ∧ askQty = r.lastAskQty then r
    else
      let r : ReferenceEngine := { r with seq := r.seq + 1 }
      { r with
        tops := r.tops ++ [⟨bidPx, askPx, bidQty, askQty, r.seq⟩]
        lastBidPx := bidPx
        lastAskPx := askPx
        lastBidQty := bidQty
        lastAskQty := askQty
        haveTop := true }

/-! ## Matching -/

structure Matching where
  engine : ReferenceEngine
  remaining : UInt64
  aborted : Bool := false

/-- `idx.erase(maker.id)` and `fifo.pop_front()`. -/
def popFront (r : ReferenceEngine) (s : Side) (px x : ℕ) : ReferenceEngine :=
  (r.setIdx (r.idx.erase (r.nodes x).id)).onFifo s px List.tail

/-- Take `qty` off a maker, and the maker off its FIFO when nothing is left. -/
def decrementMaker (r : ReferenceEngine) (s : Side) (px x : ℕ) (qty : UInt64) :
    ReferenceEngine :=
  let maker := r.nodes x
  let r := (r.setNode x { maker with remaining := maker.remaining - qty }).dirty
  if maker.remaining - qty = 0 then r.popFront s px x else r

/-- Returns whether the aggressor itself must abort. -/
def dispatchSelfCross (c : Matching) (m : SubmitMsg) (x bestPx : ℕ) : Bool × Matching :=
  let r := c.engine
  let opp := m.s.opposite
  let maker := r.nodes x
  match r.cfg.selfCross with
  | .cancelNewest => (true, { c with remaining := 0 })
  | .cancelOldest => (false, { c with engine := (r.popFront opp bestPx x).dirty })
  | .decrementTrade =>
      let tradeQty := min c.remaining maker.remaining
      let r : ReferenceEngine := { r with seq := r.seq + 1 }
      let r : ReferenceEngine := { r with selfTrades := r.selfTrades ++
        [⟨m.id, maker.id, m.accountId, bestPx, tradeQty, r.seq⟩] }
      (false, { c with
        engine := r.decrementMaker opp bestPx x tradeQty
        remaining := c.remaining - tradeQty })

def fillMaker (c : Matching) (m : SubmitMsg) (x bestPx : ℕ) : Matching :=
  let r := c.engine
  let maker := r.nodes x
  let tradeQty := min c.remaining maker.remaining
  let r : ReferenceEngine := { r with seq := r.seq + 1 }
  let r : ReferenceEngine := { r with
    fills := r.fills ++ [⟨maker.id, m.id, bestPx, tradeQty, r.seq⟩]
    trades := r.trades ++ [⟨bestPx, tradeQty, r.seq⟩] }
  { c with
    engine := r.decrementMaker m.s.opposite bestPx x tradeQty
    remaining := c.remaining - tradeQty }

/-- `drop_empty_level_`, behind its `if (fifo.empty())`. -/
def dropIfEmpty (r : ReferenceEngine) (s : Side) (px : ℕ) : ReferenceEngine :=
  if r.fifo s px = [] then r.setBook s ((r.books s).erase px) else r

def makerTurn (m : SubmitMsg) (bestPx : ℕ) (c : Matching) : Turn Matching :=
  if c.remaining = 0 then .done c
  else match c.engine.fifo m.s.opposite bestPx with
    | [] => .done c
    | x :: _ =>
        if m.accountId ≠ 0 ∧ (c.engine.nodes x).accountId = m.accountId then
          let (abort, c) := dispatchSelfCross c m x bestPx
          if abort then
            .done { c with engine := c.engine.dropIfEmpty m.s.opposite bestPx, aborted := true }
          else .again c
        else .again (fillMaker c m x bestPx)

def makerLoop (m : SubmitMsg) (bestPx : ℕ) (c : Matching) : Matching :=
  run (makerTurn m bestPx) ((c.engine.fifo m.s.opposite bestPx).length + 2) c

def levelTurn (m : SubmitMsg) (c : Matching) : Turn Matching :=
  if c.remaining = 0 then .done c
  else match c.engine.best m.s.opposite with
    | none => .done c
    | some bestPx =>
        if !m.s.crosses m.px bestPx then .done c
        else
          let c := makerLoop m bestPx c
          if c.aborted then .done c
          else .again { c with engine := c.engine.dropIfEmpty m.s.opposite bestPx }

/-- `match_`. -/
def matchOpposite (m : SubmitMsg) (r : ReferenceEngine) : Matching :=
  run (levelTurn m) (r.idx.keys.length + 2) ⟨r, m.qty, false⟩

/-! ## The fill-or-kill precheck -/

/-- `consume_level`: the flag says whether the walk over the levels is over. -/
def consumeLevel (allConsumable : Bool) (selfCross : SelfCrossPolicy) (want : UInt64)
    (acct : UInt32) : List Order → Engine.Precheck → Bool × Engine.Precheck
  | [], c => (false, c)
  | o :: rest, c =>
      if !allConsumable && decide (o.accountId = acct) then
        if selfCross = .cancelNewest then (true, { c with aborted := true })
        else consumeLevel allConsumable selfCross want acct rest c
      else
        let c := { c with total := c.total + o.remaining }
        if want ≤ c.total then (true, c)
        else consumeLevel allConsumable selfCross want acct rest c

def walkLevels (r : ReferenceEngine) (s : Side) (aggressorPx : ℕ) (want : UInt64)
    (acct : UInt32) : List (ℕ × List ℕ) → Engine.Precheck → Engine.Precheck
  | [], c => c
  | (px, fifo) :: rest, c =>
      if !s.crosses aggressorPx px then c
      else
        let allConsumable := decide (acct = 0 ∨ r.cfg.selfCross = .decrementTrade)
        let (stop, c') := consumeLevel allConsumable r.cfg.selfCross want acct
          (fifo.map r.nodes) c
        if stop then c' else r.walkLevels s aggressorPx want acct rest c'

def canFullyFill (r : ReferenceEngine) (s : Side) (aggressorPx : ℕ) (want : UInt64)
    (acct : UInt32) : Bool :=
  let c := r.walkLevels s aggressorPx want acct (r.books s.opposite).entries {}
  !c.aborted && decide (want ≤ c.total)

/-! ## Commands -/

def rest (r : ReferenceEngine) (m : SubmitMsg) (remaining : UInt64) : ReferenceEngine :=
  if r.maxOrders ≤ r.idx.keys.length then
    let r : ReferenceEngine := { r with seq := r.seq + 1 }
    { r with rejects := r.rejects ++
      [⟨m.id, m.accountId, m.px, remaining, .arenaFull, r.seq⟩] }
  else
    let x := r.nextNode
    let r : ReferenceEngine := { r with nextNode := x + 1 }
    let r := r.setNode x ⟨m.id, remaining, m.px, m.s, m.t, m.accountId⟩
    let r := r.onFifo m.s m.px (· ++ [x])
    (r.setIdx (r.idx.insert m.id x)).dirty

def handle (r : ReferenceEngine) (m : SubmitMsg) : ReferenceEngine :=
  if m.t = .fok ∧ !r.canFullyFill m.s m.px m.qty m.accountId then r
  else
    let c := matchOpposite m r
    if c.remaining = 0 then c.engine
    else match m.t with
      | .ioc => c.engine
      | .fok => c.engine
      | .gtc => c.engine.rest m c.remaining

def onSubmit (r : ReferenceEngine) (m : SubmitMsg) : ReferenceEngine := (r.handle m).publishTop

/-- Take the node `x` out of the FIFO its record names, and an empty FIFO out of its map. -/
def eraseFrom (r : ReferenceEngine) (x : ℕ) : ReferenceEngine :=
  let s := (r.nodes x).s
  let px := (r.nodes x).px
  match (r.books s).find? px with
  | none => r
  | some _ => (r.onFifo s px (·.erase x)).dropIfEmpty s px

def onCancel (r : ReferenceEngine) (id : UInt64) : ReferenceEngine :=
  match r.idx.lookup id with
  | none => r
  | some x => ((r.setIdx (r.idx.erase id)).eraseFrom x).dirty.publishTop

/-- The id chain of a cancel-replace. -/
def chain (r : ReferenceEngine) (x : ℕ) (m : ModifyMsg) : ReferenceEngine :=
  let id := (r.nodes x).id
  let effectiveId := if m.newId = 0 ∨ m.newId = id then id else m.newId
  if effectiveId ≠ id then
    let r := r.setIdx (r.idx.erase m.id)
    let r := r.setNode x { r.nodes x with id := effectiveId }
    r.setIdx (r.idx.insert effectiveId x)
  else r

/-- What a modify does once the id chain is applied. -/
def reprice (r : ReferenceEngine) (x : ℕ) (newPx : ℕ) (newQty : UInt64) : ReferenceEngine :=
  let o := r.nodes x
  if newPx = o.px then
    if newQty = o.remaining then r
    else (r.setNode x { o with remaining := newQty }).dirty.publishTop
  else
    let r : ReferenceEngine := { r with suppressTopDepth := r.suppressTopDepth + 1 }
    let r := r.onCancel o.id
    let r := r.onSubmit ⟨o.id, newPx, newQty, o.s, o.t, o.accountId⟩
    publishTop { r with suppressTopDepth := r.suppressTopDepth - 1 }

def onModify (r : ReferenceEngine) (m : ModifyMsg) : ReferenceEngine :=
  match r.idx.lookup m.id with
  | none => r
  | some x => (r.chain x m).reprice x m.newPx m.newQty

def apply (r : ReferenceEngine) : Command → ReferenceEngine
  | .submit m => r.onSubmit m
  | .cancel m => r.onCancel m.id
  | .modify m => r.onModify m

/-- A new reference engine after a list of commands. -/
def play (cfg : EngineConfig) (maxOrders : ℕ) (cmds : List Command) : ReferenceEngine :=
  cmds.foldl apply { cfg := cfg, maxOrders := maxOrders }

/-- The records resting at a price, first come first. -/
def recordsAt (r : ReferenceEngine) (s : Side) (px : ℕ) : List Order := (r.fifo s px).map r.nodes

end ReferenceEngine
end Orderbooks
