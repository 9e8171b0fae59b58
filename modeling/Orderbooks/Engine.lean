import Orderbooks.Book
import Orderbooks.Lib.Loop

/-!
# The matching engine

`engine.hpp` without the snapshot codec. A side is an argument where the source
has a template parameter. The publisher is a field of the state it is handed to.
Prefetch hints change nothing and are left out.

The two `while` loops of a match are bounded loops; a turn of the inner one
treats the maker at the front of a level, a turn of the outer one treats a level.
-/
namespace Orderbooks
open Loop

structure HotState where
  seq : UInt64 := 0
  lastBidPx : ℕ := 0
  lastAskPx : ℕ := 0
  lastBidQty : UInt64 := 0
  lastAskQty : UInt64 := 0
  haveTop : Bool := false
  topDirty : Bool := false
  haveBidSide : Bool := false
  haveAskSide : Bool := false
  suppressTopDepth : ℕ := 0
  deriving DecidableEq, Repr

namespace HotState

/-- Whether a mutation at `px` on side `s` could move the top of the book. -/
def affectsTop (st : HotState) (s : Side) (px : ℕ) : Bool :=
  if !st.haveTop then true
  else match s with
    | .bid => !st.haveBidSide || decide (st.lastBidPx ≤ px)
    | .ask => !st.haveAskSide || decide (px ≤ st.lastAskPx)

/-- With the throttle off every mutation counts. -/
def markTop (topThrottle : Bool) (st : HotState) (s : Side) (px : ℕ) : HotState :=
  if !topThrottle || st.affectsTop s px then { st with topDirty := true } else st

/-- `publish_top_if_changed_`, given the best price of each side and the
aggregate at a price: the state it leaves and the message it publishes, if any. -/
def publishTopIfChanged (topThrottle : Bool) (best : Side → Option ℕ)
    (aggregateAt : Side → ℕ → UInt64) (st : HotState) : HotState × Option TopMsg :=
  if !st.topDirty then (st, none)
  else if st.suppressTopDepth ≠ 0 then (st, none)
  else
    let st := { st with topDirty := false }
    let bb := best .bid
    let ba := best .ask
    let bidPx := bb.getD 0
    let askPx := ba.getD 0
    let bidQty := bb.elim 0 (aggregateAt .bid)
    let askQty := ba.elim 0 (aggregateAt .ask)
    let st := { st with haveBidSide := bb.isSome, haveAskSide := ba.isSome }
    if topThrottle ∧ st.haveTop ∧ bidPx = st.lastBidPx ∧ askPx = st.lastAskPx ∧
        bidQty = st.lastBidQty ∧ askQty = st.lastAskQty then (st, none)
    else
      let st := { st with seq := st.seq + 1 }
      ({ st with
          lastBidPx := bidPx
          lastAskPx := askPx
          lastBidQty := bidQty
          lastAskQty := askQty
          haveTop := true },
        some ⟨bidPx, askPx, bidQty, askQty, st.seq⟩)

end HotState

/-- Arena memory as the allocator hands it out, before anything is written to it. -/
structure Memory where
  cells : ℕ → Cell Order
  gens : ℕ → UInt32

/-- Memory fresh from the operating system. -/
def Memory.zeroed : Memory := ⟨fun _ => .link none, fun _ => 0⟩

structure Engine (P : Type) (ticks maxOrders : ℕ) (lookup : OrderLookup) where
  pub : P
  cfg : EngineConfig
  book : Book ticks maxOrders (decide (lookup = .byHandle))
  state : HotState

namespace Engine

variable {P : Type} [Publisher P] {ticks maxOrders : ℕ} {lookup : OrderLookup}

def new (pub : P) (cfg : EngineConfig) (mem : Memory) : Engine P ticks maxOrders lookup :=
  { pub := pub
    cfg := cfg
    book := .new mem.cells mem.gens
    state := { seq := cfg.seqBase } }

/-! ## Access to the parts -/

abbrev side (e : Engine P ticks maxOrders lookup) (s : Side) : BookSide ticks := e.book.side s

def setSide (e : Engine P ticks maxOrders lookup) (s : Side) (bs : BookSide ticks) :
    Engine P ticks maxOrders lookup :=
  { e with book := e.book.setSide s bs }

def setArena (e : Engine P ticks maxOrders lookup)
    (a : SlabArena Order maxOrders (decide (lookup = .byHandle))) :
    Engine P ticks maxOrders lookup :=
  { e with book := { e.book with arena := a } }

def setIdx (e : Engine P ticks maxOrders lookup) (x : IdIndex) : Engine P ticks maxOrders lookup :=
  { e with book := { e.book with idx := x } }

/-- The order an `order*` points at. -/
def order (e : Engine P ticks maxOrders lookup) (p : ℕ) : Order := e.book.arena.slotAt p

/-- Write through an `order*`. -/
def setOrder (e : Engine P ticks maxOrders lookup) (p : ℕ) (o : Order) :
    Engine P ticks maxOrders lookup :=
  e.setArena (e.book.arena.put p o)

def bumpSeq (e : Engine P ticks maxOrders lookup) : Engine P ticks maxOrders lookup :=
  { e with state := { e.state with seq := e.state.seq + 1 } }

def publish (e : Engine P ticks maxOrders lookup) (ev : Event) : Engine P ticks maxOrders lookup :=
  { e with pub := Publisher.publish e.pub ev }

def dirty (e : Engine P ticks maxOrders lookup) : Engine P ticks maxOrders lookup :=
  { e with state := { e.state with topDirty := true } }

/-- The index is only kept by an engine that looks orders up by id. -/
def unindex (e : Engine P ticks maxOrders lookup) (id : UInt64) :
    Engine P ticks maxOrders lookup :=
  if lookup = .byId then e.setIdx (e.book.idx.erase id) else e

/-! ## Top of book -/

def markTop (e : Engine P ticks maxOrders lookup) (s : Side) (px : ℕ) :
    Engine P ticks maxOrders lookup :=
  { e with state := e.state.markTop e.cfg.topThrottle s px }

def publishTopIfChanged (e : Engine P ticks maxOrders lookup) : Engine P ticks maxOrders lookup :=
  let (st, msg) := e.state.publishTopIfChanged e.cfg.topThrottle
    (fun s => (e.side s).best) (fun s => (e.side s).aggregateAt)
  let e := { e with state := st }
  match msg with
  | none => e
  | some top => e.publish (.top top)

/-! ## Matching -/

/-- `lvl.fifo.pop_front()`, giving up the victim's index entry and its slot. -/
def dropFront (e : Engine P ticks maxOrders lookup) (s : Side) (px p : ℕ) :
    Engine P ticks maxOrders lookup :=
  let victimId := (e.order p).id
  let lvl := (e.side s).levels px
  let e := e.setSide s ((e.side s).setLevel px { lvl with fifo := lvl.fifo.tail })
  let e := e.unindex victimId
  e.setArena (e.book.arena.deallocate (some p))

/-- Take `qty` off the maker at the front of a level, and the maker off the
level when nothing of it is left. -/
def decrementMaker (e : Engine P ticks maxOrders lookup) (s : Side) (px p : ℕ) (qty : UInt64) :
    Engine P ticks maxOrders lookup :=
  let maker := e.order p
  let lvl := (e.side s).levels px
  let e := e.setOrder p { maker with remaining := maker.remaining - qty }
  let e := e.setSide s ((e.side s).setLevel px { lvl with aggregate := lvl.aggregate - qty })
  let e := e.dirty
  if maker.remaining - qty = 0 then e.dropFront s px p else e

/-- The engine, the aggressor's open quantity and whether `cancel_newest` ended the match. -/
structure Matching (P : Type) (ticks maxOrders : ℕ) (lookup : OrderLookup) where
  engine : Engine P ticks maxOrders lookup
  remaining : UInt64
  aborted : Bool := false

/-- Returns whether the aggressor itself must abort. -/
def handleSelfCross (c : Matching P ticks maxOrders lookup) (m : SubmitMsg) (p bestPx : ℕ) :
    Bool × Matching P ticks maxOrders lookup :=
  let e := c.engine
  let opp := m.s.opposite
  let maker := e.order p
  match e.cfg.selfCross with
  | .cancelNewest => (true, { c with remaining := 0 })
  | .cancelOldest =>
      let lvl := (e.side opp).levels bestPx
      let e := e.setSide opp ((e.side opp).setLevel bestPx
        { lvl with aggregate := lvl.aggregate - maker.remaining })
      let e := (e.dropFront opp bestPx p).dirty
      (false, { c with engine := e })
  | .decrementTrade =>
      let tradeQty := min c.remaining maker.remaining
      let e := e.bumpSeq
      let e := e.publish (.selfTrade ⟨m.id, maker.id, m.accountId, bestPx, tradeQty, e.state.seq⟩)
      let e := e.decrementMaker opp bestPx p tradeQty
      (false, { c with engine := e, remaining := c.remaining - tradeQty })

def fillMaker (c : Matching P ticks maxOrders lookup) (m : SubmitMsg) (p bestPx : ℕ) :
    Matching P ticks maxOrders lookup :=
  let e := c.engine
  let maker := e.order p
  let tradeQty := min c.remaining maker.remaining
  let e := e.bumpSeq
  let e := e.publish (.fill ⟨maker.id, m.id, bestPx, tradeQty, e.state.seq⟩)
  let e := e.publish (.trade ⟨bestPx, tradeQty, e.state.seq⟩)
  let e := e.decrementMaker m.s.opposite bestPx p tradeQty
  { c with engine := e, remaining := c.remaining - tradeQty }

def notifyIfEmptied (e : Engine P ticks maxOrders lookup) (s : Side) (px : ℕ) :
    Engine P ticks maxOrders lookup :=
  if ((e.side s).levelAt px).empty then e.setSide s ((e.side s).notifyLevelEmptied s px) else e

/-- One turn of the loop over the makers of the level at `bestPx`. -/
def makerTurn (m : SubmitMsg) (bestPx : ℕ) (c : Matching P ticks maxOrders lookup) :
    Turn (Matching P ticks maxOrders lookup) :=
  match ((c.engine.side m.s.opposite).levelAt bestPx).fifo with
  | [] => .done c
  | p :: _ =>
      if c.remaining = 0 then .done c
      else if m.accountId ≠ 0 ∧ (c.engine.order p).accountId = m.accountId then
        let (abort, c) := handleSelfCross c m p bestPx
        if abort then
          .done { c with engine := c.engine.notifyIfEmptied m.s.opposite bestPx, aborted := true }
        else .again c
      else .again (fillMaker c m p bestPx)

/-- Every turn takes the front maker off the level or uses up the aggressor. -/
def makerLoop (m : SubmitMsg) (bestPx : ℕ) (c : Matching P ticks maxOrders lookup) :
    Matching P ticks maxOrders lookup :=
  run (makerTurn m bestPx)
    (((c.engine.side m.s.opposite).levelAt bestPx).fifo.length + 2) c

/-- One turn of the loop over the opposite side's levels. -/
def levelTurn (m : SubmitMsg) (c : Matching P ticks maxOrders lookup) :
    Turn (Matching P ticks maxOrders lookup) :=
  if c.remaining = 0 then .done c
  else match (c.engine.side m.s.opposite).best with
    | none => .done c
    | some bestPx =>
        if !m.s.crosses m.px bestPx then .done c
        else
          let c := makerLoop m bestPx c
          if c.aborted then .done c
          else .again { c with engine := c.engine.notifyIfEmptied m.s.opposite bestPx }

def matchAgainstOpposite (m : SubmitMsg) (e : Engine P ticks maxOrders lookup) :
    Matching P ticks maxOrders lookup :=
  run (levelTurn m) (e.book.arena.inUse + 2) ⟨e, m.qty, false⟩

/-! ## The fill-or-kill precheck -/

/-- The running total of the precheck and whether it met an own maker it cannot pass. -/
structure Precheck where
  total : UInt64 := 0
  aborted : Bool := false
  deriving DecidableEq, Repr

/-- Walk one level's FIFO. The flag says whether the whole walk is over. -/
def consumeFifo (selfCross : SelfCrossPolicy) (want : UInt64) (acct : UInt32) :
    List Order → Precheck → Bool × Precheck
  | [], c => (false, c)
  | o :: rest, c =>
      if o.accountId = acct then
        if selfCross = .cancelNewest then (true, { c with aborted := true })
        else consumeFifo selfCross want acct rest c
      else
        let c := { c with total := c.total + o.remaining }
        if want ≤ c.total then (true, c) else consumeFifo selfCross want acct rest c

def consumeLevel (e : Engine P ticks maxOrders lookup) (opp : Side) (want : UInt64)
    (acct : UInt32) (px : ℕ) (c : Precheck) : Bool × Precheck :=
  if acct = 0 ∨ e.cfg.selfCross = .decrementTrade then
    let c := { c with total := c.total + (e.side opp).aggregateAt px }
    (decide (want ≤ c.total), c)
  else consumeFifo e.cfg.selfCross want acct (((e.side opp).levelAt px).fifo.map e.order) c

/-- The populated level after `px`, walking away from the best price of side `opp`. -/
def worsePopulated (e : Engine P ticks maxOrders lookup) (opp : Side) (px : ℕ) : Option ℕ :=
  match opp with
  | .ask => (e.side .ask).nextPopulatedAtOrAfter (px + 1)
  | .bid => if px = 0 then none else (e.side .bid).prevPopulatedAtOrBefore (px - 1)

def precheckTurn (e : Engine P ticks maxOrders lookup) (opp : Side) (aggressorPx : ℕ)
    (want : UInt64) (acct : UInt32) (c : Option ℕ × Precheck) : Turn (Option ℕ × Precheck) :=
  match c.1 with
  | none => .done c
  | some px =>
      if !opp.opposite.crosses aggressorPx px then .done c
      else
        let (stop, c') := e.consumeLevel opp want acct px c.2
        if stop then .done (c.1, c')
        else .again (e.worsePopulated opp px, c')

def canFullyFill (e : Engine P ticks maxOrders lookup) (opp : Side) (aggressorPx : ℕ)
    (want : UInt64) (acct : UInt32) : Bool :=
  let c := (run (e.precheckTurn opp aggressorPx want acct) (ticks + 2)
    ((e.side opp).best, {})).2
  !c.aborted && decide (want ≤ c.total)

/-! ## Commands -/

def handleOf (e : Engine P ticks maxOrders lookup) (p : ℕ) : OrderHandle :=
  ⟨UInt32.ofNat p, e.book.arena.generation p⟩

def rest (e : Engine P ticks maxOrders lookup) (m : SubmitMsg) (remaining : UInt64) :
    OrderHandle × Engine P ticks maxOrders lookup :=
  match e.book.arena.allocate with
  | (none, a) =>
      let e := (e.setArena a).bumpSeq
      ({}, e.publish (.reject ⟨m.id, m.accountId, m.px, remaining, .arenaFull, e.state.seq⟩))
  | (some p, a) =>
      let o : Order := ⟨m.id, remaining, m.px, m.s, m.t, m.accountId⟩
      let e := e.setArena (a.put p o)
      let e := e.setSide m.s ((e.side m.s).add m.s p o)
      let e := e.markTop m.s m.px
      if lookup = .byHandle then (e.handleOf p, e)
      else ({}, e.setIdx (e.book.idx.insert m.id p))

def handleSubmit (e : Engine P ticks maxOrders lookup) (m : SubmitMsg) :
    OrderHandle × Engine P ticks maxOrders lookup :=
  if m.t = .fok ∧ !e.canFullyFill m.s.opposite m.px m.qty m.accountId then ({}, e)
  else
    let c := matchAgainstOpposite m e
    if c.remaining = 0 then ({}, c.engine)
    else match m.t with
      | .ioc => ({}, c.engine)
      | .fok => ({}, c.engine)
      | .gtc => c.engine.rest m c.remaining

def onSubmit (e : Engine P ticks maxOrders lookup) (m : SubmitMsg) :
    OrderHandle × Engine P ticks maxOrders lookup :=
  let (h, e) := e.handleSubmit m
  (h, e.publishTopIfChanged)

def resolve (e : Engine P ticks maxOrders lookup) (h : OrderHandle) (id : UInt64) : Option ℕ :=
  if maxOrders ≤ h.slot.toNat ∨ h.generation &&& 1 = 0 ∨
      e.book.arena.generation h.slot.toNat ≠ h.generation then none
  else if (e.order h.slot.toNat).id = id then some h.slot.toNat else none

/-- `find_`; with `unindex` the index gives up the entry it finds. -/
def find (e : Engine P ticks maxOrders lookup) (id : UInt64) (h : OrderHandle) (unindex : Bool) :
    Option ℕ × Engine P ticks maxOrders lookup :=
  if lookup = .byHandle then (e.resolve h id, e)
  else if unindex then
    let (p, x) := e.book.idx.take id
    (p, e.setIdx x)
  else (e.book.idx.lookup id, e)

def onCancel (e : Engine P ticks maxOrders lookup) (m : CancelMsg) :
    Engine P ticks maxOrders lookup :=
  match e.find m.id m.handle true with
  | (none, e) => e
  | (some p, e) =>
      let o := e.order p
      let e := e.setSide o.s ((e.side o.s).remove o.s p o)
      let e := e.setArena (e.book.arena.deallocate (some p))
      (e.markTop o.s o.px).publishTopIfChanged

/-- Mutate the order and its level's aggregate in place; time priority is kept. -/
def requantify (e : Engine P ticks maxOrders lookup) (p : ℕ) (newQty : UInt64) :
    Engine P ticks maxOrders lookup :=
  let o := e.order p
  let lvl := (e.side o.s).levelAt o.px
  let e := e.setSide o.s ((e.side o.s).setLevel o.px
    { lvl with aggregate := lvl.aggregate - o.remaining + newQty })
  let e := e.setOrder p { o with remaining := newQty }
  (e.markTop o.s o.px).publishTopIfChanged

/-- Move a record to the back of another level without giving up its slot. -/
def relink (e : Engine P ticks maxOrders lookup) (p newPx : ℕ) (newQty : UInt64) :
    Engine P ticks maxOrders lookup :=
  let o := e.order p
  let e := e.setSide o.s ((e.side o.s).remove o.s p o)
  let o' := { o with px := newPx, remaining := newQty }
  let e := e.setOrder p o'
  let e := e.setSide o.s ((e.side o.s).add o.s p o')
  ((e.markTop o.s o.px).markTop o.s newPx).publishTopIfChanged

def suppress (e : Engine P ticks maxOrders lookup) : Engine P ticks maxOrders lookup :=
  { e with state := { e.state with suppressTopDepth := e.state.suppressTopDepth + 1 } }

def unsuppress (e : Engine P ticks maxOrders lookup) : Engine P ticks maxOrders lookup :=
  { e with state := { e.state with suppressTopDepth := e.state.suppressTopDepth - 1 } }

/-- Cancel and resubmit, with the nested top messages held back. -/
def resubmit (e : Engine P ticks maxOrders lookup) (p : ℕ) (m : ModifyMsg) :
    OrderHandle × Engine P ticks maxOrders lookup :=
  let o := e.order p
  let e := e.suppress.onCancel ⟨o.id, m.handle⟩
  let (h, e) := e.onSubmit ⟨o.id, m.newPx, m.newQty, o.s, o.t, o.accountId⟩
  (h, e.unsuppress.publishTopIfChanged)

/-- The id chain of a cancel-replace. -/
def rename (e : Engine P ticks maxOrders lookup) (p : ℕ) (newId : UInt64) :
    Engine P ticks maxOrders lookup :=
  let e := e.setOrder p { e.order p with id := newId }
  if lookup = .byHandle then e else e.setIdx (e.book.idx.insert newId p)

/-- The price and quantity branches of a modify. -/
def reprice (e : Engine P ticks maxOrders lookup) (p : ℕ) (m : ModifyMsg) :
    OrderHandle × Engine P ticks maxOrders lookup :=
  let o := e.order p
  if m.newPx = o.px then
    if m.newQty = o.remaining then (m.handle, e)
    else (m.handle, e.requantify p m.newQty)
  else match (e.side o.s.opposite).best with
    | none => (m.handle, e.relink p m.newPx m.newQty)
    | some b =>
        if !o.s.crosses m.newPx b then (m.handle, e.relink p m.newPx m.newQty)
        else e.resubmit p m

def onModify (e : Engine P ticks maxOrders lookup) (m : ModifyMsg) :
    OrderHandle × Engine P ticks maxOrders lookup :=
  match e.find m.id m.handle m.renames with
  | (none, e) => ({}, e)
  | (some p, e) =>
      let e := if m.renames then e.rename p m.newId else e
      e.reprice p m

/-- The slot of the resting order a cancel or modify acts on. -/
def reached (e : Engine P ticks maxOrders lookup) : Command → Option ℕ
  | .submit _ => none
  | .cancel m => (e.find m.id m.handle true).1
  | .modify m => (e.find m.id m.handle m.renames).1

/-- One inbound command. -/
def apply (e : Engine P ticks maxOrders lookup) : Command → Engine P ticks maxOrders lookup
  | .submit m => (e.onSubmit m).2
  | .cancel m => e.onCancel m
  | .modify m => (e.onModify m).2

/-- A new engine after a list of commands. -/
def play (pub : P) (cfg : EngineConfig) (mem : Memory) (cmds : List Command) :
    Engine P ticks maxOrders lookup :=
  cmds.foldl apply (new pub cfg mem)

end Engine

/-! ## What the engine expects of its caller -/

/-- Prices on the ladder, and no id that is the index's empty-slot sentinel. -/
def Command.InRange (ticks : ℕ) : Command → Prop
  | .submit m => m.px < ticks ∧ m.id ≠ emptyKey
  | .cancel m => m.id ≠ emptyKey
  | .modify m => m.newPx < ticks ∧ m.id ≠ emptyKey ∧ m.newId ≠ emptyKey

instance (ticks : ℕ) : DecidablePred (Command.InRange ticks) := fun c =>
  match c with
  | .submit _ => inferInstanceAs (Decidable (_ ∧ _))
  | .cancel _ => inferInstanceAs (Decidable (_ ≠ _))
  | .modify _ => inferInstanceAs (Decidable (_ ∧ _ ∧ _))

/-- Order ids live in `[1, 2^64 - 2]`. -/
def ValidId (id : UInt64) : Prop := id ≠ 0 ∧ id ≠ emptyKey

instance : DecidablePred ValidId := fun _ => inferInstanceAs (Decidable (_ ∧ _))

/-- The documented domains: also quantities from one to the cap, and valid ids. -/
def Command.InDomain (ticks : ℕ) (maxOrderQty : UInt64) : Command → Prop
  | .submit m => m.px < ticks ∧ 0 < m.qty ∧ m.qty ≤ maxOrderQty ∧ ValidId m.id
  | .cancel m => ValidId m.id
  | .modify m => m.newPx < ticks ∧ 0 < m.newQty ∧ m.newQty ≤ maxOrderQty ∧ ValidId m.id ∧
      m.newId ≠ emptyKey

instance (ticks : ℕ) (maxOrderQty : UInt64) :
    DecidablePred (Command.InDomain ticks maxOrderQty) := fun c =>
  match c with
  | .submit _ => inferInstanceAs (Decidable (_ ∧ _ ∧ _ ∧ ValidId _))
  | .cancel m => inferInstanceAs (Decidable (ValidId m.id))
  | .modify _ => inferInstanceAs (Decidable (_ ∧ _ ∧ _ ∧ ValidId _ ∧ _))

theorem Command.InDomain.inRange {ticks : ℕ} {maxOrderQty : UInt64} {cmd : Command}
    (h : cmd.InDomain ticks maxOrderQty) : cmd.InRange ticks := by
  cases cmd with
  | submit m => exact ⟨h.1, h.2.2.2.2⟩
  | cancel m => exact h.2
  | modify m => exact ⟨h.1, h.2.2.2.1.2, h.2.2.2.2⟩

end Orderbooks
