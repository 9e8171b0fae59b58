import Mathlib.Tactic.Common
import Mathlib.Data.Nat.Notation
import Mathlib.Data.Set.Insert
import Mathlib.Data.Fintype.Basic
import Mathlib.Data.UInt

/-!
# Types, configuration and messages

`types.hpp`, `config.hpp`, `order.hpp` and `messages.hpp`. Order ids,
quantities and stamps are 64-bit and accounts 32-bit machine integers. A price
(`tick_t`) is a ladder index: every price the engine is given is below `Ticks`,
at most `64^4`, so prices are natural numbers and the 32-bit width is only
visible where a price is read from or written to bytes.

An `order*` is the index of the arena slot that holds the order. Padding bytes
and the intrusive list hook of `order` carry no information here.
-/
namespace Orderbooks

/-- How a cancel or modify reaches the order it names. -/
inductive OrderLookup where
  | byId
  | byHandle
  deriving DecidableEq, Repr

structure OrderHandle where
  slot : UInt32 := 0
  generation : UInt32 := 0
  deriving DecidableEq, Repr, Inhabited

inductive Side where
  | bid
  | ask
  deriving DecidableEq, Repr, Inhabited

inductive Tif where
  | gtc
  | ioc
  | fok
  deriving DecidableEq, Repr, Inhabited

instance : Fintype Side := ⟨{.bid, .ask}, fun s => by cases s <;> decide⟩

def Side.opposite : Side → Side
  | .bid => .ask
  | .ask => .bid

@[simp] theorem Side.opposite_opposite (s : Side) : s.opposite.opposite = s := by
  cases s <;> rfl

theorem Side.opposite_ne (s : Side) : s.opposite ≠ s := by
  cases s <;> decide

/-- An aggressor on side `s` with limit `px` trades with the opposite price `q`. -/
def Side.crosses : Side → ℕ → ℕ → Bool
  | .bid, px, q => decide (q ≤ px)
  | .ask, px, q => decide (px ≤ q)

/-- `p` is strictly better than `q` among the prices resting on side `s`. -/
def Side.better : Side → ℕ → ℕ → Bool
  | .bid, p, q => decide (q < p)
  | .ask, p, q => decide (p < q)

/-- The best price once an order rests at `p`. -/
def Side.improve (s : Side) (p : ℕ) : Option ℕ → Option ℕ
  | none => some p
  | some q => if s.better p q then some p else some q

/-- `b` is the best of the prices in `S`, or absent when there are none. -/
def Side.IsBest (s : Side) (S : Set ℕ) : Option ℕ → Prop
  | none => S = ∅
  | some p => p ∈ S ∧ ∀ q ∈ S, s.better q p = false

theorem Side.better_total (s : Side) {p q : ℕ} (hpq : s.better p q = false)
    (hqp : s.better q p = false) : p = q := by
  cases s <;> simp only [Side.better, decide_eq_false_iff_not] at hpq hqp <;> omega

theorem Side.IsBest.unique {s : Side} {S : Set ℕ} {a b : Option ℕ} (ha : s.IsBest S a)
    (hb : s.IsBest S b) : a = b := by
  cases a with
  | none =>
      cases b with
      | none => rfl
      | some q =>
          have := hb.1
          rw [show S = ∅ from ha] at this
          exact this.elim
  | some p =>
      cases b with
      | none =>
          have := ha.1
          rw [show S = ∅ from hb] at this
          exact this.elim
      | some q => rw [s.better_total (hb.2 p ha.1) (ha.2 q hb.1)]

theorem Side.IsBest.insert {s : Side} {S : Set ℕ} {a : Option ℕ} (ha : s.IsBest S a) (p : ℕ) :
    s.IsBest (insert p S) (s.improve p a) := by
  cases a with
  | none =>
      refine ⟨Set.mem_insert p S, fun q hq => ?_⟩
      rw [show S = ∅ from ha] at hq
      rcases hq with rfl | hq
      · cases s <;> simp [Side.better]
      · exact hq.elim
  | some r =>
      obtain ⟨hr, hbest⟩ := ha
      simp only [Side.improve]
      split_ifs with hpr
      · refine ⟨Set.mem_insert p S, fun q hq => ?_⟩
        rcases hq with rfl | hq
        · cases s <;> simp [Side.better]
        · have := hbest q hq
          cases s <;> simp only [Side.better, decide_eq_true_eq, decide_eq_false_iff_not] at * <;>
            omega
      · refine ⟨Set.mem_insert_of_mem p hr, fun q hq => ?_⟩
        rcases hq with rfl | hq
        · simpa using hpr
        · exact hbest q hq

/-- Dropping another price leaves the best one alone. -/
theorem Side.IsBest.erase {s : Side} {S : Set ℕ} {a : Option ℕ} {p : ℕ} (ha : s.IsBest S a)
    (hp : a ≠ some p) : s.IsBest (S \ {p}) a := by
  cases a with
  | none =>
      refine Set.eq_empty_of_forall_notMem fun q hq => ?_
      rw [show S = ∅ from ha] at hq
      exact hq.1
  | some r => exact ⟨⟨ha.1, fun h => hp (by rw [h])⟩, fun q hq => ha.2 q hq.1⟩

/-- The resting-order record. -/
structure Order where
  id : UInt64
  remaining : UInt64
  px : ℕ
  s : Side
  t : Tif
  accountId : UInt32
  deriving DecidableEq, Repr, Inhabited

inductive SelfCrossPolicy where
  | cancelNewest
  | cancelOldest
  | decrementTrade
  deriving DecidableEq, Repr, Inhabited

structure EngineConfig where
  maxOrderQty : UInt64 := 4294967296
  selfCross : SelfCrossPolicy := .cancelNewest
  seqBase : UInt64 := 0
  topThrottle : Bool := true
  deriving DecidableEq, Repr, Inhabited

/-! ## Inbound commands -/

structure SubmitMsg where
  id : UInt64
  px : ℕ
  qty : UInt64
  s : Side
  t : Tif
  accountId : UInt32 := 0
  deriving DecidableEq, Repr

structure CancelMsg where
  id : UInt64
  handle : OrderHandle := {}
  deriving DecidableEq, Repr

/-- A nonzero `newId` renames the order as part of the modify. -/
structure ModifyMsg where
  id : UInt64
  newPx : ℕ
  newQty : UInt64
  newId : UInt64 := 0
  handle : OrderHandle := {}
  deriving DecidableEq, Repr

/-- Whether a modify assigns the order another id. -/
def ModifyMsg.renames (m : ModifyMsg) : Bool := m.newId ≠ 0 ∧ m.newId ≠ m.id

inductive Command where
  | submit (m : SubmitMsg)
  | cancel (m : CancelMsg)
  | modify (m : ModifyMsg)
  deriving DecidableEq, Repr

/-- The order id a command names. -/
def Command.id : Command → UInt64
  | .submit m => m.id
  | .cancel m => m.id
  | .modify m => m.id

/-! ## Outbound events -/

structure FillMsg where
  maker : UInt64
  taker : UInt64
  px : ℕ
  qty : UInt64
  seq : UInt64
  deriving DecidableEq, Repr

structure TopMsg where
  bidPx : ℕ
  askPx : ℕ
  bidQty : UInt64
  askQty : UInt64
  seq : UInt64
  deriving DecidableEq, Repr

structure TradeMsg where
  px : ℕ
  qty : UInt64
  seq : UInt64
  deriving DecidableEq, Repr

structure SelfTradeMsg where
  aggressor : UInt64
  resting : UInt64
  account : UInt32
  px : ℕ
  qty : UInt64
  seq : UInt64
  deriving DecidableEq, Repr

inductive RejectReason where
  | arenaFull
  deriving DecidableEq, Repr

structure RejectMsg where
  id : UInt64
  account : UInt32
  px : ℕ
  qty : UInt64
  reason : RejectReason
  seq : UInt64
  deriving DecidableEq, Repr

inductive Event where
  | fill (m : FillMsg)
  | top (m : TopMsg)
  | trade (m : TradeMsg)
  | selfTrade (m : SelfTradeMsg)
  | reject (m : RejectMsg)
  deriving DecidableEq, Repr

namespace Event

def seq : Event → UInt64
  | .fill m => m.seq
  | .top m => m.seq
  | .trade m => m.seq
  | .selfTrade m => m.seq
  | .reject m => m.seq

inductive Kind where
  | fill | top | trade | selfTrade | reject
  deriving DecidableEq, Repr

def kind : Event → Kind
  | .fill _ => .fill
  | .top _ => .top
  | .trade _ => .trade
  | .selfTrade _ => .selfTrade
  | .reject _ => .reject

end Event

/-- The resting order, the incoming order and the price, where two orders meet. -/
def Event.parties : Event → Option (UInt64 × UInt64 × ℕ)
  | .fill m => some (m.maker, m.taker, m.px)
  | .selfTrade m => some (m.resting, m.aggressor, m.px)
  | _ => none

/-- The engine only ever hands a publisher one event after another. -/
class Publisher (P : Type) where
  publish : P → Event → P

/-- The publisher that records what it is given, oldest event first. -/
instance : Publisher (List Event) := ⟨fun log e => log ++ [e]⟩

@[simp] theorem publish_list (log : List Event) (e : Event) :
    Publisher.publish log e = log ++ [e] := rfl

theorem foldl_publish_list (log evs : List Event) :
    evs.foldl Publisher.publish log = log ++ evs := by
  induction evs generalizing log with
  | nil => simp
  | cons ev evs ih =>
      rw [List.foldl_cons, ih, publish_list, List.append_assoc, List.singleton_append]

end Orderbooks
