import Orderbooks.Types
import Orderbooks.Lib.JsonObject
import Mathlib.Data.Int.Notation

/-!
# Recorded event logs

The writer, `json_recorder.hpp`, and the reader, `viz/event_log.py`. The writer names the
fields of each kind of event and so does the reader, in a list of its own. The recorder only
writes ASCII, so its output and the reader's text are lists of bytes.

The libraries the reader calls are arguments of it. `LoadsExact` and `TakesInt64` say what is
assumed of `orjson.loads` and of `np.fromiter` with the type `int64`.
-/
namespace Orderbooks.JsonLog
open Decimal JsonObject

/-! ## The recorder -/

structure Field where
  key : List UInt8
  value : ℕ
  deriving DecidableEq, Repr

/-- The stack buffer a line is formatted into. -/
def lineCapacity : ℕ := 384

/-- `std::numeric_limits<std::uint64_t>::digits10 + 1`. -/
def maxDigits : ℕ := 20

def appendNum (v : ℕ) : List UInt8 := toChars maxDigits v

def line (kind : List UInt8) (seq : UInt64) (fields : List Field) : List UInt8 :=
  ascii "\x7b\"kind\":\"" ++ kind ++ ascii "\",\"seq\":" ++ appendNum seq.toNat ++
    fields.flatMap (fun f => ascii ",\"" ++ f.key ++ ascii "\":" ++ appendNum f.value) ++
    ascii "\x7d\n"

def RejectReason.code : RejectReason → ℕ
  | .arenaFull => 0

/-- The kind tag of a line. -/
def kindTag : Event.Kind → List UInt8
  | .fill => ascii "fill"
  | .top => ascii "top"
  | .trade => ascii "trade"
  | .selfTrade => ascii "self_trade"
  | .reject => ascii "reject"

/-- The fields that `publish` names after the stamp. -/
def fields : Event → List Field
  | .fill m =>
      [⟨ascii "maker", m.maker.toNat⟩, ⟨ascii "taker", m.taker.toNat⟩, ⟨ascii "px", m.px⟩,
        ⟨ascii "qty", m.qty.toNat⟩]
  | .top m =>
      [⟨ascii "bid_px", m.bidPx⟩, ⟨ascii "ask_px", m.askPx⟩, ⟨ascii "bid_qty", m.bidQty.toNat⟩,
        ⟨ascii "ask_qty", m.askQty.toNat⟩]
  | .trade m => [⟨ascii "px", m.px⟩, ⟨ascii "qty", m.qty.toNat⟩]
  | .selfTrade m =>
      [⟨ascii "aggressor", m.aggressor.toNat⟩, ⟨ascii "resting", m.resting.toNat⟩,
        ⟨ascii "account", m.account.toNat⟩, ⟨ascii "px", m.px⟩, ⟨ascii "qty", m.qty.toNat⟩]
  | .reject m =>
      [⟨ascii "id", m.id.toNat⟩, ⟨ascii "account", m.account.toNat⟩, ⟨ascii "px", m.px⟩,
        ⟨ascii "qty", m.qty.toNat⟩, ⟨ascii "reason", RejectReason.code m.reason⟩]

/-- What `publish` writes for an event. -/
def publishLine (ev : Event) : List UInt8 := line (kindTag ev.kind) ev.seq (fields ev)

/-- The stream a recorder writes to. -/
structure JsonRecorder where
  out : List UInt8 := []
  deriving DecidableEq, Repr

instance : Publisher JsonRecorder := ⟨fun r ev => ⟨r.out ++ publishLine ev⟩⟩

/-- The output of a recorder that is handed `evs`. -/
def recordText (evs : List Event) : List UInt8 :=
  (evs.foldl Publisher.publish ({} : JsonRecorder)).out

/-! ## The reader -/

/-- The exceptions reading a log can raise. -/
inductive ReadError where
  | jsonDecode
  | key
  | overflow
  | value
  deriving DecidableEq, Repr

/-- The line boundaries of `str.splitlines` among ASCII characters. -/
def isBreak (ch : UInt8) : Bool :=
  ch == 10 || ch == 11 || ch == 12 || ch == 13 || ch == 28 || ch == 29 || ch == 30

/-- `splitlines` with the start of a line at hand; `"\r\n"` is one boundary. -/
def splitFrom (cur : List UInt8) : List UInt8 → List (List UInt8)
  | [] => if cur = [] then [] else [cur]
  | 13 :: 10 :: bs => cur :: splitFrom [] bs
  | ch :: bs => if isBreak ch then cur :: splitFrom [] bs else splitFrom (cur ++ [ch]) bs

def splitlines (text : List UInt8) : List (List UInt8) := splitFrom [] text

/-- ASCII whitespace, as `str.strip` removes it. -/
def isSpace (ch : UInt8) : Bool := isBreak ch || ch == 9 || ch == 31 || ch == 32

/-- The values in a record of the reader. -/
inductive PyValue where
  | str (s : List UInt8)
  | int (n : ℤ)
  deriving DecidableEq, Repr

def PyValue.of : Value → PyValue
  | .str s => .str s
  | .int n => .int n

abbrev Dict := List (List UInt8 × PyValue)

namespace Dict

/-- The members of an object as a dict. -/
def of (ms : List Member) : Dict := ms.map fun m => (m.1, .of m.2)

/-- The last of equal keys counts. -/
def get (r : Dict) (key : List UInt8) : Option PyValue := List.lookup key (List.reverse r)

/-- `itemgetter(c)`. -/
def item (c : List UInt8) (r : Dict) : Except ReadError PyValue :=
  match r.get c with
  | none => .error .key
  | some v => .ok v

end Dict

/-! ### The libraries -/

/-- `orjson.loads`, on a line that is an object. -/
abbrev Loads := List UInt8 → Except ReadError Dict

/-- Objects are read as they are written, and integers up to `2^64 - 1` exactly. -/
structure LoadsExact (loads : Loads) : Prop where
  object : ∀ (m : Member) (ms : List Member), (∀ m' ∈ m :: ms, MemberValid m') →
    loads (text m ms) = .ok (.of (m :: ms))

/-- `np.fromiter(it, dtype=np.int64)`, on what the iterator yields or raises. -/
abbrev FromIter := List (Except ReadError PyValue) → Except ReadError (List ℤ)

/-- A column takes exactly the integers of 64 bits with a sign. -/
structure TakesInt64 (fromiter : FromIter) : Prop where
  column : ∀ ns col : List ℤ, fromiter (ns.map fun n => .ok (.int n)) = .ok col ↔
    col = ns ∧ ∀ n ∈ ns, -2 ^ 63 ≤ n ∧ n < 2 ^ 63

/-- `_stream`: blank lines are skipped. -/
def records (loads : Loads) (lines : List (List UInt8)) : Except ReadError (List Dict) :=
  (lines.filter fun raw => !raw.all isSpace).mapM loads

/-- A table by columns. -/
abbrev Table := List (List UInt8 × List ℤ)

def columnar (fromiter : FromIter) (rows : List Dict) (cols : List (List UInt8)) :
    Except ReadError Table :=
  if rows.isEmpty then .ok (cols.map fun c => (c, []))
  else cols.mapM fun c => do
    let column ← fromiter (rows.map (Dict.item c))
    return (c, column)

def fillCols : List (List UInt8) :=
  [ascii "seq", ascii "maker", ascii "taker", ascii "px", ascii "qty"]

def topCols : List (List UInt8) :=
  [ascii "seq", ascii "bid_px", ascii "ask_px", ascii "bid_qty", ascii "ask_qty"]

def tradeCols : List (List UInt8) := [ascii "seq", ascii "px", ascii "qty"]

def selfTradeCols : List (List UInt8) :=
  [ascii "seq", ascii "aggressor", ascii "resting", ascii "account", ascii "px", ascii "qty"]

def rejectCols : List (List UInt8) :=
  [ascii "seq", ascii "id", ascii "account", ascii "px", ascii "qty", ascii "reason"]

structure EventLog where
  fills : Table
  tops : Table
  trades : Table
  selfTrades : Table
  rejects : Table
  deriving DecidableEq, Repr

/-- The records that are dispatched on a kind; records of no known kind go nowhere. -/
def ofKind (kind : List UInt8) (rs : List Dict) : List Dict :=
  rs.filter fun r => r.get (ascii "kind") == some (.str kind)

def split (fromiter : FromIter) (rs : List Dict) : Except ReadError EventLog := do
  let fills ← columnar fromiter (ofKind (ascii "fill") rs) fillCols
  let tops ← columnar fromiter (ofKind (ascii "top") rs) topCols
  let trades ← columnar fromiter (ofKind (ascii "trade") rs) tradeCols
  let selfTrades ← columnar fromiter (ofKind (ascii "self_trade") rs) selfTradeCols
  let rejects ← columnar fromiter (ofKind (ascii "reject") rs) rejectCols
  return ⟨fills, tops, trades, selfTrades, rejects⟩

def readText (loads : Loads) (fromiter : FromIter) (text : List UInt8) :
    Except ReadError EventLog := do
  let rs ← records loads (splitlines text)
  split fromiter rs

end Orderbooks.JsonLog
