import Orderbooks.Lib.Decimal
import Orderbooks.Lib.Loop
import Orderbooks.Types
import Orderbooks.IdIndex

/-!
# The FIX order-entry parser

`parse` turns the bytes at the front of a buffer into a command: the envelope
first, BeginString, BodyLength and CheckSum, and then the fields of the body. A
buffer is a list of bytes and a cursor into it a number of bytes to skip.
-/
namespace Orderbooks.Fix
open Decimal Loop

inductive Error where
  | ok
  | incomplete
  | malformed
  | badBeginString
  | badBodyLength
  | badChecksum
  | unsupportedMsgType
  | missingField
  | badFieldValue
  deriving DecidableEq, Repr

/-- The bound on BodyLength. -/
def maxMessageSize : ℕ := 4096

structure Result where
  err : Error := .malformed
  cmd : Command := .submit { id := 0, px := 0, qty := 0, s := .bid, t := .gtc }
  consumed : ℕ := 0
  deriving DecidableEq, Repr

inductive Tag where
  | account
  | beginString
  | bodyLength
  | checkSum
  | clOrdId
  | msgType
  | orderQty
  | origClOrdId
  | price
  | side
  | timeInForce
  deriving DecidableEq, Repr

def tagNumber : Tag → ℕ
  | .account => 1
  | .beginString => 8
  | .bodyLength => 9
  | .checkSum => 10
  | .clOrdId => 11
  | .msgType => 35
  | .orderQty => 38
  | .origClOrdId => 41
  | .price => 44
  | .side => 54
  | .timeInForce => 59

def soh : UInt8 := 1

def checksumTag : List UInt8 := ascii "10="

def checksumDigits : ℕ := 3

def checksumFieldWidth : ℕ := checksumTag.length + checksumDigits + 1

def decimalRadix : UInt32 := 10

/-- The digits an `int` holds whatever they are. -/
def maxTagDigits : ℕ := 9

/-! ## One field -/

inductive Scan (α : Type) where
  | ok (a : α)
  | needMore
  | bad
  deriving DecidableEq, Repr

structure Field where
  tag : ℕ
  value : List UInt8
  deriving DecidableEq, Repr

def equals : UInt8 := 61

/-- The loop that folds the tag on its way to the equals sign: the tag, its width and
what follows the sign. -/
def scanTag : List UInt8 → UInt32 → ℕ → Scan (UInt32 × ℕ × List UInt8)
  | [], _, _ => .needMore
  | ch :: rest, tag, width =>
      if ch = equals then .ok (tag, width, rest)
      else if decimalRadix ≤ ch.toUInt32 - 48 then .bad
      else scanTag rest (tag * decimalRadix + (ch.toUInt32 - 48)) (width + 1)

/-- Reads one field at `pos`; with it comes the position after its SOH. -/
def readField (buf : List UInt8) (pos : ℕ) : Scan (Field × ℕ) :=
  if buf.length ≤ pos then .needMore
  else
    match scanTag (buf.drop pos) 0 0 with
    | .needMore => .needMore
    | .bad => .bad
    | .ok (tag, width, rest) =>
        if width = 0 ∨ maxTagDigits < width then .bad
        else
          let value := rest.takeWhile (· ≠ soh)
          if rest.length ≤ value.length then .needMore
          else .ok (⟨tag.toNat, value⟩, pos + width + 1 + value.length + 1)

/-- The value of a whole text as an unsigned integer below `limit`. -/
def toUint (limit : ℕ) (v : List UInt8) : Option ℕ :=
  if v = [] then none
  else
    match fromChars limit v with
    | some (x, []) => some x
    | _ => none

/-! ## The envelope -/

/-- One of the two fields the envelope opens with: its value, and where it ends. -/
def expectField (buf : List UInt8) (pos : ℕ) (t : Tag) : Except Error (List UInt8 × ℕ) :=
  match readField buf pos with
  | .needMore => .error .incomplete
  | .bad => .error .malformed
  | .ok (f, pos) => if f.tag ≠ tagNumber t then .error .malformed else .ok (f.value, pos)

def toBodyLength (v : List UInt8) : Except Error ℕ :=
  match toUint (2 ^ 64) v with
  | none => .error .badBodyLength
  | some bodyLen => if maxMessageSize < bodyLen then .error .badBodyLength else .ok bodyLen

/-- Where the body starts and where the CheckSum field does. -/
def envelope (buf : List UInt8) : Except Error (ℕ × ℕ) := do
  let (dialect, pos) ← expectField buf 0 .beginString
  if dialect ≠ ascii "FIX.4.4" then .error .badBeginString
  else do
    let (value, bodyStart) ← expectField buf pos .bodyLength
    let bodyLen ← toBodyLength value
    if buf.length < bodyLen then .error .incomplete
    else if buf.length < bodyStart + bodyLen + checksumFieldWidth then .error .incomplete
    else .ok (bodyStart, bodyStart + bodyLen)

/-- The sum of the bytes, kept in 32 bits. -/
def byteSum (bytes : List UInt8) : UInt32 := bytes.foldl (fun sum ch => sum + ch.toUInt32) 0

/-- The CheckSum field at `csStart` closes the frame and states the sum of what is before it. -/
def verifyCheckSum (buf : List UInt8) (csStart : ℕ) : Except Error Unit :=
  let total := csStart + checksumFieldWidth
  let csDigits := csStart + checksumTag.length
  if (buf.drop csStart).take checksumTag.length ≠ checksumTag ∨ buf[total - 1]? ≠ some soh then
    .error .malformed
  else
    match toUint (2 ^ 32) ((buf.drop csDigits).take checksumDigits) with
    | none => .error .malformed
    | some stated =>
        if (byteSum (buf.take csStart)).toUInt8.toNat ≠ stated then .error .badChecksum
        else .ok ()

/-! ## The body -/

/-- What the fields of the body have said so far. -/
structure OrderFields where
  clordid : UInt64 := 0
  origId : UInt64 := 0
  qty : UInt64 := 0
  px : ℕ := 0
  sd : Side := .bid
  tf : Tif := .gtc
  account : UInt32 := 0
  hasClordid : Bool := false
  hasOrig : Bool := false
  hasQty : Bool := false
  hasPx : Bool := false
  hasSide : Bool := false
  deriving DecidableEq, Repr

/-- An order id. Zero keeps the id of a modified order and all ones marks an empty slot of
the index, so neither names an order. -/
def toOrderId (v : List UInt8) : Option UInt64 :=
  match toUint (2 ^ 64) v with
  | none => none
  | some x => if UInt64.ofNat x = 0 ∨ UInt64.ofNat x = emptyKey then none else some (.ofNat x)

def toSide (v : List UInt8) : Option Side :=
  if v = ascii "1" then some .bid
  else if v = ascii "2" then some .ask
  else none

def toTif (v : List UInt8) : Option Tif :=
  if v = ascii "0" ∨ v = ascii "1" then some .gtc
  else if v = ascii "3" then some .ioc
  else if v = ascii "4" then some .fok
  else none

/-- A value that does not convert fails the message. -/
def orBadValue {α : Type} : Option α → Except Error α
  | some a => .ok a
  | none => .error .badFieldValue

/-- One field of the body after MsgType. Tags that are not needed are passed over. -/
def OrderFields.take (a : OrderFields) (bf : Field) : Except Error OrderFields :=
  if bf.tag = tagNumber .account then
    (orBadValue (toUint (2 ^ 32) bf.value)).map fun x => { a with account := .ofNat x }
  else if bf.tag = tagNumber .clOrdId then
    (orBadValue (toOrderId bf.value)).map fun id => { a with clordid := id, hasClordid := true }
  else if bf.tag = tagNumber .origClOrdId then
    (orBadValue (toOrderId bf.value)).map fun id => { a with origId := id, hasOrig := true }
  else if bf.tag = tagNumber .orderQty then
    (orBadValue (toUint (2 ^ 64) bf.value)).map fun x => { a with qty := .ofNat x, hasQty := true }
  else if bf.tag = tagNumber .price then
    (orBadValue (toUint (2 ^ 32) bf.value)).map fun x => { a with px := x, hasPx := true }
  else if bf.tag = tagNumber .side then
    (orBadValue (toSide bf.value)).map fun s => { a with sd := s, hasSide := true }
  else if bf.tag = tagNumber .timeInForce then
    (orBadValue (toTif bf.value)).map fun t => { a with tf := t }
  else .ok a

/-- The loop over the fields of the body: the cursor, and what was read or the error. -/
structure BodyScan where
  bpos : ℕ
  read : Except Error OrderFields := .ok {}

def bodyTurn (body : List UInt8) (csStart : ℕ) (c : BodyScan) : Turn BodyScan :=
  match c.read with
  | .error _ => .done c
  | .ok a =>
      if c.bpos < csStart then
        match readField body c.bpos with
        | .ok (bf, bpos) => .again { bpos, read := a.take bf }
        | .needMore => .done { c with read := .error .malformed }
        | .bad => .done { c with read := .error .malformed }
      else .done c

def readFields (body : List UInt8) (csStart bpos : ℕ) : Except Error OrderFields :=
  (run (bodyTurn body csStart) (csStart + 2) { bpos }).read

/-- The command a body asks for, given what its fields said. -/
def buildCommand (msgType : List UInt8) (a : OrderFields) : Except Error Command :=
  if msgType = ascii "D" then
    if !a.hasClordid || !a.hasSide || !a.hasQty || !a.hasPx then .error .missingField
    else .ok (.submit
      { id := a.clordid, px := a.px, qty := a.qty, s := a.sd, t := a.tf, accountId := a.account })
  else if msgType = ascii "F" then
    if !a.hasOrig then .error .missingField
    else .ok (.cancel { id := a.origId })
  else if msgType = ascii "G" then
    if !a.hasClordid || !a.hasOrig || !a.hasQty || !a.hasPx then .error .missingField
    else .ok (.modify { id := a.origId, newPx := a.px, newQty := a.qty, newId := a.clordid })
  else .error .unsupportedMsgType

/-- The fields of the body are those up to `csStart`, MsgType first. -/
def parseBody (body : List UInt8) (bodyStart csStart : ℕ) : Except Error Command :=
  match readField body bodyStart with
  | .needMore => .error .malformed
  | .bad => .error .malformed
  | .ok (bf, bpos) =>
      if bf.tag ≠ tagNumber .msgType then .error .malformed
      else do
        let a ← readFields body csStart bpos
        buildCommand bf.value a

/-- The command in the first message and the bytes it takes. -/
def parseMessage (buf : List UInt8) : Except Error (Command × ℕ) := do
  let (bodyStart, csStart) ← envelope buf
  verifyCheckSum buf csStart
  let cmd ← parseBody (buf.take csStart) bodyStart csStart
  return (cmd, csStart + checksumFieldWidth)

def parse (buf : List UInt8) : Result :=
  match parseMessage buf with
  | .error err => { err }
  | .ok (cmd, consumed) => { err := .ok, cmd, consumed }

end Orderbooks.Fix
