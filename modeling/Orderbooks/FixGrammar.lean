import Orderbooks.FixStream

/-!
# The messages the parser accepts

A message is given here by what it is, not by how it is read: an envelope around a
body of fields, MsgType first, with valid values for the tags that matter and the
required ones present. `parse` accepts exactly the buffers that start with one.
-/
namespace Orderbooks.Fix
open Decimal Loop

variable {f : Field} {fs : List Field} {v buf : List UInt8}

/-! ## Values -/

/-- A decimal numeral below `limit`. -/
def Unsigned (limit : ℕ) (v : List UInt8) : Prop := v ≠ [] ∧ Digits v ∧ numeral v < limit

instance (limit : ℕ) : DecidablePred (Unsigned limit) := fun _ =>
  inferInstanceAs (Decidable (_ ∧ _))

/-- An id an order may have. -/
def OrderId (v : List UInt8) : Prop := Unsigned (2 ^ 64 - 1) v ∧ 0 < numeral v

instance : DecidablePred OrderId := fun _ => inferInstanceAs (Decidable (_ ∧ _))

/-- The value of a field is one its tag allows. -/
def Field.Valid (f : Field) : Prop :=
  (f.tag = tagNumber .account → Unsigned (2 ^ 32) f.value) ∧
  (f.tag = tagNumber .price → Unsigned (2 ^ 32) f.value) ∧
  (f.tag = tagNumber .orderQty → Unsigned (2 ^ 64) f.value) ∧
  (f.tag = tagNumber .clOrdId → OrderId f.value) ∧
  (f.tag = tagNumber .origClOrdId → OrderId f.value) ∧
  (f.tag = tagNumber .side → f.value = ascii "1" ∨ f.value = ascii "2") ∧
  (f.tag = tagNumber .timeInForce →
    f.value = ascii "0" ∨ f.value = ascii "1" ∨ f.value = ascii "3" ∨ f.value = ascii "4")

instance : DecidablePred Field.Valid := fun _ => inferInstanceAs (Decidable (_ ∧ _))

def sideOf (v : List UInt8) : Side := if v = ascii "2" then .ask else .bid

def tifOf (v : List UInt8) : Tif :=
  if v = ascii "3" then .ioc else if v = ascii "4" then .fok else .gtc

/-- The value of the last field with the tag. -/
def lastValue (fs : List Field) (t : Tag) : Option (List UInt8) :=
  (fs.filter fun f => f.tag = tagNumber t).getLast?.map Field.value

/-- The number in the last field with the tag, zero without one. -/
def lastNumber (fs : List Field) (t : Tag) : ℕ := ((lastValue fs t).map numeral).getD 0

/-- What the last field of each tag says. -/
def summary (fs : List Field) : OrderFields where
  clordid := .ofNat (lastNumber fs .clOrdId)
  origId := .ofNat (lastNumber fs .origClOrdId)
  qty := .ofNat (lastNumber fs .orderQty)
  px := lastNumber fs .price
  sd := ((lastValue fs .side).map sideOf).getD .bid
  tf := ((lastValue fs .timeInForce).map tifOf).getD .gtc
  account := .ofNat (lastNumber fs .account)
  hasClordid := (lastValue fs .clOrdId).isSome
  hasOrig := (lastValue fs .origClOrdId).isSome
  hasQty := (lastValue fs .orderQty).isSome
  hasPx := (lastValue fs .price).isSome
  hasSide := (lastValue fs .side).isSome

theorem toUint_eq (limit : ℕ) (v : List UInt8) :
    toUint limit v = if Unsigned limit v then some (numeral v) else none := by
  split_ifs with h
  · exact toUint_eq_some.mpr ⟨h.1, h.2.1, h.2.2, rfl⟩
  · rw [Option.eq_none_iff_forall_ne_some]
    intro x hx
    obtain ⟨hne, hd, hlt, -⟩ := toUint_eq_some.mp hx
    exact h ⟨hne, hd, hlt⟩

theorem toOrderId_eq (v : List UInt8) :
    toOrderId v = if OrderId v then some (.ofNat (numeral v)) else none := by
  unfold toOrderId
  rw [toUint_eq]
  by_cases hu : Unsigned (2 ^ 64) v
  · rw [if_pos hu]
    have hlt := hu.2.2
    have hzero : UInt64.ofNat (numeral v) = 0 ↔ numeral v = 0 := by
      rw [← UInt64.toNat_inj, UInt64.toNat_ofNat_of_lt' hlt]
      rfl
    have hones : UInt64.ofNat (numeral v) = emptyKey ↔ numeral v = 2 ^ 64 - 1 := by
      rw [← UInt64.toNat_inj, UInt64.toNat_ofNat_of_lt' hlt]
      rfl
    have hid : OrderId v ↔
        ¬(UInt64.ofNat (numeral v) = 0 ∨ UInt64.ofNat (numeral v) = emptyKey) := by
      rw [hzero, hones]
      constructor
      · rintro ⟨⟨-, -, hlt'⟩, hpos⟩
        omega
      · intro h
        exact ⟨⟨hu.1, hu.2.1, by omega⟩, by omega⟩
    simp only [hid, ite_not]
  · rw [if_neg hu, if_neg]
    rintro ⟨⟨hne, hd, hlt⟩, -⟩
    exact hu ⟨hne, hd, by omega⟩

theorem toSide_eq (v : List UInt8) :
    toSide v = if v = ascii "1" ∨ v = ascii "2" then some (sideOf v) else none := by
  unfold toSide sideOf
  by_cases h₁ : v = ascii "1"
  · subst h₁
    rfl
  · by_cases h₂ : v = ascii "2"
    · subst h₂
      rfl
    · simp [h₁, h₂]

theorem toTif_eq (v : List UInt8) : toTif v =
    if v = ascii "0" ∨ v = ascii "1" ∨ v = ascii "3" ∨ v = ascii "4" then some (tifOf v)
    else none := by
  unfold toTif tifOf
  by_cases h : v = ascii "0" ∨ v = ascii "1" ∨ v = ascii "3" ∨ v = ascii "4"
  · rw [if_pos h]
    rcases h with rfl | rfl | rfl | rfl <;> rfl
  · simp only [not_or] at h
    simp [h]

/-! ## The fields of a body -/

theorem lastValue_concat (fs : List Field) (f : Field) (t : Tag) :
    lastValue (fs ++ [f]) t = if f.tag = tagNumber t then some f.value else lastValue fs t := by
  unfold lastValue
  rw [List.filter_append]
  by_cases h : f.tag = tagNumber t
  · simp [h]
  · simp [h]

/-- Every step of the loop over the body adds one field to the summary. -/
theorem take_summary (fs : List Field) (f : Field) :
    (summary fs).take f =
      if f.Valid then .ok (summary (fs ++ [f])) else .error .badFieldValue := by
  have hput {α : Type} (p : Prop) [Decidable p] (a : α) (k : α → OrderFields) :
      (orBadValue (if p then some a else none)).map k =
        if p then .ok (k a) else .error .badFieldValue := by
    split_ifs <;> rfl
  unfold OrderFields.take
  simp only [toUint_eq, toOrderId_eq, toSide_eq, toTif_eq, hput, Field.Valid, summary, lastNumber,
    lastValue_concat]
  by_cases h₁ : f.tag = tagNumber .account
  · simp [h₁, tagNumber]
  by_cases h₂ : f.tag = tagNumber .clOrdId
  · simp [h₂, tagNumber]
  by_cases h₃ : f.tag = tagNumber .origClOrdId
  · simp [h₃, tagNumber]
  by_cases h₄ : f.tag = tagNumber .orderQty
  · simp [h₄, tagNumber]
  by_cases h₅ : f.tag = tagNumber .price
  · simp [h₅, tagNumber]
  by_cases h₆ : f.tag = tagNumber .side
  · simp [h₆, tagNumber]
  by_cases h₇ : f.tag = tagNumber .timeInForce
  · simp [h₇, tagNumber]
  · simp [h₁, h₂, h₃, h₄, h₅, h₆, h₇]

def takeAll (a : OrderFields) (fs : List Field) : Except Error OrderFields :=
  fs.foldlM OrderFields.take a

theorem takeAll_summary (fs : List Field) :
    takeAll {} fs = if ∀ f ∈ fs, f.Valid then .ok (summary fs) else .error .badFieldValue := by
  induction fs using List.reverseRecOn with
  | nil => rfl
  | append_singleton fs f ih =>
      have hconcat : takeAll {} (fs ++ [f]) = takeAll {} fs >>= fun a => a.take f := by
        simp [takeAll, List.foldlM_append]
      have hall : (∀ g ∈ fs ++ [f], g.Valid) ↔ (∀ g ∈ fs, g.Valid) ∧ f.Valid := by
        rw [List.forall_mem_append, List.forall_mem_singleton]
      rw [hconcat, ih, if_congr hall rfl rfl]
      by_cases hfs : ∀ g ∈ fs, g.Valid
      · rw [if_pos hfs, if_congr (and_iff_right hfs) rfl rfl]
        exact take_summary fs f
      · rw [if_neg hfs, if_neg fun h => hfs h.1]
        rfl

def texts (gs : List FieldText) : List UInt8 := gs.flatMap FieldText.bytes

theorem length_le_texts (gs : List FieldText) : gs.length ≤ (texts gs).length := by
  induction gs with
  | nil => exact le_refl _
  | cons g gs ih =>
      have := g.bytes_pos
      simp only [texts, List.flatMap_cons, List.length_append, List.length_cons] at ih ⊢
      omega

/-- No field starts here. -/
def Unreadable (l : List UInt8) : Prop := ∀ (g : FieldText) rest, l ≠ g.bytes ++ rest

/-- Any text is fields as far as they go, and then something that starts with none. -/
theorem exists_texts (l : List UInt8) : ∃ gs rest, l = texts gs ++ rest ∧ Unreadable rest := by
  induction hlen : l.length using Nat.strongRecOn generalizing l with
  | _ n ih =>
      by_cases hread : Unreadable l
      · exact ⟨[], l, rfl, hread⟩
      · simp only [Unreadable, not_forall, not_not] at hread
        obtain ⟨g, rest, rfl⟩ := hread
        have hshort : rest.length < n := by
          have := g.bytes_pos
          rw [List.length_append] at hlen
          omega
        obtain ⟨gs, rest', rfl, hrest'⟩ := ih _ hshort rest rfl
        exact ⟨g :: gs, rest', by simp [texts], hrest'⟩

/-- The loop over a body takes its fields one after another; it must end with the last. -/
theorem run_bodyTurn {rest : List UInt8} (hrest : Unreadable rest) (gs : List FieldText) :
    ∀ (pre : List UInt8) (a : OrderFields) (fuel : ℕ), gs.length + 1 < fuel →
      let body := pre ++ (texts gs ++ rest)
      (run (bodyTurn body body.length) fuel ⟨pre.length, .ok a⟩).read = (do
        let a' ← takeAll a (gs.map FieldText.field)
        if rest = [] then .ok a' else .error .malformed) := by
  induction gs with
  | nil =>
      intro pre a fuel hfuel body
      obtain ⟨fuel, rfl⟩ := Nat.exists_eq_succ_of_ne_zero (Nat.ne_zero_of_lt hfuel)
      have hdrop : body.drop pre.length = rest := List.drop_left
      change _ = if rest = [] then _ else _
      by_cases hnil : rest = []
      · have hturn : bodyTurn body body.length ⟨pre.length, .ok a⟩ = .done ⟨pre.length, .ok a⟩ := by
          have : ¬pre.length < body.length := by simp [body, texts, hnil]
          simp only [bodyTurn, if_neg this]
        rw [run_done hturn, if_pos hnil]
      · have hlt : pre.length < body.length := by
          have := List.length_pos_iff.mpr hnil
          simp only [body, texts, List.flatMap_nil, List.nil_append, List.length_append]
          omega
        have hturn : bodyTurn body body.length ⟨pre.length, .ok a⟩ =
            .done ⟨pre.length, .error .malformed⟩ := by
          rcases readField_cases body pre.length with ⟨-, h⟩ | ⟨-, h⟩ | ⟨g, rest', h, -⟩
          · simp only [bodyTurn, if_pos hlt, h]
          · simp only [bodyTurn, if_pos hlt, h]
          · exact absurd (hdrop.symm.trans h) (hrest g rest')
        rw [run_done hturn, if_neg hnil]
  | cons g gs ih =>
      intro pre a fuel hfuel body
      obtain ⟨fuel, rfl⟩ := Nat.exists_eq_succ_of_ne_zero (Nat.ne_zero_of_lt hfuel)
      have hdrop : body.drop pre.length = g.bytes ++ (texts gs ++ rest) := by
        simp [body, texts]
      have hlt : pre.length < body.length := by
        have := g.bytes_pos
        simp only [body, texts, List.flatMap_cons, List.length_append]
        omega
      have hturn : bodyTurn body body.length ⟨pre.length, .ok a⟩ =
          .again ⟨pre.length + g.bytes.length, a.take g.field⟩ := by
        simp only [bodyTurn, if_pos hlt, readField_text hdrop]
      rw [run_again hturn]
      cases htake : a.take g.field with
      | error e =>
          obtain ⟨fuel, rfl⟩ := Nat.exists_eq_succ_of_ne_zero (n := fuel) (by
            rw [List.length_cons] at hfuel
            omega)
          have hstop : bodyTurn body body.length ⟨pre.length + g.bytes.length, .error e⟩ =
              .done ⟨pre.length + g.bytes.length, .error e⟩ := rfl
          rw [run_done hstop, List.map_cons, takeAll, List.foldlM_cons, htake]
          rfl
      | ok a' =>
          have hbody : body = (pre ++ g.bytes) ++ (texts gs ++ rest) := by
            simp [body, texts]
          have hnext := ih (pre ++ g.bytes) a' fuel (by rw [List.length_cons] at hfuel; omega)
          rw [← hbody, List.length_append] at hnext
          rw [hnext, List.map_cons, takeAll, takeAll, List.foldlM_cons, htake]
          rfl

/-- The fields of a body that is all fields, each with a value its tag allows. -/
theorem readFields_ok {pre l : List UInt8} {a : OrderFields} :
    readFields (pre ++ l) (pre ++ l).length pre.length = .ok a ↔
      ∃ gs : List FieldText, l = texts gs ∧ (∀ g ∈ gs, g.field.Valid) ∧
        a = summary (gs.map FieldText.field) := by
  have hrun : ∀ gs rest, Unreadable rest →
      readFields (pre ++ (texts gs ++ rest)) (pre ++ (texts gs ++ rest)).length pre.length =
        (do
          let a ← takeAll {} (gs.map FieldText.field)
          if rest = [] then .ok a else .error .malformed) := by
    intro gs rest hrest
    refine run_bodyTurn hrest gs pre {} _ ?_
    have := length_le_texts gs
    simp only [List.length_append]
    omega
  have hvalid : ∀ gs : List FieldText, (∀ f ∈ gs.map FieldText.field, f.Valid) ↔
      ∀ g ∈ gs, g.field.Valid := fun gs => List.forall_mem_map
  constructor
  · intro h
    obtain ⟨gs, rest, rfl, hrest⟩ := exists_texts l
    rw [hrun gs rest hrest, takeAll_summary] at h
    obtain ⟨a', hall, h⟩ := bind_eq_ok.mp h
    split_ifs at hall h with hgs hnil
    obtain rfl := Except.ok.inj hall
    obtain rfl := Except.ok.inj h
    exact ⟨gs, by simp [hnil], (hvalid gs).mp hgs, rfl⟩
  · rintro ⟨gs, rfl, hgs, rfl⟩
    have hnil : Unreadable [] := fun g rest h => by simp [FieldText.bytes] at h
    have h := hrun gs [] hnil
    rw [List.append_nil, takeAll_summary, if_pos ((hvalid gs).mpr hgs)] at h
    exact h

/-! ## Frames -/

def byteTotal (bytes : List UInt8) : ℕ := (bytes.map UInt8.toNat).sum

theorem byteSum_toUInt8 (bytes : List UInt8) :
    (byteSum bytes).toUInt8.toNat = byteTotal bytes % 256 := by
  have hfold : ∀ acc : UInt32, (bytes.foldl (fun sum ch => sum + ch.toUInt32) acc).toNat % 256 =
      (acc.toNat + byteTotal bytes) % 256 := by
    induction bytes with
    | nil =>
        intro acc
        rfl
    | cons ch bytes ih =>
        intro acc
        rw [List.foldl_cons, ih, UInt32.toNat_add, UInt8.toNat_toUInt32]
        simp only [byteTotal, List.map_cons, List.sum_cons]
        omega
  have h := hfold 0
  rw [UInt32.toNat_toUInt8, byteSum]
  simpa using h

/-- An envelope around any body: the two fields it opens with, the length of the body in the
second, and the three digits of the CheckSum field it closes with. -/
structure Frame where
  head : FieldText
  len : FieldText
  body : List UInt8
  digits : List UInt8
  head_tag : head.field.tag = tagNumber .beginString
  head_value : head.value = ascii "FIX.4.4"
  len_tag : len.field.tag = tagNumber .bodyLength
  len_nonempty : len.value ≠ []
  len_digits : Digits len.value
  len_value : numeral len.value = body.length
  len_le : body.length ≤ maxMessageSize
  digits_length : digits.length = checksumDigits
  digits_numeric : Digits digits
  digits_value : numeral digits = byteTotal (head.bytes ++ len.bytes ++ body) % 256

namespace Frame

/-- Everything before the CheckSum field. -/
def front (w : Frame) : List UInt8 := w.head.bytes ++ w.len.bytes ++ w.body

def bytes (w : Frame) : List UInt8 := w.front ++ (checksumTag ++ w.digits ++ [soh])

theorem bytes_length (w : Frame) : w.bytes.length = w.front.length + checksumFieldWidth := by
  simp only [bytes, List.length_append, w.digits_length, checksumFieldWidth, List.length_singleton]

theorem front_length (w : Frame) :
    w.front.length = w.head.bytes.length + w.len.bytes.length + w.body.length := by
  simp only [front, List.length_append]

end Frame

theorem verifyCheckSum_ok {front tail : List UInt8} :
    verifyCheckSum (front ++ tail) front.length = .ok () ↔
      ∃ digits x, tail = checksumTag ++ digits ++ soh :: x ∧ digits.length = checksumDigits ∧
        Digits digits ∧ numeral digits = byteTotal front % 256 := by
  have hend : (front ++ tail)[front.length + checksumFieldWidth - 1]? = tail[6]? := by
    rw [List.getElem?_append_right (by rw [checksumFieldWidth_eq]; omega), checksumFieldWidth_eq]
    congr 1
    omega
  have hskip : (front ++ tail).drop (front.length + checksumTag.length) = tail.drop 3 := by
    rw [List.drop_append, List.drop_of_length_le (by omega), checksumTag_length]
    simp
  unfold verifyCheckSum
  simp only [hend, hskip, List.drop_left, List.take_left, byteSum_toUInt8]
  constructor
  · intro h
    by_cases hshape : tail.take checksumTag.length ≠ checksumTag ∨ tail[6]? ≠ some soh
    · rw [if_pos hshape] at h
      cases h
    rw [if_neg hshape] at h
    obtain ⟨htag, hsoh⟩ := not_or.mp hshape
    rw [not_not] at htag hsoh
    cases hstated : toUint (2 ^ 32) ((tail.drop 3).take checksumDigits) with
    | none =>
        rw [hstated] at h
        cases h
    | some stated =>
        rw [hstated] at h
        obtain ⟨-, hd, -, rfl⟩ := toUint_eq_some.mp hstated
        dsimp only at h
        split_ifs at h with hsum
        obtain ⟨hlen, hsoh⟩ := List.getElem?_eq_some_iff.mp hsoh
        have htail : tail = checksumTag ++ ((tail.drop 3).take 3 ++ soh :: tail.drop 7) := by
          conv_lhs => rw [← List.take_append_drop 3 tail, ← List.take_append_drop 3 (tail.drop 3)]
          rw [List.drop_drop, List.drop_eq_getElem_cons hlen, hsoh]
          exact congrArg (· ++ _) htag
        refine ⟨(tail.drop 3).take checksumDigits, tail.drop 7, ?_, ?_, hd, (not_not.mp hsum).symm⟩
        · rw [List.append_assoc]
          exact htail
        · rw [List.length_take, List.length_drop]
          exact Nat.min_eq_left (by change 3 ≤ _; omega)
  · rintro ⟨digits, x, rfl, hlen, hd, hsum⟩
    have hdigits : checksumDigits = 3 := rfl
    have hdrop : (checksumTag ++ digits ++ soh :: x).drop 3 = digits ++ soh :: x := by
      rw [List.append_assoc, ← checksumTag_length, List.drop_left]
    have htake : (digits ++ soh :: x).take checksumDigits = digits := by
      rw [← hlen, List.take_left]
    have hsoh : (checksumTag ++ digits ++ soh :: x)[6]? = some soh := by
      rw [List.getElem?_append_right (by simp [checksumTag_length, hlen, hdigits])]
      simp [checksumTag_length, hlen, hdigits]
    have hne : digits ≠ [] := by
      rintro rfl
      cases hlen
    have hlt : numeral digits < 2 ^ 32 := by
      rw [hsum]
      omega
    have hfront : (checksumTag ++ digits ++ soh :: x).take checksumTag.length = checksumTag := by
      rw [List.append_assoc, List.take_left]
    rw [hfront, hsoh, hdrop, htake, toUint_eq_some.mpr ⟨hne, hd, hlt, rfl⟩]
    simp [hsum]

theorem Frame.envelope_eq (w : Frame) (x : List UInt8) : envelope (w.bytes ++ x) =
    .ok (w.head.bytes.length + w.len.bytes.length, w.front.length) := by
  have hbytes : w.bytes ++ x = w.head.bytes ++ (w.len.bytes ++
      (w.body ++ (checksumTag ++ w.digits ++ soh :: x))) := by
    simp [Frame.bytes, Frame.front]
  have hfront := w.front_length
  have hwhole : ¬(w.body ++ (checksumTag ++ w.digits ++ soh :: x)).length <
      numeral w.len.value + checksumFieldWidth := by
    have htotal : (w.bytes ++ x).length = w.front.length + checksumFieldWidth + x.length := by
      rw [List.length_append, w.bytes_length]
    rw [hbytes, List.length_append, List.length_append] at htotal
    have := w.len_value
    omega
  rw [envelope_fields hbytes w.head_tag w.head_value w.len_tag w.len_nonempty w.len_digits
    (w.len_value ▸ w.len_le), if_neg hwhole, hfront, w.len_value]

/-! ## Messages -/

/-- The tags a message of the type must have. -/
def requiredTags (msgType : List UInt8) : List Tag :=
  if msgType = ascii "D" then [.clOrdId, .side, .orderQty, .price]
  else if msgType = ascii "F" then [.origClOrdId]
  else [.clOrdId, .origClOrdId, .orderQty, .price]

/-- The command of a message, from the last field of each tag. -/
def commandOf (msgType : List UInt8) (fs : List Field) : Command :=
  if msgType = ascii "D" then
    .submit
      { id := .ofNat (lastNumber fs .clOrdId)
        px := lastNumber fs .price
        qty := .ofNat (lastNumber fs .orderQty)
        s := ((lastValue fs .side).map sideOf).getD .bid
        t := ((lastValue fs .timeInForce).map tifOf).getD .gtc
        accountId := .ofNat (lastNumber fs .account) }
  else if msgType = ascii "F" then .cancel { id := .ofNat (lastNumber fs .origClOrdId) }
  else
    .modify
      { id := .ofNat (lastNumber fs .origClOrdId)
        newPx := lastNumber fs .price
        newQty := .ofNat (lastNumber fs .orderQty)
        newId := .ofNat (lastNumber fs .clOrdId) }

structure Message extends Frame where
  msgType : FieldText
  fields : List FieldText
  body_eq : body = msgType.bytes ++ texts fields
  msgType_tag : msgType.field.tag = tagNumber .msgType
  msgType_value : msgType.value ∈ [ascii "D", ascii "F", ascii "G"]
  valid : ∀ g ∈ fields, g.field.Valid
  present : ∀ t ∈ requiredTags msgType.value, ∃ g ∈ fields, g.field.tag = tagNumber t

def Message.command (m : Message) : Command :=
  commandOf m.msgType.value (m.fields.map FieldText.field)

theorem lastValue_isSome {t : Tag} :
    (lastValue fs t).isSome ↔ ∃ f ∈ fs, f.tag = tagNumber t := by
  unfold lastValue
  rw [Option.isSome_map, List.getLast?_isSome]
  simp [List.filter_eq_nil_iff]

theorem buildCommand_ok {c : Command} : buildCommand v (summary fs) = .ok c ↔
    v ∈ [ascii "D", ascii "F", ascii "G"] ∧ (∀ t ∈ requiredTags v, (lastValue fs t).isSome) ∧
      c = commandOf v fs := by
  have hFD : ascii "F" ≠ ascii "D" := by decide
  have hGD : ascii "G" ≠ ascii "D" := by decide
  have hGF : ascii "G" ≠ ascii "F" := by decide
  have hpick (p : Bool) (x : Command) :
      (if p then .error .missingField else .ok x : Except Error Command) = .ok c ↔
        p = false ∧ c = x := by
    cases p <;> simp [eq_comm]
  unfold buildCommand requiredTags commandOf summary
  by_cases hD : v = ascii "D"
  · subst hD
    simp only [if_true, hpick]
    simp [and_assoc]
  by_cases hF : v = ascii "F"
  · subst hF
    simp only [hFD, if_true, if_false, hpick]
    simp
  by_cases hG : v = ascii "G"
  · subst hG
    simp only [hGD, hGF, if_true, if_false, hpick]
    simp [and_assoc]
  · simp [hD, hF, hG]

/-- The body of a message: MsgType, and then fields. -/
theorem parseBody_ok {pre l : List UInt8} {cmd : Command} :
    parseBody (pre ++ l) pre.length (pre ++ l).length = .ok cmd ↔
      ∃ (g : FieldText) (gs : List FieldText), l = g.bytes ++ texts gs ∧
        g.field.tag = tagNumber .msgType ∧ g.value ∈ [ascii "D", ascii "F", ascii "G"] ∧
        (∀ h ∈ gs, h.field.Valid) ∧
        (∀ t ∈ requiredTags g.value, ∃ h ∈ gs, h.field.tag = tagNumber t) ∧
        cmd = commandOf g.value (gs.map FieldText.field) := by
  have hdrop : (pre ++ l).drop pre.length = l := List.drop_left
  have hpresent : ∀ (g : FieldText) (gs : List FieldText),
      (∀ t ∈ requiredTags g.value, (lastValue (gs.map FieldText.field) t).isSome) ↔
        ∀ t ∈ requiredTags g.value, ∃ h ∈ gs, h.field.tag = tagNumber t := by
    intro g gs
    simp [lastValue_isSome]
  have hfields : ∀ (g : FieldText) (rest : List UInt8) (a : OrderFields), l = g.bytes ++ rest →
      (readFields (pre ++ l) (pre ++ l).length (pre.length + g.bytes.length) = .ok a ↔
        ∃ gs : List FieldText, rest = texts gs ∧ (∀ h ∈ gs, h.field.Valid) ∧
          a = summary (gs.map FieldText.field)) := by
    rintro g rest a rfl
    rw [← List.append_assoc, ← List.length_append]
    exact readFields_ok
  constructor
  · intro h
    unfold parseBody at h
    rcases readField_cases (pre ++ l) pre.length with ⟨-, hr⟩ | ⟨-, hr⟩ | ⟨g, rest, heq, hr⟩
    · rw [hr] at h
      cases h
    · rw [hr] at h
      cases h
    · rw [hr] at h
      dsimp only at h
      split_ifs at h with htag
      obtain ⟨a, hread, hbuild⟩ := bind_eq_ok.mp h
      obtain ⟨gs, rfl, hvalid, rfl⟩ := (hfields g rest a (hdrop.symm.trans heq)).mp hread
      obtain ⟨htype, hreq, rfl⟩ := buildCommand_ok.mp hbuild
      exact ⟨g, gs, hdrop.symm.trans heq, not_not.mp htag, htype, hvalid, (hpresent g gs).mp hreq,
        rfl⟩
  · rintro ⟨g, gs, hl, htag, htype, hvalid, hreq, rfl⟩
    have hread := (hfields g (texts gs) _ hl).mpr ⟨gs, rfl, hvalid, rfl⟩
    have hbuild := buildCommand_ok.mpr ⟨htype, (hpresent g gs).mpr hreq, rfl⟩
    unfold parseBody
    rw [readField_text (hdrop.trans hl)]
    dsimp only
    rw [if_neg (not_not.mpr htag), hread]
    exact hbuild

theorem parseMessage_accepts {cmd : Command} {consumed : ℕ} :
    parseMessage buf = .ok (cmd, consumed) ↔
      ∃ (m : Message) (x : List UInt8), buf = m.bytes ++ x ∧ consumed = m.bytes.length ∧
        cmd = m.command := by
  constructor
  · intro h
    unfold parseMessage at h
    obtain ⟨⟨bodyStart, csStart⟩, henv, h⟩ := bind_eq_ok.mp h
    obtain ⟨⟨⟩, hsum, h⟩ := bind_eq_ok.mp h
    obtain ⟨cmd', hbody, h⟩ := bind_eq_ok.mp h
    obtain ⟨rfl, rfl⟩ := Prod.mk.inj (Except.ok.inj h)
    obtain ⟨head, len, rest, rfl, hheadTag, hheadValue, hlenTag, hne, hdigits, hle, rfl, rfl,
      hall⟩ := envelope_ok henv
    -- what follows the BodyLength field splits where it says
    obtain ⟨body, tail, rfl, hbodyLen⟩ : ∃ body tail, rest = body ++ tail ∧
        body.length = numeral len.value := by
      refine ⟨rest.take (numeral len.value), rest.drop (numeral len.value), by simp, ?_⟩
      simp only [List.length_append] at hall
      rw [List.length_take]
      omega
    have hfront : head.bytes.length + len.bytes.length + numeral len.value =
        (head.bytes ++ len.bytes ++ body).length := by
      simp only [List.length_append, hbodyLen]
    have hbuf : head.bytes ++ (len.bytes ++ (body ++ tail)) =
        (head.bytes ++ len.bytes ++ body) ++ tail := by simp
    simp only [hfront, hbuf] at hsum hbody
    obtain ⟨digits, x, rfl, hdlen, hdnum, hdval⟩ := verifyCheckSum_ok.mp hsum
    rw [List.take_left, ← List.length_append] at hbody
    obtain ⟨g, gs, rfl, htag, htype, hvalid, hreq, rfl⟩ := parseBody_ok.mp hbody
    refine ⟨⟨⟨head, len, _, digits, hheadTag, hheadValue, hlenTag, hne, hdigits, hbodyLen.symm,
      hbodyLen ▸ hle, hdlen, hdnum, hdval⟩, g, gs, rfl, htag, htype, hvalid, hreq⟩, x, ?_, ?_, rfl⟩
    · simp [Frame.bytes, Frame.front]
    · rw [Frame.bytes_length]
      exact congrArg (· + _) hfront
  · rintro ⟨m, x, rfl, rfl, rfl⟩
    have hbytes : m.bytes ++ x = m.front ++ (checksumTag ++ m.digits ++ soh :: x) := by
      simp [Frame.bytes]
    have hsum : verifyCheckSum (m.bytes ++ x) m.front.length = .ok () := by
      rw [hbytes]
      exact verifyCheckSum_ok.mpr
        ⟨m.digits, x, rfl, m.digits_length, m.digits_numeric, m.digits_value⟩
    have hbody : parseBody ((m.bytes ++ x).take m.front.length)
        (m.head.bytes.length + m.len.bytes.length) m.front.length = .ok m.command := by
      rw [hbytes, List.take_left, ← List.length_append]
      exact parseBody_ok.mpr ⟨m.msgType, m.fields, m.body_eq, m.msgType_tag, m.msgType_value,
        m.valid, m.present, rfl⟩
    unfold parseMessage
    rw [m.envelope_eq]
    change (verifyCheckSum _ _ >>= _) = _
    rw [hsum]
    change (parseBody _ _ _ >>= _) = _
    rw [hbody, m.bytes_length]
    rfl

/-- The parser accepts exactly the buffers that start with a message, takes the message and
gives its command. -/
theorem parse_accepts (buf : List UInt8) (cmd : Command) (consumed : ℕ) :
    parse buf = { err := .ok, cmd, consumed } ↔
      ∃ (m : Message) (x : List UInt8), buf = m.bytes ++ x ∧ consumed = m.bytes.length ∧
        cmd = m.command :=
  parse_ok.trans parseMessage_accepts

theorem exists_message (hok : (parse buf).err = .ok) : ∃ (m : Message) (x : List UInt8),
    buf = m.bytes ++ x ∧ (parse buf).consumed = m.bytes.length := by
  have hresult : parse buf =
      { err := .ok, cmd := (parse buf).cmd, consumed := (parse buf).consumed } := by
    rw [← hok]
  obtain ⟨m, x, hbuf, hlen, -⟩ := parseMessage_accepts.mp (parse_ok.mp hresult)
  exact ⟨m, x, hbuf, hlen⟩

/-! ## What the engine is handed -/

/-- An id an order may have in the engine. -/
def Named (id : UInt64) : Prop := id ≠ 0 ∧ id ≠ emptyKey

instance : DecidablePred Named := fun _ => inferInstanceAs (Decidable (_ ∧ _))

/-- The ids and quantities the engine's contract asks for. -/
def Accountable : Command → Prop
  | .submit m => Named m.id ∧ 0 < m.qty
  | .cancel m => Named m.id
  | .modify m => Named m.id ∧ Named m.newId ∧ 0 < m.newQty

instance : DecidablePred Accountable := fun c =>
  match c with
  | .submit m => inferInstanceAs (Decidable (Named m.id ∧ _))
  | .cancel m => inferInstanceAs (Decidable (Named m.id))
  | .modify m => inferInstanceAs (Decidable (Named m.id ∧ Named m.newId ∧ _))

theorem OrderId.named (h : OrderId v) : Named (.ofNat (numeral v)) := by
  obtain ⟨⟨-, -, hlt⟩, hpos⟩ := h
  have hnat : (UInt64.ofNat (numeral v)).toNat = numeral v :=
    UInt64.toNat_ofNat_of_lt' (Nat.lt_of_lt_of_le hlt (by decide))
  constructor
  · intro hzero
    rw [hzero] at hnat
    exact absurd hnat.symm (Nat.ne_of_gt hpos)
  · intro hones
    rw [hones] at hnat
    change 2 ^ 64 - 1 = _ at hnat
    omega

theorem lastValue_mem {t : Tag} (h : lastValue fs t = some v) :
    ∃ f ∈ fs, f.tag = tagNumber t ∧ f.value = v := by
  obtain ⟨f, hf, rfl⟩ := Option.map_eq_some_iff.mp h
  have hmem := List.mem_of_getLast? hf
  rw [List.mem_filter] at hmem
  exact ⟨f, hmem.1, of_decide_eq_true hmem.2, rfl⟩

namespace Message

variable (m : Message)

/-- A required tag has a last field, and its number is the value of that one. -/
theorem exists_last {t : Tag} (ht : t ∈ requiredTags m.msgType.value) :
    ∃ g ∈ m.fields, g.field.tag = tagNumber t ∧ g.field.Valid ∧
      lastNumber (m.fields.map FieldText.field) t = numeral g.value := by
  obtain ⟨g, hg, htag⟩ := m.present t ht
  have hsome : (lastValue (m.fields.map FieldText.field) t).isSome :=
    lastValue_isSome.mpr ⟨g.field, List.mem_map_of_mem hg, htag⟩
  obtain ⟨v, hv⟩ := Option.isSome_iff_exists.mp hsome
  obtain ⟨f, hf, hftag, rfl⟩ := lastValue_mem hv
  obtain ⟨g', hg', rfl⟩ := List.mem_map.mp hf
  refine ⟨g', hg', hftag, m.valid g' hg', ?_⟩
  rw [lastNumber, hv]
  rfl

theorem named_clOrdId (h : .clOrdId ∈ requiredTags m.msgType.value) :
    Named (.ofNat (lastNumber (m.fields.map FieldText.field) .clOrdId)) := by
  obtain ⟨g, -, htag, hvalid, hnum⟩ := m.exists_last h
  rw [hnum]
  exact (hvalid.2.2.2.1 htag).named

theorem named_origClOrdId (h : .origClOrdId ∈ requiredTags m.msgType.value) :
    Named (.ofNat (lastNumber (m.fields.map FieldText.field) .origClOrdId)) := by
  obtain ⟨g, -, htag, hvalid, hnum⟩ := m.exists_last h
  rw [hnum]
  exact (hvalid.2.2.2.2.1 htag).named

/-- If the message needs an OrderQty, the last one it has is not zero. -/
def Sized (m : Message) : Prop :=
  .orderQty ∈ requiredTags m.msgType.value →
    0 < lastNumber (m.fields.map FieldText.field) .orderQty

theorem qty_pos_iff (h : .orderQty ∈ requiredTags m.msgType.value) :
    0 < UInt64.ofNat (lastNumber (m.fields.map FieldText.field) .orderQty) ↔
      0 < lastNumber (m.fields.map FieldText.field) .orderQty := by
  obtain ⟨g, -, htag, hvalid, hnum⟩ := m.exists_last h
  have hlt : numeral g.value < 2 ^ 64 := (hvalid.2.2.1 htag).2.2
  rw [hnum, UInt64.lt_iff_toNat_lt]
  change 0 < (UInt64.ofNat (numeral g.value)).toNat ↔ _
  rw [UInt64.toNat_ofNat_of_lt' hlt]

theorem accountable_iff : Accountable m.command ↔ m.Sized := by
  have hFD : ascii "F" ≠ ascii "D" := by decide
  have hGD : ascii "G" ≠ ascii "D" := by decide
  have hGF : ascii "G" ≠ ascii "F" := by decide
  have hclord := m.named_clOrdId
  have horig := m.named_origClOrdId
  have hqty := m.qty_pos_iff
  have htype := m.msgType_value
  unfold command commandOf Sized
  unfold requiredTags at hclord horig hqty ⊢
  simp only [List.mem_cons, List.not_mem_nil, or_false] at htype
  rcases htype with hD | hF | hG
  · simp only [hD, if_true] at hclord hqty ⊢
    have hneeded : Tag.orderQty ∈ [Tag.clOrdId, .side, .orderQty, .price] := by decide
    rw [forall_prop_of_true hneeded, ← hqty hneeded]
    exact ⟨fun h => h.2, fun h => ⟨hclord (by decide), h⟩⟩
  · simp only [hF, hFD, if_true, if_false] at horig ⊢
    exact ⟨fun _ hneeded => absurd hneeded (by decide), fun _ => horig (by decide)⟩
  · simp only [hG, hGD, hGF, if_false] at hclord horig hqty ⊢
    have hneeded : Tag.orderQty ∈ [Tag.clOrdId, .origClOrdId, .orderQty, .price] := by decide
    rw [forall_prop_of_true hneeded, ← hqty hneeded]
    exact ⟨fun h => h.2.2, fun h => ⟨horig (by decide), hclord (by decide), h⟩⟩

end Message

/-- What the parser accepts has ids an order may have, and it has a quantity exactly when the
last OrderQty of the message is not zero, where the message needs one. -/
theorem parse_accountable (buf : List UInt8) (hok : (parse buf).err = .ok) :
    (∃ (m : Message) (x : List UInt8), buf = m.bytes ++ x) ∧
    ∀ (m : Message) (x : List UInt8), buf = m.bytes ++ x →
      (Accountable (parse buf).cmd ↔ m.Sized) := by
  constructor
  · obtain ⟨m, x, hbuf, -⟩ := exists_message hok
    exact ⟨m, x, hbuf⟩
  · rintro m x rfl
    rw [parse_ok.mpr (parseMessage_accepts.mpr ⟨m, x, rfl, rfl, rfl⟩)]
    exact m.accountable_iff

/-- A bid for nine at five. -/
def newOrder : Message where
  head := ⟨ascii "8", ascii "FIX.4.4", by decide, by decide, by decide, by decide⟩
  len := ⟨ascii "9", ascii "25", by decide, by decide, by decide, by decide⟩
  msgType := ⟨ascii "35", ascii "D", by decide, by decide, by decide, by decide⟩
  fields :=
    [⟨ascii "11", ascii "1", by decide, by decide, by decide, by decide⟩,
      ⟨ascii "54", ascii "1", by decide, by decide, by decide, by decide⟩,
      ⟨ascii "38", ascii "9", by decide, by decide, by decide, by decide⟩,
      ⟨ascii "44", ascii "5", by decide, by decide, by decide, by decide⟩]
  body := ascii "35=D\x0111=1\x0154=1\x0138=9\x0144=5\x01"
  digits := ascii "079"
  head_tag := by decide +kernel
  head_value := rfl
  len_tag := by decide +kernel
  len_nonempty := by decide +kernel
  len_digits := by decide +kernel
  len_value := by decide +kernel
  len_le := by decide +kernel
  digits_length := by decide +kernel
  digits_numeric := by decide +kernel
  digits_value := by decide +kernel
  body_eq := by decide +kernel
  msgType_tag := by decide +kernel
  msgType_value := by decide +kernel
  valid := by decide +kernel
  present := by decide +kernel

theorem parse_accountable_new_order :
    (parse newOrder.bytes).err = .ok ∧ Accountable (parse newOrder.bytes).cmd := by
  have hok : (parse newOrder.bytes).err = .ok := by decide +kernel
  have hsized : newOrder.Sized := by
    unfold Message.Sized
    decide +kernel
  exact ⟨hok, ((parse_accountable newOrder.bytes hok).2 newOrder [] (by simp)).mpr hsized⟩

/-- A new order for nothing is accepted. -/
theorem parse_zero_quantity :
    let buf := ascii "8=FIX.4.4\x019=25\x0135=D\x0111=1\x0154=1\x0138=0\x0144=5\x0110=070\x01"
    (parse buf).err = .ok ∧ ¬Accountable (parse buf).cmd := by
  decide +kernel

end Orderbooks.Fix
