import Orderbooks.FixGrammar

/-!
# A changed byte

One byte of an accepted message is changed. In the two fields of the envelope the
change is seen by the tag, the dialect or the form of the length; behind them the
frame keeps its bounds, and the change is seen by the sum or in the CheckSum field.
The digits of BodyLength are left out: another length is another frame.
-/
namespace Orderbooks.Fix
open Decimal

variable {ds ds' p q r r' : List UInt8} {a c : UInt8}

/-- Where two texts start alike a change of one byte shows. -/
theorem eq_of_common {t : List UInt8} (h : p ++ a :: q = t ++ r) (h' : p ++ c :: q = t ++ r')
    (hlt : p.length < t.length) : a = c := by
  have hget : ∀ {b : UInt8} {r : List UInt8}, p ++ b :: q = t ++ r → some b = t[p.length]? := by
    intro b r h
    rw [← List.getElem?_append_left hlt, ← h]
    simp
  exact Option.some.inj ((hget h).trans (hget h').symm)

/-- A change in a tag or its equals sign leaves no tag of the same number. -/
theorem tag_corrupted (hds : Digits ds) (hds' : Digits ds') (hpos : 0 < numeral ds)
    (hnum : numeral ds' = numeral ds) (h : p ++ a :: q = ds ++ equals :: r)
    (h' : p ++ c :: q = ds' ++ equals :: r') (hle : p.length ≤ ds.length) : a = c := by
  rcases Nat.lt_or_eq_of_le hle with hlt | heq
  · -- the byte is a digit of the tag
    obtain ⟨s, rfl, rfl⟩ : ∃ s, ds = p ++ a :: s ∧ q = s ++ equals :: r := by
      rcases List.append_eq_append_iff.mp h with ⟨s, rfl, hs⟩ | ⟨s, rfl, -⟩
      · cases s with
        | nil => simp at hlt
        | cons b s =>
            obtain ⟨rfl, rfl⟩ := List.cons.inj hs
            exact ⟨s, rfl, rfl⟩
      · simp at hlt
    have hp : Digits p := hds.left
    have hs : Digits s := fun x hx => hds x (by simp [hx])
    cases hc : isDigit c with
    | false =>
        obtain ⟨rfl, -, -⟩ := break_unique hp hds' hc equals_not_digit h'
        have := lt_numeral_append (hnum ▸ hpos) (List.cons_ne_nil a s)
        omega
    | true =>
        have hpc : Digits (p ++ c :: s) := hp.append (List.forall_mem_cons.mpr ⟨hc, hs⟩)
        have hsplit : (p ++ c :: s) ++ equals :: r = ds' ++ equals :: r' := by
          simpa using h'
        obtain ⟨rfl, -, -⟩ := break_unique hpc hds' equals_not_digit equals_not_digit hsplit
        have hsame := numeral_inj hpc hds (by simp) hnum
        exact (List.cons.inj (List.append_cancel_left hsame)).1.symm
  · -- the byte is the equals sign
    obtain ⟨rfl, hcons⟩ := List.append_inj h heq
    obtain ⟨rfl, rfl⟩ := List.cons.inj hcons
    cases hc : isDigit c with
    | false => exact (break_unique hds hds' hc equals_not_digit h').2.1.symm
    | true =>
        -- the tag goes on past the byte, so its number is larger
        obtain ⟨s, rfl⟩ : ∃ s, ds' = p ++ c :: s := by
          have hpc : Digits (p ++ [c]) := hds.append (List.forall_mem_singleton.mpr hc)
          have hsplit : (p ++ [c]) ++ q = ds' ++ equals :: r' := by simpa using h'
          rcases List.append_eq_append_iff.mp hsplit with ⟨s, rfl, -⟩ | ⟨s, hs, hs'⟩
          · exact ⟨s, by simp⟩
          · cases s with
            | nil => exact ⟨[], by simpa using hs.symm⟩
            | cons b s =>
                obtain ⟨rfl, -⟩ := List.cons.inj hs'
                have hb := hpc equals (by simp [hs])
                cases hb
        have := lt_numeral_append hpos (List.cons_ne_nil c s)
        omega

theorem FieldText.bytes_unique {g g' : FieldText} (h : g.bytes ++ r = g'.bytes ++ r') :
    g.digits = g'.digits ∧ g.value = g'.value ∧ r = r' := by
  have hsplit : g.digits ++ equals :: (g.value ++ soh :: r) =
      g'.digits ++ equals :: (g'.value ++ soh :: r') := by
    simpa [FieldText.bytes] using h
  obtain ⟨hdigits, -, hrest⟩ :=
    break_unique g.numeric g'.numeric equals_not_digit equals_not_digit hsplit
  have htake : ∀ (g : FieldText) (r : List UInt8),
      (g.value ++ soh :: r).takeWhile (· ≠ soh) = g.value := by
    intro g r
    rw [List.takeWhile_append_of_pos]
    · simp
    · intro c hc
      refine decide_eq_true ?_
      rintro rfl
      exact g.plain hc
  have hvalue : g.value = g'.value := by rw [← htake g r, hrest, htake g' r']
  rw [hvalue] at hrest
  exact ⟨hdigits, hvalue, (List.cons.inj (List.append_cancel_left hrest)).2⟩

theorem FieldText.bytes_eq {g g' : FieldText} (hdigits : g.digits = g'.digits)
    (hvalue : g.value = g'.value) : g.bytes = g'.bytes := by
  rw [bytes, bytes, hdigits, hvalue]

/-- Either the byte changed lies in the text in front, or the text in front is unchanged. -/
theorem split_at_byte {t : List UInt8} (h : p ++ a :: q = t ++ r) (hle : t.length ≤ p.length) :
    ∃ p', p = t ++ p' ∧ p' ++ a :: q = r := by
  rcases List.append_eq_append_iff.mp h with ⟨s, rfl, hs⟩ | ⟨s, rfl, hs⟩
  · have hnil : s = [] := by
      rw [List.length_append] at hle
      exact List.eq_nil_of_length_eq_zero (by omega)
    subst hnil
    exact ⟨[], by simp, by simpa using hs⟩
  · exact ⟨s, rfl, hs.symm⟩

namespace Frame

/-- The position is one of the digits of BodyLength. -/
def InLength (w : Frame) (i : ℕ) : Prop :=
  w.head.bytes.length + w.len.digits.length + 1 ≤ i ∧
    i < w.head.bytes.length + w.len.digits.length + 1 + w.len.value.length

/-- A change in BeginString. -/
theorem head_corrupted (w w' : Frame) (h : p ++ a :: q = w.head.bytes ++ r)
    (h' : p ++ c :: q = w'.head.bytes ++ r') (hlt : p.length < w.head.bytes.length) : a = c := by
  have hsplit : p ++ a :: q = w.head.digits ++ equals :: (ascii "FIX.4.4" ++ soh :: r) := by
    rw [h, FieldText.bytes, w.head_value]
    simp
  have hsplit' : p ++ c :: q = w'.head.digits ++ equals :: (ascii "FIX.4.4" ++ soh :: r') := by
    rw [h', FieldText.bytes, w'.head_value]
    simp
  have hnum : numeral w'.head.digits = numeral w.head.digits := w'.head_tag.trans w.head_tag.symm
  have hpos : 0 < numeral w.head.digits := by
    rw [show numeral w.head.digits = tagNumber .beginString from w.head_tag]
    decide
  by_cases hle : p.length ≤ w.head.digits.length
  · exact tag_corrupted w.head.numeric w'.head.numeric hpos hnum hsplit hsplit' hle
  · have hassoc : w.head.digits ++ equals :: (ascii "FIX.4.4" ++ soh :: r) =
        (w.head.digits ++ [equals]) ++ (ascii "FIX.4.4" ++ soh :: r) := by simp
    obtain ⟨p', rfl, htail⟩ := split_at_byte (hsplit.trans hassoc) (by simp; omega)
    have hcut : w.head.digits ++ equals :: (p' ++ c :: q) =
        w'.head.digits ++ equals :: (ascii "FIX.4.4" ++ soh :: r') := by simpa using hsplit'
    obtain ⟨-, -, htail'⟩ :=
      break_unique w.head.numeric w'.head.numeric equals_not_digit equals_not_digit hcut
    have hsoh : ∀ x : List UInt8, ascii "FIX.4.4" ++ soh :: x = (ascii "FIX.4.4" ++ [soh]) ++ x :=
      fun x => by simp
    refine eq_of_common (htail.trans (hsoh r)) (htail'.trans (hsoh r')) ?_
    rw [w.head.bytes_length, w.head_value] at hlt
    simp only [List.length_append, List.length_singleton] at hlt ⊢
    omega

end Frame

namespace Message

/-- A change in BodyLength, its digits apart. -/
theorem len_corrupted (m : Message) (w' : Frame) (h : p ++ a :: q = m.len.bytes ++ (m.body ++ r))
    (h' : p ++ c :: q = w'.len.bytes ++ r') (hlt : p.length < m.len.bytes.length)
    (hout : ¬(m.len.digits.length + 1 ≤ p.length ∧
      p.length < m.len.digits.length + 1 + m.len.value.length)) : a = c := by
  have hsplit : p ++ a :: q = m.len.digits ++ equals :: (m.len.value ++ soh :: (m.body ++ r)) := by
    rw [h, FieldText.bytes]
    simp
  have hsplit' : p ++ c :: q = w'.len.digits ++ equals :: (w'.len.value ++ soh :: r') := by
    rw [h', FieldText.bytes]
    simp
  have hnum : numeral w'.len.digits = numeral m.len.digits := w'.len_tag.trans m.len_tag.symm
  have hpos : 0 < numeral m.len.digits := by
    rw [show numeral m.len.digits = tagNumber .bodyLength from m.len_tag]
    decide
  by_cases hle : p.length ≤ m.len.digits.length
  · exact tag_corrupted m.len.numeric w'.len.numeric hpos hnum hsplit hsplit' hle
  · -- what is left is the SOH, after which the body goes on with digits and an equals sign
    have hassoc : m.len.digits ++ equals :: (m.len.value ++ soh :: (m.body ++ r)) =
        (m.len.digits ++ equals :: m.len.value) ++ soh :: (m.body ++ r) := by simp
    have hlen : p.length = (m.len.digits ++ equals :: m.len.value).length := by
      rw [m.len.bytes_length] at hlt
      simp only [List.length_append, List.length_cons]
      omega
    obtain ⟨rfl, hcons⟩ := List.append_inj (hsplit.trans hassoc) hlen
    obtain ⟨rfl, rfl⟩ := List.cons.inj hcons
    have hcut : m.len.digits ++ equals :: (m.len.value ++ c :: (m.body ++ r)) =
        w'.len.digits ++ equals :: (w'.len.value ++ soh :: r') := by simpa using hsplit'
    obtain ⟨-, -, htail⟩ :=
      break_unique m.len.numeric w'.len.numeric equals_not_digit equals_not_digit hcut
    cases hc : isDigit c with
    | false => exact (break_unique m.len_digits w'.len_digits hc soh_not_digit htail).2.1.symm
    | true =>
        have hdigits : Digits (m.len.value ++ c :: m.msgType.digits) :=
          m.len_digits.append (List.forall_mem_cons.mpr ⟨hc, m.msgType.numeric⟩)
        have hbody : (m.len.value ++ c :: m.msgType.digits) ++
            equals :: (m.msgType.value ++ soh :: (texts m.fields ++ r)) =
            w'.len.value ++ soh :: r' := by
          rw [← htail, m.body_eq, FieldText.bytes]
          simp
        have hend := (break_unique hdigits w'.len_digits equals_not_digit soh_not_digit hbody).2.1
        exact absurd hend (by decide)

/-- Behind the envelope the frame keeps its bounds, and the sum tells. -/
theorem rest_corrupted (m m' : Message) {x x' : List UInt8}
    (hhead : m'.head.bytes = m.head.bytes) (hlen : m'.len.bytes = m.len.bytes)
    (hbody : m'.body.length = m.body.length)
    (h : p ++ a :: q = m.body ++ (checksumTag ++ m.digits ++ [soh] ++ x))
    (h' : p ++ c :: q = m'.body ++ (checksumTag ++ m'.digits ++ [soh] ++ x'))
    (hlt : p.length < m.body.length + checksumFieldWidth) : a = c := by
  have htotal : ∀ l l' : List UInt8, byteTotal (l ++ l') = byteTotal l + byteTotal l' := by
    simp [byteTotal]
  have hsum := m.digits_value
  have hsum' := m'.digits_value
  rw [hhead, hlen, htotal, htotal] at hsum'
  rw [htotal, htotal] at hsum
  by_cases hin : p.length < m.body.length
  · obtain ⟨s, hs, rfl⟩ : ∃ s, m.body = p ++ a :: s ∧
        q = s ++ (checksumTag ++ m.digits ++ [soh] ++ x) := by
      rcases List.append_eq_append_iff.mp h with ⟨s, hs, hs'⟩ | ⟨s, rfl, -⟩
      · cases s with
        | nil => simp [hs] at hin
        | cons b s =>
            obtain ⟨rfl, rfl⟩ := List.cons.inj hs'
            exact ⟨s, hs, rfl⟩
      · simp at hin
    have hcut : (p ++ c :: s) ++ (checksumTag ++ m.digits ++ [soh] ++ x) =
        m'.body ++ (checksumTag ++ m'.digits ++ [soh] ++ x') := by simpa using h'
    obtain ⟨hs', htail⟩ := List.append_inj hcut (by rw [hbody, hs]; simp)
    have hdigits : m.digits = m'.digits := by
      simp only [List.append_assoc, List.append_cancel_left_eq] at htail
      exact (List.append_inj htail (m.digits_length.trans m'.digits_length.symm)).1
    have hbyte : ∀ b : UInt8, byteTotal (p ++ b :: s) = byteTotal p + (b.toNat + byteTotal s) := by
      intro b
      rw [htotal]
      simp [byteTotal]
    rw [hs, hbyte] at hsum
    rw [← hs', hbyte, ← hdigits] at hsum'
    have ha := a.toNat_lt
    have hc := c.toNat_lt
    exact UInt8.toNat_inj.mp (by omega)
  · obtain ⟨p', rfl, htail⟩ := split_at_byte h (Nat.not_lt.mp hin)
    have hcut : m.body ++ (p' ++ c :: q) =
        m'.body ++ (checksumTag ++ m'.digits ++ [soh] ++ x') := by
      simpa using h'
    obtain ⟨hsame, htail'⟩ := List.append_inj hcut hbody.symm
    rw [← hsame] at hsum'
    have hdigits : m'.digits = m.digits := numeral_inj m'.digits_numeric m.digits_numeric
      (m'.digits_length.trans m.digits_length.symm) (hsum'.trans hsum.symm)
    rw [hdigits] at htail'
    refine eq_of_common htail htail' ?_
    have hwidth : (checksumTag ++ m.digits ++ [soh]).length = checksumFieldWidth := by
      simp only [List.length_append, m.digits_length, List.length_singleton, checksumFieldWidth]
    rw [List.length_append] at hlt
    omega

/-- Two messages that differ in one byte in front differ in the digits of BodyLength. -/
theorem eq_of_corrupted (m m' : Message) {x x' : List UInt8} (h : p ++ a :: q = m.bytes ++ x)
    (h' : p ++ c :: q = m'.bytes ++ x') (hlt : p.length < m.bytes.length)
    (hout : ¬m.InLength p.length) : a = c := by
  have hbytes : ∀ (m : Message) (x : List UInt8), m.bytes ++ x = m.head.bytes ++
      (m.len.bytes ++ (m.body ++ (checksumTag ++ m.digits ++ [soh] ++ x))) := by
    intro m x
    simp [Frame.bytes, Frame.front]
  rw [hbytes] at h h'
  by_cases hhead : p.length < m.head.bytes.length
  · exact Frame.head_corrupted m.toFrame m'.toFrame h h' hhead
  obtain ⟨p, rfl, hrest⟩ := split_at_byte h (Nat.not_lt.mp hhead)
  rw [List.append_assoc] at h'
  obtain ⟨hd, hv, hrest'⟩ := FieldText.bytes_unique h'
  have heqHead := FieldText.bytes_eq hd hv
  by_cases hlen : p.length < m.len.bytes.length
  · refine m.len_corrupted m'.toFrame hrest hrest' hlen fun hin => hout ?_
    unfold Frame.InLength
    rw [List.length_append]
    omega
  obtain ⟨p, rfl, hbody⟩ := split_at_byte hrest (Nat.not_lt.mp hlen)
  rw [List.append_assoc] at hrest'
  obtain ⟨hd, hv, hbody'⟩ := FieldText.bytes_unique hrest'
  have heqLen := FieldText.bytes_eq hd hv
  have hwidth : m'.body.length = m.body.length := by
    rw [← m'.len_value, ← m.len_value, hv]
  refine m.rest_corrupted m' heqHead.symm heqLen.symm hwidth hbody hbody' ?_
  rw [m.bytes_length, m.front_length, List.length_append, List.length_append] at hlt
  omega

end Message

/-- A byte of an accepted message is changed, and not one of the digits of BodyLength: the
parser does not accept. -/
theorem parse_corrupted (buf : List UInt8) (hok : (parse buf).err = .ok) :
    (∃ (m : Message) (x : List UInt8), buf = m.bytes ++ x ∧
      (parse buf).consumed = m.bytes.length) ∧
    ∀ (m : Message) (x : List UInt8), buf = m.bytes ++ x →
      ∀ i < m.bytes.length, ¬m.InLength i → ∀ c, buf[i]? ≠ some c →
        (parse (buf.set i c)).err ≠ .ok := by
  refine ⟨exists_message hok, fun m x hbuf i hi hout c hne hset => ?_⟩
  obtain ⟨m', x', hbuf', -⟩ := exists_message hset
  have hi' : i < buf.length := by
    rw [hbuf, List.length_append]
    omega
  have hcut : buf.take i ++ buf[i] :: buf.drop (i + 1) = m.bytes ++ x := by
    rw [← hbuf, List.getElem_cons_drop, List.take_append_drop]
  have hcut' : buf.take i ++ c :: buf.drop (i + 1) = m'.bytes ++ x' := by
    rw [← hbuf', List.set_eq_take_append_cons_drop, if_pos hi']
  have hlen : (buf.take i).length = i := List.length_take_of_le (Nat.le_of_lt hi')
  have heq := m.eq_of_corrupted m' hcut hcut' (hlen.symm ▸ hi) (hlen.symm ▸ hout)
  exact hne (heq ▸ List.getElem?_eq_getElem hi')

theorem parse_corrupted_new_order :
    (parse newOrder.bytes).err = .ok ∧ newOrder.bytes.length = 47 ∧
    ∀ i < newOrder.bytes.length, ¬newOrder.InLength i → ∀ c, newOrder.bytes[i]? ≠ some c →
      (parse (newOrder.bytes.set i c)).err ≠ .ok :=
  have hok : (parse newOrder.bytes).err = .ok := by decide +kernel
  ⟨hok, by decide +kernel, (parse_corrupted newOrder.bytes hok).2 newOrder [] (by simp)⟩

end Orderbooks.Fix
