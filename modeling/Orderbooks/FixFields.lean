import Orderbooks.FixParser

/-!
# What reading one field accepts

A field is one to nine digits, an equals sign, a value without SOH and SOH. Reading
succeeds exactly where the text continues with a field, asks for more only where no
SOH is left, and otherwise decides on bytes that later input does not change.
-/
namespace Orderbooks.Fix
open Decimal

/-- The text of a field. -/
structure FieldText where
  digits : List UInt8
  value : List UInt8
  numeric : Digits digits
  nonempty : digits ≠ []
  narrow : digits.length ≤ maxTagDigits
  plain : soh ∉ value

namespace FieldText

def bytes (g : FieldText) : List UInt8 := g.digits ++ equals :: (g.value ++ [soh])

def field (g : FieldText) : Field := ⟨numeral g.digits, g.value⟩

theorem bytes_length (g : FieldText) :
    g.bytes.length = g.digits.length + 1 + g.value.length + 1 := by
  simp [bytes]
  omega

theorem bytes_pos (g : FieldText) : 0 < g.bytes.length := by
  rw [bytes_length]
  omega

end FieldText

variable {ch : UInt8} {ds l rest buf : List UInt8} {tag : UInt32} {pos pos' : ℕ} {f : Field}

/-! ## The tag -/

theorem radix_le_iff : decimalRadix ≤ ch.toUInt32 - 48 ↔ isDigit ch = false := by
  have hlt := ch.toNat_lt
  have hsub : (ch.toUInt32 - 48).toNat = (2 ^ 32 - 48 + ch.toNat) % 2 ^ 32 := by
    rw [UInt32.toNat_sub, UInt8.toNat_toUInt32]
    rfl
  rw [← Bool.not_eq_true, isDigit_iff, UInt32.le_iff_toNat_le, hsub]
  change 10 ≤ _ ↔ _
  omega

theorem folded_digit (h : isDigit ch = true) : (ch.toUInt32 - 48).toNat = digit ch := by
  have hd := isDigit_iff.mp h
  have hlt := ch.toNat_lt
  rw [UInt32.toNat_sub, UInt8.toNat_toUInt32, digit]
  change (2 ^ 32 - 48 + _) % 2 ^ 32 = _
  omega

theorem equals_not_digit : isDigit equals = false := rfl

theorem soh_not_digit : isDigit soh = false := rfl

theorem soh_notMem_digits (h : Digits ds) : soh ∉ ds := fun hmem =>
  Bool.noConfusion ((h soh hmem).symm.trans soh_not_digit)

def foldTag (tag : UInt32) (ds : List UInt8) : UInt32 :=
  ds.foldl (fun tag ch => tag * decimalRadix + (ch.toUInt32 - 48)) tag

/-- While the value fits, the wrapping accumulator holds it. -/
theorem foldTag_toNat (h : Digits ds) (hlt : numeralFrom tag.toNat ds < 2 ^ 32) :
    (foldTag tag ds).toNat = numeralFrom tag.toNat ds := by
  induction ds generalizing tag with
  | nil => rfl
  | cons ch ds ih =>
      have hch := h ch List.mem_cons_self
      have hstep : tag.toNat * 10 + digit ch < 2 ^ 32 := by
        have hle : (tag.toNat * 10 + digit ch) * 1 ≤ (tag.toNat * 10 + digit ch) * 10 ^ ds.length :=
          Nat.mul_le_mul_left _ (Nat.pow_pos (by decide))
        rw [numeralFrom_cons, numeralFrom_eq] at hlt
        omega
      have hnext : (tag * decimalRadix + (ch.toUInt32 - 48)).toNat = tag.toNat * 10 + digit ch := by
        have hradix : decimalRadix.toNat = 10 := rfl
        rw [UInt32.toNat_add, UInt32.toNat_mul, folded_digit hch, hradix]
        omega
      rw [numeralFrom_cons, ← hnext] at hlt ⊢
      exact ih (fun c hc => h c (List.mem_cons_of_mem _ hc)) hlt

/-- The scan passes over digits. -/
theorem scanTag_skip (h : Digits ds) (l : List UInt8) (tag : UInt32) (width : ℕ) :
    scanTag (ds ++ l) tag width = scanTag l (foldTag tag ds) (width + ds.length) := by
  induction ds generalizing tag width with
  | nil => rfl
  | cons ch ds ih =>
      have hch := h ch List.mem_cons_self
      have hne : ch ≠ equals := fun heq =>
        Bool.noConfusion (hch.symm.trans (heq ▸ equals_not_digit))
      have hradix : ¬decimalRadix ≤ ch.toUInt32 - 48 := by
        rw [radix_le_iff, hch]
        exact Bool.noConfusion
      rw [List.cons_append, scanTag, if_neg hne, if_neg hradix,
        ih fun c hc => h c (List.mem_cons_of_mem _ hc), List.length_cons, Nat.add_assoc,
        Nat.add_comm 1]
      rfl

/-- A text is all digits, or its first byte that is none is known. -/
theorem digits_or_break (l : List UInt8) :
    Digits l ∨ ∃ ds ch rest, l = ds ++ ch :: rest ∧ Digits ds ∧ isDigit ch = false := by
  induction l with
  | nil => exact .inl nofun
  | cons ch l ih =>
      cases hch : isDigit ch with
      | false => exact .inr ⟨[], ch, l, rfl, nofun, hch⟩
      | true =>
          have hcons {ds : List UInt8} (h : Digits ds) : Digits (ch :: ds) :=
            List.forall_mem_cons.mpr ⟨hch, h⟩
          rcases ih with hall | ⟨ds, c, rest, rfl, hds, hc⟩
          · exact .inl (hcons hall)
          · exact .inr ⟨ch :: ds, c, rest, rfl, hcons hds, hc⟩

/-! ## The field -/

theorem readField_eq (buf : List UInt8) (pos : ℕ) : readField buf pos =
    match scanTag (buf.drop pos) 0 0 with
    | .needMore => .needMore
    | .bad => .bad
    | .ok (tag, width, rest) =>
        if width = 0 ∨ maxTagDigits < width then .bad
        else if rest.length ≤ (rest.takeWhile (· ≠ soh)).length then .needMore
        else .ok (⟨tag.toNat, rest.takeWhile (· ≠ soh)⟩,
          pos + width + 1 + (rest.takeWhile (· ≠ soh)).length + 1) := by
  unfold readField
  by_cases hle : buf.length ≤ pos
  · rw [if_pos hle, List.drop_eq_nil_of_le hle]
    rfl
  · exact if_neg hle

theorem readField_digits (h : Digits (buf.drop pos)) : readField buf pos = .needMore := by
  have hscan := scanTag_skip h [] 0 0
  rw [List.append_nil] at hscan
  rw [readField_eq, hscan]
  rfl

/-- No field starts here, whatever follows: before the first equals sign there is a byte that
is no digit, no byte at all, or too many. -/
def Broken (l : List UInt8) : Prop :=
  ∃ ds ch rest, l = ds ++ ch :: rest ∧ Digits ds ∧ isDigit ch = false ∧
    (ch ≠ equals ∨ ds = [] ∨ maxTagDigits < ds.length)

theorem Broken.append (h : Broken l) (x : List UInt8) : Broken (l ++ x) := by
  obtain ⟨ds, ch, rest, rfl, h⟩ := h
  exact ⟨ds, ch, rest ++ x, by simp, h⟩

theorem readField_broken (h : Broken (buf.drop pos)) : readField buf pos = .bad := by
  obtain ⟨ds, ch, rest, heq, hds, hch, hbad⟩ := h
  rw [readField_eq, heq, scanTag_skip hds, scanTag]
  by_cases hne : ch = equals
  · have hwide : 0 + ds.length = 0 ∨ maxTagDigits < 0 + ds.length := by
      rcases hbad with hne' | rfl | hwide
      · exact absurd hne hne'
      · exact .inl rfl
      · exact .inr (by omega)
    simp only [if_pos hne, if_pos hwide]
  · simp only [if_neg hne, if_pos (radix_le_iff.mpr hch)]

/-- A field may have begun here and has not ended: only digits so far, or a tag and a value
without its end. -/
def Unfinished (l : List UInt8) : Prop :=
  Digits l ∨ ∃ ds rest, l = ds ++ equals :: rest ∧ Digits ds ∧ ds ≠ [] ∧
    ds.length ≤ maxTagDigits ∧ soh ∉ rest

theorem Unfinished.soh_notMem (h : Unfinished l) : soh ∉ l := by
  rcases h with hall | ⟨ds, rest, rfl, hds, -, -, hopen⟩
  · exact soh_notMem_digits hall
  · intro hmem
    rw [List.mem_append, List.mem_cons] at hmem
    rcases hmem with hmem | hmem | hmem
    · exact soh_notMem_digits hds hmem
    · exact absurd hmem (by decide)
    · exact hopen hmem

/-- A tag without the end of its value. -/
theorem readField_open (h : buf.drop pos = ds ++ equals :: rest) (hds : Digits ds)
    (hne : ds ≠ []) (hnarrow : ds.length ≤ maxTagDigits) (hopen : soh ∉ rest) :
    readField buf pos = .needMore := by
  have hwidth : ¬(0 + ds.length = 0 ∨ maxTagDigits < 0 + ds.length) := by
    have := List.length_pos_iff.mpr hne
    omega
  have htake : rest.takeWhile (· ≠ soh) = rest := by
    refine List.takeWhile_eq_self_iff.mpr fun c hc => decide_eq_true ?_
    rintro rfl
    exact hopen hc
  rw [readField_eq, h, scanTag_skip hds, scanTag, if_pos rfl]
  simp only [if_neg hwidth, htake, le_refl, if_true]

theorem readField_text {g : FieldText} (h : buf.drop pos = g.bytes ++ rest) :
    readField buf pos = .ok (g.field, pos + g.bytes.length) := by
  have hlen := List.length_pos_iff.mpr g.nonempty
  have hwidth : ¬(0 + g.digits.length = 0 ∨ maxTagDigits < 0 + g.digits.length) := by
    have := g.narrow
    omega
  have htake : (g.value ++ soh :: rest).takeWhile (· ≠ soh) = g.value := by
    rw [List.takeWhile_append_of_pos]
    · simp
    · intro c hc
      refine decide_eq_true ?_
      rintro rfl
      exact g.plain hc
  have htag : (foldTag 0 g.digits).toNat = numeral g.digits := by
    refine foldTag_toNat g.numeric (Nat.lt_trans (numeral_lt g.numeric) ?_)
    exact Nat.lt_of_le_of_lt (Nat.pow_le_pow_right (by decide) g.narrow) (by decide)
  have hdrop : buf.drop pos = g.digits ++ equals :: (g.value ++ soh :: rest) := by
    rw [h]
    simp [FieldText.bytes]
  have hshort : ¬(g.value ++ soh :: rest).length ≤ g.value.length := by
    rw [List.length_append, List.length_cons]
    omega
  rw [readField_eq, hdrop, scanTag_skip g.numeric, scanTag, if_pos rfl]
  simp only [if_neg hwidth, htake, if_neg hshort, htag, FieldText.bytes_length, FieldText.field]
  congr 2
  omega

/-- The three ways reading a field ends. -/
theorem readField_cases (buf : List UInt8) (pos : ℕ) :
    (Unfinished (buf.drop pos) ∧ readField buf pos = .needMore) ∨
    (Broken (buf.drop pos) ∧ readField buf pos = .bad) ∨
    ∃ (g : FieldText) (rest : List UInt8), buf.drop pos = g.bytes ++ rest ∧
      readField buf pos = .ok (g.field, pos + g.bytes.length) := by
  rcases digits_or_break (buf.drop pos) with hall | ⟨ds, ch, rest, heq, hds, hch⟩
  · exact .inl ⟨.inl hall, readField_digits hall⟩
  by_cases hbad : ch ≠ equals ∨ ds = [] ∨ maxTagDigits < ds.length
  · have hbroken : Broken (buf.drop pos) := ⟨ds, ch, rest, heq, hds, hch, hbad⟩
    exact .inr (.inl ⟨hbroken, readField_broken hbroken⟩)
  obtain ⟨heqs, hne, hnarrow⟩ : ch = equals ∧ ds ≠ [] ∧ ds.length ≤ maxTagDigits := by
    simpa [not_or] using hbad
  subst heqs
  by_cases hopen : soh ∈ rest
  · obtain ⟨value, rest, rfl, hplain⟩ := List.eq_append_cons_of_mem hopen
    have htext : buf.drop pos = FieldText.bytes ⟨ds, value, hds, hne, hnarrow, hplain⟩ ++ rest := by
      rw [heq]
      simp [FieldText.bytes]
    exact .inr (.inr ⟨_, rest, htext, readField_text htext⟩)
  · exact .inl ⟨.inr ⟨ds, rest, heq, hds, hne, hnarrow, hopen⟩,
      readField_open heq hds hne hnarrow hopen⟩

theorem readField_needMore : readField buf pos = .needMore ↔ Unfinished (buf.drop pos) := by
  constructor
  · intro h
    rcases readField_cases buf pos with ⟨hopen, -⟩ | ⟨-, h'⟩ | ⟨g, rest, -, h'⟩
    · exact hopen
    · rw [h] at h'
      cases h'
    · rw [h] at h'
      cases h'
  · rintro (hall | ⟨ds, rest, heq, hds, hne, hnarrow, hopen⟩)
    · exact readField_digits hall
    · exact readField_open heq hds hne hnarrow hopen

theorem readField_ok (h : readField buf pos = .ok (f, pos')) :
    ∃ (g : FieldText) (rest : List UInt8), buf.drop pos = g.bytes ++ rest ∧ f = g.field ∧
      pos' = pos + g.bytes.length := by
  rcases readField_cases buf pos with ⟨-, h'⟩ | ⟨-, h'⟩ | ⟨g, rest, heq, h'⟩
  · rw [h] at h'
    cases h'
  · rw [h] at h'
    cases h'
  · rw [h] at h'
    obtain ⟨rfl, rfl⟩ := Prod.mk.inj (Scan.ok.inj h')
    exact ⟨g, rest, heq, rfl, rfl⟩

theorem drop_append (h : buf.drop pos ≠ []) (x : List UInt8) :
    (buf ++ x).drop pos = buf.drop pos ++ x := by
  have hlt : pos < buf.length := Nat.not_le.mp fun hle => h (List.drop_eq_nil_of_le hle)
  exact List.drop_append_of_le_length (Nat.le_of_lt hlt)

/-- What was decided about a field stands when more bytes arrive. -/
theorem readField_append (h : readField buf pos ≠ .needMore) (x : List UInt8) :
    readField (buf ++ x) pos = readField buf pos := by
  rcases readField_cases buf pos with ⟨-, h'⟩ | ⟨hbroken, h'⟩ | ⟨g, rest, heq, h'⟩
  · exact absurd h' h
  · have hne : buf.drop pos ≠ [] := by
      obtain ⟨ds, ch, rest, heq, -⟩ := hbroken
      simp [heq]
    rw [h', readField_broken]
    rw [drop_append hne]
    exact hbroken.append x
  · have hne : buf.drop pos ≠ [] := by simp [heq, FieldText.bytes]
    have hdrop : (buf ++ x).drop pos = g.bytes ++ (rest ++ x) := by
      rw [drop_append hne, heq, List.append_assoc]
    rw [h', readField_text hdrop]

end Orderbooks.Fix
