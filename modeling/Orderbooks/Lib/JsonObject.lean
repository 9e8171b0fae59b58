import Orderbooks.Lib.Decimal

/-!
# Flat JSON objects

The compact JSON objects whose values are strings without escapes and unsigned 64-bit
integers: their text, and a parser that takes exactly such text. A list of members is kept
in the order of the text.
-/
namespace Orderbooks.JsonObject
open Decimal

inductive Value where
  | str (s : List UInt8)
  | int (n : ℕ)
  deriving DecidableEq, Repr

abbrev Member := List UInt8 × Value

/-- A byte that stands for itself in a string. -/
def plain (ch : UInt8) : Bool := decide (32 ≤ ch) && ch != 34 && ch != 92

/-! ## Parsing -/

/-- A string and what follows it. -/
def parseString : List UInt8 → Option (List UInt8 × List UInt8)
  | [] => none
  | ch :: bs =>
      if ch = 34 then
        match bs.dropWhile plain with
        | [] => none
        | ch :: rest => if ch = 34 then some (bs.takeWhile plain, rest) else none
      else none

/-- A numeral of more than one digit does not start with a zero. -/
def leadingZero : List UInt8 → Bool
  | ch :: ch' :: _ => ch == 48 && isDigit ch'
  | _ => false

def parseValue (bs : List UInt8) : Option (Value × List UInt8) :=
  if bs.head? = some 34 then (parseString bs).map fun a => (.str a.1, a.2)
  else if leadingZero bs then none
  else (fromChars (2 ^ 64) bs).map fun a => (.int a.1, a.2)

/-- The members up to the closing brace, which ends the text. -/
def parseMembers : ℕ → List UInt8 → Option (List Member)
  | 0, _ => none
  | fuel + 1, bs =>
      match parseString bs with
      | some (key, colon :: bs) =>
          if colon = 58 then
            match parseValue bs with
            | some (v, sep :: bs) =>
                if sep = 44 then (parseMembers fuel bs).map ((key, v) :: ·)
                else if sep = 125 ∧ bs = [] then some [(key, v)]
                else none
            | _ => none
          else none
      | _ => none

def parse : List UInt8 → Option (List Member)
  | [] => none
  | ch :: bs =>
      if ch = 123 then if bs = [125] then some [] else parseMembers bs.length bs else none

/-! ## Text -/

/-- Twenty digits are enough for 64 bits. -/
def Value.text : Value → List UInt8
  | .str s => 34 :: s ++ [34]
  | .int n => toChars 20 n

def memberText (m : Member) : List UInt8 := 34 :: m.1 ++ [34, 58] ++ m.2.text

/-- The text of an object with at least one member. -/
def text (m : Member) (ms : List Member) : List UInt8 :=
  123 :: (memberText m ++ ms.flatMap (fun m => 44 :: memberText m) ++ [125])

def Value.Valid : Value → Prop
  | .str s => ∀ ch ∈ s, plain ch = true
  | .int n => n < 2 ^ 64

def MemberValid (m : Member) : Prop := (∀ ch ∈ m.1, plain ch = true) ∧ m.2.Valid

/-! ## Text is read back -/

theorem parseString_text {s : List UInt8} (hs : ∀ ch ∈ s, plain ch = true) (rest : List UInt8) :
    parseString (34 :: s ++ 34 :: rest) = some (s, rest) := by
  have hquote : ¬ plain 34 = true := by decide
  have htake : (s ++ 34 :: rest).takeWhile plain = s := by
    rw [List.takeWhile_append_of_pos hs, List.takeWhile_cons_of_neg hquote, List.append_nil]
  have hdrop : (s ++ 34 :: rest).dropWhile plain = 34 :: rest := by
    rw [List.dropWhile_append_of_pos hs, List.dropWhile_cons_of_neg hquote]
  rw [List.cons_append, parseString, if_pos rfl, hdrop, htake]
  exact if_pos rfl

theorem leadingZero_toChars {n : ℕ} (h : n < 10 ^ 20) {sep : UInt8} (hsep : isDigit sep = false)
    (rest : List UInt8) : leadingZero (toChars 20 n ++ sep :: rest) = false := by
  by_cases hz : n = 0
  · subst hz
    simp [toChars, leadingZero, hsep]
  · have hhead := head_toChars hz h
    cases hcs : toChars 20 n with
    | nil => exact absurd hcs (toChars_ne_nil (by decide) n)
    | cons c cs =>
        rw [hcs] at hhead
        have hc : (c == 48) = false := by
          refine beq_eq_false_iff_ne.mpr fun heq => hhead ?_
          rw [heq]
          rfl
        cases cs <;> simp [leadingZero, hc]

theorem parseValue_text {v : Value} (hv : v.Valid) {sep : UInt8} (hsep : isDigit sep = false)
    (rest : List UInt8) : parseValue (v.text ++ sep :: rest) = some (v, sep :: rest) := by
  cases v with
  | str s =>
      have htext : Value.text (.str s) ++ sep :: rest = 34 :: s ++ 34 :: (sep :: rest) := by
        simp [Value.text]
      have hhead : (34 :: s ++ 34 :: (sep :: rest)).head? = some 34 := rfl
      rw [htext, parseValue, if_pos hhead, parseString_text hv]
      rfl
  | int n =>
      have hlt : n < 10 ^ 20 := lt_trans hv (by decide)
      have hhead : (Value.text (.int n) ++ sep :: rest).head? ≠ some 34 := by
        change (toChars 20 n ++ sep :: rest).head? ≠ some 34
        cases hcs : toChars 20 n with
        | nil => exact absurd hcs (toChars_ne_nil (by decide) n)
        | cons c cs =>
            have hdigit := digits_toChars 20 n c (hcs ▸ List.mem_cons_self)
            intro heq
            rw [Option.some.inj heq] at hdigit
            exact absurd hdigit (by decide)
      rw [parseValue, if_neg hhead]
      change (if leadingZero (toChars 20 n ++ sep :: rest) = true then none else _) = _
      rw [leadingZero_toChars hlt hsep]
      change (fromChars (2 ^ 64) (toChars 20 n ++ sep :: rest)).map _ = _
      rw [fromChars_toChars (by decide) hlt hv hsep]
      rfl

theorem parseString_memberText {m : Member} (hm : MemberValid m) (rest : List UInt8) :
    parseString (memberText m ++ rest) = some (m.1, 58 :: (m.2.text ++ rest)) := by
  have htext : memberText m ++ rest = 34 :: m.1 ++ 34 :: 58 :: (m.2.text ++ rest) := by
    simp [memberText]
  rw [htext, parseString_text hm.1]

theorem parseMembers_text (ms : List Member) : ∀ (m : Member) (fuel : ℕ), ms.length < fuel →
    MemberValid m → (∀ m' ∈ ms, MemberValid m') →
    parseMembers fuel (memberText m ++ ms.flatMap (fun m => 44 :: memberText m) ++ [125]) =
      some (m :: ms) := by
  induction ms with
  | nil =>
      intro m fuel hfuel hm _
      obtain ⟨fuel, rfl⟩ := Nat.exists_eq_succ_of_ne_zero (Nat.ne_of_gt hfuel)
      rw [List.flatMap_nil, List.append_nil, parseMembers, parseString_memberText hm]
      simp only [if_true]
      rw [parseValue_text hm.2 (by decide)]
      simp
  | cons m' ms ih =>
      intro m fuel hfuel hm hms
      rw [List.length_cons] at hfuel
      obtain ⟨fuel, rfl⟩ : ∃ k, fuel = k + 1 := ⟨fuel - 1, by omega⟩
      have hnext := ih m' fuel (by omega) (hms m' List.mem_cons_self)
        fun m'' h => hms m'' (List.mem_cons_of_mem _ h)
      have htext : memberText m ++ (m' :: ms).flatMap (fun m => 44 :: memberText m) ++ [125] =
          memberText m ++
            44 :: (memberText m' ++ ms.flatMap (fun m => 44 :: memberText m) ++ [125]) := by
        simp
      rw [htext, parseMembers, parseString_memberText hm]
      simp only [if_true]
      rw [parseValue_text hm.2 (by decide)]
      simp only [if_true, hnext, Option.map_some]

/-- The text of an object parses to its members. -/
theorem parse_text {m : Member} {ms : List Member} (hm : MemberValid m)
    (hms : ∀ m' ∈ ms, MemberValid m') : parse (text m ms) = some (m :: ms) := by
  have hlong : ms.length <
      (memberText m ++ ms.flatMap (fun m => 44 :: memberText m) ++ [125]).length := by
    have hflat : ms.length ≤ (ms.flatMap fun m => 44 :: memberText m).length := by
      clear hms
      induction ms with
      | nil => exact Nat.zero_le _
      | cons m' ms ih =>
          rw [List.flatMap_cons, List.length_append, List.length_cons, List.length_cons]
          omega
    rw [List.length_append, List.length_append, List.length_singleton]
    omega
  have hne : memberText m ++ ms.flatMap (fun m => 44 :: memberText m) ++ [125] ≠ [125] := by
    simp [memberText]
  rw [text, parse, if_pos rfl, if_neg hne]
  exact parseMembers_text ms m _ hlong hm hms

/-! ## Text is one line -/

theorem le_of_plain {ch : UInt8} (h : plain ch = true) : 32 ≤ ch := by
  simp only [plain, Bool.and_eq_true, decide_eq_true_eq] at h
  exact h.1.1

theorem Value.printable {v : Value} (hv : v.Valid) : ∀ ch ∈ v.text, 32 ≤ ch := by
  intro ch hch
  cases v with
  | str s =>
      rcases List.mem_append.mp hch with hch | hch
      · rcases List.mem_cons.mp hch with rfl | hch
        · decide
        · exact le_of_plain (hv ch hch)
      · rw [List.mem_singleton.mp hch]
        decide
  | int n =>
      have hdigit := isDigit_iff.mp (digits_toChars 20 n ch hch)
      rw [UInt8.le_iff_toNat_le]
      exact le_trans (by decide) hdigit.1

theorem memberText_printable {m : Member} (hm : MemberValid m) :
    ∀ ch ∈ memberText m, 32 ≤ ch := by
  intro ch hch
  rcases List.mem_append.mp hch with hch | hch
  · rcases List.mem_append.mp hch with hch | hch
    · rcases List.mem_cons.mp hch with rfl | hch
      · decide
      · exact le_of_plain (hm.1 ch hch)
    · have hor : ch = 34 ∨ ch = 58 := by simpa using hch
      rcases hor with rfl | rfl <;> decide
  · exact Value.printable hm.2 ch hch

/-- There is no control character in the text of an object. -/
theorem text_printable {m : Member} {ms : List Member} (hm : MemberValid m)
    (hms : ∀ m' ∈ ms, MemberValid m') : ∀ ch ∈ text m ms, 32 ≤ ch := by
  intro ch hch
  rcases List.mem_cons.mp hch with rfl | hch
  · decide
  rcases List.mem_append.mp hch with hch | hch
  · rcases List.mem_append.mp hch with hch | hch
    · exact memberText_printable hm ch hch
    · obtain ⟨m', hm', hch⟩ := List.mem_flatMap.mp hch
      rcases List.mem_cons.mp hch with rfl | hch
      · decide
      · exact memberText_printable (hms m' hm') ch hch
  · rw [List.mem_singleton.mp hch]
    decide

end Orderbooks.JsonObject
