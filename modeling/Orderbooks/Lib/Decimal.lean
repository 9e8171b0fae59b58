import Mathlib.Tactic.Common
import Mathlib.Tactic.Ring
import Mathlib.Data.List.TakeWhile

/-!
# Decimal numerals in a byte string

The value of a run of ASCII digits, most significant first and with leading
zeros allowed, and the reading of one off the front of a text as
`std::from_chars` does it for an unsigned type.
-/
namespace Orderbooks.Decimal

/-- ASCII text as bytes. -/
def ascii (s : String) : List UInt8 := s.toList.map fun c => UInt8.ofNat c.toNat

def isDigit (ch : UInt8) : Bool := 48 ≤ ch && ch ≤ 57

def digit (ch : UInt8) : ℕ := ch.toNat - 48

def numeralFrom (v : ℕ) (ds : List UInt8) : ℕ := ds.foldl (fun v ch => v * 10 + digit ch) v

def numeral (ds : List UInt8) : ℕ := numeralFrom 0 ds

/-- Every byte is a digit. -/
def Digits (ds : List UInt8) : Prop := ∀ ch ∈ ds, isDigit ch = true

instance : DecidablePred Digits := fun ds =>
  decidable_of_iff (ds.all isDigit = true) List.all_eq_true

variable {ch c : UInt8} {ds es : List UInt8}

theorem isDigit_iff : isDigit ch = true ↔ 48 ≤ ch.toNat ∧ ch.toNat ≤ 57 := by
  simp [isDigit, UInt8.le_iff_toNat_le]

theorem digit_lt (h : isDigit ch = true) : digit ch < 10 := by
  have := isDigit_iff.mp h
  unfold digit
  omega

theorem digit_inj (h : isDigit ch = true) (hc : isDigit c = true) (heq : digit ch = digit c) :
    ch = c := by
  have := isDigit_iff.mp h
  have := isDigit_iff.mp hc
  unfold digit at heq
  exact UInt8.toNat_inj.mp (by omega)

theorem Digits.append (h : Digits ds) (hes : Digits es) : Digits (ds ++ es) := by
  intro ch hch
  rcases List.mem_append.mp hch with hmem | hmem
  · exact h ch hmem
  · exact hes ch hmem

theorem Digits.left (h : Digits (ds ++ es)) : Digits ds := fun ch hch =>
  h ch (List.mem_append_left es hch)

theorem numeralFrom_cons (v : ℕ) (ch : UInt8) (ds : List UInt8) :
    numeralFrom v (ch :: ds) = numeralFrom (v * 10 + digit ch) ds :=
  List.foldl_cons ..

theorem numeralFrom_append (v : ℕ) : numeralFrom v (ds ++ es) = numeralFrom (numeralFrom v ds) es :=
  List.foldl_append ..

theorem numeralFrom_eq (v : ℕ) (ds : List UInt8) :
    numeralFrom v ds = v * 10 ^ ds.length + numeral ds := by
  induction ds generalizing v with
  | nil => simp [numeral, numeralFrom]
  | cons ch ds ih =>
      rw [numeralFrom_cons, ih, show numeral (ch :: ds) = numeralFrom (0 * 10 + digit ch) ds from
        numeralFrom_cons .., ih (0 * 10 + digit ch), List.length_cons, pow_succ]
      ring

theorem numeral_cons (ch : UInt8) (ds : List UInt8) :
    numeral (ch :: ds) = digit ch * 10 ^ ds.length + numeral ds := by
  rw [numeral, numeralFrom_cons, numeralFrom_eq, Nat.zero_mul, Nat.zero_add]

theorem numeral_append (ds es : List UInt8) :
    numeral (ds ++ es) = numeral ds * 10 ^ es.length + numeral es := by
  rw [numeral, numeralFrom_append, numeralFrom_eq]
  rfl

theorem numeral_lt (h : Digits ds) : numeral ds < 10 ^ ds.length := by
  induction ds with
  | nil => simp [numeral, numeralFrom]
  | cons ch ds ih =>
      have hrest := ih fun c hc => h c (List.mem_cons_of_mem _ hc)
      have hch := digit_lt (h ch List.mem_cons_self)
      rw [numeral_cons, List.length_cons, pow_succ]
      have : digit ch * 10 ^ ds.length ≤ 9 * 10 ^ ds.length :=
        Nat.mul_le_mul_right _ (by omega)
      omega

/-- More digits after a numeral that is not zero make it larger. -/
theorem lt_numeral_append (hpos : 0 < numeral ds) (hes : es ≠ []) :
    numeral ds < numeral (ds ++ es) := by
  have hlen : 1 ≤ es.length := List.length_pos_iff.mpr hes
  have hten : 10 ≤ 10 ^ es.length := Nat.le_self_pow (by omega) 10
  have : numeral ds * 10 ≤ numeral ds * 10 ^ es.length := Nat.mul_le_mul_left _ hten
  rw [numeral_append]
  omega

/-- Numerals of one width are told apart by their values. -/
theorem numeral_inj (h : Digits ds) (hes : Digits es) (hlen : ds.length = es.length)
    (heq : numeral ds = numeral es) : ds = es := by
  induction ds generalizing es with
  | nil => exact (List.eq_nil_of_length_eq_zero hlen.symm).symm
  | cons ch ds ih =>
      cases es with
      | nil => cases hlen
      | cons c es =>
          have hds : Digits ds := fun x hx => h x (List.mem_cons_of_mem _ hx)
          have hes' : Digits es := fun x hx => hes x (List.mem_cons_of_mem _ hx)
          have hlen' : ds.length = es.length := Nat.succ.inj hlen
          have hlt := numeral_lt hds
          have hlt' := hlen' ▸ numeral_lt hes'
          rw [numeral_cons, numeral_cons, ← hlen', Nat.add_comm, Nat.mul_comm,
            Nat.add_comm (digit c * _), Nat.mul_comm (digit c)] at heq
          -- the leading digits are the quotients by the weight of their place
          have hdigit : digit ch = digit c := by
            have hdiv := congrArg (· / 10 ^ ds.length) heq
            have hpos : 0 < 10 ^ ds.length := Nat.pow_pos (by decide)
            simpa [Nat.add_mul_div_left _ _ hpos, Nat.div_eq_of_lt hlt, Nat.div_eq_of_lt hlt']
              using hdiv
          have hch := digit_inj (h ch List.mem_cons_self) (hes c List.mem_cons_self) hdigit
          rw [hch, ih hds hes' hlen' (by rw [hdigit] at heq; omega)]

/-- A run of digits ends at the first byte that is none. -/
theorem break_unique {e e' : UInt8} {r r' : List UInt8} (h : Digits ds) (hes : Digits es)
    (he : isDigit e = false) (he' : isDigit e' = false) (heq : ds ++ e :: r = es ++ e' :: r') :
    ds = es ∧ e = e' ∧ r = r' := by
  have htake : ∀ {ds : List UInt8} {e : UInt8} {r : List UInt8}, Digits ds → isDigit e = false →
      (ds ++ e :: r).takeWhile isDigit = ds := by
    intro ds e r h he
    rw [List.takeWhile_append_of_pos h]
    simp [he]
  have hds : ds = es := by rw [← htake h he, heq, htake hes he']
  subst hds
  exact ⟨rfl, List.cons.inj (List.append_cancel_left heq)⟩

/-! ## Reading a numeral off a text -/

/-- `std::from_chars` for an unsigned type whose values are those below `limit`: the
value of the digits the text starts with and what follows them, unless there is no
digit or the value is out of range. -/
def fromChars (limit : ℕ) (v : List UInt8) : Option (ℕ × List UInt8) :=
  if v.takeWhile isDigit = [] ∨ limit ≤ numeral (v.takeWhile isDigit) then none
  else some (numeral (v.takeWhile isDigit), v.dropWhile isDigit)

theorem fromChars_all {limit x : ℕ} {v : List UInt8} :
    fromChars limit v = some (x, []) ↔ v ≠ [] ∧ Digits v ∧ numeral v < limit ∧ x = numeral v := by
  unfold fromChars
  by_cases hall : Digits v
  · have htake : v.takeWhile isDigit = v := List.takeWhile_eq_self_iff.mpr hall
    have hdrop : v.dropWhile isDigit = [] := List.dropWhile_eq_nil_iff.mpr hall
    rw [htake, hdrop]
    by_cases hbad : v = [] ∨ limit ≤ numeral v
    · rw [if_pos hbad]
      refine iff_of_false nofun fun h => ?_
      rcases hbad with rfl | hle
      · exact h.1 rfl
      · exact absurd h.2.2.1 (Nat.not_lt.mpr hle)
    · rw [if_neg hbad]
      obtain ⟨hne, hlt⟩ := not_or.mp hbad
      simp only [Option.some.injEq, Prod.mk.injEq, and_true]
      exact ⟨fun h => ⟨hne, hall, Nat.not_le.mp hlt, h.symm⟩, fun h => h.2.2.2.symm⟩
  · refine iff_of_false (fun h => hall ?_) fun h => hall h.2.1
    split at h
    · cases h
    · simp only [Option.some.injEq, Prod.mk.injEq] at h
      exact List.dropWhile_eq_nil_iff.mp h.2

/-! ## Printing -/

/-- A number in at most `k` characters, without leading zeros, as `std::to_chars` writes it. -/
def toChars : ℕ → ℕ → List UInt8
  | 0, _ => []
  | k + 1, n =>
      if n < 10 then [.ofNat (48 + n)] else toChars k (n / 10) ++ [.ofNat (48 + n % 10)]

theorem digit_ofNat {d : ℕ} (h : d < 10) :
    isDigit (.ofNat (48 + d)) = true ∧ digit (.ofNat (48 + d)) = d := by
  have hval : (UInt8.ofNat (48 + d)).toNat = 48 + d := by
    rw [UInt8.toNat_ofNat']
    omega
  rw [isDigit_iff, digit, hval]
  omega

variable {k n : ℕ}

theorem digits_toChars (k n : ℕ) : Digits (toChars k n) := by
  induction k generalizing n with
  | zero => simp [toChars, Digits]
  | succ k ih =>
      have hone {d : ℕ} (hd : d < 10) : Digits [.ofNat (48 + d)] := by
        intro ch hch
        rw [List.mem_singleton.mp hch]
        exact (digit_ofNat hd).1
      unfold toChars
      split_ifs with h
      · exact hone h
      · exact (ih (n / 10)).append (hone (by omega))

theorem length_toChars_le (k n : ℕ) : (toChars k n).length ≤ k := by
  induction k generalizing n with
  | zero => rfl
  | succ k ih =>
      unfold toChars
      split_ifs
      · simp
      · rw [List.length_append, List.length_singleton]
        exact Nat.succ_le_succ (ih _)

theorem toChars_ne_nil (hk : 0 < k) (n : ℕ) : toChars k n ≠ [] := by
  cases k with
  | zero => omega
  | succ k =>
      unfold toChars
      split_ifs <;> simp

theorem numeral_toChars (h : n < 10 ^ k) : numeral (toChars k n) = n := by
  induction k generalizing n with
  | zero =>
      obtain rfl : n = 0 := by simpa using h
      rfl
  | succ k ih =>
      have hone {d : ℕ} (hd : d < 10) : numeral [.ofNat (48 + d)] = d := by
        rw [numeral_cons, (digit_ofNat hd).2]
        simp [numeral, numeralFrom]
      unfold toChars
      split_ifs with hlt
      · exact hone hlt
      · have hdiv : n / 10 < 10 ^ k := by
          rw [pow_succ] at h
          omega
        rw [numeral_append, ih hdiv, hone (by omega), List.length_singleton]
        omega

/-- Only zero starts with a zero. -/
theorem head_toChars (hn : n ≠ 0) (h : n < 10 ^ k) : (toChars k n).head? ≠ some 48 := by
  induction k generalizing n with
  | zero => exact absurd (by simpa using h) hn
  | succ k ih =>
      unfold toChars
      split_ifs with hlt
      · intro heq
        have hd := (digit_ofNat hlt).2
        rw [Option.some.inj heq] at hd
        exact hn hd.symm
      · have hdiv : n / 10 < 10 ^ k := by
          rw [pow_succ] at h
          omega
        have hk : 0 < k := Nat.pos_of_ne_zero fun hz => by
          subst hz
          omega
        have hrest := ih (by omega : n / 10 ≠ 0) hdiv
        cases hcs : toChars k (n / 10) with
        | nil => exact absurd hcs (toChars_ne_nil hk _)
        | cons c cs =>
            rw [hcs] at hrest
            exact hrest

/-- What was written is read back, up to the first byte that is not a digit. -/
theorem fromChars_toChars {limit : ℕ} (hk : 0 < k) (h : n < 10 ^ k) (hlim : n < limit)
    (hch : isDigit ch = false) (rest : List UInt8) :
    fromChars limit (toChars k n ++ ch :: rest) = some (n, ch :: rest) := by
  have htake : (toChars k n ++ ch :: rest).takeWhile isDigit = toChars k n := by
    rw [List.takeWhile_append_of_pos (digits_toChars k n),
      List.takeWhile_cons_of_neg (by simp [hch]), List.append_nil]
  have hdrop : (toChars k n ++ ch :: rest).dropWhile isDigit = ch :: rest := by
    rw [List.dropWhile_append_of_pos (digits_toChars k n),
      List.dropWhile_cons_of_neg (by simp [hch])]
  have hne := toChars_ne_nil hk n
  simp only [fromChars, htake, hdrop, numeral_toChars h]
  rw [if_neg (by
    rintro (hnil | hle)
    · exact hne hnil
    · omega)]

end Orderbooks.Decimal
