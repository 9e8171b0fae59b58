import Mathlib.Tactic.Common
import Mathlib.Data.Nat.ModEq

/-!
# Free-running cursors

A ring of `2^k` slots is often addressed by 64-bit positions that only ever count up, and wrap.
The lemmas below read such a cursor as the natural number it has counted to.
-/
namespace Orderbooks.Cursors

/-- Positions less than a lap apart lie in different slots. -/
theorem mod_ne_mod {cap p q : ℕ} (h : p < q) (h' : q < p + cap) : p % cap ≠ q % cap := by
  intro heq
  have hdvd : cap ∣ q - p := (Nat.modEq_iff_dvd' h.le).mp heq
  have := Nat.le_of_dvd (by omega) hdvd
  omega

theorem ofNat_ne_ofNat {p q : ℕ} (h : p < q) (h' : q < p + 2 ^ 64) :
    UInt64.ofNat p ≠ UInt64.ofNat q := by
  rw [Ne, ← UInt64.toNat_inj, UInt64.toNat_ofNat', UInt64.toNat_ofNat']
  exact mod_ne_mod h h'

/-- The slot of a position. -/
theorem toNat_and_mask {k : ℕ} (hk : k < 64) (p : ℕ) :
    (UInt64.ofNat p &&& UInt64.ofNat (2 ^ k - 1)).toNat = p % 2 ^ k := by
  have hpow : 2 ^ k < 2 ^ 64 := Nat.pow_lt_pow_right (by omega) hk
  have hmask : 2 ^ k - 1 < 2 ^ 64 := by omega
  rw [UInt64.toNat_and, UInt64.toNat_ofNat_of_lt' hmask, UInt64.toNat_ofNat',
    Nat.and_two_pow_sub_one_eq_mod, Nat.mod_mod_of_dvd _ (Nat.pow_dvd_pow 2 hk.le)]

/-- The distance of two cursors, whichever of them has wrapped. -/
theorem toNat_sub {c p : ℕ} (h : c ≤ p) (h' : p < c + 2 ^ 64) :
    (UInt64.ofNat p - UInt64.ofNat c).toNat = p - c := by
  have hsplit : UInt64.ofNat p = UInt64.ofNat (p - c) + UInt64.ofNat c := by
    rw [← UInt64.ofNat_add, Nat.sub_add_cancel h]
  rw [hsplit, UInt64.add_sub_cancel, UInt64.toNat_ofNat_of_lt' (show p - c < 2 ^ 64 by omega)]

/-- The test whether a lap lies between two cursors. -/
theorem ofNat_le_sub {c p cap : ℕ} (h : c ≤ p) (h' : p < c + 2 ^ 64) (hcap : cap < 2 ^ 64) :
    UInt64.ofNat cap ≤ UInt64.ofNat p - UInt64.ofNat c ↔ c + cap ≤ p := by
  rw [UInt64.le_iff_toNat_le, toNat_sub h h', UInt64.toNat_ofNat_of_lt' hcap]
  omega

end Orderbooks.Cursors
