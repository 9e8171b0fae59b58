import Mathlib.Tactic.Common
import Mathlib.Data.Nat.Notation
import Mathlib.Algebra.Ring.Nat

/-!
# Little-endian integers in a byte string

`store k n` are the `k` bytes an integer is kept in, least significant first, and `value`
is the integer that bytes stand for. `uint off k` reads the integer kept in the `k` bytes
at an offset, as a field of a packed structure is read.

A structure is written as its fields one after another. To read a field back is to skip the
fields before it (`uint_append_right`) and to take the ones after it off (`uint_append_left`).
-/
namespace Orderbooks.LittleEndian

def store : ℕ → ℕ → List UInt8
  | 0, _ => []
  | k + 1, n => UInt8.ofNat n :: store k (n / 256)

def value : List UInt8 → ℕ
  | [] => 0
  | b :: bs => b.toNat + 256 * value bs

@[simp] theorem length_store (k n : ℕ) : (store k n).length = k := by
  induction k generalizing n with
  | zero => rfl
  | succ k ih => simp [store, ih]

theorem value_store (k : ℕ) : ∀ {n : ℕ}, n < 256 ^ k → value (store k n) = n := by
  induction k with
  | zero =>
      intro n hn
      rw [Nat.pow_zero, Nat.lt_one_iff] at hn
      rw [hn]
      rfl
  | succ k ih =>
      intro n hn
      have hdiv : n / 256 < 256 ^ k := by
        rw [Nat.div_lt_iff_lt_mul (by decide)]
        rwa [Nat.pow_succ] at hn
      have hlow : (UInt8.ofNat n).toNat = n % 256 := UInt8.toNat_ofNat'
      rw [store, value, ih hdiv, hlow]
      omega

@[simp] theorem ofNat_value_store_uint8 (x : UInt8) :
    UInt8.ofNat (value (store 1 x.toNat)) = x := by
  rw [value_store 1 x.toNat_lt, UInt8.ofNat_toNat]

@[simp] theorem ofNat_value_store_uint32 (x : UInt32) :
    UInt32.ofNat (value (store 4 x.toNat)) = x := by
  rw [value_store 4 x.toNat_lt, UInt32.ofNat_toNat]

@[simp] theorem ofNat_value_store_uint64 (x : UInt64) :
    UInt64.ofNat (value (store 8 x.toNat)) = x := by
  rw [value_store 8 x.toNat_lt, UInt64.ofNat_toNat]

/-- The integer in the `k` bytes at offset `off`. -/
def uint (off k : ℕ) (bs : List UInt8) : ℕ := value ((bs.drop off).take k)

theorem uint_append_left {k : ℕ} {as : List UInt8} (h : as.length = k) (bs : List UInt8) :
    uint 0 k (as ++ bs) = value as := by
  rw [uint, List.drop_zero, ← h, List.take_left]

theorem uint_append_right {off : ℕ} {as : List UInt8} (h : as.length ≤ off) (k : ℕ)
    (bs : List UInt8) : uint off k (as ++ bs) = uint (off - as.length) k bs := by
  rw [uint, uint, List.drop_append, List.drop_eq_nil_of_le h, List.nil_append]

end Orderbooks.LittleEndian
