import Mathlib.Tactic.Common
import Mathlib.Data.Nat.Notation

/-!
# Bounded channels

A channel is the list of the elements that were put in and not released yet, oldest first. A
reader first claims elements at the front, reads them in place and then releases them in one
go, so a claimed element still takes up room.
-/
namespace Orderbooks.Channel

variable {α : Type}

/-- Put an element in, unless the channel is full. -/
def push (cap : ℕ) (q : List α) (x : α) : Option (List α) :=
  if q.length < cap then some (q ++ [x]) else none

/-- A claim of at most `max` elements finds `n`. It comes back empty-handed only when there is
nothing to find, or nothing was asked for. -/
def Claims (max : ℕ) (q : List α) (n : ℕ) : Prop :=
  n ≤ max ∧ n ≤ q.length ∧ (n = 0 → max = 0 ∨ q = [])

instance (max : ℕ) (q : List α) (n : ℕ) : Decidable (Claims max q n) :=
  inferInstanceAs (Decidable (_ ∧ _ ∧ (_ → _)))

theorem push_eq_some {cap : ℕ} {q q' : List α} {x : α} :
    push cap q x = some q' ↔ q.length < cap ∧ q' = q ++ [x] := by
  unfold push
  split_ifs with h
  · simp [h, eq_comm]
  · simp [h]

theorem push_eq_none {cap : ℕ} {q : List α} {x : α} : push cap q x = none ↔ cap ≤ q.length := by
  unfold push
  split_ifs with h
  · simp [h]
  · simpa using h

theorem Claims.eq_nil {max : ℕ} {q : List α} (h : Claims max q 0) (hmax : 0 < max) : q = [] :=
  (h.2.2 rfl).resolve_left (by omega)

/-- The claim a reader makes that would like to have `n` elements. -/
def claim (max : ℕ) (q : List α) (n : ℕ) : ℕ := min (n + 1) (min max q.length)

theorem claims_claim {max : ℕ} (q : List α) (n : ℕ) : Claims max q (claim max q n) := by
  unfold claim Claims
  rw [← List.length_eq_zero_iff]
  omega

end Orderbooks.Channel
