import Mathlib.Tactic.Common
import Mathlib.Data.Nat.Notation
import Mathlib.Data.List.Nodup
import Mathlib.Algebra.BigOperators.Group.List.Basic
import Mathlib.Algebra.Ring.Nat

/-!
# Lists

Lists that are put together piece by piece where most pieces are empty, and loops over a list
that may fail.
-/
namespace Orderbooks

section FlatMap
variable {α β : Type}

theorem flatMap_filter (l : List α) (P : α → Bool) (f : α → List β) :
    (l.filter P).flatMap f = l.flatMap fun a => if P a then f a else [] := by
  induction l with
  | nil => rfl
  | cons a l ih =>
      rw [List.filter_cons, List.flatMap_cons, ← ih]
      split_ifs <;> rfl

/-- Leaving out what contributes nothing. -/
theorem flatMap_filter_of_nil {q : α → Bool} {f : α → List β} (hf : ∀ a, q a = false → f a = [])
    (l : List α) : (l.filter q).flatMap f = l.flatMap f := by
  rw [flatMap_filter]
  refine List.flatMap_congr fun a _ => ?_
  split_ifs with hq
  · rfl
  · exact (hf a (by simpa using hq)).symm

/-- Only one element contributes. -/
theorem flatMap_eq_of_mem {l : List α} {f : α → List β} {a : α} (hl : l.Nodup) (ha : a ∈ l)
    (hf : ∀ b ∈ l, b ≠ a → f b = []) : l.flatMap f = f a := by
  induction l with
  | nil => simp at ha
  | cons b l ih =>
      obtain ⟨hb, hl⟩ := List.nodup_cons.mp hl
      rw [List.flatMap_cons]
      by_cases hba : b = a
      · subst hba
        have hrest : l.flatMap f = [] := List.flatMap_eq_nil_iff.mpr fun c hc =>
          hf c (by simp [hc]) fun h => hb (h ▸ hc)
        rw [hrest, List.append_nil]
      · rw [hf b (by simp) hba, List.nil_append]
        exact ih hl (by simpa [Ne.symm hba] using ha) fun c hc => hf c (by simp [hc])

theorem flatMap_single [DecidableEq α] {l : List α} (hl : l.Nodup) (a : α) (bs : List β) :
    (l.flatMap fun q => if q = a then bs else []) = if a ∈ l then bs else [] := by
  split_ifs with ha
  · rw [flatMap_eq_of_mem hl ha fun q _ hq => if_neg hq, if_pos rfl]
  · refine List.flatMap_eq_nil_iff.mpr fun q hq => if_neg ?_
    rintro rfl
    exact ha hq

theorem sum_ite_eq_countP (p : α → Bool) (k : ℕ) (l : List α) :
    (l.map fun x => if p x then k else 0).sum = k * l.countP p := by
  induction l with
  | nil => rfl
  | cons x l ih =>
      rw [List.map_cons, List.sum_cons, ih, List.countP_cons, Nat.mul_add]
      split_ifs <;> simp [Nat.add_comm]

end FlatMap

section Except
variable {α β ε : Type} {f : α → Except ε β} {l : List α}

theorem bind_eq_ok {x : Except ε α} {b : β} : (x >>= f) = .ok b ↔ ∃ a, x = .ok a ∧ f a = .ok b := by
  cases x <;> simp [bind, Except.bind]

theorem mapM_ok {g : α → β} (h : ∀ a ∈ l, f a = .ok (g a)) : l.mapM f = .ok (l.map g) := by
  induction l with
  | nil => rfl
  | cons a l ih =>
      have hrest := ih fun a' ha' => h a' (List.mem_cons_of_mem _ ha')
      rw [List.mapM_cons, h a List.mem_cons_self, hrest]
      rfl

theorem ok_of_mapM {bs : List β} (h : l.mapM f = .ok bs) : ∀ a ∈ l, ∃ b, f a = .ok b := by
  induction l generalizing bs with
  | nil => simp
  | cons a l ih =>
      rw [List.mapM_cons] at h
      obtain ⟨b, ha, h⟩ := bind_eq_ok.mp h
      obtain ⟨bs', hl, -⟩ := bind_eq_ok.mp h
      exact List.forall_mem_cons.mpr ⟨⟨b, ha⟩, ih hl⟩

end Except

end Orderbooks
