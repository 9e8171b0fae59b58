import Mathlib.Data.List.Nodup
import Mathlib.Data.List.Range
import Mathlib.Logic.Function.Basic
import Mathlib.Data.Finset.Card
import Mathlib.Data.Finset.Range

/-!
# Free lists threaded through the free cells themselves

`Threaded link head free` says that following `link` from `head` visits exactly
`free`, in that order, and then stops. `Pool cap free used` adds that the free
cells are distinct, lie below the capacity and leave `used` cells.
-/
namespace Orderbooks.FreeList

variable {link link' : ℕ → Option (Option ℕ)} {head : Option ℕ} {free : List ℕ}
  {cap used x : ℕ}

inductive Threaded (link : ℕ → Option (Option ℕ)) : Option ℕ → List ℕ → Prop
  | nil : Threaded link none []
  | cons {x : ℕ} {n : Option ℕ} {free : List ℕ} :
      link x = some n → Threaded link n free → Threaded link (some x) (x :: free)

theorem Threaded.head_nil (h : Threaded link head []) : head = none := by
  cases h
  rfl

theorem Threaded.uncons (h : Threaded link head (x :: free)) :
    ∃ next, head = some x ∧ link x = some next ∧ Threaded link next free := by
  cases h with
  | cons hx ht => exact ⟨_, rfl, hx, ht⟩

theorem Threaded.congr (h : Threaded link head free)
    (hl : ∀ x ∈ free, link' x = link x) : Threaded link' head free := by
  induction h with
  | nil => exact .nil
  | cons hx _ ih =>
      refine .cons ((hl _ (by simp)).trans hx) (ih fun y hy => hl y (by simp [hy]))

/-- Cells linked to their successors thread the tail of a range. -/
theorem Threaded.of_range {lo n : ℕ} (hn : 0 < n)
    (hstep : ∀ i, lo ≤ i → i + 1 < lo + n → link i = some (some (i + 1)))
    (hlast : link (lo + n - 1) = some none) :
    Threaded link (some lo) (List.range' lo n) := by
  induction n generalizing lo with
  | zero => omega
  | succ n ih =>
      rw [List.range'_succ]
      rcases Nat.eq_zero_or_pos n with rfl | hpos
      · exact .cons hlast .nil
      · refine .cons (hstep lo (le_refl lo) (by omega)) (ih hpos ?_ ?_)
        · exact fun i hi hlt => hstep i (by omega) (by omega)
        · rw [← hlast]
          congr 1
          omega

structure Pool (cap : ℕ) (free : List ℕ) (used : ℕ) : Prop where
  nodup : free.Nodup
  bound : ∀ x ∈ free, x < cap
  count : used + free.length = cap

theorem Pool.range (cap : ℕ) : Pool cap (List.range cap) 0 where
  nodup := List.nodup_range
  bound x hx := List.mem_range.mp hx
  count := by simp

theorem Pool.pop (h : Pool cap (x :: free) used) : Pool cap free (used + 1) where
  nodup := (List.nodup_cons.mp h.nodup).2
  bound y hy := h.bound y (by simp [hy])
  count := by
    have := h.count
    rw [List.length_cons] at this
    omega

/-- Distinct cells below the capacity that miss one of them are fewer. -/
theorem Pool.used_pos (h : Pool cap free used) (hx : x < cap) (hfree : x ∉ free) : 0 < used := by
  have hsub : (x :: free).toFinset ⊆ Finset.range cap := by
    intro y hy
    rcases List.mem_cons.mp (List.mem_toFinset.mp hy) with rfl | hy
    · exact Finset.mem_range.mpr hx
    · exact Finset.mem_range.mpr (h.bound y hy)
  have hcard := Finset.card_le_card hsub
  rw [List.toFinset_card_of_nodup (List.nodup_cons.mpr ⟨hfree, h.nodup⟩), Finset.card_range,
    List.length_cons] at hcard
  have := h.count
  omega

theorem Pool.push (h : Pool cap free used) (hx : x < cap) (hfree : x ∉ free) :
    Pool cap (x :: free) (used - 1) where
  nodup := List.nodup_cons.mpr ⟨hfree, h.nodup⟩
  bound y hy := by
    rcases List.mem_cons.mp hy with rfl | hy
    · exact hx
    · exact h.bound y hy
  count := by
    have := h.used_pos hx hfree
    have := h.count
    rw [List.length_cons]
    omega

/-- The slots that are not free are as many as are in use. -/
theorem Pool.card_used (h : Pool cap free used) :
    ((Finset.range cap).filter (· ∉ free)).card = used := by
  have hsub : free.toFinset ⊆ Finset.range cap := fun x hx =>
    Finset.mem_range.mpr (h.bound x (List.mem_toFinset.mp hx))
  have hfilter : (Finset.range cap).filter (· ∉ free) = Finset.range cap \ free.toFinset := by
    ext x
    simp
  have hcount := h.count
  rw [hfilter, Finset.card_sdiff_of_subset hsub, Finset.card_range,
    List.toFinset_card_of_nodup h.nodup]
  omega

end Orderbooks.FreeList
