import Orderbooks.Types
import Mathlib.Data.List.Nodup

/-!
# Resting orders in queues

What a book holds, without the data structures that hold it: per side and price
the queue of the orders resting there, first come first, what each of them says,
and which of them an id names. Orders are known by numbers that are never reused.

`WellFormed` is kept by every change a command makes. It says nothing about ids
being distinct: an id may be carried by several resting orders, and the index
then names at most one of them.
-/
namespace Orderbooks

/-- The prices of a side from best to worst. -/
def Side.priority (ticks : ℕ) : Side → List ℕ
  | .bid => (List.range ticks).reverse
  | .ask => List.range ticks

/-- Taking out of a list and naming what is in it go together where names are distinct. -/
theorem map_erase_of_inj {tag : ℕ → ℕ} {x : ℕ} {q : List ℕ}
    (hinj : ∀ y ∈ q, tag y = tag x → y = x) :
    (q.erase x).map tag = (q.map tag).erase (tag x) := by
  induction q with
  | nil => rfl
  | cons y q ih =>
      by_cases hyx : y = x
      · simp [hyx]
      · have hty : tag y ≠ tag x := fun ht => hyx (hinj y (by simp) ht)
        rw [List.erase_cons_tail (by simpa using hyx), List.map_cons, List.map_cons,
          List.erase_cons_tail (by simpa using hty),
          ih fun z hz => hinj z (by simp [hz])]

structure Queues (ticks : ℕ) where
  levels : Side → ℕ → List ℕ := fun _ _ => []
  orders : ℕ → Order := fun _ => default
  index : UInt64 → Option ℕ := fun _ => none
  live : ℕ := 0
  next : ℕ := 0

namespace Queues

variable {ticks : ℕ}

def setLevel (d : Queues ticks) (s : Side) (p : ℕ) (q : List ℕ) : Queues ticks :=
  { d with levels := Function.update d.levels s (Function.update (d.levels s) p q) }

def setOrder (d : Queues ticks) (u : ℕ) (o : Order) : Queues ticks :=
  { d with orders := Function.update d.orders u o }

def setIndex (d : Queues ticks) (id : UInt64) (u : Option ℕ) : Queues ticks :=
  { d with index := Function.update d.index id u }

/-- The orders resting at a price, first come first. -/
def ordersAt (d : Queues ticks) (s : Side) (p : ℕ) : List Order := (d.levels s p).map d.orders

def aggregateAt (d : Queues ticks) (s : Side) (p : ℕ) : UInt64 :=
  ((d.ordersAt s p).map Order.remaining).sum

def best (d : Queues ticks) (s : Side) : Option ℕ :=
  (s.priority ticks).find? fun p => !(d.levels s p).isEmpty

/-- The order `u` rests where its record says. -/
def Linked (d : Queues ticks) (u : ℕ) : Prop := u ∈ d.levels (d.orders u).s (d.orders u).px

/-- Take an order out of its queue. -/
def unlink (d : Queues ticks) (u : ℕ) : Queues ticks :=
  d.setLevel (d.orders u).s (d.orders u).px
    ((d.levels (d.orders u).s (d.orders u).px).erase u)

/-- Put an order at the back of the queue its record names. -/
def link (d : Queues ticks) (u : ℕ) : Queues ticks :=
  d.setLevel (d.orders u).s (d.orders u).px (d.levels (d.orders u).s (d.orders u).px ++ [u])

/-- An order leaves the book, and its id names nothing any more. -/
def drop (d : Queues ticks) (u : ℕ) : Queues ticks :=
  { (d.unlink u).setIndex (d.orders u).id none with live := d.live - 1 }

/-- A new order rests under the number `u`. -/
def enter (d : Queues ticks) (u : ℕ) (o : Order) : Queues ticks :=
  { (d.setOrder u o).link u with live := d.live + 1 }

def setRemaining (d : Queues ticks) (u : ℕ) (qty : UInt64) : Queues ticks :=
  d.setOrder u { d.orders u with remaining := qty }

/-- An order moves to the back of the queue at another price. -/
def move (d : Queues ticks) (u newPx : ℕ) (newQty : UInt64) : Queues ticks :=
  ((d.unlink u).setOrder u { d.orders u with px := newPx, remaining := newQty }).link u

def setId (d : Queues ticks) (u : ℕ) (newId : UInt64) : Queues ticks :=
  d.setOrder u { d.orders u with id := newId }

/-- The order `u` goes by `newId` from now on. -/
def rename (d : Queues ticks) (u : ℕ) (newId : UInt64) : Queues ticks :=
  ((d.setIndex (d.orders u).id none).setId u newId).setIndex newId (some u)

/-! ## Reading a level after a change -/

variable {d : Queues ticks} {s t : Side} {p r u v : ℕ} {q : List ℕ} {o : Order}

theorem setLevel_levels :
    (d.setLevel s p q).levels t r = if t = s ∧ r = p then q else d.levels t r := by
  by_cases ht : t = s
  · subst ht
    by_cases hr : r = p
    · simp [setLevel, hr]
    · simp [setLevel, hr]
  · simp [setLevel, ht]

theorem unlink_levels :
    (d.unlink u).levels t r =
      if t = (d.orders u).s ∧ r = (d.orders u).px then (d.levels t r).erase u
      else d.levels t r := by
  rw [unlink, setLevel_levels]
  split_ifs with h
  · rw [h.1, h.2]
  · rfl

theorem link_levels :
    (d.link u).levels t r =
      if t = (d.orders u).s ∧ r = (d.orders u).px then d.levels t r ++ [u]
      else d.levels t r := by
  rw [link, setLevel_levels]
  split_ifs with h
  · rw [h.1, h.2]
  · rfl

theorem enter_levels :
    (d.enter u o).levels t r =
      if t = o.s ∧ r = o.px then d.levels t r ++ [u] else d.levels t r := by
  have hself : (d.setOrder u o).orders u = o := by simp [setOrder]
  change ((d.setOrder u o).link u).levels t r = _
  rw [link_levels, hself]
  rfl

theorem mem_enter (hu : ∀ s p, u ∉ d.levels s p) :
    v ∈ (d.enter u o).levels t r ↔
      v ∈ d.levels t r ∧ v ≠ u ∨ v = u ∧ t = o.s ∧ r = o.px := by
  have hne : v ∈ d.levels t r → v ≠ u := fun hv hvu => hu t r (hvu ▸ hv)
  rw [enter_levels]
  split_ifs with h
  · rw [List.mem_append, List.mem_singleton]
    tauto
  · tauto

@[simp] theorem enter_orders : (d.enter u o).orders = Function.update d.orders u o := rfl

@[simp] theorem setRemaining_orders (qty : UInt64) : (d.setRemaining u qty).orders =
    Function.update d.orders u { d.orders u with remaining := qty } := rfl

@[simp] theorem move_orders (newPx : ℕ) (newQty : UInt64) : (d.move u newPx newQty).orders =
    Function.update d.orders u { d.orders u with px := newPx, remaining := newQty } := rfl

@[simp] theorem setId_orders (newId : UInt64) : (d.setId u newId).orders =
    Function.update d.orders u { d.orders u with id := newId } := rfl

@[simp] theorem rename_orders (newId : UInt64) : (d.rename u newId).orders =
    Function.update d.orders u { d.orders u with id := newId } := rfl

@[simp] theorem drop_orders : (d.drop u).orders = d.orders := rfl

/-! ## Well-formed queues -/

structure WellFormed (d : Queues ticks) : Prop where
  placed : ∀ s p, ∀ u ∈ d.levels s p, (d.orders u).s = s ∧ (d.orders u).px = p ∧ p < ticks
  fresh : ∀ s p, ∀ u ∈ d.levels s p, u < d.next
  nodup : ∀ s p, (d.levels s p).Nodup
  indexed : ∀ k u, d.index k = some u → d.Linked u ∧ (d.orders u).id = k

theorem WellFormed.empty : ({} : Queues ticks).WellFormed where
  placed s p u hu := by simp at hu
  fresh s p u hu := by simp at hu
  nodup s p := List.nodup_nil
  indexed k u h := by simp at h

namespace WellFormed

variable (hd : d.WellFormed)
include hd

theorem linked (h : u ∈ d.levels s p) : d.Linked u := by
  obtain ⟨hs, hp, _⟩ := hd.placed s p u h
  unfold Linked
  rwa [hs, hp]

/-- Away from its own price an order is nowhere linked. -/
theorem ne_of_mem (hne : ¬(t = (d.orders u).s ∧ r = (d.orders u).px)) (hv : v ∈ d.levels t r) :
    v ≠ u := by
  rintro rfl
  obtain ⟨hs, hp, _⟩ := hd.placed t r v hv
  exact hne ⟨hs.symm, hp.symm⟩

/-- The next order number names nothing yet. -/
theorem next_notMem (s : Side) (p : ℕ) : d.next ∉ d.levels s p := fun h =>
  Nat.lt_irrefl _ (hd.fresh s p _ h)

theorem px_lt (h : d.Linked u) : (d.orders u).px < ticks := (hd.placed _ _ u h).2.2

/-- Taking an order out of its queue takes it out of every queue. -/
theorem mem_unlink : v ∈ (d.unlink u).levels t r ↔ v ∈ d.levels t r ∧ v ≠ u := by
  rw [unlink_levels]
  split_ifs with h
  · rw [(hd.nodup t r).mem_erase_iff, and_comm]
  · constructor
    · intro hv
      refine ⟨hv, fun hvu => h ?_⟩
      obtain ⟨hs, hp, _⟩ := hd.placed t r v hv
      rw [← hvu]
      exact ⟨hs.symm, hp.symm⟩
    · exact And.left

theorem unlink_levels_eq_erase : (d.unlink u).levels t r = (d.levels t r).erase u := by
  rw [unlink_levels]
  split_ifs with h
  · rfl
  · refine (List.erase_of_not_mem fun hu => h ?_).symm
    obtain ⟨hs, hp, _⟩ := hd.placed t r u hu
    exact ⟨hs.symm, hp.symm⟩

/-- Changing an order's open quantity. -/
theorem setRemaining (u : ℕ) (qty : UInt64) : (d.setRemaining u qty).WellFormed := by
  have key : ∀ v, ((d.setRemaining u qty).orders v).s = (d.orders v).s ∧
      ((d.setRemaining u qty).orders v).px = (d.orders v).px ∧
      ((d.setRemaining u qty).orders v).id = (d.orders v).id := fun v => by
    by_cases hv : v = u
    · simp [Queues.setRemaining, setOrder, hv]
    · simp [Queues.setRemaining, setOrder, hv]
  refine ⟨fun t r v hv => ?_, hd.fresh, hd.nodup, fun k v hk => ?_⟩
  · rw [(key v).1, (key v).2.1]
    exact hd.placed t r v hv
  · unfold Linked
    rw [(key v).1, (key v).2.1, (key v).2.2]
    exact hd.indexed k v hk

theorem drop (u : ℕ) : (d.drop u).WellFormed where
  placed t r v hv := hd.placed t r v (hd.mem_unlink.mp hv).1
  fresh t r v hv := hd.fresh t r v (hd.mem_unlink.mp hv).1
  nodup t r := by
    change ((d.unlink u).levels t r).Nodup
    rw [hd.unlink_levels_eq_erase]
    exact (hd.nodup t r).erase u
  indexed k v hk := by
    have hne : k ≠ (d.orders u).id := fun h => by simp [Queues.drop, setIndex, h] at hk
    have hk' : d.index k = some v := by
      simpa [Queues.drop, setIndex, hne, unlink, setLevel] using hk
    obtain ⟨hl, hid⟩ := hd.indexed k v hk'
    refine ⟨hd.mem_unlink.mpr ⟨hl, fun hvu => hne ?_⟩, hid⟩
    rw [← hid, hvu]

theorem enter (hu : ∀ s p, u ∉ d.levels s p) (hlt : u < d.next) (ho : o.px < ticks) :
    (d.enter u o).WellFormed := by
  refine ⟨fun t r v hv => ?_, fun t r v hv => ?_, fun t r => ?_, fun k v hk => ?_⟩
  · rcases (mem_enter hu).mp hv with ⟨hv, hne⟩ | ⟨rfl, rfl, rfl⟩
    · rw [enter_orders, Function.update_of_ne hne]
      exact hd.placed t r v hv
    · simp [ho]
  · rcases (mem_enter hu).mp hv with ⟨hv, _⟩ | ⟨rfl, _⟩
    · exact hd.fresh t r v hv
    · exact hlt
  · rw [enter_levels]
    split_ifs
    · exact (hd.nodup t r).append (List.nodup_singleton u) (by simpa using hu t r)
    · exact hd.nodup t r
  · obtain ⟨hl, hid⟩ := hd.indexed k v hk
    have hne : v ≠ u := fun h => hu _ _ (h ▸ hl)
    unfold Linked
    rw [mem_enter hu, enter_orders, Function.update_of_ne hne]
    exact ⟨.inl ⟨hl, hne⟩, hid⟩

/-- The counter of order numbers may skip. -/
theorem setNext {n : ℕ} (hn : d.next ≤ n) : ({ d with next := n } : Queues ticks).WellFormed where
  placed := hd.placed
  fresh s p u hu := Nat.lt_of_lt_of_le (hd.fresh s p u hu) hn
  nodup := hd.nodup
  indexed := hd.indexed

/-- The index may come to name any resting order by its id. -/
theorem setIndex (hu : d.Linked u) : (d.setIndex (d.orders u).id (some u)).WellFormed where
  placed := hd.placed
  fresh := hd.fresh
  nodup := hd.nodup
  indexed k v hk := by
    by_cases h : k = (d.orders u).id
    · have hv : u = v := by simpa [Queues.setIndex, h] using hk
      rw [← hv]
      exact ⟨hu, h.symm⟩
    · have hk' : d.index k = some v := by simpa [Queues.setIndex, h] using hk
      exact hd.indexed k v hk'

theorem unindex (k : UInt64) : (d.setIndex k none).WellFormed where
  placed := hd.placed
  fresh := hd.fresh
  nodup := hd.nodup
  indexed k' v hk := by
    by_cases h : k' = k
    · simp [Queues.setIndex, h] at hk
    · exact hd.indexed k' v (by simpa [Queues.setIndex, h] using hk)

theorem setId (hu : ∀ k, d.index k ≠ some u) (newId : UInt64) : (d.setId u newId).WellFormed := by
  have hs : ∀ v, ((d.setId u newId).orders v).s = (d.orders v).s ∧
      ((d.setId u newId).orders v).px = (d.orders v).px := fun v => by
    by_cases hv : v = u
    · simp [hv]
    · simp [hv]
  refine ⟨fun t r v hv => ?_, hd.fresh, hd.nodup, fun k v hk => ?_⟩
  · rw [(hs v).1, (hs v).2]
    exact hd.placed t r v hv
  · obtain ⟨hl, hid⟩ := hd.indexed k v hk
    have hne : v ≠ u := fun h => hu k (h ▸ hk)
    refine ⟨?_, by simpa [hne] using hid⟩
    unfold Linked
    rw [(hs v).1, (hs v).2]
    exact hl

/-- Without the entry under its id, no entry names an order. -/
theorem index_unindex_ne (u : ℕ) (k : UInt64) :
    (d.setIndex (d.orders u).id none).index k ≠ some u := fun hk => by
  by_cases h : k = (d.orders u).id
  · simp [Queues.setIndex, h] at hk
  · exact h (hd.indexed k u (by simpa [Queues.setIndex, h] using hk)).2.symm

theorem rename (hu : d.Linked u) (newId : UInt64) : (d.rename u newId).WellFormed := by
  have h1 := (hd.unindex (d.orders u).id).setId (hd.index_unindex_ne u) newId
  have hid : (((d.setIndex (d.orders u).id none).setId u newId).orders u).id = newId := by simp
  have hl : ((d.setIndex (d.orders u).id none).setId u newId).Linked u := by
    simpa [Linked, Queues.setId, setOrder, Queues.setIndex] using hu
  have := h1.setIndex hl
  rwa [hid] at this

theorem move_levels (newPx : ℕ) (newQty : UInt64) :
    (d.move u newPx newQty).levels t r =
      if t = (d.orders u).s ∧ r = newPx then (d.levels t r).erase u ++ [u]
      else (d.levels t r).erase u := by
  unfold Queues.move
  rw [link_levels]
  simp only [setOrder, Function.update_self]
  rw [hd.unlink_levels_eq_erase]

theorem mem_move (newPx : ℕ) (newQty : UInt64) :
    v ∈ (d.move u newPx newQty).levels t r ↔
      v ∈ d.levels t r ∧ v ≠ u ∨ v = u ∧ t = (d.orders u).s ∧ r = newPx := by
  rw [hd.move_levels]
  split_ifs with h
  · rw [List.mem_append, (hd.nodup t r).mem_erase_iff, List.mem_singleton]
    tauto
  · rw [(hd.nodup t r).mem_erase_iff]
    tauto

theorem move (hu : d.Linked u) {newPx : ℕ} (hpx : newPx < ticks) (newQty : UInt64) :
    (d.move u newPx newQty).WellFormed := by
  refine ⟨fun t r v hv => ?_, fun t r v hv => ?_, fun t r => ?_, fun k v hk => ?_⟩
  · rcases (hd.mem_move newPx newQty).mp hv with ⟨hv, hne⟩ | ⟨rfl, rfl, rfl⟩
    · rw [move_orders, Function.update_of_ne hne]
      exact hd.placed t r v hv
    · simp [hpx]
  · rcases (hd.mem_move newPx newQty).mp hv with ⟨hv, _⟩ | ⟨rfl, _⟩
    · exact hd.fresh t r v hv
    · exact hd.fresh _ _ v hu
  · rw [hd.move_levels]
    split_ifs
    · refine ((hd.nodup t r).erase u).append (List.nodup_singleton u) ?_
      simp [(hd.nodup t r).mem_erase_iff]
    · exact (hd.nodup t r).erase u
  · obtain ⟨hl, hid⟩ := hd.indexed k v hk
    unfold Linked
    rw [hd.mem_move]
    by_cases hne : v = u
    · subst hne
      simpa using hid
    · rw [move_orders, Function.update_of_ne hne]
      exact ⟨.inl ⟨hl, hne⟩, hid⟩

/-! ## Who is linked after a change -/

theorem linked_drop : (d.drop u).Linked v ↔ d.Linked v ∧ v ≠ u := hd.mem_unlink

theorem linked_move (hu : d.Linked u) (newPx : ℕ) (newQty : UInt64) :
    (d.move u newPx newQty).Linked v ↔ d.Linked v := by
  unfold Linked at hu ⊢
  rw [hd.mem_move, move_orders]
  by_cases hv : v = u
  · subst hv
    simpa using hu
  · simp [hv]

end WellFormed

theorem linked_enter (hu : ∀ s p, u ∉ d.levels s p) :
    (d.enter u o).Linked v ↔ d.Linked v ∨ v = u := by
  unfold Linked
  rw [mem_enter hu, enter_orders]
  by_cases hv : v = u
  · subst hv
    simp
  · simp [hv]

theorem linked_setOrder {o : Order} (hs : o.s = (d.orders u).s) (hp : o.px = (d.orders u).px) :
    (d.setOrder u o).Linked v ↔ d.Linked v := by
  unfold Linked
  by_cases hv : v = u
  · subst hv
    simp [setOrder, hs, hp]
  · simp [setOrder, hv]

@[simp] theorem linked_setRemaining (qty : UInt64) :
    (d.setRemaining u qty).Linked v ↔ d.Linked v := linked_setOrder rfl rfl

@[simp] theorem linked_rename (newId : UInt64) : (d.rename u newId).Linked v ↔ d.Linked v :=
  linked_setOrder rfl rfl

end Queues
end Orderbooks
