import Orderbooks.Invariants
import Orderbooks.Lib.Lists

/-!
# Queues written out as a list

`listing` goes through the queues bids before asks, ascending in price and first
come first. `replay` enters orders from a list, one after another, each under a
number of its own and each taking over the index entry of its id.

Replaying may start anywhere and the list may name an id more than once. Replaying
the listing of some queues gives these queues back, up to what no resting order
says; the index too, if every id rests once.
-/
namespace Orderbooks

namespace Queues

variable {ticks : ℕ} {d d' : Queues ticks} {s : Side} {p u : ℕ} {o : Order}
  {l : List (ℕ × Order)}

/-! ## Queues that say the same -/

/-- Queues that differ in nothing a resting order or the index says. -/
structure Alike (d d' : Queues ticks) : Prop where
  levels : d'.levels = d.levels
  orders : ∀ s p, ∀ u ∈ d.levels s p, d'.orders u = d.orders u
  index : d'.index = d.index
  live : d'.live = d.live

theorem Alike.populated (h : Alike d d') : d'.populated = d.populated := by
  unfold Queues.populated
  rw [h.levels]

/-! ## Replaying -/

/-- An order enters under the number `u`, and its id names it from now on. -/
def restore (d : Queues ticks) (u : ℕ) (o : Order) : Queues ticks :=
  (({ d with next := max d.next (u + 1) } : Queues ticks).enter u o).setIndex o.id (some u)

def replay (d : Queues ticks) (l : List (ℕ × Order)) : Queues ticks :=
  l.foldl (fun d a => d.restore a.1 a.2) d

@[simp] theorem replay_nil : d.replay [] = d := rfl

@[simp] theorem replay_cons (a : ℕ × Order) :
    d.replay (a :: l) = (d.restore a.1 a.2).replay l := rfl

theorem restore_levels :
    (d.restore u o).levels s p =
      d.levels s p ++ if o.s = s ∧ o.px = p then [u] else [] := by
  change (({ d with next := max d.next (u + 1) } : Queues ticks).enter u o).levels s p = _
  rw [enter_levels]
  by_cases h : s = o.s ∧ p = o.px
  · rw [if_pos h, if_pos ⟨h.1.symm, h.2.symm⟩]
  · rw [if_neg h, if_neg fun h' => h ⟨h'.1.symm, h'.2.symm⟩, List.append_nil]

@[simp] theorem restore_orders : (d.restore u o).orders = Function.update d.orders u o := rfl

@[simp] theorem restore_index :
    (d.restore u o).index = Function.update d.index o.id (some u) := rfl

theorem restore_notMem {v : ℕ} (hv : ∀ s p, v ∉ d.levels s p) (hne : v ≠ u) (s : Side) (p : ℕ) :
    v ∉ (d.restore u o).levels s p := by
  rw [restore_levels, List.mem_append, not_or]
  refine ⟨hv s p, ?_⟩
  split_ifs
  · simpa using hne
  · simp

/-- The new orders join the queues in the order of the list. -/
theorem replay_levels :
    (d.replay l).levels s p =
      d.levels s p ++ (l.filter fun a => a.2.s = s ∧ a.2.px = p).map Prod.fst := by
  induction l generalizing d with
  | nil => simp
  | cons a l ih =>
      rw [replay_cons, ih, restore_levels, List.append_assoc, List.filter_cons]
      by_cases h : a.2.s = s ∧ a.2.px = p
      · simp [h]
      · simp [h]

theorem replay_live : (d.replay l).live = d.live + l.length := by
  induction l generalizing d with
  | nil => rfl
  | cons a l ih =>
      rw [replay_cons, ih, List.length_cons]
      change d.live + 1 + l.length = _
      omega

theorem replay_orders_of_notMem (hu : u ∉ l.map Prod.fst) :
    (d.replay l).orders u = d.orders u := by
  induction l generalizing d with
  | nil => rfl
  | cons a l ih =>
      rw [List.map_cons, List.mem_cons, not_or] at hu
      rw [replay_cons, ih hu.2, restore_orders, Function.update_of_ne hu.1]

theorem replay_orders (hl : (l.map Prod.fst).Nodup) (hu : (u, o) ∈ l) :
    (d.replay l).orders u = o := by
  induction l generalizing d with
  | nil => simp at hu
  | cons a l ih =>
      obtain ⟨ha, hl⟩ := List.nodup_cons.mp hl
      rcases List.mem_cons.mp hu with rfl | hu
      · rw [replay_cons, replay_orders_of_notMem ha, restore_orders, Function.update_self]
      · exact ih hl hu

/-- An id names something once an order has come under it. -/
theorem replay_index {k : UInt64} :
    ((d.replay l).index k).isSome ↔ (d.index k).isSome ∨ ∃ a ∈ l, a.2.id = k := by
  induction l generalizing d with
  | nil => simp
  | cons a l ih =>
      rw [replay_cons, ih, restore_index]
      by_cases hk : k = a.2.id
      · simp [hk]
      · simp [hk, Ne.symm hk]

theorem WellFormed.restore (hd : d.WellFormed) (hu : ∀ s p, u ∉ d.levels s p)
    (ho : o.px < ticks) : (d.restore u o).WellFormed := by
  have hnext : u < max d.next (u + 1) := by omega
  have hwf := (hd.setNext (n := max d.next (u + 1)) (by omega)).enter hu hnext ho
  have hlinked := (linked_enter (o := o) (v := u) hu).mpr (.inr rfl)
  have := hwf.setIndex hlinked
  rwa [enter_orders, Function.update_self] at this

theorem WellFormed.replay (hd : d.WellFormed) (hl : (l.map Prod.fst).Nodup)
    (hfresh : ∀ a ∈ l, ∀ s p, a.1 ∉ d.levels s p) (hpx : ∀ a ∈ l, a.2.px < ticks) :
    (d.replay l).WellFormed := by
  induction l generalizing d with
  | nil => exact hd
  | cons a l ih =>
      obtain ⟨ha, hl⟩ := List.nodup_cons.mp hl
      refine ih (hd.restore (hfresh a (by simp)) (hpx a (by simp))) hl (fun b hb => ?_)
        fun b hb => hpx b (by simp [hb])
      refine restore_notMem (hfresh b (by simp [hb])) fun hba => ha ?_
      rw [← hba]
      exact List.mem_map_of_mem hb

theorem Counted.restore {cap : ℕ} (h : d.Counted cap) (ho : o.px < ticks) (hroom : d.live < cap) :
    (d.restore u o).Counted cap := by
  have hlink := count_link (u := u)
    (d := ({ d with next := max d.next (u + 1) } : Queues ticks).setOrder u o)
    (by simpa [setOrder] using ho)
  refine ⟨?_, hroom⟩
  change d.live + 1 = _
  rw [h.live]
  exact hlink.symm

theorem Counted.replay {cap : ℕ} (h : d.Counted cap) (hpx : ∀ a ∈ l, a.2.px < ticks)
    (hroom : d.live + l.length ≤ cap) : (d.replay l).Counted cap := by
  induction l generalizing d with
  | nil => exact h
  | cons a l ih =>
      rw [List.length_cons] at hroom
      refine ih (h.restore (hpx a (by simp)) (by omega)) (fun b hb => hpx b (by simp [hb])) ?_
      change d.live + 1 + l.length ≤ cap
      omega

/-! ## A book replayed from nothing -/

theorem mem_replay : u ∈ (({} : Queues ticks).replay l).levels s p ↔
    ∃ o, (u, o) ∈ l ∧ o.s = s ∧ o.px = p := by
  rw [replay_levels]
  simp only [List.nil_append, List.mem_map, List.mem_filter, decide_eq_true_eq]
  constructor
  · rintro ⟨⟨v, o⟩, ⟨hmem, ho⟩, rfl⟩
    exact ⟨o, hmem, ho⟩
  · rintro ⟨o, hmem, ho⟩
    exact ⟨(u, o), ⟨hmem, ho⟩, rfl⟩

theorem ordersAt_replay (hl : (l.map Prod.fst).Nodup) :
    (({} : Queues ticks).replay l).ordersAt s p =
      (l.map Prod.snd).filter fun o => o.s = s ∧ o.px = p := by
  unfold ordersAt
  rw [replay_levels, List.nil_append, List.map_map, List.filter_map]
  refine List.map_congr_left fun a ha => ?_
  exact replay_orders hl (List.mem_of_mem_filter ha)

theorem linked_replay (hl : (l.map Prod.fst).Nodup) :
    (({} : Queues ticks).replay l).Linked u ↔ ∃ o, (u, o) ∈ l := by
  unfold Linked
  rw [mem_replay]
  constructor
  · rintro ⟨o, hmem, _⟩
    exact ⟨o, hmem⟩
  · rintro ⟨o, hmem⟩
    rw [replay_orders hl hmem]
    exact ⟨o, hmem, rfl, rfl⟩

/-- If no id comes twice, each order is the one its id names. -/
theorem exact_replay (hl : (l.map Prod.fst).Nodup)
    (hpx : ∀ a ∈ l, a.2.px < ticks) (hids : (l.map fun a => a.2.id).Nodup) :
    (({} : Queues ticks).replay l).Exact := by
  have hwf := WellFormed.empty.replay hl (by simp) hpx
  intro u hu
  obtain ⟨o, hmem⟩ := (linked_replay hl).mp hu
  have hsome : ((({} : Queues ticks).replay l).index o.id).isSome :=
    replay_index.mpr (.inr ⟨(u, o), hmem, rfl⟩)
  obtain ⟨v, hv⟩ := Option.isSome_iff_exists.mp hsome
  obtain ⟨hlinked, hid⟩ := hwf.indexed _ v hv
  obtain ⟨o', hmem'⟩ := (linked_replay hl).mp hlinked
  rw [replay_orders hl hmem'] at hid
  have : (v, o') = (u, o) := List.inj_on_of_nodup_map hids hmem' hmem hid
  rw [replay_orders hl hmem, hv, (Prod.mk.inj this).1]

/-! ## The listing -/

/-- The orders of the book, bids before asks, ascending, first come first. -/
def listing (d : Queues ticks) : List ℕ :=
  [Side.bid, Side.ask].flatMap fun s => (List.range ticks).flatMap (d.levels s)

/-- The listing with what each order says. -/
def entries (d : Queues ticks) : List (ℕ × Order) := d.listing.map fun u => (u, d.orders u)

theorem mem_listing (hd : d.WellFormed) : u ∈ d.listing ↔ d.Linked u := by
  unfold listing
  simp only [List.mem_flatMap, List.mem_range]
  constructor
  · rintro ⟨s, _, p, _, hu⟩
    exact hd.linked hu
  · intro hu
    exact ⟨(d.orders u).s, by cases (d.orders u).s <;> simp, (d.orders u).px, hd.px_lt hu, hu⟩

theorem nodup_listing (hd : d.WellFormed) : d.listing.Nodup := by
  have hside : ∀ s : Side, ((List.range ticks).flatMap (d.levels s)).Nodup := fun s => by
    refine List.nodup_flatMap.mpr ⟨fun p _ => hd.nodup s p, ?_⟩
    refine List.nodup_range.pairwise_of_forall_ne fun p _ r _ hne => ?_
    intro u hp hr
    exact hne ((hd.placed s p u hp).2.1.symm.trans (hd.placed s r u hr).2.1)
  refine List.nodup_flatMap.mpr ⟨fun s _ => hside s, ?_⟩
  refine List.pairwise_pair.mpr fun u hb ha => ?_
  obtain ⟨p, _, hp⟩ := List.mem_flatMap.mp hb
  obtain ⟨r, _, hr⟩ := List.mem_flatMap.mp ha
  have := (hd.placed _ p u hp).1.symm.trans (hd.placed _ r u hr).1
  cases this

theorem length_listing (d : Queues ticks) : d.listing.length = d.count := by
  have hsum : ∀ (f : ℕ → ℕ) n, ((List.range n).map f).sum = ∑ p ∈ Finset.range n, f p :=
    fun f n => rfl
  unfold listing count
  rw [Finset.sum_add_distrib]
  simp [List.length_flatMap, hsum]

/-- The orders of one level, picked out of the listing. -/
theorem filter_listing (hd : d.WellFormed) (s : Side) (p : ℕ) :
    (d.listing.filter fun u => (d.orders u).s = s ∧ (d.orders u).px = p) = d.levels s p := by
  have hlevel : ∀ t r, ((d.levels t r).filter fun u => (d.orders u).s = s ∧ (d.orders u).px = p) =
      if t = s ∧ r = p then d.levels t r else [] := fun t r => by
    split_ifs with h
    · refine List.filter_eq_self.mpr fun u hu => ?_
      obtain ⟨hs, hp, _⟩ := hd.placed t r u hu
      simp [hs, hp, h]
    · refine List.filter_eq_nil_iff.mpr fun u hu => ?_
      obtain ⟨hs, hp, _⟩ := hd.placed t r u hu
      simpa [hs, hp] using h
  unfold listing
  simp only [List.filter_flatMap, hlevel]
  rw [flatMap_eq_of_mem (a := s) (by decide) (by cases s <;> simp) fun t _ ht => by simp [ht]]
  by_cases hp : p < ticks
  · rw [flatMap_eq_of_mem (a := p) List.nodup_range (List.mem_range.mpr hp) fun r _ hr => by
      simp [hr]]
    simp
  · have hnil : d.levels s p = [] := List.eq_nil_iff_forall_not_mem.mpr fun u hu =>
      hp (hd.placed s p u hu).2.2
    rw [hnil]
    refine List.flatMap_eq_nil_iff.mpr fun r hr => if_neg fun h => hp ?_
    rw [← h.2]
    exact List.mem_range.mp hr

/-! ## Replaying a listing -/

@[simp] theorem map_fst_entries : d.entries.map Prod.fst = d.listing := by
  simp [entries, Function.comp_def]

@[simp] theorem map_snd_entries : d.entries.map Prod.snd = d.listing.map d.orders := by
  simp [entries, Function.comp_def]

theorem mem_entries (hd : d.WellFormed) : (u, o) ∈ d.entries ↔ d.Linked u ∧ d.orders u = o := by
  unfold entries
  rw [List.mem_map, ← mem_listing hd]
  constructor
  · rintro ⟨v, hv, heq⟩
    obtain ⟨rfl, rfl⟩ := Prod.mk.inj heq
    exact ⟨hv, rfl⟩
  · rintro ⟨hu, rfl⟩
    exact ⟨u, hu, rfl⟩

theorem entries_px_lt (hd : d.WellFormed) : ∀ a ∈ d.entries, a.2.px < ticks := fun a ha => by
  obtain ⟨hl, ho⟩ := (mem_entries (u := a.1) (o := a.2) hd).mp ha
  rw [← ho]
  exact hd.px_lt hl

theorem replay_entries_levels (hd : d.WellFormed) :
    (({} : Queues ticks).replay d.entries).levels = d.levels := by
  funext s p
  rw [replay_levels, List.nil_append, entries, List.filter_map, List.map_map]
  simpa [Function.comp_def] using filter_listing hd s p

theorem replay_entries_orders (hd : d.WellFormed) (hu : d.Linked u) :
    (({} : Queues ticks).replay d.entries).orders u = d.orders u :=
  replay_orders (by rw [map_fst_entries]; exact nodup_listing hd) ((mem_entries hd).mpr ⟨hu, rfl⟩)

/-- The listing of queues that say the same is the same. -/
theorem listing_congr (h : d'.levels = d.levels) : d'.listing = d.listing := by
  unfold listing
  rw [h]

/-- An exact index names the resting orders and nothing else. -/
theorem Exact.index_eq_some (hx : d.Exact) (hd : d.WellFormed) {k : UInt64} :
    d.index k = some u ↔ d.Linked u ∧ (d.orders u).id = k := by
  constructor
  · exact hd.indexed k u
  · rintro ⟨hu, rfl⟩
    exact hx u hu

/-- Queues whose ids are all different come back whole. -/
theorem replay_entries_alike (hd : d.WellFormed) (hx : d.Exact) {cap : ℕ} (hc : d.Counted cap) :
    Alike (({} : Queues ticks).replay d.entries) d := by
  have hlev := replay_entries_levels hd
  have hnodup : (d.entries.map Prod.fst).Nodup := by
    rw [map_fst_entries]
    exact nodup_listing hd
  have hids : (d.entries.map fun a => a.2.id).Nodup := by
    rw [entries, List.map_map]
    refine (nodup_listing hd).map_on fun u hu v hv hid => ?_
    exact hx.injective ((mem_listing hd).mp hu) ((mem_listing hd).mp hv) hid
  have hexact : (({} : Queues ticks).replay d.entries).Exact :=
    exact_replay hnodup (entries_px_lt hd) hids
  have hwf := WellFormed.empty.replay hnodup (by simp) (entries_px_lt hd)
  refine ⟨hlev.symm, fun s p u hu => ?_, funext fun k => Option.ext fun u => ?_, ?_⟩
  · rw [hlev] at hu
    exact (replay_entries_orders hd (hd.linked hu)).symm
  · rw [hx.index_eq_some hd, hexact.index_eq_some hwf, linked_replay hnodup]
    constructor
    · rintro ⟨hu, hid⟩
      refine ⟨⟨_, (mem_entries hd).mpr ⟨hu, rfl⟩⟩, ?_⟩
      rwa [replay_entries_orders hd hu]
    · rintro ⟨⟨o, ho⟩, hid⟩
      have hu := ((mem_entries hd).mp ho).1
      rw [replay_entries_orders hd hu] at hid
      exact ⟨hu, hid⟩
  · rw [replay_live, hc.live, entries, List.length_map, length_listing]
    exact (Nat.zero_add _).symm

end Queues
end Orderbooks
