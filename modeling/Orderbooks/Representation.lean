import Orderbooks.Book
import Orderbooks.Queues

/-!
# How a book stores queues of resting orders

`Stores bk d` relates the engine's book to the queues it stands for: every FIFO
lists the slots of a queue, the arena holds exactly the linked orders, every
aggregate is the sum over its level, bitmap and cached best price describe the
populated prices, and the hash table stores the index. `tag` names the order a
slot currently holds.

Which prices the bitmap marks is a parameter. Between commands they are the
populated ones; while the matching loop drains a level they also include it.

Each change a command makes has one lemma here. It takes what the change does to
the levels, the arena and the index, so that the code paths that make the same
change by different means share it.
-/
namespace Orderbooks

variable {ticks maxOrders : ℕ} {generations : Bool}

/-- A slot that is linked into some FIFO. -/
def Book.Held (bk : Book ticks maxOrders generations) (x : ℕ) : Prop :=
  ∃ s p, x ∈ ((bk.side s).levels p).fifo

/-! ## One level -/

structure Level.Stores (l : Level) (q : List ℕ) (orders : ℕ → Order) (tag : ℕ → ℕ) : Prop where
  fifo : q = l.fifo.map tag
  aggregate : l.aggregate = ((q.map orders).map Order.remaining).sum

namespace Level.Stores

variable {l : Level} {q : List ℕ} {orders orders' : ℕ → Order} {tag tag' : ℕ → ℕ} {x u : ℕ}
  {o : Order}

theorem empty : Level.Stores {} [] orders tag := ⟨rfl, rfl⟩

theorem congr (h : l.Stores q orders tag) (ho : ∀ u ∈ q, orders' u = orders u)
    (ht : ∀ x ∈ l.fifo, tag' x = tag x) : l.Stores q orders' tag' where
  fifo := by
    rw [h.fifo]
    exact (List.map_congr_left ht).symm
  aggregate := by rw [h.aggregate, List.map_congr_left ho]

theorem eq_nil_iff (h : l.Stores q orders tag) : q = [] ↔ l.fifo = [] := by
  rw [h.fifo, List.map_eq_nil_iff]

theorem pushBack (h : l.Stores q orders tag) (hx : tag x = u) (hu : orders u = o) :
    (l.pushBack x o).Stores (q ++ [u]) orders tag where
  fifo := by simp [Level.pushBack, h.fifo, hx]
  aggregate := by
    simp only [Level.pushBack, h.aggregate, List.map_append, List.map_cons, List.map_nil,
      List.sum_append, List.sum_cons, List.sum_nil, hu]
    grind

theorem sum_map_erase {q : List ℕ} (hu : u ∈ q) (f : ℕ → UInt64) :
    ((q.erase u).map f).sum = (q.map f).sum - f u := by
  induction q with
  | nil => simp at hu
  | cons v q ih =>
      by_cases hv : v = u
      · subst hv
        simp only [List.erase_cons_head, List.map_cons, List.sum_cons]
        grind
      · rw [List.erase_cons_tail (by simpa using hv)]
        simp only [List.map_cons, List.sum_cons]
        rw [ih (by simpa [Ne.symm hv] using hu)]
        grind

theorem sum_map_update {q : List ℕ} (hq : q.Nodup) (hu : u ∈ q) (f : ℕ → UInt64) (a : UInt64) :
    (q.map (Function.update f u a)).sum = (q.map f).sum - f u + a := by
  induction q with
  | nil => simp at hu
  | cons v q ih =>
      obtain ⟨hv, hq⟩ := List.nodup_cons.mp hq
      simp only [List.map_cons, List.sum_cons]
      by_cases hvu : v = u
      · subst hvu
        have : q.map (Function.update f v a) = q.map f :=
          List.map_congr_left fun w hw =>
            Function.update_of_ne (fun h : w = v => hv (h ▸ hw)) a f
        rw [this, Function.update_self]
        grind
      · rw [ih hq (by simpa [Ne.symm hvu] using hu), Function.update_of_ne hvu]
        grind

theorem unlink (h : l.Stores q orders tag) (hx : x ∈ l.fifo) (hu : orders (tag x) = o)
    (hinj : ∀ y ∈ l.fifo, tag y = tag x → y = x) :
    (l.unlink x o).Stores (q.erase (tag x)) orders tag where
  fifo := by
    rw [h.fifo]
    exact (map_erase_of_inj hinj).symm
  aggregate := by
    have hmem : tag x ∈ q := h.fifo ▸ List.mem_map_of_mem hx
    simp only [Level.unlink, h.aggregate, List.map_map]
    rw [sum_map_erase hmem]
    simp [hu]

/-- Changing one order's open quantity changes the aggregate by the difference. -/
theorem setRemaining (h : l.Stores q orders tag) (hq : q.Nodup) (hu : u ∈ q) (qty : UInt64) :
    ({ l with aggregate := l.aggregate - (orders u).remaining + qty } : Level).Stores q
      (Function.update orders u { orders u with remaining := qty }) tag where
  fifo := h.fifo
  aggregate := by
    have hf : Order.remaining ∘ Function.update orders u { orders u with remaining := qty } =
        Function.update (Order.remaining ∘ orders) u qty := by
      funext v
      by_cases hv : v = u
      · simp [hv]
      · simp [hv]
    simp only [h.aggregate, List.map_map]
    rw [hf, sum_map_update hq hu]
    rfl

end Level.Stores

/-! ## The index -/

/-- The hash table stores the queues' index, slots standing for orders. -/
structure IdIndex.Stores (idx : IdIndex) (maxOrders : ℕ) (d : Queues ticks) (tag : ℕ → ℕ)
    (held : ℕ → Prop) : Prop where
  asserts : idx.assertsHeld = true
  mask : idx.mask + 1 = bitCeil (maxOrders * 2)
  ids : ∀ s p, ∀ u ∈ d.levels s p, (d.orders u).id ≠ emptyKey
  table : ∃ m, idx.Represents m ∧ (∀ k, d.index k = (m k).map tag) ∧ ∀ k x, m k = some x → held x

/-- The table always has room: every entry names a slot of the arena by its own id. -/
theorem IdIndex.Represents.room {idx : IdIndex} {m : UInt64 → Option ℕ} (h : idx.Represents m)
    (hmask : idx.mask + 1 = bitCeil (maxOrders * 2)) (hc : 0 < maxOrders) (f : ℕ → UInt64)
    (hm : ∀ k x, m k = some x → x < maxOrders ∧ f x = k) : idx.size < idx.mask + 1 := by
  have hle := h.sized.le_length (List.range maxOrders) f fun k hk => by
    obtain ⟨x, hx⟩ := Option.ne_none_iff_exists'.mp hk
    exact ⟨x, List.mem_range.mpr (hm k x hx).1, (hm k x hx).2⟩
  rw [List.length_range] at hle
  have := IdIndex.le_bitCeil (maxOrders * 2)
  omega

/-- While a held slot goes by no entry, the table is less than half full. -/
theorem IdIndex.Represents.load {idx : IdIndex} {m : UInt64 → Option ℕ} (h : idx.Represents m)
    (hmask : idx.mask + 1 = bitCeil (maxOrders * 2)) {x : ℕ} (hx : x < maxOrders) (f : ℕ → UInt64)
    (hm : ∀ k y, m k = some y → y < maxOrders ∧ y ≠ x ∧ f y = k) :
    idx.size < (idx.mask + 1) / 2 := by
  have hle := h.sized.le_length ((List.range maxOrders).erase x) f fun k hk => by
    obtain ⟨y, hy⟩ := Option.ne_none_iff_exists'.mp hk
    obtain ⟨hlt, hne, hf⟩ := hm k y hy
    exact ⟨y, (List.mem_erase_of_ne hne).mpr (List.mem_range.mpr hlt), hf⟩
  rw [List.length_erase_of_mem (List.mem_range.mpr hx), List.length_range] at hle
  have := IdIndex.le_bitCeil (maxOrders * 2)
  omega

/-! ## The book -/

structure Book.Stores (bk : Book ticks maxOrders generations) (indexed : Prop) (d : Queues ticks)
    (tag : ℕ → ℕ) (pop : Side → Set ℕ) : Prop where
  ladder : ∀ s, (bk.side s).Ladder s (pop s)
  level : ∀ s p, ((bk.side s).levels p).Stores (d.levels s p) d.orders tag
  cell : ∀ x, bk.Held x → bk.arena.cells x = .obj (d.orders (tag x))
  inj : ∀ x y, bk.Held x → bk.Held y → tag x = tag y → x = y
  live : bk.arena.inUse = d.live
  free : ∃ free, bk.arena.Free free ∧ ∀ x, bk.Held x ↔ x < maxOrders ∧ x ∉ free
  index : indexed → bk.idx.Stores maxOrders d tag bk.Held

namespace Book.Stores

variable {bk c : Book ticks maxOrders generations} {indexed : Prop} {d : Queues ticks}
  {tag : ℕ → ℕ} {pop Q : Side → Set ℕ} {s t : Side} {p x y u : ℕ} {o : Order}

theorem new (storage : ℕ → Cell Order) (gens : ℕ → UInt32) (hc : 0 < maxOrders) :
    (Book.new storage gens : Book ticks maxOrders generations).Stores indexed {} tag
      fun _ => ∅ := by
  have hheld : ∀ x, ¬ (Book.new storage gens : Book ticks maxOrders generations).Held x := by
    rintro x ⟨s, p, hx⟩
    cases s <;> simp [Book.new, Book.side] at hx
  refine ⟨fun s => ?_, fun s p => ?_, fun x hx => (hheld x hx).elim,
    fun x y hx => (hheld x hx).elim, rfl, ⟨_, SlabArena.new_free storage gens, fun x => ?_⟩,
    fun _ => ⟨rfl, ?_, fun s p u hu => ?_, fun _ => none, IdIndex.new_represents maxOrders,
      fun k => rfl, fun k x hk => ?_⟩⟩
  · cases s <;> exact BookSide.Ladder.empty _
  · cases s <;> exact Level.Stores.empty
  · simp [hheld]
  · exact IdIndex.new_mask maxOrders (by omega)
  · simp at hu
  · simp at hk

section Facts

variable (h : bk.Stores indexed d tag pop)
include h

theorem mem_levels (hx : x ∈ ((bk.side s).levels p).fifo) : tag x ∈ d.levels s p := by
  rw [(h.level s p).fifo]
  exact List.mem_map_of_mem hx

theorem exists_slot (hu : u ∈ d.levels s p) : ∃ x ∈ ((bk.side s).levels p).fifo, tag x = u := by
  rw [(h.level s p).fifo] at hu
  exact List.mem_map.mp hu

/-- A slot is linked only into the level its order names. -/
theorem place (hd : d.WellFormed) (hx : x ∈ ((bk.side s).levels p).fifo) :
    (d.orders (tag x)).s = s ∧ (d.orders (tag x)).px = p ∧ p < ticks :=
  hd.placed s p _ (h.mem_levels hx)

theorem mem_fifo (hd : d.WellFormed) (hx : bk.Held x) :
    x ∈ ((bk.side (d.orders (tag x)).s).levels (d.orders (tag x)).px).fifo := by
  obtain ⟨s, p, hx⟩ := hx
  obtain ⟨hs, hp, _⟩ := h.place hd hx
  rwa [hs, hp]

theorem linked (hd : d.WellFormed) (hx : bk.Held x) : d.Linked (tag x) :=
  h.mem_levels (h.mem_fifo hd hx)

theorem slotAt (hx : bk.Held x) : bk.arena.slotAt x = d.orders (tag x) := by
  simp [SlabArena.slotAt, h.cell x hx]

theorem held_lt (hx : bk.Held x) : x < maxOrders := by
  obtain ⟨free, _, hheld⟩ := h.free
  exact ((hheld x).mp hx).1

theorem fifo_nodup (hd : d.WellFormed) (s : Side) (p : ℕ) :
    ((bk.side s).levels p).fifo.Nodup := by
  have := hd.nodup s p
  rw [(h.level s p).fifo] at this
  exact this.of_map

theorem eq_nil_iff (s : Side) (p : ℕ) : d.levels s p = [] ↔ ((bk.side s).levels p).fifo = [] :=
  (h.level s p).eq_nil_iff

/-- Unlinking an order empties its queue exactly when it empties its level. -/
theorem erase_eq_nil_iff (hd : d.WellFormed) (hx : bk.Held x) :
    (d.levels (d.orders (tag x)).s (d.orders (tag x)).px).erase (tag x) = [] ↔
      ((bk.side (d.orders (tag x)).s).levels (d.orders (tag x)).px).fifo.erase x = [] :=
  ((h.level _ _).unlink (h.mem_fifo hd hx) rfl
    fun y hy => h.inj y x ⟨_, _, hy⟩ hx).eq_nil_iff

/-- Every level once an order has been taken out of its own. -/
theorem unlink_level (hd : d.WellFormed) (hx : bk.Held x) (ho : d.orders (tag x) = o) (t : Side)
    (r : ℕ) :
    (if t = o.s ∧ r = o.px then ((bk.side t).levels r).unlink x o
      else (bk.side t).levels r).Stores ((d.unlink (tag x)).levels t r) d.orders tag := by
  rw [Queues.unlink_levels, ho]
  split_ifs with hp
  · have hxf := h.mem_fifo hd hx
    rw [ho, ← hp.1, ← hp.2] at hxf
    exact (h.level t r).unlink hxf ho fun y hy => h.inj y x ⟨t, r, hy⟩ hx
  · exact h.level t r

/-- Taking a slot out of its level takes it out of every level. -/
theorem mem_unlink (hd : d.WellFormed) (ho : d.orders (tag x) = o) (t : Side) (r y : ℕ) :
    y ∈ (if t = o.s ∧ r = o.px then ((bk.side t).levels r).unlink x o
      else (bk.side t).levels r).fifo ↔ y ∈ ((bk.side t).levels r).fifo ∧ y ≠ x := by
  split_ifs with hp
  · rw [Level.unlink, (h.fifo_nodup hd t r).mem_erase_iff, and_comm]
  · refine ⟨fun hy => ⟨hy, fun hyx => hp ?_⟩, And.left⟩
    obtain ⟨hs, hpx, _⟩ := h.place hd (hyx ▸ hy)
    rw [← ho]
    exact ⟨hs.symm, hpx.symm⟩

/-- What the hash table answers. -/
theorem lookup_eq (hd : d.WellFormed) (hi : indexed) (hc : 0 < maxOrders) {id : UInt64}
    (hid : id ≠ emptyKey) :
    (bk.idx.lookup id).map tag = d.index id ∧ ∀ x, bk.idx.lookup id = some x → bk.Held x := by
  obtain ⟨_, hmask, _, m, hm, hidx, hheld⟩ := h.index hi
  have hroom := hm.room hmask hc (fun x => (d.orders (tag x)).id) fun k x hk => by
    refine ⟨h.held_lt (hheld k x hk), (hd.indexed k (tag x) ?_).2⟩
    rw [hidx, hk]
    rfl
  rw [hm.lookup_eq hroom hid, hidx]
  exact ⟨rfl, fun x => hheld id x⟩

/-- Taking an entry out of the index. -/
theorem take_spec (hd : d.WellFormed) (hi : indexed) (hc : 0 < maxOrders) {id : UInt64}
    (hid : id ≠ emptyKey) :
    ((bk.idx.take id).1.map tag = d.index id ∧ ∀ x, (bk.idx.take id).1 = some x → bk.Held x) ∧
      (bk.idx.take id).2.Stores maxOrders (d.setIndex id none) tag bk.Held := by
  obtain ⟨hasserts, hmask, hids, m, hm, hidx, hheld⟩ := h.index hi
  have hroom := hm.room hmask hc (fun x => (d.orders (tag x)).id) fun k x hk => by
    refine ⟨h.held_lt (hheld k x hk), (hd.indexed k (tag x) ?_).2⟩
    rw [hidx, hk]
    rfl
  obtain ⟨hval, hrep⟩ := hm.take_spec hroom hid
  refine ⟨by rw [hval, hidx]; exact ⟨rfl, fun x => hheld id x⟩, ?_, ?_, hids, _, hrep,
    fun k => ?_, fun k x hk => ?_⟩
  · rw [IdIndex.take_assertsHeld]
    exact hasserts
  · rw [IdIndex.take_mask]
    exact hmask
  · by_cases hk : k = id
    · simp [Queues.setIndex, hk]
    · simp [Queues.setIndex, hk, hidx]
  · by_cases hkid : k = id
    · simp [hkid] at hk
    · rw [Function.update_of_ne hkid] at hk
      exact hheld k x hk

/-- Replacing the hash table by one that stores another index. -/
theorem reindex {k : UInt64} {v : Option ℕ} (hside : ∀ t, c.side t = bk.side t)
    (harena : c.arena = bk.arena)
    (hidx : indexed → c.idx.Stores maxOrders (d.setIndex k v) tag bk.Held) :
    c.Stores indexed (d.setIndex k v) tag pop := by
  have hheld : c.Held = bk.Held := by
    funext y
    simp only [Book.Held, hside]
  refine ⟨fun t => hside t ▸ h.ladder t, fun t r => hside t ▸ h.level t r, ?_, hheld ▸ h.inj,
    harena ▸ h.live, ?_, hheld ▸ hidx⟩
  · rw [hheld, harena]
    exact h.cell
  · rw [hheld, harena]
    exact h.free

/-- Rewriting the record in a linked slot. -/
theorem cell_put (hx : bk.Held x) (o : Order) (hy : bk.Held y) :
    (bk.arena.put x o).cells y = .obj (Function.update d.orders (tag x) o (tag y)) := by
  by_cases hyx : y = x
  · simp [SlabArena.put, hyx]
  · have hne : tag y ≠ tag x := fun ht => hyx (h.inj y x hy hx ht)
    simp [SlabArena.put, hyx, hne, h.cell y hy]

theorem free_put (hx : bk.Held x) (o : Order) :
    ∃ free, (bk.arena.put x o).Free free ∧ ∀ y, bk.Held y ↔ y < maxOrders ∧ y ∉ free := by
  obtain ⟨free, hf, hheld⟩ := h.free
  exact ⟨free, hf.put ((hheld x).mp hx).2 o, hheld⟩

/-- Bringing the bitmap up to date changes nothing that is stored. -/
theorem reladder (hlev : ∀ t r, (c.side t).levels r = (bk.side t).levels r)
    (hlad : ∀ t, (c.side t).Ladder t (Q t)) (harena : c.arena = bk.arena)
    (hidx : c.idx = bk.idx) : c.Stores indexed d tag Q := by
  have hheld : c.Held = bk.Held := by
    funext y
    simp only [Book.Held, hlev]
  refine ⟨hlad, fun t r => hlev t r ▸ h.level t r, ?_, hheld ▸ h.inj, harena ▸ h.live, ?_, ?_⟩
  · rw [hheld, harena]
    exact h.cell
  · rw [hheld, harena]
    exact h.free
  · rw [hheld, hidx]
    exact h.index

/-! ## Changes -/

/-- An order's record gets another id, while the index names it by none. -/
theorem setId (hx : bk.Held x) (ho : d.orders (tag x) = o) (newId : UInt64)
    (hnew : indexed → newId ≠ emptyKey) (hside : ∀ t, c.side t = bk.side t)
    (harena : c.arena = bk.arena.put x { o with id := newId })
    (hidx : indexed → c.idx = bk.idx) :
    c.Stores indexed (d.setId (tag x) newId) tag pop := by
  have hheld : c.Held = bk.Held := by
    funext y
    simp only [Book.Held, hside]
  have hord : (d.setId (tag x) newId).orders =
      Function.update d.orders (tag x) { o with id := newId } := by
    rw [Queues.setId_orders, ho]
  have hrem : Order.remaining ∘ (d.setId (tag x) newId).orders = Order.remaining ∘ d.orders := by
    funext v
    rw [hord]
    by_cases hv : v = tag x
    · simp [hv, ho]
    · simp [hv]
  refine ⟨fun t => hside t ▸ h.ladder t, fun t r => ?_, fun y hy => ?_, hheld ▸ h.inj, ?_, ?_,
    fun hi => ?_⟩
  · have hl := h.level t r
    rw [hside]
    refine ⟨hl.fifo, ?_⟩
    rw [hl.aggregate, List.map_map, List.map_map, hrem]
    rfl
  · rw [harena, hord]
    exact h.cell_put hx _ (hheld ▸ hy)
  · rw [harena, SlabArena.put_inUse, h.live]
    rfl
  · rw [harena, hheld]
    exact h.free_put hx _
  · obtain ⟨hasserts, hmask, hids, m, hm, hindex, hm_held⟩ := h.index hi
    rw [hidx hi, hheld]
    refine ⟨hasserts, hmask, fun t r u hu => ?_, m, hm, hindex, hm_held⟩
    rw [hord]
    by_cases hux : u = tag x
    · rw [hux, Function.update_self]
      exact hnew hi
    · rw [Function.update_of_ne hux]
      exact hids t r u hu

end Facts

section Changes

variable (h : bk.Stores indexed d tag pop) (hd : d.WellFormed)
include h hd

/-- An order leaves the book. -/
theorem drop (hc : 0 < maxOrders) (hx : bk.Held x) (ho : d.orders (tag x) = o)
    (hlev : ∀ t r, (c.side t).levels r =
      if t = o.s ∧ r = o.px then ((bk.side t).levels r).unlink x o else (bk.side t).levels r)
    (hlad : ∀ t, (c.side t).Ladder t (Q t))
    (harena : c.arena = bk.arena.deallocate (some x))
    (hidx : indexed → c.idx = bk.idx.erase o.id) :
    c.Stores indexed (d.drop (tag x)) tag Q := by
  have hheld : ∀ y, c.Held y ↔ bk.Held y ∧ y ≠ x := fun y => by
    have hmem : ∀ t r, y ∈ ((c.side t).levels r).fifo ↔
        y ∈ ((bk.side t).levels r).fifo ∧ y ≠ x := fun t r => by
      rw [hlev]
      exact h.mem_unlink hd ho t r y
    simp only [Book.Held, hmem]
    constructor
    · rintro ⟨t, r, hy, hne⟩
      exact ⟨⟨t, r, hy⟩, hne⟩
    · rintro ⟨⟨t, r, hy⟩, hne⟩
      exact ⟨t, r, hy, hne⟩
  refine ⟨hlad, fun t r => ?_, fun y hy => ?_, fun y z hy hz => ?_, ?_, ?_, fun hi => ?_⟩
  · change ((c.side t).levels r).Stores ((d.unlink (tag x)).levels t r) d.orders tag
    rw [hlev]
    exact h.unlink_level hd hx ho t r
  · rw [harena, SlabArena.deallocate_cells ((hheld y).mp hy).2]
    exact h.cell y ((hheld y).mp hy).1
  · exact h.inj y z ((hheld y).mp hy).1 ((hheld z).mp hz).1
  · rw [harena, SlabArena.Free.deallocate_inUse, h.live]
    rfl
  · obtain ⟨free, hf, hfree⟩ := h.free
    obtain ⟨hlt, hnf⟩ := (hfree x).mp hx
    refine ⟨x :: free, harena ▸ hf.deallocate hlt hnf, fun y => ?_⟩
    rw [hheld, hfree, List.mem_cons]
    tauto
  · have hids := (h.index hi).ids
    have hid : o.id ≠ emptyKey := ho ▸ hids _ _ _ (h.linked hd hx)
    obtain ⟨hasserts, hmask, _, m, hm, hindex, hm_held⟩ := (h.take_spec hd hi hc hid).2
    rw [hidx hi]
    refine ⟨hasserts, hmask, fun t r v hv => hids t r v (hd.mem_unlink.mp hv).1, m, hm, fun k => ?_,
      fun k y hk => (hheld y).mpr ⟨hm_held k y hk, fun hyx => ?_⟩⟩
    · rw [← hindex k, ← ho]
      rfl
    · have hk' := hindex k
      rw [hk, hyx] at hk'
      by_cases hkid : k = o.id
      · simp [Queues.setIndex, hkid] at hk'
      · simp only [Queues.setIndex, Function.update_of_ne hkid, Option.map_some] at hk'
        rw [← (hd.indexed k _ hk').2, ho] at hkid
        exact hkid rfl

/-- An order's open quantity changes in place. -/
theorem setRemaining (hx : bk.Held x) (ho : d.orders (tag x) = o) (qty : UInt64)
    (hlev : ∀ t r, (c.side t).levels r =
      if t = o.s ∧ r = o.px then
        { (bk.side t).levels r with
          aggregate := ((bk.side t).levels r).aggregate - o.remaining + qty }
      else (bk.side t).levels r)
    (hlad : ∀ t, (c.side t).Ladder t (pop t))
    (harena : c.arena = bk.arena.put x { o with remaining := qty })
    (hidx : c.idx = bk.idx) :
    c.Stores indexed (d.setRemaining (tag x) qty) tag pop := by
  have hheld : c.Held = bk.Held := by
    funext y
    simp only [Book.Held, hlev]
    refine propext (exists_congr fun t => exists_congr fun r => ?_)
    split_ifs <;> rfl
  have hord : (d.setRemaining (tag x) qty).orders =
      Function.update d.orders (tag x) { o with remaining := qty } := by
    rw [Queues.setRemaining_orders, ho]
  refine ⟨hlad, fun t r => ?_, fun y hy => ?_, ?_, ?_, ?_, fun hi => ?_⟩
  · change ((c.side t).levels r).Stores (d.levels t r) (d.setRemaining (tag x) qty).orders tag
    rw [hlev]
    split_ifs with hp
    · have hmem := h.linked hd hx
      unfold Queues.Linked at hmem
      rw [ho, ← hp.1, ← hp.2] at hmem
      have := (h.level t r).setRemaining (hd.nodup t r) hmem qty
      rwa [ho, ← hord] at this
    · refine (h.level t r).congr (fun u hu => ?_) fun _ _ => rfl
      rw [hord, Function.update_of_ne]
      rintro rfl
      obtain ⟨hs, hpx, _⟩ := hd.placed t r _ hu
      rw [ho] at hs hpx
      exact hp ⟨hs.symm, hpx.symm⟩
  · rw [harena, hord]
    exact h.cell_put hx _ (hheld ▸ hy)
  · rw [hheld]
    exact h.inj
  · rw [harena, SlabArena.put_inUse, h.live]
    rfl
  · rw [harena, hheld]
    exact h.free_put hx _
  · obtain ⟨hasserts, hmask, hids, m, hm, hindex, hm_held⟩ := h.index hi
    rw [hidx, hheld]
    refine ⟨hasserts, hmask, fun t r u hu => ?_, m, hm, hindex, hm_held⟩
    have hu' := hids t r u hu
    rw [hord]
    by_cases hux : u = tag x
    · rw [hux, Function.update_self]
      rwa [hux, ho] at hu'
    · rwa [Function.update_of_ne hux]

/-- A new order rests in a slot the arena has just handed out. -/
theorem enter (hc : 0 < maxOrders) (hu : ∀ s p, u ∉ d.levels s p)
    {a : SlabArena Order maxOrders generations} (halloc : bk.arena.allocate = (some x, a))
    (hid : indexed → o.id ≠ emptyKey)
    (hlev : ∀ t r, (c.side t).levels r =
      if t = o.s ∧ r = o.px then ((bk.side t).levels r).pushBack x o else (bk.side t).levels r)
    (hlad : ∀ t, (c.side t).Ladder t (Q t))
    (harena : c.arena = a.put x o) (hidx : c.idx = bk.idx) :
    ¬ bk.Held x ∧ c.Held x ∧
      c.Stores indexed (d.enter u o) (Function.update tag x u) Q := by
  obtain ⟨free, hf, hfree⟩ := h.free
  cases free with
  | nil =>
      rw [hf.allocate_nil hc] at halloc
      simp at halloc
  | cons x' free =>
  obtain ⟨b, hb, hfb, huse, hcells⟩ := hf.allocate_cons hc
  rw [hb] at halloc
  simp only [Prod.mk.injEq, Option.some.injEq] at halloc
  obtain ⟨rfl, rfl⟩ := halloc
  have hxlt : x' < maxOrders := hf.pool.bound x' (by simp)
  have hxfree : x' ∉ free := (List.nodup_cons.mp hf.pool.nodup).1
  have hnew : ¬ bk.Held x' := fun hx => ((hfree x').mp hx).2 (by simp)
  have hheld : ∀ y, c.Held y ↔ bk.Held y ∨ y = x' := fun y => by
    have hmem : ∀ t r, y ∈ ((c.side t).levels r).fifo ↔
        y ∈ ((bk.side t).levels r).fifo ∨ (y = x' ∧ t = o.s ∧ r = o.px) := fun t r => by
      rw [hlev]
      split_ifs with hp
      · simp [Level.pushBack, hp]
      · simp [hp]
    simp only [Book.Held, hmem]
    constructor
    · rintro ⟨t, r, hy | hy⟩
      · exact .inl ⟨t, r, hy⟩
      · exact .inr hy.1
    · rintro (⟨t, r, hy⟩ | hy)
      · exact ⟨t, r, .inl hy⟩
      · exact ⟨o.s, o.px, .inr ⟨hy, rfl, rfl⟩⟩
  have htag : ∀ y, bk.Held y → Function.update tag x' u y = tag y := fun y hy =>
    Function.update_of_ne (fun hyx : y = x' => hnew (hyx ▸ hy)) _ _
  have htag_ne : ∀ y, bk.Held y → tag y ≠ u := fun y hy h' =>
    hu _ _ (h' ▸ h.linked hd hy)
  have hord : ∀ v, (∃ t r, v ∈ d.levels t r) → (d.enter u o).orders v = d.orders v := by
    rintro v ⟨t, r, hv⟩
    rw [Queues.enter_orders, Function.update_of_ne fun hvu : v = u => hu t r (hvu ▸ hv)]
  refine ⟨hnew, (hheld x').mpr (.inr rfl), hlad, fun t r => ?_, fun y hy => ?_,
    fun y z hy hz hyz => ?_, ?_, ⟨free, ?_, fun y => ?_⟩, fun hi => ?_⟩
  · have hold : ((bk.side t).levels r).Stores (d.levels t r) (d.enter u o).orders
        (Function.update tag x' u) :=
      (h.level t r).congr (fun v hv => hord v ⟨t, r, hv⟩) fun y hy => htag y ⟨t, r, hy⟩
    rw [hlev, Queues.enter_levels]
    split_ifs
    · exact hold.pushBack (by simp) (by simp)
    · exact hold
  · rcases (hheld y).mp hy with hy | rfl
    · have hyx : y ≠ x' := fun h => hnew (h ▸ hy)
      have hnf : y ∉ x' :: free := ((hfree y).mp hy).2
      rw [harena, htag y hy, hord _ ⟨_, _, h.linked hd hy⟩]
      simp only [SlabArena.put, Function.update_of_ne hyx]
      rw [hcells y hnf]
      exact h.cell y hy
    · simp [harena, SlabArena.put]
  · rcases (hheld y).mp hy with hy | rfl <;> rcases (hheld z).mp hz with hz | rfl
    · rw [htag y hy, htag z hz] at hyz
      exact h.inj y z hy hz hyz
    · rw [htag y hy, Function.update_self] at hyz
      exact (htag_ne y hy hyz).elim
    · rw [htag z hz, Function.update_self] at hyz
      exact (htag_ne z hz hyz.symm).elim
    · rfl
  · rw [harena, SlabArena.put_inUse, huse, h.live]
    rfl
  · rw [harena]
    exact hfb.put hxfree o
  · rw [hheld, hfree, List.mem_cons]
    constructor
    · rintro (⟨hlt, hnf⟩ | rfl)
      · exact ⟨hlt, fun h => hnf (.inr h)⟩
      · exact ⟨hxlt, hxfree⟩
    · rintro ⟨hlt, hnf⟩
      by_cases hyx : y = x'
      · exact .inr hyx
      · exact .inl ⟨hlt, fun h => h.elim hyx hnf⟩
  · obtain ⟨hasserts, hmask, hids, m, hm, hindex, hm_held⟩ := h.index hi
    rw [hidx]
    refine ⟨hasserts, hmask, fun t r v hv => ?_, m, hm, fun k => ?_, fun k y hk =>
      (hheld y).mpr (.inl (hm_held k y hk))⟩
    · rcases (Queues.mem_enter hu).mp hv with ⟨hv, _⟩ | ⟨rfl, _⟩
      · rw [hord v ⟨t, r, hv⟩]
        exact hids t r v hv
      · simpa using hid hi
    · change d.index k = _
      rw [hindex k]
      cases hk : m k with
      | none => rfl
      | some y => simp [htag y (hm_held k y hk)]

/-- The index comes to name a linked order by its id. As no entry named the order before, the
insert finds its assertions true. -/
theorem setIndex (hc : 0 < maxOrders) (hx : bk.Held x)
    (hnew : d.index (d.orders (tag x)).id ≠ some (tag x))
    (hside : ∀ t, c.side t = bk.side t) (harena : c.arena = bk.arena)
    (hidx : indexed → c.idx = bk.idx.insert (d.orders (tag x)).id x) :
    c.Stores indexed (d.setIndex (d.orders (tag x)).id (some (tag x))) tag pop := by
  refine h.reindex hside harena fun hi => ?_
  obtain ⟨hasserts, hmask, hids, m, hm, hindex, hm_held⟩ := h.index hi
  have hid := hids _ _ _ (h.linked hd hx)
  have hname : ∀ k y, m k = some y → y < maxOrders ∧ (d.orders (tag y)).id = k := fun k y hk => by
    refine ⟨h.held_lt (hm_held k y hk), (hd.indexed k (tag y) ?_).2⟩
    rw [hindex, hk]
    rfl
  have hroom := hm.room hmask hc (fun y => (d.orders (tag y)).id) hname
  have hload := hm.load hmask (h.held_lt hx) (fun y => (d.orders (tag y)).id) fun k y hk => by
    obtain ⟨hlt, hk'⟩ := hname k y hk
    refine ⟨hlt, fun hyx => hnew ?_, hk'⟩
    rw [← hyx, hk', hindex, hk]
    rfl
  rw [hidx hi]
  refine ⟨?_, by rw [IdIndex.insert_mask, hmask], hids, _, hm.insert hroom hid x, fun k => ?_,
    fun k y hk => ?_⟩
  · simp [IdIndex.insert_assertsHeld, IdIndex.assertInsert, hasserts, hid, hload]
  · by_cases hk : k = (d.orders (tag x)).id
    · simp [Queues.setIndex, hk]
    · simp [Queues.setIndex, hk, hindex]
  · by_cases hkid : k = (d.orders (tag x)).id
    · rw [hkid, Function.update_self, Option.some.injEq] at hk
      exact hk ▸ hx
    · rw [Function.update_of_ne hkid] at hk
      exact hm_held k y hk

/-- An order moves to the back of another level without leaving its slot. -/
theorem move (hx : bk.Held x) (ho : d.orders (tag x) = o) (newPx : ℕ) (newQty : UInt64)
    (hlev : ∀ t r, (c.side t).levels r =
      let l := if t = o.s ∧ r = o.px then ((bk.side t).levels r).unlink x o
        else (bk.side t).levels r
      if t = o.s ∧ r = newPx then l.pushBack x { o with px := newPx, remaining := newQty } else l)
    (hlad : ∀ t, (c.side t).Ladder t (Q t))
    (harena : c.arena = bk.arena.put x { o with px := newPx, remaining := newQty })
    (hidx : c.idx = bk.idx) :
    c.Stores indexed (d.move (tag x) newPx newQty) tag Q := by
  have hord : (d.move (tag x) newPx newQty).orders =
      Function.update d.orders (tag x) { o with px := newPx, remaining := newQty } := by
    rw [Queues.move_orders, ho]
  -- the level without the order, before it is linked again
  have hrest : ∀ t r, (if t = o.s ∧ r = o.px then ((bk.side t).levels r).unlink x o
      else (bk.side t).levels r).Stores ((d.levels t r).erase (tag x))
        (d.move (tag x) newPx newQty).orders tag := fun t r => by
    have hne : ∀ u ∈ (d.levels t r).erase (tag x),
        (d.move (tag x) newPx newQty).orders u = d.orders u := fun u hu => by
      rw [hord, Function.update_of_ne ((hd.nodup t r).mem_erase_iff.mp hu).1]
    have hl := h.unlink_level hd hx ho t r
    rw [hd.unlink_levels_eq_erase] at hl
    exact hl.congr hne fun _ _ => rfl
  have hmem : ∀ t r y, y ∈ ((c.side t).levels r).fifo ↔
      y ∈ ((bk.side t).levels r).fifo ∧ y ≠ x ∨ y = x ∧ t = o.s ∧ r = newPx := fun t r y => by
    have hold := h.mem_unlink hd ho t r y
    rw [hlev]
    dsimp only
    generalize (if t = o.s ∧ r = o.px then ((bk.side t).levels r).unlink x o
      else (bk.side t).levels r) = l at hold ⊢
    split_ifs with hnew
    · simp only [Level.pushBack, List.mem_append, List.mem_singleton, hold]
      tauto
    · rw [hold]
      tauto
  have hheld : c.Held = bk.Held := by
    funext y
    simp only [Book.Held, hmem]
    refine propext ⟨?_, fun ⟨t, r, hy⟩ => ?_⟩
    · rintro ⟨t, r, ⟨hy, _⟩ | ⟨rfl, _⟩⟩
      · exact ⟨t, r, hy⟩
      · exact hx
    · by_cases hyx : y = x
      · exact ⟨o.s, newPx, .inr ⟨hyx, rfl, rfl⟩⟩
      · exact ⟨t, r, .inl ⟨hy, hyx⟩⟩
  refine ⟨hlad, fun t r => ?_, fun y hy => ?_, hheld ▸ h.inj, ?_, ?_, fun hi => ?_⟩
  · rw [hlev, hd.move_levels, ho]
    dsimp only
    by_cases hnew : t = o.s ∧ r = newPx
    · rw [if_pos hnew, if_pos hnew]
      exact (hrest t r).pushBack rfl (by rw [hord, Function.update_self])
    · rw [if_neg hnew, if_neg hnew]
      exact hrest t r
  · rw [harena, hord]
    exact h.cell_put hx _ (hheld ▸ hy)
  · rw [harena, SlabArena.put_inUse, h.live]
    rfl
  · rw [harena, hheld]
    exact h.free_put hx _
  · obtain ⟨hasserts, hmask, hids, m, hm, hindex, hm_held⟩ := h.index hi
    rw [hidx, hheld]
    refine ⟨hasserts, hmask, fun t r u hu => ?_, m, hm, hindex, hm_held⟩
    rw [hord]
    rcases (hd.mem_move newPx newQty).mp hu with ⟨hu, hne⟩ | ⟨rfl, _⟩
    · rw [Function.update_of_ne hne]
      exact hids t r u hu
    · rw [Function.update_self, ← ho]
      exact hids _ _ _ (h.linked hd hx)

end Changes
end Book.Stores

end Orderbooks
