import Orderbooks.Representation
import Orderbooks.MatchingLoop

/-!
# Matching refines the sweep

`Represents e b` relates an engine to the machine it implements: the same events
published so far, the same hot state and configuration, and a book that stores
the machine's queues. The matching loops of the engine end in the state of the
machine's sweep, and its fill-or-kill precheck gives the machine's answer.
-/
namespace Orderbooks
open Loop

namespace Engine

variable {P : Type} {ticks maxOrders : ℕ} {lookup : OrderLookup}

/-! ## What the small updates leave alone -/

section Parts

variable (e : Engine P ticks maxOrders lookup) (s t : Side) (bs : BookSide ticks)

theorem setSide_side (h : t ≠ s) : (e.setSide s bs).side t = e.side t :=
  e.book.side_setSide_of_ne bs h

@[simp] theorem setSide_side_self : (e.setSide s bs).side s = bs := e.book.side_setSide s bs

@[simp] theorem setSide_arena : (e.setSide s bs).book.arena = e.book.arena :=
  e.book.setSide_arena s bs

@[simp] theorem setSide_idx : (e.setSide s bs).book.idx = e.book.idx := e.book.setSide_idx s bs

@[simp] theorem setArena_side (a : SlabArena Order maxOrders (decide (lookup = .byHandle))) :
    (e.setArena a).side t = e.side t := by
  cases t <;> rfl

@[simp] theorem setOrder_side (x : ℕ) (o : Order) : (e.setOrder x o).side t = e.side t :=
  e.setArena_side t _

@[simp] theorem setIdx_side (x : IdIndex) : (e.setIdx x).side t = e.side t := by
  cases t <;> rfl

@[simp] theorem unindex_side (id : UInt64) : (e.unindex id).side t = e.side t := by
  unfold unindex
  split_ifs
  · exact e.setIdx_side t _
  · rfl

@[simp] theorem unindex_arena (id : UInt64) : (e.unindex id).book.arena = e.book.arena := by
  unfold unindex
  split_ifs <;> rfl

theorem unindex_idx (hl : lookup = .byId) (id : UInt64) :
    (e.unindex id).book.idx = e.book.idx.erase id := by
  unfold unindex
  rw [if_pos hl]
  rfl

theorem setLevel_levels (p r : ℕ) (l : Level) :
    ((e.setSide s ((e.side s).setLevel p l)).side t).levels r =
      if t = s ∧ r = p then l else (e.side t).levels r := by
  by_cases ht : t = s
  · subst ht
    rw [setSide_side_self, BookSide.setLevel_levels]
    by_cases hr : r = p
    · simp [hr]
    · simp [hr]
  · rw [e.setSide_side s t _ ht]
    simp [ht]

theorem setLevel_ladder {S : Set ℕ} (h : (e.side t).Ladder t S) (p : ℕ) (l : Level) :
    ((e.setSide s ((e.side s).setLevel p l)).side t).Ladder t S := by
  by_cases ht : t = s
  · subst ht
    rw [setSide_side_self]
    exact h.setLevel p l
  · rwa [e.setSide_side s t _ ht]

theorem add_levels (x r : ℕ) (o : Order) :
    ((e.setSide s ((e.side s).add s x o)).side t).levels r =
      if t = s ∧ r = o.px then ((e.side t).levels r).pushBack x o else (e.side t).levels r := by
  by_cases ht : t = s
  · subst ht
    rw [setSide_side_self, BookSide.add_levels]
    by_cases hr : r = o.px
    · simp [hr]
    · simp [hr]
  · rw [e.setSide_side s t _ ht]
    simp [ht]

theorem remove_levels (x r : ℕ) (o : Order) :
    ((e.setSide s ((e.side s).remove s x o)).side t).levels r =
      if t = s ∧ r = o.px then ((e.side t).levels r).unlink x o else (e.side t).levels r := by
  by_cases ht : t = s
  · subst ht
    rw [setSide_side_self, BookSide.remove_levels]
    by_cases hr : r = o.px
    · simp [hr]
    · simp [hr]
  · rw [e.setSide_side s t _ ht]
    simp [ht]

theorem add_ladder {S : Side → Set ℕ} (h : ∀ t, (e.side t).Ladder t (S t)) {x : ℕ} {o : Order}
    (hpx : o.px < ticks) (he : ((e.side s).levels o.px).fifo ≠ [] → o.px ∈ S s) :
    ((e.setSide s ((e.side s).add s x o)).side t).Ladder t
      (if t = s then insert o.px (S t) else S t) := by
  split_ifs with ht
  · subst ht
    rw [setSide_side_self]
    exact (h t).add hpx he
  · rw [e.setSide_side s t _ ht]
    exact h t

theorem remove_ladder {S : Side → Set ℕ} (h : ∀ t, (e.side t).Ladder t (S t)) {x : ℕ} {o : Order}
    (hticks : ticks ≤ 64 ^ 4) :
    ((e.setSide s ((e.side s).remove s x o)).side t).Ladder t
      (if t = s ∧ ((e.side s).levels o.px).fifo.erase x = [] then S t \ {o.px} else S t) := by
  by_cases ht : t = s
  · subst ht
    rw [setSide_side_self]
    simpa using (h t).remove hticks
  · rw [e.setSide_side s t _ ht]
    simpa [ht] using h t

/-- A search touches the index only. -/
theorem find_parts (id : UInt64) (hdl : OrderHandle)
    (un : Bool) :
    (e.find id hdl un).2.pub = e.pub ∧ (e.find id hdl un).2.cfg = e.cfg ∧
      (e.find id hdl un).2.state = e.state ∧ (∀ t, (e.find id hdl un).2.side t = e.side t) ∧
      (e.find id hdl un).2.book.arena = e.book.arena ∧
      (lookup = .byId → (e.find id hdl un).2.book.idx =
        if un then e.book.idx.erase id else e.book.idx) := by
  unfold find
  by_cases hl : lookup = .byHandle
  · rw [if_pos hl]
    exact ⟨rfl, rfl, rfl, fun _ => rfl, rfl, fun hi => by simp [hl] at hi⟩
  · rw [if_neg hl]
    cases un with
    | true => exact ⟨rfl, rfl, rfl, fun t => e.setIdx_side t _, rfl, fun _ => rfl⟩
    | false => exact ⟨rfl, rfl, rfl, fun _ => rfl, rfl, fun _ => rfl⟩

/-- What a search finds depends on the book only. -/
theorem find_congr {e e' : Engine P ticks maxOrders lookup} (h : e'.book = e.book) (id : UInt64)
    (hdl : OrderHandle) (un : Bool) : (e'.find id hdl un).1 = (e.find id hdl un).1 := by
  unfold find resolve order
  rw [h]
  split_ifs <;> rfl

/-- A rename touches the order and the index only. -/
theorem rename_parts (x : ℕ) (newId : UInt64) :
    (e.rename x newId).pub = e.pub ∧ (e.rename x newId).cfg = e.cfg ∧
      (e.rename x newId).state = e.state ∧ (∀ t, (e.rename x newId).side t = e.side t) ∧
      (e.rename x newId).book.arena =
        (e.setOrder x { e.order x with id := newId }).book.arena ∧
      (lookup = .byId → (e.rename x newId).book.idx = e.book.idx.insert newId x) := by
  unfold rename
  dsimp only
  by_cases hl : lookup = .byHandle
  · rw [if_pos hl]
    exact ⟨rfl, rfl, rfl, fun t => e.setOrder_side t x _, rfl, fun hi => by simp [hl] at hi⟩
  · rw [if_neg hl]
    exact ⟨rfl, rfl, rfl, fun t => (setIdx_side _ t _).trans (e.setOrder_side t x _), rfl,
      fun _ => rfl⟩

/-- A handle keeps resolving to an order that changes its id. -/
theorem resolve_rename {x : ℕ} {hdl : OrderHandle} {id newId : UInt64}
    (h : e.resolve hdl id = some x) : (e.rename x newId).resolve hdl newId = some x := by
  obtain ⟨-, -, -, -, harena, -⟩ := e.rename_parts x newId
  unfold resolve order at h ⊢
  rw [harena]
  split_ifs at h with hdead hsame
  obtain rfl := Option.some.inj h
  rw [if_neg, if_pos]
  · simp [setOrder, setArena]
  · exact hdead

theorem held_congr {e e' : Engine P ticks maxOrders lookup} (h : ∀ t, e'.side t = e.side t) :
    e'.book.Held = e.book.Held := by
  funext x
  simp only [Book.Held]
  rw [show e'.book.side = e.book.side from funext h]

theorem held_of_front {s : Side} {p x : ℕ} {xs : List ℕ}
    (hf : ((e.side s).levels p).fifo = x :: xs) : e.book.Held x :=
  ⟨s, p, by simp [hf]⟩

theorem dropFront_levels (p x r : ℕ) :
    ((e.dropFront s p x).side t).levels r =
      if t = s ∧ r = p then { (e.side s).levels p with fifo := ((e.side s).levels p).fifo.tail }
      else (e.side t).levels r := by
  unfold dropFront
  dsimp only
  rw [setArena_side, unindex_side, setLevel_levels]

theorem dropFront_ladder {S : Set ℕ} (h : (e.side t).Ladder t S) (p x : ℕ) :
    ((e.dropFront s p x).side t).Ladder t S := by
  unfold dropFront
  dsimp only
  rw [setArena_side, unindex_side]
  exact e.setLevel_ladder s t h p _

@[simp] theorem dropFront_arena (p x : ℕ) :
    (e.dropFront s p x).book.arena = e.book.arena.deallocate (some x) := by
  unfold dropFront setArena
  dsimp only
  rw [unindex_arena, setSide_arena]

theorem dropFront_idx (hl : lookup = .byId) (p x : ℕ) :
    (e.dropFront s p x).book.idx = e.book.idx.erase (e.order x).id := by
  unfold dropFront setArena
  dsimp only
  rw [unindex_idx _ hl, setSide_idx]

/-- Popping a maker touches the book only. -/
theorem dropFront_control (p x : ℕ) : (e.dropFront s p x).pub = e.pub ∧
    (e.dropFront s p x).cfg = e.cfg ∧ (e.dropFront s p x).state = e.state := by
  unfold dropFront unindex
  dsimp only
  split_ifs <;> exact ⟨rfl, rfl, rfl⟩

end Parts

variable [Publisher P]

/-- The engine once a new order is in its slot and in its level. -/
def linked (e : Engine P ticks maxOrders lookup) (m : SubmitMsg) (x : ℕ) (o : Order)
    (a : SlabArena Order maxOrders (decide (lookup = .byHandle))) :
    Engine P ticks maxOrders lookup :=
  let e := e.setArena (a.put x o)
  e.setSide m.s ((e.side m.s).add m.s x o)

/-- Resting an order marks the top of the book and adds an index entry to that. -/
theorem rest_parts (e : Engine P ticks maxOrders lookup) (m : SubmitMsg) (remaining : UInt64)
    {x : ℕ} {a : SlabArena Order maxOrders (decide (lookup = .byHandle))}
    (halloc : e.book.arena.allocate = (some x, a)) :
    let e₂ := e.linked m x ⟨m.id, remaining, m.px, m.s, m.t, m.accountId⟩ a
    (e.rest m remaining).2.pub = (e₂.markTop m.s m.px).pub ∧
      (e.rest m remaining).2.cfg = (e₂.markTop m.s m.px).cfg ∧
      (e.rest m remaining).2.state = (e₂.markTop m.s m.px).state ∧
      (∀ t, (e.rest m remaining).2.side t = e₂.side t) ∧
      (e.rest m remaining).2.book.arena = e₂.book.arena ∧
      (lookup = .byId →
        (e.rest m remaining).2.book.idx = e₂.book.idx.insert m.id x) := by
  unfold rest
  rw [halloc]
  dsimp only
  by_cases hl : lookup = .byHandle
  · rw [if_pos hl]
    exact ⟨rfl, rfl, rfl, fun _ => rfl, rfl, fun hi => by simp [hl] at hi⟩
  · rw [if_neg hl]
    exact ⟨rfl, rfl, rfl, fun t => setIdx_side _ t _, rfl, fun _ => rfl⟩

theorem onCancel_none {e : Engine P ticks maxOrders lookup} {m : CancelMsg}
    (hf : (e.find m.id m.handle true).1 = none) :
    e.onCancel m = (e.find m.id m.handle true).2 := by
  unfold onCancel
  revert hf
  generalize e.find m.id m.handle true = r
  obtain ⟨o, e'⟩ := r
  rintro rfl
  rfl

theorem onModify_none {e : Engine P ticks maxOrders lookup} {m : ModifyMsg}
    (hf : (e.find m.id m.handle m.renames).1 = none) :
    e.onModify m = ({}, (e.find m.id m.handle m.renames).2) := by
  unfold onModify
  revert hf
  generalize e.find m.id m.handle m.renames = r
  obtain ⟨o, e'⟩ := r
  rintro rfl
  rfl

theorem onModify_some {e : Engine P ticks maxOrders lookup} {m : ModifyMsg} {x : ℕ}
    (hf : (e.find m.id m.handle m.renames).1 = some x) :
    e.onModify m = (if m.renames then (e.find m.id m.handle m.renames).2.rename x m.newId
      else (e.find m.id m.handle m.renames).2).reprice x m := by
  unfold onModify
  revert hf
  generalize e.find m.id m.handle m.renames = r
  obtain ⟨o, e'⟩ := r
  rintro rfl
  rfl

@[simp] theorem publish_state (e : Engine P ticks maxOrders lookup) (ev : Event) :
    (e.publish ev).state = e.state := rfl

/-! ## The relation -/

structure Represents (p0 : P) (e : Engine P ticks maxOrders lookup) (b : PriorityBook ticks)
    (tag : ℕ → ℕ) (pop : Side → Set ℕ) : Prop where
  pub : e.pub = b.log.foldl Publisher.publish p0
  selfCross : e.cfg.selfCross = b.selfCross
  topThrottle : e.cfg.topThrottle = b.topThrottle
  capacity : b.capacity = maxOrders
  state : e.state = b.state
  book : e.book.Stores (lookup = .byId) b.queues tag pop

variable {p0 : P} {e : Engine P ticks maxOrders lookup} {b : PriorityBook ticks} {tag : ℕ → ℕ}
  {pop : Side → Set ℕ} {s : Side} {p x : ℕ} {xs : List ℕ}

/-- An engine between commands, standing for a well-formed machine. -/
def Refines (p0 : P) (e : Engine P ticks maxOrders lookup) (b : PriorityBook ticks) : Prop :=
  b.queues.WellFormed ∧ ∃ tag, e.Represents p0 b tag b.queues.populated

namespace Represents

section Quiet

variable (h : e.Represents p0 b tag pop)
include h

theorem bumpSeq : e.bumpSeq.Represents p0 b.bumpSeq tag pop :=
  ⟨h.pub, h.selfCross, h.topThrottle, h.capacity, by
    simp only [Engine.bumpSeq, PriorityBook.bumpSeq, h.state], h.book⟩

theorem publish (ev : Event) : (e.publish ev).Represents p0 (b.publish ev) tag pop :=
  ⟨by simp only [Engine.publish, PriorityBook.publish, h.pub, List.foldl_append, List.foldl_cons,
    List.foldl_nil], h.selfCross, h.topThrottle, h.capacity, h.state, h.book⟩

theorem dirty : e.dirty.Represents p0 b.dirty tag pop :=
  ⟨h.pub, h.selfCross, h.topThrottle, h.capacity, by
    simp only [Engine.dirty, PriorityBook.dirty, h.state], h.book⟩

theorem markTop (t : Side) (px : ℕ) : (e.markTop t px).Represents p0 (b.markTop t px) tag pop :=
  ⟨h.pub, h.selfCross, h.topThrottle, h.capacity, by
    simp only [Engine.markTop, PriorityBook.markTop, h.state, h.topThrottle], h.book⟩

theorem suppress : e.suppress.Represents p0 b.suppress tag pop :=
  ⟨h.pub, h.selfCross, h.topThrottle, h.capacity, by
    simp only [Engine.suppress, PriorityBook.suppress, h.state], h.book⟩

theorem unsuppress : e.unsuppress.Represents p0 b.unsuppress tag pop :=
  ⟨h.pub, h.selfCross, h.topThrottle, h.capacity, by
    simp only [Engine.unsuppress, PriorityBook.unsuppress, h.state], h.book⟩

theorem order_eq (hx : e.book.Held x) : e.order x = b.order (tag x) := h.book.slotAt hx

/-- A change of the book, and of nothing else. -/
theorem withBook {e' : Engine P ticks maxOrders lookup} {f : Queues ticks → Queues ticks}
    {tag' : ℕ → ℕ} {pop' : Side → Set ℕ} (hp : e'.pub = e.pub) (hcfg : e'.cfg = e.cfg)
    (hst : e'.state = e.state) (hb : e'.book.Stores (lookup = .byId) (f b.queues) tag' pop') :
    e'.Represents p0 (b.onQueues f) tag' pop' :=
  ⟨hp ▸ h.pub, hcfg ▸ h.selfCross, hcfg ▸ h.topThrottle, h.capacity, hst ▸ h.state, hb⟩

end Quiet

/-- Between commands the cached best price is the best price. -/
theorem best_eq (h : e.Represents p0 b tag b.queues.populated) (hd : b.queues.WellFormed)
    (t : Side) : (e.side t).best = b.queues.best t :=
  (h.book.ladder t).best.unique (hd.isBest_best t)

theorem aggregateAt_eq (h : e.Represents p0 b tag pop) (t : Side) :
    (e.side t).aggregateAt = b.queues.aggregateAt t := by
  funext px
  exact (h.book.level t px).aggregate

/-- Where an order rests, some slot is in use. -/
theorem live_pos (h : e.Represents p0 b tag pop) (hne : b.queues.levels s p ≠ []) :
    0 < b.queues.live := by
  rw [ne_eq, h.book.eq_nil_iff] at hne
  obtain ⟨x, hx⟩ := List.exists_mem_of_ne_nil _ hne
  obtain ⟨free, hf, hheld⟩ := h.book.free
  obtain ⟨hlt, hnf⟩ := (hheld x).mp ⟨s, p, hx⟩
  rw [← h.book.live]
  exact hf.pool.used_pos hlt hnf

theorem publishTopIfChanged (h : e.Represents p0 b tag b.queues.populated)
    (hd : b.queues.WellFormed) :
    e.publishTopIfChanged.Represents p0 b.publishTopIfChanged tag b.queues.populated := by
  unfold Engine.publishTopIfChanged PriorityBook.publishTopIfChanged
  rw [funext fun t => h.best_eq hd t, funext fun t => h.aggregateAt_eq t, h.state, h.topThrottle]
  generalize b.state.publishTopIfChanged b.topThrottle b.queues.best b.queues.aggregateAt = r
  obtain ⟨st, msg⟩ := r
  have hst : ({ e with state := st } : Engine P ticks maxOrders lookup).Represents p0
      { b with state := st } tag b.queues.populated :=
    ⟨h.pub, h.selfCross, h.topThrottle, h.capacity, rfl, h.book⟩
  cases msg with
  | none => exact hst
  | some top => exact hst.publish (.top top)

/-! ## Meeting a maker -/

section Maker

variable (h : e.Represents p0 b tag pop) (hd : b.queues.WellFormed)
  (hf : ((e.side s).levels p).fifo = x :: xs)
include hf h

theorem front_level : b.queues.levels s p = tag x :: xs.map tag := by
  rw [(h.book.level s p).fifo, hf, List.map_cons]

include hd

theorem front_place : (b.queues.orders (tag x)).s = s ∧ (b.queues.orders (tag x)).px = p := by
  obtain ⟨hs, hp, _⟩ := h.book.place hd (x := x) (s := s) (p := p) (by simp [hf])
  exact ⟨hs, hp⟩

/-- Popping the front of a level whose aggregate has been lowered already. -/
theorem dropFront (hc : 0 < maxOrders) {e' : Engine P ticks maxOrders lookup}
    (hctl : e'.pub = e.pub ∧ e'.cfg = e.cfg ∧ e'.state = e.state)
    (harena : e'.book.arena = e.book.arena) (hidx : e'.book.idx = e.book.idx)
    (hlev : ∀ t r, (e'.side t).levels r =
      if t = s ∧ r = p then { (e.side s).levels p with
        aggregate := ((e.side s).levels p).aggregate - (b.order (tag x)).remaining }
      else (e.side t).levels r)
    (hlad : ∀ t, (e'.side t).Ladder t (pop t)) :
    (e'.dropFront s p x).Represents p0 (b.drop (tag x)) tag pop := by
  have hx := e.held_of_front hf
  obtain ⟨hs, hp⟩ := front_place h hd hf
  obtain ⟨hpub, hcfg, hst⟩ := e'.dropFront_control s p x
  refine h.withBook (f := (·.drop (tag x))) (hpub.trans hctl.1) (hcfg.trans hctl.2.1)
    (hst.trans hctl.2.2) (h.book.drop hd hc hx rfl (fun t r => ?_) (fun t => ?_) ?_ fun hi => ?_)
  · rw [dropFront_levels, hs, hp]
    split_ifs with ht
    · rw [hlev, if_pos ⟨rfl, rfl⟩, ht.1, ht.2]
      simp [Level.unlink, hf]
    · rw [hlev, if_neg ht]
  · exact e'.dropFront_ladder s t (hlad t) p x
  · rw [dropFront_arena, harena]
  · rw [dropFront_idx _ _ hi, hidx]
    congr 2
    refine Eq.trans ?_ (h.order_eq hx)
    simp [Engine.order, harena]

theorem decrementMaker (hc : 0 < maxOrders) (qty : UInt64) :
    (e.decrementMaker s p x qty).Represents p0
      (if (b.order (tag x)).remaining - qty = 0 then (b.decrement (tag x) qty).drop (tag x)
        else b.decrement (tag x) qty) tag pop := by
  have hx := e.held_of_front hf
  obtain ⟨hs, hp⟩ := front_place h hd hf
  have horder := h.order_eq hx
  -- the engine once the maker and its level have been written
  let e₁ := e.setOrder x { b.order (tag x) with remaining := (b.order (tag x)).remaining - qty }
  let l : Level := { (e.side s).levels p with
    aggregate := ((e.side s).levels p).aggregate - qty }
  let e₂ := (e₁.setSide s ((e₁.side s).setLevel p l)).dirty
  have hlev : ∀ t r, (e₂.side t).levels r = if t = s ∧ r = p then l else (e.side t).levels r := by
    intro t r
    refine (e₁.setLevel_levels s t p r l).trans ?_
    rw [setOrder_side]
  have hlad : ∀ t, (e₂.side t).Ladder t (pop t) := fun t => by
    refine e₁.setLevel_ladder s t ?_ p l
    rw [setOrder_side]
    exact h.book.ladder t
  have hrep : e₂.Represents p0 (b.decrement (tag x) qty) tag pop := by
    refine Represents.dirty (h.withBook
      (f := (·.setRemaining (tag x) ((b.order (tag x)).remaining - qty))) rfl rfl rfl
      (h.book.setRemaining hd hx rfl _ (fun t r => (hlev t r).trans ?_) hlad ?_ ?_))
    · rw [hs, hp]
      split_ifs with ht
      · rw [ht.1, ht.2]
        simp only [l]
        congr 1
        grind
      · rfl
    · exact setSide_arena _ _ _
    · exact setSide_idx _ _ _
  have hdef : e.decrementMaker s p x qty =
      if (b.order (tag x)).remaining - qty = 0 then e₂.dropFront s p x else e₂ := by
    unfold Engine.decrementMaker
    rw [horder]
  rw [hdef]
  split_ifs with hz
  · have hf' : ((e₂.side s).levels p).fifo = x :: xs := by
      rw [hlev, if_pos ⟨rfl, rfl⟩, ← hf]
    have hwf : (b.decrement (tag x) qty).queues.WellFormed := hd.setRemaining _ _
    have hzero : ((b.decrement (tag x) qty).order (tag x)).remaining = 0 := by
      simpa [PriorityBook.decrement, PriorityBook.onQueues, PriorityBook.dirty,
        PriorityBook.order] using hz
    refine dropFront hrep hwf hf' hc ⟨rfl, rfl, rfl⟩ rfl rfl (fun t r => ?_) hlad
    rw [hzero, UInt64.sub_zero]
    split_ifs with ht
    · rw [ht.1, ht.2]
    · rfl
  · exact hrep

/-- A maker of the aggressor's own account. -/
theorem handleSelfCross (hc : 0 < maxOrders) {m : SubmitMsg} (hm : m.s.opposite = s)
    (hown : b.isOwn m (tag x)) (rem : UInt64) :
    (Engine.handleSelfCross ⟨e, rem, false⟩ m x p).1 =
        (PriorityBook.strike m p (tag x) b rem).aborted ∧
      (Engine.handleSelfCross ⟨e, rem, false⟩ m x p).2.remaining =
        (PriorityBook.strike m p (tag x) b rem).remaining ∧
      (Engine.handleSelfCross ⟨e, rem, false⟩ m x p).2.aborted = false ∧
      (Engine.handleSelfCross ⟨e, rem, false⟩ m x p).2.engine.Represents p0
        (PriorityBook.strike m p (tag x) b rem).book tag pop := by
  subst hm
  have hx := e.held_of_front hf
  have horder := h.order_eq hx
  unfold Engine.handleSelfCross PriorityBook.strike
  simp only [hown, true_and]
  cases hpol : b.selfCross with
  | cancelNewest =>
      simp only [h.selfCross, hpol, if_true]
      exact ⟨trivial, trivial, trivial, h⟩
  | cancelOldest =>
      simp only [h.selfCross, hpol, horder, reduceCtorEq, if_false, if_true]
      refine ⟨trivial, trivial, trivial, Represents.dirty (dropFront h hd hf hc ⟨rfl, rfl, rfl⟩
        (setSide_arena _ _ _) (setSide_idx _ _ _) (fun t r => ?_) fun t => ?_)⟩
      · exact e.setLevel_levels _ t p r _
      · exact e.setLevel_ladder _ t (h.book.ladder t) p _
  | decrementTrade =>
      simp only [h.selfCross, hpol, horder, reduceCtorEq, if_false]
      refine ⟨trivial, trivial, trivial, ?_⟩
      generalize min rem (b.order (tag x)).remaining = qty
      have hann : ∀ qty, ((e.bumpSeq).publish (.selfTrade ⟨m.id, (b.order (tag x)).id,
          m.accountId, p, qty, e.bumpSeq.state.seq⟩)).Represents p0
          (b.announce m (tag x) p qty) tag pop := fun qty => by
        have hb : (b.bumpSeq).isOwn m (tag x) := hown
        unfold PriorityBook.announce
        simp only [hb, if_true, h.bumpSeq.state]
        exact h.bumpSeq.publish _
      have hwf : ∀ qty, (b.announce m (tag x) p qty).queues.WellFormed := fun qty => by
        rwa [PriorityBook.announce_queues]
      have := decrementMaker (hann qty) (hwf qty) hf hc qty
      simpa [PriorityBook.order] using this

/-- A maker of another account. -/
theorem fillMaker (hc : 0 < maxOrders) {m : SubmitMsg} (hm : m.s.opposite = s)
    (hown : ¬ b.isOwn m (tag x)) (rem : UInt64) :
    (PriorityBook.strike m p (tag x) b rem).aborted = false ∧
      (Engine.fillMaker ⟨e, rem, false⟩ m x p).remaining =
        (PriorityBook.strike m p (tag x) b rem).remaining ∧
      (Engine.fillMaker ⟨e, rem, false⟩ m x p).aborted = false ∧
      (Engine.fillMaker ⟨e, rem, false⟩ m x p).engine.Represents p0
        (PriorityBook.strike m p (tag x) b rem).book tag pop := by
  subst hm
  have hx := e.held_of_front hf
  have horder := h.order_eq hx
  unfold Engine.fillMaker PriorityBook.strike
  simp only [hown, false_and, if_false, horder]
  refine ⟨trivial, trivial, trivial, ?_⟩
  generalize min rem (b.order (tag x)).remaining = qty
  have hann : ∀ qty, ((e.bumpSeq.publish (.fill ⟨(b.order (tag x)).id, m.id, p, qty,
      e.bumpSeq.state.seq⟩)).publish (.trade ⟨p, qty, e.bumpSeq.state.seq⟩)).Represents p0
      (b.announce m (tag x) p qty) tag pop := fun qty => by
    have hb : ¬ (b.bumpSeq).isOwn m (tag x) := hown
    unfold PriorityBook.announce
    simp only [hb, if_false, h.bumpSeq.state]
    exact (h.bumpSeq.publish _).publish _
  have hwf : ∀ qty, (b.announce m (tag x) p qty).queues.WellFormed := fun qty => by
    rwa [PriorityBook.announce_queues]
  have := decrementMaker (hann qty) (hwf qty) hf hc qty
  simpa [PriorityBook.order] using this

end Maker

/-! ## The matching loops -/

variable {m : SubmitMsg} {J : PriorityBook ticks → UInt64 → Prop}
  {c : Matching P ticks maxOrders lookup}

/-- What the machine does to the maker at the front, a turn of the inner loop does. -/
theorem makerTurn (h : c.engine.Represents p0 b tag pop) (hd : b.queues.WellFormed)
    (hc : 0 < maxOrders) (hrun : c.aborted = false) (hrem : c.remaining ≠ 0) {u : ℕ} {q : List ℕ}
    (hq : b.queues.levels m.s.opposite p = u :: q) :
    ∃ c', Engine.makerTurn m p c =
        (if (PriorityBook.strike m p u b c.remaining).aborted then .done c' else .again c') ∧
      c'.remaining = (PriorityBook.strike m p u b c.remaining).remaining ∧
      c'.aborted = (PriorityBook.strike m p u b c.remaining).aborted ∧
      c'.engine.Represents p0 (PriorityBook.strike m p u b c.remaining).book tag pop := by
  obtain ⟨e, rem, ab⟩ := c
  obtain rfl : ab = false := hrun
  dsimp only at h hrem ⊢
  unfold Engine.makerTurn BookSide.levelAt
  cases hf : ((e.side m.s.opposite).levels p).fifo with
  | nil =>
      rw [(h.book.eq_nil_iff _ _).mpr hf] at hq
      simp at hq
  | cons x xs =>
  have hfront := h.front_level hf
  obtain ⟨rfl, rfl⟩ := List.cons.inj (hq.symm.trans hfront)
  have horder := h.order_eq (e.held_of_front hf)
  dsimp only
  rw [if_neg hrem]
  by_cases hown : b.isOwn m (tag x)
  · obtain ⟨hab, hr, hnot, hrep⟩ := h.handleSelfCross hd hf hc rfl hown rem
    rw [if_pos (by rw [horder]; exact hown), ← hab, ← hr]
    generalize Engine.handleSelfCross ⟨e, rem, false⟩ m x p = r at hab hr hnot hrep ⊢
    obtain ⟨abort, c'⟩ := r
    dsimp only at hab hr hnot hrep ⊢
    cases abort with
    | true =>
        refine ⟨_, rfl, rfl, rfl, ?_⟩
        -- the maker stays, so there is nothing to notify
        have hbook := PriorityBook.strike_book_of_aborted hab.symm
        have hsame : c'.engine.notifyIfEmptied m.s.opposite p = c'.engine := by
          unfold Engine.notifyIfEmptied Level.empty BookSide.levelAt
          rw [hbook] at hrep
          rw [if_neg]
          have hne : b.queues.levels m.s.opposite p ≠ [] := by simp [hfront]
          simpa using mt (hrep.book.eq_nil_iff _ _).mpr hne
        rw [hsame]
        exact hrep
    | false => exact ⟨c', rfl, rfl, hnot, hrep⟩
  · obtain ⟨hab, hr, hnot, hrep⟩ := h.fillMaker hd hf hc rfl hown rem
    rw [if_neg (by rw [horder]; exact hown), hab]
    exact ⟨_, rfl, hr, hnot, hrep⟩

/-- Leaving a level brings the bitmap up to date again. -/
theorem notifyIfEmptied (h : e.Represents p0 b tag pop) (ht : ticks ≤ 64 ^ 4) {opp : Side}
    (hmarked : ∀ t, pop t = if t = opp then insert p (b.queues.populated t)
      else b.queues.populated t) :
    (e.notifyIfEmptied opp p).Represents p0 b tag b.queues.populated := by
  have hempty := h.book.eq_nil_iff opp p
  unfold Engine.notifyIfEmptied Level.empty BookSide.levelAt
  split_ifs with hem
  · have hnil := hempty.mpr (by simpa using hem)
    have hlad : ∀ t, ((e.setSide opp ((e.side opp).notifyLevelEmptied opp p)).side t).Ladder t
        (b.queues.populated t) := fun t => by
      have hl := h.book.ladder t
      rw [hmarked] at hl
      by_cases hto : t = opp
      · subst hto
        rw [setSide_side_self]
        rw [if_pos rfl] at hl
        have := hl.notifyLevelEmptied ht p
        rwa [Set.insert_sdiff_self_of_notMem] at this
        simpa [Queues.populated] using hnil
      · rw [setSide_side _ _ _ _ hto]
        rwa [if_neg hto] at hl
    have hlev : ∀ t r, ((e.setSide opp ((e.side opp).notifyLevelEmptied opp p)).side t).levels r =
        (e.side t).levels r := fun t r => by
      by_cases hto : t = opp
      · subst hto
        rw [setSide_side_self, BookSide.notifyLevelEmptied_levels]
      · rw [setSide_side _ _ _ _ hto]
    exact h.withBook (f := id) rfl rfl rfl (h.book.reladder hlev hlad
      (setSide_arena _ _ _) (setSide_idx _ _ _))
  · have hne : b.queues.levels opp p ≠ [] := mt hempty.mp (by simpa using hem)
    have hpop : pop = b.queues.populated := by
      funext t
      rw [hmarked]
      split_ifs with hto
      · rw [Set.insert_eq_of_mem]
        rw [hto]
        exact hne
      · rfl
    rw [← hpop]
    exact h

end Represents

/-- The matching loops of the engine. -/
def matchLoop (m : SubmitMsg) : MatchLoop m (Matching P ticks maxOrders lookup) where
  remaining := Matching.remaining
  aborted := Matching.aborted
  best c := (c.engine.side m.s.opposite).best
  makers p c := ((c.engine.side m.s.opposite).levelAt p).fifo.length
  live c := c.engine.book.arena.inUse
  makerTurn := makerTurn m
  leave p c := { c with engine := c.engine.notifyIfEmptied m.s.opposite p }

theorem matchAgainstOpposite_eq (m : SubmitMsg) (e : Engine P ticks maxOrders lookup) :
    matchAgainstOpposite m e = (matchLoop m).levelLoop ⟨e, m.qty, false⟩ := rfl

theorem matchLoop_simulates (m : SubmitMsg) (p0 : P) (tag : ℕ → ℕ) (hc : 0 < maxOrders)
    (ht : ticks ≤ 64 ^ 4) :
    (matchLoop m : MatchLoop m (Matching P ticks maxOrders lookup)).Simulates
      fun c b pop => c.engine.Represents p0 b tag pop where
  best h hd := h.best_eq hd m.s.opposite
  makers p h := by
    rw [(h.book.level m.s.opposite p).fifo, List.length_map]
    rfl
  live h := h.book.live
  live_pos h _ hne := h.live_pos hne
  halt {c b pop p} h hend := by
    change makerTurn m p c = _
    unfold makerTurn BookSide.levelAt
    rcases hend with hnil | hz
    · rw [(h.book.eq_nil_iff _ _).mp hnil]
    · cases ((c.engine.side m.s.opposite).levels p).fifo with
      | nil => rfl
      | cons x xs => exact if_pos hz
  meet h hd hrun hrem hq := h.makerTurn hd hc hrun hrem hq
  leave h hmarked := ⟨h.notifyIfEmptied ht hmarked, rfl, rfl⟩

namespace Represents

variable {m : SubmitMsg} {J : PriorityBook ticks → UInt64 → Prop}

theorem sweeping (h : e.Represents p0 b tag b.queues.populated) (hd : b.queues.WellFormed)
    (hinv : J b m.qty) :
    (matchLoop m : MatchLoop m (Matching P ticks maxOrders lookup)).Sweeping
      (fun c b pop => c.engine.Represents p0 b tag pop) (PriorityBook.sweep m b m.qty) J b
      ⟨e, m.qty, false⟩ :=
  ⟨h, hd, hinv, rfl, rfl⟩

/-- Matching against the opposite side is the machine's sweep. -/
theorem matchAgainstOpposite (h : e.Represents p0 b tag b.queues.populated)
    (hd : b.queues.WellFormed) (hc : 0 < maxOrders) (ht : ticks ≤ 64 ^ 4)
    (hJ : PriorityBook.StrikeInvariant m J) (hinv : J b m.qty) :
    (matchLoop m).Settled (fun c b pop => c.engine.Represents p0 b tag pop)
      (PriorityBook.sweep m b m.qty) J (Engine.matchAgainstOpposite m e) :=
  (h.sweeping hd hinv).levelLoop (matchLoop_simulates m p0 tag hc ht) hJ

/-! ## The precheck -/

theorem map_order_eq (h : e.Represents p0 b tag pop) (t : Side) (r : ℕ) :
    ((e.side t).levels r).fifo.map e.order = b.queues.ordersAt t r := by
  unfold Queues.ordersAt
  rw [(h.book.level t r).fifo, List.map_map]
  exact List.map_congr_left fun x hx => h.order_eq ⟨t, r, hx⟩

theorem consumeLevel_eq (h : e.Represents p0 b tag pop) (opp : Side) (want : UInt64)
    (acct : UInt32) (px : ℕ) (k : Precheck) :
    e.consumeLevel opp want acct px k = b.consumeLevel opp want acct px k := by
  unfold Engine.consumeLevel PriorityBook.consumeLevel BookSide.levelAt
  rw [h.map_order_eq, h.selfCross, h.aggregateAt_eq]

/-- The bitmap finds the next populated price, walking away from the best one. -/
theorem isBest_worsePopulated (h : e.Represents p0 b tag pop) (ht : ticks ≤ 64 ^ 4) (opp : Side)
    (px : ℕ) :
    opp.IsBest {q | q ∈ pop opp ∧ opp.better px q = true} (e.worsePopulated opp px) := by
  cases opp with
  | bid => exact (h.book.ladder .bid).isBest_worse_bid ht px
  | ask => exact (h.book.ladder .ask).isBest_worse ht px

theorem canFullyFill_eq (h : e.Represents p0 b tag b.queues.populated)
    (hd : b.queues.WellFormed) (ht : ticks ≤ 64 ^ 4) (opp : Side) (px : ℕ) (want : UInt64)
    (acct : UInt32) : e.canFullyFill opp px want acct = b.canFullyFill opp px want acct := by
  -- the walk stands at the first populated price of what is left of the ladder
  let I : Option ℕ × Precheck → Prop := fun k => ∃ better rest,
    opp.priority ticks = better ++ rest ∧
    k.1 = rest.find? (fun r => !(b.queues.levels opp r).isEmpty) ∧
    b.precheckFrom opp px want acct rest k.2 =
      b.precheckFrom opp px want acct (opp.priority ticks) {}
  let rank : ℕ → ℕ := fun q => if opp = .bid then q + 1 else ticks - q
  have hsplit : ∀ k q, I k → k.1 = some q → ∃ better worse,
      opp.priority ticks = better ++ q :: worse ∧ b.queues.levels opp q ≠ [] ∧
      b.precheckFrom opp px want acct (q :: worse) k.2 =
        b.precheckFrom opp px want acct (opp.priority ticks) {} := by
    rintro k q ⟨better, rest, heq, hk, htarget⟩ hq
    rw [hq] at hk
    obtain ⟨hne, as, worse, hrest, has⟩ := List.find?_eq_some_iff_append.mp hk.symm
    refine ⟨better ++ as, worse, by rw [heq, hrest, List.append_assoc], by simpa using hne, ?_⟩
    rw [← htarget, hrest, PriorityBook.precheckFrom_empty fun r hr => by simpa using has r hr]
  have key := run_spec (f := e.precheckTurn opp px want acct) I
    (fun k => k.2 = b.precheckFrom opp px want acct (opp.priority ticks) {})
    (fun k => k.1.elim 0 rank) ?_ ?_ (ticks + 2) ((e.side opp).best, {}) ?_ ?_
  · unfold Engine.canFullyFill PriorityBook.canFullyFill
    dsimp only
    rw [key]
  · rintro ⟨opx, k⟩ k' hI hturn
    cases opx with
    | none => simp [precheckTurn] at hturn
    | some q =>
    obtain ⟨better, worse, heq, hne, htarget⟩ := hsplit _ q hI rfl
    unfold precheckTurn at hturn
    dsimp only at hturn htarget
    rw [h.consumeLevel_eq] at hturn
    rw [PriorityBook.precheckFrom_cons hne] at htarget
    split_ifs at hturn with hcross hstop
    rw [if_neg hcross, if_neg hstop] at htarget
    simp only [Turn.again.injEq] at hturn
    have hw := h.isBest_worsePopulated ht opp q
    refine ⟨⟨better ++ [q], worse, by simp [heq], ?_, ?_⟩, ?_⟩
    · rw [← hturn]
      exact hw.unique (hd.isBest_worse heq)
    · rw [← hturn, ← htarget]
    · rw [← hturn]
      cases hr : e.worsePopulated opp q with
      | none =>
          have hlt := (opp.mem_priority (p := q)).mp (show q ∈ opp.priority ticks by simp [heq])
          simp only [Option.elim, rank]
          split_ifs <;> omega
      | some r =>
          rw [hr] at hw
          have hb := hw.1.2
          have hlt := hd.lt_of_ne_nil hw.1.1
          simp only [Option.elim, rank]
          cases opp <;> simp [Side.better] at hb ⊢ <;> omega
  · rintro ⟨opx, k⟩ k' hI hturn
    cases opx with
    | none =>
        obtain ⟨better, rest, heq, hk, htarget⟩ := hI
        simp only [precheckTurn, Turn.done.injEq] at hturn
        rw [← hturn, ← htarget]
        have hall : ∀ r ∈ rest, b.queues.levels opp r = [] := fun r hr => by
          simpa using List.find?_eq_none.mp hk.symm r hr
        rw [← List.append_nil rest, PriorityBook.precheckFrom_empty hall, PriorityBook.precheckFrom]
    | some q =>
    obtain ⟨better, worse, heq, hne, htarget⟩ := hsplit _ q hI rfl
    unfold precheckTurn at hturn
    dsimp only at hturn htarget
    rw [h.consumeLevel_eq] at hturn
    rw [PriorityBook.precheckFrom_cons hne] at htarget
    split_ifs at hturn with hcross hstop
    · rw [if_pos hcross] at htarget
      simp only [Turn.done.injEq] at hturn
      rw [← hturn, ← htarget]
    · rw [if_neg hcross, if_pos hstop] at htarget
      simp only [Turn.done.injEq] at hturn
      rw [← hturn, ← htarget]
  · exact ⟨[], _, rfl, h.best_eq hd opp, rfl⟩
  · dsimp only
    cases hb : (e.side opp).best with
    | none => simp
    | some q =>
        have hlt : q < ticks := by
          rw [h.best_eq hd] at hb
          exact hd.lt_of_ne_nil (Queues.best_eq_some.mp hb).1
        simp only [Option.elim, rank]
        split_ifs <;> omega

end Represents
end Engine
end Orderbooks
