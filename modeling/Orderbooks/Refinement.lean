import Orderbooks.Effects
import Orderbooks.MatchingRefinement
import Orderbooks.Lib.Runs

/-!
# The engine refines the priority machine

Every command an engine is given takes it from a state that stands for a
machine to one that stands for the machine after the same command. The target
of a cancel or modify is the order the id index names, or the order a live
handle names; the machine is told which.
-/
namespace Orderbooks

namespace PriorityBook

variable {ticks : ℕ} {b : PriorityBook ticks}

/-- What a command may reach: a resting order that has the id the command names,
and on an engine that keeps an index the order the index names. -/
def Reaches (b : PriorityBook ticks) (lookup : OrderLookup) (cmd : Command)
    (target : Option ℕ) : Prop :=
  (∀ u, target = some u → b.queues.Linked u ∧ (b.order u).id = cmd.id) ∧
    (lookup = .byId → target = b.queues.index cmd.id)

end PriorityBook

namespace Engine
open Runs

variable {P : Type} [Publisher P] {ticks maxOrders : ℕ} {lookup : OrderLookup} {p0 : P}
  {e : Engine P ticks maxOrders lookup} {b : PriorityBook ticks} {tag : ℕ → ℕ} {x : ℕ}

namespace Represents

variable (h : e.Represents p0 b tag b.queues.populated) (hd : b.queues.WellFormed)
include h

/-! ## Submitting -/

/-- The arena is exhausted exactly when the machine is at its capacity. -/
theorem allocate_cases (hc : 0 < maxOrders) :
    (b.capacity ≤ b.queues.live ∧ e.book.arena.allocate = (none, e.book.arena)) ∨
      (¬ b.capacity ≤ b.queues.live ∧ ∃ x a, e.book.arena.allocate = (some x, a)) := by
  obtain ⟨free, hf, _⟩ := h.book.free
  have hcount := hf.pool.count
  rw [h.book.live] at hcount
  cases free with
  | nil =>
      refine .inl ⟨?_, hf.allocate_nil hc⟩
      rw [h.capacity]
      simp at hcount
      omega
  | cons x free =>
      obtain ⟨a, ha, _⟩ := hf.allocate_cons hc
      refine .inr ⟨?_, x, a, ha⟩
      rw [h.capacity, List.length_cons] at *
      omega

include hd

/-- An order comes to rest in a slot the arena has just handed out, under any number that
names no other, and its id names it. -/
theorem entered (hc : 0 < maxOrders) {o : Order} (hpx : o.px < ticks) (hid : o.id ≠ emptyKey)
    {u n : ℕ} (hu : ∀ s p, u ∉ b.queues.levels s p) (hn : b.queues.next ≤ n) (hun : u < n)
    {a : SlabArena Order maxOrders (decide (lookup = .byHandle))}
    (halloc : e.book.arena.allocate = (some x, a)) {e' : Engine P ticks maxOrders lookup}
    (hside : ∀ t, e'.side t = ((e.setArena (a.put x o)).setSide o.s
      (((e.setArena (a.put x o)).side o.s).add o.s x o)).side t)
    (harena : e'.book.arena = a.put x o)
    (hidx : lookup = .byId → e'.book.idx = e.book.idx.insert o.id x) :
    let d := (({ b.queues with next := n } : Queues ticks).enter u o).setIndex o.id (some u)
    d.WellFormed ∧
      e'.book.Stores (lookup = .byId) d (Function.update tag x u) d.populated := by
  let d : Queues ticks := { b.queues with next := n }
  have hwf : (d.enter u o).WellFormed := (hd.setNext hn).enter hu hun hpx
  -- the order in its slot and in its level, not yet in the index
  let e₁ := e.setArena (a.put x o)
  let e₂ := e₁.setSide o.s ((e₁.side o.s).add o.s x o)
  have harena₂ : e₂.book.arena = a.put x o := setSide_arena _ _ _
  have hidx₂ : e₂.book.idx = e.book.idx := setSide_idx _ _ _
  have hstores : e.book.Stores (lookup = .byId) d tag b.queues.populated :=
    ⟨h.book.ladder, h.book.level, h.book.cell, h.book.inj, h.book.live, h.book.free,
      fun hi => ⟨(h.book.index hi).asserts, (h.book.index hi).mask, (h.book.index hi).ids,
        (h.book.index hi).table⟩⟩
  obtain ⟨_, hheld, hst₂⟩ := hstores.enter (c := e₂.book) (Q := (d.enter u o).populated)
    (hd.setNext hn) hc hu halloc (fun _ => hid)
    (fun t r => by
      refine (e₁.add_levels o.s t x r o).trans ?_
      rw [setArena_side])
    (fun t => by
      have := e₁.add_ladder o.s t (S := b.queues.populated) (x := x) (o := o)
        (fun t => by rw [setArena_side]; exact h.book.ladder t) hpx (fun hne => by
          rw [setArena_side, ne_eq, ← h.book.eq_nil_iff] at hne
          exact hne)
      rwa [Queues.populated_enter])
    harena₂ hidx₂
  have htag : Function.update tag x u x = u := Function.update_self ..
  have hord : (d.enter u o).orders u = o := by simp
  have hlinked : (d.enter u o).Linked u := (Queues.linked_enter hu).mpr (.inr rfl)
  have hunnamed : ∀ k, (d.enter u o).index k ≠ some u := fun k hk =>
    hu _ _ (hd.indexed k u hk).1
  have hfinal := hst₂.setIndex (c := e'.book) hwf hc hheld (htag.symm ▸ hunnamed _) hside
    (harena.trans harena₂.symm) fun hi => by rw [hidx hi, htag, hord, hidx₂]
  have hwf' := hwf.setIndex hlinked
  rw [htag, hord] at hfinal
  rw [hord] at hwf'
  exact ⟨hwf', hfinal⟩

/-- A residual rests, or is rejected for want of a slot. -/
theorem rest (hc : 0 < maxOrders) {m : SubmitMsg} (hpx : m.px < ticks) (hid : m.id ≠ emptyKey)
    (remaining : UInt64) : (e.rest m remaining).2.Refines p0 (b.rest m remaining) := by
  rcases h.allocate_cases hc with ⟨hfull, halloc⟩ | ⟨hroom, x, a, halloc⟩
  · have hrest : (e.rest m remaining).2 = e.bumpSeq.publish
        (.reject ⟨m.id, m.accountId, m.px, remaining, .arenaFull, e.bumpSeq.state.seq⟩) := by
      unfold Engine.rest
      rw [halloc]
      rfl
    unfold PriorityBook.rest
    rw [if_pos hfull, hrest, h.bumpSeq.state]
    exact ⟨hd, tag, h.bumpSeq.publish _⟩
  · obtain ⟨hpub, hcfg, hst, hside, harena, hidx⟩ := e.rest_parts m remaining halloc
    obtain ⟨hwf, hstores⟩ := h.entered hd hc (o := ⟨m.id, remaining, m.px, m.s, m.t, m.accountId⟩)
      hpx hid (hd.next_notMem) (Nat.le_succ _) (Nat.lt_succ_self b.queues.next) halloc hside
      (harena.trans (setSide_arena _ _ _)) fun hi => by
        rw [hidx hi]
        exact congrArg (fun i : IdIndex => i.insert m.id x) (setSide_idx _ _ _)
    have hspec : b.rest m remaining = (b.markTop m.s m.px).onQueues fun d =>
        (({ d with next := d.next + 1 } : Queues ticks).enter d.next
          ⟨m.id, remaining, m.px, m.s, m.t, m.accountId⟩).setIndex m.id (some d.next) := by
      unfold PriorityBook.rest
      rw [if_neg hroom]
      rfl
    rw [hspec]
    refine ⟨hwf, Function.update tag x b.queues.next, ?_⟩
    exact (h.markTop m.s m.px).withBook (f := fun d =>
      (({ d with next := d.next + 1 } : Queues ticks).enter d.next
        ⟨m.id, remaining, m.px, m.s, m.t, m.accountId⟩).setIndex m.id (some d.next))
      hpub hcfg hst hstores

theorem handleSubmit (hc : 0 < maxOrders) (ht : ticks ≤ 64 ^ 4) {m : SubmitMsg}
    (hpx : m.px < ticks) (hid : m.id ≠ emptyKey) :
    (e.handleSubmit m).2.Refines p0 (b.handleSubmit m) := by
  unfold Engine.handleSubmit PriorityBook.handleSubmit
  rw [h.canFullyFill_eq hd ht]
  split_ifs
  · exact ⟨hd, tag, h⟩
  · obtain ⟨hrep, hwf, _, hrem, _⟩ := h.matchAgainstOpposite hd hc ht (m := m)
      (J := fun _ _ => True) (fun _ _ _ _ _ _ _ _ _ _ _ => trivial) trivial
    have hleft : (Engine.matchAgainstOpposite m e).remaining =
        (PriorityBook.sweep m b m.qty).remaining := hrem
    dsimp only
    rw [hleft]
    split_ifs
    · exact ⟨hwf, tag, hrep⟩
    · cases m.t with
      | gtc => exact hrep.rest hwf hc hpx hid _
      | ioc => exact ⟨hwf, tag, hrep⟩
      | fok => exact ⟨hwf, tag, hrep⟩

theorem publishTop : e.publishTopIfChanged.Refines p0 b.publishTopIfChanged := by
  refine ⟨by rwa [PriorityBook.publishTopIfChanged_queues], tag, ?_⟩
  rw [PriorityBook.publishTopIfChanged_queues]
  exact h.publishTopIfChanged hd

theorem onSubmit (hc : 0 < maxOrders) (ht : ticks ≤ 64 ^ 4) {m : SubmitMsg}
    (hpx : m.px < ticks) (hid : m.id ≠ emptyKey) :
    (e.onSubmit m).2.Refines p0 (b.onSubmit m) := by
  obtain ⟨hd', tag', h'⟩ := h.handleSubmit hd hc ht hpx hid
  exact h'.publishTop hd'

/-! ## Finding the target -/

/-- What a search finds is a linked order that goes by the id asked for. -/
theorem find_held (hc : 0 < maxOrders) {id : UInt64} (hid : id ≠ emptyKey) {hdl : OrderHandle}
    {un : Bool} (hf : (e.find id hdl un).1 = some x) :
    e.book.Held x ∧ (b.order (tag x)).id = id := by
  unfold find at hf
  split_ifs at hf with hl hu
  · unfold resolve at hf
    split_ifs at hf with hbad hname
    simp only [Option.some.injEq] at hf
    push Not at hbad
    obtain ⟨hslot, hodd, hgen⟩ := hbad
    rw [hf] at hname hgen
    obtain ⟨free, hfree, hheld⟩ := h.book.free
    have hbuilt : e.book.arena.freelistBuilt = true := by
      by_contra hb
      simp only [SlabArena.generation, hb, if_false] at hgen
      rw [← hgen] at hodd
      exact hodd rfl
    have hx : e.book.Held x := by
      refine (hheld x).mpr ⟨by omega, ?_⟩
      rw [← hfree.parity (by simp [hl]) hbuilt x (by omega)]
      simp only [SlabArena.generation, hbuilt, if_true] at hgen
      unfold SlabArena.Allocated
      rwa [hgen]
    exact ⟨hx, by rw [← h.order_eq hx]; exact hname⟩
  · have hi : lookup = .byId := by cases lookup <;> simp_all
    obtain ⟨⟨hval, hheld⟩, _⟩ := h.book.take_spec hd hi hc hid
    dsimp only at hf
    refine ⟨hheld x hf, (hd.indexed id _ ?_).2⟩
    rw [← hval, hf]
    rfl
  · have hi : lookup = .byId := by cases lookup <;> simp_all
    obtain ⟨hval, hheld⟩ := h.book.lookup_eq hd hi hc hid
    dsimp only at hf
    refine ⟨hheld x hf, (hd.indexed id _ ?_).2⟩
    rw [← hval, hf]
    rfl

/-- An engine that looks orders up by id finds what the machine's index names. -/
theorem find_eq (hi : lookup = .byId) (hc : 0 < maxOrders) {id : UInt64} (hid : id ≠ emptyKey)
    (hdl : OrderHandle) (un : Bool) : (e.find id hdl un).1.map tag = b.queues.index id := by
  unfold find
  rw [if_neg (by rw [hi]; decide)]
  split_ifs
  · exact (h.book.take_spec hd hi hc hid).1.1
  · exact (h.book.lookup_eq hd hi hc hid).1

/-- A search that finds nothing changes nothing. -/
theorem find_none (hc : 0 < maxOrders) {id : UInt64} (hid : id ≠ emptyKey) {hdl : OrderHandle}
    {un : Bool} (hf : (e.find id hdl un).1 = none) :
    (e.find id hdl un).2.Represents p0 b tag b.queues.populated := by
  have heq := fun hi : lookup = .byId => h.find_eq hd hi hc hid hdl un
  unfold find at hf heq ⊢
  split_ifs at hf heq ⊢ with hl hu
  · exact h
  · have hi : lookup = .byId := by cases lookup <;> simp_all
    have hnone := heq hi
    dsimp only at hf hnone ⊢
    rw [hf] at hnone
    have hsame : b.queues.setIndex id none = b.queues := by
      unfold Queues.setIndex
      rw [Function.update_eq_self_iff.mpr hnone]
    have hstores := h.book.reindex (c := (e.setIdx (e.book.idx.take id).2).book)
      (fun t => e.setIdx_side t _) rfl fun _ => (h.book.take_spec hd hi hc hid).2
    rw [hsame] at hstores
    exact h.withBook (f := fun d => d) rfl rfl rfl hstores
  · exact h

/-! ## Cancelling -/

/-- A resting order is taken off its side, out of the index and out of its slot. -/
theorem removed (hc : 0 < maxOrders) (ht : ticks ≤ 64 ^ 4) (hx : e.book.Held x)
    {e' : Engine P ticks maxOrders lookup} {o : Order} (ho : b.order (tag x) = o)
    (hpub : e'.pub = e.pub) (hcfg : e'.cfg = e.cfg) (hst : e'.state = e.state)
    (hside : ∀ t, e'.side t = (e.setSide o.s ((e.side o.s).remove o.s x o)).side t)
    (harena : e'.book.arena = e.book.arena.deallocate (some x))
    (hidx : lookup = .byId → e'.book.idx = e.book.idx.erase o.id) :
    e'.Represents p0 (b.drop (tag x)) tag (b.queues.drop (tag x)).populated := by
  subst ho
  refine h.withBook (f := (·.drop (tag x))) hpub hcfg hst ?_
  refine h.book.drop hd hc hx rfl (fun t r => ?_) (fun t => ?_) harena hidx
  · refine (congrArg (fun s => BookSide.levels s r) (hside t)).trans ?_
    rw [remove_levels]
  · have hl := e.remove_ladder (b.order (tag x)).s t (S := b.queues.populated) (x := x)
      (o := b.order (tag x)) h.book.ladder ht
    have hset := b.queues.populated_unlink (tag x) t
    simp only [h.book.erase_eq_nil_iff hd hx] at hset
    rw [Queues.populated_drop, hset]
    change (e'.side t).Ladder t _
    rw [hside]
    exact hl

theorem onCancel (hc : 0 < maxOrders) (ht : ticks ≤ 64 ^ 4) {m : CancelMsg}
    (hid : m.id ≠ emptyKey) :
    (e.onCancel m).Refines p0 (((e.find m.id m.handle true).1.map tag).elim b b.cancelAt) := by
  cases hf : (e.find m.id m.handle true).1 with
  | none =>
      rw [onCancel_none hf]
      exact ⟨hd, tag, h.find_none hd hc hid hf⟩
  | some x =>
  obtain ⟨hx, hxid⟩ := h.find_held hd hc hid hf
  obtain ⟨hpub, hcfg, hst, hside, harena, hidx⟩ := e.find_parts m.id m.handle true
  have horder := h.order_eq hx
  unfold Engine.onCancel
  revert hf hpub hcfg hst hside harena hidx
  generalize e.find m.id m.handle true = r
  obtain ⟨o, e'⟩ := r
  rintro rfl hpub hcfg hst hside harena hidx
  dsimp only at hpub hcfg hst hside harena hidx ⊢
  have horder' : e'.order x = b.order (tag x) := by
    rw [← horder]
    simp [Engine.order, harena]
  rw [horder']
  set o := b.order (tag x) with ho
  let e₁ := e'.setSide o.s ((e'.side o.s).remove o.s x o)
  have hrep : (e₁.setArena (e₁.book.arena.deallocate (some x))).Represents p0 (b.drop (tag x)) tag
      (b.queues.drop (tag x)).populated := by
    refine h.removed hd hc ht hx rfl hpub hcfg hst (fun t => ?_) ?_ fun hi => ?_
    · rw [setArena_side]
      by_cases hts : t = o.s
      · subst hts
        rw [setSide_side_self, setSide_side_self, hside]
      · rw [setSide_side _ _ _ _ hts, setSide_side _ _ _ _ hts, hside]
    · change e₁.book.arena.deallocate (some x) = _
      rw [setSide_arena, harena]
    · change e₁.book.idx = _
      rw [setSide_idx, hidx hi, if_pos rfl]
      exact congrArg _ hxid.symm
  exact (hrep.markTop o.s o.px).publishTop (hd.drop _)

/-! ## Modifying -/

theorem requantify (hx : e.book.Held x) (newQty : UInt64) :
    (e.requantify x newQty).Refines p0 (b.requantify (tag x) newQty) := by
  have horder := h.order_eq hx
  unfold Engine.requantify PriorityBook.requantify
  rw [horder]
  set o := b.order (tag x) with ho
  let l : Level := { (e.side o.s).levels o.px with
    aggregate := ((e.side o.s).levels o.px).aggregate - o.remaining + newQty }
  let e₁ := e.setSide o.s ((e.side o.s).setLevel o.px l)
  have hstores : (e₁.setOrder x { o with remaining := newQty }).book.Stores (lookup = .byId)
      (b.queues.setRemaining (tag x) newQty) tag b.queues.populated := by
    refine h.book.setRemaining hd hx rfl newQty (fun t r => ?_) (fun t => ?_) ?_ ?_
    · refine (congrArg (fun s => BookSide.levels s r) (e₁.setOrder_side t _ _)).trans ?_
      rw [setLevel_levels]
      split_ifs with htr
      · rw [htr.1, htr.2]
      · rfl
    · change ((e₁.setOrder x _).side t).Ladder t _
      rw [setOrder_side]
      exact e.setLevel_ladder o.s t (h.book.ladder t) o.px l
    · change e₁.book.arena.put x _ = _
      rw [setSide_arena]
    · exact setSide_idx _ _ _
  have hrep : (e₁.setOrder x { o with remaining := newQty }).Represents p0
      (b.onQueues (·.setRemaining (tag x) newQty)) tag b.queues.populated :=
    h.withBook (f := (·.setRemaining (tag x) newQty)) rfl rfl rfl hstores
  exact (hrep.markTop o.s o.px).publishTop (hd.setRemaining _ _)

theorem relink (ht : ticks ≤ 64 ^ 4) (hx : e.book.Held x) {newPx : ℕ} (hpx : newPx < ticks)
    (newQty : UInt64) :
    (e.relink x newPx newQty).Refines p0 (b.relink (tag x) newPx newQty) := by
  have horder := h.order_eq hx
  unfold Engine.relink PriorityBook.relink
  rw [horder]
  set o := b.order (tag x) with ho
  set o' : Order := { o with px := newPx, remaining := newQty } with ho'
  let e₁ := e.setSide o.s ((e.side o.s).remove o.s x o)
  let e₂ := e₁.setOrder x o'
  let e₃ := e₂.setSide o.s ((e₂.side o.s).add o.s x o')
  have hlev₂ : ∀ t r, (e₂.side t).levels r =
      if t = o.s ∧ r = o.px then ((e.side t).levels r).unlink x o else (e.side t).levels r :=
    fun t r => by
      refine (congrArg (fun s => BookSide.levels s r) (e₁.setOrder_side t _ _)).trans ?_
      rw [remove_levels]
  have hlad₂ : ∀ t, (e₂.side t).Ladder t ((b.queues.unlink (tag x)).populated t) := fun t => by
    have hl := e.remove_ladder o.s t (S := b.queues.populated) (x := x) (o := o) h.book.ladder ht
    have hset := b.queues.populated_unlink (tag x) t
    simp only [h.book.erase_eq_nil_iff hd hx] at hset
    rw [setOrder_side, hset]
    exact hl
  have hstores : e₃.book.Stores (lookup = .byId) (b.queues.move (tag x) newPx newQty) tag
      (b.queues.move (tag x) newPx newQty).populated := by
    refine h.book.move hd hx rfl newPx newQty (fun t r => ?_) (fun t => ?_) ?_ ?_
    · refine (e₂.add_levels o.s t x r o').trans ?_
      rw [hlev₂]
    · have hl := e₂.add_ladder o.s t (S := (b.queues.unlink (tag x)).populated) (x := x) (o := o')
        hlad₂ hpx fun hne => ?_
      · rw [Queues.populated_move]
        exact hl
      · rw [hlev₂, ne_eq, ← (h.book.unlink_level hd hx rfl o.s newPx).eq_nil_iff] at hne
        exact hne
    · rw [setSide_arena]
      change e₁.book.arena.put x _ = _
      rw [setSide_arena]
    · rw [setSide_idx]
      exact setSide_idx _ _ _
  have hrep : e₃.Represents p0 (b.onQueues (·.move (tag x) newPx newQty)) tag
      (b.queues.move (tag x) newPx newQty).populated :=
    h.withBook (f := (·.move (tag x) newPx newQty)) rfl rfl rfl hstores
  refine ((hrep.markTop o.s o.px).markTop o.s newPx).publishTop ?_
  exact hd.move (h.book.linked hd hx) hpx newQty

/-- The id chain: the entry found is given up, and the order gets its next id. -/
theorem rename (hc : 0 < maxOrders) {m : ModifyMsg} (hid : m.id ≠ emptyKey)
    (hnew : m.newId ≠ emptyKey) (hf : (e.find m.id m.handle true).1 = some x) :
    ((e.find m.id m.handle true).2.rename x m.newId).Represents p0
      (b.onQueues (·.rename (tag x) m.newId)) tag b.queues.populated := by
  obtain ⟨hx, hxid⟩ := h.find_held hd hc hid hf
  obtain ⟨hpub, hcfg, hst, hside, harena, hidx⟩ := e.find_parts m.id m.handle true
  generalize (e.find m.id m.handle true).2 = e₁ at *
  have horder : e₁.order x = b.order (tag x) := by
    rw [← h.order_eq hx]
    simp [Engine.order, harena]
  have hst₁ : e₁.book.Stores (lookup = .byId) (b.queues.setIndex (b.order (tag x)).id none) tag
      b.queues.populated := h.book.reindex hside harena fun hi => by
    rw [hidx hi, if_pos rfl, hxid]
    exact (h.book.take_spec hd hi hc hid).2
  have hwf₁ := hd.unindex (b.order (tag x)).id
  have hx₁ : e₁.book.Held x := held_congr hside ▸ hx
  let o' : Order := { b.order (tag x) with id := m.newId }
  have hst₂ := hst₁.setId (c := (e₁.setOrder x o').book) hx₁ rfl m.newId (fun _ => hnew)
    (fun t => e₁.setOrder_side t x o') rfl fun _ => rfl
  have hwf₂ := hwf₁.setId (hd.index_unindex_ne (tag x)) m.newId
  have hx₂ : (e₁.setOrder x o').book.Held x :=
    held_congr (fun t => e₁.setOrder_side t x o') ▸ hx₁
  obtain ⟨hpub', hcfg', hst', hside', harena', hidx'⟩ := e₁.rename_parts x m.newId
  rw [horder] at harena'
  have hst₃ := hst₂.setIndex hwf₂ hc hx₂ (hd.index_unindex_ne (tag x) _)
    (fun t => (hside' t).trans (e₁.setOrder_side t x o').symm) harena' fun hi => by
      rw [hidx' hi]
      simp
      rfl
  have hid' : ((((b.queues.setIndex (b.order (tag x)).id none).setId (tag x)
      m.newId).orders (tag x))).id = m.newId := by simp
  rw [hid'] at hst₃
  exact h.withBook (f := (·.rename (tag x) m.newId)) (hpub'.trans hpub) (hcfg'.trans hcfg)
    (hst'.trans hst) hst₃

/-- A crossing price change: cancel, then resubmit. -/
theorem resubmit (hc : 0 < maxOrders) (ht : ticks ≤ 64 ^ 4) (hx : e.book.Held x) {m : ModifyMsg}
    (hpx : m.newPx < ticks) (hid : (b.order (tag x)).id ≠ emptyKey)
    (hf : (e.find (b.order (tag x)).id m.handle true).1 = some x) :
    (e.resubmit x m).2.Refines p0 (b.resubmit (tag x) m.newPx m.newQty) := by
  have horder := h.order_eq hx
  unfold Engine.resubmit PriorityBook.resubmit
  rw [horder]
  dsimp only
  have hf' : (e.suppress.find (b.order (tag x)).id m.handle true).1 = some x :=
    (find_congr (show e.suppress.book = e.book from rfl) _ _ _).trans hf
  have hcancel := h.suppress.onCancel hd hc ht (m := ⟨(b.order (tag x)).id, m.handle⟩) hid
  dsimp only at hcancel
  rw [hf'] at hcancel
  obtain ⟨hwf₁, tag₁, h₁⟩ := hcancel
  obtain ⟨hwf₂, tag₂, h₂⟩ := h₁.onSubmit hwf₁ hc ht (m := ⟨(b.order (tag x)).id, m.newPx,
    m.newQty, (b.order (tag x)).s, (b.order (tag x)).t, (b.order (tag x)).accountId⟩) hpx hid
  exact h₂.unsuppress.publishTop hwf₂

/-- The price and quantity branches of a modify, once the id chain is applied. -/
theorem reprice (hc : 0 < maxOrders) (ht : ticks ≤ 64 ^ 4) (hx : e.book.Held x) {m : ModifyMsg}
    (hpx : m.newPx < ticks) (hid : (b.order (tag x)).id ≠ emptyKey)
    (hf : (e.find (b.order (tag x)).id m.handle true).1 = some x) :
    (e.reprice x m).2.Refines p0 (b.reprice (tag x) m.newPx m.newQty) := by
  unfold Engine.reprice PriorityBook.reprice
  rw [h.order_eq hx]
  dsimp only
  rw [h.best_eq hd]
  split_ifs
  · exact ⟨hd, tag, h⟩
  · exact h.requantify hd hx _
  · cases b.queues.best (b.order (tag x)).s.opposite with
    | none => exact h.relink hd ht hx hpx _
    | some q =>
        dsimp only
        split_ifs
        · exact h.relink hd ht hx hpx _
        · exact h.resubmit hd hc ht hx hpx hid hf

/-- The search that found an order finds it again under the id it goes by now. -/
theorem find_again (hc : 0 < maxOrders) {id : UInt64} (hid : id ≠ emptyKey) {hdl : OrderHandle}
    (hx : e.book.Held x) (hi : lookup = .byId → b.queues.index id = some (tag x))
    (hh : lookup = .byHandle → e.resolve hdl id = some x) :
    (e.find id hdl true).1 = some x := by
  by_cases hl : lookup = .byHandle
  · unfold find
    rw [if_pos hl]
    exact hh hl
  · have hl : lookup = .byId := by cases lookup <;> simp_all
    have heq := h.find_eq hd hl hc hid hdl true
    rw [hi hl] at heq
    obtain ⟨y, hy, hty⟩ := Option.map_eq_some_iff.mp heq
    rw [hy, h.book.inj y x (h.find_held hd hc hid hy).1 hx hty]

/-- The order a modify reaches, under the id it leaves it with. -/
theorem chain (hc : 0 < maxOrders) {m : ModifyMsg} (hid : m.id ≠ emptyKey)
    (hnew : m.newId ≠ emptyKey) (hf : (e.find m.id m.handle m.renames).1 = some x) :
    let e' := if m.renames then (e.find m.id m.handle m.renames).2.rename x m.newId
      else (e.find m.id m.handle m.renames).2
    let b' := if m.renames then b.onQueues (·.rename (tag x) m.newId) else b
    e'.Represents p0 b' tag b'.queues.populated ∧ b'.queues.WellFormed ∧ e'.book.Held x ∧
      (b'.order (tag x)).id ≠ emptyKey ∧
      (e'.find (b'.order (tag x)).id m.handle true).1 = some x := by
  obtain ⟨hx, hxid⟩ := h.find_held hd hc hid hf
  have hres : lookup = .byHandle → e.resolve m.handle m.id = some x := fun hl => by
    unfold find at hf
    rwa [if_pos hl] at hf
  cases hren : m.renames with
  | true =>
      rw [hren] at hf
      have hrep := h.rename hd hc hid hnew hf
      have hwf := hd.rename (h.book.linked hd hx) m.newId
      have hside : ∀ t, ((e.find m.id m.handle true).2.rename x m.newId).side t = e.side t :=
        fun t => ((rename_parts _ _ _).2.2.2.1 t).trans ((e.find_parts _ _ _).2.2.2.1 t)
      have hx' : ((e.find m.id m.handle true).2.rename x m.newId).book.Held x :=
        held_congr hside ▸ hx
      have hid' : ((b.onQueues (·.rename (tag x) m.newId)).order (tag x)).id = m.newId := by
        simp [PriorityBook.onQueues, PriorityBook.order]
      refine ⟨hrep, hwf, hx', by rwa [if_pos rfl, hid'], ?_⟩
      rw [if_pos rfl, if_pos rfl, hid']
      refine hrep.find_again hwf hc hnew hx' (fun _ => ?_) fun hl => ?_
      · simp [PriorityBook.onQueues, Queues.rename, Queues.setIndex]
      · have hfound : (e.find m.id m.handle true).2 = e := by
          unfold find
          rw [if_pos hl]
        rw [hfound]
        exact e.resolve_rename (hres hl)
  | false =>
      rw [hren] at hf
      have hsame : (e.find m.id m.handle false).2 = e := by
        unfold find
        split_ifs with hl hun
        · rfl
        · exact absurd hun (by decide)
        · rfl
      simp only [Bool.false_eq_true, if_false]
      rw [hsame]
      refine ⟨h, hd, hx, hxid ▸ hid, ?_⟩
      rw [hxid]
      refine h.find_again hd hc hid hx (fun hi => ?_) hres
      rw [← h.find_eq hd hi hc hid m.handle false, hf]
      rfl

theorem onModify (hc : 0 < maxOrders) (ht : ticks ≤ 64 ^ 4) {m : ModifyMsg}
    (hpx : m.newPx < ticks) (hid : m.id ≠ emptyKey) (hnew : m.newId ≠ emptyKey) :
    (e.onModify m).2.Refines p0 (((e.find m.id m.handle m.renames).1.map tag).elim b
      fun u => b.modifyAt u m) := by
  cases hf : (e.find m.id m.handle m.renames).1 with
  | none =>
      rw [onModify_none hf]
      exact ⟨hd, tag, h.find_none hd hc hid hf⟩
  | some x =>
      obtain ⟨hrep, hwf, hx, hne, hagain⟩ := h.chain hd hc hid hnew hf
      rw [onModify_some hf]
      exact hrep.reprice hwf hc ht hx hpx hne hagain

end Represents

/-! ## Whole runs -/

/-- A command takes an engine from a machine it stands for to the machine after
the same command, and both act on the same order. -/
theorem Refines.apply_reached (h : e.Refines p0 b) (hc : 0 < maxOrders) (ht : ticks ≤ 64 ^ 4)
    {cmd : Command} (hr : cmd.InRange ticks) :
    ∃ target, b.Reaches lookup cmd target ∧ (e.apply cmd).Refines p0 (b.applyAt target cmd) ∧
      ((∀ m, cmd ≠ .submit m) → target.map b.order = (e.reached cmd).map e.order) := by
  obtain ⟨hd, tag, h⟩ := h
  have hfound : ∀ id hdl un, id ≠ emptyKey → (∀ u, (e.find id hdl un).1.map tag = some u →
      b.queues.Linked u ∧ (b.order u).id = id) ∧
      (lookup = .byId → (e.find id hdl un).1.map tag = b.queues.index id) := by
    intro id hdl un hid
    refine ⟨fun u hu => ?_, fun hi => h.find_eq hd hi hc hid hdl un⟩
    obtain ⟨x, hx, rfl⟩ := Option.map_eq_some_iff.mp hu
    obtain ⟨hheld, hxid⟩ := h.find_held hd hc hid hx
    exact ⟨h.book.linked hd hheld, hxid⟩
  have hsame : ∀ id hdl un, id ≠ emptyKey → ((e.find id hdl un).1.map tag).map b.order =
      (e.find id hdl un).1.map e.order := by
    intro id hdl un hid
    cases hf : (e.find id hdl un).1 with
    | none => rfl
    | some x =>
        rw [Option.map_some, Option.map_some, Option.map_some,
          h.order_eq (h.find_held hd hc hid hf).1]
  cases cmd with
  | submit m =>
      exact ⟨b.queues.index m.id, ⟨fun u hu => hd.indexed m.id u hu, fun _ => rfl⟩,
        h.onSubmit hd hc ht hr.1 hr.2, fun hne => absurd rfl (hne m)⟩
  | cancel m =>
      exact ⟨_, hfound _ _ _ hr, h.onCancel hd hc ht hr, fun _ => hsame _ _ _ hr⟩
  | modify m =>
      exact ⟨_, hfound _ _ _ hr.2.1, h.onModify hd hc ht hr.1 hr.2.1 hr.2.2,
        fun _ => hsame _ _ _ hr.2.1⟩

theorem Refines.apply (h : e.Refines p0 b) (hc : 0 < maxOrders) (ht : ticks ≤ 64 ^ 4)
    {cmd : Command} (hr : cmd.InRange ticks) :
    ∃ target, b.Reaches lookup cmd target ∧ (e.apply cmd).Refines p0 (b.applyAt target cmd) := by
  obtain ⟨target, hreach, happly, _⟩ := h.apply_reached hc ht hr
  exact ⟨target, hreach, happly⟩

theorem Refines.capacity (h : e.Refines p0 b) : b.capacity = maxOrders := by
  obtain ⟨_, _, h⟩ := h
  exact h.capacity

/-- A new engine stands for the empty machine. -/
theorem new_refines (pub : P) (cfg : EngineConfig) (mem : Memory) (hc : 0 < maxOrders) :
    (Engine.new pub cfg mem : Engine P ticks maxOrders lookup).Refines pub
      (PriorityBook.new cfg maxOrders) := by
  refine ⟨.empty, fun _ => 0, rfl, rfl, rfl, rfl, rfl, ?_⟩
  change Book.Stores _ _ {} _ ({} : Queues ticks).populated
  rw [Queues.populated_empty]
  exact .new _ _ hc

/-- The run rule: what every command preserves on the machine holds of the
machine an engine stands for after a run. -/
theorem Refines.run (ok : Engine P ticks maxOrders lookup → Command → Prop)
    (I : PriorityBook ticks → Prop) (hc : 0 < maxOrders) (ht : ticks ≤ 64 ^ 4)
    (hok : ∀ e cmd, ok e cmd → cmd.InRange ticks)
    (step : ∀ (e : Engine P ticks maxOrders lookup) b cmd target, e.Refines p0 b → I b →
      ok e cmd → b.Reaches lookup cmd target → I (b.applyAt target cmd))
    (h : e.Refines p0 b) (hI : I b) {cmds : List Command}
    (ha : Along Engine.apply ok e cmds) :
    ∃ b', (cmds.foldl Engine.apply e).Refines p0 b' ∧ I b' := by
  refine ha.invariant (fun e => ∃ b, e.Refines p0 b ∧ I b) (fun e cmd hb hcmd => ?_) ⟨b, h, hI⟩
  obtain ⟨b, h, hI⟩ := hb
  obtain ⟨target, hreach, h'⟩ := h.apply hc ht (hok e cmd hcmd)
  exact ⟨_, h', step e b cmd target h hI hcmd hreach⟩

end Engine
end Orderbooks
