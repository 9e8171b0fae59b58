import Orderbooks.Invariants
import Orderbooks.Refinement

/-!
# The book between commands

What the invariants of the machine say about the engine's own structures after
any run: levels, bitmaps, cached best prices, arena and id index agree with each
other, and the book is never crossed.
-/
namespace Orderbooks

namespace Engine
open Runs

variable {P : Type} {ticks maxOrders : ℕ} {lookup : OrderLookup}

/-- The id is that of an order resting now. -/
def Resting (e : Engine P ticks maxOrders lookup) (id : UInt64) : Prop :=
  ∃ s, ∃ p < ticks, ∃ x ∈ ((e.side s).levels p).fifo, (e.order x).id = id

instance (e : Engine P ticks maxOrders lookup) : DecidablePred e.Resting := fun _ => by
  unfold Resting
  infer_instance

/-- The command brings no id into the book that a resting order has. -/
def Fresh (e : Engine P ticks maxOrders lookup) : Command → Prop
  | .submit m => ¬ e.Resting m.id
  | .cancel _ => True
  | .modify m => m.newId ≠ 0 ∧ m.newId ≠ m.id → ¬ e.Resting m.newId

instance (e : Engine P ticks maxOrders lookup) : DecidablePred e.Fresh := fun cmd =>
  match cmd with
  | .submit m => inferInstanceAs (Decidable (¬ e.Resting m.id))
  | .cancel _ => isTrue trivial
  | .modify m =>
      inferInstanceAs (Decidable (m.newId ≠ 0 ∧ m.newId ≠ m.id → ¬ e.Resting m.newId))

variable [Publisher P] {p0 : P} {e : Engine P ticks maxOrders lookup} {b : PriorityBook ticks}

theorem Refines.absent_iff (h : e.Refines p0 b) (id : UInt64) :
    b.queues.Absent id ↔ ¬ e.Resting id := by
  obtain ⟨hd, tag, h⟩ := h
  constructor
  · rintro hab ⟨s, p, _, x, hx, hid⟩
    have hheld : e.book.Held x := ⟨s, p, hx⟩
    refine hab (tag x) (h.book.linked hd hheld) ?_
    rw [← hid, h.order_eq hheld]
  · rintro hrest u hu hid
    obtain ⟨x, hx, rfl⟩ := h.book.exists_slot hu
    refine hrest ⟨_, _, hd.px_lt hu, x, hx, ?_⟩
    rw [h.order_eq ⟨_, _, hx⟩]
    exact hid

theorem Refines.fresh (h : e.Refines p0 b) {cmd : Command} (hf : e.Fresh cmd) :
    b.queues.Fresh cmd := by
  cases cmd with
  | submit m => exact (h.absent_iff m.id).mpr hf
  | cancel m => trivial
  | modify m =>
      intro hren
      simp only [ModifyMsg.renames, decide_eq_true_eq] at hren
      exact (h.absent_iff m.newId).mpr (hf hren)

/-- What a command does to the queues of the machine an engine stands for. -/
theorem Refines.effect (h : e.Refines p0 b) {cmd : Command} {target : Option ℕ}
    (hreach : b.Reaches lookup cmd target) :
    (∀ u, target = some u → b.queues.Linked u) ∧
      Queues.Effect maxOrders b.queues target cmd (b.applyAt target cmd).queues := by
  have hu : ∀ u, target = some u → b.queues.Linked u := fun u hu => (hreach.1 u hu).1
  obtain ⟨hd, tag, h⟩ := h
  exact ⟨hu, h.capacity ▸ PriorityBook.applyAt_effect cmd hd hu⟩

/-! ## Never crossed -/

theorem Refines.best_eq (h : e.Refines p0 b) (s : Side) : (e.side s).best = b.queues.best s := by
  obtain ⟨hd, tag, h⟩ := h
  exact Represents.best_eq h hd s

theorem Refines.uncrossed (h : e.Refines p0 b) (hx : b.queues.Uncrossed) {bid ask : ℕ}
    (hbid : (e.side .bid).best = some bid) (hask : (e.side .ask).best = some ask) : bid < ask := by
  rw [h.best_eq] at hbid hask
  have := hx .bid bid (Queues.best_eq_some.mp hbid).1 ask (Queues.best_eq_some.mp hask).1
  simpa [Side.crosses] using this

/-- After any run of commands with prices on the ladder, whatever ids they use,
the best bid is below the best ask. -/
theorem play_not_crossed (pub : P) (cfg : EngineConfig) (mem : Memory) (hc : 0 < maxOrders)
    (ht : ticks ≤ 64 ^ 4) (cmds : List Command) (hcmds : ∀ cmd ∈ cmds, cmd.InRange ticks) :
    let e : Engine P ticks maxOrders lookup := play pub cfg mem cmds
    ∀ bid ask, (e.side .bid).best = some bid → (e.side .ask).best = some ask → bid < ask := by
  obtain ⟨b, h, hx⟩ := (new_refines pub cfg mem hc).run (fun _ cmd => cmd.InRange ticks)
    (fun b => b.queues.Uncrossed) hc ht (fun _ _ h => h)
    (fun e b cmd target h hx _ hreach => hx.effect h.1 (h.effect hreach).1 (h.effect hreach).2)
    .empty (along_of_forall hcmds)
  intro e bid ask hbid hask
  exact h.uncrossed hx hbid hask

/-- Two orders under one id that rest side by side. -/
theorem play_not_crossed_two_sided :
    let cmds : List Command := [.submit ⟨7, 0, 5, .bid, .gtc, 0⟩, .submit ⟨7, 1, 5, .ask, .gtc, 0⟩]
    let e : Engine (List Event) 2 2 .byId := play [] {} .zeroed cmds
    (e.side .bid).best = some 0 ∧ (e.side .ask).best = some 1 ∧
      ∀ bid ask, (e.side .bid).best = some bid → (e.side .ask).best = some ask → bid < ask :=
  ⟨by decide, by decide, play_not_crossed [] {} .zeroed (by decide) (by decide) _ (by decide)⟩

/-! ## The structures of the book agree -/

/-- Levels, bitmaps, best prices, arena and index of a book describe the same
resting orders. The total of a level is taken as the sum its counter can hold. -/
structure Coherent (e : Engine P ticks maxOrders lookup) : Prop where
  aggregate : ∀ s p, ((e.side s).levels p).aggregate =
    (((e.side s).levels p).fifo.map fun x => (e.order x).remaining).sum
  placed : ∀ s p, ∀ x ∈ ((e.side s).levels p).fifo,
    (e.order x).px = p ∧ (e.order x).s = s ∧ 0 < (e.order x).remaining
  bit : ∀ s p, (e.side s).bm.test p = true ↔ ((e.side s).levels p).fifo ≠ []
  best : ∀ s : Side, s.IsBest {p | (e.side s).bm.test p = true} (e.side s).best
  inUse : e.book.arena.inUse = ∑ p ∈ Finset.range ticks,
    (((e.side .bid).levels p).fifo.length + ((e.side .ask).levels p).fifo.length)
  slots : ∃ free, e.book.arena.Free free ∧ ∀ x, (x < maxOrders ∧ x ∉ free) ↔
    ∃! home : Side × ℕ, x ∈ ((e.side home.1).levels home.2).fifo
  nodup : ∀ s p, ((e.side s).levels p).fifo.Nodup
  entries : lookup = .byId → e.book.idx.storageInitialised = true → ∀ i ≤ e.book.idx.mask,
    (e.book.idx.slots i).key ≠ emptyKey → ∃ x, (e.book.idx.slots i).value = some x ∧
      e.book.Held x ∧ (e.order x).id = (e.book.idx.slots i).key

/-- The total of a level is the sum of its quantities as natural numbers. -/
structure Consistent (e : Engine P ticks maxOrders lookup) : Prop extends e.Coherent where
  total : ∀ s p, ((e.side s).levels p).aggregate.toNat =
    (((e.side s).levels p).fifo.map fun x => (e.order x).remaining.toNat).sum

/-- The index finds every resting order and nothing else. -/
structure Indexed (e : Engine P ticks maxOrders lookup) : Prop where
  lookup_id : ∀ x, e.book.Held x → e.book.idx.lookup (e.order x).id = some x
  held : ∀ id x, id ≠ emptyKey → e.book.idx.lookup id = some x →
    e.book.Held x ∧ (e.order x).id = id
  size : e.book.idx.size = e.book.arena.inUse

theorem Refines.coherent (h : e.Refines p0 b) {maxQty : UInt64}
    (hs : b.queues.Recordable maxQty) (hcount : b.queues.Counted maxOrders) : e.Coherent := by
  obtain ⟨hd, tag, h⟩ := h
  have horder : ∀ s p, ∀ x ∈ ((e.side s).levels p).fifo, e.order x = b.order (tag x) :=
    fun s p x hx => h.order_eq ⟨s, p, hx⟩
  have hbit : ∀ s p, (e.side s).bm.test p = true ↔ ((e.side s).levels p).fifo ≠ [] :=
    fun s p => by
      rw [(h.book.ladder s).bitmap.test_eq, ne_eq, ← h.book.eq_nil_iff]
      rfl
  refine ⟨fun s p => ?_, fun s p x hx => ?_, hbit, fun s => ?_, ?_, ?_, h.book.fifo_nodup hd,
    fun hi hini i hi' hkey => ?_⟩
  · have hlev := h.book.level s p
    rw [hlev.aggregate, hlev.fifo, List.map_map, List.map_map]
    refine congrArg List.sum (List.map_congr_left fun x hx => ?_)
    rw [horder s p x hx]
    rfl
  · obtain ⟨hside, hpx, _⟩ := h.book.place hd hx
    rw [horder s p x hx]
    exact ⟨hpx, hside, UInt64.pos_iff_ne_zero.mpr
      (hs _ (h.book.linked hd ⟨s, p, hx⟩)).open_qty⟩
  · have := (h.book.ladder s).best
    rwa [show {p | (e.side s).bm.test p = true} = b.queues.populated s by
      ext p
      exact (h.book.ladder s).bitmap.test_eq p]
  · rw [h.book.live, hcount.live]
    refine Finset.sum_congr rfl fun p _ => ?_
    rw [(h.book.level .bid p).fifo, (h.book.level .ask p).fifo, List.length_map, List.length_map]
  · obtain ⟨free, hfree, hheld⟩ := h.book.free
    refine ⟨free, hfree, fun x => ?_⟩
    rw [← hheld]
    constructor
    · rintro ⟨s, p, hx⟩
      refine ⟨(s, p), hx, fun home hat => ?_⟩
      obtain ⟨hs₁, hp₁, _⟩ := h.book.place hd hx
      obtain ⟨hs₂, hp₂, _⟩ := h.book.place hd hat
      exact Prod.ext (hs₂.symm.trans hs₁) (hp₂.symm.trans hp₁)
    · rintro ⟨home, hat, _⟩
      exact ⟨home.1, home.2, hat⟩
  · obtain ⟨_, _, _, m, hm, hidx, hmheld⟩ := h.book.index hi
    have hentry := IdIndex.entries_of_ne hkey
    obtain ⟨x, hmx, hval⟩ := Option.map_eq_some_iff.mp
      (((hm.table hini).holds _ _).mpr ⟨i, Nat.lt_succ_of_le hi', hentry⟩)
    have hheld := hmheld _ x hmx
    refine ⟨x, hval.symm, hheld, ?_⟩
    rw [h.order_eq hheld]
    exact (hd.indexed _ (tag x) (by rw [hidx, hmx]; rfl)).2

theorem Refines.consistent (h : e.Refines p0 b) {maxQty : UInt64}
    (hs : b.queues.Recordable maxQty) (hcount : b.queues.Counted maxOrders)
    (hcap : maxOrders * maxQty.toNat < 2 ^ 64) :
    e.Consistent := by
  refine ⟨h.coherent hs hcount, fun s p => ?_⟩
  obtain ⟨hd, tag, h⟩ := h
  have hlev := h.book.level s p
  rw [hlev.aggregate]
  refine (hs.aggregateAt_toNat hd hcount hcap s p).trans ?_
  unfold Queues.openAt Queues.ordersAt
  rw [hlev.fifo, List.map_map, List.map_map]
  refine congrArg List.sum (List.map_congr_left fun x hx => ?_)
  rw [h.order_eq ⟨s, p, hx⟩]
  rfl

theorem Refines.indexed (h : e.Refines p0 b) (hi : lookup = .byId) (hc : 0 < maxOrders)
    (hx : b.queues.Exact) : e.Indexed := by
  obtain ⟨hd, tag, h⟩ := h
  obtain ⟨_, _, hids, m, hm, hidx, hmheld⟩ := h.book.index hi
  obtain ⟨free, hfree, hheld⟩ := h.book.free
  have hid : ∀ x, e.book.Held x → (b.order (tag x)).id ≠ emptyKey := fun x hx =>
    hids _ _ _ (h.book.linked hd hx)
  have hfind : ∀ x, e.book.Held x → b.queues.index (b.order (tag x)).id = some (tag x) :=
    fun x hxh => hx _ (h.book.linked hd hxh)
  refine ⟨fun x hxh => ?_, fun id x hne hl => ?_, ?_⟩
  · obtain ⟨heq, hlook⟩ := h.book.lookup_eq hd hi hc (hid x hxh)
    rw [hfind x hxh] at heq
    obtain ⟨y, hy, hty⟩ := Option.map_eq_some_iff.mp heq
    rw [h.order_eq hxh, hy, h.book.inj y x (hlook y hy) hxh hty]
  · obtain ⟨heq, hlook⟩ := h.book.lookup_eq hd hi hc hne
    refine ⟨hlook x hl, ?_⟩
    rw [hl] at heq
    rw [h.order_eq (hlook x hl)]
    exact (hd.indexed id (tag x) heq.symm).2
  · -- keys of the index and slots in use are the same through the orders' ids
    obtain ⟨S, hcard, hS⟩ := hm.sized
    rw [← hcard, ← hfree.pool.card_used]
    refine (Finset.card_bij (fun x _ => (b.order (tag x)).id) (fun x hxm => ?_)
      (fun x hxm y hym heq => ?_) fun k hk => ?_).symm
    · have hxh := (hheld x).mpr (by simpa using hxm)
      have hmap := hidx (b.order (tag x)).id
      rw [hfind x hxh] at hmap
      rw [hS]
      rintro hnone
      simp [hnone] at hmap
    · have hxh := (hheld x).mpr (by simpa using hxm)
      have hyh := (hheld y).mpr (by simpa using hym)
      exact h.book.inj x y hxh hyh
        (hx.injective (h.book.linked hd hxh) (h.book.linked hd hyh) heq)
    · obtain ⟨x, hmx⟩ := Option.ne_none_iff_exists'.mp ((hS k).mp hk)
      refine ⟨x, by simpa using (hheld x).mp (hmheld k x hmx), ?_⟩
      exact (hd.indexed k (tag x) (by rw [hidx, hmx]; rfl)).2

/-- After any run of commands in their domains the structures of the book agree,
however ids are reused; if no resting id is, the index is exact as well. -/
theorem play_consistent (pub : P) (cfg : EngineConfig) (mem : Memory) (hc : 0 < maxOrders)
    (ht : ticks ≤ 64 ^ 4) (hcap : maxOrders * cfg.maxOrderQty.toNat < 2 ^ 64)
    (cmds : List Command) (hcmds : ∀ cmd ∈ cmds, cmd.InDomain ticks cfg.maxOrderQty) :
    let e : Engine P ticks maxOrders .byId := play pub cfg mem cmds
    e.Consistent ∧ (Along apply Fresh (new pub cfg mem : Engine P ticks maxOrders .byId) cmds →
      e.Indexed) := by
  refine ⟨?_, fun hfresh => ?_⟩
  · obtain ⟨b, h, hs, hcount⟩ := (new_refines pub cfg mem hc).run
      (fun _ cmd => cmd.InDomain ticks cfg.maxOrderQty)
      (fun b => b.queues.Sound cfg.maxOrderQty ∧ b.queues.Counted maxOrders) hc ht
      (fun _ _ h => h.inRange)
      (fun e b cmd target h hI hdom hreach =>
        ⟨hI.1.effect h.1 (h.effect hreach).1 hdom (h.effect hreach).2,
          hI.2.effect h.1 (h.effect hreach).1 hdom.inRange (h.effect hreach).2⟩)
      ⟨.empty, .empty⟩ (along_of_forall hcmds)
    exact h.consistent hs.recordable hcount hcap
  · obtain ⟨b, h, hx⟩ := (new_refines pub cfg mem hc).run
      (fun e cmd => cmd.InDomain ticks cfg.maxOrderQty ∧ e.Fresh cmd)
      (fun b => b.queues.Exact) hc ht (fun _ _ h => h.1.inRange)
      (fun e b cmd target h hx hok hreach =>
        hx.effect h.1 (h.effect hreach).1 (h.fresh hok.2) (h.effect hreach).2)
      .empty ((along_of_forall hcmds).and hfresh)
    exact h.indexed rfl hc hx

/-- A submit that reuses a resting id, then one under an id of its own. -/
theorem play_consistent_reused_id :
    let e : Engine (List Event) 2 2 .byId := play [] {} .zeroed
      [.submit ⟨7, 0, 5, .bid, .gtc, 0⟩, .submit ⟨7, 1, 5, .ask, .gtc, 0⟩]
    let e' : Engine (List Event) 2 2 .byId := play [] {} .zeroed
      [.submit ⟨7, 0, 5, .bid, .gtc, 0⟩, .submit ⟨8, 1, 5, .ask, .gtc, 0⟩]
    e.Consistent ∧ e'.Consistent ∧ e'.Indexed :=
  have h := play_consistent [] {} .zeroed (by decide) (by decide) (by decide)
    [.submit ⟨7, 0, 5, .bid, .gtc, 0⟩, .submit ⟨8, 1, 5, .ask, .gtc, 0⟩] (by decide)
  ⟨(play_consistent [] {} .zeroed (by decide) (by decide) (by decide) _ (by decide)).1, h.1,
    h.2 (by decide)⟩

end Engine
end Orderbooks
