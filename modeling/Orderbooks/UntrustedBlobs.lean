import Orderbooks.WarmStart

/-!
# Blobs from elsewhere

`restore` looks at each record by itself. What an accepted blob makes of the engine
therefore depends on what the records say together and on whether the header agrees
with them, which nothing checks: ids may repeat, sides may cross, a resting order may be
of any time in force, and the announced top may be another than that of the records.
Where the blob is consistent in itself, the engine is as after commands.

A refused blob leaves an empty engine. Only its configuration may have changed: a header
that fits is adopted before the records are read.
-/
namespace Orderbooks
open Runs

namespace Blob

/-- No id twice, nothing but resting orders, and every bid below every ask. -/
structure Bookish (rs : List SnapshotOrderRecord) : Prop where
  ids : (rs.map SnapshotOrderRecord.id).Nodup
  gtc : ∀ r ∈ rs, r.t = Tif.gtc.code
  uncrossed : ∀ bid ∈ rs, ∀ ask ∈ rs, bid.s = Side.bid.code → ask.s = Side.ask.code →
    bid.px < ask.px

instance : DecidablePred Bookish := fun rs =>
  decidable_of_iff ((rs.map SnapshotOrderRecord.id).Nodup ∧ (∀ r ∈ rs, r.t = Tif.gtc.code) ∧
      ∀ bid ∈ rs, ∀ ask ∈ rs, bid.s = Side.bid.code → ask.s = Side.ask.code → bid.px < ask.px)
    ⟨fun h => ⟨h.1, h.2.1, h.2.2⟩, fun h => ⟨h.ids, h.gtc, h.uncrossed⟩⟩

/-- The orders the records put at a price. -/
def ordersAt (rs : List SnapshotOrderRecord) (s : Side) (p : ℕ) : List Order :=
  (rs.map SnapshotOrderRecord.order).filter fun o => o.s = s ∧ o.px = p

/-- The top of the book the records describe. -/
def top (ticks : ℕ) (rs : List SnapshotOrderRecord) : Top :=
  .of (fun s => (s.priority ticks).find? fun p => !(ordersAt rs s p).isEmpty)
    fun s p => ((ordersAt rs s p).map Order.remaining).sum

end Blob

/-- The top a header announces. -/
def SnapshotHeader.last (hdr : SnapshotHeader) : Top :=
  ⟨hdr.lastBidPx.toNat, hdr.lastAskPx.toNat, hdr.lastBidQty, hdr.lastAskQty⟩

namespace Queues

variable {ticks : ℕ} {rs : List SnapshotOrderRecord} {l : List (ℕ × Order)}

theorem ordersAt_replay_records (hl : l.map Prod.snd = rs.map SnapshotOrderRecord.order)
    (hnodup : (l.map Prod.fst).Nodup) (s : Side) (p : ℕ) :
    (({} : Queues ticks).replay l).ordersAt s p = Blob.ordersAt rs s p := by
  rw [ordersAt_replay hnodup, hl]
  rfl

theorem top_replay (hl : l.map Prod.snd = rs.map SnapshotOrderRecord.order)
    (hnodup : (l.map Prod.fst).Nodup) :
    (({} : Queues ticks).replay l).top = Blob.top ticks rs := by
  have hempty : ∀ s p, ((({} : Queues ticks).replay l).levels s p).isEmpty =
      (Blob.ordersAt rs s p).isEmpty := fun s p => by
    have hat : (({} : Queues ticks).replay l).ordersAt s p = _ :=
      ordersAt_replay_records hl hnodup s p
    rw [← hat, ordersAt, List.isEmpty_map]
  unfold top best aggregateAt Blob.top
  simp only [hempty, ordersAt_replay_records hl hnodup]

theorem uncrossed_replay (hl : l.map Prod.snd = rs.map SnapshotOrderRecord.order)
    (hs : ∀ r ∈ rs, r.s ≤ Side.ask.code) (hb : Blob.Bookish rs) :
    (({} : Queues ticks).replay l).Uncrossed := by
  -- a resting order and the record it came from
  have hrecord : ∀ s p, (({} : Queues ticks).replay l).levels s p ≠ [] →
      ∃ r ∈ rs, r.s = s.code ∧ r.px.toNat = p := fun s p hne => by
    obtain ⟨u, hu⟩ := List.exists_mem_of_ne_nil _ hne
    obtain ⟨o, ho, rfl, rfl⟩ := mem_replay.mp hu
    have hmem : o ∈ l.map Prod.snd := List.mem_map_of_mem ho
    rw [hl] at hmem
    obtain ⟨r, hr, rfl⟩ := List.mem_map.mp hmem
    exact ⟨r, hr, (Side.code_ofCode (hs r hr)).symm, rfl⟩
  have hlt : ∀ p q, (({} : Queues ticks).replay l).levels .bid p ≠ [] →
      (({} : Queues ticks).replay l).levels .ask q ≠ [] → p < q := fun p q hp hq => by
    obtain ⟨r, hr, hrs, rfl⟩ := hrecord .bid p hp
    obtain ⟨r', hr', hrs', rfl⟩ := hrecord .ask q hq
    exact UInt32.lt_iff_toNat_lt.mp (hb.uncrossed r hr r' hr' hrs hrs')
  intro s p hp q hq
  cases s with
  | bid => simpa [Side.crosses] using hlt p q hp hq
  | ask => simpa [Side.crosses] using hlt q p hq hp

end Queues

namespace Engine

variable {P Q : Type} [Publisher P] [Publisher Q] {ticks maxOrders : ℕ} {lookup : OrderLookup}

/-! ## What is accepted -/

/-- If the records of an accepted blob are consistent with each other, the restored book is
one the engine could have written. -/
theorem restore_bookish (pub : P) (cfg : EngineConfig) (mem : Memory) (hc : 0 < maxOrders)
    (ht : ticks ≤ 64 ^ 4) (calls : List Call) (hcalls : ∀ c ∈ calls, c.InRange ticks)
    (blob : List UInt8) (hrs : ∀ rs ∈ Blob.records blob, Blob.Bookish rs)
    (hacc : ((calls.foldl call (new pub cfg mem :
      Engine P ticks maxOrders .byId)).restore blob).1 = true) :
    let e := ((calls.foldl call (new pub cfg mem :
      Engine P ticks maxOrders .byId)).restore blob).2
    e.Indexed ∧
      (∀ x y, e.book.Held x → e.book.Held y → (e.order x).id = (e.order y).id → x = y) ∧
      (∀ bid ask, (e.side .bid).best = some bid → (e.side .ask).best = some ask → bid < ask) ∧
      ∀ x, e.book.Held x → (e.order x).t = .gtc := by
  obtain ⟨p₁, b₁, h₁⟩ : ∃ p₁ b₁, (calls.foldl call (new pub cfg mem :
      Engine P ticks maxOrders .byId)).Refines p₁ b₁ := calls_refines pub cfg mem hc ht hcalls
  obtain ⟨rs, hadm⟩ := (h₁.restore_true_iff hc ht).mp hacc
  have hb := hrs rs hadm.records
  have hl := Blob.map_snd_numbered rs
  have hnodup := Blob.nodup_numbered rs
  obtain ⟨-, h⟩ := h₁.restore_accepts hc ht hadm hl hnodup
  intro e
  change e.Refines _ _ at h
  clear_value e
  have hexact : (({} : Queues ticks).replay (Blob.numbered rs)).Exact := by
    refine Queues.exact_replay hnodup (fun a ha => ?_) ?_
    · have hmem : a.2 ∈ (Blob.numbered rs).map Prod.snd := List.mem_map_of_mem ha
      rw [hl] at hmem
      obtain ⟨r, hr, heq⟩ := List.mem_map.mp hmem
      rw [← heq]
      exact (hadm.valid r hr).px
    · rw [show (fun a : ℕ × Order => a.2.id) = Order.id ∘ Prod.snd from rfl, ← List.map_map, hl,
        List.map_map]
      exact hb.ids
  refine ⟨h.indexed rfl hc hexact, fun x y hx hy hid => ?_, fun bid ask hbid hask => ?_,
    fun x hx => ?_⟩
  · have hindex := (h.indexed rfl hc hexact).lookup_id
    have := hindex x hx
    rw [hid, hindex y hy] at this
    exact (Option.some.inj this).symm
  · exact h.uncrossed (Queues.uncrossed_replay hl (fun r hr => (hadm.valid r hr).s) hb) hbid hask
  · obtain ⟨hd, tag, hrep⟩ := h
    obtain ⟨o, ho⟩ := (Queues.linked_replay hnodup).mp (hrep.book.linked hd hx)
    have heq : (({} : Queues ticks).replay (Blob.numbered rs)).orders (tag x) = o :=
      Queues.replay_orders hnodup ho
    have hmem : o ∈ (Blob.numbered rs).map Prod.snd := List.mem_map_of_mem ho
    rw [hl] at hmem
    obtain ⟨r, hr, rfl⟩ := List.mem_map.mp hmem
    rw [hrep.order_eq hx]
    change ((({} : Queues ticks).replay (Blob.numbered rs)).orders (tag x)).t = .gtc
    rw [heq, SnapshotOrderRecord.order, hb.gtc r hr]
    rfl

/-- Every record is an order that rests. -/
theorem Represents.exists_slot_of_record {p0 : P} {e : Engine P ticks maxOrders lookup}
    {hdr : SnapshotHeader} {l : List (ℕ × Order)} {tag : ℕ → ℕ} {pop : Side → Set ℕ}
    (h : e.Represents p0 (PriorityBook.restored maxOrders hdr l) tag pop)
    (hnodup : (l.map Prod.fst).Nodup) {u : ℕ} {o : Order} (hu : (u, o) ∈ l) :
    ∃ x, e.book.Held x ∧ tag x = u ∧ e.order x = o := by
  have hmem : u ∈ (({} : Queues ticks).replay l).levels o.s o.px :=
    Queues.mem_replay.mpr ⟨o, hu, rfl, rfl⟩
  obtain ⟨x, hx, rfl⟩ := h.book.exists_slot hmem
  refine ⟨x, ⟨_, _, hx⟩, rfl, (h.order_eq ⟨_, _, hx⟩).trans ?_⟩
  exact Queues.replay_orders hnodup hu

/-- What the restored book shows, its records say. -/
theorem Refines.bookish {p0 : P} {e : Engine P ticks maxOrders lookup} {hdr : SnapshotHeader}
    {rs : List SnapshotOrderRecord}
    (h : e.Refines p0 (PriorityBook.restored maxOrders hdr (Blob.numbered rs)))
    (hids : ∀ x y, e.book.Held x → e.book.Held y → (e.order x).id = (e.order y).id → x = y)
    (hbest : ∀ bid ask, (e.side .bid).best = some bid → (e.side .ask).best = some ask → bid < ask)
    (hgtc : ∀ x, e.book.Held x → (e.order x).t = .gtc) : Blob.Bookish rs := by
  obtain ⟨hd, tag, hrep⟩ := h
  have hl := Blob.map_snd_numbered rs
  have hnodup := Blob.nodup_numbered rs
  have hnumber : ∀ r ∈ rs, ∃ u, (u, r.order) ∈ Blob.numbered rs := fun r hr => by
    have hmem : r.order ∈ (Blob.numbered rs).map Prod.snd := by
      rw [hl]
      exact List.mem_map_of_mem hr
    obtain ⟨⟨u, o⟩, hu, rfl⟩ := List.mem_map.mp hmem
    exact ⟨u, hu⟩
  -- a level with a record has a best price that is no worse
  have hside : ∀ r ∈ rs, ∃ p, (e.side r.order.s).best = some p ∧
      r.order.s.better r.order.px p = false := fun r hr => by
    obtain ⟨u, hu⟩ := hnumber r hr
    have hne : (({} : Queues ticks).replay (Blob.numbered rs)).levels r.order.s r.order.px ≠ [] :=
      List.ne_nil_of_mem (Queues.mem_replay.mpr ⟨r.order, hu, rfl, rfl⟩)
    have hisBest := hd.isBest_best r.order.s
    rw [hrep.best_eq hd]
    cases hp : (PriorityBook.restored maxOrders hdr (Blob.numbered rs) :
        PriorityBook ticks).queues.best r.order.s with
    | none => exact absurd ((Queues.best_eq_none hd).mp hp _) hne
    | some p =>
        rw [hp] at hisBest
        exact ⟨p, rfl, hisBest.2 r.order.px hne⟩
  refine ⟨?_, fun r hr => ?_, fun bid hbid ask hask hs hs' => ?_⟩
  · have hmap : rs.map SnapshotOrderRecord.id = (Blob.numbered rs).map fun a => a.2.id := by
      rw [show (fun a : ℕ × Order => a.2.id) = Order.id ∘ Prod.snd from rfl, ← List.map_map, hl,
        List.map_map]
      rfl
    rw [hmap]
    refine hnodup.of_map.map_on fun a ha b hb hid => ?_
    obtain ⟨x, hx, hxu, hxo⟩ := hrep.exists_slot_of_record hnodup ha
    obtain ⟨y, hy, hyu, hyo⟩ := hrep.exists_slot_of_record hnodup hb
    obtain rfl : x = y := hids x y hx hy (by rw [hxo, hyo, hid])
    exact Prod.ext (hxu.symm.trans hyu) (hxo.symm.trans hyo)
  · obtain ⟨u, hu⟩ := hnumber r hr
    obtain ⟨x, hx, -, horder⟩ := hrep.exists_slot_of_record hnodup hu
    have ht := hgtc x hx
    rw [horder] at ht
    exact Tif.eq_gtc_code ht
  · obtain ⟨p, hp, hle⟩ := hside bid hbid
    obtain ⟨q, hq, hle'⟩ := hside ask hask
    have hbidSide : bid.order.s = .bid := (congrArg Side.ofCode hs).trans (Side.ofCode_code _)
    have haskSide : ask.order.s = .ask := (congrArg Side.ofCode hs').trans (Side.ofCode_code _)
    rw [hbidSide] at hp hle
    rw [haskSide] at hq hle'
    have hlt := hbest p q hp hq
    have hpx : bid.order.px ≤ p := by simpa [Side.better] using hle
    have hpx' : q ≤ ask.order.px := by simpa [Side.better] using hle'
    exact UInt32.lt_iff_toNat_lt.mpr (hpx.trans_lt (hlt.trans_le hpx'))

/-- The restored book is one the engine could have written if and only if the records of the
accepted blob are consistent with each other. -/
theorem restore_bookish_iff (pub : P) (cfg : EngineConfig) (mem : Memory) (hc : 0 < maxOrders)
    (ht : ticks ≤ 64 ^ 4) (calls : List Call) (hcalls : ∀ c ∈ calls, c.InRange ticks)
    (blob : List UInt8)
    (hacc : ((calls.foldl call (new pub cfg mem :
      Engine P ticks maxOrders .byId)).restore blob).1 = true) :
    let e := ((calls.foldl call (new pub cfg mem :
      Engine P ticks maxOrders .byId)).restore blob).2
    (e.Indexed ∧
      (∀ x y, e.book.Held x → e.book.Held y → (e.order x).id = (e.order y).id → x = y) ∧
      (∀ bid ask, (e.side .bid).best = some bid → (e.side .ask).best = some ask → bid < ask) ∧
      ∀ x, e.book.Held x → (e.order x).t = .gtc) ↔
      ∀ rs ∈ Blob.records blob, Blob.Bookish rs := by
  intro e
  refine ⟨fun ⟨_, hids, hbest, hgtc⟩ rs hrs => ?_, fun hrs =>
    restore_bookish pub cfg mem hc ht calls hcalls blob hrs hacc⟩
  obtain ⟨p₁, b₁, h₁⟩ : ∃ p₁ b₁, (calls.foldl call (new pub cfg mem :
      Engine P ticks maxOrders .byId)).Refines p₁ b₁ := calls_refines pub cfg mem hc ht hcalls
  obtain ⟨rs', hadm⟩ := (h₁.restore_true_iff hc ht).mp hacc
  obtain rfl : rs' = rs := Option.some.inj (hadm.records.symm.trans hrs)
  obtain ⟨-, h⟩ := h₁.restore_accepts hc ht hadm (Blob.map_snd_numbered rs')
    (Blob.nodup_numbered rs')
  exact h.bookish hids hbest hgtc

/-- A bid and an ask under ids of their own, read by an engine that holds an order. -/
theorem restore_bookish_two_sided :
    let e : Engine (List Event) 2 2 .byId :=
      [Call.command (.submit ⟨9, 0, 1, .bid, .gtc, 0⟩)].foldl call (new [] {} .zeroed)
    let blob := ({ ticks := 2, maxOrders := 2, numOrders := 2 } : SnapshotHeader).bytes ++
      SnapshotOrderRecord.emit (fun _ => 0) [⟨8, 5, 1, 1, 0, 0⟩, ⟨7, 3, 0, 0, 0, 0⟩]
    (e.restore blob).1 = true ∧ (e.restore blob).2.Indexed ∧
      ∀ x, (e.restore blob).2.book.Held x → ((e.restore blob).2.order x).t = .gtc :=
  have hacc : (([Call.command (.submit ⟨9, 0, 1, .bid, .gtc, 0⟩)].foldl call
      (new [] {} .zeroed : Engine (List Event) 2 2 .byId)).restore
      (({ ticks := 2, maxOrders := 2, numOrders := 2 } : SnapshotHeader).bytes ++
        SnapshotOrderRecord.emit (fun _ => 0)
          [⟨8, 5, 1, 1, 0, 0⟩, ⟨7, 3, 0, 0, 0, 0⟩])).1 = true := by
    decide +kernel
  have h := (restore_bookish_iff [] {} .zeroed (by decide) (by decide) _ (by decide) _ hacc).mpr
    (by decide +kernel)
  ⟨hacc, h.1, h.2.2.2⟩

/-- One id on both sides of a crossed book, the bid immediate-or-cancel: each record passes
its checks. -/
theorem restore_accepts_crossed :
    let blob := ({ ticks := 2, maxOrders := 2, numOrders := 2 } : SnapshotHeader).bytes ++
      SnapshotOrderRecord.emit (fun _ => 0) [⟨7, 5, 1, 0, 1, 0⟩, ⟨7, 3, 0, 1, 0, 0⟩]
    let r := (new [] {} .zeroed : Engine (List Event) 2 2 .byId).restore blob
    r.1 = true ∧ (r.2.side .bid).best = some 1 ∧ (r.2.side .ask).best = some 0 ∧
      (((r.2.side .bid).levels 1).fifo.map fun x => ((r.2.order x).id, (r.2.order x).t)) =
        [(7, .ioc)] ∧
      (((r.2.side .ask).levels 0).fifo.map fun x => (r.2.order x).id) = [7] := by
  decide +kernel

/-! ## What is refused -/

/-- Nothing rests, nothing is indexed, no slot is in use, and the counters are those of a
new engine. -/
structure Blank (e : Engine P ticks maxOrders lookup) (cfg₀ : EngineConfig) : Prop where
  cfg : e.cfg = cfg₀
  levels : ∀ s p, (e.side s).levels p = {}
  bits : ∀ s p, (e.side s).bm.test p = false
  best : ∀ s, (e.side s).best = none
  inUse : e.book.arena.inUse = 0
  state : e.state = { seq := cfg₀.seqBase }
  index : lookup = .byId → e.book.idx.size = 0 ∧ ∀ id ≠ emptyKey, e.book.idx.lookup id = none

theorem Refines.blank {p0 : P} {e : Engine P ticks maxOrders lookup} {cfg : EngineConfig}
    (h : e.Refines p0 (PriorityBook.new cfg maxOrders)) (hc : 0 < maxOrders)
    (hcfg : e.cfg = cfg) : e.Blank cfg := by
  obtain ⟨hd, tag, h⟩ := h
  refine ⟨hcfg, fun s p => ?_, fun s p => ?_, fun s => ?_, h.book.live, h.state, fun hi => ?_⟩
  · have hfifo : ((e.side s).levels p).fifo = [] := (h.book.eq_nil_iff s p).mp rfl
    have hagg : ((e.side s).levels p).aggregate = 0 := (h.book.level s p).aggregate
    calc (e.side s).levels p
        = ⟨((e.side s).levels p).aggregate, ((e.side s).levels p).fifo⟩ := rfl
      _ = {} := by rw [hfifo, hagg]
  · refine Bool.eq_false_iff.mpr fun hbit => ?_
    exact ((h.book.ladder s).bitmap.test_eq p).mp hbit rfl
  · exact (h.best_eq hd s).trans ((Queues.best_eq_none hd).mpr fun _ => rfl)
  · obtain ⟨_, _, _, m, hm, hidx, _⟩ := h.book.index hi
    have hnone : m = fun _ => none := funext fun k => Option.map_eq_none_iff.mp (hidx k).symm
    refine ⟨?_, fun id hid => ?_⟩
    · obtain ⟨S, hcard, hS⟩ := hm.sized
      rw [← hcard, Finset.card_eq_zero]
      exact Finset.eq_empty_of_forall_notMem fun k hk => (hS k).mp hk (by rw [hnone])
    · exact Option.map_eq_none_iff.mp (h.book.lookup_eq hd hi hc hid).1

/-- A refused blob whose header, if it fits, agrees with the configuration leaves the engine
as new, with nothing published, and an engine that looks orders up by id runs like a new one
from then on. -/
theorem restore_resets (pub : P) (cfg : EngineConfig) (mem : Memory) (hc : 0 < maxOrders)
    (ht : ticks ≤ 64 ^ 4) (calls : List Call) (hcalls : ∀ c ∈ calls, c.InRange ticks)
    (blob : List UInt8)
    (hrej : ((calls.foldl call (new pub cfg mem :
      Engine P ticks maxOrders lookup)).restore blob).1 = false)
    (hdr : SnapshotHeader.size ≤ blob.length → (Blob.header blob).Fits ticks maxOrders →
      (Blob.header blob).selfCross = (calls.foldl call (new pub cfg mem :
        Engine P ticks maxOrders lookup)).cfg.selfCross.code ∧
      ((Blob.header blob).topThrottle != 0) = (calls.foldl call (new pub cfg mem :
        Engine P ticks maxOrders lookup)).cfg.topThrottle) :
    let e : Engine P ticks maxOrders lookup := calls.foldl call (new pub cfg mem)
    let e' := (e.restore blob).2
    e'.Blank e.cfg ∧ e'.pub = e.pub ∧
      (lookup = .byId → ∀ (pub₀ : Q) (mem₀ : Memory) (more : List Command),
        (∀ cmd ∈ more, cmd.InRange ticks) →
        let e₀ : Engine Q ticks maxOrders lookup := new pub₀ e.cfg mem₀
        (∀ pad, (more.foldl apply e').snapshot pad = (more.foldl apply e₀).snapshot pad) ∧
        ∃ evs : List Event, (more.foldl apply e₀).pub = evs.foldl Publisher.publish pub₀ ∧
          (more.foldl apply e').pub = evs.foldl Publisher.publish e.pub) := by
  intro e e'
  obtain ⟨p₁, b, h⟩ : ∃ p₁ b, e.Refines p₁ b := calls_refines pub cfg mem hc ht hcalls
  have hbad : ∀ rs, ¬ Blob.Admissible ticks maxOrders e.cfg.maxOrderQty blob rs := fun rs hadm => by
    have htrue := (h.restore_true_iff hc ht).mpr ⟨rs, hadm⟩
    rw [show (e.restore blob).1 = false from hrej] at htrue
    exact Bool.false_ne_true htrue
  obtain ⟨e₁, heq, hpub, ⟨p₂, b₁, h₁⟩, hcfg⟩ := h.restore_rejects hc ht hbad
  have hcfg₁ : e₁.cfg = e.cfg := by
    rcases hcfg with ⟨-, hcfg⟩ | ⟨hsize, hfits, hcfg⟩
    · exact hcfg
    · obtain ⟨hself, hthrottle⟩ := hdr hsize hfits
      rw [hcfg, hself, hthrottle, SelfCrossPolicy.ofCode_code]
  obtain ⟨hclear, hclearCfg, hclearPub⟩ := h₁.clearState hc ht
  have he' : e' = e₁.clearState := congrArg Prod.snd heq
  rw [he']
  rw [hcfg₁] at hclear
  rw [hpub] at hclear
  refine ⟨hclear.blank hc (hclearCfg.trans hcfg₁), hclearPub.trans hpub, ?_⟩
  intro hi pub₀ mem₀ more hmore
  obtain ⟨hsnap, hpub⟩ := (new_refines pub₀ e.cfg mem₀ hc).continue_alike hclear hi hc ht hmore
  exact ⟨fun pad => (hsnap pad pad).mpr fun _ _ => rfl, hpub⟩

/-- A refused blob leaves the engine as new if and only if its header, if it fits, agrees with
the configuration. -/
theorem restore_resets_iff (pub : P) (cfg : EngineConfig) (mem : Memory) (hc : 0 < maxOrders)
    (ht : ticks ≤ 64 ^ 4) (calls : List Call) (hcalls : ∀ c ∈ calls, c.InRange ticks)
    (blob : List UInt8)
    (hrej : ((calls.foldl call (new pub cfg mem :
      Engine P ticks maxOrders lookup)).restore blob).1 = false) :
    let e : Engine P ticks maxOrders lookup := calls.foldl call (new pub cfg mem)
    let e' := (e.restore blob).2
    (e'.Blank e.cfg ∧ e'.pub = e.pub ∧
      (lookup = .byId → ∀ (pub₀ : Q) (mem₀ : Memory) (more : List Command),
        (∀ cmd ∈ more, cmd.InRange ticks) →
        let e₀ : Engine Q ticks maxOrders lookup := new pub₀ e.cfg mem₀
        (∀ pad, (more.foldl apply e').snapshot pad = (more.foldl apply e₀).snapshot pad) ∧
        ∃ evs : List Event, (more.foldl apply e₀).pub = evs.foldl Publisher.publish pub₀ ∧
          (more.foldl apply e').pub = evs.foldl Publisher.publish e.pub)) ↔
      (SnapshotHeader.size ≤ blob.length → (Blob.header blob).Fits ticks maxOrders →
        (Blob.header blob).selfCross = e.cfg.selfCross.code ∧
        ((Blob.header blob).topThrottle != 0) = e.cfg.topThrottle) := by
  intro e e'
  refine ⟨fun ⟨hblank, _⟩ hsize hfits => ?_,
    restore_resets pub cfg mem hc ht calls hcalls blob hrej⟩
  obtain ⟨p₁, b, h⟩ : ∃ p₁ b, e.Refines p₁ b := calls_refines pub cfg mem hc ht hcalls
  obtain ⟨e₁, heq, -, ⟨p₂, b₁, h₁⟩, hcfg⟩ := h.restore_rejects hc ht fun rs hadm =>
    Bool.false_ne_true (hrej.symm.trans ((h.restore_true_iff hc ht).mpr ⟨rs, hadm⟩))
  have hcfg₁ : e₁.cfg = e.cfg := by
    have he' : e' = e₁.clearState := congrArg Prod.snd heq
    rw [← (h₁.clearState hc ht).2.1, ← he']
    exact hblank.cfg
  rcases hcfg with ⟨hunfit, -⟩ | ⟨-, -, hcfg⟩
  · exact absurd ⟨hsize, hfits⟩ hunfit
  · rw [← hcfg₁, hcfg]
    exact ⟨(SelfCrossPolicy.code_ofCode hfits.selfCross).symm, rfl⟩

/-- A header that fits and agrees, and a record that is missing. -/
theorem restore_resets_short :
    let e : Engine (List Event) 2 2 .byId :=
      [Call.command (.submit ⟨9, 0, 1, .bid, .gtc, 0⟩)].foldl call (new [] {} .zeroed)
    let blob := ({ ticks := 2, maxOrders := 2, topThrottle := 1, numOrders := 1 } :
      SnapshotHeader).bytes
    (e.restore blob).1 = false ∧ (e.restore blob).2.Blank e.cfg :=
  have hrej : (([Call.command (.submit ⟨9, 0, 1, .bid, .gtc, 0⟩)].foldl call
      (new [] {} .zeroed : Engine (List Event) 2 2 .byId)).restore
      ({ ticks := 2, maxOrders := 2, topThrottle := 1, numOrders := 1 } :
        SnapshotHeader).bytes).1 = false := by
    decide +kernel
  ⟨hrej, ((restore_resets_iff (Q := List Event) [] {} .zeroed (by decide) (by decide) _ (by decide)
    _ hrej).mpr fun _ _ => by decide +kernel).1⟩

/-- The same with another policy and the throttle off: the blob is refused and its
configuration stays. -/
theorem restore_keeps_config :
    let e : Engine (List Event) 2 2 .byId := new [] {} .zeroed
    let blob := ({ ticks := 2, maxOrders := 2, selfCross := 2, numOrders := 1 } :
      SnapshotHeader).bytes
    (e.restore blob).1 = false ∧ e.cfg.selfCross = .cancelNewest ∧ e.cfg.topThrottle = true ∧
      (e.restore blob).2.cfg.selfCross = .decrementTrade ∧
      (e.restore blob).2.cfg.topThrottle = false := by
  decide +kernel

/-! ## The announced top -/

/-- A header that announces the top of its records leaves a quiet machine. -/
theorem restored_quiet {hdr : SnapshotHeader} {rs : List SnapshotOrderRecord}
    {l : List (ℕ × Order)} (hl : l.map Prod.snd = rs.map SnapshotOrderRecord.order)
    (hnodup : (l.map Prod.fst).Nodup) (hhave : hdr.haveTop ≠ 0)
    (hlast : hdr.last = Blob.top ticks rs) :
    (PriorityBook.restored maxOrders hdr l : PriorityBook ticks).Quiet := by
  refine ⟨rfl, rfl, ?_, fun s => by cases s <;> rfl, fun hfresh => ?_⟩
  · exact hlast.trans (Queues.top_replay hl hnodup).symm
  · have hset : (hdr.haveTop != 0) = false := hfresh
    simp [hhave] at hset

/-- After an accepted blob with the throttle on, whose header announces the top of its own
records, every command that changes the top publishes it. A side without orders counts as
price and quantity zero, as in the message. -/
theorem restore_tops (cfg : EngineConfig) (mem : Memory) (hc : 0 < maxOrders)
    (ht : ticks ≤ 64 ^ 4) (calls : List Call) (hcalls : ∀ c ∈ calls, c.InRange ticks)
    (blob : List UInt8)
    (hacc : ((calls.foldl call (new [] cfg mem :
      Engine (List Event) ticks maxOrders lookup)).restore blob).1 = true)
    (hthrottle : (Blob.header blob).topThrottle ≠ 0) (hhave : (Blob.header blob).haveTop ≠ 0)
    (hlast : ∀ rs ∈ Blob.records blob, (Blob.header blob).last = Blob.top ticks rs)
    (cmds : List Command) (cmd : Command) (hcmds : ∀ c ∈ cmds, c.InRange ticks)
    (hcmd : cmd.InRange ticks) :
    let e : Engine (List Event) ticks maxOrders lookup :=
      cmds.foldl apply ((calls.foldl call (new [] cfg mem)).restore blob).2
    (e.apply cmd).top ≠ e.top → ∃ (evs : List Event) (m : TopMsg),
      (e.apply cmd).pub = e.pub ++ evs ++ [.top m] ∧ m.top = (e.apply cmd).top := by
  intro e hchange
  obtain ⟨p₁, b₁, h₁⟩ : ∃ p₁ b₁, (calls.foldl call (new [] cfg mem :
      Engine (List Event) ticks maxOrders lookup)).Refines p₁ b₁ :=
    calls_refines [] cfg mem hc ht hcalls
  obtain ⟨rs, hadm⟩ := (h₁.restore_true_iff hc ht).mp hacc
  have hl := Blob.map_snd_numbered rs
  have hnodup := Blob.nodup_numbered rs
  obtain ⟨-, h₂⟩ := h₁.restore_accepts hc ht hadm hl hnodup
  have hquiet : (PriorityBook.restored maxOrders (Blob.header blob) (Blob.numbered rs) :
      PriorityBook ticks).Quiet := restored_quiet hl hnodup hhave (hlast rs hadm.records)
  obtain ⟨b, h, hq, hth⟩ := h₂.run (fun _ cmd => cmd.InRange ticks)
    (fun b => b.Quiet ∧ b.topThrottle = true) hc ht (fun _ _ h => h)
    (fun e b cmd target h hI hr hreach =>
      have htick := hI.1.applyAt h.1 (h.effect hreach).1 hr
      ⟨htick.quiet, htick.throttle.trans hI.2⟩)
    ⟨hquiet, by simpa [PriorityBook.restored, PriorityBook.seedSides, PriorityBook.onQueues,
      PriorityBook.ofHeader] using hthrottle⟩ (along_of_forall hcmds)
  change e.Refines _ b at h
  clear_value e
  obtain ⟨target, hreach, h'⟩ := h.apply hc ht hcmd
  obtain ⟨evs, msg, hlog, _, hmsg, hon, _⟩ := (hq.applyAt h.1 (h.effect hreach).1 hcmd).log
  rw [h'.top_eq, h.top_eq] at hchange
  obtain ⟨m, rfl⟩ := Option.isSome_iff_exists.mp ((hon hth).mpr hchange)
  refine ⟨evs, m, ?_, (hmsg m rfl).trans h'.top_eq.symm⟩
  rw [h'.pub_eq, hlog, h.pub_eq]
  simp

/-- A header that announces five bid at price one, over one record. -/
def oneBid (r : SnapshotOrderRecord) : List UInt8 :=
  SnapshotHeader.bytes
    { ticks := 2
      maxOrders := 2
      topThrottle := 1
      lastBidPx := 1
      lastBidQty := 5
      haveTop := 1
      numOrders := 1 } ++ r.bytes 0

/-- The bid is where the header says, and is cancelled. -/
theorem restore_tops_one_bid :
    let e : Engine (List Event) 2 2 .byId := [].foldl apply
      (([Call.command (.submit ⟨9, 0, 1, .bid, .gtc, 0⟩)].foldl call
        (new [] {} .zeroed)).restore (oneBid ⟨7, 5, 1, 0, 0, 0⟩)).2
    (e.apply (.cancel ⟨7, {}⟩)).top ≠ e.top ∧ ∃ (evs : List Event) (m : TopMsg),
      (e.apply (.cancel ⟨7, {}⟩)).pub = e.pub ++ evs ++ [.top m] ∧
        m.top = (e.apply (.cancel ⟨7, {}⟩)).top := by
  intro e
  have hchange : (e.apply (.cancel ⟨7, {}⟩)).top ≠ e.top := by decide +kernel
  exact ⟨hchange, restore_tops {} .zeroed (by decide) (by decide) _ (by decide) _
    (by decide +kernel) (by decide +kernel) (by decide +kernel) (by decide +kernel) _ _ (by decide)
    (by decide) hchange⟩

/-- It rests one price below: its cancel empties the book and publishes nothing. -/
theorem restore_loses_top :
    let r := (new [] {} .zeroed : Engine (List Event) 2 2 .byId).restore
      (oneBid ⟨7, 5, 0, 0, 0, 0⟩)
    let e := r.2.apply (.cancel ⟨7, {}⟩)
    r.1 = true ∧ r.2.top = ⟨0, 0, 5, 0⟩ ∧ e.top = ⟨0, 0, 0, 0⟩ ∧ e.pub = [] := by
  decide +kernel

end Engine
end Orderbooks
