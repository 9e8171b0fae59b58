import Orderbooks.Listing
import Orderbooks.Refinement
import Orderbooks.Snapshot

/-!
# Snapshots of the priority machine

What an engine writes depends on the machine it stands for and on nothing else,
and an engine that has read a blob stands for the machine the blob describes. The
numbers the replayed orders go by are free: the reader may be told any that are
all different.

A blob is admissible if its header fits the engine, if the records it announces
are there, and if each passes the field checks and finds a slot. These are exactly
the blobs that are accepted; every other one leaves a cleared engine.
-/
namespace Orderbooks
open Loop

/-! ## Walking the levels of a side -/

namespace BookSide

variable {ticks : ℕ} {bs : BookSide ticks} {S : Set ℕ}

theorem levelsFrom_eq (h : bs.bm.Represents S) (ht : ticks ≤ 64 ^ 4) {q : ℕ → Bool}
    (hq : ∀ p, q p = true ↔ p ∈ S) (fuel : ℕ) : ∀ start, ticks < start + fuel →
      bs.levelsFrom fuel (bs.nextPopulatedAtOrAfter start) =
        (List.range' start (ticks - start)).filter q := by
  induction fuel with
  | zero =>
      intro start hlt
      rw [show ticks - start = 0 by omega]
      rfl
  | succ n ih =>
      intro start hfuel
      have hn : WordTiers.IsNext S start (bs.nextPopulatedAtOrAfter start) :=
        h.nextSetAtOrAfter_isNext ht start
      cases hr : bs.nextPopulatedAtOrAfter start with
      | none =>
          rw [hr] at hn
          symm
          refine List.filter_eq_nil_iff.mpr fun p hp hqp => ?_
          have := hn p ((hq p).mp hqp)
          have := (List.mem_range'_1.mp hp).1
          omega
      | some px =>
          rw [hr] at hn
          obtain ⟨⟨hmem, hle⟩, hleast⟩ := hn
          have hlt := h.bound px hmem
          have hsplit : List.range' start (ticks - start) = List.range' start (px - start) ++
              px :: List.range' (px + 1) (ticks - (px + 1)) := by
            rw [← List.range'_succ, show px = start + (px - start) by omega,
              Nat.add_sub_cancel_left, List.range'_append_1]
            congr 1
            omega
          -- nothing rests between the start and the level found
          have hgap : (List.range' start (px - start)).filter q = [] := by
            refine List.filter_eq_nil_iff.mpr fun p hp hqp => ?_
            have := List.mem_range'_1.mp hp
            have : px ≤ p := hleast ⟨(hq p).mp hqp, this.1⟩
            omega
          rw [levelsFrom, ih (px + 1) (by omega), hsplit, List.filter_append, hgap,
            List.filter_cons, if_pos ((hq px).mpr hmem), List.nil_append]

/-- The levels visited are the populated ones, ascending. -/
theorem forEachLevel_eq (h : bs.bm.Represents S) (ht : ticks ≤ 64 ^ 4) {q : ℕ → Bool}
    (hq : ∀ p, q p = true ↔ p ∈ S) : bs.forEachLevel = (List.range ticks).filter q := by
  rw [List.range_eq_range']
  exact levelsFrom_eq h ht hq (ticks + 1) 0 (by omega)

end BookSide

/-! ## The machine's side -/

namespace PriorityBook

variable {ticks : ℕ}

def snapshotHeader (b : PriorityBook ticks) : SnapshotHeader where
  ticks := .ofNat ticks
  maxOrders := .ofNat b.capacity
  selfCross := b.selfCross.code
  topThrottle := flagByte b.topThrottle
  seq := b.state.seq
  lastBidPx := .ofNat b.state.lastBidPx
  lastAskPx := .ofNat b.state.lastAskPx
  lastBidQty := b.state.lastBidQty
  lastAskQty := b.state.lastAskQty
  haveTop := flagByte b.state.haveTop
  numOrders := .ofNat b.queues.listing.length

/-- The records of the resting orders, as they stand in the listing. -/
def records (b : PriorityBook ticks) : List SnapshotOrderRecord :=
  (b.queues.listing.map b.order).map fun o => .ofOrder o.s o

def snapshot (b : PriorityBook ticks) (pad : ℕ → UInt32) : List UInt8 :=
  b.snapshotHeader.bytes ++ SnapshotOrderRecord.emit pad b.records

/-- The empty machine a header describes. -/
def ofHeader (capacity : ℕ) (hdr : SnapshotHeader) : PriorityBook ticks where
  selfCross := .ofCode hdr.selfCross
  topThrottle := hdr.topThrottle != 0
  capacity := capacity
  state := {
    seq := hdr.seq
    lastBidPx := hdr.lastBidPx.toNat
    lastAskPx := hdr.lastAskPx.toNat
    lastBidQty := hdr.lastBidQty
    lastAskQty := hdr.lastAskQty
    haveTop := hdr.haveTop != 0 }

def seedSides (b : PriorityBook ticks) : PriorityBook ticks :=
  { b with
    state := { b.state with
      haveBidSide := (b.queues.best .bid).isSome
      haveAskSide := (b.queues.best .ask).isSome
      topDirty := false } }

/-- The machine a header and its orders describe. -/
def restored (capacity : ℕ) (hdr : SnapshotHeader) (l : List (ℕ × Order)) : PriorityBook ticks :=
  ((ofHeader capacity hdr).onQueues (·.replay l)).seedSides

end PriorityBook

/-! ## Admissible blobs -/

/-- What a record must say to be accepted. -/
structure SnapshotOrderRecord.Valid (ticks : ℕ) (maxQty : UInt64) (r : SnapshotOrderRecord) :
    Prop where
  id : ValidId r.id
  px : r.px.toNat < ticks
  s : r.s ≤ Side.ask.code
  t : r.t ≤ Tif.fok.code
  open_qty : r.remaining ≠ 0
  capped : r.remaining ≤ maxQty

/-- What a header must say to be accepted. -/
structure SnapshotHeader.Fits (ticks maxOrders : ℕ) (hdr : SnapshotHeader) : Prop where
  magic : hdr.magic = magicBytes
  version : hdr.version = wireVersion
  ticks : hdr.ticks.toNat = ticks
  maxOrders : hdr.maxOrders.toNat = maxOrders
  selfCross : hdr.selfCross ≤ SelfCrossPolicy.decrementTrade.code

namespace Blob

/-- The next `n` records, if there are as many. -/
def readRecords : ℕ → List UInt8 → Option (List SnapshotOrderRecord)
  | 0, _ => some []
  | n + 1, src => (readBytes SnapshotOrderRecord.size src).bind fun (bytes, src) =>
      (readRecords n src).map (.ofBytes bytes :: ·)

def header (blob : List UInt8) : SnapshotHeader := .ofBytes (blob.take SnapshotHeader.size)

/-- The records a blob announces, if they are all there. -/
def records (blob : List UInt8) : Option (List SnapshotOrderRecord) :=
  readRecords (header blob).numOrders.toNat (blob.drop SnapshotHeader.size)

/-- The blob has a fitting header and holds the records `rs`, all of them valid, and
no more than there are slots. -/
structure Admissible (ticks maxOrders : ℕ) (maxQty : UInt64) (blob : List UInt8)
    (rs : List SnapshotOrderRecord) : Prop where
  size : SnapshotHeader.size ≤ blob.length
  fits : (header blob).Fits ticks maxOrders
  records : records blob = some rs
  valid : ∀ r ∈ rs, r.Valid ticks maxQty
  room : rs.length ≤ maxOrders

theorem readRecords_cons {n : ℕ} {src : List UInt8} {bytes rest : List UInt8}
    (h : readBytes SnapshotOrderRecord.size src = some (bytes, rest)) :
    readRecords (n + 1) src = (readRecords n rest).map (.ofBytes bytes :: ·) := by
  rw [readRecords, h, Option.bind_some]

theorem readRecords_emit (pad : ℕ → UInt32) (rs : List SnapshotOrderRecord) (tail : List UInt8) :
    readRecords rs.length (SnapshotOrderRecord.emit pad rs ++ tail) = some rs := by
  induction rs generalizing pad with
  | nil => rfl
  | cons r rs ih =>
      rw [SnapshotOrderRecord.emit_cons, List.append_assoc, List.length_cons,
        readRecords_cons (readBytes_append (r.length_bytes _) _), ih, Option.map_some,
        r.ofBytes_bytes]

/-- The orders of the records, numbered as they come. -/
def numbered (rs : List SnapshotOrderRecord) : List (ℕ × Order) :=
  (List.range rs.length).zip (rs.map SnapshotOrderRecord.order)

theorem map_snd_numbered (rs : List SnapshotOrderRecord) :
    (numbered rs).map Prod.snd = rs.map SnapshotOrderRecord.order :=
  List.map_snd_zip (by simp)

theorem nodup_numbered (rs : List SnapshotOrderRecord) : ((numbered rs).map Prod.fst).Nodup := by
  rw [numbered, List.map_fst_zip (by simp)]
  exact List.nodup_range

end Blob

/-- Queues that say the same are stored alike. -/
theorem Book.Stores.alike {ticks maxOrders : ℕ} {generations : Bool}
    {bk : Book ticks maxOrders generations} {indexed : Prop} {d d' : Queues ticks} {tag : ℕ → ℕ}
    {pop : Side → Set ℕ} (h : bk.Stores indexed d tag pop) (ha : Queues.Alike d d') :
    bk.Stores indexed d' tag pop := by
  refine ⟨h.ladder, fun s p => ?_, fun x hx => ?_, h.inj, h.live.trans ha.live.symm, h.free,
    fun hi => ?_⟩
  · rw [ha.levels]
    exact (h.level s p).congr (ha.orders s p) fun _ _ => rfl
  · obtain ⟨s, p, hx'⟩ := hx
    rw [h.cell x ⟨s, p, hx'⟩, ha.orders s p _ (h.mem_levels hx')]
  · obtain ⟨hasserts, hmask, hids, m, hm, hidx, hheld⟩ := h.index hi
    refine ⟨hasserts, hmask, fun s p u hu => ?_, m, hm, fun k => ?_, hheld⟩
    · rw [ha.levels] at hu
      rw [ha.orders s p u hu]
      exact hids s p u hu
    · rw [ha.index]
      exact hidx k

namespace Engine

variable {P : Type} [Publisher P] {ticks maxOrders : ℕ} {lookup : OrderLookup} {p0 : P}
  {e : Engine P ticks maxOrders lookup} {b : PriorityBook ticks} {tag : ℕ → ℕ} {s : Side}
  {px x u : ℕ}

/-! ## Writing -/

namespace Represents

variable (h : e.Represents p0 b tag b.queues.populated)
include h

/-- What the populated levels hold is what all the levels hold. -/
theorem flatMap_forEachLevel {β : Type} (ht : ticks ≤ 64 ^ 4) (s : Side) (f : ℕ → List β) :
    (e.side s).forEachLevel.flatMap (fun p => (b.queues.levels s p).flatMap f) =
      ((List.range ticks).flatMap (b.queues.levels s)).flatMap f := by
  rw [BookSide.forEachLevel_eq (q := fun p => !(b.queues.levels s p).isEmpty)
    (h.book.ladder s).bitmap ht (fun p => by simp [Queues.populated]), List.flatMap_assoc]
  refine flatMap_filter_of_nil (fun p hp => ?_) _
  have hnil : b.queues.levels s p = [] := by simpa using hp
  rw [hnil, List.flatMap_nil]

theorem emitSide_eq (hd : b.queues.WellFormed) (ht : ticks ≤ 64 ^ 4) (s : Side) :
    e.emitSide s = ((List.range ticks).flatMap (b.queues.levels s)).map fun u =>
      .ofOrder (b.order u).s (b.order u) := by
  rw [List.map_eq_flatMap, ← h.flatMap_forEachLevel ht]
  refine List.flatMap_congr fun p _ => ?_
  rw [(h.book.level s p).fifo, List.flatMap_map, List.map_eq_flatMap]
  refine List.flatMap_congr fun x hx => ?_
  have hplace : (b.order (tag x)).s = s := (h.book.place hd hx).1
  rw [h.order_eq ⟨s, p, hx⟩, hplace]

theorem records_eq (hd : b.queues.WellFormed) (ht : ticks ≤ 64 ^ 4) : e.records = b.records := by
  have hlisting : b.queues.listing = (List.range ticks).flatMap (b.queues.levels .bid) ++
      (List.range ticks).flatMap (b.queues.levels .ask) := by
    simp [Queues.listing]
  unfold records PriorityBook.records
  rw [h.emitSide_eq hd ht, h.emitSide_eq hd ht, List.map_map, hlisting, List.map_append]
  rfl

theorem countResting_eq (ht : ticks ≤ 64 ^ 4) :
    e.countResting = UInt64.ofNat b.queues.listing.length := by
  have hfold : ∀ (f : ℕ → ℕ) (l : List ℕ) (c : ℕ),
      l.foldl (fun count px => count + UInt64.ofNat (f px)) (UInt64.ofNat c) =
        UInt64.ofNat (c + (l.map f).sum) := fun f l => by
    induction l with
    | nil => simp
    | cons p l ih =>
        intro c
        rw [List.foldl_cons, ← UInt64.ofNat_add, ih, List.map_cons, List.sum_cons, Nat.add_assoc]
  have hcount : ∀ s, ((e.side s).forEachLevel.map fun p => ((e.side s).levelAt p).orderCount).sum =
      ((List.range ticks).flatMap (b.queues.levels s)).length := fun s => by
    have hlen : ∀ p, ((e.side s).levelAt p).orderCount = (b.queues.levels s p).length := fun p => by
      rw [(h.book.level s p).fifo, List.length_map]
      rfl
    have hall := h.flatMap_forEachLevel ht s fun u => [u]
    simp only [List.flatMap_singleton'] at hall
    rw [← hall, List.length_flatMap]
    simp only [hlen]
  unfold countResting Queues.listing
  have hzero : (0 : UInt64) = UInt64.ofNat 0 := rfl
  dsimp only
  rw [hzero, hfold, hfold, hcount, hcount]
  simp

theorem snapshot_eq (hd : b.queues.WellFormed) (ht : ticks ≤ 64 ^ 4) (pad : ℕ → UInt32) :
    e.snapshot pad = b.snapshot pad := by
  have hheader : e.snapshotHeader = b.snapshotHeader := by
    unfold snapshotHeader PriorityBook.snapshotHeader
    rw [h.countResting_eq ht, h.selfCross, h.topThrottle, h.capacity, h.state]
  unfold snapshot PriorityBook.snapshot
  rw [hheader, h.records_eq hd ht]

end Represents

theorem Refines.records_eq (h : e.Refines p0 b) (ht : ticks ≤ 64 ^ 4) : e.records = b.records := by
  obtain ⟨hd, tag, h⟩ := h
  exact Represents.records_eq h hd ht

theorem Refines.snapshot_eq (h : e.Refines p0 b) (ht : ticks ≤ 64 ^ 4) (pad : ℕ → UInt32) :
    e.snapshot pad = b.snapshot pad := by
  obtain ⟨hd, tag, h⟩ := h
  exact Represents.snapshot_eq h hd ht pad

/-! ## Clearing -/

namespace Represents

/-- A turn gives up the order at the front of the level. -/
theorem clearTurn (h : e.Represents p0 b tag b.queues.populated) (hd : b.queues.WellFormed)
    (hc : 0 < maxOrders) (ht : ticks ≤ 64 ^ 4) {xs : List ℕ}
    (hf : ((e.side s).levels px).fifo = x :: xs) :
    ∃ e', Engine.clearTurn s px e = .again e' ∧ e'.cfg = e.cfg ∧ e'.pub = e.pub ∧
      e'.Represents p0 (b.drop (tag x)) tag (b.queues.drop (tag x)).populated := by
  have hx : e.book.Held x := held_of_front _ hf
  have hs : (b.order (tag x)).s = s := (h.front_place hd hf).1
  have hturn : Engine.clearTurn s px e =
      .again (((e.setSide s ((e.side s).remove s x (e.order x))).unindex (e.order x).id).setArena
        (e.book.arena.deallocate (some x))) := by
    unfold Engine.clearTurn BookSide.levelAt
    rw [hf]
    dsimp only
    rw [unindex_arena, setSide_arena]
  have hctl : ∀ (e₁ : Engine P ticks maxOrders lookup) id,
      (e₁.unindex id).pub = e₁.pub ∧ (e₁.unindex id).cfg = e₁.cfg ∧
        (e₁.unindex id).state = e₁.state := fun e₁ id => by
    unfold unindex
    split_ifs <;> exact ⟨rfl, rfl, rfl⟩
  obtain ⟨hpub, hcfg, hst⟩ := hctl (e.setSide s ((e.side s).remove s x (e.order x)))
    (e.order x).id
  refine ⟨_, hturn, hcfg, hpub, ?_⟩
  refine h.removed hd hc ht hx (h.order_eq hx).symm hpub hcfg hst (fun t => ?_) rfl fun hi => ?_
  · rw [setArena_side, unindex_side, h.order_eq hx, hs]
  · change (((e.setSide s _).unindex _).book.idx) = _
    rw [unindex_idx _ hi, setSide_idx]

/-- The inner loop empties its level and touches no other. -/
theorem run_clearTurn (hc : 0 < maxOrders) (ht : ticks ≤ 64 ^ 4) (s : Side) (px : ℕ) (fuel : ℕ) :
    ∀ {e : Engine P ticks maxOrders lookup} {b : PriorityBook ticks},
      e.Represents p0 b tag b.queues.populated → b.queues.WellFormed →
      (b.queues.levels s px).length < fuel →
      ∃ d, (run (Engine.clearTurn s px) fuel e).Represents p0 (b.onQueues fun _ => d) tag
          d.populated ∧ d.WellFormed ∧ d.levels s px = [] ∧
        (∀ t r, b.queues.levels t r = [] → d.levels t r = []) ∧
        d.live + (b.queues.levels s px).length = b.queues.live ∧
        (run (Engine.clearTurn s px) fuel e).cfg = e.cfg ∧
        (run (Engine.clearTurn s px) fuel e).pub = e.pub := by
  induction fuel with
  | zero =>
      intro e b _ _ hlt
      omega
  | succ n ih =>
      intro e b h hd hlt
      cases hf : ((e.side s).levels px).fifo with
      | nil =>
          have hdone : Engine.clearTurn s px e = .done e := by
            unfold Engine.clearTurn BookSide.levelAt
            rw [hf]
          have hnil := (h.book.eq_nil_iff s px).mpr hf
          rw [run_done hdone]
          refine ⟨b.queues, h, hd, hnil, fun _ _ h => h, ?_, rfl, rfl⟩
          rw [hnil, List.length_nil, Nat.add_zero]
      | cons x xs =>
          obtain ⟨e', hturn, hcfg, hpub, h'⟩ := h.clearTurn hd hc ht hf
          have hfront := h.front_level hf
          have hlev : ∀ t r, (b.queues.drop (tag x)).levels t r =
              (b.queues.levels t r).erase (tag x) := fun t r => hd.unlink_levels_eq_erase
          have hrest : (b.queues.drop (tag x)).levels s px = xs.map tag := by
            rw [hlev, hfront, List.erase_cons_head]
          have hlive : (b.queues.drop (tag x)).live = b.queues.live - 1 := rfl
          have hpos := h.live_pos (s := s) (p := px) (by rw [hfront]; simp)
          rw [hfront, List.length_cons] at hlt
          obtain ⟨d, hrep, hwf, hnil, hframe, hcount, hcfg', hpub'⟩ := ih h' (hd.drop (tag x)) (by
            change ((b.queues.drop (tag x)).levels s px).length < n
            rw [hrest]
            omega)
          have hcount : d.live + (xs.map tag).length = b.queues.live - 1 := by
            rw [← hrest, ← hlive]
            exact hcount
          rw [run_again hturn]
          refine ⟨d, hrep, hwf, hnil, fun t r htr => hframe t r ?_, ?_, hcfg'.trans hcfg,
            hpub'.trans hpub⟩
          · change (b.queues.drop (tag x)).levels t r = []
            rw [hlev, htr]
            rfl
          · rw [hfront, List.length_cons]
            omega

/-- The outer loop empties its side and leaves the other as it was, if that was empty. -/
theorem run_clearSideTurn (hc : 0 < maxOrders) (ht : ticks ≤ 64 ^ 4) (s : Side) (fuel : ℕ) :
    ∀ {e : Engine P ticks maxOrders lookup} {b : PriorityBook ticks},
      e.Represents p0 b tag b.queues.populated → b.queues.WellFormed → b.queues.live < fuel →
      ∃ d, (run (Engine.clearSideTurn s) fuel e).Represents p0 (b.onQueues fun _ => d) tag
          d.populated ∧ d.WellFormed ∧ (∀ r, d.levels s r = []) ∧
        (∀ t r, b.queues.levels t r = [] → d.levels t r = []) ∧
        (run (Engine.clearSideTurn s) fuel e).cfg = e.cfg ∧
        (run (Engine.clearSideTurn s) fuel e).pub = e.pub := by
  induction fuel with
  | zero =>
      intro e b _ _ hlt
      omega
  | succ n ih =>
      intro e b h hd hlt
      have hbest := h.best_eq hd s
      cases hb : b.queues.best s with
      | none =>
          have hdone : Engine.clearSideTurn s e = .done e := by
            unfold Engine.clearSideTurn
            rw [hbest, hb]
          rw [run_done hdone]
          exact ⟨b.queues, h, hd, (Queues.best_eq_none hd).mp hb, fun _ _ h => h, rfl, rfl⟩
      | some px =>
          have hturn : Engine.clearSideTurn s e = .again (e.clearLevel s px) := by
            unfold Engine.clearSideTurn
            rw [hbest, hb]
          have hlen : (b.queues.levels s px).length <
              ((e.side s).levelAt px).fifo.length + 1 := by
            rw [(h.book.level s px).fifo, List.length_map]
            exact Nat.lt_succ_self _
          obtain ⟨d, hrep, hwf, _, hframe, hcount, hcfg, hpub⟩ :=
            run_clearTurn hc ht s px _ h hd hlen
          have hne : b.queues.levels s px ≠ [] := (Queues.best_eq_some.mp hb).1
          have hpos := List.length_pos_iff.mpr hne
          obtain ⟨d', hrep', hwf', hnil, hframe', hcfg', hpub'⟩ := ih hrep hwf (by
            change d.live < n
            omega)
          rw [run_again hturn]
          exact ⟨d', hrep', hwf', hnil, fun t r htr => hframe' t r (hframe t r htr),
            hcfg'.trans hcfg, hpub'.trans hpub⟩

end Represents

/-- A cleared engine stands for the machine a new one stands for. -/
theorem Refines.clearState (h : e.Refines p0 b) (hc : 0 < maxOrders) (ht : ticks ≤ 64 ^ 4) :
    e.clearState.Refines e.pub (PriorityBook.new e.cfg maxOrders) ∧
      e.clearState.cfg = e.cfg ∧ e.clearState.pub = e.pub := by
  obtain ⟨hd, tag, h⟩ := h
  obtain ⟨d₁, h₁, hwf₁, hbids, _, hcfg₁, hpub₁⟩ := Represents.run_clearSideTurn hc ht .bid
    (e.book.arena.inUse + 1) h hd (by rw [h.book.live]; exact Nat.lt_succ_self _)
  change (e.clearSide .bid).Represents _ _ _ _ at h₁
  obtain ⟨d₂, h₂, hwf₂, hasks, hframe, hcfg₂, hpub₂⟩ := Represents.run_clearSideTurn hc ht .ask
    ((e.clearSide .bid).book.arena.inUse + 1) h₁ hwf₁
    (by rw [h₁.book.live]; exact Nat.lt_succ_self _)
  change ((e.clearSide .bid).clearSide .ask).Represents _ _ _ _ at h₂
  have hnil : ∀ t r, d₂.levels t r = []
    | .bid, r => hframe .bid r (hbids r)
    | .ask, r => hasks r
  have hcfg : e.clearState.cfg = e.cfg := hcfg₂.trans hcfg₁
  have hpub : e.clearState.pub = e.pub := hpub₂.trans hpub₁
  have hheld : ∀ x, ¬ ((e.clearSide .bid).clearSide .ask).book.Held x := by
    rintro x ⟨t, r, hx⟩
    rw [(h₂.book.eq_nil_iff t r).mp (hnil t r)] at hx
    simp at hx
  have hlive : d₂.live = 0 := by
    obtain ⟨free, hfree, hfh⟩ := h₂.book.free
    have hused := hfree.pool.card_used
    rw [h₂.book.live] at hused
    refine hused.symm.trans (Finset.card_eq_zero.mpr ?_)
    refine Finset.filter_eq_empty_iff.mpr fun x hx hnf => hheld x ?_
    exact (hfh x).mpr ⟨Finset.mem_range.mp hx, hnf⟩
  have hindex : ∀ k, d₂.index k = none := fun k => by
    by_contra hk
    obtain ⟨u, hu⟩ := Option.ne_none_iff_exists'.mp hk
    have := (hwf₂.indexed k u hu).1
    unfold Queues.Linked at this
    rw [hnil] at this
    simp at this
  have halike : Queues.Alike d₂ {} :=
    ⟨funext fun t => funext fun r => (hnil t r).symm, fun t r u hu => by simp [hnil] at hu,
      funext fun k => (hindex k).symm, hlive.symm⟩
  refine ⟨⟨.empty, tag, hpub, ?_, ?_, rfl, ?_, ?_⟩, hcfg, hpub⟩
  · rw [hcfg]
    rfl
  · rw [hcfg]
    rfl
  · change ({ seq := e.clearState.cfg.seqBase } : HotState) = _
    rw [hcfg]
    rfl
  · have hst := h₂.book.alike halike
    rw [← halike.populated] at hst
    exact hst

/-! ## Replaying -/

omit [Publisher P] in
theorem replayRecord_valid (e : Engine P ticks maxOrders lookup) {r : SnapshotOrderRecord}
    (hv : r.Valid ticks e.cfg.maxOrderQty) : e.replayRecord r = e.enterRecord r := by
  unfold replayRecord
  rw [if_neg (not_or.mpr hv.id), if_neg (Nat.not_le.mpr hv.px), if_neg (UInt8.not_lt.mpr hv.s),
    if_neg (UInt8.not_lt.mpr hv.t),
    if_neg (not_or.mpr ⟨hv.open_qty, UInt64.not_lt.mpr hv.capped⟩)]

omit [Publisher P] in
theorem replayRecord_invalid (e : Engine P ticks maxOrders lookup) {r : SnapshotOrderRecord}
    (hv : ¬ r.Valid ticks e.cfg.maxOrderQty) : e.replayRecord r = (false, e) := by
  unfold replayRecord
  split_ifs with hid hpx hs htif hqty
  any_goals rfl
  refine absurd ⟨not_or.mp hid, Nat.not_le.mp hpx, UInt8.not_lt.mp hs, UInt8.not_lt.mp htif, ?_,
    ?_⟩ hv
  · exact (not_or.mp hqty).1
  · exact UInt64.not_lt.mp (not_or.mp hqty).2

namespace Refines

theorem pub_fold (h : e.Refines p0 b) : e.pub = b.log.foldl Publisher.publish p0 := by
  obtain ⟨_, _, h⟩ := h
  exact h.pub

/-- Engines that stand for machines with one log have published the same. -/
theorem pub_congr {e' : Engine P ticks maxOrders lookup} {b' : PriorityBook ticks}
    (h : e.Refines p0 b) (h' : e'.Refines p0 b') (hlog : b'.log = b.log) : e'.pub = e.pub := by
  rw [h.pub_fold, h'.pub_fold, hlog]

theorem replayRecord_full (h : e.Refines p0 b) (hc : 0 < maxOrders) {r : SnapshotOrderRecord}
    (hfull : maxOrders ≤ b.queues.live) : e.replayRecord r = (false, e) := by
  obtain ⟨hd, tag, h⟩ := h
  by_cases hv : r.Valid ticks e.cfg.maxOrderQty
  · rcases h.allocate_cases hc with ⟨_, halloc⟩ | ⟨hroom, _⟩
    · rw [replayRecord_valid e hv, enterRecord, halloc]
      rfl
    · rw [h.capacity] at hroom
      exact absurd hfull hroom
  · exact replayRecord_invalid e hv

theorem replayRecord (h : e.Refines p0 b) (hc : 0 < maxOrders) {r : SnapshotOrderRecord}
    (hv : r.Valid ticks e.cfg.maxOrderQty) (hroom : b.queues.live < maxOrders)
    (hu : ∀ s p, u ∉ b.queues.levels s p) :
    ∃ e', e.replayRecord r = (true, e') ∧ e'.cfg = e.cfg ∧
      e'.Refines p0 (b.onQueues (·.restore u r.order)) := by
  obtain ⟨hd, tag, h⟩ := h
  rcases h.allocate_cases hc with ⟨hfull, _⟩ | ⟨_, x, a, halloc⟩
  · rw [h.capacity] at hfull
    omega
  let e₁ := e.setArena (a.put x r.order)
  let e₂ := e₁.setSide r.order.s ((e₁.side r.order.s).add r.order.s x r.order)
  let e' := if lookup = .byHandle then e₂ else e₂.setIdx (e₂.book.idx.insert r.id x)
  have heq : e.replayRecord r = (true, e') := by
    rw [replayRecord_valid e hv, enterRecord, halloc]
    by_cases hl : lookup = .byHandle
    · simp only [e', if_pos hl]
      rfl
    · simp only [e', if_neg hl]
      rfl
  obtain ⟨hpub, hcfg, hst, hside, harena, hidx⟩ : e'.pub = e.pub ∧ e'.cfg = e.cfg ∧
      e'.state = e.state ∧ (∀ t, e'.side t = e₂.side t) ∧ e'.book.arena = a.put x r.order ∧
      (lookup = .byId → e'.book.idx = e.book.idx.insert r.id x) := by
    have harena₂ : e₂.book.arena = a.put x r.order := setSide_arena _ _ _
    have hidx₂ : e₂.book.idx = e.book.idx := setSide_idx _ _ _
    by_cases hl : lookup = .byHandle
    · simp only [e', if_pos hl]
      exact ⟨rfl, rfl, rfl, fun _ => trivial, harena₂, fun hi => by simp [hl] at hi⟩
    · simp only [e', if_neg hl]
      exact ⟨rfl, rfl, rfl, fun t => setIdx_side _ t _, harena₂, fun _ => hidx₂ ▸ rfl⟩
  have hpx : r.order.px < ticks := hv.px
  obtain ⟨hwf, hstores⟩ := h.entered hd hc hpx hv.id.2 hu (Nat.le_max_left b.queues.next (u + 1))
    (Nat.lt_of_lt_of_le (Nat.lt_succ_self u) (Nat.le_max_right _ _)) halloc hside harena hidx
  exact ⟨e', heq, hcfg, hwf, _, h.withBook (f := (·.restore u r.order)) hpub hcfg hst hstores⟩

/-- Records that are there, valid and not too many are replayed to the last, under whatever
numbers their orders are given. -/
theorem replayRecords_accepts (hc : 0 < maxOrders) {n : ℕ} :
    ∀ {e : Engine P ticks maxOrders lookup} {b : PriorityBook ticks} {src : List UInt8}
      {rs : List SnapshotOrderRecord} {l : List (ℕ × Order)}, e.Refines p0 b →
      Blob.readRecords n src = some rs → (∀ r ∈ rs, r.Valid ticks e.cfg.maxOrderQty) →
      b.queues.live + rs.length ≤ maxOrders → l.map Prod.snd = rs.map SnapshotOrderRecord.order →
      (l.map Prod.fst).Nodup → (∀ a ∈ l, ∀ s p, a.1 ∉ b.queues.levels s p) →
      ∃ e', e.replayRecords n src = (true, e') ∧ e'.cfg = e.cfg ∧
        e'.Refines p0 (b.onQueues (·.replay l)) := by
  induction n with
  | zero =>
      intro e b src rs l h hrs _ _ hl _ _
      obtain rfl : [] = rs := by simpa [Blob.readRecords] using hrs
      obtain rfl : l = [] := by simpa using hl
      exact ⟨e, rfl, rfl, h⟩
  | succ n ih =>
      intro e b src rs l h hrs hvalid hroom hl hnodup hfresh
      cases hread : readBytes SnapshotOrderRecord.size src with
      | none => simp [Blob.readRecords, hread] at hrs
      | some br =>
          obtain ⟨bytes, rest⟩ := br
          rw [Blob.readRecords_cons hread] at hrs
          obtain ⟨rs', hrs', rfl⟩ := Option.map_eq_some_iff.mp hrs
          obtain ⟨a, l', rfl, ha, hl'⟩ := List.map_eq_cons_iff.mp hl
          obtain ⟨hnew, hnodup'⟩ := List.nodup_cons.mp hnodup
          rw [List.length_cons] at hroom
          obtain ⟨e₁, heq, hcfg, h₁⟩ := h.replayRecord hc
            (hvalid (.ofBytes bytes) (by simp)) (by omega) (hfresh a (by simp))
          rw [← ha] at h₁
          obtain ⟨e', heq', hcfg', h'⟩ := ih h₁ hrs'
            (fun r hr => hcfg ▸ hvalid r (by simp [hr]))
            (by change b.queues.live + 1 + rs'.length ≤ maxOrders; omega) hl' hnodup'
            fun c hcl s p => Queues.restore_notMem (hfresh c (by simp [hcl]))
              (fun hca => hnew (by rw [← hca]; exact List.mem_map_of_mem hcl)) s p
          refine ⟨e', ?_, hcfg'.trans hcfg, h'⟩
          rw [Engine.replayRecords, hread]
          dsimp only
          rw [heq]
          exact heq'

/-- Otherwise the loop stops at the record that is missing or refused, and clears. -/
theorem replayRecords_rejects (hc : 0 < maxOrders) {n : ℕ} :
    ∀ {e : Engine P ticks maxOrders lookup} {b : PriorityBook ticks} (src : List UInt8),
      e.Refines p0 b →
      (∀ rs, Blob.readRecords n src = some rs → (∀ r ∈ rs, r.Valid ticks e.cfg.maxOrderQty) →
        maxOrders < b.queues.live + rs.length) →
      b.queues.live ≤ maxOrders →
      ∃ e₁ : Engine P ticks maxOrders lookup, e.replayRecords n src = (false, e₁.clearState) ∧
        e₁.cfg = e.cfg ∧ e₁.pub = e.pub ∧ ∃ b₁, e₁.Refines p0 b₁ := by
  induction n with
  | zero =>
      intro e b src h hbad hle
      have := hbad [] rfl (by simp)
      simp only [List.length_nil] at this
      omega
  | succ n ih =>
      intro e b src h hbad hle
      cases hread : readBytes SnapshotOrderRecord.size src with
      | none =>
          refine ⟨e, ?_, rfl, rfl, b, h⟩
          rw [Engine.replayRecords, hread]
      | some br =>
          obtain ⟨bytes, rest⟩ := br
          by_cases hgo : (SnapshotOrderRecord.ofBytes bytes).Valid ticks e.cfg.maxOrderQty ∧
              b.queues.live < maxOrders
          · obtain ⟨e₁, heq, hcfg, h₁⟩ := h.replayRecord (u := b.queues.next) hc hgo.1 hgo.2
              h.1.next_notMem
            obtain ⟨e₂, heq', hcfg', hpub', h₂⟩ := ih rest h₁ (fun rs hrs hvalid => by
              have := hbad (.ofBytes bytes :: rs) (by rw [Blob.readRecords_cons hread, hrs]; rfl)
                (by
                  rw [hcfg] at hvalid
                  simpa using ⟨hgo.1, hvalid⟩)
              rw [List.length_cons] at this
              change maxOrders < b.queues.live + 1 + rs.length
              omega) hgo.2
            refine ⟨e₂, ?_, hcfg'.trans hcfg, hpub'.trans (h.pub_congr h₁ rfl), h₂⟩
            rw [Engine.replayRecords, hread]
            dsimp only
            rw [heq]
            exact heq'
          · have hstop : e.replayRecord (.ofBytes bytes) = (false, e) := by
              by_cases hv : (SnapshotOrderRecord.ofBytes bytes).Valid ticks e.cfg.maxOrderQty
              · exact h.replayRecord_full hc (by have := mt (And.intro hv) hgo; omega)
              · exact replayRecord_invalid e hv
            refine ⟨e, ?_, rfl, rfl, b, h⟩
            rw [Engine.replayRecords, hread]
            dsimp only
            rw [hstop]

end Refines

/-! ## Restoring -/

omit [Publisher P] in
/-- The header checks, one after another, come down to whether the header fits. -/
theorem restore_eq (e : Engine P ticks maxOrders lookup) (blob : List UInt8) :
    (SnapshotHeader.size ≤ blob.length ∧ (Blob.header blob).Fits ticks maxOrders ∧
      e.restore blob = match (e.clearState.adoptHeader (Blob.header blob)).replayRecords
          (Blob.header blob).numOrders.toNat (blob.drop SnapshotHeader.size) with
        | (false, e) => (false, e)
        | (true, e) => (true, e.seedSides)) ∨
    (¬ (SnapshotHeader.size ≤ blob.length ∧ (Blob.header blob).Fits ticks maxOrders) ∧
      e.restore blob = (false, e.clearState)) := by
  unfold restore readBytes
  by_cases hlen : blob.length < SnapshotHeader.size
  · rw [if_pos hlen]
    exact .inr ⟨fun h => Nat.not_le.mpr hlen h.1, rfl⟩
  · rw [if_neg hlen]
    dsimp only
    split_ifs with hmagic hversion hticks hmax hself
    · exact .inr ⟨fun h => hmagic h.2.magic, rfl⟩
    · exact .inr ⟨fun h => hversion h.2.version, rfl⟩
    · exact .inr ⟨fun h => hticks h.2.ticks, rfl⟩
    · exact .inr ⟨fun h => hmax h.2.maxOrders, rfl⟩
    · exact .inr ⟨fun h => UInt8.not_le.mpr hself h.2.selfCross, rfl⟩
    · exact .inl ⟨Nat.not_lt.mp hlen, ⟨not_not.mp hmagic, not_not.mp hversion, not_not.mp hticks,
        not_not.mp hmax, UInt8.not_lt.mp hself⟩, rfl⟩

namespace Refines

/-- The engine whose header has been adopted stands for the empty machine it describes. -/
theorem adoptHeader (h : e.Refines p0 b) (hc : 0 < maxOrders) (ht : ticks ≤ 64 ^ 4)
    (hdr : SnapshotHeader) :
    (e.clearState.adoptHeader hdr).Refines e.pub (PriorityBook.ofHeader maxOrders hdr) ∧
      (e.clearState.adoptHeader hdr).cfg = { e.cfg with
        selfCross := .ofCode hdr.selfCross, topThrottle := hdr.topThrottle != 0 } := by
  obtain ⟨⟨hwf, tag, hrep⟩, hcfg, hpub⟩ := h.clearState hc ht
  refine ⟨⟨hwf, tag, hrep.pub, rfl, rfl, rfl, ?_, hrep.book⟩, ?_⟩
  · unfold Engine.adoptHeader
    rw [hrep.state]
    rfl
  · unfold Engine.adoptHeader
    rw [hcfg]

theorem seedSides (h : e.Refines p0 b) : e.seedSides.Refines p0 b.seedSides := by
  obtain ⟨hd, tag, h⟩ := h
  refine ⟨hd, tag, h.pub, h.selfCross, h.topThrottle, h.capacity, ?_, h.book⟩
  unfold Engine.seedSides PriorityBook.seedSides
  rw [h.best_eq hd, h.best_eq hd, h.state]

/-- An admissible blob is accepted. The engine then stands for the machine the blob
describes, whatever numbers its orders are given. -/
theorem restore_accepts (h : e.Refines p0 b) (hc : 0 < maxOrders) (ht : ticks ≤ 64 ^ 4)
    {blob : List UInt8} {rs : List SnapshotOrderRecord}
    (hadm : Blob.Admissible ticks maxOrders e.cfg.maxOrderQty blob rs) {l : List (ℕ × Order)}
    (hl : l.map Prod.snd = rs.map SnapshotOrderRecord.order) (hnodup : (l.map Prod.fst).Nodup) :
    (e.restore blob).1 = true ∧ (e.restore blob).2.Refines e.pub
      (PriorityBook.restored maxOrders (Blob.header blob) l) := by
  rcases e.restore_eq blob with ⟨_, _, heq⟩ | ⟨hbad, _⟩
  · obtain ⟨h₁, hcfg⟩ := h.adoptHeader hc ht (Blob.header blob)
    obtain ⟨e₂, heq₂, _, h₂⟩ := replayRecords_accepts hc h₁ hadm.records
      (by rw [hcfg]; exact hadm.valid)
      (by change 0 + rs.length ≤ maxOrders; rw [Nat.zero_add]; exact hadm.room) hl hnodup
      (by simp [PriorityBook.ofHeader])
    rw [heq, heq₂]
    exact ⟨rfl, h₂.seedSides⟩
  · exact absurd ⟨hadm.size, hadm.fits⟩ hbad

/-- Any other blob is refused, and what is left is a cleared engine. Its configuration is
the old one, except for what a fitting header has set. -/
theorem restore_rejects (h : e.Refines p0 b) (hc : 0 < maxOrders) (ht : ticks ≤ 64 ^ 4)
    {blob : List UInt8}
    (hbad : ∀ rs, ¬ Blob.Admissible ticks maxOrders e.cfg.maxOrderQty blob rs) :
    ∃ e₁ : Engine P ticks maxOrders lookup, e.restore blob = (false, e₁.clearState) ∧
      e₁.pub = e.pub ∧ (∃ p₁ b₁, e₁.Refines p₁ b₁) ∧
      (¬ (SnapshotHeader.size ≤ blob.length ∧ (Blob.header blob).Fits ticks maxOrders) ∧
          e₁.cfg = e.cfg ∨
        SnapshotHeader.size ≤ blob.length ∧ (Blob.header blob).Fits ticks maxOrders ∧
          e₁.cfg = { e.cfg with
            selfCross := .ofCode (Blob.header blob).selfCross
            topThrottle := (Blob.header blob).topThrottle != 0 }) := by
  rcases e.restore_eq blob with ⟨hsize, hfits, heq⟩ | ⟨hunfit, heq⟩
  · obtain ⟨h₁, hcfg⟩ := h.adoptHeader hc ht (Blob.header blob)
    obtain ⟨e₂, heq₂, hcfg₂, hpub₂, b₂, h₂⟩ := replayRecords_rejects hc (blob.drop _) h₁
      (fun rs hrs hvalid => by
        by_contra hroom
        refine hbad rs ⟨hsize, hfits, hrs, ?_, ?_⟩
        · rw [hcfg] at hvalid
          exact hvalid
        · change ¬ maxOrders < 0 + rs.length at hroom
          omega) (Nat.zero_le _)
    rw [heq, heq₂]
    refine ⟨e₂, rfl, hpub₂.trans (h.clearState hc ht).2.2, ⟨_, b₂, h₂⟩, .inr ⟨hsize, hfits, ?_⟩⟩
    rw [hcfg₂, hcfg]
  · exact ⟨e, heq, rfl, ⟨p0, b, h⟩, .inl ⟨hunfit, rfl⟩⟩

/-- The blobs that are accepted. -/
theorem restore_true_iff (h : e.Refines p0 b) (hc : 0 < maxOrders) (ht : ticks ≤ 64 ^ 4)
    {blob : List UInt8} :
    (e.restore blob).1 = true ↔
      ∃ rs, Blob.Admissible ticks maxOrders e.cfg.maxOrderQty blob rs := by
  constructor
  · intro htrue
    by_contra hbad
    obtain ⟨e₁, heq, _⟩ := h.restore_rejects hc ht (not_exists.mp hbad)
    rw [heq] at htrue
    exact Bool.false_ne_true htrue
  · rintro ⟨rs, hadm⟩
    exact (h.restore_accepts hc ht hadm (Blob.map_snd_numbered rs) (Blob.nodup_numbered rs)).1

end Refines

end Engine
end Orderbooks
