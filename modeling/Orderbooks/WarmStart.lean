import Orderbooks.RestingBook
import Orderbooks.SnapshotRefinement
import Orderbooks.TopStream

/-!
# Warm starts

What an engine writes can be read back. The codec leaves out the presence flags, the
layout of the index and the free list; the machine behind the engine comes back all the
same, so the reader carries on as the writer would have.

A blob from elsewhere may come in any order, name an id twice or set a flag to any byte.
If it is accepted, what the engine then writes is canonical: reading it and writing it
again gives the same bytes, but for the four at the end of each record that no member
covers.
-/
namespace Orderbooks

/-! ## Reading back what a machine writes -/

theorem SnapshotOrderRecord.order_ofOrder {o : Order} (hpx : o.px < 2 ^ 32) :
    (SnapshotOrderRecord.ofOrder o.s o).order = o := by
  simp only [SnapshotOrderRecord.ofOrder, SnapshotOrderRecord.order, Side.ofCode_code,
    Tif.ofCode_code, UInt32.toNat_ofNat_of_lt' hpx]

namespace PriorityBook

variable {ticks : ℕ} {b : PriorityBook ticks} {maxQty : UInt64}

/-- A machine whose snapshot loses nothing. -/
structure Writable (maxQty : UInt64) (b : PriorityBook ticks) : Prop where
  wf : b.queues.WellFormed
  orders : b.queues.Recordable maxQty
  room : b.queues.listing.length ≤ b.capacity

theorem header_snapshot (b : PriorityBook ticks) (pad : ℕ → UInt32) :
    Blob.header (b.snapshot pad) = b.snapshotHeader := by
  unfold Blob.header snapshot
  rw [List.take_left' (SnapshotHeader.length_bytes rfl), SnapshotHeader.ofBytes_bytes rfl]

theorem length_records (b : PriorityBook ticks) : b.records.length = b.queues.listing.length := by
  simp [records]

theorem length_snapshot (b : PriorityBook ticks) (pad : ℕ → UInt32) :
    (b.snapshot pad).length = 80 + 32 * b.queues.listing.length := by
  rw [snapshot, List.length_append, SnapshotHeader.length_bytes rfl,
    SnapshotOrderRecord.length_emit, length_records]
  rfl

/-- One machine is written alike where the padding is alike. -/
theorem snapshot_eq_iff (b : PriorityBook ticks) {pad pad' : ℕ → UInt32} :
    b.snapshot pad = b.snapshot pad' ↔ ∀ i < b.records.length, pad i = pad' i := by
  unfold snapshot
  rw [List.append_cancel_left_eq, SnapshotOrderRecord.emit_eq_iff]

theorem snapshotHeader_fits (ht : ticks ≤ 64 ^ 4) (hcap : b.capacity < 2 ^ 64) :
    b.snapshotHeader.Fits ticks b.capacity := by
  refine ⟨rfl, rfl, UInt64.toNat_ofNat_of_lt' ?_, UInt64.toNat_ofNat_of_lt' hcap,
    b.selfCross.code_le⟩
  exact Nat.lt_of_le_of_lt ht (by decide)

namespace Writable

variable (h : b.Writable maxQty)
include h

theorem records_valid (ht : ticks ≤ 64 ^ 4) : ∀ r ∈ b.records, r.Valid ticks maxQty := by
  intro r hr
  unfold PriorityBook.records at hr
  simp only [List.mem_map] at hr
  obtain ⟨_, ⟨u, hu, rfl⟩, rfl⟩ := hr
  have hlinked := (Queues.mem_listing h.wf).mp hu
  obtain ⟨hid, hopen, hcap⟩ := h.orders u hlinked
  have hpx : (b.order u).px < ticks := h.wf.px_lt hlinked
  refine ⟨hid, ?_, Side.code_le _, Tif.code_le _, hopen, hcap⟩
  change (UInt32.ofNat (b.order u).px).toNat < ticks
  rw [UInt32.toNat_ofNat_of_lt' (Nat.lt_of_lt_of_le hpx (ht.trans (by decide)))]
  exact hpx

/-- A snapshot is admissible wherever the writer's bounds hold. -/
theorem admissible (ht : ticks ≤ 64 ^ 4) (hcap : b.capacity < 2 ^ 64) (pad : ℕ → UInt32) :
    Blob.Admissible ticks b.capacity maxQty (b.snapshot pad) b.records := by
  have hnum : b.snapshotHeader.numOrders.toNat = b.records.length := by
    rw [length_records]
    exact UInt64.toNat_ofNat_of_lt' (Nat.lt_of_le_of_lt h.room hcap)
  refine ⟨?_, ?_, ?_, h.records_valid ht, b.length_records ▸ h.room⟩
  · rw [length_snapshot, SnapshotHeader.size]
    omega
  · rw [header_snapshot]
    exact snapshotHeader_fits ht hcap
  · unfold Blob.records
    rw [header_snapshot, hnum, PriorityBook.snapshot,
      List.drop_left' (SnapshotHeader.length_bytes rfl)]
    simpa using Blob.readRecords_emit pad b.records []

theorem map_order_records (ht : ticks ≤ 64 ^ 4) :
    b.queues.entries.map Prod.snd = b.records.map SnapshotOrderRecord.order := by
  unfold PriorityBook.records
  rw [Queues.map_snd_entries, List.map_map]
  refine (List.map_id _).symm.trans (List.map_congr_left fun o ho => ?_)
  obtain ⟨u, hu, rfl⟩ := List.mem_map.mp ho
  have hpx : (b.order u).px < ticks := h.wf.px_lt ((Queues.mem_listing h.wf).mp hu)
  exact (SnapshotOrderRecord.order_ofOrder
    (Nat.lt_of_lt_of_le hpx (ht.trans (by decide)))).symm

/-- Reading a snapshot and writing it again gives the same bytes, the padding apart. -/
theorem restored_snapshot (pad : ℕ → UInt32) :
    (restored b.capacity b.snapshotHeader b.queues.entries : PriorityBook ticks).snapshot pad =
      b.snapshot pad := by
  have hlist : (({} : Queues ticks).replay b.queues.entries).listing = b.queues.listing :=
    Queues.listing_congr (Queues.replay_entries_levels h.wf)
  have hheader : (restored b.capacity b.snapshotHeader b.queues.entries :
      PriorityBook ticks).snapshotHeader = b.snapshotHeader := by
    simp only [snapshotHeader, restored, ofHeader, seedSides, onQueues, hlist,
      SelfCrossPolicy.ofCode_code, flagByte_bne_zero, UInt32.ofNat_toNat]
  have hrecords : (restored b.capacity b.snapshotHeader b.queues.entries :
      PriorityBook ticks).records = b.records := by
    unfold PriorityBook.records
    change (((({} : Queues ticks).replay b.queues.entries).listing.map _)).map _ = _
    rw [hlist]
    refine congrArg (List.map _) (List.map_congr_left fun u hu => ?_)
    exact Queues.replay_entries_orders h.wf ((Queues.mem_listing h.wf).mp hu)
  rw [snapshot, snapshot, hheader, hrecords]

end Writable

/-- The top a quiet machine has announced is on the ladder. -/
theorem Quiet.last_lt (hq : b.Quiet) (hd : b.queues.WellFormed) (ht : ticks ≤ 64 ^ 4) :
    b.state.lastBidPx < 2 ^ 32 ∧ b.state.lastAskPx < 2 ^ 32 := by
  have hbest : ∀ s : Side, (b.queues.best s).getD 0 < 2 ^ 32 := fun s => by
    cases hb : b.queues.best s with
    | none => decide
    | some p =>
        have hp : p < ticks := hd.lt_of_ne_nil (Queues.best_eq_some.mp hb).1
        exact Nat.lt_of_lt_of_le hp (ht.trans (by decide))
  have hbid : b.state.lastBidPx = _ := congrArg Top.bidPx hq.accurate.last
  have hask : b.state.lastAskPx = _ := congrArg Top.askPx hq.accurate.last
  rw [hbid, hask]
  exact ⟨hbest .bid, hbest .ask⟩

/-- A quiet machine whose ids all differ comes back whole. -/
theorem restored_snapshotHeader (hd : b.queues.WellFormed) (hq : b.Quiet) (ht : ticks ≤ 64 ^ 4)
    (hx : b.queues.Exact) {cap : ℕ} (hcount : b.queues.Counted cap) :
    restored b.capacity b.snapshotHeader b.queues.entries =
      { b with
        log := []
        queues := ({} : Queues ticks).replay b.queues.entries } := by
  have halike := Queues.replay_entries_alike hd hx hcount
  have hbest : ∀ s, (({} : Queues ticks).replay b.queues.entries).best s = b.queues.best s :=
    fun s => by
      unfold Queues.best
      rw [halike.levels]
  obtain ⟨hbidPx, haskPx⟩ := hq.last_lt hd ht
  have hbid : b.state.haveBidSide = _ := hq.accurate.sides .bid
  have hask : b.state.haveAskSide = _ := hq.accurate.sides .ask
  have hclean := hq.clean
  have hfree := hq.released
  obtain ⟨log, selfCross, topThrottle, capacity, queues, st⟩ := b
  obtain ⟨seq, bidPx, askPx, bidQty, askQty, haveTop, dirty, bidSide, askSide, depth⟩ := st
  simp only at hbid hask hclean hfree hbidPx haskPx hbest
  simp only [restored, ofHeader, seedSides, onQueues, snapshotHeader, hbest, hbid, hask, hclean,
    hfree, SelfCrossPolicy.ofCode_code, flagByte_bne_zero, UInt32.toNat_ofNat_of_lt' hbidPx,
    UInt32.toNat_ofNat_of_lt' haskPx]

/-- The machine of any admissible blob can be written. -/
theorem restored_writable {maxOrders : ℕ} {blob : List UInt8} {rs : List SnapshotOrderRecord}
    {l : List (ℕ × Order)} (hadm : Blob.Admissible ticks maxOrders maxQty blob rs)
    (hl : l.map Prod.snd = rs.map SnapshotOrderRecord.order) (hnodup : (l.map Prod.fst).Nodup) :
    (restored maxOrders (Blob.header blob) l : PriorityBook ticks).Writable maxQty ∧
      (({} : Queues ticks).replay l).Counted maxOrders := by
  have hvalid : ∀ a ∈ l, a.2.px < ticks ∧ a.2.Recordable maxQty := fun a ha => by
    have hmem : a.2 ∈ l.map Prod.snd := List.mem_map_of_mem ha
    rw [hl] at hmem
    obtain ⟨r, hr, heq⟩ := List.mem_map.mp hmem
    have hv := hadm.valid r hr
    rw [← heq]
    exact ⟨hv.px, hv.id, hv.open_qty, hv.capped⟩
  have hlen : l.length = rs.length := by simpa using congrArg List.length hl
  have hcount : (({} : Queues ticks).replay l).Counted maxOrders :=
    Queues.Counted.empty.replay (fun a ha => (hvalid a ha).1) (by
      change 0 + l.length ≤ maxOrders
      rw [Nat.zero_add, hlen]
      exact hadm.room)
  refine ⟨⟨Queues.WellFormed.empty.replay hnodup (by simp) fun a ha => (hvalid a ha).1,
    fun u hu => ?_, ?_⟩, hcount⟩
  · obtain ⟨o, ho⟩ := (Queues.linked_replay hnodup).mp hu
    have heq : (({} : Queues ticks).replay l).orders u = o := Queues.replay_orders hnodup ho
    change ((({} : Queues ticks).replay l).orders u).Recordable maxQty
    rw [heq]
    exact (hvalid _ ho).2
  · change (({} : Queues ticks).replay l).listing.length ≤ maxOrders
    rw [Queues.length_listing, ← hcount.live]
    exact hcount.le

end PriorityBook

namespace Engine
open Runs

variable {P Q : Type} [Publisher P] [Publisher Q] {ticks maxOrders : ℕ} {lookup : OrderLookup}
  {p0 : P} {e : Engine P ticks maxOrders lookup} {b b' : PriorityBook ticks}

/-- An engine reads a snapshot of any machine of its own shape. -/
theorem Refines.restore_snapshot (h : e.Refines p0 b') (hc : 0 < maxOrders)
    (ht : ticks ≤ 64 ^ 4) (hcap : maxOrders < 2 ^ 64) (hw : b.Writable e.cfg.maxOrderQty)
    (hb : b.capacity = maxOrders) (pad : ℕ → UInt32) :
    (e.restore (b.snapshot pad)).1 = true ∧ (e.restore (b.snapshot pad)).2.Refines e.pub
      (PriorityBook.restored maxOrders b.snapshotHeader b.queues.entries) := by
  have hadm := hw.admissible ht (hb ▸ hcap) pad
  rw [hb] at hadm
  have := h.restore_accepts hc ht hadm (hw.map_order_records ht)
    (by rw [Queues.map_fst_entries]; exact Queues.nodup_listing hw.wf)
  rwa [PriorityBook.header_snapshot] at this

/-! ## The calls an engine is given -/

/-- A command, or a blob to restore from. -/
inductive Call where
  | command (cmd : Command)
  | restore (blob : List UInt8)

def call (e : Engine P ticks maxOrders lookup) : Call → Engine P ticks maxOrders lookup
  | .command cmd => e.apply cmd
  | .restore blob => (e.restore blob).2

/-- Blobs may hold anything. -/
def Call.InRange (ticks : ℕ) : Call → Prop
  | .command cmd => cmd.InRange ticks
  | .restore _ => True

instance (ticks : ℕ) : DecidablePred (Call.InRange ticks) := fun c =>
  match c with
  | .command cmd => inferInstanceAs (Decidable (cmd.InRange ticks))
  | .restore _ => isTrue trivial

/-- An engine stands for some machine after any calls. -/
theorem calls_refines (pub : P) (cfg : EngineConfig) (mem : Memory) (hc : 0 < maxOrders)
    (ht : ticks ≤ 64 ^ 4) {calls : List Call} (hcalls : ∀ c ∈ calls, c.InRange ticks) :
    ∃ p₁ b, (calls.foldl call (new pub cfg mem : Engine P ticks maxOrders lookup)).Refines
      p₁ b := by
  refine (along_of_forall hcalls).invariant
    (fun e : Engine P ticks maxOrders lookup => ∃ p₁ b, e.Refines p₁ b) ?_
    ⟨pub, _, new_refines pub cfg mem hc⟩
  rintro e c ⟨p₁, b, h⟩ hr
  cases c with
  | command cmd =>
      obtain ⟨target, _, h'⟩ := h.apply hc ht hr
      exact ⟨p₁, _, h'⟩
  | restore blob =>
      by_cases hacc : ∃ rs, Blob.Admissible ticks maxOrders e.cfg.maxOrderQty blob rs
      · obtain ⟨rs, hadm⟩ := hacc
        exact ⟨e.pub, _, (h.restore_accepts hc ht hadm (Blob.map_snd_numbered rs)
          (Blob.nodup_numbered rs)).2⟩
      · obtain ⟨e₁, heq, _, ⟨p₂, b₁, h₁⟩, _⟩ := h.restore_rejects hc ht (not_exists.mp hacc)
        refine ⟨e₁.pub, PriorityBook.new e₁.cfg maxOrders, ?_⟩
        change (e.restore blob).2.Refines _ _
        rw [heq]
        exact (h₁.clearState hc ht).1

/-! ## Carrying on -/

/-- What has been published so far may be left out of account. -/
theorem Refines.rebase (h : e.Refines p0 b) : e.Refines e.pub { b with log := [] } := by
  obtain ⟨hd, tag, h⟩ := h
  exact ⟨hd, tag, rfl, h.selfCross, h.topThrottle, h.capacity, h.state, h.book⟩

theorem Refines.alike (h : e.Refines p0 b) {d : Queues ticks} (ha : Queues.Alike b.queues d)
    (hd : d.WellFormed) : e.Refines p0 { b with queues := d } := by
  obtain ⟨_, tag, h⟩ := h
  refine ⟨hd, tag, h.pub, h.selfCross, h.topThrottle, h.capacity, h.state, ?_⟩
  rw [ha.populated]
  exact h.book.alike ha

/-- An engine that looks orders up by id runs as its machine does. -/
theorem Refines.foldl_apply (h : e.Refines p0 b) (hi : lookup = .byId) (hc : 0 < maxOrders)
    (ht : ticks ≤ 64 ^ 4) {cmds : List Command} (hcmds : ∀ cmd ∈ cmds, cmd.InRange ticks) :
    (cmds.foldl Engine.apply e).Refines p0 (cmds.foldl PriorityBook.apply b) := by
  refine (along_of_forall hcmds).lockstep
    (fun (e : Engine P ticks maxOrders lookup) b => e.Refines p0 b) (fun e b cmd h hr => ?_) h
  obtain ⟨target, hreach, h'⟩ := h.apply hc ht hr
  rw [hreach.2 hi] at h'
  exact h'

/-- Two engines that stand for one machine publish the same from now on, and write the same where
the padding is the same. -/
theorem Refines.continue_alike {e' : Engine Q ticks maxOrders lookup} {p₁ : Q}
    (h : e.Refines p0 b) (h' : e'.Refines p₁ b) (hi : lookup = .byId) (hc : 0 < maxOrders)
    (ht : ticks ≤ 64 ^ 4) {more : List Command} (hmore : ∀ cmd ∈ more, cmd.InRange ticks) :
    (∀ pad pad' : ℕ → UInt32,
        (more.foldl Engine.apply e').snapshot pad' = (more.foldl Engine.apply e).snapshot pad ↔
          ∀ i < (more.foldl Engine.apply e).records.length, pad' i = pad i) ∧
      ∃ evs : List Event, (more.foldl Engine.apply e).pub = evs.foldl Publisher.publish p0 ∧
        (more.foldl Engine.apply e').pub = evs.foldl Publisher.publish p₁ := by
  have he := h.foldl_apply hi hc ht hmore
  have he' := h'.foldl_apply hi hc ht hmore
  refine ⟨fun pad pad' => ?_, _, he.pub_fold, he'.pub_fold⟩
  rw [he'.snapshot_eq ht, he.snapshot_eq ht, he.records_eq ht]
  exact PriorityBook.snapshot_eq_iff _

/-- The machine behind a run in which every live id is unique. -/
theorem play_writable (pub : P) (cfg : EngineConfig) (mem : Memory) (hc : 0 < maxOrders)
    (ht : ticks ≤ 64 ^ 4) {cmds : List Command}
    (hdom : ∀ cmd ∈ cmds, cmd.InDomain ticks cfg.maxOrderQty)
    (hfresh : Along apply Fresh (new pub cfg mem : Engine P ticks maxOrders lookup) cmds) :
    ∃ b, (play pub cfg mem cmds : Engine P ticks maxOrders lookup).Refines pub b ∧
      b.Writable cfg.maxOrderQty ∧ b.Quiet ∧ b.queues.Exact ∧ b.queues.Counted maxOrders := by
  obtain ⟨b, h, hs, hcount, hx, hq⟩ := (new_refines pub cfg mem hc).run
    (fun e cmd => cmd.InDomain ticks cfg.maxOrderQty ∧ e.Fresh cmd)
    (fun b => b.queues.Sound cfg.maxOrderQty ∧ b.queues.Counted maxOrders ∧ b.queues.Exact ∧
      b.Quiet) hc ht (fun _ _ h => h.1.inRange)
    (fun e b cmd target h hI hok hreach =>
      have heffect := h.effect hreach
      ⟨hI.1.effect h.1 heffect.1 hok.1 heffect.2,
        hI.2.1.effect h.1 heffect.1 hok.1.inRange heffect.2,
        hI.2.2.1.effect h.1 heffect.1 (h.fresh hok.2) heffect.2,
        (hI.2.2.2.applyAt h.1 heffect.1 hok.1.inRange).quiet⟩)
    ⟨.empty, .empty, .empty, .new cfg maxOrders⟩ ((along_of_forall hdom).and hfresh)
  refine ⟨b, h, ⟨h.1, hs.recordable, ?_⟩, hq, hx, hcount⟩
  rw [Queues.length_listing, ← hcount.live, h.capacity]
  exact hcount.le

/-- An engine that restores from the snapshot of another carries on as the other does, whatever it
held before. It publishes the same events. It writes the same snapshots but for the padding: two
snapshots are the same bytes if and only if the last four bytes of each record happen to be. -/
theorem restore_continues (pub : P) (cfg : EngineConfig) (mem : Memory) (pub' : Q)
    (cfg' : EngineConfig) (mem' : Memory) (hc : 0 < maxOrders) (ht : ticks ≤ 64 ^ 4)
    (hcap : maxOrders < 2 ^ 64) (cmds : List Command)
    (hdom : ∀ cmd ∈ cmds, cmd.InDomain ticks cfg.maxOrderQty)
    (hfresh : Along apply Fresh (new pub cfg mem : Engine P ticks maxOrders .byId) cmds)
    (calls : List Call) (hcalls : ∀ c ∈ calls, c.InRange ticks)
    (hqty : (calls.foldl call (new pub' cfg' mem' :
      Engine Q ticks maxOrders .byId)).cfg.maxOrderQty = cfg.maxOrderQty) (pad : ℕ → UInt32) :
    let e : Engine P ticks maxOrders .byId := play pub cfg mem cmds
    let e' : Engine Q ticks maxOrders .byId := calls.foldl call (new pub' cfg' mem')
    let r := (e'.restore (e.snapshot pad)).2
    (e'.restore (e.snapshot pad)).1 = true ∧ r.pub = e'.pub ∧
      ∀ more : List Command, (∀ cmd ∈ more, cmd.InRange ticks) →
        (∀ pad₁ pad₂ : ℕ → UInt32,
          (more.foldl apply r).snapshot pad₂ = (more.foldl apply e).snapshot pad₁ ↔
            ∀ i < (more.foldl apply e).records.length, pad₂ i = pad₁ i) ∧
        ∃ evs : List Event, (more.foldl apply e).pub = evs.foldl Publisher.publish e.pub ∧
          (more.foldl apply r).pub = evs.foldl Publisher.publish e'.pub := by
  intro e e' r
  obtain ⟨b, h, hw, hq, hx, hcount⟩ := play_writable pub cfg mem hc ht hdom hfresh
  obtain ⟨p₁, b', h'⟩ : ∃ p₁ b', e'.Refines p₁ b' := calls_refines pub' cfg' mem' hc ht hcalls
  obtain ⟨htrue, hread⟩ := h'.restore_snapshot hc ht hcap (hqty.symm ▸ hw) h.capacity pad
  have hsnap : e.snapshot pad = b.snapshot pad := h.snapshot_eq ht pad
  have hr : r.Refines e'.pub { b with log := [] } := by
    have halike := Queues.replay_entries_alike h.1 hx hcount
    have hrestored := (congrArg (PriorityBook.restored · _ _) h.capacity.symm).trans
      (PriorityBook.restored_snapshotHeader h.1 hq ht hx hcount)
    rw [hrestored] at hread
    change (e'.restore (e.snapshot pad)).2.Refines _ _
    rw [hsnap]
    exact hread.alike halike h.1
  exact ⟨hsnap ▸ htrue, hr.pub_fold, fun more hmore => h.rebase.continue_alike hr rfl hc ht hmore⟩

/-- A reader that held an order, and refused a blob, before it restores. -/
theorem restore_continues_one_order :
    let e : Engine (List Event) 2 2 .byId := play [] {} .zeroed [.submit ⟨7, 1, 5, .ask, .gtc, 0⟩]
    let e' : Engine (List Event) 2 2 .byId :=
      [Call.command (.submit ⟨9, 0, 1, .bid, .gtc, 0⟩), .restore [1, 2, 3]].foldl call
        (new [] {} .zeroed)
    let r := (e'.restore (e.snapshot fun _ => 0)).2
    (e'.restore (e.snapshot fun _ => 0)).1 = true ∧ r.pub = e'.pub ∧
      ∀ more : List Command, (∀ cmd ∈ more, cmd.InRange 2) →
        (∀ pad₁ pad₂ : ℕ → UInt32,
          (more.foldl apply r).snapshot pad₂ = (more.foldl apply e).snapshot pad₁ ↔
            ∀ i < (more.foldl apply e).records.length, pad₂ i = pad₁ i) ∧
        ∃ evs : List Event, (more.foldl apply e).pub = evs.foldl Publisher.publish e.pub ∧
          (more.foldl apply r).pub = evs.foldl Publisher.publish e'.pub :=
  restore_continues [] {} .zeroed [] {} .zeroed (by decide) (by decide) (by decide) _ (by decide)
    (by decide) _ (by decide) (by decide) _

/-- Two snapshots of one resting order, and of an engine restored from the first, that differ in
the last byte of the record. -/
theorem restore_continues_other_padding :
    let e : Engine (List Event) 2 2 .byId := play [] {} .zeroed [.submit ⟨7, 1, 5, .ask, .gtc, 0⟩]
    let r := (new [] {} .zeroed : Engine (List Event) 2 2 .byId).restore (e.snapshot fun _ => 0)
    r.1 = true ∧ r.2.snapshot (fun _ => 0) = e.snapshot (fun _ => 0) ∧
      r.2.snapshot (fun _ => 0x01000000) ≠ e.snapshot (fun _ => 0) ∧
      (r.2.snapshot fun _ => 0x01000000).take 111 = (e.snapshot fun _ => 0).take 111 := by
  decide +kernel

/-! ## Canonical bytes -/

/-- Whatever blob a new engine accepts, levels, bitmaps, best prices, arena and index agree
afterwards, every order is within its bounds, and what the engine writes has one record
per order and is accepted by a new engine. What that engine writes is the same bytes again if and
only if the last four bytes of each record happen to be the same. -/
theorem restore_canonical (pub : P) (cfg : EngineConfig) (mem : Memory) (hc : 0 < maxOrders)
    (ht : ticks ≤ 64 ^ 4) (hcap : maxOrders < 2 ^ 64) (blob : List UInt8)
    (hacc : ((new pub cfg mem : Engine P ticks maxOrders .byId).restore blob).1 = true)
    (pad : ℕ → UInt32) :
    let e := ((new pub cfg mem : Engine P ticks maxOrders .byId).restore blob).2
    e.Coherent ∧ (maxOrders * cfg.maxOrderQty.toNat < 2 ^ 64 → e.Consistent) ∧
      (∀ x, e.book.Held x → (e.order x).px < ticks ∧ 0 < (e.order x).remaining ∧
        (e.order x).remaining ≤ cfg.maxOrderQty) ∧
      (e.snapshot pad).length = 80 + 32 * e.book.arena.inUse ∧
      (Blob.header (e.snapshot pad)).numOrders.toNat = e.book.arena.inUse ∧
      ∀ (pub' : Q) (cfg' : EngineConfig) (mem' : Memory), cfg'.maxOrderQty = cfg.maxOrderQty →
        let r := (new pub' cfg' mem' : Engine Q ticks maxOrders .byId).restore (e.snapshot pad)
        r.1 = true ∧ ∀ pad' : ℕ → UInt32,
          r.2.snapshot pad' = e.snapshot pad ↔ ∀ i < e.book.arena.inUse, pad' i = pad i := by
  have hnew : (new pub cfg mem : Engine P ticks maxOrders .byId).Refines _ _ :=
    new_refines pub cfg mem hc
  obtain ⟨rs, hadm⟩ := (hnew.restore_true_iff hc ht).mp hacc
  obtain ⟨-, h⟩ := hnew.restore_accepts hc ht hadm (Blob.map_snd_numbered rs)
    (Blob.nodup_numbered rs)
  obtain ⟨hw, hcount⟩ := PriorityBook.restored_writable hadm (Blob.map_snd_numbered rs)
    (Blob.nodup_numbered rs)
  intro e
  generalize hb : PriorityBook.restored maxOrders (Blob.header blob) (Blob.numbered rs) = b at h hw
  have hcount : b.queues.Counted maxOrders := hb ▸ hcount
  change e.Refines pub b at h
  clear_value e
  have hlen : b.queues.listing.length = e.book.arena.inUse := by
    obtain ⟨_, _, hrep⟩ := h
    rw [Queues.length_listing, ← hcount.live, hrep.book.live]
  have hsnap : e.snapshot pad = b.snapshot pad := h.snapshot_eq ht pad
  refine ⟨h.coherent hw.orders hcount, h.consistent hw.orders hcount, fun x hx => ?_, ?_, ?_,
    fun pub' cfg' mem' hqty => ?_⟩
  · obtain ⟨hd, tag, hrep⟩ := h
    have hlinked := hrep.book.linked hd hx
    rw [hrep.order_eq hx]
    exact ⟨hd.px_lt hlinked, UInt64.pos_iff_ne_zero.mpr (hw.orders _ hlinked).open_qty,
      (hw.orders _ hlinked).capped⟩
  · rw [hsnap, PriorityBook.length_snapshot, hlen]
  · rw [hsnap, PriorityBook.header_snapshot, ← hlen]
    exact UInt64.toNat_ofNat_of_lt' ((hw.room.trans_eq h.capacity).trans_lt hcap)
  · have hnew' : (new pub' cfg' mem' : Engine Q ticks maxOrders .byId).Refines _ _ :=
      new_refines pub' cfg' mem' hc
    obtain ⟨htrue, hread⟩ := hnew'.restore_snapshot hc ht hcap (hqty.symm ▸ hw) h.capacity pad
    rw [hsnap]
    refine ⟨htrue, fun pad' => ?_⟩
    have hagain := hw.restored_snapshot pad'
    rw [h.capacity] at hagain
    rw [hread.snapshot_eq ht, hagain, PriorityBook.snapshot_eq_iff, PriorityBook.length_records,
      hlen]

/-- Two asks under one id, the dearer first, behind a throttle byte no engine writes. -/
def twoAsks : List UInt8 :=
  ({ ticks := 2, maxOrders := 2, topThrottle := 7, numOrders := 2 } : SnapshotHeader).bytes ++
    SnapshotOrderRecord.emit (fun _ => 0) [⟨7, 5, 1, 1, 0, 0⟩, ⟨7, 3, 0, 1, 1, 0⟩]

theorem restore_canonical_two_asks :
    let r := (new [] {} .zeroed : Engine (List Event) 2 2 .byId).restore twoAsks
    r.1 = true ∧ r.2.Coherent ∧
      (r.2.snapshot fun _ => 0).length = 80 + 32 * r.2.book.arena.inUse ∧
      ∀ (cfg' : EngineConfig) (mem' : Memory), cfg'.maxOrderQty = 4294967296 →
        let r' := (new [] cfg' mem' : Engine (List Event) 2 2 .byId).restore
          (r.2.snapshot fun _ => 0)
        r'.1 = true ∧ ∀ pad' : ℕ → UInt32, r'.2.snapshot pad' = r.2.snapshot (fun _ => 0) ↔
          ∀ i < r.2.book.arena.inUse, pad' i = 0 :=
  have hacc : ((new [] {} .zeroed : Engine (List Event) 2 2 .byId).restore twoAsks).1 = true := by
    decide +kernel
  have h := restore_canonical (Q := List Event) [] {} .zeroed (by decide) (by decide) (by decide)
    _ hacc fun _ => 0
  ⟨hacc, h.1, h.2.2.2.1, h.2.2.2.2.2 []⟩

/-- What is written again after a snapshot was read can end otherwise. -/
theorem restore_canonical_other_padding :
    let e := ((new [] {} .zeroed : Engine (List Event) 2 2 .byId).restore twoAsks).2
    let r := (new [] {} .zeroed : Engine (List Event) 2 2 .byId).restore (e.snapshot fun _ => 0)
    r.1 = true ∧ r.2.snapshot (fun _ => 0x01000000) ≠ e.snapshot (fun _ => 0) := by
  decide +kernel

end Engine
end Orderbooks
