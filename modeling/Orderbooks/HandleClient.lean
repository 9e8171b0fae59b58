import Orderbooks.Handles
import Orderbooks.Accounting

/-!
# A client that keeps its handles

A client of an engine that issues handles sends back, with every cancel and modify, the
handle it was last returned for the id it names. Orders come and go and are renamed, so many
of these handles are stale. The engine then does what an engine does that is given the ids
alone and looks the orders up in its index.
-/
namespace Orderbooks
open Runs

namespace Engine

variable {P : Type} [Publisher P] {ticks maxOrders : ℕ} {lookup : OrderLookup} {p0 : P}
  {cmd : Command} {x : ℕ}

/-- The command with the handle its client has for the order it names. -/
def withHandle (hdl : OrderHandle) : Command → Command
  | .submit m => .submit m
  | .cancel m => .cancel { m with handle := hdl }
  | .modify m => .modify { m with handle := hdl }

/-- What a client knows after a command: the handle a submit returned under the id of the
order, the handle a modify returned under the id it left the order with. Whether a modify that
found no order counts as having returned the empty handle for it is the client's choice. -/
def record (forget : Bool) (known : UInt64 → OrderHandle) (found : Bool) (hdl : OrderHandle) :
    Command → UInt64 → OrderHandle
  | .submit m => Function.update known m.id hdl
  | .cancel _ => known
  | .modify m => if found || forget then Function.update known m.effectiveId hdl else known

/-- One command of a client that sends back the handles it was returned. -/
def drive (forget : Bool) (c : Engine P ticks maxOrders .byHandle × (UInt64 → OrderHandle))
    (cmd : Command) : Engine P ticks maxOrders .byHandle × (UInt64 → OrderHandle) :=
  let cmd := withHandle (c.2 cmd.id) cmd
  (c.1.apply cmd, record forget c.2 (c.1.reached cmd).isSome (c.1.issue cmd) cmd)

@[simp] theorem withHandle_id (hdl : OrderHandle) (cmd : Command) :
    (withHandle hdl cmd).id = cmd.id := by
  cases cmd <;> rfl

theorem withHandle_inDomain {hdl : OrderHandle} {maxQty : UInt64} :
    (withHandle hdl cmd).InDomain ticks maxQty ↔ cmd.InDomain ticks maxQty := by
  cases cmd <;> exact Iff.rfl

theorem applyAt_withHandle (b : PriorityBook ticks) (target : Option ℕ) (hdl : OrderHandle)
    (cmd : Command) : b.applyAt target (withHandle hdl cmd) = b.applyAt target cmd := by
  cases cmd <;> rfl

/-- A handle returned for a resting order is recorded under the id of the order. -/
theorem record_of_residency {forget : Bool} {known : UInt64 → OrderHandle} {hdl : OrderHandle}
    {e : Engine P ticks maxOrders .byHandle} (hx : e.residency cmd = some x) :
    record forget known (e.reached cmd).isSome hdl cmd cmd.effectiveId = hdl := by
  cases cmd with
  | submit m => exact Function.update_self ..
  | cancel m => simp [residency] at hx
  | modify m =>
      have hfound : (e.reached (.modify m)).isSome := by
        rw [Option.isSome_iff_ne_none]
        intro hnone
        obtain ⟨-, -, -, hres⟩ := apply_of_unreached rfl (by simp) hnone
        simp [hres] at hx
      simp only [record, hfound, Bool.true_or, if_true]
      exact Function.update_self ..

/-- Nothing is recorded under another id, or by a cancel. -/
theorem record_of_unnamed {forget found : Bool} {known : UInt64 → OrderHandle}
    {hdl : OrderHandle} {id : UInt64} (h : (∀ m, cmd ≠ .cancel m) → id ≠ cmd.effectiveId) :
    record forget known found hdl cmd id = known id := by
  cases cmd with
  | submit m => exact Function.update_of_ne (h (by simp)) ..
  | cancel m => rfl
  | modify m =>
      unfold record
      split_ifs
      · exact Function.update_of_ne (h (by simp)) ..
      · rfl

section Lockstep

variable {eId : Engine P ticks maxOrders .byId} {cfg : EngineConfig}
  {c : Engine P ticks maxOrders .byHandle × (UInt64 → OrderHandle)}

/-- Two engines stand for one machine, and the client knows the handle of every resting order. -/
structure Lockstep (p0 : P) (cfg : EngineConfig) (eId : Engine P ticks maxOrders .byId)
    (c : Engine P ticks maxOrders .byHandle × (UInt64 → OrderHandle)) : Prop where
  machine : ∃ b, eId.Refines p0 b ∧ c.1.Refines p0 b ∧ b.Orderly cfg
  known : ∀ x, c.1.book.Held x → c.2 (c.1.order x).id = c.1.handleOf x

theorem Lockstep.held_iff (h : Lockstep p0 cfg eId c) (hx : x < maxOrders) :
    c.1.book.Held x ↔ SlabArena.Allocated (c.1.book.arena.generation x) := by
  obtain ⟨b, -, ⟨-, tag, hrep⟩, -⟩ := h.machine
  exact hrep.held_iff rfl hx

/-- The handle the client has for an order reaches it. -/
theorem Lockstep.reached (h : Lockstep p0 cfg eId c) (hslots : maxOrders ≤ 2 ^ 32)
    (hne : ∀ m, cmd ≠ .submit m) (hx : c.1.book.Held x) (hid : (c.1.order x).id = cmd.id) :
    c.1.reached (withHandle (c.2 cmd.id) cmd) = some x := by
  have hlt : x < maxOrders := by
    obtain ⟨b, -, ⟨-, tag, hrep⟩, -⟩ := h.machine
    exact hrep.book.held_lt hx
  have hres : c.1.resolve (c.2 cmd.id) cmd.id = some x := by
    rw [← hid, h.known x hx, resolve_eq_some_iff]
    exact ⟨UInt32.toNat_ofNat_of_lt' (lt_of_lt_of_le hlt hslots), hlt, (h.held_iff hlt).mp hx,
      rfl, rfl⟩
  cases cmd with
  | submit m => exact absurd rfl (hne m)
  | cancel m => exact (congrArg Prod.fst (find_byHandle rfl ..)).trans hres
  | modify m => exact (congrArg Prod.fst (find_byHandle rfl ..)).trans hres

/-- A command takes both engines to one machine. -/
theorem Lockstep.apply (h : Lockstep p0 cfg eId c) (hc : 0 < maxOrders) (ht : ticks ≤ 64 ^ 4)
    (hslots : maxOrders ≤ 2 ^ 32) (hdom : cmd.InDomain ticks cfg.maxOrderQty)
    (hfresh : eId.Fresh cmd) :
    ∃ b, (eId.apply cmd).Refines p0 b ∧
      (c.1.apply (withHandle (c.2 cmd.id) cmd)).Refines p0 b ∧ b.Orderly cfg := by
  obtain ⟨b, hI, hH, hb⟩ := h.machine
  obtain ⟨target, hreach, happly⟩ := hI.apply hc ht hdom.inRange
  have hdom' : (withHandle (c.2 cmd.id) cmd).InDomain ticks cfg.maxOrderQty :=
    withHandle_inDomain.mpr hdom
  obtain ⟨target', hreach', happly', hsame⟩ := hH.apply_reached hc ht hdom'.inRange
  rw [applyAt_withHandle] at happly'
  obtain ⟨hu, heffect⟩ := hI.effect hreach
  refine ⟨b.applyAt target cmd, happly, ?_, hb.applyAt hI.1 hu hdom (hI.fresh hfresh) heffect⟩
  by_cases hsub : ∃ m, cmd = .submit m
  · obtain ⟨m, rfl⟩ := hsub
    exact happly'
  · have hne : ∀ m, cmd ≠ .submit m := fun m hm => hsub ⟨m, hm⟩
    suffices target' = target by rwa [this] at happly'
    ext u
    constructor
    · intro hu'
      obtain ⟨hlinked, hid⟩ := hreach'.1 u hu'
      rw [withHandle_id] at hid
      rw [hreach.2 rfl, ← hid]
      exact hb.exact u hlinked
    · intro hu'
      obtain ⟨hlinked, hid⟩ := hreach.1 u hu'
      -- the order rests in a slot of the other engine, whose handle the client knows
      obtain ⟨s, p, -, x, hmem, hxid⟩ : c.1.Resting cmd.id := by
        by_contra hrest
        exact (hH.absent_iff cmd.id).mpr hrest u hlinked hid
      have hx := h.reached hslots hne ⟨s, p, hmem⟩ hxid
      have hmap := hsame fun m hm => by cases cmd <;> simp_all [withHandle]
      rw [hx, Option.map_some, Option.map_eq_some_iff] at hmap
      obtain ⟨v, hv, -⟩ := hmap
      obtain ⟨hvlinked, hvid⟩ := hreach'.1 v hv
      rw [withHandle_id] at hvid
      rw [hv, hb.exact.injective hvlinked hlinked (hvid.trans hid.symm)]

theorem Lockstep.resting (h : Lockstep p0 cfg eId c) (hx : c.1.book.Held x) :
    eId.Resting (c.1.order x).id := by
  obtain ⟨b, hI, ⟨hd, tag, hrep⟩, -⟩ := h.machine
  by_contra hrest
  rw [hrep.order_eq hx] at hrest
  exact (hI.absent_iff _).mpr hrest (tag x) (hrep.book.linked hd hx) rfl

/-- The client goes on knowing the handle of every resting order. -/
theorem Lockstep.drive (h : Lockstep p0 cfg eId c) (hc : 0 < maxOrders) (ht : ticks ≤ 64 ^ 4)
    (hslots : maxOrders ≤ 2 ^ 32) (hdom : cmd.InDomain ticks cfg.maxOrderQty)
    (hfresh : eId.Fresh cmd) (forget : Bool) :
    Lockstep p0 cfg (eId.apply cmd) (drive forget c cmd) := by
  have hmachine := h.apply hc ht hslots hdom hfresh
  refine ⟨hmachine, fun x hx => ?_⟩
  have hdom' : (withHandle (c.2 cmd.id) cmd).InDomain ticks cfg.maxOrderQty :=
    withHandle_inDomain.mpr hdom
  obtain ⟨b, -, hH, -⟩ := h.machine
  obtain ⟨b', -, ⟨-, tag, hrep⟩, -⟩ := hmachine
  have hmoves := hH.apply_moves rfl hc ht hdom'.inRange
  have hlt := hrep.book.held_lt hx
  have hal := (hrep.held_iff rfl hlt).mp hx
  change record forget _ _ _ _ ((c.1.apply (withHandle (c.2 cmd.id) cmd)).order x).id =
    (c.1.apply (withHandle (c.2 cmd.id) cmd)).handleOf x
  by_cases hres : c.1.residency (withHandle (c.2 cmd.id) cmd) = some x
  · -- the handle just returned
    obtain ⟨-, -, hid, hissue⟩ := hmoves.resides x hres
    rw [hid, record_of_residency hres, hissue]
  · -- a handle known before
    obtain ⟨hal', hhdl, hreach, hid⟩ := hmoves.stays hlt hal hres
    have hx' := (h.held_iff hlt).mpr hal'
    rw [hid, hhdl, ← h.known x hx']
    refine record_of_unnamed fun hcancel hname => ?_
    have hrest := h.resting hx'
    cases cmd with
    | submit m =>
        have hname : (c.1.order x).id = m.id := hname
        exact hfresh (hname ▸ hrest)
    | cancel m => exact absurd rfl (hcancel _)
    | modify m =>
        by_cases hnew : m.newId ≠ 0 ∧ m.newId ≠ m.id
        · have hname : (c.1.order x).id = m.newId := hname.trans (if_pos hnew.1)
          exact hfresh hnew (hname ▸ hrest)
        · -- an order under the id the modify names is the one it reaches
          have heff : m.effectiveId = m.id := by
            unfold ModifyMsg.effectiveId
            split_ifs with hz
            · simpa [hz] using hnew
            · rfl
          exact hreach (h.reached hslots (by simp) hx' (hname.trans heff))

theorem Lockstep.run (h : Lockstep p0 cfg eId c) (hc : 0 < maxOrders) (ht : ticks ≤ 64 ^ 4)
    (hslots : maxOrders ≤ 2 ^ 32) (forget : Bool) {cmds : List Command}
    (hdom : ∀ cmd ∈ cmds, cmd.InDomain ticks cfg.maxOrderQty)
    (hfresh : Along Engine.apply Fresh eId cmds) :
    Lockstep p0 cfg (cmds.foldl Engine.apply eId) (cmds.foldl (Engine.drive forget) c) := by
  induction cmds generalizing eId c with
  | nil => exact h
  | cons cmd cmds ih =>
      exact ih (h.drive hc ht hslots (hdom cmd (by simp)) hfresh.1 forget)
        (fun c hmem => hdom c (by simp [hmem])) hfresh.2

end Lockstep

/-- For any commands in their domains that reuse no resting id, an engine that looks orders up
by handle, driven with the handles it returned, publishes what an engine that looks them up by
id publishes, and holds the same book. -/
theorem drive_eq_play (pub : P) (cfg : EngineConfig) (mem mem' : Memory) (hc : 0 < maxOrders)
    (ht : ticks ≤ 64 ^ 4) (hslots : maxOrders ≤ 2 ^ 32) (forget : Bool) (cmds : List Command)
    (hdom : ∀ cmd ∈ cmds, cmd.InDomain ticks cfg.maxOrderQty)
    (hfresh : Along apply Fresh (new pub cfg mem : Engine P ticks maxOrders .byId) cmds) :
    let e : Engine P ticks maxOrders .byId := play pub cfg mem cmds
    let e' : Engine P ticks maxOrders .byHandle :=
      (cmds.foldl (drive forget) (new pub cfg mem', fun _ => {})).1
    e'.pub = e.pub ∧ e'.state = e.state ∧
      ∀ s, (e'.side s).best = (e.side s).best ∧ ∀ p, e'.recordsAt s p = e.recordsAt s p ∧
        (e'.side s).aggregateAt p = (e.side s).aggregateAt p := by
  have hstart : Lockstep pub cfg (new pub cfg mem : Engine P ticks maxOrders .byId)
      (new pub cfg mem', fun _ => {}) :=
    ⟨⟨_, new_refines pub cfg mem hc, new_refines pub cfg mem' hc, .empty, .empty, rfl⟩,
      fun x hx => by
        obtain ⟨s, p, hmem⟩ := hx
        cases s <;> simp [new, Book.new, Book.side] at hmem⟩
  obtain ⟨b, hI, hH, -⟩ := (hstart.run hc ht hslots forget hdom hfresh).machine
  obtain ⟨-, tag, hrepI⟩ := id hI
  obtain ⟨-, tag', hrepH⟩ := id hH
  refine ⟨hrepH.pub.trans hrepI.pub.symm, hrepH.state.trans hrepI.state.symm, fun s =>
    ⟨(hH.best_eq s).trans (hI.best_eq s).symm, fun p => ⟨?_, ?_⟩⟩⟩
  · exact (hH.recordsAt_eq s p).trans (hI.recordsAt_eq s p).symm
  · rw [hrepH.aggregateAt_eq, ← hrepI.aggregateAt_eq]
    rfl

/-- An order that is renamed, a cancel under the id it no longer has, and a cancel of it in a
slot that is then used again. -/
theorem drive_eq_play_renamed :
    let cmds : List Command := [.submit ⟨1, 0, 5, .bid, .gtc, 0⟩,
      .modify { id := 1, newPx := 0, newQty := 5, newId := 3 }, .cancel ⟨1, {}⟩, .cancel ⟨3, {}⟩,
      .submit ⟨1, 1, 2, .bid, .gtc, 0⟩, .cancel ⟨3, {}⟩]
    let e : Engine (List Event) 2 2 .byId := play [] {} .zeroed cmds
    let e' : Engine (List Event) 2 2 .byHandle :=
      (cmds.foldl (drive true) (new [] {} .zeroed, fun _ => {})).1
    e.recordsAt .bid 1 = [⟨1, 2, 1, .bid, .gtc, 0⟩] ∧ e'.pub = e.pub ∧ e'.state = e.state ∧
      ∀ s, (e'.side s).best = (e.side s).best ∧ ∀ p, e'.recordsAt s p = e.recordsAt s p ∧
        (e'.side s).aggregateAt p = (e.side s).aggregateAt p :=
  ⟨by decide, drive_eq_play [] {} .zeroed .zeroed (by decide) (by decide) (by decide) true _
    (by decide) (by decide)⟩

section Wide

variable {n : ℕ}

theorem ofNat_inj {j k : ℕ} (hj : j < 2 ^ 64) (hk : k < 2 ^ 64)
    (h : UInt64.ofNat j = UInt64.ofNat k) : j = k := by
  have := congrArg UInt64.toNat h
  rwa [UInt64.toNat_ofNat_of_lt' hj, UInt64.toNat_ofNat_of_lt' hk] at this

theorem bids_fresh (pub : P) (cfg : EngineConfig) (mem : Memory) (hticks : 0 < ticks)
    (hn : n ≤ maxOrders) (hlt : n < 2 ^ 64) :
    Along apply Fresh (new pub cfg mem : Engine P ticks maxOrders lookup) (bids n) := by
  induction n with
  | zero => trivial
  | succ n ih =>
      rw [bids_succ]
      refine along_append.mpr ⟨ih (by omega) (by omega), ?_, trivial⟩
      have hfilled : (play pub cfg mem (bids n) : Engine P ticks maxOrders lookup).Filled n :=
        (play_bids pub cfg mem (by omega)).1
      intro hrest
      obtain ⟨k, hk, hid⟩ := (hfilled.resting_iff hticks).mp hrest
      have := ofNat_inj (by omega) (by omega) hid
      omega

/-- What a client knows after the bids: the handle of the last one. -/
theorem drive_bids (forget : Bool) (pub : P) (cfg : EngineConfig) (mem : Memory)
    (hn : n < maxOrders) :
    let c := (bids (n + 1)).foldl (drive forget)
      ((new pub cfg mem : Engine P ticks maxOrders .byHandle), fun _ => {})
    c.1 = play pub cfg mem (bids (n + 1)) ∧
      c.2 (UInt64.ofNat (n + 1)) = ⟨UInt32.ofNat n, 1⟩ := by
  have hfst : ∀ k ≤ maxOrders, ((bids k).foldl (drive forget)
      ((new pub cfg mem : Engine P ticks maxOrders .byHandle), fun _ => {})).1 =
        play pub cfg mem (bids k) := by
    intro k hk
    induction k with
    | zero => rfl
    | succ k ih =>
        rw [play, bids_succ, List.foldl_concat, List.foldl_concat]
        exact congrArg (fun e : Engine P ticks maxOrders .byHandle =>
          e.apply (.submit ⟨UInt64.ofNat (k + 1), 0, 1, .bid, .gtc, 0⟩)) (ih (by omega))
  refine ⟨hfst (n + 1) hn, ?_⟩
  have hfilled : (play pub cfg mem (bids n) : Engine P ticks maxOrders .byHandle).Filled n :=
    (play_bids pub cfg mem hn.le).1
  have hlast := (hfilled.submit hn).2.2 rfl
  rw [bids_succ, List.foldl_concat]
  refine (Function.update_self ..).trans ?_
  rw [hfst n hn.le]
  exact hlast

/-- A cancel by id leaves no order under that id, if there was only one. -/
theorem Refines.cancel_absent {eId : Engine P ticks maxOrders .byId} {b : PriorityBook ticks}
    {m : CancelMsg} (h : eId.Refines p0 b) (hx : b.queues.Exact) (hc : 0 < maxOrders)
    (ht : ticks ≤ 64 ^ 4) (hid : m.id ≠ emptyKey) : ¬(eId.onCancel m).Resting m.id := by
  have hr : (Command.cancel m).InRange ticks := hid
  obtain ⟨target, hreach, happly⟩ := h.apply hc ht hr
  refine (happly.absent_iff m.id).mp ?_
  cases target with
  | none =>
      change b.queues.Absent m.id
      intro u hu hu'
      have hindex : none = b.queues.index m.id := hreach.2 rfl
      rw [← hu', hx u hu] at hindex
      simp at hindex
  | some u =>
      obtain ⟨hu, hu'⟩ := hreach.1 u rfl
      change (b.cancelAt u).queues.Absent m.id
      rw [PriorityBook.cancelAt_queues, ← show (b.order u).id = m.id from hu']
      exact hx.absent_drop h.1 hu

/-- With more slots than a handle can name, a client that cancels the order in slot `n` names
slot zero, and the order stays. -/
theorem kept_of_wide {cfg : EngineConfig} (mem : Memory) (forget : Bool) {n : ℕ}
    (hn : UInt32.ofNat n = 0) (hpos : 0 < n) (hqty : 1 ≤ cfg.maxOrderQty)
    (hlt : n + 2 < 2 ^ 64 - 1) :
    let id := UInt64.ofNat (n + 1)
    let cmds := bids (n + 1) ++ [.cancel ⟨id, {}⟩]
    let e : Engine (List Event) 2 (n + 1) .byId := play [] cfg mem cmds
    let e' : Engine (List Event) 2 (n + 1) .byHandle :=
      (cmds.foldl (drive forget) (new [] cfg mem, fun _ => {})).1
    (∀ cmd ∈ cmds, cmd.InDomain 2 cfg.maxOrderQty) ∧
      Along apply Fresh (new [] cfg mem : Engine (List Event) 2 (n + 1) .byId) cmds ∧
      (new [] cfg mem : Engine (List Event) 2 (n + 1) .byHandle).allocations (bids (n + 1)) =
        List.range (n + 1) ∧
      e'.Resting id ∧ ¬e.Resting id := by
  intro id cmds e e'
  have hvalid : ValidId id := validId_ofNat (by omega) (by omega)
  have hbids : ∀ cmd ∈ bids (n + 1), cmd.InDomain 2 cfg.maxOrderQty :=
    bids_inDomain Nat.two_pos hqty (by omega)
  have hfresh : Along apply Fresh (new [] cfg mem : Engine (List Event) 2 (n + 1) .byId)
    (bids (n + 1)) := bids_fresh [] cfg mem Nat.two_pos (le_refl _) (by omega)
  obtain ⟨hfilled, halloc⟩ : (play [] cfg mem (bids (n + 1)) :
    Engine (List Event) 2 (n + 1) .byHandle).Filled (n + 1) ∧ _ := play_bids [] cfg mem (le_refl _)
  refine ⟨fun cmd hmem => ?_, along_append.mpr ⟨hfresh, trivial, trivial⟩, halloc, ?_, ?_⟩
  · rcases List.mem_append.mp hmem with hmem | hmem
    · exact hbids cmd hmem
    · rw [List.mem_singleton.mp hmem]
      exact hvalid
  · obtain ⟨hfst, hknown⟩ := drive_bids forget ([] : List Event) cfg mem (Nat.lt_succ_self n)
    rw [hn] at hknown
    have hnone : (play [] cfg mem (bids (n + 1)) : Engine (List Event) 2 (n + 1) .byHandle).reached
        (.cancel ⟨id, ⟨0, 1⟩⟩) = none := by
      change (Engine.find _ id ⟨0, 1⟩ true).1 = none
      rw [find_byHandle rfl, Option.eq_none_iff_forall_ne_some]
      intro y hy
      obtain ⟨rfl, -, -, -, hid⟩ := resolve_eq_some_iff.mp hy
      rw [show (0 : UInt32).toNat = 0 from rfl, hfilled.id 0 (by omega)] at hid
      have := ofNat_inj (by omega) (by omega) hid
      omega
    have hsame := (apply_of_unreached rfl (by simp) hnone).1
    have he' : e' = play [] cfg mem (bids (n + 1)) := by
      change (List.foldl (drive forget) _ (bids (n + 1) ++ [.cancel ⟨id, {}⟩])).1 = _
      rw [List.foldl_concat]
      refine Eq.trans ?_ hsame
      exact congr (congrArg Engine.apply hfst) (congrArg (fun h => Command.cancel ⟨id, h⟩) hknown)
    rw [he', hfilled.resting_iff Nat.two_pos]
    exact ⟨n, Nat.lt_succ_self n, rfl⟩
  · obtain ⟨b, href, hb⟩ := play_orderly [] cfg mem (Nat.succ_pos n) (by decide) hbids hfresh
    have he : e = (play [] cfg mem (bids (n + 1)) :
        Engine (List Event) 2 (n + 1) .byId).onCancel ⟨id, {}⟩ := by
      change List.foldl Engine.apply _ (bids (n + 1) ++ [.cancel ⟨id, {}⟩]) = _
      rw [List.foldl_concat]
      rfl
    rw [he]
    exact href.cancel_absent hb.exact (Nat.succ_pos n) (by decide) hvalid.2

end Wide

/-- One slot more than a handle can name: the client's cancel of the last order does not reach
it, and that of the engine that looks orders up by id does. -/
theorem drive_ne_play_wide :
    let id := UInt64.ofNat (2 ^ 32 + 1)
    let cmds := bids (2 ^ 32 + 1) ++ [.cancel ⟨id, {}⟩]
    let e : Engine (List Event) 2 (2 ^ 32 + 1) .byId := play [] {} .zeroed cmds
    let e' : Engine (List Event) 2 (2 ^ 32 + 1) .byHandle :=
      (cmds.foldl (drive true) (new [] {} .zeroed, fun _ => {})).1
    (∀ cmd ∈ cmds, cmd.InDomain 2 ({} : EngineConfig).maxOrderQty) ∧
      Along apply Fresh (new [] {} .zeroed : Engine (List Event) 2 (2 ^ 32 + 1) .byId) cmds ∧
      (new [] {} .zeroed : Engine (List Event) 2 (2 ^ 32 + 1) .byHandle).allocations
        (bids (2 ^ 32 + 1)) = List.range (2 ^ 32 + 1) ∧
      e'.Resting id ∧ ¬e.Resting id :=
  kept_of_wide .zeroed true (by decide) (by decide) (by decide) (by decide)

end Engine
end Orderbooks
