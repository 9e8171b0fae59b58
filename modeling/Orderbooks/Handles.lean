import Orderbooks.Residency

/-!
# Handles

An order is named by a slot and the generation of that slot. A handle comes from a client,
which may keep it after its order has left the book, or make one up. It reaches an order
only while the residency it was issued for lasts.

A handle stores its slot in 32 bits, so this needs an arena of at most `2 ^ 32` slots. With
one slot more, two resting orders can be issued the same handle.
-/
namespace Orderbooks
open Runs

/-- Fields in their documented domains, with nothing said of the id a cancel or modify names
its order by. -/
def Command.FieldsInDomain (ticks : ℕ) (maxOrderQty : UInt64) : Command → Prop
  | .submit m => m.px < ticks ∧ 0 < m.qty ∧ m.qty ≤ maxOrderQty ∧ ValidId m.id
  | .cancel _ => True
  | .modify m => m.newPx < ticks ∧ 0 < m.newQty ∧ m.newQty ≤ maxOrderQty ∧ m.newId ≠ emptyKey

instance (ticks : ℕ) (maxOrderQty : UInt64) :
    DecidablePred (Command.FieldsInDomain ticks maxOrderQty) := fun c =>
  match c with
  | .submit _ => inferInstanceAs (Decidable (_ ∧ _ ∧ _ ∧ ValidId _))
  | .cancel _ => isTrue trivial
  | .modify _ => inferInstanceAs (Decidable (_ ∧ _ ∧ _ ∧ _))

theorem Command.FieldsInDomain.inDomain_or {ticks : ℕ} {maxOrderQty : UInt64} {cmd : Command}
    (h : cmd.FieldsInDomain ticks maxOrderQty) :
    cmd.InDomain ticks maxOrderQty ∨ (∀ m, cmd ≠ .submit m) ∧ ¬ValidId cmd.id := by
  by_cases hid : ValidId cmd.id
  · left
    cases cmd with
    | submit m => exact h
    | cancel m => exact hid
    | modify m => exact ⟨h.1, h.2.1, h.2.2.1, hid, h.2.2.2⟩
  · cases cmd with
    | submit m => exact absurd h.2.2.2 hid
    | cancel m => exact .inr ⟨by simp, hid⟩
    | modify m => exact .inr ⟨by simp, hid⟩

namespace Engine

variable {P : Type} [Publisher P] {ticks maxOrders : ℕ} {lookup : OrderLookup} {p0 : P}
  {e : Engine P ticks maxOrders lookup} {cmd : Command} {x : ℕ}

/-- The slots that the commands of a run allocate, in turn. -/
def allocations (e : Engine P ticks maxOrders lookup) : List Command → List ℕ
  | [] => []
  | cmd :: cmds => (e.allocated cmd).toList ++ (e.apply cmd).allocations cmds

theorem allocations_append (cmds cmds' : List Command) :
    e.allocations (cmds ++ cmds') =
      e.allocations cmds ++ (cmds.foldl Engine.apply e).allocations cmds' := by
  induction cmds generalizing e with
  | nil => rfl
  | cons cmd cmds ih =>
      simp only [List.cons_append, allocations, ih, List.append_assoc, List.foldl_cons]

omit [Publisher P] in
theorem reached_eq (hl : lookup = .byHandle) (hne : ∀ m, cmd ≠ .submit m) :
    ∃ hdl, e.reached cmd = e.resolve hdl cmd.id := by
  cases cmd with
  | submit m => exact absurd rfl (hne m)
  | cancel m => exact ⟨m.handle, congrArg Prod.fst (find_byHandle hl ..)⟩
  | modify m => exact ⟨m.handle, congrArg Prod.fst (find_byHandle hl ..)⟩

/-- A cancel or modify that finds nothing changes nothing. -/
theorem apply_of_unreached (hl : lookup = .byHandle) (hne : ∀ m, cmd ≠ .submit m)
    (hreach : e.reached cmd = none) :
    e.apply cmd = e ∧ e.issue cmd = {} ∧ e.allocated cmd = none ∧ e.residency cmd = none := by
  cases cmd with
  | submit m => exact absurd rfl (hne m)
  | cancel m =>
      have hf : (e.find m.id m.handle true).1 = none := hreach
      refine ⟨?_, rfl, rfl, rfl⟩
      change e.onCancel m = e
      rw [onCancel_none hf, find_byHandle hl]
  | modify m =>
      have hf : (e.find m.id m.handle m.renames).1 = none := hreach
      have hmod : e.onModify m = ({}, e) := by rw [onModify_none hf, find_byHandle hl]
      refine ⟨congrArg Prod.snd hmod, congrArg Prod.fst hmod, ?_, ?_⟩
      · rw [allocated, leg_modify_none hf]
        rfl
      · rw [residency, leg_modify_none hf, if_neg (by simp), hreach]

/-! ## Reachable states -/

/-- What holds of an engine in which `slots` have been allocated. -/
structure Governed (p0 : P) (maxQty : UInt64) (slots : List ℕ)
    (e : Engine P ticks maxOrders lookup) : Prop where
  machine : ∃ b, e.Refines p0 b ∧ b.queues.Sound maxQty ∧ b.queues.Counted maxOrders
  counts : e.book.arena.Counts slots

theorem new_governed (pub : P) (cfg : EngineConfig) (mem : Memory) (hc : 0 < maxOrders) :
    (new pub cfg mem : Engine P ticks maxOrders lookup).Governed pub cfg.maxOrderQty [] := by
  refine ⟨⟨_, new_refines pub cfg mem hc, .empty, .empty⟩, fun x _ => ?_⟩
  -- no slot has been handed out, so every generation reads as zero
  exact (if_neg SlabArena.not_allocated_zero).mpr rfl

section Governed

variable {maxQty : UInt64} {slots : List ℕ}

theorem Governed.held_iff (h : e.Governed p0 maxQty slots) (hl : lookup = .byHandle)
    (hx : x < maxOrders) : e.book.Held x ↔ SlabArena.Allocated (e.book.arena.generation x) := by
  obtain ⟨b, ⟨hd, tag, hrep⟩, -⟩ := h.machine
  exact hrep.held_iff hl hx

theorem Governed.held_lt (h : e.Governed p0 maxQty slots) (hx : e.book.Held x) :
    x < maxOrders := by
  obtain ⟨b, ⟨hd, tag, hrep⟩, -⟩ := h.machine
  exact hrep.book.held_lt hx

/-- Only an id in its domain can name a resting order. -/
theorem Governed.validId (h : e.Governed p0 maxQty slots) (hx : e.book.Held x) :
    ValidId (e.order x).id := by
  obtain ⟨b, ⟨hd, tag, hrep⟩, hs, -⟩ := h.machine
  rw [hrep.order_eq hx]
  exact (hs _ (hrep.book.linked hd hx)).id

/-- A handle resolves to an order that rests, in that slot, with that generation and id. -/
theorem Governed.resolve_iff (h : e.Governed p0 maxQty slots) (hl : lookup = .byHandle)
    {hdl : OrderHandle} {id : UInt64} :
    e.resolve hdl id = some x ↔ e.book.Held x ∧ hdl.slot.toNat = x ∧
      hdl.generation = e.book.arena.generation x ∧ (e.order x).id = id := by
  rw [resolve_eq_some_iff]
  constructor
  · rintro ⟨hslot, hlt, hal, hgen, hid⟩
    exact ⟨(h.held_iff hl hlt).mpr hal, hslot, hgen.symm, hid⟩
  · rintro ⟨hheld, hslot, hgen, hid⟩
    have hlt := h.held_lt hheld
    exact ⟨hslot, hlt, (h.held_iff hl hlt).mp hheld, hgen.symm, hid⟩

theorem Governed.unreached (h : e.Governed p0 maxQty slots) (hl : lookup = .byHandle)
    (hne : ∀ m, cmd ≠ .submit m) (hid : ¬ValidId cmd.id) : e.reached cmd = none := by
  obtain ⟨hdl, heq⟩ := e.reached_eq hl hne
  rw [heq, Option.eq_none_iff_forall_ne_some]
  intro y hy
  obtain ⟨hheld, -, -, hyid⟩ := (h.resolve_iff hl).mp hy
  exact hid (hyid ▸ h.validId hheld)

theorem Governed.apply (h : e.Governed p0 maxQty slots) (hl : lookup = .byHandle)
    (hc : 0 < maxOrders) (ht : ticks ≤ 64 ^ 4) (hcmd : cmd.FieldsInDomain ticks maxQty) :
    (e.apply cmd).Governed p0 maxQty (slots ++ (e.allocated cmd).toList) := by
  rcases hcmd.inDomain_or with hdom | ⟨hne, hid⟩
  · obtain ⟨b, href, hs, hcount⟩ := h.machine
    obtain ⟨target, hreach, happly⟩ := href.apply hc ht hdom.inRange
    obtain ⟨hu, heffect⟩ := href.effect hreach
    exact ⟨⟨_, happly, hs.effect href.1 hu hdom heffect,
      hcount.effect href.1 hu hdom.inRange heffect⟩,
      (href.apply_moves hl hc ht hdom.inRange).turnover.counts h.counts⟩
  · obtain ⟨happly, -, halloc, -⟩ := apply_of_unreached hl hne (h.unreached hl hne hid)
    rw [happly, halloc]
    simpa using h

theorem Governed.run (h : e.Governed p0 maxQty slots) (hl : lookup = .byHandle)
    (hc : 0 < maxOrders) (ht : ticks ≤ 64 ^ 4) {cmds : List Command}
    (hcmds : ∀ cmd ∈ cmds, cmd.FieldsInDomain ticks maxQty) :
    (cmds.foldl Engine.apply e).Governed p0 maxQty (slots ++ e.allocations cmds) := by
  induction cmds generalizing e slots with
  | nil => simpa [allocations] using h
  | cons cmd cmds ih =>
      have := ih (h.apply hl hc ht (hcmds cmd (by simp))) fun c hc' => hcmds c (by simp [hc'])
      rwa [List.append_assoc] at this

/-- The handle a command returns is that of the order it leaves resting. -/
theorem Governed.issue_eq (h : e.Governed p0 maxQty slots) (hl : lookup = .byHandle)
    (hc : 0 < maxOrders) (ht : ticks ≤ 64 ^ 4) (hcmd : cmd.FieldsInDomain ticks maxQty)
    (hx : e.residency cmd = some x) :
    (e.apply cmd).book.Held x ∧ e.issue cmd = (e.apply cmd).handleOf x := by
  rcases hcmd.inDomain_or with hdom | ⟨hne, hid⟩
  · obtain ⟨b, href, -⟩ := h.machine
    obtain ⟨hlt, hal, -, hissue⟩ := (href.apply_moves hl hc ht hdom.inRange).resides x hx
    exact ⟨((h.apply hl hc ht hcmd).held_iff hl hlt).mpr hal, hissue⟩
  · obtain ⟨-, -, -, hnone⟩ := apply_of_unreached hl hne (h.unreached hl hne hid)
    simp [hnone] at hx

/-- The handle of a residency reaches its order while the residency lasts, and nothing
afterwards. -/
theorem Governed.resolve_handleOf_iff (h : e.Governed p0 maxQty slots) (hl : lookup = .byHandle)
    (hc : 0 < maxOrders) (ht : ticks ≤ 64 ^ 4) (hslots : maxOrders ≤ 2 ^ 32)
    {cmds : List Command} (hcmds : ∀ cmd ∈ cmds, cmd.FieldsInDomain ticks maxQty)
    (hfew : (slots ++ e.allocations cmds).count x < 2 ^ 31) (hx : e.book.Held x) (id : UInt64)
    (y : ℕ) :
    (cmds.foldl Engine.apply e).resolve (e.handleOf x) id = some y ↔
      y = x ∧ (cmds.foldl Engine.apply e).book.Held x ∧ x ∉ e.allocations cmds ∧
        ((cmds.foldl Engine.apply e).order x).id = id := by
  have hend := h.run hl hc ht hcmds
  have hlt := h.held_lt hx
  have hslot : (e.handleOf x).slot.toNat = x :=
    UInt32.toNat_ofNat_of_lt' (lt_of_lt_of_le hlt hslots)
  -- generations of a slot while it is held, as numbers that do not wrap
  have hgen : (cmds.foldl Engine.apply e).book.Held x →
      ((e.handleOf x).generation = (cmds.foldl Engine.apply e).book.arena.generation x ↔
        x ∉ e.allocations cmds) := by
    intro hheld
    have hold := h.counts x hlt
    have hnew := hend.counts x hlt
    rw [if_pos ((h.held_iff hl hlt).mp hx)] at hold
    rw [if_pos ((hend.held_iff hl hlt).mp hheld), List.count_append] at hnew
    rw [List.count_append] at hfew
    have hsize : UInt32.size = 2 ^ 32 := rfl
    change e.book.arena.generation x = _ ↔ _
    rw [hold.2, hnew.2, ← UInt32.toNat_inj, UInt32.toNat_ofNat_of_lt' (by omega),
      UInt32.toNat_ofNat_of_lt' (by omega), ← List.count_eq_zero]
    omega
  rw [hend.resolve_iff hl, hslot]
  constructor
  · rintro ⟨hheld, rfl, hsame, hid⟩
    exact ⟨rfl, hheld, (hgen hheld).mp hsame, hid⟩
  · rintro ⟨rfl, hheld, hnone, hid⟩
    exact ⟨hheld, rfl, (hgen hheld).mpr hnone, hid⟩

end Governed

/-! ## More slots than a handle can name -/

section Wide

variable {m : SubmitMsg}

/-- A submission that no maker crosses meets none. -/
theorem matchAgainstOpposite_passive
    (hno : ∀ p, (e.side m.s.opposite).best = some p → m.s.crosses m.px p = false) :
    matchAgainstOpposite m e = ⟨e, m.qty, false⟩ := by
  refine Loop.run_done ?_ _
  unfold levelTurn
  by_cases hz : m.qty = 0
  · exact if_pos hz
  rw [if_neg hz]
  dsimp only
  cases hbest : (e.side m.s.opposite).best with
  | none => rfl
  | some p =>
      dsimp only
      rw [hno p hbest]
      rfl

/-- A submission that meets no maker rests in the first free slot. -/
theorem onSubmit_passive {free : List ℕ} (hc : 0 < maxOrders)
    (hfree : e.book.arena.Free (x :: free)) (ht : m.t = .gtc) (hz : m.qty ≠ 0)
    (hno : ∀ p, (e.side m.s.opposite).best = some p → m.s.crosses m.px p = false) :
    let o : Order := ⟨m.id, m.qty, m.px, m.s, m.t, m.accountId⟩
    let e' := (e.onSubmit m).2
    e.restSlot m = some x ∧ e'.book.arena.Free free ∧ e'.order x = o ∧
      (∀ y, y ∉ x :: free → e'.order y = e.order y) ∧
      e'.side m.s = (e.side m.s).add m.s x o ∧ e'.side m.s.opposite = e.side m.s.opposite ∧
      (lookup = .byHandle → (∀ y < maxOrders, e'.book.arena.generation y =
        if y = x then e.book.arena.generation y + 1 else e.book.arena.generation y) ∧
        (e.onSubmit m).1 = e'.handleOf x) := by
  intro o e'
  obtain ⟨a, halloc, hfa, -, hcells⟩ := hfree.allocate_cons hc
  have hmatch := matchAgainstOpposite_passive hno
  have hkill : ¬(m.t = .fok ∧ !e.canFullyFill m.s.opposite m.px m.qty m.accountId) := by simp [ht]
  have hslot : e.restSlot m = some x := by
    unfold restSlot
    rw [if_neg hkill, hmatch]
    dsimp only
    rw [if_neg hz, ht, halloc]
  have hsub : e.handleSubmit m = e.rest m m.qty := by
    unfold handleSubmit
    rw [if_neg hkill, hmatch]
    dsimp only
    rw [if_neg hz, ht]
  obtain ⟨-, -, -, hside, harena, -⟩ := e.rest_parts m m.qty halloc
  have hbook : e'.book = (e.rest m m.qty).2.book := by
    have he' : e' = (e.handleSubmit m).2.publishTopIfChanged := rfl
    rw [he', hsub, publishTopIfChanged_book]
  have harena' : e'.book.arena = a.put x o := by
    rw [hbook]
    exact harena.trans (setSide_arena ..)
  have hside' : ∀ t, e'.side t = (e.linked m x o a).side t := fun t => by
    change e'.book.side t = _
    rw [hbook]
    exact hside t
  refine ⟨hslot, ?_, ?_, fun y hy => ?_, ?_, ?_, fun hl => ⟨fun y hy => ?_, ?_⟩⟩
  · rw [harena']
    exact hfa.put (List.nodup_cons.mp hfree.pool.nodup).1 o
  · rw [order, harena', SlabArena.slotAt_put_self]
  · have hne : y ≠ x := fun h => hy (h ▸ List.mem_cons_self)
    rw [order, harena', SlabArena.slotAt_put_of_ne hne, SlabArena.slotAt_congr (hcells y hy)]
    rfl
  · rw [hside']
    exact setSide_side_self ..
  · rw [hside']
    refine setSide_side _ _ _ _ ?_
    cases m.s <;> simp [Side.opposite]
  · rw [harena', SlabArena.generation_put,
      SlabArena.generation_allocate (decide_eq_true hl) halloc hy]
  · have hfst : (e.onSubmit m).1 = (e.handleSubmit m).1 := rfl
    rw [hfst, hsub, handleOf, hbook]
    unfold rest
    rw [halloc]
    dsimp only
    rw [if_pos hl]
    rfl

theorem add_best (s : Side) (bs : BookSide ticks) (p : ℕ) (o : Order) :
    (bs.add s p o).best = s.improve o.px bs.best := by
  unfold BookSide.add
  dsimp only
  split_ifs <;> rfl

theorem add_fifo (s : Side) (bs : BookSide ticks) (x p : ℕ) (o : Order) :
    ((bs.add s x o).levels p).fifo =
      if p = o.px then (bs.levels p).fifo ++ [x] else (bs.levels p).fifo := by
  unfold BookSide.add BookSide.setLevel
  dsimp only
  split_ifs with _ hp hp <;> simp [Function.update_apply, hp, Level.pushBack]

/-- Bids of one unit at the lowest price, under the ids from one on. -/
def bids (n : ℕ) : List Command :=
  (List.range n).map fun k => .submit ⟨UInt64.ofNat (k + 1), 0, 1, .bid, .gtc, 0⟩

/-- The engine after `n` of these. -/
structure Filled (n : ℕ) (e : Engine P ticks maxOrders lookup) : Prop where
  free : e.book.arena.Free (List.range' n (maxOrders - n))
  id : ∀ k < n, (e.order k).id = UInt64.ofNat (k + 1)
  ask : e.side .ask = {}
  bid : ∀ p, (e.side .bid).best = some p → p = 0
  fifo : ∀ p, ((e.side .bid).levels p).fifo = if p = 0 then List.range n else []
  gen : lookup = .byHandle → ∀ k < maxOrders,
    e.book.arena.generation k = if k < n then 1 else 0

omit [Publisher P] in
theorem new_filled (pub : P) (cfg : EngineConfig) (mem : Memory) :
    (new pub cfg mem : Engine P ticks maxOrders lookup).Filled 0 where
  free := by
    rw [Nat.sub_zero, ← List.range_eq_range']
    exact SlabArena.new_free _ _
  id _ h := absurd h (Nat.not_lt_zero _)
  ask := rfl
  bid _ h := by simp [new, Book.new, Book.side] at h
  fifo p := by simp [new, Book.new, Book.side]
  gen _ _ _ := rfl

theorem Filled.submit {n : ℕ} (h : e.Filled n) (hn : n < maxOrders) :
    let m : SubmitMsg := ⟨UInt64.ofNat (n + 1), 0, 1, .bid, .gtc, 0⟩
    (e.onSubmit m).2.Filled (n + 1) ∧ e.allocated (.submit m) = some n ∧
      (lookup = .byHandle → (e.onSubmit m).1 = ⟨UInt32.ofNat n, 1⟩) := by
  intro m
  have hfree := h.free
  rw [show maxOrders - n = maxOrders - (n + 1) + 1 by omega, List.range'_succ] at hfree
  obtain ⟨hslot, hfree', hown, hother, hbid, hask, hgen⟩ := onSubmit_passive (m := m)
    (Nat.zero_lt_of_lt hn) hfree rfl (by simp [m]) fun p hp => by
      rw [show m.s.opposite = Side.ask from rfl, h.ask] at hp
      simp at hp
  refine ⟨⟨hfree', fun k hk => ?_, hask.trans h.ask, fun p hp => ?_, fun p => ?_,
    fun hl k hk => ?_⟩, hslot, fun hl => ?_⟩
  · rcases Nat.lt_succ_iff_lt_or_eq.mp hk with hlt | rfl
    · have hnot : k ∉ n :: List.range' (n + 1) (maxOrders - (n + 1)) := by
        simp only [List.mem_cons, List.mem_range'_1]
        omega
      rw [hother k hnot, h.id k hlt]
    · rw [hown]
  · rw [show (e.onSubmit m).2.side .bid = _ from hbid] at hp
    have hbest : Side.improve .bid 0 (e.side .bid).best = some p := (add_best ..).symm.trans hp
    cases hold : (e.side .bid).best with
    | none => simpa [hold, Side.improve, eq_comm] using hbest
    | some q => simpa [hold, h.bid q hold, Side.improve, Side.better, eq_comm] using hbest
  · rw [show (e.onSubmit m).2.side .bid = _ from hbid, add_fifo, h.fifo]
    split_ifs with hp
    · rw [List.range_succ]
    · rfl
  · rw [(hgen hl).1 k hk, h.gen hl k hk]
    by_cases hkn : k = n
    · simp [hkn]
    · rw [if_neg hkn]
      exact if_congr (by omega) rfl rfl
  · rw [(hgen hl).2, handleOf, (hgen hl).1 n hn, if_pos rfl, h.gen hl n hn,
      if_neg (Nat.lt_irrefl n)]
    rfl

omit [Publisher P] in
theorem Filled.resting_iff {n : ℕ} {id : UInt64} (h : e.Filled n) (hticks : 0 < ticks) :
    e.Resting id ↔ ∃ k < n, UInt64.ofNat (k + 1) = id := by
  constructor
  · rintro ⟨s, p, -, x, hmem, hid⟩
    cases s with
    | bid =>
        rw [h.fifo] at hmem
        split_ifs at hmem
        · have hlt := List.mem_range.mp hmem
          exact ⟨x, hlt, by rw [← h.id x hlt, hid]⟩
        · simp at hmem
    | ask =>
        rw [h.ask] at hmem
        simp at hmem
  · rintro ⟨k, hk, rfl⟩
    refine ⟨.bid, 0, hticks, k, ?_, h.id k hk⟩
    rw [h.fifo, if_pos rfl]
    exact List.mem_range.mpr hk

theorem bids_succ (n : ℕ) : bids (n + 1) =
    bids n ++ [.submit ⟨UInt64.ofNat (n + 1), 0, 1, .bid, .gtc, 0⟩] := by
  unfold bids
  rw [List.range_succ, List.map_append]
  rfl

theorem play_bids (pub : P) (cfg : EngineConfig) (mem : Memory) {n : ℕ} (hn : n ≤ maxOrders) :
    (play pub cfg mem (bids n) : Engine P ticks maxOrders lookup).Filled n ∧
      (new pub cfg mem : Engine P ticks maxOrders lookup).allocations (bids n) =
        List.range n := by
  induction n with
  | zero => exact ⟨new_filled pub cfg mem, rfl⟩
  | succ n ih =>
      obtain ⟨hfilled, halloc⟩ := ih (by omega)
      obtain ⟨hnext, hslot, -⟩ := hfilled.submit (by omega)
      refine ⟨?_, ?_⟩
      · rw [play, bids_succ, List.foldl_concat]
        exact hnext
      · rw [bids_succ, allocations_append, halloc, List.range_succ, allocations, allocations]
        rw [show (List.foldl Engine.apply (new pub cfg mem) (bids n)).allocated _ = some n
          from hslot]
        rfl

theorem validId_ofNat {n : ℕ} (hpos : 0 < n) (hlt : n < 2 ^ 64 - 1) : ValidId (UInt64.ofNat n) := by
  have hnat : (UInt64.ofNat n).toNat = n := UInt64.toNat_ofNat_of_lt' (by
    rw [UInt64.size]
    omega)
  constructor
  · intro h
    rw [h] at hnat
    exact hpos.ne hnat
  · intro h
    rw [h] at hnat
    have : emptyKey.toNat = 2 ^ 64 - 1 := by decide
    omega

theorem bids_inDomain {maxQty : UInt64} (hticks : 0 < ticks) (hqty : 1 ≤ maxQty) {n : ℕ}
    (hn : n < 2 ^ 64 - 1) : ∀ cmd ∈ bids n, cmd.InDomain ticks maxQty := by
  intro cmd hmem
  obtain ⟨k, hk, rfl⟩ := List.mem_map.mp hmem
  have hlt := List.mem_range.mp hk
  exact ⟨hticks, UInt64.zero_lt_one, hqty, validId_ofNat (by omega) (by omega)⟩

/-- A submission that takes the whole of the maker it meets first. -/
theorem matchAgainstOpposite_exact {px : ℕ} {xs : List ℕ}
    (hbest : (e.side m.s.opposite).best = some px) (hcross : m.s.crosses m.px px = true)
    (hfifo : ((e.side m.s.opposite).levels px).fifo = x :: xs) (hacct : m.accountId = 0)
    (hz : m.qty ≠ 0) (hrem : (e.order x).remaining = m.qty) :
    (matchAgainstOpposite m e).remaining = 0 ∧
      (matchAgainstOpposite m e).engine.book.arena =
        (e.book.arena.put x { e.order x with remaining := 0 }).deallocate (some x) := by
  set c : Matching P ticks maxOrders lookup := ⟨e, m.qty, false⟩
  set c' := fillMaker c m x px
  have hmin : min m.qty (e.order x).remaining = m.qty := by
    rw [hrem, ← UInt64.toNat_inj, PriorityBook.toNat_min, Nat.min_self]
  have hleft : c'.remaining = 0 := by
    change m.qty - min m.qty (e.order x).remaining = 0
    rw [hmin, UInt64.sub_self]
  have harena : c'.engine.book.arena =
      (e.book.arena.put x { e.order x with remaining := 0 }).deallocate (some x) := by
    refine (decrementMaker_arena _ _ _ _ _).trans ?_
    have hgone : (e.order x).remaining - min m.qty (e.order x).remaining = 0 := by
      rw [hmin, hrem, UInt64.sub_self]
    exact (if_pos hgone).trans (congrArg (fun q => (e.book.arena.put x
      { e.order x with remaining := q }).deallocate (some x)) hgone)
  have hmaker : makerTurn m px c = .again c' := by
    unfold makerTurn BookSide.levelAt
    rw [show ((c.engine.side m.s.opposite).levels px).fifo = x :: xs from hfifo]
    dsimp only
    rw [if_neg hz, if_neg (by simp [hacct])]
  have hstop : makerTurn m px c' = .done c' := by
    unfold makerTurn
    split
    · rfl
    · rw [if_pos hleft]
  have hloop : makerLoop m px c = c' :=
    (Loop.run_again hmaker _).trans (Loop.run_done hstop _)
  have hlevel : levelTurn m c =
      .again { c' with engine := c'.engine.notifyIfEmptied m.s.opposite px } := by
    unfold levelTurn
    rw [if_neg hz, show (c.engine.side m.s.opposite).best = some px from hbest]
    dsimp only
    rw [hcross, hloop]
    rfl
  have hend : levelTurn m { c' with engine := c'.engine.notifyIfEmptied m.s.opposite px } =
      .done { c' with engine := c'.engine.notifyIfEmptied m.s.opposite px } := by
    unfold levelTurn
    exact if_pos hleft
  have hdone : matchAgainstOpposite m e =
      { c' with engine := c'.engine.notifyIfEmptied m.s.opposite px } :=
    (Loop.run_again hlevel _).trans (Loop.run_done hend _)
  rw [hdone]
  exact ⟨hleft, (notifyIfEmptied_arena ..).trans harena⟩

/-- What an exact match leaves of the arena. -/
theorem onSubmit_exact {px : ℕ} {xs : List ℕ} (hbest : (e.side m.s.opposite).best = some px)
    (hcross : m.s.crosses m.px px = true)
    (hfifo : ((e.side m.s.opposite).levels px).fifo = x :: xs) (hacct : m.accountId = 0)
    (ht : m.t = .ioc) (hz : m.qty ≠ 0) (hrem : (e.order x).remaining = m.qty) :
    e.restSlot m = none ∧ (e.onSubmit m).2.book.arena =
      (e.book.arena.put x { e.order x with remaining := 0 }).deallocate (some x) := by
  obtain ⟨hleft, harena⟩ := matchAgainstOpposite_exact hbest hcross hfifo hacct hz hrem
  have hkill : ¬(m.t = .fok ∧ !e.canFullyFill m.s.opposite m.px m.qty m.accountId) := by simp [ht]
  constructor
  · unfold restSlot
    rw [if_neg hkill]
    exact if_pos hleft
  · rw [← harena]
    unfold onSubmit handleSubmit
    rw [if_neg hkill]
    dsimp only
    rw [if_pos hleft, publishTopIfChanged_book]

theorem bids_fieldsInDomain {maxQty : UInt64} {n : ℕ} (hqty : 1 ≤ maxQty)
    (hn : n + 2 < 2 ^ 64 - 1) :
    ∀ cmd ∈ bids n ++ [.submit ⟨UInt64.ofNat (n + 1), 1, 1, .ask, .gtc, 0⟩,
      .submit ⟨UInt64.ofNat (n + 2), 1, 1, .bid, .ioc, 0⟩], cmd.FieldsInDomain 2 maxQty := by
  intro cmd hmem
  simp only [List.mem_append, List.mem_cons, List.not_mem_nil, or_false] at hmem
  rcases hmem with hmem | rfl | rfl
  · have hdom := bids_inDomain Nat.two_pos hqty (by omega) cmd hmem
    obtain ⟨k, -, rfl⟩ := List.mem_map.mp hmem
    exact hdom
  · exact ⟨Nat.one_lt_two, UInt64.zero_lt_one, hqty, validId_ofNat (by omega) (by omega)⟩
  · exact ⟨Nat.one_lt_two, UInt64.zero_lt_one, hqty, validId_ofNat (by omega) (by omega)⟩

/-- With more slots than a handle can name, the handle of an order that has left the book
finds another one: the order in slot `n` is issued the handle of slot zero. -/
theorem stale_of_wide {cfg : EngineConfig} (mem : Memory) {n : ℕ} (hn : UInt32.ofNat n = 0)
    (hpos : 0 < n) (hqty : 1 ≤ cfg.maxOrderQty) (hlt : n + 2 < 2 ^ 64 - 1) :
    let ask : Command := .submit ⟨UInt64.ofNat (n + 1), 1, 1, .ask, .gtc, 0⟩
    let take : Command := .submit ⟨UInt64.ofNat (n + 2), 1, 1, .bid, .ioc, 0⟩
    let cmds := bids n ++ [ask, take]
    let e₀ : Engine (List Event) 2 (n + 1) .byHandle := play [] cfg mem (bids n)
    let e : Engine (List Event) 2 (n + 1) .byHandle := play [] cfg mem cmds
    (∀ cmd ∈ cmds, cmd.FieldsInDomain 2 cfg.maxOrderQty) ∧
      (∀ x, ((new [] cfg mem : Engine (List Event) 2 (n + 1) .byHandle).allocations
        cmds).count x < 2 ^ 31) ∧
      e₀.residency ask = some n ∧ ¬e.book.Held n ∧ (e.find 1 (e₀.issue ask) true).1 = some 0 := by
  intro ask take cmds e₀ e
  obtain ⟨hfilled, halloc⟩ : e₀.Filled n ∧ _ := play_bids [] cfg mem (Nat.le_succ n)
  have hfree := hfilled.free
  rw [show n + 1 - n = 0 + 1 by omega, List.range'_succ, List.range'_zero] at hfree
  -- the ask rests in the last slot
  obtain ⟨hslot, hfree', hown, hother, hside, -, hgen⟩ :=
    onSubmit_passive (m := ⟨UInt64.ofNat (n + 1), 1, 1, .ask, .gtc, 0⟩) (Nat.succ_pos n) hfree rfl
      (by simp) fun p hp => by
        rw [hfilled.bid p hp]
        rfl
  obtain ⟨hgen, hissue⟩ := hgen rfl
  set e₁ := (e₀.onSubmit ⟨UInt64.ofNat (n + 1), 1, 1, .ask, .gtc, 0⟩).2
  -- and is taken
  have hask : e₁.side .ask = BookSide.add .ask {} n
      ⟨UInt64.ofNat (n + 1), 1, 1, .ask, .gtc, 0⟩ := by
    rw [← hfilled.ask]
    exact hside
  have hbest : (e₁.side .ask).best = some 1 := by
    rw [hask]
    rfl
  have hfifo : ((e₁.side .ask).levels 1).fifo = [n] := by
    rw [hask]
    rfl
  obtain ⟨htake, harena⟩ := onSubmit_exact (e := e₁)
    (m := ⟨UInt64.ofNat (n + 2), 1, 1, .bid, .ioc, 0⟩) hbest rfl hfifo rfl rfl (by simp)
    (by rw [hown])
  have hplay : e = (e₁.onSubmit ⟨UInt64.ofNat (n + 2), 1, 1, .bid, .ioc, 0⟩).2 := by
    change List.foldl Engine.apply _ (bids n ++ [ask, take]) = _
    rw [List.foldl_append]
    rfl
  rw [← hplay] at harena
  have hgen₀ : e₁.book.arena.generation 0 = 1 := by
    rw [hgen 0 (Nat.succ_pos n), if_neg hpos.ne, hfilled.gen rfl 0 (Nat.succ_pos n), if_pos hpos]
  have hgenn : e₁.book.arena.generation n = 1 := by
    rw [hgen n (Nat.lt_succ_self n), if_pos rfl, hfilled.gen rfl n (Nat.lt_succ_self n),
      if_neg (Nat.lt_irrefl n)]
    rfl
  have hafter : ∀ y, e.book.arena.generation y =
      if y = n then 1 + 1 else e₁.book.arena.generation y := by
    intro y
    rw [harena, SlabArena.generation_deallocate (decide_eq_true rfl), SlabArena.generation_put,
      hgenn]
    rw [SlabArena.generation_put, hgenn]
    decide
  have hgov : e.Governed [] cfg.maxOrderQty _ :=
    (new_governed [] cfg mem (Nat.succ_pos n)).run rfl (Nat.succ_pos n) (by decide)
      (bids_fieldsInDomain hqty hlt)
  have hissue' : e₀.issue ask = ⟨0, 1⟩ := by
    change (e₀.onSubmit _).1 = _
    rw [hissue, handleOf, hgenn, hn]
  refine ⟨bids_fieldsInDomain hqty hlt, fun x => ?_, hslot, ?_, ?_⟩
  · have halloc₁ : e₀.allocated ask = some n := hslot
    have halloc₂ : e₁.allocated take = none := htake
    have hrun : e₀.allocations [ask, take] = [n] := by
      change (e₀.allocated ask).toList ++ ((e₁.allocated take).toList ++ []) = [n]
      rw [halloc₁, halloc₂]
      rfl
    have hall : (new [] cfg mem : Engine (List Event) 2 (n + 1) .byHandle).allocations cmds =
        List.range (n + 1) := by
      rw [allocations_append, halloc, List.range_succ]
      exact congrArg (List.range n ++ ·) hrun
    rw [hall]
    exact (List.nodup_iff_count_le_one.mp List.nodup_range x).trans_lt (by decide)
  · rw [hgov.held_iff rfl (Nat.lt_succ_self n), hafter, if_pos rfl]
    decide
  · rw [find_byHandle rfl, hissue']
    refine resolve_eq_some_iff.mpr ⟨rfl, Nat.succ_pos n, ?_, ?_, ?_⟩
    · rw [hafter, if_neg hpos.ne, hgen₀]
      decide
    · rw [hafter, if_neg hpos.ne, hgen₀]
    · rw [order, harena, SlabArena.slotAt_congr (SlabArena.deallocate_cells hpos.ne),
        SlabArena.slotAt_put_of_ne hpos.ne]
      change (e₁.order 0).id = 1
      rw [hother 0 (by simp [hpos.ne]), hfilled.id 0 hpos]
      rfl

end Wide

/-! ## Any handle whatever -/

/-- After any run of commands in which cancels and modifies carry any ids and handles
whatever, a handle finds the order that rests in its slot, if slot, generation and id are
those of the order; a handle that was returned finds its order exactly as long as that
order stays in the slot; a cancel or modify that finds nothing changes nothing; and the
structures of the book agree. -/
theorem play_handles (pub : P) (cfg : EngineConfig) (mem : Memory) (hc : 0 < maxOrders)
    (ht : ticks ≤ 64 ^ 4) (hslots : maxOrders ≤ 2 ^ 32) (cmds : List Command)
    (hcmds : ∀ cmd ∈ cmds, cmd.FieldsInDomain ticks cfg.maxOrderQty)
    (hfew : ∀ x, ((new pub cfg mem : Engine P ticks maxOrders .byHandle).allocations cmds).count x
      < 2 ^ 31) :
    let e : Engine P ticks maxOrders .byHandle := play pub cfg mem cmds
    (∀ id hdl un x, (e.find id hdl un).1 = some x ↔ e.book.Held x ∧ hdl.slot.toNat = x ∧
      hdl.generation = e.book.arena.generation x ∧ (e.order x).id = id) ∧
    (∀ pre cmd post x, cmds = pre ++ cmd :: post →
      let e₀ : Engine P ticks maxOrders .byHandle := play pub cfg mem pre
      e₀.residency cmd = some x → ∀ id un y, (e.find id (e₀.issue cmd) un).1 = some y ↔
        y = x ∧ e.book.Held x ∧ x ∉ (e₀.apply cmd).allocations post ∧ (e.order x).id = id) ∧
    (∀ cmd, (∀ m, cmd ≠ .submit m) → e.reached cmd = none →
      e.apply cmd = e ∧ e.issue cmd = {}) ∧
    e.Coherent ∧ (maxOrders * cfg.maxOrderQty.toNat < 2 ^ 64 → e.Consistent) := by
  intro e
  have hnew : (new pub cfg mem : Engine P ticks maxOrders .byHandle).Governed pub
    cfg.maxOrderQty [] := new_governed pub cfg mem hc
  have hgov : e.Governed pub cfg.maxOrderQty _ := hnew.run rfl hc ht hcmds
  refine ⟨fun id hdl un x => ?_, fun pre cmd post x hsplit hx id un y => ?_,
    fun cmd hne hnone => ?_, ?_⟩
  · rw [find_byHandle rfl]
    exact hgov.resolve_iff rfl
  · subst hsplit
    have hbefore : ∀ c ∈ pre, c.FieldsInDomain ticks cfg.maxOrderQty := fun c hmem =>
      hcmds c (by simp [hmem])
    have hpre := hnew.run rfl hc ht hbefore
    have hcmd := hcmds cmd (by simp)
    have hpost : ∀ c ∈ post, c.FieldsInDomain ticks cfg.maxOrderQty := fun c hmem =>
      hcmds c (by simp [hmem])
    obtain ⟨hheld, hissue⟩ := hpre.issue_eq rfl hc ht hcmd hx
    have hcount := hfew x
    rw [allocations_append, allocations, ← List.append_assoc] at hcount
    have hplay : e = post.foldl Engine.apply ((play pub cfg mem pre).apply cmd) := by
      simp only [e, play, List.foldl_append, List.foldl_cons]
    rw [find_byHandle rfl, hplay]
    change Engine.resolve _ (Engine.issue _ cmd) id = some y ↔ _
    rw [show (play pub cfg mem pre : Engine P ticks maxOrders .byHandle).issue cmd = _ from hissue]
    exact (hpre.apply rfl hc ht hcmd).resolve_handleOf_iff rfl hc ht hslots hpost
      hcount hheld id y
  · obtain ⟨happly, hissue, -⟩ := apply_of_unreached rfl hne hnone
    exact ⟨happly, hissue⟩
  · obtain ⟨b, href, hs, hcount⟩ := hgov.machine
    exact ⟨href.coherent hs.recordable hcount, href.consistent hs.recordable hcount⟩

/-- A slot that is given up and taken again: the handle of its first order finds nothing, also
under the id that the second order shares with it. -/
theorem play_handles_reused_slot :
    let cmds : List Command := [.submit ⟨7, 0, 5, .bid, .gtc, 0⟩, .cancel ⟨7, ⟨0, 1⟩⟩,
      .submit ⟨7, 1, 5, .bid, .gtc, 0⟩]
    let e : Engine (List Event) 2 2 .byHandle := play [] {} .zeroed cmds
    (e.find 7 ⟨0, 1⟩ true).1 ≠ some 0 ∧ (e.find 7 ⟨0, 3⟩ true).1 = some 0 ∧ e.Coherent := by
  intro cmds e
  have hfew : ∀ x, ((new [] {} .zeroed : Engine (List Event) 2 2 .byHandle).allocations
      cmds).count x < 2 ^ 31 := fun x => List.count_le_length.trans_lt (by decide)
  have h := play_handles [] {} .zeroed (by decide) (by decide) (by decide) cmds (by decide) hfew
  refine ⟨fun hfind => ?_, ?_, h.2.2.2.1⟩
  · exact ((h.2.1 [] _ _ 0 rfl (by decide) 7 true 0).mp hfind).2.2.1 (by decide)
  · exact (h.1 7 ⟨0, 3⟩ true 0).mpr ⟨⟨.bid, 1, by decide⟩, by decide, by decide, by decide⟩

/-- One slot more than a handle can name: the handle returned for the order in the last slot
finds the order in the first one once the last order has left the book. -/
theorem play_handles_wide :
    let ask : Command := .submit ⟨UInt64.ofNat (2 ^ 32 + 1), 1, 1, .ask, .gtc, 0⟩
    let take : Command := .submit ⟨UInt64.ofNat (2 ^ 32 + 2), 1, 1, .bid, .ioc, 0⟩
    let cmds := bids (2 ^ 32) ++ [ask, take]
    let e₀ : Engine (List Event) 2 (2 ^ 32 + 1) .byHandle := play [] {} .zeroed (bids (2 ^ 32))
    let e : Engine (List Event) 2 (2 ^ 32 + 1) .byHandle := play [] {} .zeroed cmds
    (∀ cmd ∈ cmds, cmd.FieldsInDomain 2 ({} : EngineConfig).maxOrderQty) ∧
      (∀ x, ((new [] {} .zeroed : Engine (List Event) 2 (2 ^ 32 + 1) .byHandle).allocations
        cmds).count x < 2 ^ 31) ∧
      e₀.residency ask = some (2 ^ 32) ∧ ¬e.book.Held (2 ^ 32) ∧
      (e.find 1 (e₀.issue ask) true).1 = some 0 :=
  stale_of_wide .zeroed (by decide) (by decide) (by decide) (by decide)

end Engine
end Orderbooks
