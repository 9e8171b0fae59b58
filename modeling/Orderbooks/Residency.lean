import Orderbooks.SubmitLeg

/-!
# Residencies of a slot

An engine that issues handles keeps a generation for every slot, odd while an order
rests there. A command can end the residency of an order, which moves the generation
of its slot on by one, and it can start one residency, that of the order it rests.
Orders that stay keep their slot, their generation and, unless the command renames
them, their id.
-/
namespace Orderbooks

/-! ## On the arena -/

namespace SlabArena

variable {T : Type} {capacity : ℕ} {generations : Bool}
  {a a' a'' : SlabArena T capacity generations} {x y : ℕ}

section Released

variable [Inhabited T] {ι : Type} {key : T → ι} {f : ℕ → ι}

/-- From `a` to `a'` no slot is allocated. What stays in a slot keeps its generation, and is
now known as `f` says; what leaves moves the generation on. -/
structure Released (key : T → ι) (f : ℕ → ι) (a a' : SlabArena T capacity generations) : Prop where
  gen : ∀ x < capacity, a'.generation x = a.generation x ∨
    (Allocated (a.generation x) ∧ a'.generation x = a.generation x + 1)
  key : ∀ x < capacity, a'.generation x = a.generation x → Allocated (a.generation x) →
    key (a'.slotAt x) = f x

theorem Released.refl (a : SlabArena T capacity generations) :
    a.Released key (fun x => key (a.slotAt x)) a :=
  ⟨fun _ _ => .inl rfl, fun _ _ _ _ => rfl⟩

theorem ne_add_one (gen : UInt32) : gen + 1 ≠ gen := by
  intro h
  have := congrArg Allocated h
  rw [eq_iff_iff, allocated_add_one] at this
  exact iff_not_self this.symm

theorem Released.trans (h : a.Released key f a')
    (h' : a'.Released key (fun x => key (a'.slotAt x)) a'') : a.Released key f a'' := by
  have hgone : ∀ x < capacity, Allocated (a.generation x) →
      a'.generation x = a.generation x + 1 → a''.generation x = a.generation x + 1 := by
    intro x hx hal hstep
    rcases h'.gen x hx with heq | ⟨hal', _⟩
    · rw [heq, hstep]
    · rw [hstep, allocated_add_one] at hal'
      exact absurd hal hal'
  refine ⟨fun x hx => ?_, fun x hx heq hal => ?_⟩
  · rcases h.gen x hx with hsame | ⟨hal, hstep⟩
    · rw [← hsame]
      exact h'.gen x hx
    · exact .inr ⟨hal, hgone x hx hal hstep⟩
  · rcases h.gen x hx with hsame | ⟨_, hstep⟩
    · rw [h'.key x hx (heq.trans hsame.symm) (hsame ▸ hal)]
      exact h.key x hx hsame hal
    · rw [hgone x hx hal hstep] at heq
      exact absurd heq (ne_add_one _)

theorem Released.put {v : T} (h : a.Released key f a') (hv : key v = key (a'.slotAt x)) :
    a.Released key f (a'.put x v) := by
  refine h.trans ⟨fun _ _ => .inl rfl, fun y _ _ _ => ?_⟩
  by_cases hy : y = x
  · rw [hy, slotAt_put_self, hv]
  · rw [slotAt_put_of_ne hy]

theorem Released.deallocate (h : a.Released key f a') (hg : generations = true)
    (hx : Allocated (a'.generation x)) : a.Released key f (a'.deallocate (some x)) := by
  refine h.trans ⟨fun y _ => ?_, fun y _ heq _ => ?_⟩
  · rw [generation_deallocate hg hx]
    split_ifs with hy
    · exact .inr ⟨hy ▸ hx, by rw [hy]⟩
    · exact .inl rfl
  · have hy : y ≠ x := by
      rintro rfl
      rw [generation_deallocate hg hx, if_pos rfl] at heq
      exact ne_add_one _ heq
    rw [slotAt_congr (deallocate_cells hy)]

/-- Nothing is said of a slot whose residency has ended. -/
theorem Released.update (h : a.Released key f a') (hx : a'.generation x ≠ a.generation x)
    (k : ι) : a.Released key (Function.update f x k) a' := by
  refine ⟨h.gen, fun y hy heq hal => ?_⟩
  have hne : y ≠ x := by
    rintro rfl
    exact hx heq
  rw [Function.update_of_ne hne]
  exact h.key y hy heq hal

/-- The record in a slot can be given another key. -/
theorem Released.rekey (a : SlabArena T capacity generations) (x : ℕ) (v : T) :
    a.Released key (Function.update (fun y => key (a.slotAt y)) x (key v)) (a.put x v) := by
  refine ⟨fun _ _ => .inl rfl, fun y _ _ _ => ?_⟩
  by_cases hy : y = x
  · rw [hy, slotAt_put_self, Function.update_self]
  · rw [slotAt_put_of_ne hy, Function.update_of_ne hy]

/-- From `a` to `a'` residencies end, and that of `slot` begins. -/
structure Turnover (key : T → ι) (f : ℕ → ι) (slot : Option ℕ)
    (a a' : SlabArena T capacity generations) : Prop where
  gen : ∀ x < capacity, slot ≠ some x → a'.generation x = a.generation x ∨
    (Allocated (a.generation x) ∧ a'.generation x = a.generation x + 1)
  key : ∀ x < capacity, slot ≠ some x → a'.generation x = a.generation x →
    Allocated (a.generation x) → key (a'.slotAt x) = f x
  opened : ∀ x, slot = some x → x < capacity ∧
    ((¬Allocated (a.generation x) ∧ a'.generation x = a.generation x + 1) ∨
      (Allocated (a.generation x) ∧ a'.generation x = a.generation x + 1 + 1))

theorem Turnover.allocated {slot : Option ℕ} (h : a.Turnover key f slot a')
    (hx : slot = some x) : Allocated (a'.generation x) := by
  rcases (h.opened x hx).2 with ⟨hfree, heq⟩ | ⟨hal, heq⟩ <;> rw [heq]
  · exact (allocated_add_one _).mpr hfree
  · rw [allocated_add_one, allocated_add_one, not_not]
    exact hal

theorem Released.turnover (h : a.Released key f a') : a.Turnover key f none a' :=
  ⟨fun x hx _ => h.gen x hx, fun x hx _ => h.key x hx, by simp⟩

/-- A slot is taken from the free list. -/
theorem Released.allocate {free : List ℕ} {v : T} (h : a.Released key f a')
    (hg : generations = true) (hc : 0 < capacity) (hfree : a'.Free (x :: free))
    (halloc : a'.allocate = (some x, a'')) : a.Turnover key f (some x) (a''.put x v) := by
  have hlt : x < capacity := hfree.pool.bound x List.mem_cons_self
  have hmem : ∀ y < capacity, Allocated (a'.generation y) → y ∉ x :: free := by
    intro y hy hal
    have hb := built_of_allocated hal
    rw [generation, if_pos hb] at hal
    exact (hfree.parity hg hb y hy).mp hal
  have hgen : ∀ y < capacity, y ≠ x → (a''.put x v).generation y = a'.generation y := by
    intro y hy hne
    rw [generation_put, generation_allocate hg halloc hy, if_neg hne]
  refine ⟨fun y hy hne => ?_, fun y hy hne heq hal => ?_, fun y hy => ?_⟩
  · rw [hgen y hy fun h => hne (congrArg some h.symm)]
    exact h.gen y hy
  · have hne' : y ≠ x := fun h => hne (congrArg some h.symm)
    rw [hgen y hy hne'] at heq
    obtain ⟨b, halloc', _, _, hcells⟩ := hfree.allocate_cons hc
    obtain rfl : b = a'' := by
      rw [halloc'] at halloc
      exact (Prod.mk.inj halloc).2
    rw [slotAt_put_of_ne hne', slotAt_congr (hcells y (hmem y hy (heq ▸ hal)))]
    exact h.key y hy heq hal
  · obtain rfl := Option.some.inj hy
    have hnot : ¬Allocated (a'.generation x) := fun hal =>
      hmem x hlt hal List.mem_cons_self
    refine ⟨hlt, ?_⟩
    rw [generation_put, generation_allocate hg halloc hlt, if_pos rfl]
    rcases h.gen x hlt with heq | ⟨hal, heq⟩
    · exact .inl ⟨heq ▸ hnot, by rw [heq]⟩
    · exact .inr ⟨hal, by rw [heq]⟩

/-- The generations after the slots of `slots` have been allocated, one at a time. -/
def Counts (a : SlabArena T capacity generations) (slots : List ℕ) : Prop :=
  ∀ x < capacity, if Allocated (a.generation x)
    then 0 < slots.count x ∧ a.generation x = UInt32.ofNat (2 * slots.count x - 1)
    else a.generation x = UInt32.ofNat (2 * slots.count x)

theorem ofNat_add_one (n : ℕ) : UInt32.ofNat n + 1 = UInt32.ofNat (n + 1) :=
  (UInt32.ofNat_add n 1).symm

theorem Turnover.counts {slot : Option ℕ} {slots : List ℕ} (h : a.Turnover key f slot a')
    (hc : a.Counts slots) : a'.Counts (slots ++ slot.toList) := by
  intro x hx
  have hold := hc x hx
  by_cases hslot : slot = some x
  · have hcount : (slots ++ slot.toList).count x = slots.count x + 1 := by simp [hslot]
    rw [if_pos (h.allocated hslot), hcount]
    refine ⟨Nat.succ_pos _, ?_⟩
    rcases (h.opened x hslot).2 with ⟨hfree, heq⟩ | ⟨hal, heq⟩
    · rw [if_neg hfree] at hold
      rw [heq, hold, ofNat_add_one]
      rfl
    · rw [if_pos hal] at hold
      rw [heq, hold.2, ofNat_add_one, ofNat_add_one]
      exact congrArg UInt32.ofNat (by omega)
  · have hcount : (slots ++ slot.toList).count x = slots.count x := by
      cases slot with
      | none => simp
      | some y => simpa [List.count_singleton] using hslot
    rw [hcount]
    rcases h.gen x hx hslot with heq | ⟨hal, heq⟩
    · rw [heq]
      exact hold
    · rw [if_pos hal] at hold
      have hfree : ¬Allocated (a'.generation x) := by
        rw [heq, allocated_add_one, not_not]
        exact hal
      rw [if_neg hfree, heq, hold.2, ofNat_add_one]
      exact congrArg UInt32.ofNat (by omega)

end Released

end SlabArena

/-! ## Matching releases slots -/

/-- What an order is known by while it rests. -/
def Order.name (o : Order) : Option UInt64 := some o.id

/-- The id a modify leaves its order with. -/
def ModifyMsg.effectiveId (m : ModifyMsg) : UInt64 := if m.newId ≠ 0 then m.newId else m.id

theorem ModifyMsg.effectiveId_eq (m : ModifyMsg) :
    m.effectiveId = if m.renames then m.newId else m.id := by
  unfold effectiveId renames
  by_cases hz : m.newId = 0
  · simp [hz]
  · by_cases hid : m.newId = m.id <;> simp [hz, hid]

/-- The id under which a command leaves the order it names. -/
def Command.effectiveId : Command → UInt64
  | .submit m => m.id
  | .cancel m => m.id
  | .modify m => m.effectiveId

namespace Engine
open Loop

variable {P : Type} [Publisher P] {ticks maxOrders : ℕ} {p0 : P}

section Arena

variable {lookup : OrderLookup} (e : Engine P ticks maxOrders lookup)

omit [Publisher P]

theorem decrementMaker_arena (s : Side) (px x : ℕ) (qty : UInt64) :
    (e.decrementMaker s px x qty).book.arena =
      let a := e.book.arena.put x { e.order x with remaining := (e.order x).remaining - qty }
      if (e.order x).remaining - qty = 0 then a.deallocate (some x) else a := by
  unfold decrementMaker
  dsimp only
  split_ifs
  · rw [dropFront_arena]
    exact congrArg (SlabArena.deallocate · (some x)) (setSide_arena ..)
  · exact setSide_arena ..

theorem notifyIfEmptied_arena (s : Side) (px : ℕ) :
    (e.notifyIfEmptied s px).book.arena = e.book.arena := by
  unfold notifyIfEmptied
  split_ifs
  · exact setSide_arena ..
  · rfl

end Arena

theorem publishTopIfChanged_book {lookup : OrderLookup}
    (e : Engine P ticks maxOrders lookup) : e.publishTopIfChanged.book = e.book := by
  unfold publishTopIfChanged
  dsimp only
  split <;> rfl

variable {lookup : OrderLookup} {e : Engine P ticks maxOrders lookup} {b : PriorityBook ticks}
  {tag : ℕ → ℕ} {pop : Side → Set ℕ} {m : SubmitMsg} {x : ℕ} {f : ℕ → Option UInt64}
  {a : SlabArena Order maxOrders (decide (lookup = .byHandle))}

/-- A slot holds an order while its generation is odd. -/
theorem Represents.held_iff (h : e.Represents p0 b tag pop) (hl : lookup = .byHandle)
    (hx : x < maxOrders) :
    e.book.Held x ↔ SlabArena.Allocated (e.book.arena.generation x) := by
  have hg := decide_eq_true hl
  obtain ⟨free, hfree, hheld⟩ := h.book.free
  rw [hheld]
  constructor
  · rintro ⟨_, hnot⟩
    have hb := hfree.built hx hnot
    rw [SlabArena.generation, if_pos hb]
    exact (hfree.parity hg hb x hx).mpr hnot
  · intro hal
    have hb := SlabArena.built_of_allocated hal
    rw [SlabArena.generation, if_pos hb] at hal
    exact ⟨hx, (hfree.parity hg hb x hx).mp hal⟩

theorem Represents.allocated (h : e.Represents p0 b tag pop) (hl : lookup = .byHandle)
    (hx : e.book.Held x) : SlabArena.Allocated (e.book.arena.generation x) :=
  (h.held_iff hl (h.book.held_lt hx)).mp hx

section Matching

variable {c c' : Matching P ticks maxOrders lookup} {px : ℕ}

omit [Publisher P] in
theorem decrementMaker_released {s : Side} {qty : UInt64} (hl : lookup = .byHandle)
    (hx : SlabArena.Allocated (e.book.arena.generation x))
    (ha : a.Released Order.name f e.book.arena) :
    a.Released Order.name f (e.decrementMaker s px x qty).book.arena := by
  have hput : a.Released Order.name f
      (e.book.arena.put x { e.order x with remaining := (e.order x).remaining - qty }) :=
    ha.put rfl
  rw [decrementMaker_arena]
  dsimp only
  split_ifs
  · exact hput.deallocate (decide_eq_true hl) (by rwa [SlabArena.generation_put])
  · exact hput

theorem handleSelfCross_released (hl : lookup = .byHandle)
    (hx : SlabArena.Allocated (c.engine.book.arena.generation x))
    (ha : a.Released Order.name f c.engine.book.arena) :
    a.Released Order.name f (handleSelfCross c m x px).2.engine.book.arena := by
  unfold handleSelfCross
  dsimp only
  cases c.engine.cfg.selfCross with
  | cancelNewest => exact ha
  | cancelOldest =>
      change a.Released Order.name f (Engine.dropFront _ _ _ _).book.arena
      rw [dropFront_arena, setSide_arena]
      exact ha.deallocate (decide_eq_true hl) hx
  | decrementTrade => exact decrementMaker_released hl hx ha

theorem makerTurn_released (h : c.engine.Represents p0 b tag pop) (hl : lookup = .byHandle)
    (ha : a.Released Order.name f c.engine.book.arena)
    (hturn : makerTurn m px c = .again c' ∨ makerTurn m px c = .done c') :
    a.Released Order.name f c'.engine.book.arena := by
  unfold makerTurn BookSide.levelAt at hturn
  cases hf : ((c.engine.side m.s.opposite).levels px).fifo with
  | nil =>
      rw [hf] at hturn
      obtain rfl : c = c' := by simpa using hturn
      exact ha
  | cons x xs =>
  have hx := h.allocated hl (c.engine.held_of_front hf)
  rw [hf] at hturn
  dsimp only at hturn
  split_ifs at hturn with hz hown
  · obtain rfl : c = c' := by simpa using hturn
    exact ha
  · obtain rfl : _ = c' := by simpa using hturn
    dsimp only
    rw [notifyIfEmptied_arena]
    exact handleSelfCross_released hl hx ha
  · obtain rfl : (handleSelfCross c m x px).2 = c' := by simpa using hturn
    exact handleSelfCross_released hl hx ha
  · obtain rfl : fillMaker c m x px = c' := by simpa using hturn
    exact decrementMaker_released hl hx ha

/-- Matching ends residencies and begins none. -/
theorem matchAgainstOpposite_released (h : e.Represents p0 b tag b.queues.populated)
    (hl : lookup = .byHandle) (hd : b.queues.WellFormed) (hc : 0 < maxOrders)
    (ht : ticks ≤ 64 ^ 4) :
    (∃ b', (matchAgainstOpposite m e).engine.Represents p0 b' tag b'.queues.populated) ∧
      e.book.arena.Released Order.name (fun x => (e.order x).name)
        (matchAgainstOpposite m e).engine.book.arena := by
  let S : Matching P ticks maxOrders lookup → Prop := fun c =>
    e.book.arena.Released Order.name (fun x => (e.order x).name) c.engine.book.arena
  have hL : (matchLoop m : MatchLoop m (Matching P ticks maxOrders lookup)).Simulates
      fun c b pop => c.engine.Represents p0 b tag pop ∧ S c :=
    (matchLoop_simulates m p0 tag hc ht).and
      (fun hrep hs hturn => makerTurn_released hrep hl hs hturn)
      fun {c p} hs => by
        change e.book.arena.Released _ _ (c.engine.notifyIfEmptied _ _).book.arena
        rwa [notifyIfEmptied_arena]
  have hsweep : (matchLoop m).Sweeping (fun c b pop => c.engine.Represents p0 b tag pop ∧ S c)
      (PriorityBook.sweep m b m.qty) (fun _ _ => True) b ⟨e, m.qty, false⟩ :=
    ⟨⟨h, .refl _⟩, hd, trivial, rfl, rfl⟩
  have hsettled := hsweep.levelLoop hL fun _ _ _ _ _ _ _ _ _ _ _ => trivial
  exact ⟨⟨_, hsettled.rep.1⟩, hsettled.rep.2⟩

end Matching

/-! ## Commands -/

/-- The slot a submission comes to rest in. -/
def restSlot (e : Engine P ticks maxOrders lookup) (m : SubmitMsg) : Option ℕ :=
  if m.t = .fok ∧ !e.canFullyFill m.s.opposite m.px m.qty m.accountId then none
  else
    let c := matchAgainstOpposite m e
    if c.remaining = 0 then none
    else match m.t with
      | .ioc => none
      | .fok => none
      | .gtc => c.engine.book.arena.allocate.1

/-- The slot a command allocates. -/
def allocated (e : Engine P ticks maxOrders lookup) (cmd : Command) : Option ℕ :=
  (e.leg cmd).bind fun leg => leg.2.restSlot leg.1

/-- The handle a command returns. -/
def issue (e : Engine P ticks maxOrders lookup) : Command → OrderHandle
  | .submit m => (e.onSubmit m).1
  | .cancel _ => {}
  | .modify m => (e.onModify m).1

/-- The slot of the order whose handle a command returns. -/
def residency (e : Engine P ticks maxOrders lookup) : Command → Option ℕ
  | .submit m => e.allocated (.submit m)
  | .cancel _ => none
  | .modify m =>
      if (e.leg (.modify m)).isSome then e.allocated (.modify m) else e.reached (.modify m)

/-- The name under which the order a command reaches goes on resting. It is none where the
command ends its residency: a cancel does, and so does a modify that submits its order again. -/
def keptName (e : Engine P ticks maxOrders lookup) : Command → Option UInt64
  | .submit _ => none
  | .cancel _ => none
  | .modify m => if (e.leg (.modify m)).isSome then none else some m.effectiveId

/-- The name under which the order in a slot goes on resting. -/
def nameAfter (e : Engine P ticks maxOrders lookup) (cmd : Command) (x : ℕ) : Option UInt64 :=
  if e.reached cmd = some x then e.keptName cmd else (e.order x).name

omit [Publisher P] in
theorem find_byHandle (hl : lookup = .byHandle) (id : UInt64) (hdl : OrderHandle) (un : Bool) :
    e.find id hdl un = (e.resolve hdl id, e) := if_pos hl

omit [Publisher P] in
theorem resolve_eq_some_iff {hdl : OrderHandle} {id : UInt64} :
    e.resolve hdl id = some x ↔ hdl.slot.toNat = x ∧ x < maxOrders ∧
      SlabArena.Allocated (e.book.arena.generation x) ∧
      e.book.arena.generation x = hdl.generation ∧ (e.order x).id = id := by
  unfold resolve SlabArena.Allocated
  constructor
  · intro h
    split_ifs at h with hdead hid
    obtain rfl := Option.some.inj h
    push Not at hdead
    exact ⟨rfl, hdead.1, by rw [hdead.2.2]; exact hdead.2.1, hdead.2.2, hid⟩
  · rintro ⟨rfl, hlt, hal, hgen, hid⟩
    rw [if_neg, if_pos hid]
    push Not
    exact ⟨hlt, hgen ▸ hal, hgen⟩

omit [Publisher P] in
/-- A handle that resolves is the handle of the slot it resolves to. -/
theorem eq_handleOf {hdl : OrderHandle} {id : UInt64} (h : e.resolve hdl id = some x) :
    hdl = e.handleOf x := by
  obtain ⟨rfl, -, -, hgen, -⟩ := resolve_eq_some_iff.mp h
  unfold handleOf
  rw [hgen, UInt32.ofNat_toNat]

/-- What a submission does to the residencies, and the handle it returns. -/
structure Issues (f : ℕ → Option UInt64) (slot : Option ℕ) (id : UInt64) (hdl : OrderHandle)
    (a : SlabArena Order maxOrders (decide (lookup = .byHandle)))
    (e' : Engine P ticks maxOrders lookup) : Prop where
  turnover : a.Turnover Order.name f slot e'.book.arena
  issued : ∀ x, slot = some x → (e'.order x).id = id ∧ hdl = e'.handleOf x
  empty : slot = none → hdl = {}

omit [Publisher P] in
theorem Issues.congr {slot : Option ℕ} {id : UInt64} {hdl : OrderHandle}
    {e₁ e₂ : Engine P ticks maxOrders lookup} (h : Issues f slot id hdl a e₁)
    (heq : e₂.book = e₁.book) : Issues f slot id hdl a e₂ := by
  refine ⟨?_, ?_, h.empty⟩
  · rw [heq]
    exact h.turnover
  · unfold order handleOf
    rw [heq]
    exact h.issued

theorem rest_issues (h : e.Represents p0 b tag pop) (hl : lookup = .byHandle)
    (hc : 0 < maxOrders) (rem : UInt64) (ha : a.Released Order.name f e.book.arena) :
    Issues f e.book.arena.allocate.1 m.id (e.rest m rem).1 a (e.rest m rem).2 := by
  obtain ⟨free, hfree, -⟩ := h.book.free
  cases free with
  | nil =>
      have halloc := hfree.allocate_nil hc
      have hrest : e.rest m rem = ({}, e.bumpSeq.publish
          (.reject ⟨m.id, m.accountId, m.px, rem, .arenaFull, e.bumpSeq.state.seq⟩)) := by
        unfold rest
        rw [halloc]
        rfl
      rw [hrest, halloc]
      exact ⟨ha.turnover, by simp, fun _ => rfl⟩
  | cons x free =>
      obtain ⟨a', halloc, -⟩ := hfree.allocate_cons hc
      obtain ⟨-, -, -, -, harena, -⟩ := e.rest_parts m rem halloc
      have harena' : (e.rest m rem).2.book.arena =
          a'.put x ⟨m.id, rem, m.px, m.s, m.t, m.accountId⟩ := harena.trans (setSide_arena ..)
      have hhdl : (e.rest m rem).1 = (e.rest m rem).2.handleOf x := by
        unfold rest
        rw [halloc]
        dsimp only
        rw [if_pos hl]
      rw [halloc]
      refine ⟨?_, fun y hy => ?_, by simp⟩
      · rw [harena']
        exact ha.allocate (decide_eq_true hl) hc hfree halloc
      · obtain rfl := Option.some.inj hy
        refine ⟨?_, hhdl⟩
        unfold order
        rw [harena', SlabArena.slotAt_put_self]

theorem handleSubmit_issues (h : e.Represents p0 b tag b.queues.populated)
    (hl : lookup = .byHandle) (hd : b.queues.WellFormed) (hc : 0 < maxOrders)
    (ht : ticks ≤ 64 ^ 4) (ha : a.Released Order.name f e.book.arena) :
    Issues f (e.restSlot m) m.id (e.handleSubmit m).1 a (e.handleSubmit m).2 := by
  have hnone : ∀ {e' : Engine P ticks maxOrders lookup},
      a.Released Order.name f e'.book.arena → Issues f none m.id {} a e' := fun h' =>
    ⟨h'.turnover, by simp, fun _ => rfl⟩
  unfold restSlot handleSubmit
  by_cases hkill : m.t = .fok ∧ !e.canFullyFill m.s.opposite m.px m.qty m.accountId
  · rw [if_pos hkill, if_pos hkill]
    exact hnone ha
  rw [if_neg hkill, if_neg hkill]
  obtain ⟨⟨b', hrep⟩, hrel⟩ := matchAgainstOpposite_released (m := m) h hl hd hc ht
  dsimp only
  by_cases hz : (matchAgainstOpposite m e).remaining = 0
  · rw [if_pos hz, if_pos hz]
    exact hnone (ha.trans hrel)
  rw [if_neg hz, if_neg hz]
  cases m.t with
  | ioc => exact hnone (ha.trans hrel)
  | fok => exact hnone (ha.trans hrel)
  | gtc => exact rest_issues hrep hl hc _ (ha.trans hrel)

theorem onSubmit_issues (h : e.Refines p0 b) (hl : lookup = .byHandle) (hc : 0 < maxOrders)
    (ht : ticks ≤ 64 ^ 4) (ha : a.Released Order.name f e.book.arena) :
    Issues f (e.restSlot m) m.id (e.onSubmit m).1 a (e.onSubmit m).2 := by
  obtain ⟨hd, tag, h⟩ := h
  exact (handleSubmit_issues h hl hd hc ht ha).congr (publishTopIfChanged_book _)

theorem onCancel_arena {m : CancelMsg} (hl : lookup = .byHandle)
    (hf : e.resolve m.handle m.id = some x) :
    (e.onCancel m).book.arena = e.book.arena.deallocate (some x) := by
  unfold onCancel
  rw [find_byHandle hl, hf]
  dsimp only
  rw [publishTopIfChanged_book]
  exact congrArg (SlabArena.deallocate · (some x)) (setSide_arena ..)

theorem unfound_onCancel {m : CancelMsg} (hl : lookup = .byHandle)
    (hf : e.resolve m.handle m.id = none) : e.onCancel m = e := by
  unfold onCancel
  rw [find_byHandle hl, hf]

theorem requantify_arena (newQty : UInt64) :
    (e.requantify x newQty).book.arena =
      e.book.arena.put x { e.order x with remaining := newQty } := by
  unfold requantify
  dsimp only
  rw [publishTopIfChanged_book]
  exact congrArg (SlabArena.put · x _) (setSide_arena ..)

theorem relink_arena (newPx : ℕ) (newQty : UInt64) :
    (e.relink x newPx newQty).book.arena =
      e.book.arena.put x { e.order x with px := newPx, remaining := newQty } := by
  unfold relink
  dsimp only
  rw [publishTopIfChanged_book]
  refine (setSide_arena ..).trans ?_
  exact congrArg (SlabArena.put · x _) (setSide_arena ..)

/-- A modify that submits nothing leaves its order in place. -/
theorem reprice_inPlace {mm : ModifyMsg} (hleg : e.legOfReprice x mm = none) :
    (e.reprice x mm).1 = mm.handle ∧ ((e.reprice x mm).2.book.arena = e.book.arena ∨
      ∃ o, o.id = (e.order x).id ∧ (e.reprice x mm).2.book.arena = e.book.arena.put x o) := by
  have hrelink : ∃ o, o.id = (e.order x).id ∧
      (e.relink x mm.newPx mm.newQty).book.arena = e.book.arena.put x o :=
    ⟨{ e.order x with px := mm.newPx, remaining := mm.newQty }, rfl, relink_arena _ _⟩
  unfold legOfReprice at hleg
  unfold reprice
  dsimp only at hleg ⊢
  split_ifs at hleg ⊢ with hpx hqty
  · exact ⟨rfl, .inl rfl⟩
  · exact ⟨rfl, .inr ⟨{ e.order x with remaining := mm.newQty }, rfl, requantify_arena _⟩⟩
  cases hbest : (e.side (e.order x).s.opposite).best with
  | none => exact ⟨rfl, .inr hrelink⟩
  | some q =>
      rw [hbest] at hleg
      dsimp only at hleg ⊢
      split_ifs at hleg ⊢ with hcross
      exact ⟨rfl, .inr hrelink⟩

/-- What a command does to the residencies, and the handle it returns. -/
structure Moves (e : Engine P ticks maxOrders lookup) (cmd : Command)
    (e' : Engine P ticks maxOrders lookup) : Prop where
  turnover : e.book.arena.Turnover Order.name (e.nameAfter cmd) (e.allocated cmd) e'.book.arena
  resides : ∀ x, e.residency cmd = some x → x < maxOrders ∧
    SlabArena.Allocated (e'.book.arena.generation x) ∧ (e'.order x).id = cmd.effectiveId ∧
    e.issue cmd = e'.handleOf x
  empty : e.residency cmd = none → e.issue cmd = {}

theorem nameAfter_of_reached {cmd : Command} (hreach : e.reached cmd = some x) :
    e.nameAfter cmd = Function.update (fun y => (e.order y).name) x (e.keptName cmd) := by
  funext y
  unfold nameAfter
  rw [hreach, Function.update_apply]
  simp only [Option.some.injEq, eq_comm (a := x)]

theorem residency_of_allocated {cmd : Command} (hx : e.allocated cmd = some x) :
    e.residency cmd = some x := by
  cases cmd with
  | submit m => exact hx
  | cancel m => simp [allocated, leg] at hx
  | modify m =>
      rw [residency]
      split_ifs with hleg
      · exact hx
      · simp only [Bool.not_eq_true, Option.isSome_eq_false_iff, Option.isNone_iff_eq_none] at hleg
        simp [allocated, hleg] at hx

theorem residency_of_kept {cmd : Command} (hreach : e.reached cmd = some x)
    (hkept : e.keptName cmd ≠ none) : e.residency cmd = some x := by
  cases cmd with
  | submit m => exact absurd rfl hkept
  | cancel m => exact absurd rfl hkept
  | modify m =>
      rw [keptName] at hkept
      rw [residency]
      split_ifs at hkept ⊢
      · exact absurd rfl hkept
      · exact hreach

/-- An order that is in a slot after a command, and not by that command, was there before. -/
theorem Moves.stays {cmd : Command} {e' : Engine P ticks maxOrders lookup} (h : e.Moves cmd e')
    (hx : x < maxOrders) (hal : SlabArena.Allocated (e'.book.arena.generation x))
    (hres : e.residency cmd ≠ some x) :
    SlabArena.Allocated (e.book.arena.generation x) ∧ e'.handleOf x = e.handleOf x ∧
      e.reached cmd ≠ some x ∧ (e'.order x).id = (e.order x).id := by
  have hslot : e.allocated cmd ≠ some x := fun hx => hres (residency_of_allocated hx)
  have hgen : e'.book.arena.generation x = e.book.arena.generation x := by
    rcases h.turnover.gen x hx hslot with heq | ⟨hold, heq⟩
    · exact heq
    · rw [heq, SlabArena.allocated_add_one] at hal
      exact absurd hold hal
  have hname : some (e'.order x).id = e.nameAfter cmd x :=
    h.turnover.key x hx hslot hgen (hgen ▸ hal)
  have hreach : e.reached cmd ≠ some x := by
    intro hreach
    rw [nameAfter, if_pos hreach] at hname
    exact hres (residency_of_kept hreach (by simp [← hname]))
  refine ⟨hgen ▸ hal, by rw [handleOf, handleOf, hgen], hreach, ?_⟩
  rw [nameAfter, if_neg hreach] at hname
  exact Option.some.inj hname

/-- A cancel or modify that finds nothing. -/
theorem moves_of_unreached {cmd : Command} (hleg : e.leg cmd = none)
    (hreach : e.reached cmd = none) (hissue : e.issue cmd = {}) : e.Moves cmd e := by
  have hname : e.nameAfter cmd = fun x => (e.order x).name := by
    funext x
    unfold nameAfter
    rw [hreach, if_neg (by simp)]
  have hres : e.residency cmd = none := by
    unfold residency allocated
    cases cmd <;> simp [hreach, hleg]
  refine ⟨?_, by simp [hres], fun _ => hissue⟩
  rw [hname, allocated, hleg]
  exact (SlabArena.Released.refl _).turnover

theorem Refines.onSubmit_moves (h : e.Refines p0 b) (hl : lookup = .byHandle) (hc : 0 < maxOrders)
    (ht : ticks ≤ 64 ^ 4) (m : SubmitMsg) : e.Moves (.submit m) (e.onSubmit m).2 := by
  have hname : e.nameAfter (.submit m) = fun x => (e.order x).name := by
    funext x
    exact if_neg (by simp [reached])
  have hissues := onSubmit_issues (m := m) h hl hc ht (SlabArena.Released.refl _)
  refine ⟨?_, fun x hx => ?_, hissues.empty⟩
  · rw [hname]
    exact hissues.turnover
  · exact ⟨(hissues.turnover.opened x hx).1, hissues.turnover.allocated hx, hissues.issued x hx⟩

/-- A slot given up by the command that reached it. -/
theorem vacated (hl : lookup = .byHandle) {a' : SlabArena Order maxOrders _}
    (ha : a.Released Order.name f a') (hsame : a'.generation x = a.generation x)
    (hal : SlabArena.Allocated (a.generation x)) (name : Option UInt64) :
    a.Released Order.name (Function.update f x name) (a'.deallocate (some x)) := by
  have hg := decide_eq_true hl
  have hal' : SlabArena.Allocated (a'.generation x) := hsame ▸ hal
  refine (ha.deallocate hg hal').update ?_ _
  rw [SlabArena.generation_deallocate hg hal', if_pos rfl, hsame]
  exact SlabArena.ne_add_one _

theorem onCancel_moves {m : CancelMsg} (hl : lookup = .byHandle) :
    e.Moves (.cancel m) (e.onCancel m) := by
  cases hf : e.resolve m.handle m.id with
  | none =>
      rw [unfound_onCancel hl hf]
      exact moves_of_unreached rfl (by simp [reached, find_byHandle hl, hf]) rfl
  | some x =>
      have hname : e.nameAfter (.cancel m) =
          Function.update (fun y => (e.order y).name) x none :=
        nameAfter_of_reached (by simp [reached, find_byHandle hl, hf])
      have hal := (resolve_eq_some_iff.mp hf).2.2.1
      refine ⟨?_, by simp [residency], fun _ => rfl⟩
      rw [hname, onCancel_arena hl hf]
      exact (vacated hl (SlabArena.Released.refl _) rfl hal none).turnover


section Modify

variable {mm : ModifyMsg}

omit [Publisher P] in
/-- The order a modify reaches, under the id it leaves it with. -/
theorem chained_released (hf : e.resolve mm.handle mm.id = some x) :
    let e' := if mm.renames then e.rename x mm.newId else e
    e.book.arena.Released Order.name
        (Function.update (fun y => (e.order y).name) x (some mm.effectiveId)) e'.book.arena ∧
      e'.book.arena.generation = e.book.arena.generation ∧
      (e'.order x).id = mm.effectiveId ∧ e'.resolve mm.handle mm.effectiveId = some x := by
  have hid := (resolve_eq_some_iff.mp hf).2.2.2.2
  rw [mm.effectiveId_eq]
  cases mm.renames with
  | true =>
      obtain ⟨-, -, -, -, harena, -⟩ := e.rename_parts x mm.newId
      have hres : (e.rename x mm.newId).resolve mm.handle mm.newId = some x :=
        e.resolve_rename hf
      refine ⟨?_, ?_, (resolve_eq_some_iff.mp hres).2.2.2.2, hres⟩
      · rw [if_pos rfl, if_pos rfl, harena]
        exact SlabArena.Released.rekey _ x { e.order x with id := mm.newId }
      · rw [if_pos rfl, harena]
        rfl
  | false =>
      refine ⟨?_, rfl, hid, hf⟩
      have hname : Function.update (fun y => (e.order y).name) x (some mm.id) =
          fun y => (e.order y).name :=
        Function.update_eq_self_iff.mpr (congrArg some hid.symm)
      rw [if_neg (by simp), if_neg (by simp), hname]
      exact .refl _

theorem Refines.onModify_moves (h : e.Refines p0 b) (hl : lookup = .byHandle)
    (hc : 0 < maxOrders) (ht : ticks ≤ 64 ^ 4) (hr : (Command.modify mm).InRange ticks) :
    e.Moves (.modify mm) (e.onModify mm).2 := by
  have hfind := find_byHandle (e := e) hl mm.id mm.handle mm.renames
  cases hf : e.resolve mm.handle mm.id with
  | none =>
      have hnone : (e.find mm.id mm.handle mm.renames).1 = none := by rw [hfind, hf]
      have hsame : e.onModify mm = ({}, e) := by rw [onModify_none hnone, hfind]
      rw [hsame]
      exact moves_of_unreached (leg_modify_none hnone) hnone (congrArg Prod.fst hsame)
  | some x =>
  have hsome : (e.find mm.id mm.handle mm.renames).1 = some x := by rw [hfind, hf]
  have hreach : e.reached (.modify mm) = some x := hsome
  obtain ⟨hrel, hgen, hid, hagain⟩ := chained_released hf
  have hal := (resolve_eq_some_iff.mp hf).2.2.1
  have hleg := leg_modify_some hsome
  have hmod := onModify_some hsome
  rw [hfind] at hleg hmod
  dsimp only at hleg hmod
  generalize (if mm.renames then e.rename x mm.newId else e) = e' at *
  cases hcase : e'.legOfReprice x mm with
  | none =>
      rw [hcase] at hleg
      obtain ⟨hhdl, harena⟩ := reprice_inPlace hcase
      have hname : e.nameAfter (.modify mm) =
          Function.update (fun y => (e.order y).name) x (some mm.effectiveId) := by
        rw [nameAfter_of_reached hreach, keptName, hleg, if_neg (by simp)]
      have hres : e.residency (.modify mm) = some x := by
        rw [residency, hleg, if_neg (by simp), hreach]
      have hafter : e.book.arena.Released Order.name (e.nameAfter (.modify mm))
            (e'.reprice x mm).2.book.arena ∧
          (e'.reprice x mm).2.book.arena.generation = e.book.arena.generation ∧
          ((e'.reprice x mm).2.order x).id = mm.effectiveId := by
        rw [hname]
        unfold order at hid ⊢
        rcases harena with heq | ⟨o, ho, heq⟩ <;> rw [heq]
        · exact ⟨hrel, hgen, hid⟩
        · refine ⟨hrel.put (congrArg some ho), hgen, ?_⟩
          rw [SlabArena.slotAt_put_self, ho]
          exact hid
      obtain ⟨hrel', hgen', hid'⟩ := hafter
      rw [hmod]
      refine ⟨?_, fun y hy => ?_, fun hnone => by simp [hres] at hnone⟩
      · rw [allocated, hleg]
        exact hrel'.turnover
      · obtain rfl := Option.some.inj (hres.symm.trans hy)
        refine ⟨(resolve_eq_some_iff.mp hf).2.1, hgen' ▸ hal, hid', ?_⟩
        change (e.onModify mm).1 = _
        rw [hmod, hhdl, eq_handleOf hf, handleOf, handleOf, hgen']
  | some leg =>
      obtain ⟨m, e₁⟩ := leg
      rw [hcase] at hleg
      obtain ⟨hm, rfl⟩ := legOfReprice_eq hcase
      have hmid : m.id = (e'.order x).id := congrArg SubmitMsg.id hm
      have hname : e.nameAfter (.modify mm) = Function.update
          (Function.update (fun y => (e.order y).name) x (some mm.effectiveId)) x none := by
        rw [Function.update_idem, nameAfter_of_reached hreach, keptName, hleg, if_pos (by simp)]
      obtain ⟨b₁, href, -⟩ := h.leg hc ht hr hleg
      have harena : (e'.suppress.onCancel ⟨(e'.order x).id, mm.handle⟩).book.arena =
          e'.book.arena.deallocate (some x) :=
        onCancel_arena (e := e'.suppress) (m := ⟨(e'.order x).id, mm.handle⟩) hl
          (by rw [hid]; exact hagain)
      have hrel₁ := vacated hl hrel (congrFun hgen x) hal none
      rw [← hname, ← harena] at hrel₁
      have hmod' := onModify_of_leg hleg
      have hissues := (onSubmit_issues (m := m) href hl hc ht hrel₁).congr
        (publishTopIfChanged_book (unsuppress _))
      have hres : e.residency (.modify mm) = e.allocated (.modify mm) := by
        rw [residency, hleg, if_pos (by simp)]
      have halloc : e.allocated (.modify mm) =
          (e'.suppress.onCancel ⟨(e'.order x).id, mm.handle⟩).restSlot m := by
        rw [allocated, hleg]
        rfl
      have hissue : e.issue (.modify mm) = _ := congrArg Prod.fst hmod'
      refine ⟨?_, fun y hy => ?_, fun hnone => ?_⟩
      · rw [hmod', halloc]
        exact hissues.turnover
      · rw [hres, halloc] at hy
        obtain ⟨hyid, hyhdl⟩ := hissues.issued y hy
        rw [hmod', hissue]
        exact ⟨(hissues.turnover.opened y hy).1, hissues.turnover.allocated hy,
          hyid.trans (hmid.trans hid), hyhdl⟩
      · rw [hissue]
        exact hissues.empty (halloc ▸ hres ▸ hnone)

end Modify

theorem Refines.apply_moves (h : e.Refines p0 b) (hl : lookup = .byHandle) (hc : 0 < maxOrders)
    (ht : ticks ≤ 64 ^ 4) {cmd : Command} (hr : cmd.InRange ticks) :
    e.Moves cmd (e.apply cmd) := by
  cases cmd with
  | submit m => exact h.onSubmit_moves hl hc ht m
  | cancel m => exact onCancel_moves hl
  | modify m => exact h.onModify_moves hl hc ht hr

end Engine
end Orderbooks
