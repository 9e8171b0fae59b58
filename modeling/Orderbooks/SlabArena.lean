import Orderbooks.Lib.FreeList
import Orderbooks.Lib.Runs
import Orderbooks.Types

/-!
# The slab arena

`arena.hpp`. A slot's storage holds either a live object or, while the slot is
free, the link to the next free slot. The free list is built by the first
allocation, so a new arena's storage and generations are whatever memory the
allocator handed out; `new` takes them as arguments.

`Free a free` lists the free slots in the order `allocate` hands them out.
-/
namespace Orderbooks
open FreeList Runs

/-- What the bytes of one slot hold. -/
inductive Cell (T : Type) where
  | link (next : Option ℕ)
  | obj (value : T)

/-- The link stored in a free slot's bytes. -/
def Cell.next? {T : Type} : Cell T → Option (Option ℕ)
  | .link next => some next
  | .obj _ => none

structure SlabArena (T : Type) (capacity : ℕ) (generations : Bool) where
  cells : ℕ → Cell T
  gens : ℕ → UInt32
  freeHead : Option ℕ := none
  inUse : ℕ := 0
  freelistBuilt : Bool := false

namespace SlabArena

variable {T : Type} {capacity : ℕ} {generations : Bool}

def new (storage : ℕ → Cell T) (gens : ℕ → UInt32) : SlabArena T capacity generations :=
  { cells := storage, gens := gens }

def storeLink (a : SlabArena T capacity generations) (s : ℕ) (next : Option ℕ) :
    SlabArena T capacity generations :=
  { a with cells := Function.update a.cells s (.link next) }

/-- Reading a link out of a live object's bytes yields no usable pointer. -/
def loadLink (a : SlabArena T capacity generations) (s : ℕ) : Option ℕ :=
  (a.cells s).next?.join

def bumpGeneration (a : SlabArena T capacity generations) (s : ℕ) :
    SlabArena T capacity generations :=
  if generations then { a with gens := Function.update a.gens s (a.gens s + 1) } else a

def initFreelist (a : SlabArena T capacity generations) : SlabArena T capacity generations :=
  let a := (List.range (capacity - 1)).foldl (fun a i => a.storeLink i (some (i + 1))) a
  let a := if generations then
    { a with gens := fun i => if i < capacity then 0 else a.gens i } else a
  let a := a.storeLink (capacity - 1) none
  { a with freeHead := some 0, freelistBuilt := true }

def allocate (a : SlabArena T capacity generations) :
    Option ℕ × SlabArena T capacity generations :=
  let a := if a.freelistBuilt then a else a.initFreelist
  match a.freeHead with
  | none => (none, a)
  | some s => (some s, ({ a with freeHead := a.loadLink s, inUse := a.inUse + 1 }).bumpGeneration s)

def deallocate (a : SlabArena T capacity generations) (p : Option ℕ) :
    SlabArena T capacity generations :=
  match p with
  | none => a
  | some s =>
      let a := (a.storeLink s a.freeHead).bumpGeneration s
      { a with freeHead := some s, inUse := a.inUse - 1 }

def generation (a : SlabArena T capacity generations) (i : ℕ) : UInt32 :=
  if a.freelistBuilt then a.gens i else 0

/-- The object in a slot. Only meaningful while the slot is allocated. -/
def slotAt [Inhabited T] (a : SlabArena T capacity generations) (s : ℕ) : T :=
  match a.cells s with
  | .obj v => v
  | .link _ => default

/-- Construct or overwrite the object in an allocated slot. -/
def put (a : SlabArena T capacity generations) (s : ℕ) (v : T) :
    SlabArena T capacity generations :=
  { a with cells := Function.update a.cells s (.obj v) }

/-! ## The free slots of an arena -/

/-- A generation is odd while its slot is allocated. -/
def Allocated (gen : UInt32) : Prop := gen &&& 1 ≠ 0

structure Free (a : SlabArena T capacity generations) (free : List ℕ) : Prop where
  thread : a.freelistBuilt = true → Threaded (fun x => (a.cells x).next?) a.freeHead free
  unbuilt : a.freelistBuilt = false → free = List.range capacity
  pool : Pool capacity free a.inUse
  parity : generations = true → a.freelistBuilt = true →
    ∀ x < capacity, Allocated (a.gens x) ↔ x ∉ free

variable {a : SlabArena T capacity generations} {free : List ℕ} {x : ℕ}

theorem new_free (storage : ℕ → Cell T) (gens : ℕ → UInt32) :
    (new storage gens : SlabArena T capacity generations).Free (List.range capacity) where
  thread h := by simp [new] at h
  unbuilt _ := rfl
  pool := Pool.range capacity
  parity _ h := by simp [new] at h

theorem allocated_iff_odd (gen : UInt32) : Allocated gen ↔ gen.toNat % 2 = 1 := by
  have hzero : gen &&& 1 = 0 ↔ gen.toNat % 2 = 0 := by
    rw [← UInt32.toNat_inj, UInt32.toNat_and, show (1 : UInt32).toNat = 1 from rfl,
      Nat.and_one_is_mod]
    rfl
  unfold Allocated
  rw [ne_eq, hzero]
  omega

theorem allocated_add_one (gen : UInt32) : Allocated (gen + 1) ↔ ¬ Allocated gen := by
  rw [allocated_iff_odd, allocated_iff_odd, UInt32.toNat_add,
    show (1 : UInt32).toNat = 1 from rfl]
  omega

@[simp] theorem bumpGeneration_cells (s : ℕ) : (a.bumpGeneration s).cells = a.cells := by
  unfold bumpGeneration
  split_ifs <;> rfl

@[simp] theorem bumpGeneration_freeHead (s : ℕ) :
    (a.bumpGeneration s).freeHead = a.freeHead := by
  unfold bumpGeneration
  split_ifs <;> rfl

@[simp] theorem bumpGeneration_inUse (s : ℕ) : (a.bumpGeneration s).inUse = a.inUse := by
  unfold bumpGeneration
  split_ifs <;> rfl

@[simp] theorem bumpGeneration_freelistBuilt (s : ℕ) :
    (a.bumpGeneration s).freelistBuilt = a.freelistBuilt := by
  unfold bumpGeneration
  split_ifs <;> rfl

theorem bumpGeneration_gens (hg : generations = true) (s : ℕ) :
    (a.bumpGeneration s).gens = Function.update a.gens s (a.gens s + 1) := by
  simp [bumpGeneration, hg]

/-- The loop of `init_freelist_` links each slot to its successor. -/
theorem foldl_storeLink (n : ℕ) (a : SlabArena T capacity generations) :
    (List.range n).foldl (fun a i => a.storeLink i (some (i + 1))) a =
      { a with cells := fun i => if i < n then .link (some (i + 1)) else a.cells i } := by
  induction n with
  | zero => simp
  | succ n ih =>
      rw [List.range_succ, List.foldl_append, ih]
      simp only [List.foldl_cons, List.foldl_nil, storeLink]
      congr 1
      funext i
      by_cases hi : i = n
      · subst hi
        simp
      · rw [Function.update_of_ne hi]
        have : i < n ↔ i < n + 1 := by omega
        simp only [this]

theorem initFreelist_cells (hc : 0 < capacity) (i : ℕ) :
    a.initFreelist.cells i =
      if i + 1 < capacity then .link (some (i + 1))
      else if i + 1 = capacity then .link none else a.cells i := by
  have hcells : a.initFreelist.cells = Function.update
      (fun i => if i < capacity - 1 then Cell.link (some (i + 1)) else a.cells i)
      (capacity - 1) (.link none) := by
    unfold initFreelist
    rw [foldl_storeLink]
    cases generations <;> rfl
  rw [hcells]
  by_cases hi : i = capacity - 1
  · subst hi
    have h2 : capacity - 1 + 1 = capacity := by omega
    simp [h2]
  · rw [Function.update_of_ne hi]
    have h1 : i < capacity - 1 ↔ i + 1 < capacity := by omega
    have h2 : ¬ i + 1 = capacity := by omega
    simp only [h1, h2, if_false]

theorem initFreelist_inUse : a.initFreelist.inUse = a.inUse := by
  unfold initFreelist
  rw [foldl_storeLink]
  cases generations <;> rfl

theorem initFreelist_gens (hg : generations = true) (hx : x < capacity) :
    a.initFreelist.gens x = 0 := by
  subst hg
  simp [initFreelist, storeLink, hx]

theorem initFreelist_thread (hc : 0 < capacity) :
    Threaded (fun x => (a.initFreelist.cells x).next?) (some 0) (List.range capacity) := by
  rw [List.range_eq_range']
  refine Threaded.of_range hc (fun i _ hi => ?_) ?_
  · simp only [initFreelist_cells hc]
    rw [if_pos (by omega)]
    rfl
  · simp only [initFreelist_cells hc]
    rw [if_neg (by omega), if_pos (by omega)]
    rfl

/-- Building the list before the first allocation changes nothing about which
slots are free, and touches no slot outside the arena. -/
theorem Free.build (h : a.Free free) (hc : 0 < capacity) :
    let b := if a.freelistBuilt then a else a.initFreelist
    b.Free free ∧ b.freelistBuilt = true ∧ b.inUse = a.inUse ∧
      ∀ y, y ∉ free → b.cells y = a.cells y := by
  intro b
  cases hb : a.freelistBuilt with
  | true =>
      have hbe : b = a := by simp [b, hb]
      rw [hbe]
      exact ⟨h, hb, rfl, fun _ _ => rfl⟩
  | false =>
      have hbe : b = a.initFreelist := by simp [b, hb]
      have hf := h.unbuilt hb
      rw [hbe]
      refine ⟨⟨fun _ => ?_, fun hbuilt => ?_, ?_, fun hg _ y hy => ?_⟩, rfl, initFreelist_inUse,
        fun y hy => ?_⟩
      · rw [hf]
        exact initFreelist_thread hc
      · exact absurd hbuilt (by simp [initFreelist])
      · rw [initFreelist_inUse]
        exact h.pool
      · rw [initFreelist_gens hg hy, hf, List.mem_range]
        simp [Allocated, hy]
      · rw [hf, List.mem_range] at hy
        rw [initFreelist_cells hc, if_neg (by omega), if_neg (by omega)]

/-- Allocation fails exactly when no slot is free. -/
theorem Free.allocate_nil (h : a.Free []) (hc : 0 < capacity) : a.allocate = (none, a) := by
  have hb : a.freelistBuilt = true := by
    by_contra hb
    have := h.unbuilt (by simpa using hb)
    have := congrArg List.length this
    simp at this
    omega
  simp [allocate, hb, (h.thread hb).head_nil]

theorem Free.allocate_cons (h : a.Free (x :: free)) (hc : 0 < capacity) :
    ∃ b, a.allocate = (some x, b) ∧ b.Free free ∧ b.inUse = a.inUse + 1 ∧
      ∀ y, y ∉ x :: free → b.cells y = a.cells y := by
  obtain ⟨hf, hb, hu, hcells⟩ := h.build hc
  unfold allocate
  generalize (if a.freelistBuilt = true then a else a.initFreelist) = c at hf hb hu hcells
  obtain ⟨next, hhead, hx, ht⟩ := (hf.thread hb).uncons
  have hload : c.loadLink x = next := by
    unfold loadLink
    simp [hx]
  simp only [hhead]
  refine ⟨_, rfl, ⟨fun _ => ?_, fun hbuilt => ?_, ?_, fun hg _ y hy => ?_⟩, ?_, ?_⟩
  · simpa [hload] using ht
  · simp [hb] at hbuilt
  · simpa using hf.pool.pop
  · have hpar := hf.parity hg hb y hy
    rw [bumpGeneration_gens hg]
    by_cases hyx : y = x
    · subst hyx
      rw [Function.update_self, allocated_add_one, hpar]
      simpa using (List.nodup_cons.mp hf.pool.nodup).1
    · rw [Function.update_of_ne hyx, hpar]
      simp [hyx]
  · simp [hu]
  · simpa using hcells

/-- A slot that is not free can only be named once the list has been built. -/
theorem Free.built (h : a.Free free) (hx : x < capacity) (hfree : x ∉ free) :
    a.freelistBuilt = true := by
  by_contra hb
  rw [h.unbuilt (by simpa using hb), List.mem_range] at hfree
  exact hfree hx

theorem Free.deallocate (h : a.Free free) (hx : x < capacity) (hfree : x ∉ free) :
    (a.deallocate (some x)).Free (x :: free) := by
  have hb := h.built hx hfree
  refine ⟨fun _ => ?_, fun hbuilt => ?_, ?_, fun hg _ y hy => ?_⟩
  · refine .cons (n := a.freeHead) ?_ ((h.thread hb).congr fun y hy => ?_)
    · simp [SlabArena.deallocate, storeLink, Cell.next?]
    · have hne : y ≠ x := fun hyx => hfree (hyx ▸ hy)
      simp [SlabArena.deallocate, storeLink, hne]
  · simp [SlabArena.deallocate, storeLink, hb] at hbuilt
  · simpa [SlabArena.deallocate, storeLink] using h.pool.push hx hfree
  · have hpar := h.parity hg hb y hy
    simp only [SlabArena.deallocate]
    rw [bumpGeneration_gens hg]
    by_cases hyx : y = x
    · subst hyx
      rw [Function.update_self, allocated_add_one]
      simpa [storeLink, hpar] using hfree
    · rw [Function.update_of_ne hyx]
      simpa [storeLink, hyx] using hpar

theorem deallocate_cells {y : ℕ} (hy : y ≠ x) :
    (a.deallocate (some x)).cells y = a.cells y := by
  simp [SlabArena.deallocate, storeLink, hy]

theorem Free.deallocate_inUse : (a.deallocate (some x)).inUse = a.inUse - 1 := by
  simp [SlabArena.deallocate, storeLink]

/-- Writing an object into a slot that is not free leaves the free list alone. -/
theorem Free.put (h : a.Free free) (hfree : x ∉ free) (v : T) : (a.put x v).Free free where
  thread hb := (h.thread hb).congr fun y hy => by
    have hne : y ≠ x := fun hyx => hfree (hyx ▸ hy)
    simp [SlabArena.put, hne]
  unbuilt hb := h.unbuilt hb
  pool := h.pool
  parity := h.parity

@[simp] theorem slotAt_put_self [Inhabited T] (v : T) : (a.put x v).slotAt x = v := by
  simp [slotAt, put]

@[simp] theorem put_inUse (v : T) : (a.put x v).inUse = a.inUse := rfl

theorem slotAt_put_of_ne [Inhabited T] {y : ℕ} (hy : y ≠ x) (v : T) :
    (a.put x v).slotAt y = a.slotAt y := by
  simp [slotAt, put, hy]

theorem slotAt_congr [Inhabited T] {b : SlabArena T capacity generations} {y : ℕ}
    (h : b.cells y = a.cells y) : b.slotAt y = a.slotAt y := by
  simp [slotAt, h]

/-! ## Generations -/

section Generations

variable {a' : SlabArena T capacity generations} {y : ℕ}

instance : DecidablePred Allocated := fun _ => inferInstanceAs (Decidable (_ ≠ _))

theorem not_allocated_zero : ¬Allocated 0 := by
  simp [Allocated]

theorem built_of_allocated (h : Allocated (a.generation x)) : a.freelistBuilt = true := by
  unfold generation at h
  split_ifs at h with hb
  · exact hb
  · exact absurd h not_allocated_zero

@[simp] theorem generation_put (v : T) : (a.put x v).generation = a.generation := rfl

theorem generation_deallocate (hg : generations = true) (hx : Allocated (a.generation x)) :
    (a.deallocate (some x)).generation y =
      if y = x then a.generation x + 1 else a.generation y := by
  have hb := built_of_allocated hx
  have hb' : (a.deallocate (some x)).freelistBuilt = true := by
    simpa [deallocate, storeLink] using hb
  have hgens : (a.deallocate (some x)).gens = Function.update a.gens x (a.gens x + 1) :=
    bumpGeneration_gens hg x
  unfold generation
  rw [if_pos hb', if_pos hb, if_pos hb, hgens, Function.update_apply]

theorem generation_allocate (hg : generations = true) (h : a.allocate = (some x, a'))
    (hy : y < capacity) :
    a'.generation y = if y = x then a.generation y + 1 else a.generation y := by
  let b := if a.freelistBuilt then a else a.initFreelist
  have hb : b.freelistBuilt = true := by
    simp only [b]
    split_ifs with hb
    · exact hb
    · rfl
  have hgen : b.gens y = a.generation y := by
    simp only [b, generation]
    split_ifs with hb
    · rfl
    · exact initFreelist_gens hg hy
  have halloc : a.allocate = match b.freeHead with
      | none => (none, b)
      | some s => (some s,
        ({ b with freeHead := b.loadLink s, inUse := b.inUse + 1 } :
          SlabArena T capacity generations).bumpGeneration s) := rfl
  rw [halloc] at h
  cases hhead : b.freeHead with
  | none => simp [hhead] at h
  | some s =>
      rw [hhead] at h
      obtain ⟨rfl, rfl⟩ : s = x ∧ _ = a' := by simpa using h
      have hbuilt : (({ b with freeHead := b.loadLink s, inUse := b.inUse + 1 } :
          SlabArena T capacity generations).bumpGeneration s).freelistBuilt = true := by
        rw [bumpGeneration_freelistBuilt]
        exact hb
      rw [generation, if_pos hbuilt, bumpGeneration_gens hg]
      dsimp only
      rw [Function.update_apply]
      split_ifs with hys
      · subst hys
        rw [hgen]
      · exact hgen

end Generations

/-! ## Whole runs

What a client does with an arena is judged beside its own books: the slots it holds and
how many calls have touched each. -/

/-- A client asks for a slot, gives a pointer back or writes the object in a slot. -/
inductive ArenaOp (T : Type) where
  | allocate
  | deallocate (p : Option ℕ)
  | put (s : ℕ) (v : T)

structure Client (T : Type) (capacity : ℕ) (generations : Bool) where
  arena : SlabArena T capacity generations
  held : List ℕ := []
  touches : ℕ → ℕ := fun _ => 0

namespace Client

variable {u : Client T capacity generations} {op : ArenaOp T}

def new (storage : ℕ → Cell T) (gens : ℕ → UInt32) : Client T capacity generations :=
  { arena := .new storage gens }

/-- One more call has touched slot `s`. -/
def touch (u : Client T capacity generations) (s : ℕ) : ℕ → ℕ :=
  Function.update u.touches s (u.touches s + 1)

def step (u : Client T capacity generations) : ArenaOp T → Client T capacity generations
  | .allocate =>
      match u.arena.allocate with
      | (none, a) => { u with arena := a }
      | (some s, a) => ⟨a, s :: u.held, u.touch s⟩
  | .deallocate none => { u with arena := u.arena.deallocate none }
  | .deallocate (some s) => ⟨u.arena.deallocate (some s), u.held.erase s, u.touch s⟩
  | .put s v => { u with arena := u.arena.put s v }

/-- A client gives back and writes only what it holds. -/
def Permits (u : Client T capacity generations) : ArenaOp T → Prop
  | .allocate => True
  | .deallocate none => True
  | .deallocate (some s) => s ∈ u.held
  | .put s _ => s ∈ u.held

instance : Decidable (u.Permits op) :=
  match op with
  | .allocate => isTrue trivial
  | .deallocate none => isTrue trivial
  | .deallocate (some s) => inferInstanceAs (Decidable (s ∈ u.held))
  | .put s _ => inferInstanceAs (Decidable (s ∈ u.held))

structure Sound (u : Client T capacity generations) (free : List ℕ) : Prop where
  chain : u.arena.Free free
  split : (free ++ u.held).Perm (List.range capacity)
  count : generations = true → ∀ x < capacity,
    u.arena.generation x = UInt32.ofNat (u.touches x)

variable {free : List ℕ}

theorem new_sound (storage : ℕ → Cell T) (gens : ℕ → UInt32) :
    (new storage gens : Client T capacity generations).Sound (List.range capacity) :=
  ⟨new_free storage gens, by simp [new], fun _ _ _ => rfl⟩

section Facts

variable (h : u.Sound free)
include h

theorem Sound.nodup : (free ++ u.held).Nodup := h.split.nodup_iff.mpr List.nodup_range

theorem Sound.lt_of_held (hx : x ∈ u.held) : x < capacity :=
  List.mem_range.mp (h.split.mem_iff.mp (List.mem_append_right free hx))

theorem Sound.not_free (hx : x ∈ u.held) : x ∉ free := fun hf =>
  (List.nodup_append.mp h.nodup).2.2 x hf x hx rfl

theorem Sound.mem_held_iff (hx : x < capacity) : x ∈ u.held ↔ x ∉ free := by
  refine ⟨h.not_free, fun hf => ?_⟩
  have := h.split.mem_iff.mpr (List.mem_range.mpr hx)
  exact (List.mem_append.mp this).resolve_left hf

theorem Sound.inUse_eq : u.arena.inUse = u.held.length := by
  have hlen := h.split.length_eq
  rw [List.length_append, List.length_range] at hlen
  have := h.chain.pool.count
  omega

/-- The generation of a slot is odd while the slot is held, built list or not. -/
theorem Sound.allocated_iff (hg : generations = true) (hx : x < capacity) :
    Allocated (u.arena.generation x) ↔ x ∈ u.held := by
  rw [h.mem_held_iff hx]
  cases hb : u.arena.freelistBuilt with
  | true =>
      rw [generation, if_pos hb]
      exact h.chain.parity hg hb x hx
  | false =>
      rw [generation, if_neg (by simp [hb]), h.chain.unbuilt hb, List.mem_range]
      simp [not_allocated_zero, hx]

/-- A call that moves the generation of `s` on by one is counted there. -/
theorem Sound.count_touch {s : ℕ} {b : SlabArena T capacity generations}
    (hg : generations = true)
    (hgen : ∀ y < capacity, b.generation y =
      if y = s then u.arena.generation y + 1 else u.arena.generation y)
    (hx : x < capacity) : b.generation x = UInt32.ofNat (u.touch s x) := by
  rw [hgen x hx, h.count hg x hx, touch, Function.update_apply]
  split_ifs with hxs
  · subst hxs
    rw [UInt32.ofNat_add]
    rfl
  · rfl

/-- Allocation hands out the head of the list, or nothing when the list is empty. -/
theorem Sound.allocate (hc : 0 < capacity) : ∃ free, (u.step .allocate).Sound free := by
  cases free with
  | nil =>
      have hstep : u.step .allocate = u := by simp only [step, h.chain.allocate_nil hc]
      rw [hstep]
      exact ⟨[], h⟩
  | cons x free =>
      obtain ⟨b, halloc, hb, -, -⟩ := h.chain.allocate_cons hc
      have hstep : u.step .allocate = ⟨b, x :: u.held, u.touch x⟩ := by simp only [step, halloc]
      rw [hstep]
      refine ⟨free, hb, ?_, fun hg y hy => ?_⟩
      · exact List.perm_middle.trans h.split
      · exact h.count_touch hg (fun y hy => generation_allocate hg halloc hy) hy

theorem Sound.deallocate (hx : x ∈ u.held) : (u.step (.deallocate (some x))).Sound (x :: free) := by
  refine ⟨h.chain.deallocate (h.lt_of_held hx) (h.not_free hx), ?_, fun hg y hy => ?_⟩
  · have hback : (free ++ x :: u.held.erase x).Perm (free ++ u.held) :=
      (List.perm_cons_erase hx).symm.append_left free
    exact (List.perm_middle.symm.trans hback).trans h.split
  · have hal := (h.allocated_iff hg (h.lt_of_held hx)).mpr hx
    refine h.count_touch hg (fun z _ => (generation_deallocate hg hal).trans ?_) hy
    split_ifs with hzx
    · rw [hzx]
    · rfl

/-- What one permitted call preserves. -/
theorem Sound.step (hc : 0 < capacity) (hop : u.Permits op) : ∃ free, (u.step op).Sound free := by
  cases op with
  | allocate => exact h.allocate hc
  | deallocate p =>
      cases p with
      | none => exact ⟨free, h⟩
      | some x => exact ⟨_, h.deallocate hop⟩
  | put s v => exact ⟨free, h.chain.put (h.not_free hop) v, h.split, h.count⟩

/-- What an allocation would answer now. -/
theorem Sound.allocate_fst (hc : 0 < capacity) : u.arena.allocate.1 = free.head? := by
  cases free with
  | nil =>
      rw [h.chain.allocate_nil hc]
      rfl
  | cons x free =>
      obtain ⟨b, halloc, -⟩ := h.chain.allocate_cons hc
      rw [halloc]
      rfl

end Facts

theorem run_sound (hc : 0 < capacity) {storage : ℕ → Cell T} {gens : ℕ → UInt32}
    {ops : List (ArenaOp T)}
    (hops : Along step Permits (new storage gens : Client T capacity generations) ops) :
    ∃ free, (ops.foldl step (new storage gens : Client T capacity generations)).Sound free :=
  hops.invariant (fun u => ∃ free, u.Sound free)
    (fun _ _ ⟨_, h⟩ hop => h.step hc hop) ⟨_, new_sound storage gens⟩

/-- The arena is a sound pool. In every run of a client that gives back and writes only
what it holds, the free list visits each free slot once, free and held slots together are
the arena, allocation fails only when every slot is held and never hands out a held slot,
and a generation counts the calls that touched its slot. -/
theorem run_pool (capacity : ℕ) (generations : Bool) (hc : 0 < capacity) (storage : ℕ → Cell T)
    (gens : ℕ → UInt32) (ops : List (ArenaOp T))
    (hops : Along step Permits (new storage gens : Client T capacity generations) ops) :
    let u := ops.foldl step (new storage gens : Client T capacity generations)
    (∃ free : List ℕ, free.Nodup ∧ (free ++ u.held).Perm (List.range capacity) ∧
      (u.arena.freelistBuilt = true →
        Threaded (fun x => (u.arena.cells x).next?) u.arena.freeHead free)) ∧
    (u.arena.allocate.1 = none ↔ u.arena.inUse = capacity) ∧
    (∀ s, u.arena.allocate.1 = some s → s < capacity ∧ s ∉ u.held) ∧
    u.arena.inUse = u.held.length ∧
    (generations = true → ∀ x < capacity,
      u.arena.generation x = UInt32.ofNat (u.touches x) ∧
        ((u.arena.generation x).toNat % 2 = 1 ↔ x ∈ u.held)) := by
  intro u
  obtain ⟨free, h⟩ : ∃ free, u.Sound free := run_sound hc hops
  have hfst := h.allocate_fst hc
  have hcount := h.chain.pool.count
  refine ⟨⟨free, h.chain.pool.nodup, h.split, h.chain.thread⟩, ?_, fun s hs => ?_, h.inUse_eq,
    fun hg x hx => ⟨h.count hg x hx, ?_⟩⟩
  · rw [hfst, List.head?_eq_none_iff, ← List.length_eq_zero_iff]
    omega
  · have hmem : s ∈ free := List.mem_of_head? (hfst ▸ hs)
    exact ⟨h.chain.pool.bound s hmem, fun hheld => h.not_free hheld hmem⟩
  · rw [← allocated_iff_odd]
    exact h.allocated_iff hg hx

/-- Two slots are filled, a third allocation fails, and a slot given back is handed out again. -/
theorem run_pool_two_slots :
    let u := ([.allocate, .put 0 7, .allocate, .allocate, .deallocate (some 0), .allocate] :
      List (ArenaOp ℕ)).foldl step
        (new (fun _ => .obj 5) (fun _ => 9) : Client ℕ 2 true)
    u.held = [0, 1] ∧ (u.arena.allocate.1 = none ↔ u.arena.inUse = 2) ∧
      u.arena.generation 0 = 3 := by
  have h := run_pool 2 true (by decide) (fun _ => .obj 5) (fun _ => 9)
    [.allocate, .put 0 7, .allocate, .allocate, .deallocate (some 0), .allocate]
    (by decide)
  exact ⟨rfl, h.2.1, (h.2.2.2.2 rfl 0 (by decide)).1⟩

end Client
end SlabArena
end Orderbooks
