import Orderbooks.HierBitmap
import Orderbooks.SlabArena
import Orderbooks.IdIndex

/-!
# Levels, sides and the book

`level.hpp` and `book.hpp`. A level's intrusive FIFO is the list of the arena
slots linked into it, front first. An operation that takes `order&` takes the
slot and the order stored there.
-/
namespace Orderbooks

structure Level where
  aggregate : UInt64 := 0
  fifo : List ℕ := []
  deriving Inhabited

namespace Level

def empty (l : Level) : Bool := l.fifo.isEmpty

def orderCount (l : Level) : ℕ := l.fifo.length

def pushBack (l : Level) (p : ℕ) (o : Order) : Level :=
  { fifo := l.fifo ++ [p], aggregate := l.aggregate + o.remaining }

def unlink (l : Level) (p : ℕ) (o : Order) : Level :=
  { aggregate := l.aggregate - o.remaining, fifo := l.fifo.erase p }

end Level

structure BookSide (ticks : ℕ) where
  levels : ℕ → Level := fun _ => {}
  bm : HierBitmap ticks := .new ticks
  best : Option ℕ := none

namespace BookSide

variable {ticks : ℕ}

/-- Overwrite one level through the reference `level_at` returns. -/
def setLevel (bs : BookSide ticks) (px : ℕ) (l : Level) : BookSide ticks :=
  { bs with levels := Function.update bs.levels px l }

def recomputeBest (s : Side) (bs : BookSide ticks) : BookSide ticks :=
  { bs with best := match s with
      | .bid => bs.bm.highestSet
      | .ask => bs.bm.lowestSet }

def add (s : Side) (bs : BookSide ticks) (p : ℕ) (o : Order) : BookSide ticks :=
  let lvl := bs.levels o.px
  let wasEmpty := lvl.empty
  let bs := bs.setLevel o.px (lvl.pushBack p o)
  let bs := if wasEmpty then { bs with bm := bs.bm.set o.px } else bs
  { bs with best := s.improve o.px bs.best }

/-- The match path drains a level's FIFO directly and calls this once it is empty. -/
def notifyLevelEmptied (s : Side) (bs : BookSide ticks) (px : ℕ) : BookSide ticks :=
  let bs := { bs with bm := bs.bm.clear px }
  if bs.best = some px then bs.recomputeBest s else bs

def remove (s : Side) (bs : BookSide ticks) (p : ℕ) (o : Order) : BookSide ticks :=
  let lvl := (bs.levels o.px).unlink p o
  let bs := bs.setLevel o.px lvl
  if lvl.empty then
    let bs := { bs with bm := bs.bm.clear o.px }
    if bs.best = some o.px then bs.recomputeBest s else bs
  else bs

def aggregateAt (bs : BookSide ticks) (px : ℕ) : UInt64 := (bs.levels px).aggregate

def levelAt (bs : BookSide ticks) (px : ℕ) : Level := bs.levels px

def nextPopulatedAtOrAfter (bs : BookSide ticks) (px : ℕ) : Option ℕ := bs.bm.nextSetAtOrAfter px

def prevPopulatedAtOrBefore (bs : BookSide ticks) (px : ℕ) : Option ℕ := bs.bm.prevSetAtOrBefore px

/-- The prices `for_each_level` visits from `px` on, in the order it visits them. -/
def levelsFrom (bs : BookSide ticks) : ℕ → Option ℕ → List ℕ
  | 0, _ => []
  | _ + 1, none => []
  | fuel + 1, some px => px :: bs.levelsFrom fuel (bs.nextPopulatedAtOrAfter (px + 1))

def forEachLevel (bs : BookSide ticks) : List ℕ :=
  bs.levelsFrom (ticks + 1) (bs.nextPopulatedAtOrAfter 0)

def empty (bs : BookSide ticks) : Bool := bs.bm.empty

/-! ## The bitmap and the cached best price -/

/-- The bitmap marks the prices in `S`, and the cached best price is the best of them. -/
structure Ladder (s : Side) (bs : BookSide ticks) (S : Set ℕ) : Prop where
  bitmap : bs.bm.Represents S
  best : s.IsBest S bs.best

variable {s : Side} {bs : BookSide ticks} {S : Set ℕ} {o : Order} {x : ℕ}

theorem Ladder.empty (s : Side) : Ladder s ({} : BookSide ticks) ∅ where
  bitmap := HierBitmap.new_represents ticks
  best := rfl

theorem Ladder.setLevel (h : Ladder s bs S) (p : ℕ) (l : Level) :
    Ladder s (bs.setLevel p l) S := ⟨h.bitmap, h.best⟩

theorem Ladder.recomputeBest (h : bs.bm.Represents S) (ht : ticks ≤ 64 ^ 4) :
    Ladder s (bs.recomputeBest s) S where
  bitmap := h
  best := by
    cases s with
    | bid =>
        simp only [BookSide.recomputeBest]
        cases hr : bs.bm.highestSet with
        | none => exact h.eq_empty ht (HierBitmap.Represents.highestSet_eq_none_iff.mp hr)
        | some r =>
            have hg := h.highestSet_isGreatest ht hr
            exact ⟨hg.1, fun q hq => by simpa [Side.better] using hg.2 hq⟩
    | ask =>
        simp only [BookSide.recomputeBest]
        cases hr : bs.bm.lowestSet with
        | none => exact h.eq_empty ht (HierBitmap.Represents.lowestSet_eq_none_iff.mp hr)
        | some r =>
            have hg := h.lowestSet_isLeast hr
            exact ⟨hg.1, fun q hq => by simpa [Side.better] using hg.2 hq⟩

/-- An emptied level leaves the ladder, whichever path noticed it. -/
theorem Ladder.notifyLevelEmptied (h : Ladder s bs S) (ht : ticks ≤ 64 ^ 4) (px : ℕ) :
    Ladder s (bs.notifyLevelEmptied s px) (S \ {px}) := by
  unfold BookSide.notifyLevelEmptied
  have hc := h.bitmap.clear px
  simp only
  split_ifs with hb
  · exact recomputeBest hc ht
  · exact ⟨hc, h.best.erase hb⟩

theorem Ladder.remove (h : Ladder s bs S) (ht : ticks ≤ 64 ^ 4) :
    Ladder s (bs.remove s x o)
      (if (bs.levels o.px).fifo.erase x = [] then S \ {o.px} else S) := by
  have hr : bs.remove s x o =
      if (bs.levels o.px).fifo.erase x = [] then
        (bs.setLevel o.px ((bs.levels o.px).unlink x o)).notifyLevelEmptied s o.px
      else bs.setLevel o.px ((bs.levels o.px).unlink x o) := by
    unfold BookSide.remove BookSide.notifyLevelEmptied Level.empty Level.unlink
    simp only [List.isEmpty_iff]
  rw [hr]
  split_ifs
  · exact (h.setLevel _ _).notifyLevelEmptied ht o.px
  · exact h.setLevel _ _

theorem Ladder.add (h : Ladder s bs S) (hpx : o.px < ticks)
    (he : (bs.levels o.px).fifo ≠ [] → o.px ∈ S) :
    Ladder s (bs.add s x o) (insert o.px S) := by
  have hbm : (if (bs.levels o.px).empty then bs.bm.set o.px else bs.bm).Represents
      (insert o.px S) := by
    unfold Level.empty
    split_ifs with hem
    · exact h.bitmap.set hpx
    · rw [Set.insert_eq_of_mem (he (by simpa using hem))]
      exact h.bitmap
  have hbest := h.best.insert o.px
  unfold BookSide.add
  simp only
  split_ifs at hbm ⊢ <;> exact ⟨hbm, hbest⟩

@[simp] theorem recomputeBest_levels : (bs.recomputeBest s).levels = bs.levels := rfl

@[simp] theorem notifyLevelEmptied_levels (px : ℕ) :
    (bs.notifyLevelEmptied s px).levels = bs.levels := by
  unfold BookSide.notifyLevelEmptied
  simp only
  split_ifs <;> rfl

@[simp] theorem remove_levels :
    (bs.remove s x o).levels =
      Function.update bs.levels o.px ((bs.levels o.px).unlink x o) := by
  unfold BookSide.remove
  simp only
  split_ifs <;> rfl

@[simp] theorem add_levels :
    (bs.add s x o).levels =
      Function.update bs.levels o.px ((bs.levels o.px).pushBack x o) := by
  unfold BookSide.add
  simp only
  split_ifs <;> rfl

@[simp] theorem setLevel_levels (p : ℕ) (l : Level) :
    (bs.setLevel p l).levels = Function.update bs.levels p l := rfl

/-- Walking away from the best price, the bitmap finds the next populated price. -/
theorem Ladder.isBest_worse (h : Ladder .ask bs S) (ht : ticks ≤ 64 ^ 4) (px : ℕ) :
    Side.ask.IsBest {q | q ∈ S ∧ Side.ask.better px q = true}
      (bs.nextPopulatedAtOrAfter (px + 1)) := by
  have hn := h.bitmap.nextSetAtOrAfter_isNext ht (px + 1)
  unfold BookSide.nextPopulatedAtOrAfter
  cases hr : bs.bm.nextSetAtOrAfter (px + 1) with
  | none =>
      rw [hr] at hn
      refine Set.eq_empty_of_forall_notMem fun q hq => ?_
      have := hn q hq.1
      have := hq.2
      simp only [Side.better, decide_eq_true_eq] at this
      omega
  | some r =>
      rw [hr] at hn
      refine ⟨⟨hn.1.1, ?_⟩, fun q hq => ?_⟩
      · have := hn.1.2
        simp only [Side.better, decide_eq_true_eq]
        omega
      · have hlt := hq.2
        simp only [Side.better, decide_eq_true_eq] at hlt
        have := hn.2 ⟨hq.1, hlt⟩
        simpa [Side.better] using this

theorem Ladder.isBest_worse_bid (h : Ladder .bid bs S) (ht : ticks ≤ 64 ^ 4) (px : ℕ) :
    Side.bid.IsBest {q | q ∈ S ∧ Side.bid.better px q = true}
      (if px = 0 then none else bs.prevPopulatedAtOrBefore (px - 1)) := by
  split_ifs with h0
  · refine Set.eq_empty_of_forall_notMem fun q hq => ?_
    have := hq.2
    simp only [Side.better, decide_eq_true_eq] at this
    omega
  have hn := h.bitmap.prevSetAtOrBefore_isPrev ht (px - 1)
  unfold BookSide.prevPopulatedAtOrBefore
  cases hr : bs.bm.prevSetAtOrBefore (px - 1) with
  | none =>
      rw [hr] at hn
      refine Set.eq_empty_of_forall_notMem fun q hq => ?_
      have := hn q hq.1
      have := hq.2
      simp only [Side.better, decide_eq_true_eq] at this
      omega
  | some r =>
      rw [hr] at hn
      refine ⟨⟨hn.1.1, ?_⟩, fun q hq => ?_⟩
      · have := hn.1.2
        simp only [Side.better, decide_eq_true_eq]
        omega
      · have hlt := hq.2
        simp only [Side.better, decide_eq_true_eq] at hlt
        have := hn.2 ⟨hq.1, by omega⟩
        simpa [Side.better] using this

end BookSide

structure Book (ticks maxOrders : ℕ) (generations : Bool) where
  bids : BookSide ticks := {}
  asks : BookSide ticks := {}
  arena : SlabArena Order maxOrders generations
  idx : IdIndex := .new maxOrders

namespace Book

variable {ticks maxOrders : ℕ} {generations : Bool}

/-- A new book over the memory the arena is given. -/
def new (storage : ℕ → Cell Order) (gens : ℕ → UInt32) : Book ticks maxOrders generations :=
  { arena := .new storage gens }

def side (b : Book ticks maxOrders generations) : Side → BookSide ticks
  | .bid => b.bids
  | .ask => b.asks

def setSide (b : Book ticks maxOrders generations) (s : Side) (bs : BookSide ticks) :
    Book ticks maxOrders generations :=
  match s with
  | .bid => { b with bids := bs }
  | .ask => { b with asks := bs }

variable (b : Book ticks maxOrders generations) (s : Side) (bs : BookSide ticks)

@[simp] theorem side_setSide : (b.setSide s bs).side s = bs := by
  cases s <;> rfl

theorem side_setSide_of_ne {s t : Side} (h : t ≠ s) : (b.setSide s bs).side t = b.side t := by
  cases s <;> cases t <;> first | rfl | exact absurd rfl h

@[simp] theorem setSide_arena : (b.setSide s bs).arena = b.arena := by
  cases s <;> rfl

@[simp] theorem setSide_idx : (b.setSide s bs).idx = b.idx := by
  cases s <;> rfl

end Book
end Orderbooks
