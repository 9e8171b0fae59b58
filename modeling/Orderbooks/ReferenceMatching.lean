import Orderbooks.MatchingLoop
import Orderbooks.ReferenceBook
import Orderbooks.TopStream

/-!
# The reference engine's matching refines the sweep

`Represents r b` relates a reference engine to the machine it implements, as the
relation of the same name does for the engine. What differs is the dirty flag of
the top of the book: the reference engine raises it at every mutation, where the
machine asks first whether the top can be affected.
-/
namespace Orderbooks
open Loop Queues

/-! ## What is compared -/

/-- Events by kind, as the tests record them. -/
structure Streams where
  fills : List FillMsg
  tops : List TopMsg
  trades : List TradeMsg
  selfTrades : List SelfTradeMsg
  rejects : List RejectMsg
  deriving DecidableEq

/-- Put one event behind the others of its kind. -/
def Streams.push (t : Streams) : Event → Streams
  | .fill m => { t with fills := t.fills ++ [m] }
  | .top m => { t with tops := t.tops ++ [m] }
  | .trade m => { t with trades := t.trades ++ [m] }
  | .selfTrade m => { t with selfTrades := t.selfTrades ++ [m] }
  | .reject m => { t with rejects := t.rejects ++ [m] }

/-- What a log of events looks like by kind. -/
def Streams.of (log : List Event) : Streams := log.foldl Streams.push ⟨[], [], [], [], []⟩

theorem Streams.of_append (log : List Event) (ev : Event) :
    Streams.of (log ++ [ev]) = (Streams.of log).push ev := by
  simp [Streams.of]

/-- What the two engines keep besides their books. -/
structure Control where
  streams : Streams
  selfCross : SelfCrossPolicy
  topThrottle : Bool
  capacity : ℕ
  seq : UInt64
  suppressTopDepth : ℕ
  haveTop : Bool
  last : Top

def ReferenceEngine.streams (r : ReferenceEngine) : Streams :=
  ⟨r.fills, r.tops, r.trades, r.selfTrades, r.rejects⟩

def ReferenceEngine.control (r : ReferenceEngine) : Control :=
  ⟨r.streams, r.cfg.selfCross, r.cfg.topThrottle, r.maxOrders, r.seq, r.suppressTopDepth,
    r.haveTop, ⟨r.lastBidPx, r.lastAskPx, r.lastBidQty, r.lastAskQty⟩⟩

def PriorityBook.control {ticks : ℕ} (b : PriorityBook ticks) : Control :=
  ⟨.of b.log, b.selfCross, b.topThrottle, b.capacity, b.state.seq, b.state.suppressTopDepth,
    b.state.haveTop, b.state.last⟩

namespace ReferenceEngine

variable {ticks : ℕ} {r r' : ReferenceEngine} {b : PriorityBook ticks} {tag : ℕ → ℕ}
  {pop Q : Side → Set ℕ} {s : Side} {p x : ℕ} {xs : List ℕ} {m : SubmitMsg}

structure Represents (r : ReferenceEngine) (b : PriorityBook ticks) (tag : ℕ → ℕ)
    (pop : Side → Set ℕ) : Prop where
  control : r.control = b.control
  dirty : b.state.topDirty = true → r.topDirty = true
  guarded : r.topDirty = true →
    b.state.topDirty = true ∨ b.topThrottle = true ∧ b.state.haveTop = true
  book : r.Stores b.queues tag pop

namespace Represents

section Parts

variable (h : r.Represents b tag pop)
include h

theorem selfCross : r.cfg.selfCross = b.selfCross := congrArg Control.selfCross h.control

theorem topThrottle : r.cfg.topThrottle = b.topThrottle := congrArg Control.topThrottle h.control

theorem capacity : r.maxOrders = b.capacity := congrArg Control.capacity h.control

theorem seq : r.seq = b.state.seq := congrArg Control.seq h.control

theorem held : r.suppressTopDepth = b.state.suppressTopDepth :=
  congrArg Control.suppressTopDepth h.control

theorem node_eq (hx : r.Held x) : r.nodes x = b.order (tag x) := h.book.node x hx

/-- A change of the book, and of nothing else. -/
theorem withBook {f : Queues ticks → Queues ticks} {tag' : ℕ → ℕ} (hc : r'.control = r.control)
    (hdirty : r'.topDirty = r.topDirty) (hb : r'.Stores (f b.queues) tag' Q) :
    r'.Represents (b.onQueues f) tag' Q :=
  ⟨hc.trans h.control, fun hd => hdirty ▸ h.dirty hd, fun hd => h.guarded (hdirty ▸ hd), hb⟩

theorem raise : r.dirty.Represents b.dirty tag pop :=
  ⟨h.control, fun _ => rfl, fun _ => .inl rfl, h.book.relist (fun _ _ => rfl) h.book.listed rfl
    rfl rfl⟩

/-- The reference marks what the machine may leave unmarked because it is guarded. -/
theorem mark (t : Side) (px : ℕ) : r.dirty.Represents (b.markTop t px) tag pop := by
  have hframe := HotState.markTop_frame b.topThrottle b.state t px
  refine ⟨?_, fun _ => rfl, fun _ => ?_, h.raise.book⟩
  · refine h.control.trans ?_
    unfold PriorityBook.control PriorityBook.markTop
    rw [hframe]
    rfl
  · cases hd : (b.markTop t px).state.topDirty with
    | true => exact .inl rfl
    | false =>
        obtain ⟨heq, hth, hg⟩ := HotState.markTop_clean hd
        refine .inr ⟨hth, ?_⟩
        unfold PriorityBook.markTop
        rw [heq]
        unfold HotState.affectsTop at hg
        split_ifs at hg with hhave
        simpa using hhave

theorem hold : ({ r with suppressTopDepth := r.suppressTopDepth + 1 } :
    ReferenceEngine).Represents b.suppress tag pop := by
  refine ⟨?_, h.dirty, h.guarded, h.book.relist (fun _ _ => rfl) h.book.listed rfl rfl rfl⟩
  have hc := h.control
  unfold ReferenceEngine.control PriorityBook.control at hc ⊢
  simp only [Control.mk.injEq, PriorityBook.suppress] at hc ⊢
  exact ⟨hc.1, hc.2.1, hc.2.2.1, hc.2.2.2.1, hc.2.2.2.2.1, by rw [hc.2.2.2.2.2.1],
    hc.2.2.2.2.2.2⟩

theorem release : ({ r with suppressTopDepth := r.suppressTopDepth - 1 } :
    ReferenceEngine).Represents b.unsuppress tag pop := by
  refine ⟨?_, h.dirty, h.guarded, h.book.relist (fun _ _ => rfl) h.book.listed rfl rfl rfl⟩
  have hc := h.control
  unfold ReferenceEngine.control PriorityBook.control at hc ⊢
  simp only [Control.mk.injEq, PriorityBook.unsuppress] at hc ⊢
  exact ⟨hc.1, hc.2.1, hc.2.2.1, hc.2.2.2.1, hc.2.2.2.2.1, by rw [hc.2.2.2.2.2.1],
    hc.2.2.2.2.2.2⟩

/-- One event more, with the stamp before it. -/
theorem publish (hc : r'.control = { r.control with
      streams := r'.streams
      seq := r.seq + 1 })
    (hdirty : r'.topDirty = r.topDirty) (hb : r'.Stores b.queues tag pop) {log : List Event}
    (hlog : r'.streams = .of log) :
    r'.Represents { b.bumpSeq with log := log } tag pop := by
  refine ⟨?_, fun hd => hdirty ▸ h.dirty hd, fun hd => h.guarded (hdirty ▸ hd), hb⟩
  rw [hc, h.control, hlog, h.seq]
  rfl

end Parts

/-! ## The top of the book -/

theorem best_eq (h : r.Represents b tag b.queues.populated) (hd : b.queues.WellFormed)
    (s : Side) : r.best s = b.queues.best s :=
  (h.book.isBest s).unique (hd.isBest_best s)

theorem publishTop_clean (hc : r.topDirty = false) : r.publishTop = r := by
  unfold publishTop
  rw [if_pos (by simp [hc])]

theorem publishTop_held (hs : r.suppressTopDepth ≠ 0) : r.publishTop = r := by
  unfold publishTop
  split_ifs <;> rfl

/-- The top of the book as the reference engine reads it. -/
theorem publishTop_due (hdirty : r.topDirty = true) (hs : r.suppressTopDepth = 0) {top : Top}
    (htop : Top.of r.best r.aggregate = top) :
    r.publishTop =
      if r.cfg.topThrottle ∧ r.haveTop ∧
          top = ⟨r.lastBidPx, r.lastAskPx, r.lastBidQty, r.lastAskQty⟩ then
        { r with topDirty := false }
      else
        { r with
          topDirty := false
          seq := r.seq + 1
          tops := r.tops ++ [⟨top.bidPx, top.askPx, top.bidQty, top.askQty, r.seq + 1⟩]
          lastBidPx := top.bidPx
          lastAskPx := top.askPx
          lastBidQty := top.bidQty
          lastAskQty := top.askQty
          haveTop := true } := by
  unfold publishTop
  rw [if_neg (by simp [hdirty]), if_neg (by simp [hs]), ← htop]
  refine if_congr ?_ rfl rfl
  rw [Top.of, Top.mk.injEq]
  rfl

/-- Both publish the top, or neither does. -/
theorem publishTop (h : r.Represents b tag b.queues.populated) (hd : b.queues.WellFormed)
    (hacc : b.state.topDirty = false → Accurate b.state b.queues) :
    r.publishTop.Represents b.publishTopIfChanged tag b.queues.populated := by
  cases hr : r.topDirty with
  | false =>
      have hb : b.state.topDirty = false := by
        by_contra hb
        simp [h.dirty (by simpa using hb)] at hr
      rw [publishTop_clean hr, PriorityBook.publishTopIfChanged_clean hb]
      exact h
  | true =>
  by_cases hs : b.state.suppressTopDepth = 0
  swap
  · rw [publishTop_held (h.held ▸ hs), PriorityBook.publishTopIfChanged_held hs]
    exact h
  have htop : Top.of r.best r.aggregate = b.queues.top := by
    unfold Queues.top
    rw [funext fun t => h.best_eq hd t, funext fun t => funext fun q => h.book.aggregate_eq t q]
  have hcond : (r.cfg.topThrottle ∧ r.haveTop ∧
      b.queues.top = ⟨r.lastBidPx, r.lastAskPx, r.lastBidQty, r.lastAskQty⟩) ↔
      (b.topThrottle ∧ b.state.haveTop ∧ b.queues.top = b.state.last) := by
    have hhave : r.haveTop = b.state.haveTop := congrArg Control.haveTop h.control
    have hlast : (⟨r.lastBidPx, r.lastAskPx, r.lastBidQty, r.lastAskQty⟩ : Top) = b.state.last :=
      congrArg Control.last h.control
    rw [h.topThrottle, hhave, hlast]
  have hstores : ∀ r' : ReferenceEngine, r'.books = r.books → r'.nodes = r.nodes →
      r'.nextNode = r.nextNode → r'.idx = r.idx → r'.Stores b.queues tag b.queues.populated :=
    fun r' hbooks hnodes hnext hidx => by
      refine h.book.relist (fun s p => ?_) (fun s p => ?_) hnodes hnext hidx
      · unfold fifo
        rw [hbooks]
      · rw [hbooks]
        exact h.book.listed s p
  rw [publishTop_due hr (h.held.trans hs) htop, if_congr hcond rfl rfl]
  cases hb : b.state.topDirty with
  | true =>
      rw [PriorityBook.publishTopIfChanged_due hb hs]
      split_ifs with hsame
      · refine ⟨h.control, fun hd => ?_, fun hd => ?_, hstores _ rfl rfl rfl rfl⟩
        · simp [HotState.seen] at hd
        · simp at hd
      · refine ⟨?_, fun hd => ?_, fun hd => ?_, hstores _ rfl rfl rfl rfl⟩
        · have hc := h.control
          have hstreams : r.streams = .of b.log := congrArg Control.streams h.control
          unfold ReferenceEngine.control PriorityBook.control at hc ⊢
          simp only [Control.mk.injEq] at hc ⊢
          refine ⟨?_, hc.2.1, hc.2.2.1, hc.2.2.2.1, ?_, hc.2.2.2.2.2.1, rfl, rfl⟩
          · rw [Streams.of_append, ← hstreams, ← h.seq]
            rfl
          · change r.seq + 1 = b.state.seq + 1
            rw [h.seq]
        · simp [HotState.shown, HotState.seen] at hd
        · simp at hd
  | false =>
      -- nothing was marked, so the top is the one published last
      obtain ⟨hth, hht⟩ := (h.guarded hr).resolve_left (by simp [hb])
      rw [PriorityBook.publishTopIfChanged_clean hb,
        if_pos ⟨hth, hht, (hacc hb).last.symm⟩]
      refine ⟨h.control, fun hd => ?_, fun hd => ?_, hstores _ rfl rfl rfl rfl⟩
      · simp [hb] at hd
      · simp at hd

/-! ## Matching -/

theorem announce_fill (h : r.Represents b tag pop) (hx : r.Held x)
    (hown : ¬b.isOwn m (tag x)) (px : ℕ) (qty : UInt64) :
    ({ r with
      seq := r.seq + 1
      fills := r.fills ++ [⟨(r.nodes x).id, m.id, px, qty, r.seq + 1⟩]
      trades := r.trades ++ [⟨px, qty, r.seq + 1⟩] } : ReferenceEngine).Represents
      (b.announce m (tag x) px qty) tag pop := by
  have hlog : b.announce m (tag x) px qty = { b.bumpSeq with
      log := (b.log ++ [.fill ⟨(b.order (tag x)).id, m.id, px, qty, b.state.seq + 1⟩]) ++
        [.trade ⟨px, qty, b.state.seq + 1⟩] } := by
    unfold PriorityBook.announce
    exact if_neg hown
  rw [hlog]
  apply h.publish
  · rfl
  · rfl
  · exact h.book.relist (fun _ _ => rfl) h.book.listed rfl rfl rfl
  have hstreams : r.streams = .of b.log := congrArg Control.streams h.control
  rw [Streams.of_append, Streams.of_append, ← hstreams, ← h.node_eq hx, ← h.seq]
  rfl

theorem announce_selfTrade (h : r.Represents b tag pop) (hx : r.Held x)
    (hown : b.isOwn m (tag x)) (px : ℕ) (qty : UInt64) :
    ({ r with
      seq := r.seq + 1
      selfTrades := r.selfTrades ++
        [⟨m.id, (r.nodes x).id, m.accountId, px, qty, r.seq + 1⟩] } : ReferenceEngine).Represents
      (b.announce m (tag x) px qty) tag pop := by
  have hlog : b.announce m (tag x) px qty = { b.bumpSeq with
      log := b.log ++ [.selfTrade
        ⟨m.id, (b.order (tag x)).id, m.accountId, px, qty, b.state.seq + 1⟩] } := by
    unfold PriorityBook.announce
    exact if_pos hown
  rw [hlog]
  apply h.publish
  · rfl
  · rfl
  · exact h.book.relist (fun _ _ => rfl) h.book.listed rfl rfl rfl
  have hstreams : r.streams = .of b.log := congrArg Control.streams h.control
  rw [Streams.of_append, ← hstreams, ← h.node_eq hx, ← h.seq]
  rfl

/-- A node leaves its FIFO; the price stays listed. -/
theorem eraseNode (h : r.Represents b tag pop) (hd : b.queues.WellFormed)
    (hmem : x ∈ r.fifo s p) {f : List ℕ → List ℕ} (hf : f (r.fifo s p) = (r.fifo s p).erase x) :
    ((r.setIdx (r.idx.erase (r.nodes x).id)).onFifo s p f).Represents (b.drop (tag x)) tag
      pop := by
  refine h.withBook rfl rfl (h.book.drop hd ⟨s, p, hmem⟩ (fun t q => ?_) (fun t q => ?_)
    rfl rfl rfl)
  · rw [onFifo_fifo]
    split_ifs with htq
    · rw [htq.1, htq.2]
      exact hf
    · refine (List.erase_of_not_mem fun hx => htq ?_).symm
      obtain ⟨hs, hp⟩ := h.book.place hd hmem
      obtain ⟨ht, hq⟩ := h.book.place hd hx
      exact ⟨ht.symm.trans hs, hq.symm.trans hp⟩
  · rw [onFifo_find?]
    split_ifs with htq
    · rw [htq.1, htq.2, ← h.book.listed]
      have hsome : (r.books s).find? p ≠ none := fun hnone => by simp [fifo, hnone] at hmem
      simpa [Option.isSome_iff_ne_none] using hsome
    · exact h.book.listed t q

theorem popFront (h : r.Represents b tag pop) (hd : b.queues.WellFormed)
    (hq : r.fifo s p = x :: xs) : (r.popFront s p x).Represents (b.drop (tag x)) tag pop :=
  h.eraseNode hd (by simp [hq]) (by rw [hq, List.tail_cons, List.erase_cons_head])

theorem decrementMaker (h : r.Represents b tag pop) (hd : b.queues.WellFormed)
    (hq : r.fifo s p = x :: xs) (qty : UInt64) :
    (r.decrementMaker s p x qty).Represents
      (if (b.order (tag x)).remaining - qty = 0 then (b.decrement (tag x) qty).drop (tag x)
        else b.decrement (tag x) qty) tag pop := by
  have hx : r.Held x := ⟨s, p, by simp [hq]⟩
  have hnode := h.node_eq hx
  have hdec : ((r.setNode x { r.nodes x with remaining := (r.nodes x).remaining - qty }).dirty
      ).Represents (b.decrement (tag x) qty) tag pop := by
    have hset : (r.setNode x { r.nodes x with remaining := (r.nodes x).remaining - qty }
        ).Represents (b.onQueues (·.setRemaining (tag x) ((r.nodes x).remaining - qty))) tag pop :=
      h.withBook rfl rfl (h.book.setRemaining hx rfl _)
    unfold PriorityBook.decrement
    rw [← hnode]
    exact hset.raise
  unfold ReferenceEngine.decrementMaker
  rw [← hnode]
  dsimp only
  split_ifs
  · exact hdec.popFront (hd.setRemaining _ _) hq
  · exact hdec

/-- A maker of the aggressor's own account. -/
theorem dispatchSelfCross (h : r.Represents b tag pop) (hd : b.queues.WellFormed)
    (hq : r.fifo m.s.opposite p = x :: xs) (hown : b.isOwn m (tag x)) (rem : UInt64) :
    (ReferenceEngine.dispatchSelfCross ⟨r, rem, false⟩ m x p).1 =
        (PriorityBook.strike m p (tag x) b rem).aborted ∧
      (ReferenceEngine.dispatchSelfCross ⟨r, rem, false⟩ m x p).2.remaining =
        (PriorityBook.strike m p (tag x) b rem).remaining ∧
      (ReferenceEngine.dispatchSelfCross ⟨r, rem, false⟩ m x p).2.aborted = false ∧
      (ReferenceEngine.dispatchSelfCross ⟨r, rem, false⟩ m x p).2.engine.Represents
        (PriorityBook.strike m p (tag x) b rem).book tag pop := by
  have hx : r.Held x := ⟨_, p, by rw [hq]; exact List.mem_cons_self⟩
  have hnode := h.node_eq hx
  unfold ReferenceEngine.dispatchSelfCross PriorityBook.strike
  simp only [hown, true_and, h.selfCross]
  cases hpol : b.selfCross with
  | cancelNewest => exact ⟨rfl, rfl, rfl, h⟩
  | cancelOldest => exact ⟨rfl, rfl, rfl, (h.popFront hd hq).raise⟩
  | decrementTrade =>
      simp only [reduceCtorEq, if_false, hnode]
      refine ⟨trivial, trivial, trivial, ?_⟩
      generalize min rem (b.order (tag x)).remaining = qty
      have hann := h.announce_selfTrade hx hown p qty
      have hwf : (b.announce m (tag x) p qty).queues.WellFormed := by
        rwa [PriorityBook.announce_queues]
      rw [hnode] at hann
      simpa [PriorityBook.order] using hann.decrementMaker hwf hq qty

/-- A maker of another account. -/
theorem fillMaker (h : r.Represents b tag pop) (hd : b.queues.WellFormed)
    (hq : r.fifo m.s.opposite p = x :: xs) (hown : ¬b.isOwn m (tag x)) (rem : UInt64) :
    (PriorityBook.strike m p (tag x) b rem).aborted = false ∧
      (ReferenceEngine.fillMaker ⟨r, rem, false⟩ m x p).remaining =
        (PriorityBook.strike m p (tag x) b rem).remaining ∧
      (ReferenceEngine.fillMaker ⟨r, rem, false⟩ m x p).aborted = false ∧
      (ReferenceEngine.fillMaker ⟨r, rem, false⟩ m x p).engine.Represents
        (PriorityBook.strike m p (tag x) b rem).book tag pop := by
  have hx : r.Held x := ⟨_, p, by rw [hq]; exact List.mem_cons_self⟩
  have hnode := h.node_eq hx
  unfold ReferenceEngine.fillMaker PriorityBook.strike
  simp only [hown, false_and, if_false, hnode]
  refine ⟨trivial, trivial, trivial, ?_⟩
  generalize min rem (b.order (tag x)).remaining = qty
  have hann := h.announce_fill hx hown p qty
  have hwf : (b.announce m (tag x) p qty).queues.WellFormed := by
    rwa [PriorityBook.announce_queues]
  rw [hnode] at hann
  simpa [PriorityBook.order] using hann.decrementMaker hwf hq qty

/-- A level given up. -/
theorem dropIfEmpty (h : r.Represents b tag pop) {opp : Side}
    (hlisted : ∀ t, pop t = if t = opp then insert p (b.queues.populated t)
      else b.queues.populated t) :
    (r.dropIfEmpty opp p).Represents b tag b.queues.populated := by
  have hparts : (r.dropIfEmpty opp p).control = r.control ∧
      (r.dropIfEmpty opp p).topDirty = r.topDirty ∧ (r.dropIfEmpty opp p).nodes = r.nodes ∧
      (r.dropIfEmpty opp p).nextNode = r.nextNode ∧ (r.dropIfEmpty opp p).idx = r.idx := by
    unfold ReferenceEngine.dropIfEmpty
    split_ifs <;> exact ⟨rfl, rfl, rfl, rfl, rfl⟩
  obtain ⟨hc, hdirty, hnodes, hnext, hidx⟩ := hparts
  refine h.withBook (f := id) hc hdirty
    (h.book.relist (fun t q => dropIfEmpty_fifo t q) (fun t q => ?_) hnodes hnext hidx)
  have hnil := h.book.eq_nil_iff opp p
  rw [dropIfEmpty_find?]
  split_ifs with hempty
  · obtain ⟨rfl, rfl, hfifo⟩ := hempty
    simp [Queues.populated, hnil.mpr hfifo]
  · rw [h.book.listed, hlisted]
    split_ifs with ht
    · rw [Set.mem_insert_iff, or_iff_right_of_imp]
      rintro rfl
      exact fun hq => hempty ⟨ht, rfl, hnil.mp (ht ▸ hq)⟩
    · rfl

theorem live_pos (h : r.Represents b tag pop) (hd : b.queues.WellFormed)
    (hne : b.queues.levels s p ≠ []) : 0 < b.queues.live := by
  rw [ne_eq, h.book.eq_nil_iff] at hne
  obtain ⟨x, hx⟩ := List.exists_mem_of_ne_nil _ hne
  rw [← h.book.sized]
  refine List.length_pos_of_mem (a := (r.nodes x).id) ?_
  rw [← AList.mem_keys, ← AList.lookup_isSome, h.book.lookup_id hd ⟨s, p, hx⟩]
  rfl

/-- What the machine does to the maker at the front, a turn of the inner loop does. -/
theorem makerTurn {c : Matching} (h : c.engine.Represents b tag pop) (hd : b.queues.WellFormed)
    (hrun : c.aborted = false) (hrem : c.remaining ≠ 0) {u : ℕ} {q : List ℕ}
    (hq : b.queues.levels m.s.opposite p = u :: q) :
    ∃ c', ReferenceEngine.makerTurn m p c =
        (if (PriorityBook.strike m p u b c.remaining).aborted then .done c' else .again c') ∧
      c'.remaining = (PriorityBook.strike m p u b c.remaining).remaining ∧
      c'.aborted = (PriorityBook.strike m p u b c.remaining).aborted ∧
      c'.engine.Represents (PriorityBook.strike m p u b c.remaining).book tag pop := by
  obtain ⟨r, rem, ab⟩ := c
  obtain rfl : ab = false := hrun
  dsimp only at h hrem ⊢
  rw [h.book.level, List.map_eq_cons_iff] at hq
  obtain ⟨x, xs, hf, rfl, rfl⟩ := hq
  have hx : r.Held x := ⟨_, p, by rw [hf]; exact List.mem_cons_self⟩
  have hnode := h.node_eq hx
  unfold ReferenceEngine.makerTurn
  dsimp only
  rw [if_neg hrem, hf]
  dsimp only
  by_cases hown : b.isOwn m (tag x)
  · obtain ⟨hab, hr, hnot, hrep⟩ := h.dispatchSelfCross hd hf hown rem
    rw [if_pos (by rw [hnode]; exact hown), ← hab, ← hr]
    generalize ReferenceEngine.dispatchSelfCross ⟨r, rem, false⟩ m x p = t at hab hr hnot hrep ⊢
    obtain ⟨abort, c'⟩ := t
    dsimp only at hab hr hnot hrep ⊢
    cases abort with
    | true =>
        refine ⟨_, rfl, rfl, rfl, ?_⟩
        -- the maker stays, so its level does
        have hbook := PriorityBook.strike_book_of_aborted hab.symm
        have hsame : c'.engine.dropIfEmpty m.s.opposite p = c'.engine := by
          rw [hbook] at hrep
          unfold ReferenceEngine.dropIfEmpty
          rw [if_neg]
          rw [← hrep.book.eq_nil_iff, h.book.level, hf]
          simp
        rw [hsame]
        exact hrep
    | false => exact ⟨c', rfl, rfl, hnot, hrep⟩
  · obtain ⟨hab, hr, hnot, hrep⟩ := h.fillMaker hd hf hown rem
    rw [if_neg (by rw [hnode]; exact hown), hab]
    exact ⟨_, rfl, hr, hnot, hrep⟩

end Represents

/-- The matching loops of the reference engine. -/
def matchLoop (m : SubmitMsg) : MatchLoop m Matching where
  remaining := Matching.remaining
  aborted := Matching.aborted
  best c := c.engine.best m.s.opposite
  makers p c := (c.engine.fifo m.s.opposite p).length
  live c := c.engine.idx.keys.length
  makerTurn := makerTurn m
  leave p c := { c with engine := c.engine.dropIfEmpty m.s.opposite p }

theorem matchOpposite_eq (m : SubmitMsg) (r : ReferenceEngine) :
    matchOpposite m r = (matchLoop m).levelLoop ⟨r, m.qty, false⟩ := rfl

theorem matchLoop_simulates (ticks : ℕ) (m : SubmitMsg) (tag : ℕ → ℕ) :
    (matchLoop m).Simulates
      fun c (b : PriorityBook ticks) pop => c.engine.Represents b tag pop where
  best h hd := h.best_eq hd m.s.opposite
  makers p h := by
    rw [h.book.level, List.length_map]
    rfl
  live h := h.book.sized
  live_pos h hd hne := h.live_pos hd hne
  halt {c b pop p} h hend := by
    change makerTurn m p c = _
    unfold makerTurn
    by_cases hz : c.remaining = 0
    · exact if_pos hz
    · have hnil := hend.resolve_right hz
      rw [if_neg hz, (h.book.eq_nil_iff _ _).mp hnil]
  meet h hd hrun hrem hq := h.makerTurn hd hrun hrem hq
  leave h hlisted := ⟨h.dropIfEmpty hlisted, rfl, rfl⟩

namespace Represents

/-- Matching against the opposite side is the machine's sweep. -/
theorem matchOpposite (h : r.Represents b tag b.queues.populated) (hd : b.queues.WellFormed) :
    (matchLoop m).Settled (fun c b pop => c.engine.Represents b tag pop)
      (PriorityBook.sweep m b m.qty) (fun _ _ => True) (ReferenceEngine.matchOpposite m r) :=
  have hsweep : (matchLoop m).Sweeping (fun c b pop => c.engine.Represents b tag pop)
      (PriorityBook.sweep m b m.qty) (fun _ _ => True) b ⟨r, m.qty, false⟩ :=
    ⟨h, hd, trivial, rfl, rfl⟩
  hsweep.levelLoop (matchLoop_simulates ticks m tag) fun _ _ _ _ _ _ _ _ _ _ _ => trivial

end Represents
end ReferenceEngine
end Orderbooks
