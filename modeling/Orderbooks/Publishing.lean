import Orderbooks.Engine

/-!
# Publishers

The engine only hands events to its publisher and never reads it back. So engines with
different publishers run alike: what reaches any publisher, in which order, is what an
engine with a recording publisher writes down. Nor does a command change the configuration.
-/
namespace Orderbooks
open Loop

namespace Engine

variable {P Q : Type} {ticks maxOrders : ℕ} {lookup : OrderLookup}

/-- The same engine in front of another publisher. -/
def mapPub (φ : P → Q) (e : Engine P ticks maxOrders lookup) : Engine Q ticks maxOrders lookup :=
  ⟨φ e.pub, e.cfg, e.book, e.state⟩

def Matching.mapPub (φ : P → Q) (c : Matching P ticks maxOrders lookup) :
    Matching Q ticks maxOrders lookup :=
  ⟨c.engine.mapPub φ, c.remaining, c.aborted⟩

/-! ## Steps that publish nothing -/

section
variable (φ : P → Q) (e : Engine P ticks maxOrders lookup)

@[simp] theorem mapPub_cfg : (e.mapPub φ).cfg = e.cfg := rfl

@[simp] theorem mapPub_book : (e.mapPub φ).book = e.book := rfl

@[simp] theorem mapPub_state : (e.mapPub φ).state = e.state := rfl

@[simp] theorem mapPub_pub : (e.mapPub φ).pub = φ e.pub := rfl

@[simp] theorem side_mapPub (s : Side) : (e.mapPub φ).side s = e.side s := rfl

@[simp] theorem order_mapPub (p : ℕ) : (e.mapPub φ).order p = e.order p := rfl

@[simp] theorem setSide_mapPub (s : Side) (bs : BookSide ticks) :
    (e.mapPub φ).setSide s bs = (e.setSide s bs).mapPub φ := rfl

@[simp] theorem setArena_mapPub (a : SlabArena Order maxOrders (decide (lookup = .byHandle))) :
    (e.mapPub φ).setArena a = (e.setArena a).mapPub φ := rfl

@[simp] theorem setIdx_mapPub (x : IdIndex) :
    (e.mapPub φ).setIdx x = (e.setIdx x).mapPub φ := rfl

@[simp] theorem setOrder_mapPub (p : ℕ) (o : Order) :
    (e.mapPub φ).setOrder p o = (e.setOrder p o).mapPub φ := rfl

@[simp] theorem bumpSeq_mapPub : (e.mapPub φ).bumpSeq = e.bumpSeq.mapPub φ := rfl

@[simp] theorem dirty_mapPub : (e.mapPub φ).dirty = e.dirty.mapPub φ := rfl

@[simp] theorem markTop_mapPub (s : Side) (px : ℕ) :
    (e.mapPub φ).markTop s px = (e.markTop s px).mapPub φ := rfl

@[simp] theorem suppress_mapPub : (e.mapPub φ).suppress = e.suppress.mapPub φ := rfl

@[simp] theorem unsuppress_mapPub : (e.mapPub φ).unsuppress = e.unsuppress.mapPub φ := rfl

@[simp] theorem unindex_mapPub (id : UInt64) :
    (e.mapPub φ).unindex id = (e.unindex id).mapPub φ := by
  unfold unindex
  split <;> rfl

@[simp] theorem dropFront_mapPub (s : Side) (px p : ℕ) :
    (e.mapPub φ).dropFront s px p = (e.dropFront s px p).mapPub φ := by
  simp [dropFront]

@[simp] theorem decrementMaker_mapPub (s : Side) (px p : ℕ) (qty : UInt64) :
    (e.mapPub φ).decrementMaker s px p qty = (e.decrementMaker s px p qty).mapPub φ := by
  simp only [decrementMaker, order_mapPub, setOrder_mapPub, side_mapPub, setSide_mapPub,
    dirty_mapPub, dropFront_mapPub]
  split <;> rfl

@[simp] theorem notifyIfEmptied_mapPub (s : Side) (px : ℕ) :
    (e.mapPub φ).notifyIfEmptied s px = (e.notifyIfEmptied s px).mapPub φ := by
  by_cases h : ((e.side s).levelAt px).empty <;> simp [notifyIfEmptied, h]

@[simp] theorem canFullyFill_mapPub (opp : Side) (px : ℕ) (want : UInt64) (acct : UInt32) :
    (e.mapPub φ).canFullyFill opp px want acct = e.canFullyFill opp px want acct := rfl

@[simp] theorem handleOf_mapPub (p : ℕ) : (e.mapPub φ).handleOf p = e.handleOf p := rfl

@[simp] theorem find_mapPub (id : UInt64) (h : OrderHandle) (unindex : Bool) :
    (e.mapPub φ).find id h unindex =
      ((e.find id h unindex).1, (e.find id h unindex).2.mapPub φ) := by
  simp only [find]
  split
  · rfl
  · split <;> rfl

@[simp] theorem rename_mapPub (p : ℕ) (newId : UInt64) :
    (e.mapPub φ).rename p newId = (e.rename p newId).mapPub φ := by
  simp only [rename, order_mapPub, setOrder_mapPub, mapPub_book, setIdx_mapPub]
  split <;> rfl

end

/-! ## Steps that publish -/

section
variable [Publisher P] [Publisher Q] {φ : P → Q}
  (hφ : ∀ p ev, φ (Publisher.publish p ev) = Publisher.publish (φ p) ev)
  (e : Engine P ticks maxOrders lookup) (c : Matching P ticks maxOrders lookup)
include hφ

theorem publish_mapPub (ev : Event) : (e.mapPub φ).publish ev = (e.publish ev).mapPub φ := by
  simp [publish, mapPub, hφ]

theorem publishTopIfChanged_mapPub :
    (e.mapPub φ).publishTopIfChanged = e.publishTopIfChanged.mapPub φ := by
  simp only [publishTopIfChanged, mapPub_state, mapPub_cfg, side_mapPub]
  split
  · rfl
  · simp only [publish, mapPub, hφ]

theorem handleSelfCross_mapPub (m : SubmitMsg) (p bestPx : ℕ) :
    handleSelfCross (c.mapPub φ) m p bestPx =
      ((handleSelfCross c m p bestPx).1, (handleSelfCross c m p bestPx).2.mapPub φ) := by
  simp only [handleSelfCross, Matching.mapPub, mapPub_cfg]
  cases c.engine.cfg.selfCross with
  | cancelNewest => rfl
  | cancelOldest => simp
  | decrementTrade => simp [publish_mapPub hφ]

theorem fillMaker_mapPub (m : SubmitMsg) (p bestPx : ℕ) :
    fillMaker (c.mapPub φ) m p bestPx = (fillMaker c m p bestPx).mapPub φ := by
  simp [fillMaker, Matching.mapPub, publish_mapPub hφ]

theorem makerTurn_mapPub (m : SubmitMsg) (bestPx : ℕ) :
    makerTurn m bestPx (c.mapPub φ) = (makerTurn m bestPx c).map (Matching.mapPub φ) := by
  simp only [makerTurn, handleSelfCross_mapPub hφ, fillMaker_mapPub hφ]
  simp only [Matching.mapPub, side_mapPub, order_mapPub]
  cases ((c.engine.side m.s.opposite).levelAt bestPx).fifo with
  | nil => rfl
  | cons p ps =>
      by_cases hrem : c.remaining = 0
      · simp [hrem, Turn.map, Matching.mapPub]
      by_cases hown : m.accountId ≠ 0 ∧ (c.engine.order p).accountId = m.accountId
      · by_cases habort : (handleSelfCross c m p bestPx).1 <;>
          simp [hrem, hown, habort, Turn.map, Matching.mapPub]
      · simp [hrem, if_neg hown, Turn.map, Matching.mapPub]

theorem makerLoop_mapPub (m : SubmitMsg) (bestPx : ℕ) :
    makerLoop m bestPx (c.mapPub φ) = (makerLoop m bestPx c).mapPub φ :=
  run_map (fun c => makerTurn_mapPub hφ c m bestPx) _ _

theorem levelTurn_mapPub (m : SubmitMsg) :
    levelTurn m (c.mapPub φ) = (levelTurn m c).map (Matching.mapPub φ) := by
  simp only [levelTurn, makerLoop_mapPub hφ]
  simp only [Matching.mapPub, side_mapPub]
  by_cases hrem : c.remaining = 0
  · simp [hrem, Turn.map, Matching.mapPub]
  cases (c.engine.side m.s.opposite).best with
  | none => simp [hrem, Turn.map, Matching.mapPub]
  | some bestPx =>
      by_cases hcross : m.s.crosses m.px bestPx <;>
        by_cases habort : (makerLoop m bestPx c).aborted <;>
          simp [hrem, hcross, habort, Turn.map, Matching.mapPub]

theorem matchAgainstOpposite_mapPub (m : SubmitMsg) :
    matchAgainstOpposite m (e.mapPub φ) = (matchAgainstOpposite m e).mapPub φ :=
  run_map (fun c => levelTurn_mapPub hφ c m) _ (⟨e, m.qty, false⟩ : Matching P _ _ _)

theorem rest_mapPub (m : SubmitMsg) (remaining : UInt64) :
    (e.mapPub φ).rest m remaining = ((e.rest m remaining).1, (e.rest m remaining).2.mapPub φ) := by
  simp only [rest, mapPub_book]
  split
  · simp [publish_mapPub hφ]
  · simp only [setArena_mapPub, mapPub_book, side_mapPub, setSide_mapPub, markTop_mapPub,
      handleOf_mapPub, setIdx_mapPub]
    split <;> rfl

theorem onSubmit_mapPub (m : SubmitMsg) :
    (e.mapPub φ).onSubmit m = ((e.onSubmit m).1, (e.onSubmit m).2.mapPub φ) := by
  have hsubmit : (e.mapPub φ).handleSubmit m =
      ((e.handleSubmit m).1, (e.handleSubmit m).2.mapPub φ) := by
    simp only [handleSubmit, canFullyFill_mapPub, matchAgainstOpposite_mapPub hφ]
    simp only [Matching.mapPub]
    by_cases hkill : m.t = .fok ∧ !e.canFullyFill m.s.opposite m.px m.qty m.accountId
    · simp only [if_pos hkill]
    by_cases hrem : (matchAgainstOpposite m e).remaining = 0
    · simp only [if_neg hkill, hrem, ↓reduceIte]
    · simp only [if_neg hkill, hrem, ↓reduceIte]
      cases m.t with
      | ioc => rfl
      | fok => rfl
      | gtc => exact rest_mapPub hφ _ m _
  simp only [onSubmit, hsubmit, publishTopIfChanged_mapPub hφ]

theorem onCancel_mapPub (m : CancelMsg) : (e.mapPub φ).onCancel m = (e.onCancel m).mapPub φ := by
  simp only [onCancel, find_mapPub]
  obtain ⟨p, e'⟩ := e.find m.id m.handle true
  cases p with
  | none => rfl
  | some p => simp [publishTopIfChanged_mapPub hφ]

theorem reprice_mapPub (p : ℕ) (m : ModifyMsg) :
    (e.mapPub φ).reprice p m = ((e.reprice p m).1, (e.reprice p m).2.mapPub φ) := by
  have htop := fun e : Engine P ticks maxOrders lookup => publishTopIfChanged_mapPub hφ e
  have hrelink : (e.mapPub φ).relink p m.newPx m.newQty =
      (e.relink p m.newPx m.newQty).mapPub φ := by
    simp [relink, htop]
  by_cases hpx : m.newPx = (e.order p).px
  · by_cases hqty : m.newQty = (e.order p).remaining
    · simp [reprice, hpx, hqty]
    · simp [reprice, hpx, hqty, requantify, htop]
  simp only [reprice, order_mapPub, side_mapPub, hpx, ↓reduceIte]
  cases (e.side (e.order p).s.opposite).best with
  | none => simp only [hrelink]
  | some b =>
      by_cases hcross : (e.order p).s.crosses m.newPx b
      · simp [hcross, resubmit, onCancel_mapPub hφ, onSubmit_mapPub hφ, htop]
      · simp [hcross, hrelink]

theorem onModify_mapPub (m : ModifyMsg) :
    (e.mapPub φ).onModify m = ((e.onModify m).1, (e.onModify m).2.mapPub φ) := by
  simp only [onModify, find_mapPub]
  obtain ⟨p, e'⟩ := e.find m.id m.handle m.renames
  cases p with
  | none => rfl
  | some p =>
      simp only [rename_mapPub]
      split_ifs <;> exact reprice_mapPub hφ _ p m

theorem apply_mapPub (cmd : Command) : (e.mapPub φ).apply cmd = (e.apply cmd).mapPub φ := by
  cases cmd with
  | submit m => exact congrArg Prod.snd (onSubmit_mapPub hφ e m)
  | cancel m => exact onCancel_mapPub hφ e m
  | modify m => exact congrArg Prod.snd (onModify_mapPub hφ e m)

theorem foldl_apply_mapPub (cmds : List Command) :
    cmds.foldl apply (e.mapPub φ) = (cmds.foldl apply e).mapPub φ := by
  induction cmds generalizing e with
  | nil => rfl
  | cons cmd cmds ih => rw [List.foldl_cons, apply_mapPub hφ, ih, List.foldl_cons]

end

/-! ## Recording -/

section
variable [Publisher P] (e : Engine P ticks maxOrders lookup)

/-- The engine in front of an empty log. -/
def recorder : Engine (List Event) ticks maxOrders lookup := e.mapPub fun _ => []

/-- A publisher is handed the log, event by event. -/
theorem foldl_apply_eq (cmds : List Command) :
    cmds.foldl apply e =
      (cmds.foldl apply e.recorder).mapPub fun log => log.foldl Publisher.publish e.pub := by
  have hfold : ∀ (log : List Event) ev, (Publisher.publish log ev).foldl Publisher.publish e.pub =
      Publisher.publish (log.foldl Publisher.publish e.pub) ev := by
    intro log ev
    rw [publish_list, List.foldl_append]
    rfl
  exact foldl_apply_mapPub hfold e.recorder cmds

theorem apply_eq (cmd : Command) :
    e.apply cmd =
      (e.recorder.apply cmd).mapPub fun log => log.foldl Publisher.publish e.pub :=
  foldl_apply_eq e [cmd]

/-- Apart from the publisher, nothing depends on the publisher. -/
theorem recorder_foldl_apply (cmds : List Command) :
    (cmds.foldl apply e).recorder = (cmds.foldl apply e.recorder).recorder := by
  rw [foldl_apply_eq]
  rfl

/-- A log is written on, whatever it holds. -/
theorem foldl_apply_log (e : Engine (List Event) ticks maxOrders lookup) (cmds : List Command) :
    (cmds.foldl apply e).pub = e.pub ++ (cmds.foldl apply e.recorder).pub := by
  rw [foldl_apply_eq, mapPub_pub, foldl_publish_list]

end

/-! ## The configuration -/

section
variable (e : Engine P ticks maxOrders lookup)

@[simp] theorem dropFront_cfg (s : Side) (px p : ℕ) : (e.dropFront s px p).cfg = e.cfg := by
  unfold dropFront unindex
  dsimp only
  split_ifs <;> rfl

@[simp] theorem decrementMaker_cfg (s : Side) (px p : ℕ) (qty : UInt64) :
    (e.decrementMaker s px p qty).cfg = e.cfg := by
  unfold decrementMaker
  dsimp only
  split_ifs
  · exact dropFront_cfg _ s px p
  · rfl

@[simp] theorem notifyIfEmptied_cfg (s : Side) (px : ℕ) :
    (e.notifyIfEmptied s px).cfg = e.cfg := by
  unfold notifyIfEmptied
  split_ifs <;> rfl

theorem find_cfg (id : UInt64) (h : OrderHandle) (unindex : Bool) :
    (e.find id h unindex).2.cfg = e.cfg := by
  unfold find
  split_ifs <;> rfl

variable [Publisher P]

@[simp] theorem publishTopIfChanged_cfg : e.publishTopIfChanged.cfg = e.cfg := by
  unfold publishTopIfChanged
  dsimp only
  split <;> rfl

theorem handleSelfCross_cfg (c : Matching P ticks maxOrders lookup) (m : SubmitMsg)
    (p bestPx : ℕ) : (handleSelfCross c m p bestPx).2.engine.cfg = c.engine.cfg := by
  unfold handleSelfCross
  dsimp only
  split
  · rfl
  · exact dropFront_cfg _ m.s.opposite bestPx p
  · exact decrementMaker_cfg _ m.s.opposite bestPx p _

theorem makerTurn_cfg (m : SubmitMsg) (bestPx : ℕ) (c : Matching P ticks maxOrders lookup) :
    (makerTurn m bestPx c).state.engine.cfg = c.engine.cfg := by
  unfold makerTurn
  split
  · rfl
  · split_ifs
    · rfl
    · dsimp only
      split_ifs
      · exact (notifyIfEmptied_cfg _ m.s.opposite bestPx).trans (handleSelfCross_cfg c m _ bestPx)
      · exact handleSelfCross_cfg c m _ bestPx
    · exact decrementMaker_cfg _ m.s.opposite bestPx _ _

theorem levelTurn_cfg (m : SubmitMsg) (c : Matching P ticks maxOrders lookup) :
    (levelTurn m c).state.engine.cfg = c.engine.cfg := by
  have hloop (bestPx : ℕ) : (makerLoop m bestPx c).engine.cfg = c.engine.cfg :=
    run_invariant (fun c' => c'.engine.cfg = c.engine.cfg)
      (fun c' h => (makerTurn_cfg m bestPx c').trans h) _ c rfl
  unfold levelTurn
  split_ifs
  · rfl
  · split
    · rfl
    · split_ifs
      · rfl
      · dsimp only
        split_ifs
        · exact hloop _
        · exact (notifyIfEmptied_cfg _ m.s.opposite _).trans (hloop _)

theorem onSubmit_cfg (m : SubmitMsg) : (e.onSubmit m).2.cfg = e.cfg := by
  have hmatch : (matchAgainstOpposite m e).engine.cfg = e.cfg :=
    run_invariant (fun c => c.engine.cfg = e.cfg) (fun c h => (levelTurn_cfg m c).trans h) _
      ⟨e, m.qty, false⟩ rfl
  have hrest (e : Engine P ticks maxOrders lookup) (remaining : UInt64) :
      (e.rest m remaining).2.cfg = e.cfg := by
    unfold rest
    split
    · rfl
    · dsimp only
      split_ifs <;> rfl
  have hsubmit : (e.handleSubmit m).2.cfg = e.cfg := by
    unfold handleSubmit
    split_ifs
    · rfl
    · dsimp only
      split_ifs
      · exact hmatch
      · split
        · exact hmatch
        · exact hmatch
        · exact (hrest _ _).trans hmatch
  exact (publishTopIfChanged_cfg _).trans hsubmit

theorem onCancel_cfg (m : CancelMsg) : (e.onCancel m).cfg = e.cfg := by
  have hfind := find_cfg e m.id m.handle true
  unfold onCancel
  split
  next heq => rwa [heq] at hfind
  next heq =>
    rw [heq] at hfind
    exact (publishTopIfChanged_cfg _).trans hfind

theorem onModify_cfg (m : ModifyMsg) : (e.onModify m).2.cfg = e.cfg := by
  have hreprice (e : Engine P ticks maxOrders lookup) (p : ℕ) : (e.reprice p m).2.cfg = e.cfg := by
    unfold reprice
    dsimp only
    split_ifs
    · rfl
    · exact publishTopIfChanged_cfg _
    · split
      · exact publishTopIfChanged_cfg _
      · split_ifs
        · exact publishTopIfChanged_cfg _
        · refine (publishTopIfChanged_cfg _).trans ?_
          exact (onSubmit_cfg _ _).trans (onCancel_cfg _ _)
  have hrename (e : Engine P ticks maxOrders lookup) (p : ℕ) :
      (e.rename p m.newId).cfg = e.cfg := by
    unfold rename
    dsimp only
    split_ifs <;> rfl
  have hfind := find_cfg e m.id m.handle m.renames
  unfold onModify
  split
  next heq => rwa [heq] at hfind
  next heq =>
    rw [heq] at hfind
    refine (hreprice _ _).trans ?_
    split_ifs
    · exact (hrename _ _).trans hfind
    · exact hfind

theorem apply_cfg (cmd : Command) : (e.apply cmd).cfg = e.cfg := by
  cases cmd with
  | submit m => exact onSubmit_cfg e m
  | cancel m => exact onCancel_cfg e m
  | modify m => exact onModify_cfg e m

end

end Engine

end Orderbooks
