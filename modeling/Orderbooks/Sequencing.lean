import Orderbooks.PriceTime
import Mathlib.Data.List.Chain

/-!
# Sequence stamps

Every event carries a stamp. The engine counts one up at each place where it publishes,
and publishes a fill and its trade under one stamp. So the stamps of a run follow one
another without a gap, from the number the engine was configured to start at.
-/
namespace Orderbooks

/-- What is published under one stamp. -/
inductive Stamping (s : UInt64) : List Event → Prop
  | fill {f : FillMsg} {t : TradeMsg} : f.seq = s → t.seq = s → Stamping s [.fill f, .trade t]
  | single {ev : Event} : ev.kind ≠ .fill → ev.kind ≠ .trade → ev.seq = s → Stamping s [ev]

theorem Stamping.seq_eq {s : UInt64} {new : List Event} {ev : Event} (h : Stamping s new)
    (hev : ev ∈ new) : ev.seq = s := by
  cases h with
  | fill hf ht =>
      rcases List.mem_pair.mp hev with rfl | rfl
      · exact hf
      · exact ht
  | single _ _ hs =>
      rw [List.mem_singleton.mp hev]
      exact hs

/-- Events under the `n` stamps after `base`, in turn. -/
inductive Stamped (base : UInt64) : ℕ → List Event → Prop
  | nil : Stamped base 0 []
  | snoc {n : ℕ} {evs new : List Event} : Stamped base n evs →
      Stamping (base + UInt64.ofNat (n + 1)) new → Stamped base (n + 1) (evs ++ new)

namespace Stamped

variable {base : UInt64} {n k : ℕ} {evs evs' : List Event} {ev : Event}

theorem append (h : Stamped base n evs) (h' : Stamped (base + UInt64.ofNat n) k evs') :
    Stamped base (n + k) (evs ++ evs') := by
  induction h' with
  | nil => simpa using h
  | @snoc k evs₁ new _ hnew ih =>
      rw [← List.append_assoc]
      refine ih.snoc ?_
      have hsum : base + UInt64.ofNat n + UInt64.ofNat (k + 1) =
          base + UInt64.ofNat (n + k + 1) := by
        rw [UInt64.add_assoc, ← UInt64.ofNat_add]
        rfl
      exact hsum ▸ hnew

theorem one {new : List Event} (h : Stamping (base + 1) new) : Stamped base 1 new :=
  Stamped.nil.snoc h

/-- Every event has one of the stamps. -/
theorem mem (h : Stamped base n evs) (hev : ev ∈ evs) :
    ∃ j, 0 < j ∧ j ≤ n ∧ ev.seq = base + UInt64.ofNat j := by
  induction h with
  | nil => simp at hev
  | @snoc n evs new _ hnew ih =>
      rcases List.mem_append.mp hev with hold | hlast
      · obtain ⟨j, hpos, hle, hseq⟩ := ih hold
        exact ⟨j, hpos, by omega, hseq⟩
      · exact ⟨n + 1, by omega, le_refl _, hnew.seq_eq hlast⟩

/-- Each stamp is used once, a trade's apart. -/
theorem count (h : Stamped base n evs) : (evs.filter (·.kind ≠ .trade)).length = n := by
  induction h with
  | nil => rfl
  | snoc _ hnew ih =>
      rw [List.filter_append, List.length_append, ih]
      cases hnew with
      | fill => rfl
      | single _ ht _ => simp [ht]

/-- Two events of one kind have different stamps, as long as the stamps do not wrap. -/
theorem pairwise (h : Stamped base n evs) (hn : n < 2 ^ 64) :
    evs.Pairwise fun a b => a.kind = b.kind → a.seq ≠ b.seq := by
  induction h with
  | nil => exact .nil
  | @snoc n evs new hold hnew ih =>
      refine List.pairwise_append.mpr ⟨ih (by omega), ?_, fun a ha b hb _ heq => ?_⟩
      · cases hnew with
        | fill => simp [Event.kind]
        | single => simp
      · obtain ⟨j, -, hle, hj⟩ := hold.mem ha
        have hsize : UInt64.size = 2 ^ 64 := rfl
        rw [hj, hnew.seq_eq hb, UInt64.add_right_inj, ← UInt64.toNat_inj,
          UInt64.toNat_ofNat_of_lt' (by omega), UInt64.toNat_ofNat_of_lt' (by omega)] at heq
        omega

end Stamped

/-- The stamps of a stream, from event to event. -/
structure GapFree (base last : UInt64) (evs : List Event) : Prop where
  first : ∀ ev, evs.head? = some ev → ev.seq = base + 1 ∧ ev.kind ≠ .trade
  next : evs.IsChain fun a b =>
    if b.kind = .trade then a.kind = .fill ∧ b.seq = a.seq else b.seq = a.seq + 1
  last_eq : last = (evs.getLast?.map Event.seq).getD base

theorem Stamped.gapFree {base : UInt64} {n : ℕ} {evs : List Event} (h : Stamped base n evs) :
    GapFree base (base + UInt64.ofNat n) evs := by
  induction h with
  | nil => exact ⟨by simp, .nil, by simp⟩
  | @snoc n evs new hold hnew ih =>
      have hhead : ∀ b, new.head? = some b →
          b.seq = base + UInt64.ofNat (n + 1) ∧ b.kind ≠ .trade := by
        intro b hb
        refine ⟨hnew.seq_eq (List.mem_of_mem_head? hb), ?_⟩
        cases hnew with
        | fill =>
            rw [← Option.some.inj hb]
            exact Event.Kind.noConfusion
        | single _ ht _ => rwa [← Option.some.inj hb]
      refine ⟨fun ev hev => ?_, List.isChain_append.mpr ⟨ih.next, ?_, fun a ha b hb => ?_⟩, ?_⟩
      · cases evs with
        | nil =>
            obtain rfl : 0 = n := hold.count
            exact hhead ev hev
        | cons a as => exact ih.first ev hev
      · cases hnew with
        | fill hf ht => simp [Event.kind, Event.seq, hf, ht]
        | single => simp
      · obtain ⟨hseq, hkind⟩ := hhead b hb
        have hlast := ih.last_eq
        rw [show evs.getLast? = some a from ha] at hlast
        rw [if_neg hkind, hseq, show a.seq = base + UInt64.ofNat n from hlast.symm,
          UInt64.ofNat_add, UInt64.add_assoc]
        rfl
      · obtain ⟨b, hb⟩ : ∃ b, new.getLast? = some b := by cases hnew <;> exact ⟨_, rfl⟩
        rw [List.getLast?_append, hb]
        exact (hnew.seq_eq (List.mem_of_mem_getLast? hb)).symm

namespace Engine
open Loop

variable {ticks maxOrders : ℕ} {lookup : OrderLookup}

/-- `e'` has published on after `e`, under the next stamps. -/
def Advances (e e' : Engine (List Event) ticks maxOrders lookup) : Prop :=
  ∃ n evs, e'.pub = e.pub ++ evs ∧ Stamped e.state.seq n evs ∧
    e'.state.seq = e.state.seq + UInt64.ofNat n

namespace Advances

variable {e e₁ e₂ : Engine (List Event) ticks maxOrders lookup}

theorem of_eq (hpub : e₁.pub = e.pub) (hseq : e₁.state.seq = e.state.seq) : Advances e e₁ :=
  ⟨0, [], by rw [hpub, List.append_nil], .nil, by simp [hseq]⟩

theorem refl (e : Engine (List Event) ticks maxOrders lookup) : Advances e e := of_eq rfl rfl

theorem trans (h : Advances e e₁) (h' : Advances e₁ e₂) : Advances e e₂ := by
  obtain ⟨n, evs, hpub, hst, hseq⟩ := h
  obtain ⟨k, evs', hpub', hst', hseq'⟩ := h'
  refine ⟨n + k, evs ++ evs', by rw [hpub', hpub, List.append_assoc], ?_, ?_⟩
  · exact hst.append (hseq ▸ hst')
  · rw [hseq', hseq, UInt64.ofNat_add, UInt64.add_assoc]

theorem unsuppress (h : Advances e e₁) : Advances e e₁.unsuppress := h.trans (of_eq rfl rfl)

theorem one {new : List Event} (hpub : e₁.pub = e.pub ++ new)
    (hseq : e₁.state.seq = e.state.seq + 1) (hnew : Stamping e₁.state.seq new) :
    Advances e e₁ :=
  ⟨1, new, hpub, .one (hseq ▸ hnew), hseq⟩

end Advances

variable (e : Engine (List Event) ticks maxOrders lookup)
  (c : Matching (List Event) ticks maxOrders lookup) (m : SubmitMsg)

theorem publishTopIfChanged_advances : Advances e e.publishTopIfChanged := by
  unfold publishTopIfChanged HotState.publishTopIfChanged
  dsimp only
  split_ifs
  · exact .of_eq rfl rfl
  · exact .of_eq rfl rfl
  · exact .of_eq rfl rfl
  · exact .one rfl rfl (.single Event.Kind.noConfusion Event.Kind.noConfusion rfl)

theorem markTop_advances (s : Side) (px : ℕ) : Advances e (e.markTop s px) := by
  unfold markTop HotState.markTop
  split_ifs <;> exact .of_eq rfl rfl

theorem decrementMaker_seq (s : Side) (px p : ℕ) (qty : UInt64) :
    (e.decrementMaker s px p qty).state.seq = e.state.seq := by
  unfold decrementMaker
  dsimp only
  split_ifs
  · rw [(dropFront_control _ _ _ _).2.2]
    rfl
  · rfl

theorem notifyIfEmptied_advances (s : Side) (px : ℕ) : Advances e (e.notifyIfEmptied s px) := by
  unfold notifyIfEmptied
  split_ifs <;> exact .of_eq rfl rfl

theorem handleSelfCross_advances (p px : ℕ) :
    Advances c.engine (handleSelfCross c m p px).2.engine := by
  unfold handleSelfCross
  dsimp only
  cases c.engine.cfg.selfCross with
  | cancelNewest => exact .refl _
  | cancelOldest =>
      refine .of_eq (dropFront_control _ _ _ _).1 ?_
      change (dropFront _ _ _ _).state.seq = _
      rw [(dropFront_control _ _ _ _).2.2]
      rfl
  | decrementTrade =>
      refine .one (decrementMaker_pub _ _) (decrementMaker_seq _ _ _ _ _) ?_
      rw [decrementMaker_seq]
      exact .single Event.Kind.noConfusion Event.Kind.noConfusion rfl

theorem fillMaker_advances (p px : ℕ) : Advances c.engine (fillMaker c m p px).engine := by
  unfold fillMaker
  dsimp only
  refine .one ((decrementMaker_pub _ _).trans (List.append_assoc _ _ _))
    (decrementMaker_seq _ _ _ _ _) ?_
  rw [decrementMaker_seq]
  exact .fill rfl rfl

theorem makerTurn_advances (px : ℕ) : Advances c.engine (makerTurn m px c).state.engine := by
  unfold makerTurn
  split
  · exact .refl _
  · rename_i p _ _
    split_ifs with hrem hown
    · exact .refl _
    · have hcross := handleSelfCross_advances c m p px
      generalize handleSelfCross c m p px = r at hcross ⊢
      obtain ⟨abort, c'⟩ := r
      cases abort with
      | true => exact hcross.trans (notifyIfEmptied_advances _ _ _)
      | false => exact hcross
    · exact fillMaker_advances c m p px

theorem makerLoop_advances (px : ℕ) : Advances c.engine (makerLoop m px c).engine :=
  run_invariant (fun c' => Advances c.engine c'.engine)
    (fun c' h => h.trans (makerTurn_advances c' m px)) _ c (.refl _)

theorem levelTurn_advances : Advances c.engine (levelTurn m c).state.engine := by
  unfold levelTurn
  split_ifs with hrem
  · exact .refl _
  · split
    · exact .refl _
    · dsimp only
      split_ifs with hcross habort
      · exact .refl _
      · exact makerLoop_advances c m _
      · exact (makerLoop_advances c m _).trans (notifyIfEmptied_advances _ _ _)

theorem matchAgainstOpposite_advances : Advances e (matchAgainstOpposite m e).engine :=
  run_invariant (fun c => Advances e c.engine)
    (fun c h => h.trans (levelTurn_advances c m)) _ ⟨e, m.qty, false⟩ (.refl _)

theorem rest_advances (rem : UInt64) : Advances e (e.rest m rem).2 := by
  unfold rest
  split
  · exact .one rfl rfl (.single Event.Kind.noConfusion Event.Kind.noConfusion rfl)
  · have hadd (e' : Engine (List Event) ticks maxOrders lookup) (hpub : e'.pub = e.pub)
        (hstate : e'.state = e.state) : Advances e (e'.markTop m.s m.px) :=
      .trans (.of_eq hpub (congrArg HotState.seq hstate)) (markTop_advances _ _ _)
    split_ifs
    · exact hadd _ rfl rfl
    · exact .trans (hadd _ rfl rfl) (.of_eq rfl rfl)

theorem handleSubmit_advances : Advances e (e.handleSubmit m).2 := by
  unfold handleSubmit
  split_ifs with hkill
  · exact .refl _
  · dsimp only
    split_ifs with hrem
    · exact matchAgainstOpposite_advances e m
    · cases m.t with
      | ioc => exact matchAgainstOpposite_advances e m
      | fok => exact matchAgainstOpposite_advances e m
      | gtc => exact (matchAgainstOpposite_advances e m).trans (rest_advances _ m _)

theorem onSubmit_advances : Advances e (e.onSubmit m).2 :=
  (handleSubmit_advances e m).trans (publishTopIfChanged_advances _)

/-- The way every in-place change of the book ends. -/
theorem Advances.settled {e e' : Engine (List Event) ticks maxOrders lookup}
    (h : Advances e e') (s : Side) (px : ℕ) : Advances e (e'.markTop s px).publishTopIfChanged :=
  (h.trans (markTop_advances _ s px)).trans (publishTopIfChanged_advances _)

theorem onCancel_advances (m : CancelMsg) : Advances e (e.onCancel m) := by
  obtain ⟨hpub, -, hstate, -⟩ := e.find_parts m.id m.handle true
  unfold onCancel
  generalize e.find m.id m.handle true = r at hpub hstate ⊢
  obtain ⟨o, e'⟩ := r
  have hfind : Advances e e' := .of_eq hpub (congrArg HotState.seq hstate)
  cases o with
  | none => exact hfind
  | some p =>
      refine Advances.settled (hfind.trans (.of_eq ?_ ?_)) _ _ <;> rfl

theorem relink_advances (p newPx : ℕ) (newQty : UInt64) :
    Advances e (e.relink p newPx newQty) :=
  ((Advances.of_eq rfl rfl).trans (markTop_advances _ _ _)).settled _ _

theorem reprice_advances (p : ℕ) (m : ModifyMsg) : Advances e (e.reprice p m).2 := by
  unfold reprice
  dsimp only
  split_ifs
  · exact .refl _
  · exact (Advances.of_eq rfl rfl).settled _ _
  · cases (e.side (e.order p).s.opposite).best with
    | none => exact relink_advances e p m.newPx m.newQty
    | some b =>
        dsimp only
        split_ifs
        · exact relink_advances e p m.newPx m.newQty
        · have hcancel := (Advances.of_eq rfl rfl : Advances e e.suppress).trans
            (onCancel_advances _ ⟨(e.order p).id, m.handle⟩)
          exact (hcancel.trans (onSubmit_advances _ _)).unsuppress.trans
            (publishTopIfChanged_advances _)

theorem apply_advances (cmd : Command) : Advances e (e.apply cmd) := by
  cases cmd with
  | submit m => exact onSubmit_advances e m
  | cancel m => exact onCancel_advances e m
  | modify m =>
      obtain ⟨hpub, -, hstate, -⟩ := e.find_parts m.id m.handle m.renames
      have hfind : Advances e (e.find m.id m.handle m.renames).2 :=
        .of_eq hpub (congrArg HotState.seq hstate)
      change Advances e (e.onModify m).2
      cases hf : (e.find m.id m.handle m.renames).1 with
      | none =>
          rw [onModify_none hf]
          exact hfind
      | some p =>
          rw [onModify_some hf]
          refine .trans ?_ (reprice_advances _ p m)
          split_ifs
          · obtain ⟨hpub', -, hstate', -⟩ :=
              rename_parts (e.find m.id m.handle m.renames).2 p m.newId
            exact hfind.trans (.of_eq hpub' (congrArg HotState.seq hstate'))
          · exact hfind

/-- The stamp of the last event. -/
def lastSeq (e : Engine (List Event) ticks maxOrders lookup) : UInt64 := e.state.seq

/-- A run publishes under the stamps after the configured base. -/
theorem play_stamped (cfg : EngineConfig) (mem : Memory) (cmds : List Command) :
    let e : Engine (List Event) ticks maxOrders lookup := play [] cfg mem cmds
    ∃ n, Stamped cfg.seqBase n e.pub ∧ e.lastSeq = cfg.seqBase + UInt64.ofNat n := by
  have hrun : Advances (new [] cfg mem : Engine (List Event) ticks maxOrders lookup)
      (play [] cfg mem cmds) := by
    unfold play
    induction cmds using List.reverseRecOn with
    | nil => exact .refl _
    | append_singleton cmds cmd ih =>
        rw [List.foldl_append]
        exact ih.trans (apply_advances _ cmd)
  obtain ⟨n, evs, hpub, hst, hseq⟩ := hrun
  exact ⟨n, hpub ▸ hst, hseq⟩

end Engine

end Orderbooks
