import Orderbooks.Relabelling

/-!
# Runs under other labels

`Carries` says that one market is another one under other labels. Every command keeps it, its news
are carried over with it, and a top is due in the one market when it is due in the other. So a run
under other labels is the run, and it needs no more room.
-/
namespace Orderbooks
open Runs

/-- `M'` is `M` under the other labels. -/
structure Relabelling.Carries {ticks ticks' : ℕ} (ρ : Relabelling ticks ticks') (M M' : Market) :
    Prop where
  at_price : ∀ s, ∀ p < ticks, M' (ρ.side s) (ρ.price p) = (M s p).map ρ.order
  elsewhere : ∀ s q, (∀ p < ticks, ρ.price p ≠ q) → M' s q = []

/-- The same rules on another ladder and with another arena. -/
def Rules.on (R : Rules) (ticks' capacity' : ℕ) : Rules :=
  { R with ticks := ticks', capacity := capacity' }

namespace Relabelling.Carries

variable {R : Rules} {ticks' capacity' : ℕ} {ρ : Relabelling R.ticks ticks'} {M M' : Market}
  {m : SubmitMsg}

theorem makers (h : ρ.Carries M M') (hpx : m.px < R.ticks) :
    M'.makers (R.on ticks' capacity') (ρ.submit m) = (M.makers R m).map ρ.order := by
  unfold Market.makers
  change (((ρ.side m.s).opposite.priority ticks').filter
    ((ρ.side m.s).crosses (ρ.price m.px))).flatMap (M' (ρ.side m.s).opposite) = _
  rw [← side_opposite, flatMap_filter, flatMap_filter, flatMap_priority, List.map_flatMap]
  · refine List.flatMap_congr fun p hp => ?_
    have hp : p < R.ticks := m.s.opposite.mem_priority.mp hp
    rw [crosses_side hpx hp, h.at_price _ p hp]
    split_ifs <;> rfl
  · intro q hq
    rw [h.elsewhere _ q hq, ite_self]

theorem outcome (h : ρ.Carries M M') (hpx : m.px < R.ticks) :
    M'.outcome (R.on ticks' capacity') (ρ.submit m) = ρ.outcome (M.outcome R m) := by
  have hsettle : settle R.selfCross (ρ.account m.accountId) ((M.makers R m).map ρ.order) m.qty =
      ρ.outcome (settle R.selfCross m.accountId (M.makers R m) m.qty) := settle_order _ _ _ _
  change (if m.t = .fok ∧ taken (settle R.selfCross (ρ.account m.accountId)
      (M'.makers (R.on ticks' capacity') (ρ.submit m)) m.qty).fates ≠ m.qty.toNat then
    ⟨untouched (M'.makers (R.on ticks' capacity') (ρ.submit m)), m.qty, false⟩
    else settle R.selfCross (ρ.account m.accountId)
      (M'.makers (R.on ticks' capacity') (ρ.submit m)) m.qty) = _
  rw [h.makers hpx, hsettle, ← fates_untouched]
  unfold Market.outcome
  simp only [Relabelling.outcome, taken_fates]
  split_ifs <;> rfl

theorem matched (h : ρ.Carries M M') (hpx : m.px < R.ticks) {l : List (Order × Fate)}
    (hl : ∀ o ∈ survivors l, o.px < R.ticks) :
    ρ.Carries (M.matched m l) (M'.matched (ρ.submit m) (ρ.fates l)) where
  at_price s p hp := by
    change (if ρ.side s = (ρ.side m.s).opposite ∧
        (ρ.side m.s).crosses (ρ.price m.px) (ρ.price p) = true then
      (survivors (ρ.fates l)).filter (·.px = ρ.price p) else M' (ρ.side s) (ρ.price p)) = _
    simp only [← side_opposite, side_inj, crosses_side hpx hp, h.at_price s p hp, survivors_fates]
    unfold Market.matched
    split_ifs with hmet
    · rw [List.filter_map]
      refine congrArg (List.map ρ.order) (List.filter_congr fun o ho => ?_)
      exact decide_eq_decide.mpr (price_inj (hl o ho) hp)
    · rfl
  elsewhere s q hq := by
    unfold Market.matched
    split_ifs with hmet
    · rw [survivors_fates, List.filter_eq_nil_iff]
      intro o' ho'
      obtain ⟨o, ho, rfl⟩ := List.mem_map.mp ho'
      simp only [decide_eq_true_eq]
      exact hq o.px (hl o ho)
    · exact h.elsewhere s q hq

theorem size (h : ρ.Carries M M') : M'.size (R.on ticks' capacity') = M.size R := by
  have hlen (s : Side) : ∑ q ∈ Finset.range ticks', (M' (ρ.side s) q).length =
      ∑ p ∈ Finset.range R.ticks, (M s p).length := by
    have hoff (q : ℕ) (hq : ∀ p < R.ticks, ρ.price p ≠ q) : M' (ρ.side s) q = [] :=
      h.elsewhere _ q hq
    have hflat := congrArg List.length (flatMap_priority s hoff)
    rw [List.length_flatMap, List.length_flatMap, Queues.sum_priority, Queues.sum_priority] at hflat
    rw [hflat]
    refine Finset.sum_congr rfl fun p hp => ?_
    rw [h.at_price s p (Finset.mem_range.mp hp), List.length_map]
  have hbid := hlen .bid
  have hask := hlen .ask
  simp only [Market.size, Rules.on, Finset.sum_add_distrib]
  unfold side at hbid hask
  cases hf : ρ.flips <;> simp only [hf, cond_true, cond_false, Side.opposite] at hbid hask <;> omega

/-- There is room in the other arena for what there is room for in this one. -/
def Room (R : Rules) (capacity' : ℕ) (evs : List Event) : Prop :=
  capacity' = R.capacity ∨ (R.capacity ≤ capacity' ∧ ∀ ev ∈ evs, ev.kind ≠ .reject)

theorem remainder (h : ρ.Carries M M') {left : UInt64}
    (hroom : Room R capacity' ((M.remainder R m left).news m)) :
    M'.remainder (R.on ticks' capacity') (ρ.submit m) left = M.remainder R m left := by
  unfold Market.remainder at hroom ⊢
  rw [h.size]
  change (if left = 0 ∨ m.t ≠ .gtc then Remainder.gone
    else if capacity' ≤ M.size R then .rejected left else .rests left) = _
  by_cases hgone : left = 0 ∨ m.t ≠ .gtc
  · rw [if_pos hgone, if_pos hgone]
  · rw [if_neg hgone] at hroom ⊢
    rw [if_neg hgone]
    rcases hroom with rfl | ⟨hle, hno⟩
    · rfl
    · by_cases hfull : R.capacity ≤ M.size R
      · rw [if_pos hfull] at hno
        exact absurd rfl (hno _ (List.mem_singleton.mpr rfl))
      · rw [if_neg hfull, if_neg (by omega)]

theorem join (h : ρ.Carries M M') (hpx : m.px < R.ticks) (r : Remainder) :
    ρ.Carries (M.join m r) (M'.join (ρ.submit m) r) where
  at_price s p hp := by
    change M' (ρ.side s) (ρ.price p) ++ (if ρ.side s = ρ.side m.s ∧ ρ.price p = ρ.price m.px then
      r.records (ρ.submit m) else []) = _
    simp only [h.at_price s p hp, side_inj, price_inj hp hpx, records_submit, Market.join,
      List.map_append]
    split_ifs <;> rfl
  elsewhere s q hq := by
    unfold Market.join
    rw [h.elsewhere s q hq, if_neg fun hat => hq m.px hpx hat.2.symm, List.append_nil]

theorem submit (h : ρ.Carries M M') (hfiled : M.Filed R) (hpx : m.px < R.ticks)
    (hroom : Room R capacity' (M.submit R m).2) :
    ρ.Carries (M.submit R m).1 (M'.submit (R.on ticks' capacity') (ρ.submit m)).1 ∧
      (M'.submit (R.on ticks' capacity') (ρ.submit m)).2 = (M.submit R m).2.map ρ.event := by
  have hroom' : Room R capacity'
      (((M.matched m (M.outcome R m).fates).remainder R m (M.outcome R m).left).news m) := by
    refine hroom.imp_right fun hle => ⟨hle.1, fun ev hev => hle.2 ev ?_⟩
    exact List.mem_append_right _ hev
  have hmatched : ρ.Carries (M.matched m (M.outcome R m).fates)
      (M'.matched (ρ.submit m) (ρ.fates (M.outcome R m).fates)) := h.matched hpx hfiled.survivors
  have hrest := hmatched.remainder hroom'
  unfold Market.submit
  rw [h.outcome hpx]
  dsimp only [Relabelling.outcome]
  rw [hrest, deals_fates, news_submit, List.map_append]
  exact ⟨hmatched.join hpx _, rfl⟩

theorem cancel (h : ρ.Carries M M') (id : UInt64) :
    ρ.Carries (M.cancel id) (M'.cancel (ρ.id id)) where
  at_price s p hp := by
    unfold Market.cancel
    rw [h.at_price s p hp, List.filter_map]
    refine congrArg (List.map ρ.order) (List.filter_congr fun o _ => ?_)
    exact decide_eq_decide.mpr (not_congr ρ.id_injective.eq_iff)
  elsewhere s q hq := by
    unfold Market.cancel
    rw [h.elsewhere s q hq]
    rfl

theorem amend (h : ρ.Carries M M') (id : UInt64) {f f' : Order → Order}
    (hf : ∀ o, f' (ρ.order o) = ρ.order (f o)) :
    ρ.Carries (M.amend id f) (M'.amend (ρ.id id) f') where
  at_price s p hp := by
    unfold Market.amend
    rw [h.at_price s p hp, List.map_map, List.map_map]
    refine List.map_congr_left fun o _ => ?_
    change (if ρ.id o.id = ρ.id id then f' (ρ.order o) else ρ.order o) =
      ρ.order (if o.id = id then f o else o)
    by_cases hid : o.id = id
    · rw [if_pos hid, if_pos (congrArg ρ.id hid), hf]
    · rw [if_neg hid, if_neg fun h => hid (ρ.id_injective h)]
  elsewhere s q hq := by
    unfold Market.amend
    rw [h.elsewhere s q hq]
    rfl

theorem of_mem (h : ρ.Carries M M') {t : Side} {q : ℕ} {o' : Order} (ho' : o' ∈ M' t q) :
    ∃ s, ∃ p < R.ticks, ∃ o ∈ M s p, o' = ρ.order o ∧ t = ρ.side s ∧ q = ρ.price p := by
  obtain ⟨s, rfl⟩ := ρ.exists_side t
  by_cases hq : ∃ p < R.ticks, ρ.price p = q
  · obtain ⟨p, hp, rfl⟩ := hq
    rw [h.at_price s p hp] at ho'
    obtain ⟨o, ho, rfl⟩ := List.mem_map.mp ho'
    exact ⟨s, p, hp, o, ho, rfl, rfl, rfl⟩
  · push Not at hq
    rw [h.elsewhere _ q hq] at ho'
    simp at ho'

theorem find (h : ρ.Carries M M') (hM : M.Sane R) (hM' : M'.Sane (R.on ticks' capacity'))
    (id : UInt64) : M'.find (R.on ticks' capacity') (ρ.id id) = (M.find R id).map ρ.order := by
  cases hfind : M.find R id with
  | some o =>
      obtain ⟨⟨s, p, ho⟩, rfl⟩ := hM.find_eq_some_iff.mp hfind
      refine hM'.find_eq_some_iff.mpr ⟨⟨ρ.side s, ρ.price p, ?_⟩, rfl⟩
      rw [h.at_price s p (hM.filed s p o ho).2.2]
      exact List.mem_map_of_mem ho
  | none =>
      cases hfind' : M'.find (R.on ticks' capacity') (ρ.id id) with
      | none => rfl
      | some o' =>
          obtain ⟨⟨t, q, ho'⟩, hid⟩ := hM'.find_eq_some_iff.mp hfind'
          obtain ⟨s, p, -, o, ho, rfl, -, -⟩ := h.of_mem ho'
          have hfound := hM.find_eq_some_iff.mpr ⟨⟨s, p, ho⟩, ρ.id_injective hid⟩
          rw [hfind] at hfound
          simp at hfound

theorem modify (h : ρ.Carries M M') (hM : M.Sane R) (hM' : M'.Sane (R.on ticks' capacity'))
    {m : ModifyMsg} (hpx : m.newPx < R.ticks) (hroom : Room R capacity' (M.modify R m).2) :
    ρ.Carries (M.modify R m).1 (M'.modify (R.on ticks' capacity') (ρ.modify m)).1 ∧
      (M'.modify (R.on ticks' capacity') (ρ.modify m)).2 = (M.modify R m).2.map ρ.event := by
  have hid := ρ.effectiveId_modify m
  have hfind' := h.find hM hM' m.id
  cases hfind : M.find R m.id with
  | none =>
      rw [hfind] at hfind'
      rw [Market.modify_none hfind, Market.modify_none hfind']
      exact ⟨h, rfl⟩
  | some o =>
      rw [hfind] at hfind'
      obtain ⟨⟨s, p, ho⟩, -⟩ := hM.find_eq_some_iff.mp hfind
      obtain ⟨-, rfl, hp⟩ := hM.filed s p o ho
      by_cases hsame : m.newPx = o.px
      · rw [Market.modify_amend hfind hsame,
          Market.modify_amend hfind' (congrArg ρ.price hsame)]
        refine ⟨h.amend m.id fun x => ?_, rfl⟩
        rw [hid]
        rfl
      · have hmoved : (ρ.modify m).newPx ≠ (ρ.order o).px := mt (price_inj hpx hp).mp hsame
        have hfiled : (M.cancel m.id).Filed R := fun t q x hx =>
          hM.filed t q x (List.mem_of_mem_filter hx)
        rw [Market.modify_move hfind hsame] at hroom ⊢
        rw [Market.modify_move hfind' hmoved, hid]
        exact (h.cancel m.id).submit hfiled hpx hroom

theorem step (h : ρ.Carries M M') (hM : M.Sane R) (hM' : M'.Sane (R.on ticks' capacity'))
    {cmd : Command} {maxQty : UInt64} (hdom : cmd.InDomain R.ticks maxQty)
    (hroom : Room R capacity' (M.step R cmd).2) :
    ρ.Carries (M.step R cmd).1 (M'.step (R.on ticks' capacity') (ρ.command cmd)).1 ∧
      (M'.step (R.on ticks' capacity') (ρ.command cmd)).2 = (M.step R cmd).2.map ρ.event := by
  cases cmd with
  | submit m => exact h.submit hM.filed hdom.1 hroom
  | cancel m => exact ⟨h.cancel m.id, rfl⟩
  | modify m => exact h.modify hM hM' hdom.1 hroom

/-! ## The top -/

theorem best (h : ρ.Carries M M') (s : Side) :
    M'.best (R.on ticks' capacity') (ρ.side s) = (M.best R s).map ρ.price := by
  -- a populated price is one that prices are carried to
  have himage (q : ℕ) : (!(M' (ρ.side s) q).isEmpty) =
      (!(M' (ρ.side s) q).isEmpty && decide (∃ p < R.ticks, ρ.price p = q)) := by
    by_cases hq : ∃ p < R.ticks, ρ.price p = q
    · simp [hq]
    · push Not at hq
      simp [h.elsewhere _ q hq]
  change ((ρ.side s).priority ticks').find? _ = _
  unfold Market.best
  rw [← List.head?_filter, ← List.head?_filter, List.filter_congr fun q _ => himage q,
    ← List.filter_filter, filter_priority, List.filter_map, List.head?_map]
  refine congrArg (Option.map ρ.price) (congrArg List.head? (List.filter_congr fun p hp => ?_))
  simp only [Function.comp_apply, h.at_price s p (s.mem_priority.mp hp), List.isEmpty_map]

theorem aggregate (h : ρ.Carries M M') (s : Side) {p : ℕ} (hp : p < R.ticks) :
    M'.aggregate (ρ.side s) (ρ.price p) = M.aggregate s p := by
  unfold Market.aggregate
  rw [h.at_price s p hp, List.map_map]
  rfl

variable (capacity') in
/-- The quote of one side. -/
theorem quoted (h : ρ.Carries M M') (hM : M.Sane R) (s : Side) :
    (M'.best (R.on ticks' capacity') (ρ.side s)).elim 0 (M'.aggregate (ρ.side s)) =
        (M.best R s).elim 0 (M.aggregate s) ∧
      (M'.best (R.on ticks' capacity') (ρ.side s)).getD 0 =
        ρ.quote ((M.best R s).getD 0) ((M.best R s).elim 0 (M.aggregate s)) := by
  rw [h.best]
  cases hbest : M.best R s with
  | none => exact ⟨rfl, rfl⟩
  | some p =>
      have hne : M s p ≠ [] := by
        have := List.find?_some hbest
        simpa using this
      have hp : p < R.ticks := s.mem_priority.mp (List.mem_of_find?_eq_some hbest)
      refine ⟨h.aggregate s hp, ?_⟩
      exact (if_neg (hM.quoted s p hne)).symm

theorem top (h : ρ.Carries M M') (hM : M.Sane R) :
    M'.top (R.on ticks' capacity') = ρ.top (M.top R) := by
  obtain ⟨hbid, hbidPx⟩ := h.quoted capacity' hM .bid
  obtain ⟨hask, haskPx⟩ := h.quoted capacity' hM .ask
  unfold Market.top Top.of Relabelling.top
  unfold side at hbid hbidPx hask haskPx
  cases hf : ρ.flips <;>
    simp only [hf, cond_true, cond_false, Side.opposite] at hbid hbidPx hask haskPx <;>
    simp only [hbid, hbidPx, hask, haskPx, cond_true, cond_false]

end Relabelling.Carries

/-- Every price of a quote is on the ladder, or zero where nothing is quoted. -/
def Top.On (ticks : ℕ) (t : Top) : Prop :=
  (if t.bidQty = 0 then t.bidPx = 0 else t.bidPx < ticks) ∧
    if t.askQty = 0 then t.askPx = 0 else t.askPx < ticks

theorem Market.Sane.top_on {R : Rules} {M : Market} (h : M.Sane R) : (M.top R).On R.ticks := by
  have hside (s : Side) : if (M.best R s).elim 0 (M.aggregate s) = 0 then (M.best R s).getD 0 = 0
      else (M.best R s).getD 0 < R.ticks := by
    cases hbest : M.best R s with
    | none => exact (if_pos rfl).mpr rfl
    | some p =>
        have hne : M s p ≠ [] := by
          have := List.find?_some hbest
          simpa using this
        have hp : p < R.ticks := s.mem_priority.mp (List.mem_of_find?_eq_some hbest)
        rw [if_neg (show (some p).elim 0 (M.aggregate s) ≠ 0 from h.quoted s p hne)]
        exact hp
  exact ⟨hside .bid, hside .ask⟩

namespace Relabelling

variable {ticks ticks' : ℕ} {ρ : Relabelling ticks ticks'}

theorem quote_inj {px px' : ℕ} {qty : UInt64} (h : if qty = 0 then px = 0 else px < ticks)
    (h' : if qty = 0 then px' = 0 else px' < ticks) (heq : ρ.quote px qty = ρ.quote px' qty) :
    px = px' := by
  unfold quote at heq
  split_ifs at h h' heq with hz
  · rw [h, h']
  · exact (price_inj h h').mp heq

theorem top_inj {t t' : Top} (h : t.On ticks) (h' : t'.On ticks) :
    ρ.top t = ρ.top t' ↔ t = t' := by
  constructor
  · intro heq
    obtain ⟨bp, ap, bq, aq⟩ := t
    obtain ⟨bp', ap', bq', aq'⟩ := t'
    unfold top at heq
    cases hf : ρ.flips <;> simp only [hf, cond_true, cond_false, Top.mk.injEq] at heq
    · obtain ⟨hbp, hap, rfl, rfl⟩ := heq
      obtain rfl : bp = bp' := quote_inj h.1 h'.1 hbp
      obtain rfl : ap = ap' := quote_inj h.2 h'.2 hap
      rfl
    · obtain ⟨hap, hbp, rfl, rfl⟩ := heq
      obtain rfl : bp = bp' := quote_inj h.1 h'.1 hbp
      obtain rfl : ap = ap' := quote_inj h.2 h'.2 hap
      rfl
  · rintro rfl
    rfl

namespace Carries

variable {R : Rules} {ticks' capacity' : ℕ} {ρ : Relabelling R.ticks ticks'} {M M' N N' : Market}

theorem quantities_ne_iff (h : ρ.Carries M M') (hN : ρ.Carries N N') :
    (∃ s, ∃ q < ticks', N'.quantities s q ≠ M'.quantities s q) ↔
      ∃ s, ∃ p < R.ticks, N.quantities s p ≠ M.quantities s p := by
  have hat {A A' : Market} (hA : ρ.Carries A A') (s : Side) {p : ℕ} (hp : p < R.ticks) :
      A'.quantities (ρ.side s) (ρ.price p) = A.quantities s p := by
    unfold Market.quantities
    rw [hA.at_price s p hp, List.map_map]
    rfl
  constructor
  · rintro ⟨t, q, -, hne⟩
    obtain ⟨s, rfl⟩ := ρ.exists_side t
    by_cases hq : ∃ p < R.ticks, ρ.price p = q
    · obtain ⟨p, hp, rfl⟩ := hq
      rw [hat hN s hp, hat h s hp] at hne
      exact ⟨s, p, hp, hne⟩
    · push Not at hq
      simp [Market.quantities, h.elsewhere _ q hq, hN.elsewhere _ q hq] at hne
  · rintro ⟨s, p, hp, hne⟩
    refine ⟨ρ.side s, ρ.price p, ρ.price_lt p hp, ?_⟩
    rwa [hat hN s hp, hat h s hp]

theorem due (h : ρ.Carries M M') (hM : M.Sane R) (hN : ρ.Carries N N') (hN₁ : N.Sane R) :
    M'.due (R.on ticks' capacity') N' = M.due R N := by
  have htops : ρ.top (N.top R) ≠ ρ.top (M.top R) ↔ N.top R ≠ M.top R :=
    not_congr (top_inj hN₁.top_on hM.top_on)
  unfold Market.due
  rw [h.top hM, hN.top hN₁]
  change (if R.topThrottle then _ else
    decide (∃ s, ∃ q < ticks', N'.quantities s q ≠ M'.quantities s q)) = _
  simp only [htops, h.quantities_ne_iff hN]

theorem apply (h : ρ.Carries M M') (hM : M.Sane R) (hM' : M'.Sane (R.on ticks' capacity'))
    {cmd : Command} {maxQty : UInt64} (hdom : cmd.InDomain R.ticks maxQty)
    (hroom : Room R capacity' (M.apply R cmd).2) (hnext : (M.step R cmd).1.Sane R) :
    ρ.Carries (M.apply R cmd).1 (M'.apply (R.on ticks' capacity') (ρ.command cmd)).1 ∧
      (M'.apply (R.on ticks' capacity') (ρ.command cmd)).2 = (M.apply R cmd).2.map ρ.event := by
  have hroom' : Room R capacity' (M.step R cmd).2 :=
    hroom.imp_right fun hle => ⟨hle.1, fun ev hev => hle.2 ev (List.mem_append_left _ hev)⟩
  obtain ⟨hstep, hnews⟩ := h.step hM hM' hdom hroom'
  refine ⟨hstep, ?_⟩
  unfold Market.apply
  dsimp only
  rw [hnews, h.due hM hstep hnext, hstep.top hnext, List.map_append]
  split_ifs <;> rfl

end Carries

/-! ## Runs -/

theorem kind_event (ev : Event) : (ρ.event ev).kind = ev.kind := by
  cases ev <;> rfl

theorem stampAll_event (seq : UInt64) (evs : List Event) :
    stampAll seq (evs.map ρ.event) = (stampAll seq evs).map ρ.event := by
  have hstamp (seq : UInt64) (ev : Event) : (ρ.event ev).stamp seq = ρ.event (ev.stamp seq) := by
    cases ev <;> rfl
  induction evs generalizing seq with
  | nil => rfl
  | cons ev evs ih =>
      simp only [List.map_cons, stampAll, kind_event, hstamp, ih]
      split_ifs <;> rfl

theorem command_inDomain {cmd : Command} {maxQty : UInt64} (h : cmd.InDomain ticks maxQty) :
    (ρ.command cmd).InDomain ticks' maxQty := by
  have hkey {id : UInt64} (hid : id ≠ emptyKey) : ρ.id id ≠ emptyKey := fun heq =>
    hid (ρ.id_injective (heq.trans ρ.id_emptyKey.symm))
  have hvalid {id : UInt64} (hid : ValidId id) : ValidId (ρ.id id) :=
    ⟨mt id_eq_zero.mp hid.1, hkey hid.2⟩
  cases cmd with
  | submit m =>
      obtain ⟨hpx, hpos, hle, hid⟩ := h
      exact ⟨ρ.price_lt _ hpx, hpos, hle, hvalid hid⟩
  | cancel m => exact hvalid h
  | modify m =>
      obtain ⟨hpx, hpos, hle, hid, hnew⟩ := h
      exact ⟨ρ.price_lt _ hpx, hpos, hle, hvalid hid, hkey hnew⟩

end Relabelling

namespace Relabelling

variable {R : Rules} {ticks' capacity' : ℕ} {maxQty : UInt64} {ρ : Relabelling R.ticks ticks'}

theorem Carries.fresh {M M' : Market} (h : ρ.Carries M M') {cmd : Command} (hcmd : M.Fresh cmd) :
    M'.Fresh (ρ.command cmd) := by
  have habs {id : UInt64} (hid : M.Absent id) : M'.Absent (ρ.id id) := by
    intro t q o' ho' heq
    obtain ⟨s, p, -, o, ho, rfl, -, -⟩ := h.of_mem ho'
    exact hid s p o ho (ρ.id_injective heq)
  cases cmd with
  | submit m => exact habs hcmd
  | cancel m => trivial
  | modify m =>
      intro hren
      rw [renames_modify] at hren
      exact habs (hcmd hren)

theorem play_carries (hc : 0 < R.capacity) (hle : R.capacity ≤ capacity') (ht : R.ticks ≤ 64 ^ 4)
    (ht' : ticks' ≤ 64 ^ 4) (hcap : capacity' * maxQty.toNat < 2 ^ 64) {cmds : List Command}
    (hok : Market.Permitted R maxQty cmds)
    (hroom : Carries.Room R capacity' (Market.play R cmds).2) :
    let day' := Market.play (R.on ticks' capacity') (cmds.map ρ.command)
    Market.Permitted (R.on ticks' capacity') maxQty (cmds.map ρ.command) ∧
      ρ.Carries (Market.play R cmds).1 day'.1 ∧
        day'.2 = (Market.play R cmds).2.map ρ.event := by
  have hcap₁ : R.capacity * maxQty.toNat < 2 ^ 64 :=
    (Nat.mul_le_mul_right _ hle).trans_lt hcap
  induction cmds using List.reverseRecOn with
  | nil => exact ⟨trivial, ⟨fun _ _ _ => rfl, fun _ _ _ => rfl⟩, rfl⟩
  | append_singleton cmds cmd ih =>
      obtain ⟨hbefore, hcmd⟩ := Market.permitted_concat.mp hok
      have hnext := hok.sane hc ht hcap₁
      rw [Market.play_concat] at hroom hnext ⊢
      have hroom₁ : Carries.Room R capacity' (Market.play R cmds).2 := hroom.imp_right fun hno =>
        ⟨hno.1, fun ev hev => hno.2 ev (List.mem_append_left _ hev)⟩
      have hroom₂ : Carries.Room R capacity' ((Market.play R cmds).1.apply R cmd).2 :=
        hroom.imp_right fun hno => ⟨hno.1, fun ev hev => hno.2 ev (List.mem_append_right _ hev)⟩
      obtain ⟨hok', hcarry, hnews⟩ := ih hbefore hroom₁
      have hM' := hok'.sane (hc.trans_le hle) ht' hcap
      obtain ⟨hstep, hnews'⟩ :=
        hcarry.apply (hbefore.sane hc ht hcap₁) hM' hcmd.1 hroom₂ hnext
      rw [List.map_append, List.map_singleton, Market.play_concat]
      refine ⟨Market.permitted_concat.mpr ⟨hok', command_inDomain hcmd.1, hcarry.fresh hcmd.2⟩,
        hstep, ?_⟩
      change _ ++ _ = (_ ++ _ : List Event).map ρ.event
      rw [hnews, hnews', List.map_append]

end Relabelling

namespace Engine

variable {ticks ticks' maxOrders maxOrders' : ℕ}

/-- Labels do not matter. On every history in the documented domains that reuses no resting id, an
engine on another ladder that is given the commands under other labels holds the same books under
these labels and publishes the same tape under them, stamp for stamp. Its arena may also be the
larger one, as long as the smaller one turned nothing away. -/
theorem play_relabelled (ρ : Relabelling ticks ticks') (cfg : EngineConfig) (mem mem' : Memory)
    (hc : 0 < maxOrders) (hle : maxOrders ≤ maxOrders') (ht : ticks ≤ 64 ^ 4)
    (ht' : ticks' ≤ 64 ^ 4) (hcap : maxOrders' * cfg.maxOrderQty.toNat < 2 ^ 64)
    (cmds : List Command) (hdom : ∀ cmd ∈ cmds, cmd.InDomain ticks cfg.maxOrderQty)
    (hfresh : Along apply Fresh
      (new [] cfg mem : Engine (List Event) ticks maxOrders .byId) cmds) :
    let e : Engine (List Event) ticks maxOrders .byId := play [] cfg mem cmds
    let e' : Engine (List Event) ticks' maxOrders' .byId :=
      play [] cfg mem' (cmds.map ρ.command)
    (maxOrders' = maxOrders ∨ ∀ ev ∈ e.pub, ev.kind ≠ .reject) →
      e'.pub = e.pub.map ρ.event ∧
      (∀ s, ∀ p < ticks, e'.recordsAt (ρ.side s) (ρ.price p) = (e.recordsAt s p).map ρ.order) ∧
      ∀ s q, (∀ p < ticks, ρ.price p ≠ q) → e'.recordsAt s q = [] := by
  intro e e' hroom
  have hcap₁ : maxOrders * cfg.maxOrderQty.toNat < 2 ^ 64 :=
    (Nat.mul_le_mul_right _ hle).trans_lt hcap
  have hok := permitted cfg mem hc ht hcap₁ hdom hfresh
  obtain ⟨hbook, htape⟩ := play_market cfg mem hc ht hcap₁ hok
  have hroom' : Relabelling.Carries.Room (rulesOf cfg ticks maxOrders) maxOrders'
      (Market.play (rulesOf cfg ticks maxOrders) cmds).2 := by
    refine hroom.imp_right fun hno => ⟨hle, fun ev hev => ?_⟩
    rw [← (play_shows cfg mem hc ht hcap₁ hok).published] at hev
    obtain ⟨ev', hev', rfl⟩ := List.mem_map.mp hev
    rw [Event.kind_unstamped]
    exact hno ev' hev'
  obtain ⟨hok', hcarry, hnews⟩ :=
    ρ.play_carries (R := rulesOf cfg ticks maxOrders) hc hle ht ht' hcap hok hroom'
  obtain ⟨hbook', htape'⟩ := play_market cfg mem' (hc.trans_le hle) ht' hcap hok'
  refine ⟨?_, fun s p hp => ?_, fun s q hq => ?_⟩
  · calc e'.pub
      _ = stampAll cfg.seqBase (Market.play
          ((rulesOf cfg ticks maxOrders).on ticks' maxOrders') (cmds.map ρ.command)).2 := htape'
      _ = stampAll cfg.seqBase ((Market.play (rulesOf cfg ticks maxOrders) cmds).2.map ρ.event) :=
        congrArg (stampAll cfg.seqBase) hnews
      _ = (stampAll cfg.seqBase (Market.play (rulesOf cfg ticks maxOrders) cmds).2).map ρ.event :=
        Relabelling.stampAll_event _ _
      _ = e.pub.map ρ.event := congrArg (List.map ρ.event) htape.symm
  · calc e'.recordsAt (ρ.side s) (ρ.price p)
      _ = (Market.play ((rulesOf cfg ticks maxOrders).on ticks' maxOrders')
          (cmds.map ρ.command)).1 (ρ.side s) (ρ.price p) := congrFun (congrFun hbook' _) _
      _ = ((Market.play (rulesOf cfg ticks maxOrders) cmds).1 s p).map ρ.order :=
        hcarry.at_price s p hp
      _ = (e.recordsAt s p).map ρ.order := by rw [← hbook]
  · exact (congrFun (congrFun hbook' s) q).trans (hcarry.elsewhere s q hq)

/-- A sale through two bids and a modify, and the purchase it is the mirror image of. -/
theorem play_relabelled_mirror :
    let cmds : List Command := [.submit ⟨1, 3, 5, .bid, .gtc, 0⟩, .submit ⟨2, 2, 4, .bid, .gtc, 0⟩,
      .submit ⟨3, 2, 7, .ask, .gtc, 0⟩, .modify { id := 2, newPx := 4, newQty := 6 }]
    let e : Engine (List Event) 8 4 .byId := play [] {} .zeroed cmds
    let e' : Engine (List Event) 8 4 .byId :=
      play [] {} .zeroed (cmds.map (Relabelling.mirror 8).command)
    e.recordsAt .bid 4 = [⟨2, 6, 4, .bid, .gtc, 0⟩] ∧
      e'.recordsAt .ask 3 = [⟨2, 6, 3, .ask, .gtc, 0⟩] ∧
      e'.pub = e.pub.map (Relabelling.mirror 8).event := by
  have h := play_relabelled (Relabelling.mirror 8) {} .zeroed .zeroed (by decide) (le_refl 4)
    (by decide) (by decide) (by decide)
    [.submit ⟨1, 3, 5, .bid, .gtc, 0⟩, .submit ⟨2, 2, 4, .bid, .gtc, 0⟩,
      .submit ⟨3, 2, 7, .ask, .gtc, 0⟩, .modify { id := 2, newPx := 4, newQty := 6 }] (by decide)
    (by decide : Along apply Fresh (new [] {} .zeroed : Engine (List Event) 8 4 .byId) _)
    (.inl rfl)
  have hbid : (play [] {} .zeroed [.submit ⟨1, 3, 5, .bid, .gtc, 0⟩,
      .submit ⟨2, 2, 4, .bid, .gtc, 0⟩, .submit ⟨3, 2, 7, .ask, .gtc, 0⟩,
      .modify { id := 2, newPx := 4, newQty := 6 }] :
        Engine (List Event) 8 4 .byId).recordsAt .bid 4 = [⟨2, 6, 4, .bid, .gtc, 0⟩] := by decide
  have hask := h.2.1 .bid 4 (by decide)
  rw [hbid] at hask
  exact ⟨hbid, hask, h.1⟩

end Engine
end Orderbooks
