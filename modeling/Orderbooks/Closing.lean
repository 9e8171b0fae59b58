import Orderbooks.Settlement
import Orderbooks.Invariants

/-!
# What a submission comes to

The makers in reach meet the fates that settling gives them, and what is left of the
aggressor rests, is rejected or is gone. This says what becomes of every record of the
book, and what the events add up to.
-/
namespace Orderbooks

/-! ## Tallies of events -/

/-- The quantity that the aggressor `id` is said to have filled. -/
def Event.filled (id : UInt64) : Event → ℕ
  | .fill m => if m.taker = id then m.qty.toNat else 0
  | _ => 0

/-- The quantity that the aggressor `id` is said to have traded with its own account. -/
def Event.selfTraded (id : UInt64) : Event → ℕ
  | .selfTrade m => if m.aggressor = id then m.qty.toNat else 0
  | _ => 0

/-- The quantity of `id` that is said to have been turned away. -/
def Event.rejected (id : UInt64) : Event → ℕ
  | .reject m => if m.id = id then m.qty.toNat else 0
  | _ => 0

/-- The quantity that is said to have been taken of the maker `id`. -/
def Event.takenFrom (id : UInt64) : Event → ℕ
  | .fill m => if m.maker = id then m.qty.toNat else 0
  | .selfTrade m => if m.resting = id then m.qty.toNat else 0
  | _ => 0

def tally (f : Event → ℕ) (evs : List Event) : ℕ := (evs.map f).sum

@[simp] theorem tally_nil (f : Event → ℕ) : tally f [] = 0 := rfl

@[simp] theorem tally_cons (f : Event → ℕ) (ev : Event) (evs : List Event) :
    tally f (ev :: evs) = f ev + tally f evs := by
  simp [tally]

@[simp] theorem tally_append (f : Event → ℕ) (evs evs' : List Event) :
    tally f (evs ++ evs') = tally f evs + tally f evs' := by
  simp [tally]

theorem tally_eq_zero {f : Event → ℕ} {evs : List Event} (h : ∀ ev ∈ evs, f ev = 0) :
    tally f evs = 0 := by
  unfold tally
  rw [List.sum_eq_zero_iff]
  simpa using h

/-- Every fill is followed at once by its trade. -/
def Paired (evs : List Event) : Prop :=
  ∀ i f, evs[i]? = some (.fill f) → evs[i + 1]? = some (.trade ⟨f.px, f.qty, f.seq⟩)

theorem Paired.append {evs tail : List Event} (h : Paired evs)
    (ht : ∀ ev ∈ tail, ∀ f, ev ≠ .fill f) : Paired (evs ++ tail) := by
  intro i f hi
  by_cases hlt : i < evs.length
  · rw [List.getElem?_append_left hlt] at hi
    have hnext := h i f hi
    have hlt' : i + 1 < evs.length := (List.getElem?_eq_some_iff.mp hnext).1
    rwa [List.getElem?_append_left hlt']
  · rw [List.getElem?_append_right (not_lt.mp hlt)] at hi
    exact absurd rfl (ht _ (List.mem_of_getElem? hi) f)

/-! ## What settling comes to -/

/-- What the aggressor takes of all the makers. -/
def taken (fates : List (Order × Fate)) : ℕ := (fates.map fun a => a.2.taken.toNat).sum

@[simp] theorem taken_nil : taken [] = 0 := rfl

@[simp] theorem taken_cons (a : Order × Fate) (fates : List (Order × Fate)) :
    taken (a :: fates) = a.2.taken.toNat + taken fates := by
  simp [taken]

theorem taken_untouched (os : List Order) : taken (untouched os) = 0 := by
  induction os with
  | nil => rfl
  | cons o os ih =>
      change taken ((o, .kept) :: untouched os) = 0
      rw [taken_cons, ih]
      rfl

theorem makers_untouched (os : List Order) : (untouched os).map Prod.fst = os := by
  simp [untouched, Function.comp_def]

/-- What the policy allows to become of a maker. -/
def Fate.Allowed (pol : SelfCrossPolicy) (acct : UInt32) (o : Order) : Fate → Prop
  | .kept => True
  | .filled _ => ¬o.OwnOf acct
  | .selfTraded _ => pol = .decrementTrade ∧ o.OwnOf acct
  | .expired => pol = .cancelOldest ∧ o.OwnOf acct

/-- What an outcome keeps to, whether the makers were swept or left alone. -/
structure Outcome.Lawful (pol : SelfCrossPolicy) (acct : UInt32) (os : List Order) (rem : UInt64)
    (k : Outcome) : Prop where
  makers : k.fates.map Prod.fst = os
  bounded : ∀ a ∈ k.fates, a.2.taken ≤ a.1.remaining
  allowed : ∀ a ∈ k.fates, a.2.Allowed pol acct a.1
  complete : taken k.fates + k.left.toNat = rem.toNat ∨
    (taken k.fates < rem.toNat ∧ k.left = 0 ∧ pol = .cancelNewest ∧
      ∃ o, (survivors k.fates).head? = some o ∧ o.OwnOf acct)

variable {pol : SelfCrossPolicy} {acct : UInt32} {os : List Order} {rem : UInt64} {m : SubmitMsg}
  {fates : List (Order × Fate)} {o : Order}

theorem Outcome.Lawful.untouched (pol : SelfCrossPolicy) (acct : UInt32) (os : List Order)
    (rem : UInt64) : Outcome.Lawful pol acct os rem ⟨Orderbooks.untouched os, rem, false⟩ where
  makers := makers_untouched os
  bounded a ha := by
    obtain ⟨o, _, rfl⟩ := List.mem_map.mp ha
    exact UInt64.zero_le
  allowed a ha := by
    obtain ⟨o, _, rfl⟩ := List.mem_map.mp ha
    trivial
  complete := .inl (by simp [taken_untouched])

/-- A maker is traded with, and the rest is settled. -/
theorem Outcome.Lawful.trade {k : Outcome} (hpol : o.OwnOf acct → pol = .decrementTrade)
    (h : k.Lawful pol acct os (rem - min rem o.remaining)) :
    (k.cons (o, .traded acct o (min rem o.remaining))).Lawful pol acct (o :: os) rem := by
  have hsplit : (min rem o.remaining).toNat + (rem - min rem o.remaining).toNat = rem.toNat := by
    have := PriorityBook.toNat_sub_min rem o.remaining
    rw [PriorityBook.toNat_min]
    omega
  refine ⟨congrArg (o :: ·) h.makers, fun a ha => ?_, fun a ha => ?_, ?_⟩
  · rcases List.mem_cons.mp ha with rfl | ha
    · rw [Fate.taken_traded]
      rw [UInt64.le_iff_toNat_le, PriorityBook.toNat_min]
      exact Nat.min_le_right _ _
    · exact h.bounded a ha
  · rcases List.mem_cons.mp ha with rfl | ha
    · unfold Fate.traded
      split_ifs with hown
      · exact ⟨hpol hown, hown⟩
      · exact hown
    · exact h.allowed a ha
  · change taken ((o, .traded acct o _) :: k.fates) + _ = _ ∨ _
    rw [taken_cons, Fate.taken_traded]
    rcases h.complete with hall | ⟨hlt, hleft, hpol, o', hhead, hown⟩
    · left
      change _ + k.left.toNat = _
      omega
    · -- the aggressor went on, so the maker was used up
      right
      have hgone : (Fate.traded acct o (min rem o.remaining)).after o = none := by
        rw [Fate.after_traded]
        refine if_pos ?_
        rw [← UInt64.toNat_inj, (PriorityBook.toNat_sub_min rem o.remaining).2]
        have := (PriorityBook.toNat_sub_min rem o.remaining).1
        change _ = 0
        omega
      refine ⟨?_, hleft, hpol, o', ?_, hown⟩
      · change taken ((o, .traded acct o _) :: k.fates) < _
        rw [taken_cons, Fate.taken_traded]
        omega
      · change (survivors ((o, .traded acct o _) :: k.fates)).head? = _
        unfold survivors
        rw [List.filterMap_cons, hgone]
        exact hhead

theorem settle_lawful (pol : SelfCrossPolicy) (acct : UInt32) (os : List Order) (rem : UInt64) :
    (settle pol acct os rem).Lawful pol acct os rem := by
  induction os generalizing rem with
  | nil => exact .untouched pol acct [] rem
  | cons o os ih =>
      by_cases hrem : rem = 0
      · rw [hrem, settle_zero]
        exact .untouched pol acct (o :: os) 0
      by_cases htrade : o.OwnOf acct → pol = .decrementTrade
      · rw [settle_trade os hrem htrade]
        exact (ih _).trade htrade
      obtain ⟨hown, hpol⟩ := Classical.not_imp.mp htrade
      cases pol with
      | decrementTrade => exact absurd rfl hpol
      | cancelNewest =>
          rw [settle_abort os hrem hown]
          obtain ⟨hmakers, hbounded, hallowed, _⟩ :=
            Outcome.Lawful.untouched .cancelNewest acct (o :: os) 0
          refine ⟨hmakers, hbounded, hallowed, .inr ⟨?_, rfl, rfl, o, ?_, hown⟩⟩
          · rw [taken_untouched]
            exact Nat.pos_of_ne_zero fun h => hrem (UInt64.toNat_inj.mp h)
          · rw [survivors_untouched, List.head?_cons]
      | cancelOldest =>
          rw [settle_expire os hrem hown]
          obtain ⟨hmakers, hbounded, hallowed, hcomplete⟩ := ih rem
          refine ⟨congrArg (o :: ·) hmakers, fun a ha => ?_, fun a ha => ?_, ?_⟩
          · rcases List.mem_cons.mp ha with rfl | ha
            · exact UInt64.zero_le
            · exact hbounded a ha
          · rcases List.mem_cons.mp ha with rfl | ha
            · exact ⟨rfl, hown⟩
            · exact hallowed a ha
          · rcases hcomplete with hall | ⟨_, _, hpol, _⟩
            · left
              change taken ((o, .expired) :: (settle .cancelOldest acct os rem).fates) + _ = _
              rw [taken_cons]
              simpa [Fate.taken, Outcome.cons] using hall
            · exact absurd hpol (by simp)

/-! ## What settling publishes -/

theorem tally_notices (m : SubmitMsg) (seq : UInt64) (fates : List (Order × Fate)) :
    tally (Event.filled m.id) (notices m seq fates) +
      tally (Event.selfTraded m.id) (notices m seq fates) = taken fates := by
  induction fates generalizing seq with
  | nil => rfl
  | cons a fates ih =>
      obtain ⟨o, f⟩ := a
      cases f with
      | kept => simpa [notices, Fate.taken] using ih seq
      | expired => simpa [notices, Fate.taken] using ih seq
      | filled qty =>
          have := ih (seq + 1)
          simp [notices, Event.filled, Event.selfTraded, Fate.taken]
          omega
      | selfTraded qty =>
          have := ih (seq + 1)
          simp [notices, Event.filled, Event.selfTraded, Fate.taken]
          omega

theorem tally_rejected_notices (id : UInt64) (m : SubmitMsg) (seq : UInt64)
    (fates : List (Order × Fate)) : tally (Event.rejected id) (notices m seq fates) = 0 := by
  induction fates generalizing seq with
  | nil => rfl
  | cons a fates ih =>
      obtain ⟨o, f⟩ := a
      cases f <;> simp [notices, Event.rejected, ih]

theorem paired_notices (m : SubmitMsg) (seq : UInt64) (fates : List (Order × Fate)) :
    Paired (notices m seq fates) := by
  induction fates generalizing seq with
  | nil =>
      intro i f hi
      simp [notices] at hi
  | cons a fates ih =>
      obtain ⟨o, f⟩ := a
      cases f with
      | kept => exact ih seq
      | expired => exact ih seq
      | selfTraded qty =>
          intro i f hi
          cases i with
          | zero => simp [notices] at hi
          | succ i => exact ih (seq + 1) i f hi
      | filled qty =>
          intro i f hi
          cases i with
          | zero =>
              obtain rfl := by simpa [notices] using hi
              rfl
          | succ i =>
              cases i with
              | zero => simp [notices] at hi
              | succ i => exact ih (seq + 1) i f hi

/-- The fate of one maker. -/
def fateOf : List (Order × Fate) → Order → Fate
  | [], _ => .kept
  | (o', f) :: rest, o => if o = o' then f else fateOf rest o

theorem fateOf_of_notMem (h : o ∉ fates.map Prod.fst) : fateOf fates o = .kept := by
  induction fates with
  | nil => rfl
  | cons a fates ih =>
      rw [List.map_cons, List.mem_cons, not_or] at h
      exact (if_neg h.1).trans (ih h.2)

theorem fateOf_mem (h : o ∈ fates.map Prod.fst) : (o, fateOf fates o) ∈ fates := by
  induction fates with
  | nil => simp at h
  | cons a fates ih =>
      obtain ⟨o', f⟩ := a
      by_cases heq : o = o'
      · rw [show fateOf ((o', f) :: fates) o = f from if_pos heq, heq]
        exact List.mem_cons_self
      · rw [show fateOf ((o', f) :: fates) o = fateOf fates o from if_neg heq]
        refine List.mem_cons_of_mem _ (ih ?_)
        rw [List.map_cons, List.mem_cons] at h
        exact h.resolve_left heq

theorem fateOf_eq_of_mem {f : Fate} (hnodup : (fates.map Prod.fst).Nodup) (h : (o, f) ∈ fates) :
    fateOf fates o = f := by
  have hmem := fateOf_mem (List.mem_map_of_mem (f := Prod.fst) h)
  exact (Prod.mk.inj (List.inj_on_of_nodup_map hnodup hmem h rfl)).2

/-- A maker that stays keeps all but its quantity. -/
theorem Fate.after_eq_some {f : Fate} {o' : Order} (h : f.after o = some o') :
    o' = { o with remaining := o'.remaining } := by
  have hless : ∀ qty, o.less qty = some o' → o' = { o with remaining := o'.remaining } := by
    intro qty hqty
    unfold Order.less at hqty
    split_ifs at hqty
    obtain rfl := Option.some.inj hqty
    rfl
  cases f with
  | kept =>
      obtain rfl := Option.some.inj h
      rfl
  | filled qty => exact hless qty h
  | selfTraded qty => exact hless qty h
  | expired => simp [Fate.after] at h

/-- A filter that does not see the change can be applied before it. -/
theorem filter_filterMap_of_stable {after : Order → Option Order} {q : Order → Bool}
    (h : ∀ o o', after o = some o' → q o' = q o) (os : List Order) :
    (os.filterMap after).filter q = (os.filter q).filterMap after := by
  induction os with
  | nil => rfl
  | cons o os ih =>
      cases ha : after o with
      | none =>
          rw [List.filterMap_cons_none ha, ih, List.filter_cons]
          split_ifs
          · rw [List.filterMap_cons_none ha]
          · rfl
      | some o' =>
          rw [List.filterMap_cons_some ha, List.filter_cons, List.filter_cons, h o o' ha, ih]
          split_ifs
          · rw [List.filterMap_cons_some ha]
          · rfl

theorem survivors_eq (hnodup : (fates.map Prod.fst).Nodup) :
    survivors fates = (fates.map Prod.fst).filterMap fun o => (fateOf fates o).after o := by
  induction fates with
  | nil => rfl
  | cons a fates ih =>
      obtain ⟨o', f⟩ := a
      rw [List.map_cons, List.nodup_cons] at hnodup
      have hrest : (fates.map Prod.fst).filterMap
          (fun o => (fateOf ((o', f) :: fates) o).after o) =
          (fates.map Prod.fst).filterMap fun o => (fateOf fates o).after o := by
        refine List.filterMap_congr fun o ho => ?_
        rw [show fateOf ((o', f) :: fates) o = fateOf fates o from
          if_neg fun (h : o = o') => hnodup.1 (h ▸ ho)]
      have hself : fateOf ((o', f) :: fates) o' = f := if_pos rfl
      unfold survivors at ih ⊢
      rw [List.map_cons, List.filterMap_cons, List.filterMap_cons, hrest, hself, ← ih hnodup.2]

/-- The events name a maker for exactly what was taken of it. -/
theorem tally_takenFrom (m : SubmitMsg) (seq : UInt64) (hnodup : (fates.map Prod.fst).Nodup)
    (hid : ∀ o' ∈ fates.map Prod.fst, o'.id = o.id → o' = o) :
    tally (Event.takenFrom o.id) (notices m seq fates) = (fateOf fates o).taken.toNat := by
  induction fates generalizing seq with
  | nil => rfl
  | cons a fates ih =>
      obtain ⟨o', f⟩ := a
      rw [List.map_cons, List.nodup_cons] at hnodup
      have ih : ∀ seq, _ = _ := fun seq =>
        ih seq hnodup.2 fun o'' ho'' => hid o'' (List.mem_cons_of_mem _ ho'')
      by_cases heq : o = o'
      · -- nothing else has this id
        subst heq
        have hrest : fateOf fates o = .kept := fateOf_of_notMem hnodup.1
        rw [show fateOf ((o, f) :: fates) o = f from if_pos rfl]
        rw [hrest] at ih
        cases f <;> simp [notices, Event.takenFrom, ih, Fate.taken]
      · have hne : o'.id ≠ o.id := fun h => heq (hid o' List.mem_cons_self h).symm
        rw [show fateOf ((o', f) :: fates) o = fateOf fates o from if_neg heq]
        cases f <;> simp [notices, Event.takenFrom, ih, hne]

/-! ## The makers in reach, level by level -/

namespace Queues

variable {ticks : ℕ} {d : Queues ticks}

theorem WellFormed.ordersAt_place (hd : d.WellFormed) {s : Side} {p : ℕ} (ho : o ∈ d.ordersAt s p) :
    o.s = s ∧ o.px = p ∧ p < ticks := by
  obtain ⟨u, hu, rfl⟩ := List.mem_map.mp ho
  exact hd.placed s p u hu

/-- One record to an id. -/
theorem Exact.ordersAt_inj (hx : d.Exact) (hd : d.WellFormed) {s t : Side} {p r : ℕ} {o o' : Order}
    (ho : o ∈ d.ordersAt s p) (ho' : o' ∈ d.ordersAt t r) (hid : o.id = o'.id) : o = o' := by
  obtain ⟨u, hu, rfl⟩ := List.mem_map.mp ho
  obtain ⟨v, hv, rfl⟩ := List.mem_map.mp ho'
  rw [hx.injective (hd.linked hu) (hd.linked hv) hid]

theorem Exact.crossing_nodup (hx : d.Exact) (hd : d.WellFormed) (m : SubmitMsg) :
    (d.crossing m).Nodup := by
  refine List.nodup_flatMap.mpr ⟨fun p _ => ?_, ?_⟩
  · refine (hd.nodup _ p).map_on fun u hu v hv heq => ?_
    exact hx.injective (hd.linked hu) (hd.linked hv) (congrArg Order.id heq)
  · refine ((m.s.opposite.nodup_priority ticks).filter _).imp fun {p r} hne => ?_
    intro o hp hr
    exact hne ((hd.ordersAt_place hp).2.1.symm.trans (hd.ordersAt_place hr).2.1)

theorem mem_crossing (hd : d.WellFormed) :
    o ∈ d.crossing m ↔ o ∈ d.ordersAt m.s.opposite o.px ∧ m.s.crosses m.px o.px = true := by
  unfold crossing
  rw [List.mem_flatMap]
  constructor
  · rintro ⟨p, hp, ho⟩
    rw [(hd.ordersAt_place ho).2.1]
    exact ⟨ho, (List.mem_filter.mp hp).2⟩
  · rintro ⟨ho, hcross⟩
    have hlt := (hd.ordersAt_place ho).2.2
    exact ⟨o.px, List.mem_filter.mpr ⟨(m.s.opposite.mem_priority).mpr hlt, hcross⟩, ho⟩

/-- The makers at one price, in their order. -/
theorem crossing_filter (hd : d.WellFormed) {p : ℕ} (hcross : m.s.crosses m.px p = true) :
    (d.crossing m).filter (·.px = p) = d.ordersAt m.s.opposite p := by
  have hlevel : ∀ r, (d.ordersAt m.s.opposite r).filter (·.px = p) =
      if r = p then d.ordersAt m.s.opposite p else [] := by
    intro r
    split_ifs with hr
    · rw [hr, List.filter_eq_self]
      intro o ho
      simpa using (hd.ordersAt_place ho).2.1
    · rw [List.filter_eq_nil_iff]
      intro o ho
      simpa [(hd.ordersAt_place ho).2.1] using hr
  by_cases hp : p < ticks
  · have hmem : p ∈ (m.s.opposite.priority ticks).filter (m.s.crosses m.px) :=
      List.mem_filter.mpr ⟨(m.s.opposite.mem_priority).mpr hp, hcross⟩
    have hnodup := (m.s.opposite.nodup_priority ticks).filter (m.s.crosses m.px)
    obtain ⟨ahead, behind, hsplit⟩ := List.append_of_mem hmem
    have hne : ∀ r, r ∈ ahead ∨ r ∈ behind → r ≠ p := by
      rw [hsplit, List.nodup_middle, List.nodup_cons, List.mem_append] at hnodup
      rintro r hr rfl
      exact hnodup.1 hr
    unfold crossing
    rw [List.filter_flatMap, hsplit, List.flatMap_append, List.flatMap_cons, hlevel, if_pos rfl,
      List.flatMap_eq_nil_iff.mpr fun r hr => (hlevel r).trans (if_neg (hne r (.inl hr))),
      List.flatMap_eq_nil_iff.mpr fun r hr => (hlevel r).trans (if_neg (hne r (.inr hr))),
      List.nil_append, List.append_nil]
  · have hnil : d.ordersAt m.s.opposite p = [] :=
      List.eq_nil_iff_forall_not_mem.mpr fun o ho => hp (hd.ordersAt_place ho).2.2
    rw [hnil, List.filter_eq_nil_iff]
    intro o ho
    have hplace := (mem_crossing hd).mp ho
    simp only [decide_eq_true_eq]
    rintro rfl
    exact hp (hd.ordersAt_place hplace.1).2.2

end Queues

/-! ## What a submission comes to -/

/-- Where the quantity goes that the makers did not take. -/
inductive Remainder where
  | gone
  | rests (qty : UInt64)
  | rejected (qty : UInt64)
  deriving DecidableEq, Repr

namespace Remainder

def records (m : SubmitMsg) : Remainder → List Order
  | .rests qty => [⟨m.id, qty, m.px, m.s, m.t, m.accountId⟩]
  | _ => []

/-- What remains is `left`, and only an order that is not to rest may lose it. -/
def Of (m : SubmitMsg) (left : UInt64) : Remainder → Prop
  | .gone => left = 0 ∨ m.t ≠ .gtc
  | .rests qty => qty = left ∧ left ≠ 0 ∧ m.t = .gtc
  | .rejected qty => qty = left ∧ left ≠ 0 ∧ m.t = .gtc

/-- What is published of it, which may be followed by a top of book. -/
def Announced (m : SubmitMsg) (evs : List Event) (r : Remainder) : Prop :=
  ∃ told tops, evs = told ++ tops ∧ (∀ ev ∈ tops, ∃ top, ev = .top top) ∧
    match r with
    | .rejected qty => ∃ seq, told = [.reject ⟨m.id, m.accountId, m.px, qty, .arenaFull, seq⟩]
    | _ => told = []

theorem Of.eq_gone {left : UInt64} {r : Remainder} (h : r.Of m left)
    (hz : left = 0 ∨ m.t ≠ .gtc) : r = .gone := by
  cases r with
  | gone => rfl
  | rests qty => exact absurd hz (not_or.mpr ⟨h.2.1, fun hne => hne h.2.2⟩)
  | rejected qty => exact absurd hz (not_or.mpr ⟨h.2.1, fun hne => hne h.2.2⟩)

/-- The quantity that is not lost. -/
def qty : Remainder → ℕ
  | .gone => 0
  | .rests qty => qty.toNat
  | .rejected qty => qty.toNat

variable {r : Remainder} {tail : List Event}

/-- What is published of the remainder trades nothing. -/
theorem Announced.parties (h : r.Announced m tail) {ev : Event} (hev : ev ∈ tail) :
    ev.parties = none ∧ ∀ f, ev ≠ .fill f := by
  obtain ⟨told, tops, rfl, htops, htold⟩ := h
  rcases List.mem_append.mp hev with hev | hev
  · cases r with
    | gone => simp [htold] at hev
    | rests qty => simp [htold] at hev
    | rejected qty =>
        obtain ⟨seq, rfl⟩ := htold
        rw [List.mem_singleton.mp hev]
        exact ⟨rfl, by simp⟩
  · obtain ⟨top, rfl⟩ := htops ev hev
    exact ⟨rfl, by simp⟩

/-- What rests and what is rejected is the remainder. -/
theorem Announced.rejected (h : r.Announced m tail) :
    ((r.records m).map fun o => o.remaining.toNat).sum + tally (Event.rejected m.id) tail =
      r.qty := by
  obtain ⟨told, tops, rfl, htops, htold⟩ := h
  have hzero : tally (Event.rejected m.id) tops = 0 := by
    refine tally_eq_zero fun ev hev => ?_
    obtain ⟨top, rfl⟩ := htops ev hev
    rfl
  rw [tally_append, hzero, Nat.add_zero]
  cases r with
  | gone => simp [htold, records, qty]
  | rests q => simp [htold, records, qty]
  | rejected q =>
      obtain ⟨seq, rfl⟩ := htold
      simp [records, qty, Event.rejected]

end Remainder

theorem Event.filled_of_parties {ev : Event} (h : ev.parties = none) (id : UInt64) :
    ev.filled id = 0 ∧ ev.selfTraded id = 0 ∧ ev.takenFrom id = 0 := by
  cases ev with
  | fill m => simp [Event.parties] at h
  | selfTrade m => simp [Event.parties] at h
  | top m => exact ⟨rfl, rfl, rfl⟩
  | trade m => exact ⟨rfl, rfl, rfl⟩
  | reject m => exact ⟨rfl, rfl, rfl⟩

namespace PriorityBook
open Queues

variable {ticks : ℕ} {b b' : PriorityBook ticks} {k : Outcome} {r : Remainder} {tail : List Event}

/-- The fill-or-kill order `m` finds too little. -/
def Killed (b : PriorityBook ticks) (m : SubmitMsg) : Prop :=
  m.t = .fok ∧ !b.canFullyFill m.s.opposite m.px m.qty m.accountId

/-- A submission of `m` takes `b` to `b'`: the makers in reach meet their fates, what is
left goes where `r` says, and the rest of the book is as it was. -/
structure Closes (m : SubmitMsg) (b b' : PriorityBook ticks) (k : Outcome) (r : Remainder)
    (tail : List Event) : Prop where
  outcome : (¬b.Killed m ∧ k = settle b.selfCross m.accountId (b.queues.crossing m) m.qty) ∨
    (b.Killed m ∧ k = ⟨untouched (b.queues.crossing m), m.qty, false⟩)
  remainder : r.Of m k.left
  makers : b'.queues.crossing m = survivors k.fates
  others : ∀ t p, ¬(t = m.s.opposite ∧ m.s.crosses m.px p = true) →
    b'.queues.ordersAt t p =
      b.queues.ordersAt t p ++ if t = m.s ∧ p = m.px then r.records m else []
  log : b'.log = b.log ++ notices m b.state.seq k.fates ++ tail
  announced : r.Announced m tail

theorem Closes.lawful (h : Closes m b b' k r tail) :
    k.Lawful b.selfCross m.accountId (b.queues.crossing m) m.qty := by
  rcases h.outcome with ⟨_, rfl⟩ | ⟨_, rfl⟩
  · exact settle_lawful _ _ _ _
  · exact .untouched _ _ _ _

theorem publishTopIfChanged_log :
    ∃ tops, b.publishTopIfChanged.log = b.log ++ tops ∧ ∀ ev ∈ tops, ∃ top, ev = .top top := by
  unfold publishTopIfChanged
  dsimp only
  split
  · exact ⟨[], by simp, by simp⟩
  · exact ⟨[_], rfl, by simp⟩

/-- A top of book is published behind all else. -/
theorem Closes.publishTop (h : Closes m b b' k r tail) :
    ∃ tail', Closes m b b'.publishTopIfChanged k r tail' := by
  obtain ⟨tops, hlog, htops⟩ := b'.publishTopIfChanged_log
  obtain ⟨told, tops', rfl, htops', htold⟩ := h.announced
  refine ⟨told ++ tops' ++ tops, h.outcome, h.remainder, ?_, fun t p hp => ?_, ?_, ?_⟩
  · rw [publishTopIfChanged_queues]
    exact h.makers
  · rw [publishTopIfChanged_queues]
    exact h.others t p hp
  · rw [hlog, h.log]
    simp
  · refine ⟨told, tops' ++ tops, by simp, fun ev hev => ?_, htold⟩
    rcases List.mem_append.mp hev with hev | hev
    · exact htops' ev hev
    · exact htops ev hev

/-- The records once an order rests. -/
theorem ordersAt_rest {d : Queues ticks} (hd : d.WellFormed) (m : SubmitMsg) (qty : UInt64)
    (t : Side) (p : ℕ) : (d.rest m qty).ordersAt t p =
      d.ordersAt t p ++ if t = m.s ∧ p = m.px then Remainder.records m (.rests qty) else [] := by
  have hold : (d.levels t p).map (d.rest m qty).orders = d.ordersAt t p := by
    refine List.map_congr_left fun u hu => ?_
    rw [rest_orders, Function.update_of_ne]
    rintro rfl
    exact hd.next_notMem t p hu
  unfold ordersAt at hold ⊢
  rw [rest_levels]
  split_ifs with hp
  · rw [List.map_append, hold, List.map_singleton, rest_orders, Function.update_self]
    rfl
  · rw [hold, List.append_nil]

theorem Closes.of_killed (h : b.Killed m) :
    Closes m b b ⟨untouched (b.queues.crossing m), m.qty, false⟩ .gone [] where
  outcome := .inr ⟨h, rfl⟩
  remainder := .inr (by simp [h.1])
  makers := (survivors_untouched _).symm
  others t p _ := by simp [Remainder.records]
  log := by simp [notices_untouched]
  announced := ⟨[], [], rfl, by simp, rfl⟩

section Swept

variable (hd : b.queues.WellFormed) (hkill : ¬b.Killed m)
include hd hkill

theorem Closes.of_sweep (h : (sweep m b m.qty).remaining = 0 ∨ m.t ≠ .gtc) :
    Closes m b (sweep m b m.qty).book
      (settle b.selfCross m.accountId (b.queues.crossing m) m.qty) .gone [] := by
  obtain ⟨hleft, _, hmakers, hlog, hothers⟩ := sweep_settledBy (m := m) hd m.qty
  refine ⟨.inl ⟨hkill, rfl⟩, hleft ▸ h, hmakers, fun t p hp => ?_, ?_, [], [], rfl, by simp, rfl⟩
  · simp [hothers t p hp, Remainder.records]
  · simp [hlog]

theorem Closes.of_rest (hrem : (sweep m b m.qty).remaining ≠ 0) (ht : m.t = .gtc) :
    ∃ r tail, Closes m b ((sweep m b m.qty).book.rest m (sweep m b m.qty).remaining)
      (settle b.selfCross m.accountId (b.queues.crossing m) m.qty) r tail := by
  obtain ⟨hleft, _, hmakers, hlog, hothers⟩ := sweep_settledBy (m := m) hd m.qty
  obtain ⟨_, _, _, hwf, _⟩ := sweep_effect m m.qty hd
  by_cases hfull : (sweep m b m.qty).book.capacity ≤ (sweep m b m.qty).book.queues.live
  · -- there is no slot
    refine ⟨.rejected (sweep m b m.qty).remaining, _, .inl ⟨hkill, rfl⟩,
      ⟨hleft, hleft ▸ hrem, ht⟩, ?_, fun t p hp => ?_, ?_,
      ⟨_, [], (List.append_nil _).symm, by simp, (sweep m b m.qty).book.state.seq + 1, rfl⟩⟩
    all_goals
      unfold rest
      rw [if_pos hfull]
    · exact hmakers
    · simp only [Remainder.records, ite_self, List.append_nil]
      exact hothers t p hp
    · change (sweep m b m.qty).book.log ++ [_] = _
      rw [hlog]
      rfl
  · refine ⟨.rests (sweep m b m.qty).remaining, [], .inl ⟨hkill, rfl⟩, ⟨hleft, hleft ▸ hrem, ht⟩,
      ?_, fun t p hp => ?_, ?_, ⟨[], [], rfl, by simp, rfl⟩⟩
    · rw [rest_queues hfull, ← hmakers]
      refine crossing_congr fun p _ => ?_
      rw [ordersAt_rest hwf, if_neg fun h => m.s.opposite_ne h.1, List.append_nil]
    · rw [rest_queues hfull, ordersAt_rest hwf, hothers t p hp]
    · unfold rest
      rw [if_neg hfull]
      change (sweep m b m.qty).book.log = _
      rw [hlog, List.append_nil]

end Swept

theorem handleSubmit_closes (m : SubmitMsg) (hd : b.queues.WellFormed) :
    ∃ k r tail, Closes m b (b.handleSubmit m) k r tail := by
  by_cases hkill : b.Killed m
  · rw [show b.handleSubmit m = b from if_pos hkill]
    exact ⟨_, _, _, .of_killed hkill⟩
  · rw [show b.handleSubmit m = _ from if_neg hkill]
    dsimp only
    by_cases hrem : (sweep m b m.qty).remaining = 0
    · rw [if_pos hrem]
      exact ⟨_, _, _, .of_sweep hd hkill (.inl hrem)⟩
    · rw [if_neg hrem]
      cases ht : m.t with
      | ioc => exact ⟨_, _, _, .of_sweep hd hkill (.inr (by simp [ht]))⟩
      | fok => exact ⟨_, _, _, .of_sweep hd hkill (.inr (by simp [ht]))⟩
      | gtc => exact ⟨_, Closes.of_rest hd hkill hrem ht⟩

theorem onSubmit_closes (m : SubmitMsg) (hd : b.queues.WellFormed) :
    ∃ k r tail, Closes m b (b.onSubmit m) k r tail := by
  obtain ⟨k, r, tail, h⟩ := handleSubmit_closes m hd
  obtain ⟨tail', h'⟩ := h.publishTop
  exact ⟨k, r, tail', h'⟩

/-! ## What a command publishes -/

/-- Everything published from `b` to `b'` satisfies `Q`. -/
def Adds (Q : Event → Prop) (b b' : PriorityBook ticks) : Prop :=
  ∃ evs, b'.log = b.log ++ evs ∧ ∀ ev ∈ evs, Q ev

section Adds
variable {Q : Event → Prop}

theorem Adds.of_log_eq (h : b'.log = b.log) : Adds Q b b' := ⟨[], by simp [h], by simp⟩

theorem Adds.trans {b₁ : PriorityBook ticks} (h : Adds Q b b₁) (h' : Adds Q b₁ b') :
    Adds Q b b' := by
  obtain ⟨evs, hlog, hevs⟩ := h
  obtain ⟨evs', hlog', hevs'⟩ := h'
  refine ⟨evs ++ evs', by rw [hlog', hlog, List.append_assoc], fun ev hev => ?_⟩
  rcases List.mem_append.mp hev with hev | hev
  · exact hevs ev hev
  · exact hevs' ev hev

theorem Adds.unsuppress (h : Adds Q b b') : Adds Q b b'.unsuppress := h

variable (htop : ∀ top, Q (.top top))
include htop

theorem Adds.publishTop (h : Adds Q b b') : Adds Q b b'.publishTopIfChanged := by
  obtain ⟨tops, hlog, htops⟩ := publishTopIfChanged_log (b := b')
  refine h.trans ⟨tops, hlog, fun ev hev => ?_⟩
  obtain ⟨top, rfl⟩ := htops ev hev
  exact htop top

/-- Apart from the submission of a resubmit, a modify publishes tops. -/
theorem reprice_adds {u newPx : ℕ} {newQty : UInt64}
    (hsubmit : Adds Q (b.suppress.cancelAt u)
      ((b.suppress.cancelAt u).onSubmit (b.queues.asSubmit u newPx newQty))) :
    Adds Q b (b.reprice u newPx newQty) := by
  unfold reprice
  dsimp only
  split_ifs
  · exact .of_log_eq rfl
  · exact (Adds.of_log_eq rfl).publishTop htop
  · cases b.queues.best (b.order u).s.opposite with
    | none => exact (Adds.of_log_eq rfl).publishTop htop
    | some q =>
        dsimp only
        split_ifs
        · exact (Adds.of_log_eq rfl).publishTop htop
        · have hcancel : Adds Q b (b.suppress.cancelAt u) := (Adds.of_log_eq rfl).publishTop htop
          exact (hcancel.trans hsubmit).unsuppress.publishTop htop

theorem applyAt_adds {target : Option ℕ} {cmd : Command}
    (hsubmit : ∀ m, cmd = .submit m → Adds Q b (b.onSubmit m))
    (hmodify : ∀ u m, target = some u → cmd = .modify m →
      Adds Q ((b.onQueues (·.chained u m)).suppress.cancelAt u)
        (((b.onQueues (·.chained u m)).suppress.cancelAt u).onSubmit
          ((b.queues.chained u m).asSubmit u m.newPx m.newQty))) :
    Adds Q b (b.applyAt target cmd) := by
  cases cmd with
  | submit m => exact hsubmit m rfl
  | cancel m =>
      cases target with
      | none => exact .of_log_eq rfl
      | some u => exact (Adds.of_log_eq rfl).publishTop htop
  | modify m =>
      cases target with
      | none => exact .of_log_eq rfl
      | some u =>
          have hchain : b.modifyAt u m =
              (b.onQueues (·.chained u m)).reprice u m.newPx m.newQty := by
            unfold modifyAt Queues.chained
            split_ifs <;> rfl
          change Adds Q b (b.modifyAt u m)
          rw [hchain]
          have hlog : Adds Q b (b.onQueues (·.chained u m)) := .of_log_eq rfl
          exact hlog.trans (reprice_adds htop (hmodify u m rfl rfl))

end Adds

/-- The book after a submission: every record as its fate leaves it, and at the back of its
level what rests of the submission. -/
theorem Closes.ordersAt_eq (h : Closes m b b' k r tail) (hd : b.queues.WellFormed)
    (hd' : b'.queues.WellFormed) (hx : b.queues.Exact) (t : Side) (p : ℕ) :
    b'.queues.ordersAt t p =
      ((b.queues.ordersAt t p).filterMap fun o => (fateOf k.fates o).after o) ++
        if t = m.s ∧ p = m.px then r.records m else [] := by
  by_cases hp : t = m.s.opposite ∧ m.s.crosses m.px p = true
  · have hnodup : (k.fates.map Prod.fst).Nodup := by
      rw [h.lawful.makers]
      exact hx.crossing_nodup hd m
    rw [hp.1, if_neg fun h => m.s.opposite_ne h.1, List.append_nil, ← crossing_filter hd' hp.2,
      ← crossing_filter hd hp.2, h.makers, survivors_eq hnodup, h.lawful.makers]
    refine filter_filterMap_of_stable (fun o o' ho => ?_) _
    rw [Fate.after_eq_some ho]
  · have hkept : ∀ o ∈ b.queues.ordersAt t p, (fateOf k.fates o).after o = some o := by
      intro o ho
      obtain ⟨hs, hpx, _⟩ := hd.ordersAt_place ho
      rw [fateOf_of_notMem]
      · rfl
      · rw [h.lawful.makers, mem_crossing hd]
        rintro ⟨ho', hcross⟩
        exact hp ⟨hs.symm.trans (hd.ordersAt_place ho').1, hpx ▸ hcross⟩
    rw [h.others t p hp, List.filterMap_congr hkept, List.filterMap_some]

/-- A resting order is gone just when its fate says so. -/
theorem Closes.absent_iff (h : Closes m b b' k r tail) (hd : b.queues.WellFormed)
    (hd' : b'.queues.WellFormed) (hx : b.queues.Exact) (habs : b.queues.Absent m.id) {s : Side}
    {p : ℕ} {o : Order} (ho : o ∈ b.queues.ordersAt s p) :
    b'.queues.Absent o.id ↔ (fateOf k.fates o).after o = none := by
  constructor
  · intro hgone
    by_contra hsome
    obtain ⟨o', ho'⟩ := Option.ne_none_iff_exists'.mp hsome
    have hmem : o' ∈ b'.queues.ordersAt s p := by
      rw [h.ordersAt_eq hd hd' hx]
      exact List.mem_append_left _ (List.mem_filterMap.mpr ⟨o, ho, ho'⟩)
    obtain ⟨u, hu, rfl⟩ := List.mem_map.mp hmem
    refine hgone u (hd'.linked hu) ?_
    rw [Fate.after_eq_some ho']
  · intro hnone u hu hid
    have hmem : b'.order u ∈ b'.queues.ordersAt (b'.order u).s (b'.order u).px :=
      List.mem_map_of_mem hu
    rw [h.ordersAt_eq hd hd' hx] at hmem
    rcases List.mem_append.mp hmem with hmem | hmem
    · obtain ⟨o'', ho'', hafter⟩ := List.mem_filterMap.mp hmem
      have hsame : o''.id = o.id := by
        rw [← hid, show b'.queues.orders u = _ from Fate.after_eq_some hafter]
      rw [hx.ordersAt_inj hd ho'' ho hsame, hnone] at hafter
      simp at hafter
    · -- what rests of the submission has an id of its own
      obtain ⟨v, hv, rfl⟩ := List.mem_map.mp ho
      refine habs v (hd.linked hv) ?_
      rw [← hid]
      split_ifs at hmem
      · cases r with
        | gone => simp [Remainder.records] at hmem
        | rejected qty => simp [Remainder.records] at hmem
        | rests qty => rw [show b'.queues.orders u = _ from List.mem_singleton.mp hmem]
      · simp at hmem

/-- Nothing rests of a submission whose remainder is gone. -/
theorem Closes.absent_self (h : Closes m b b' k .gone tail) (hd : b.queues.WellFormed)
    (hd' : b'.queues.WellFormed) (hx : b.queues.Exact) (habs : b.queues.Absent m.id) :
    b'.queues.Absent m.id := by
  intro u hu
  have hmem : b'.order u ∈ b'.queues.ordersAt (b'.order u).s (b'.order u).px :=
    List.mem_map_of_mem hu
  rw [h.ordersAt_eq hd hd' hx, Remainder.records, ite_self, List.append_nil] at hmem
  · obtain ⟨o, ho, hafter⟩ := List.mem_filterMap.mp hmem
    obtain ⟨v, hv, rfl⟩ := List.mem_map.mp ho
    rw [show b'.queues.orders u = _ from Fate.after_eq_some hafter]
    exact habs v (hd.linked hv)
  · simp

end PriorityBook

end Orderbooks
