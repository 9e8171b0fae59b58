import Orderbooks.Accounting
import Orderbooks.PriceTime

/-!
# The self-cross policies over whole histories

A ledger beside the engine says which account each id was submitted under, and
follows renames. The records of the book carry those accounts through resting,
renaming and the two legs of a crossing modify. With that, no fill joins two
orders of one account, a self-trade needs `decrement_trade`, `cancel_newest`
stops the aggressor at its first own maker, and `cancel_oldest` clears the own
makers ahead of the one that used the aggressor up.
-/
namespace Orderbooks

/-! ## Settling under each policy -/

section Settle

variable {acct : UInt32} {rem : UInt64} {m : SubmitMsg} {fates : List (Order × Fate)}

/-- Under `cancel_newest` nothing at or behind the first own maker is touched, and nothing
is left of the aggressor. -/
theorem settle_newest {ahead : List Order} (behind : List Order) {o : Order}
    (hahead : ∀ a ∈ ahead, ¬a.OwnOf acct) (hown : o.OwnOf acct) (rem : UInt64) :
    (settle .cancelNewest acct (ahead ++ o :: behind) rem).left = 0 ∧
      ∃ fs, (settle .cancelNewest acct (ahead ++ o :: behind) rem).fates =
        fs ++ untouched (o :: behind) ∧ fs.map Prod.fst = ahead := by
  induction ahead generalizing rem with
  | nil =>
      by_cases hrem : rem = 0
      · rw [hrem, settle_zero]
        exact ⟨rfl, [], rfl, rfl⟩
      · rw [List.nil_append, settle_abort behind hrem hown]
        exact ⟨rfl, [], rfl, rfl⟩
  | cons a ahead ih =>
      by_cases hrem : rem = 0
      · rw [hrem, settle_zero]
        refine ⟨rfl, untouched (a :: ahead), ?_, makers_untouched _⟩
        simp [untouched]
      · have hnot := hahead a List.mem_cons_self
        rw [List.cons_append, settle_trade _ hrem fun h => absurd h hnot]
        obtain ⟨hleft, fs, hfs, hmakers⟩ :=
          ih (fun a' ha' => hahead a' (List.mem_cons_of_mem _ ha')) (rem - min rem a.remaining)
        refine ⟨hleft, (a, .traded acct a (min rem a.remaining)) :: fs, ?_, ?_⟩
        · exact congrArg (List.cons _) hfs
        · exact congrArg (List.cons _) hmakers

/-- Under `cancel_oldest` the makers are either all met, or met up to one that uses the
aggressor up. The own ones among those met expire. -/
theorem settle_oldest (acct : UInt32) (os : List Order) (hrem : rem ≠ 0) :
    ((settle .cancelOldest acct os rem).left ≠ 0 ∧
      ∀ a ∈ (settle .cancelOldest acct os rem).fates, a.1.OwnOf acct → a.2 = .expired) ∨
    ((settle .cancelOldest acct os rem).left = 0 ∧
      ∃ fs x qty behind, (settle .cancelOldest acct os rem).fates =
          fs ++ (x, .filled qty) :: untouched behind ∧
        ∀ a ∈ fs, a.1.OwnOf acct → a.2 = .expired) := by
  induction os generalizing rem with
  | nil =>
      refine .inl ⟨hrem, fun a ha => ?_⟩
      simp [settle] at ha
  | cons o os ih =>
      by_cases hown : o.OwnOf acct
      · rw [settle_expire os hrem hown]
        rcases ih hrem with ⟨hleft, hall⟩ | ⟨hleft, fs, x, qty, behind, hfates, hall⟩
        · refine .inl ⟨hleft, fun a ha => ?_⟩
          rcases List.mem_cons.mp ha with rfl | ha
          · exact fun _ => rfl
          · exact hall a ha
        · refine .inr ⟨hleft, (o, .expired) :: fs, x, qty, behind, congrArg (List.cons _) hfates,
            fun a ha => ?_⟩
          rcases List.mem_cons.mp ha with rfl | ha
          · exact fun _ => rfl
          · exact hall a ha
      · rw [settle_trade os hrem fun h => absurd h hown]
        have hfilled : Fate.traded acct o (min rem o.remaining) = .filled (min rem o.remaining) :=
          if_neg hown
        rw [hfilled]
        by_cases hspent : rem - min rem o.remaining = 0
        · rw [hspent, settle_zero]
          exact .inr ⟨rfl, [], o, _, os, rfl, by simp⟩
        · rcases ih hspent with ⟨hleft, hall⟩ | ⟨hleft, fs, x, qty, behind, hfates, hall⟩
          · refine .inl ⟨hleft, fun a ha => ?_⟩
            rcases List.mem_cons.mp ha with rfl | ha
            · exact fun h => absurd h hown
            · exact hall a ha
          · refine .inr ⟨hleft, _ :: fs, x, qty, behind, congrArg (List.cons _) hfates,
              fun a ha => ?_⟩
            rcases List.mem_cons.mp ha with rfl | ha
            · exact fun h => absurd h hown
            · exact hall a ha

/-! ## Who is named -/

theorem Fate.Allowed.eq_kept {f : Fate} {o : Order} {pol : SelfCrossPolicy}
    (h : f.Allowed pol acct o) (hpol : pol = .cancelNewest) (hown : o.OwnOf acct) : f = .kept := by
  cases f with
  | kept => rfl
  | filled qty => exact absurd hown h
  | selfTraded qty => exact absurd (hpol.symm.trans h.1) (by simp)
  | expired => exact absurd (hpol.symm.trans h.1) (by simp)

theorem notices_append (m : SubmitMsg) (seq : UInt64) (fs gs : List (Order × Fate)) :
    ∃ seq', notices m seq (fs ++ gs) = notices m seq fs ++ notices m seq' gs := by
  induction fs generalizing seq with
  | nil => exact ⟨seq, rfl⟩
  | cons a fs ih =>
      obtain ⟨o, f⟩ := a
      cases f with
      | kept => exact ih seq
      | expired => exact ih seq
      | filled qty =>
          obtain ⟨seq', h⟩ := ih (seq + 1)
          exact ⟨seq', congrArg (fun evs => _ :: _ :: evs) h⟩
      | selfTraded qty =>
          obtain ⟨seq', h⟩ := ih (seq + 1)
          exact ⟨seq', congrArg (List.cons _) h⟩

theorem fill_mem_notices {seq : UInt64} {f : FillMsg} (h : .fill f ∈ notices m seq fates) :
    f.taker = m.id ∧
      ∃ o, (o, Fate.filled f.qty) ∈ fates ∧ f.maker = o.id ∧ f.px = o.px := by
  induction fates generalizing seq with
  | nil => simp [notices] at h
  | cons a fates ih =>
      obtain ⟨o, fate⟩ := a
      have hrest : ∀ seq', .fill f ∈ notices m seq' fates →
          f.taker = m.id ∧ ∃ o', (o', Fate.filled f.qty) ∈ (o, fate) :: fates ∧
            f.maker = o'.id ∧ f.px = o'.px := by
        intro seq' h'
        obtain ⟨htaker, o', ho', hmaker⟩ := ih h'
        exact ⟨htaker, o', List.mem_cons_of_mem _ ho', hmaker⟩
      cases fate with
      | kept => exact hrest seq h
      | expired => exact hrest seq h
      | selfTraded qty =>
          rcases List.mem_cons.mp h with h | h
          · simp at h
          · exact hrest _ h
      | filled qty =>
          rcases List.mem_cons.mp h with h | h
          · obtain rfl := Event.fill.inj h
            exact ⟨rfl, o, List.mem_cons_self, rfl, rfl⟩
          · rcases List.mem_cons.mp h with h | h
            · simp at h
            · exact hrest _ h

theorem selfTrade_mem_notices {seq : UInt64} {t : SelfTradeMsg}
    (h : .selfTrade t ∈ notices m seq fates) :
    t.aggressor = m.id ∧ t.account = m.accountId ∧
      ∃ o, (o, Fate.selfTraded t.qty) ∈ fates ∧ t.resting = o.id := by
  induction fates generalizing seq with
  | nil => simp [notices] at h
  | cons a fates ih =>
      obtain ⟨o, fate⟩ := a
      have hrest : ∀ seq', .selfTrade t ∈ notices m seq' fates → t.aggressor = m.id ∧
          t.account = m.accountId ∧
            ∃ o', (o', Fate.selfTraded t.qty) ∈ (o, fate) :: fates ∧ t.resting = o'.id := by
        intro seq' h'
        obtain ⟨haggressor, haccount, o', ho', hresting⟩ := ih h'
        exact ⟨haggressor, haccount, o', List.mem_cons_of_mem _ ho', hresting⟩
      cases fate with
      | kept => exact hrest seq h
      | expired => exact hrest seq h
      | filled qty =>
          rcases List.mem_cons.mp h with h | h
          · simp at h
          · rcases List.mem_cons.mp h with h | h
            · simp at h
            · exact hrest _ h
      | selfTraded qty =>
          rcases List.mem_cons.mp h with h | h
          · obtain rfl := Event.selfTrade.inj h
            exact ⟨rfl, rfl, o, List.mem_cons_self, rfl⟩
          · exact hrest _ h

end Settle

/-! ## The ledger of accounts -/

/-- The account of each id after a command, where `reached` says that the order which the
command names was found. -/
def reown (g : UInt64 → UInt32) (reached : Bool) : Command → UInt64 → UInt32
  | .submit m => Function.update g m.id m.accountId
  | .cancel _ => g
  | .modify m => if reached ∧ m.renames then Function.update g m.newId (g m.id) else g

namespace Queues

variable {ticks : ℕ} {d d' : Queues ticks} {opp : Side} {m : SubmitMsg} {rem : UInt64}
  {u v : ℕ} {cap newPx : ℕ} {newQty : UInt64} {target : Option ℕ} {cmd : Command}
  {g : UInt64 → UInt32}

/-- Every resting record carries the account of its id. -/
def Owned (g : UInt64 → UInt32) (d : Queues ticks) : Prop :=
  ∀ u, d.Linked u → (d.orders u).accountId = g (d.orders u).id

theorem Owned.empty (g : UInt64 → UInt32) : ({} : Queues ticks).Owned g := fun u h => by
  simp [Linked] at h

theorem Owned.drop (h : d.Owned g) (hd : d.WellFormed) (u : ℕ) : (d.drop u).Owned g :=
  fun v hv => h v (hd.linked_drop.mp hv).1

theorem Owned.setRemaining (h : d.Owned g) (u : ℕ) (qty : UInt64) :
    (d.setRemaining u qty).Owned g := by
  intro v hv
  have := h v ((linked_setRemaining qty).mp hv)
  rw [setRemaining_orders]
  by_cases hvu : v = u
  · subst hvu
    simpa using this
  · rwa [Function.update_of_ne hvu]

theorem Owned.worn (h : d.Owned g) (hw : Worn opp d d') (hd : d.WellFormed) : d'.Owned g := by
  induction hw with
  | refl => exact h
  | decrement _ _ _ _ _ ih => exact ih.setRemaining _ _
  | drop hw _ _ ih => exact (ih.setRemaining _ _).drop ((hw.wellFormed hd).setRemaining _ _) _

/-- An entry for an id that no resting order has. -/
theorem Owned.update (h : d.Owned g) {id : UInt64} (hid : d.Absent id) (acct : UInt32) :
    d.Owned (Function.update g id acct) := by
  intro u hu
  rw [Function.update_of_ne (hid u hu)]
  exact h u hu

theorem Owned.rest (h : d.Owned g) (hd : d.WellFormed) (hacct : m.accountId = g m.id) :
    (d.rest m rem).Owned g := by
  intro u hu
  rw [rest_orders]
  by_cases hn : u = d.next
  · subst hn
    simpa using hacct
  · have hl := ((hd.linked_rest m rem).mp hu).resolve_right hn
    rw [Function.update_of_ne hn]
    exact h u hl

/-- A submission that carries the account the ledger has for its id. -/
theorem Owned.submitted (h : d.Owned g) (hd : d.WellFormed) (hacct : m.accountId = g m.id)
    (hs : Submitted cap m d d') : d'.Owned g := by
  cases hs with
  | left hw => exact h.worn hw hd
  | rested hw => exact (h.worn hw hd).rest (hw.wellFormed hd) hacct

theorem Owned.move (h : d.Owned g) (hd : d.WellFormed) (hu : d.Linked u) (newPx : ℕ)
    (newQty : UInt64) : (d.move u newPx newQty).Owned g := by
  intro v hv
  have := h v ((hd.linked_move hu newPx newQty).mp hv)
  rw [move_orders]
  by_cases hvu : v = u
  · subst hvu
    simpa using this
  · rwa [Function.update_of_ne hvu]

/-- A new price or quantity does not touch the ledger, also when the order is cancelled and
submitted again. -/
theorem Owned.repriced (h : d.Owned g) (hd : d.WellFormed) (hu : d.Linked u)
    (hr : Repriced cap u newPx newQty d d') : d'.Owned g := by
  cases hr with
  | same => exact h
  | requantified => exact h.setRemaining u newQty
  | moved => exact h.move hd hu newPx newQty
  | resubmitted _ hs =>
      have hacct : (d.asSubmit u newPx newQty).accountId = g (d.asSubmit u newPx newQty).id :=
        h u hu
      exact (h.drop hd u).submitted (hd.drop u) hacct hs

theorem Owned.chained (h : d.Owned g) (hu : d.Linked u) {m : ModifyMsg}
    (hid : (d.orders u).id = m.id) (hfresh : d.Fresh (.modify m)) :
    (d.chained u m).Owned (reown g true (.modify m)) := by
  have hledger : reown g true (.modify m) =
      if m.renames then Function.update g m.newId (g m.id) else g := by
    simp [reown]
  rw [hledger]
  unfold Queues.chained
  split_ifs with hren
  · intro v hv
    rw [rename_orders]
    by_cases hvu : v = u
    · subst hvu
      have := h v hu
      simpa [hid] using this
    · have hl := (linked_rename m.newId).mp hv
      rw [Function.update_of_ne hvu, Function.update_of_ne (hfresh hren v hl)]
      exact h v hl
  · exact h

theorem Owned.effect (h : d.Owned g) (hd : d.WellFormed)
    (hu : ∀ u, target = some u → d.Linked u ∧ (d.orders u).id = cmd.id) (hfresh : d.Fresh cmd)
    (he : Effect cap d target cmd d') : d'.Owned (reown g target.isSome cmd) := by
  cases he with
  | @submit _ m _ hs =>
      have hacct : m.accountId = Function.update g m.id m.accountId m.id := by simp
      exact (h.update hfresh m.accountId).submitted hd hacct hs
  | cancelNone => exact h
  | cancel => exact h.drop hd _
  | modifyNone => simpa [reown] using h
  | @modify u m _ hr =>
      obtain ⟨hl, hid⟩ := hu u rfl
      exact (h.chained hl hid hfresh).repriced (hd.chained hl m)
        ((linked_chained m).mpr hl) hr

end Queues

namespace PriorityBook
open Queues

variable {ticks : ℕ} {b b₁ : PriorityBook ticks} {cmd : Command} {m : SubmitMsg}
  {g : UInt64 → UInt32}

/-- The records that a submission meets, and the submission itself, carry the accounts of the
ledger after the command. -/
theorem Submits.owned (h : b.Submits cmd m b₁) (hd : b.queues.WellFormed)
    (hown : b.queues.Owned g) (hfresh : b.queues.Fresh cmd) :
    b₁.queues.Owned (reown g true cmd) ∧ reown g true cmd m.id = m.accountId := by
  cases h with
  | submit => exact ⟨hown.update hfresh _, Function.update_self ..⟩
  | @resubmit mm u hu hid =>
      have hchain := hown.chained hu hid hfresh
      refine ⟨?_, ?_⟩
      · rw [cancelAt_queues]
        exact hchain.drop (hd.chained hu mm) u
      · exact (hchain u ((linked_chained mm).mpr hu)).symm

end PriorityBook

/-! ## On the engine -/

def Event.fill? : Event → Option FillMsg
  | .fill f => some f
  | _ => none

/-- The last fill of a stretch of events. -/
def lastFill (evs : List Event) : Option FillMsg := (evs.filterMap Event.fill?).getLast?

/-- The maker that used the aggressor up is the last one filled. -/
theorem PriorityBook.Closes.lastFill_eq {ticks : ℕ} {b b' : PriorityBook ticks} {m : SubmitMsg}
    {k : Outcome} {r : Remainder} {tail : List Event} (h : Closes m b b' k r tail)
    {fs : List (Order × Fate)} {x : Order} {qty : UInt64} {behind : List Order}
    (hfates : k.fates = fs ++ (x, .filled qty) :: untouched behind) :
    ∃ f, lastFill (notices m b.state.seq k.fates ++ tail) = some f ∧ f.maker = x.id := by
  obtain ⟨seq, happ⟩ := notices_append m b.state.seq fs ((x, .filled qty) :: untouched behind)
  have htail : tail.filterMap Event.fill? = [] := by
    refine List.filterMap_eq_nil_iff.mpr fun ev hev => ?_
    cases ev with
    | fill f => exact absurd rfl ((h.announced.parties hev).2 f)
    | _ => rfl
  refine ⟨⟨x.id, m.id, x.px, qty, seq + 1⟩, ?_, rfl⟩
  unfold lastFill
  rw [hfates, happ, List.filterMap_append, htail, List.append_nil, List.filterMap_append, notices,
    notices_untouched]
  exact List.getLast?_concat

namespace Engine
open Runs

section Policies

variable {P : Type} [Publisher P] {ticks maxOrders : ℕ} {lookup : OrderLookup}

/-- The fill-or-kill order `m` finds too little. -/
def Killed (e : Engine P ticks maxOrders lookup) (m : SubmitMsg) : Prop :=
  m.t = .fok ∧ !e.canFullyFill m.s.opposite m.px m.qty m.accountId

/-- What `cancel_newest` promises of a submission of `m` in `e` that publishes `evs` and leaves
`e'`: own orders on the other side are as they were, and an aggressor with an own maker in
reach fills none at or behind it and rests nothing. -/
def NewestKept (m : SubmitMsg) (e e' : Engine P ticks maxOrders lookup) (evs : List Event) : Prop :=
  (∀ p, (e'.recordsAt m.s.opposite p).filter (·.OwnOf m.accountId) =
    (e.recordsAt m.s.opposite p).filter (·.OwnOf m.accountId)) ∧
  ∀ ahead o behind, e.makers m = ahead ++ o :: behind → (∀ a ∈ ahead, ¬a.OwnOf m.accountId) →
    o.OwnOf m.accountId →
    (∀ f, .fill f ∈ evs → ∃ a ∈ ahead, a.id = f.maker) ∧ ¬e'.Resting m.id

/-- What `cancel_oldest` promises of it: the own orders on the other side that disappear are
those ahead of the maker that used the aggressor up, or all in reach if none did. -/
def OldestKept (m : SubmitMsg) (e e' : Engine P ticks maxOrders lookup) (evs : List Event) : Prop :=
  (tally (Event.filled m.id) evs < m.qty.toNat →
    ∀ p, ∀ o ∈ e.recordsAt m.s.opposite p, o.OwnOf m.accountId →
      (¬e'.Resting o.id ↔ o ∈ e.makers m)) ∧
  (tally (Event.filled m.id) evs = m.qty.toNat →
    ∃ ahead x behind f, e.makers m = ahead ++ x :: behind ∧ lastFill evs = some f ∧
      f.maker = x.id ∧ ∀ p, ∀ o ∈ e.recordsAt m.s.opposite p, o.OwnOf m.accountId →
        (¬e'.Resting o.id ↔ o ∈ ahead))

variable {p0 : P} {e e' : Engine P ticks maxOrders lookup} {b b' : PriorityBook ticks}
  {m : SubmitMsg} {k : Outcome} {r : Remainder} {tail : List Event}

theorem Refines.killed_iff (h : e.Refines p0 b) (ht : ticks ≤ 64 ^ 4) :
    e.Killed m ↔ b.Killed m := by
  obtain ⟨hd, tag, h⟩ := h
  unfold Killed PriorityBook.Killed
  rw [h.canFullyFill_eq hd ht]

variable (h : e.Refines p0 b) (h' : e'.Refines p0 b') (hclose : b.Closes m b' k r tail)
  (hx : b.queues.Exact)
include h h' hclose hx

omit h h' hx in
/-- A fill names a maker that was filled. -/
theorem fill_mem_closes {f : FillMsg} (hf : .fill f ∈ notices m b.state.seq k.fates ++ tail) :
    f.taker = m.id ∧ ∃ o, (o, Fate.filled f.qty) ∈ k.fates ∧ f.maker = o.id ∧ f.px = o.px := by
  rcases List.mem_append.mp hf with hf | hf
  · exact fill_mem_notices hf
  · exact absurd rfl ((hclose.announced.parties hf).2 f)

/-- Under `cancel_newest` own makers keep their places. -/
theorem Refines.newestKept (habs : b.queues.Absent m.id) (hpol : b.selfCross = .cancelNewest) :
    NewestKept m e e' (notices m b.state.seq k.fates ++ tail) := by
  obtain ⟨hmakers, _, hallowed, _⟩ := hclose.lawful
  refine ⟨fun p => ?_, fun ahead o behind hsplit hahead hown => ?_⟩
  · rw [h'.recordsAt_eq, h.recordsAt_eq, hclose.ordersAt_eq h.1 h'.1 hx,
      if_neg fun h => m.s.opposite_ne h.1, List.append_nil, filter_filterMap_of_stable]
    · refine (List.filterMap_congr fun o ho => ?_).trans List.filterMap_some
      have hown : o.OwnOf m.accountId := by simpa using (List.mem_filter.mp ho).2
      by_cases hmem : o ∈ k.fates.map Prod.fst
      · have hkept : fateOf k.fates o = .kept :=
          (hallowed _ (fateOf_mem hmem)).eq_kept hpol hown
        rw [hkept]
        rfl
      · rw [fateOf_of_notMem hmem]
        rfl
    · intro o o' ho
      rw [Fate.after_eq_some ho]
      rfl
  · rw [h.makers_eq] at hsplit
    have hspent : (k.left = 0 ∨ m.t ≠ .gtc) ∧
        ∃ fs, k.fates = fs ++ untouched (o :: behind) ∧ fs.map Prod.fst = ahead := by
      rcases hclose.outcome with ⟨_, rfl⟩ | ⟨hkill, rfl⟩
      · obtain ⟨hleft, hfs⟩ := settle_newest behind hahead hown m.qty
        rw [← hsplit, ← hpol] at hleft hfs
        exact ⟨.inl hleft, hfs⟩
      · refine ⟨.inr (by simp [hkill.1]), untouched ahead, ?_, makers_untouched ahead⟩
        rw [hsplit]
        simp [untouched]
    obtain ⟨hspent, fs, hfs, hfst⟩ := hspent
    obtain rfl := hclose.remainder.eq_gone hspent
    refine ⟨fun f hf => ?_, ?_⟩
    · obtain ⟨_, o', ho', hmaker, _⟩ := fill_mem_closes hclose hf
      rw [hfs] at ho'
      rcases List.mem_append.mp ho' with ho' | ho'
      · exact ⟨o', hfst ▸ List.mem_map_of_mem (f := Prod.fst) ho', hmaker.symm⟩
      · obtain ⟨_, _, heq⟩ := List.mem_map.mp ho'
        simp at heq
    · rw [← h'.absent_iff]
      exact hclose.absent_self h.1 h'.1 hx habs

/-- An own maker on the other side is gone just when it expired. -/
theorem Refines.gone_iff_expired (habs : b.queues.Absent m.id)
    (hpol : b.selfCross = .cancelOldest) {p : ℕ} {o : Order}
    (ho : o ∈ e.recordsAt m.s.opposite p) (hown : o.OwnOf m.accountId) :
    ¬e'.Resting o.id ↔ (o, Fate.expired) ∈ k.fates := by
  obtain ⟨hmakers, _, hallowed, _⟩ := hclose.lawful
  have hnodup : (k.fates.map Prod.fst).Nodup := hmakers ▸ hx.crossing_nodup h.1 m
  rw [h.recordsAt_eq] at ho
  rw [← h'.absent_iff, hclose.absent_iff h.1 h'.1 hx habs ho]
  constructor
  · intro hnone
    by_cases hmem : o ∈ k.fates.map Prod.fst
    · have hfate := fateOf_mem hmem
      have hallow := hallowed _ hfate
      cases hf : fateOf k.fates o with
      | kept => simp [hf, Fate.after] at hnone
      | filled qty =>
          rw [hf] at hallow
          exact absurd hown hallow
      | selfTraded qty =>
          rw [hf] at hallow
          exact absurd (hpol.symm.trans hallow.1) (by simp)
      | expired => exact hf ▸ hfate
    · rw [fateOf_of_notMem hmem] at hnone
      simp [Fate.after] at hnone
  · intro hexp
    rw [fateOf_eq_of_mem hnodup hexp]
    rfl

/-- Under `cancel_oldest` the own makers that were met are gone. -/
theorem Refines.oldestKept (habs : b.queues.Absent m.id) (hpol : b.selfCross = .cancelOldest)
    (hkill : ¬b.Killed m) (hqty : m.qty ≠ 0) :
    OldestKept m e e' (notices m b.state.seq k.fates ++ tail) := by
  obtain ⟨hmakers, _, hallowed, hcomplete⟩ := hclose.lawful
  have hgone : ∀ p, ∀ o ∈ e.recordsAt m.s.opposite p, o.OwnOf m.accountId →
      (¬e'.Resting o.id ↔ (o, Fate.expired) ∈ k.fates) := fun p o ho hown =>
    h.gone_iff_expired h' hclose hx habs hpol ho hown
  have hfilled : tally (Event.filled m.id) (notices m b.state.seq k.fates ++ tail) + k.left.toNat =
      m.qty.toNat := by
    have hself : tally (Event.selfTraded m.id) (notices m b.state.seq k.fates) = 0 := by
      refine tally_eq_zero fun ev hev => ?_
      cases ev with
      | selfTrade t =>
          obtain ⟨_, _, o, ho, _⟩ := selfTrade_mem_notices hev
          exact absurd (hpol.symm.trans (hallowed _ ho).1) (by simp)
      | _ => rfl
    have htail : tally (Event.filled m.id) tail = 0 := tally_eq_zero fun ev hev =>
      (Event.filled_of_parties (hclose.announced.parties hev).1 m.id).1
    have hsum := tally_notices m b.state.seq k.fates
    rcases hcomplete with hall | ⟨_, _, hnewest, _⟩
    · rw [tally_append, htail]
      omega
    · exact absurd (hpol.symm.trans hnewest) (by simp)
  have hk : k = settle .cancelOldest m.accountId (b.queues.crossing m) m.qty := by
    rcases hclose.outcome with ⟨_, hk⟩ | ⟨hkill', _⟩
    · rw [hk, hpol]
    · exact absurd hkill' hkill
  rcases settle_oldest m.accountId (b.queues.crossing m) hqty with
    ⟨hleft, hall⟩ | ⟨hleft, fs, x, qty, behind, hfates, hall⟩
  · rw [← hk] at hleft hall
    have hpos : k.left.toNat ≠ 0 := fun hz => hleft (UInt64.toNat_inj.mp hz)
    refine ⟨fun _ p o ho hown => ?_, fun hfull => absurd hfull (by omega)⟩
    rw [hgone p o ho hown, h.makers_eq, ← hmakers]
    constructor
    · exact fun hexp => List.mem_map_of_mem (f := Prod.fst) hexp
    · intro hmem
      have hfate := fateOf_mem hmem
      exact hall _ hfate hown ▸ hfate
  · rw [← hk] at hleft hfates
    have hzero : k.left.toNat = 0 := congrArg UInt64.toNat hleft
    refine ⟨fun hlt => absurd hlt (by omega), fun _ => ?_⟩
    obtain ⟨f, hlast, hmaker⟩ := hclose.lastFill_eq hfates
    refine ⟨fs.map Prod.fst, x, behind, f, ?_, hlast, hmaker, fun p o ho hown => ?_⟩
    · rw [h.makers_eq, ← hmakers, hfates, List.map_append, List.map_cons, makers_untouched]
    · rw [hgone p o ho hown, hfates]
      constructor
      · intro hexp
        rcases List.mem_append.mp hexp with hexp | hexp
        · exact List.mem_map_of_mem (f := Prod.fst) hexp
        · rcases List.mem_cons.mp hexp with heq | hexp
          · simp at heq
          · obtain ⟨_, _, heq⟩ := List.mem_map.mp hexp
            simp at heq
      · intro hmem
        obtain ⟨⟨o', fate⟩, hfate, rfl⟩ := List.mem_map.mp hmem
        obtain rfl : fate = .expired := hall _ hfate hown
        exact List.mem_append_left _ hfate

end Policies
/-! ## Whole histories -/

section Runs

variable {P : Type} [Publisher P] {ticks maxOrders : ℕ} {lookup : OrderLookup}

/-- An engine with the ledger of accounts. -/
structure Audited (P : Type) (ticks maxOrders : ℕ) (lookup : OrderLookup) where
  engine : Engine P ticks maxOrders lookup
  owner : UInt64 → UInt32

def Audited.apply (t : Audited P ticks maxOrders lookup) (cmd : Command) :
    Audited P ticks maxOrders lookup :=
  ⟨t.engine.apply cmd, reown t.owner (t.engine.reached cmd).isSome cmd⟩

def Audited.play (pub : P) (cfg : EngineConfig) (mem : Memory) (cmds : List Command) :
    Audited P ticks maxOrders lookup :=
  cmds.foldl Audited.apply ⟨new pub cfg mem, fun _ => 0⟩

/-- The audited engine is `e`, and stands for a machine that carries the accounts of the
ledger. -/
def Carries (pub : P) (cfg : EngineConfig) (e : Engine P ticks maxOrders lookup)
    (t : Audited P ticks maxOrders lookup) : Prop :=
  t.engine = e ∧ ∃ b, e.Refines pub b ∧ b.Orderly cfg ∧ b.queues.Owned t.owner

omit [Publisher P] in
theorem reown_congr {e : Engine P ticks maxOrders lookup} {b : PriorityBook ticks}
    {target : Option ℕ} {cmd : Command} (g : UInt64 → UInt32)
    (h : (∀ m, cmd ≠ .submit m) → target.map b.order = (e.reached cmd).map e.order) :
    reown g target.isSome cmd = reown g (e.reached cmd).isSome cmd := by
  cases cmd with
  | submit m => rfl
  | cancel m => rfl
  | modify m =>
      have := congrArg Option.isSome (h (by simp))
      rw [Option.isSome_map, Option.isSome_map] at this
      rw [this]

theorem Carries.apply {pub : P} {cfg : EngineConfig} {e : Engine P ticks maxOrders lookup}
    {t : Audited P ticks maxOrders lookup} (h : Carries pub cfg e t) (hc : 0 < maxOrders)
    (ht : ticks ≤ 64 ^ 4) {cmd : Command} (hdom : cmd.InDomain ticks cfg.maxOrderQty)
    (hf : e.Fresh cmd) : Carries pub cfg (e.apply cmd) (t.apply cmd) := by
  obtain ⟨rfl, b, h, hb, hown⟩ := h
  obtain ⟨target, hreach, h', hsame⟩ := h.apply_reached hc ht hdom.inRange
  obtain ⟨hu, heffect⟩ := h.effect hreach
  refine ⟨rfl, _, h', hb.applyAt h.1 hu hdom (h.fresh hf) heffect, ?_⟩
  have hstep := hown.effect h.1 hreach.1 (h.fresh hf) heffect
  rw [reown_congr _ hsame] at hstep
  exact hstep

theorem play_carries (pub : P) (cfg : EngineConfig) (mem : Memory) (hc : 0 < maxOrders)
    (ht : ticks ≤ 64 ^ 4) {cmds : List Command}
    (hdom : ∀ cmd ∈ cmds, cmd.InDomain ticks cfg.maxOrderQty)
    (hfresh : Along apply Fresh (new pub cfg mem : Engine P ticks maxOrders lookup) cmds) :
    Carries pub cfg (play pub cfg mem cmds : Engine P ticks maxOrders lookup)
      (Audited.play pub cfg mem cmds) := by
  have step : ∀ (e : Engine P ticks maxOrders lookup) t cmd, Carries pub cfg e t →
      cmd.InDomain ticks cfg.maxOrderQty ∧ e.Fresh cmd →
      Carries pub cfg (e.apply cmd) (Audited.apply t cmd) :=
    fun _ _ _ h hok => h.apply hc ht hok.1 hok.2
  have hnew : Carries pub cfg (new pub cfg mem : Engine P ticks maxOrders lookup)
      ⟨new pub cfg mem, fun _ => 0⟩ :=
    ⟨rfl, _, new_refines pub cfg mem hc, ⟨.empty, .empty, rfl⟩, .empty _⟩
  exact ((along_of_forall hdom).and hfresh).lockstep (Carries pub cfg) step hnew

end Runs

section Leg

variable {ticks maxOrders : ℕ} {lookup : OrderLookup}
  {e e₁ : Engine (List Event) ticks maxOrders lookup} {cmd : Command} {m : SubmitMsg}

theorem leg_reached (hl : e.leg cmd = some (m, e₁)) (g : UInt64 → UInt32) :
    reown g (e.reached cmd).isSome cmd = reown g true cmd := by
  cases cmd with
  | submit m' => rfl
  | cancel m' => rfl
  | modify m' =>
      cases hf : (e.find m'.id m'.handle m'.renames).1 with
      | none => simp [leg_modify_none hf] at hl
      | some x => rw [show e.reached (.modify m') = some x from hf, Option.isSome_some]

/-- What a submission publishes between two orders respects the accounts of the ledger. -/
theorem Refines.parties_owned {b b' : PriorityBook ticks} {p0 : List Event} {k : Outcome}
    {r : Remainder} {tail : List Event} {own : UInt64 → UInt32} (h : e.Refines p0 b)
    (hclose : b.Closes m b' k r tail) (hown : b.queues.Owned own)
    (hself : own m.id = m.accountId) :
    (∀ f, .fill f ∈ notices m b.state.seq k.fates ++ tail →
      own f.taker = 0 ∨ own f.maker ≠ own f.taker) ∧
    ∀ t, .selfTrade t ∈ notices m b.state.seq k.fates ++ tail →
      b.selfCross = .decrementTrade ∧ t.account ≠ 0 ∧ own t.resting = t.account ∧
        own t.aggressor = t.account := by
  obtain ⟨hmakers, _, hallowed, _⟩ := hclose.lawful
  have haccount : ∀ a ∈ k.fates, a.1.accountId = own a.1.id := by
    intro a ha
    have hmem := List.mem_map_of_mem (f := Prod.fst) ha
    rw [hmakers] at hmem
    obtain ⟨u, hu, heq⟩ := List.mem_map.mp ((Queues.mem_crossing h.1).mp hmem).1
    rw [← heq]
    exact hown u (h.1.linked hu)
  refine ⟨fun f hf => ?_, fun t ht => ?_⟩
  · obtain ⟨htaker, o, ho, hmaker, _⟩ := fill_mem_closes hclose hf
    have hother : ¬o.OwnOf m.accountId := hallowed _ ho
    rw [htaker, hmaker, hself, ← haccount _ ho]
    by_cases hz : m.accountId = 0
    · exact .inl hz
    · exact .inr fun heq => hother ⟨hz, heq⟩
  · rcases List.mem_append.mp ht with ht | ht
    · obtain ⟨haggressor, hacct, o, ho, hresting⟩ := selfTrade_mem_notices ht
      obtain ⟨hpol, hz, hsame⟩ := hallowed _ ho
      rw [haggressor, hresting, hself, hacct, ← haccount _ ho]
      exact ⟨hpol, hz, hsame, rfl⟩
    · have := (hclose.announced.parties ht).1
      simp [Event.parties] at this

end Leg

section Histories

variable {ticks maxOrders : ℕ} {lookup : OrderLookup}

/-- The self-cross policies over whole histories. After any run in the documented domains that
reuses no resting id, the next command publishes no fill between two orders that the ledger
gives one account, and a self-trade only under `decrement_trade` and between orders of the
account it names; and its submission keeps what its policy promises. -/
theorem play_self_cross (cfg : EngineConfig) (mem : Memory) (hc : 0 < maxOrders)
    (ht : ticks ≤ 64 ^ 4) (cmds : List Command) (cmd : Command)
    (hdom : ∀ c ∈ cmds ++ [cmd], c.InDomain ticks cfg.maxOrderQty)
    (hfresh : Along apply Fresh
      (new [] cfg mem : Engine (List Event) ticks maxOrders lookup) (cmds ++ [cmd])) :
    let e : Engine (List Event) ticks maxOrders lookup := play [] cfg mem cmds
    let own := (Audited.play [] cfg mem (cmds ++ [cmd]) :
      Audited (List Event) ticks maxOrders lookup).owner
    (∃ evs, (e.apply cmd).pub = e.pub ++ evs ∧
      (∀ f, .fill f ∈ evs → own f.taker = 0 ∨ own f.maker ≠ own f.taker) ∧
      ∀ t, .selfTrade t ∈ evs → cfg.selfCross = .decrementTrade ∧ t.account ≠ 0 ∧
        own t.resting = t.account ∧ own t.aggressor = t.account) ∧
    ∀ m e₁, e.leg cmd = some (m, e₁) → ∃ evs, (e₁.onSubmit m).2.pub = e₁.pub ++ evs ∧
      (cfg.selfCross = .cancelNewest → NewestKept m e₁ (e₁.onSubmit m).2 evs) ∧
      (cfg.selfCross = .cancelOldest → ¬e₁.Killed m →
        OldestKept m e₁ (e₁.onSubmit m).2 evs) := by
  intro e own
  obtain ⟨hfresh, hnext, -⟩ := along_append.mp hfresh
  obtain ⟨heq, b, h, hb, hown⟩ := play_carries [] cfg mem hc ht
    (fun c hmem => hdom c (by simp [hmem])) hfresh
  have hcmd := hdom cmd (by simp)
  have hledger : own = reown (Audited.play [] cfg mem cmds :
      Audited (List Event) ticks maxOrders lookup).owner (e.reached cmd).isSome cmd := by
    rw [show own = ((Audited.play [] cfg mem cmds).apply cmd).owner from
      congrArg Audited.owner (List.foldl_concat ..)]
    unfold Audited.apply
    rw [heq]
  cases hl : e.leg cmd with
  | none =>
      -- nothing is submitted, so no two orders meet
      obtain ⟨evs, hpub, hquiet⟩ := apply_untraded hl
      refine ⟨⟨evs, hpub, fun f hf => ?_, fun t ht => ?_⟩, by simp⟩
      · have := hquiet _ hf
        simp [Event.parties] at this
      · have := hquiet _ ht
        simp [Event.parties] at this
  | some a =>
      obtain ⟨m, e₁⟩ := a
      rw [leg_reached hl] at hledger
      obtain ⟨b₁, h₁, hsub⟩ := h.leg hc ht hcmd.inRange hl
      obtain ⟨hx₁, habs⟩ := hsub.exact h.1 hb.exact (h.fresh hnext)
      obtain ⟨hown₁, hself⟩ := hsub.owned h.1 hown (h.fresh hnext)
      rw [← hledger] at hown₁ hself
      have hm := hsub.inDomain hb.sound hcmd
      obtain ⟨b₂, k, r, tail, h₂, hclose, _⟩ := h₁.onSubmit_closes hc ht hm.inRange
      have hpol₁ : b₁.selfCross = cfg.selfCross := hsub.config.1.trans hb.selfCross
      have hpub₂ : (e₁.onSubmit m).2.pub =
          e₁.pub ++ (notices m b₁.state.seq k.fates ++ tail) := by
        rw [h₁.pub_eq, h₂.pub_eq, hclose.log]
        simp
      obtain ⟨hfills, hselfs⟩ := h₁.parties_owned hclose hown₁ hself
      refine ⟨?_, fun m' e₁' hleg => ?_⟩
      · obtain ⟨before, hbefore, hquiet⟩ := leg_untraded hl
        obtain ⟨rest, hrest, hquiet'⟩ := (e₁.onSubmit m).2.settleLeg_untraded cmd
        -- only the submission itself joins two orders
        have hmid : ∀ ev ∈ before ++ (notices m b₁.state.seq k.fates ++ tail) ++ rest,
            ev.parties ≠ none → ev ∈ notices m b₁.state.seq k.fates ++ tail := by
          intro ev hev hparties
          rcases List.mem_append.mp hev with hev | hev
          · rcases List.mem_append.mp hev with hev | hev
            · exact absurd (hquiet ev hev) hparties
            · exact hev
          · exact absurd (hquiet' ev hev) hparties
        refine ⟨before ++ (notices m b₁.state.seq k.fates ++ tail) ++ rest, ?_,
          fun f hf => hfills f (hmid _ hf (by simp [Event.parties])), fun t ht => ?_⟩
        · rw [apply_of_leg hl, hrest, hpub₂, hbefore]
          simp
        · rw [← hpol₁]
          exact hselfs t (hmid _ ht (by simp [Event.parties]))
      · obtain ⟨rfl, rfl⟩ := Prod.mk.inj (Option.some.inj hleg)
        refine ⟨_, hpub₂, fun hpol => ?_, fun hpol hkill => ?_⟩
        · exact h₁.newestKept h₂ hclose hx₁ habs (hpol₁.trans hpol)
        · have hqty : m.qty ≠ 0 := by
            intro hz
            have := hm.2.1
            rw [hz] at this
            simp at this
          rw [h₁.killed_iff ht] at hkill
          exact h₁.oldestKept h₂ hclose hx₁ habs (hpol₁.trans hpol) hkill hqty

/-- An own maker is renamed, then expires on the way to the maker behind it. -/
theorem play_self_cross_expired :
    let cfg : EngineConfig := { selfCross := .cancelOldest }
    let cmds : List Command := [.submit ⟨1, 1, 3, .ask, .gtc, 7⟩, .submit ⟨2, 1, 3, .ask, .gtc, 8⟩,
      .modify { id := 1, newPx := 1, newQty := 3, newId := 5 }]
    let m : SubmitMsg := ⟨3, 1, 2, .bid, .ioc, 7⟩
    let e : Engine (List Event) 2 2 .byId := play [] cfg .zeroed cmds
    (e.makers m).map Order.id = [5, 2] ∧ ¬(e.onSubmit m).2.Resting 5 ∧
      ∃ evs, (e.onSubmit m).2.pub = e.pub ++ evs ∧ OldestKept m e (e.onSubmit m).2 evs := by
  have h := play_self_cross { selfCross := .cancelOldest } .zeroed (by decide) (by decide)
    [.submit ⟨1, 1, 3, .ask, .gtc, 7⟩, .submit ⟨2, 1, 3, .ask, .gtc, 8⟩,
      .modify { id := 1, newPx := 1, newQty := 3, newId := 5 }]
    (.submit ⟨3, 1, 2, .bid, .ioc, 7⟩) (by decide)
    (by decide : Along apply Fresh
      (new [] { selfCross := .cancelOldest } .zeroed : Engine (List Event) 2 2 .byId) _)
  obtain ⟨evs, hpub, _, hold⟩ := h.2 _ _ rfl
  exact ⟨by decide, by decide, evs, hpub, hold rfl (by simp [Killed])⟩

end Histories

end Engine
end Orderbooks
