import Orderbooks.Effects

/-!
# How an aggressor settles with the makers it can reach

The makers an aggressor can trade with, in price-time order, are one list of
records. `settle` says what becomes of each of them and what is left of the
aggressor, as a function of that list alone. A sweep does to the book what
`settle` says, and publishes what `notices` says.
-/
namespace Orderbooks

/-! ## Settling with a list of makers -/

/-- What becomes of a maker. -/
inductive Fate where
  | kept
  | filled (qty : UInt64)
  | selfTraded (qty : UInt64)
  | expired
  deriving DecidableEq, Repr

/-- What is left of a record that loses `qty`. -/
def Order.less (o : Order) (qty : UInt64) : Option Order :=
  if o.remaining - qty = 0 then none else some { o with remaining := o.remaining - qty }

/-- The record that stays in the book. -/
def Fate.after (o : Order) : Fate → Option Order
  | .kept => some o
  | .filled qty => o.less qty
  | .selfTraded qty => o.less qty
  | .expired => none

/-- How much of a maker the aggressor takes. -/
def Fate.taken : Fate → UInt64
  | .filled qty => qty
  | .selfTraded qty => qty
  | .kept => 0
  | .expired => 0

/-- The record belongs to the account `acct`, where zero is no account. -/
def Order.OwnOf (acct : UInt32) (o : Order) : Prop := acct ≠ 0 ∧ o.accountId = acct

instance (acct : UInt32) : DecidablePred (Order.OwnOf acct) := fun _ =>
  inferInstanceAs (Decidable (_ ∧ _))

/-- The fate of every maker, the aggressor's open quantity, and whether
`cancel_newest` ended the match. -/
structure Outcome where
  fates : List (Order × Fate)
  left : UInt64
  aborted : Bool
  deriving DecidableEq, Repr

def Outcome.cons (a : Order × Fate) (k : Outcome) : Outcome := { k with fates := a :: k.fates }

/-- Makers that the aggressor does not get to. -/
def untouched (os : List Order) : List (Order × Fate) := os.map fun o => (o, .kept)

def settle (pol : SelfCrossPolicy) (acct : UInt32) : List Order → UInt64 → Outcome
  | [], rem => ⟨[], rem, false⟩
  | o :: os, rem =>
      let qty := min rem o.remaining
      if rem = 0 then ⟨untouched (o :: os), 0, false⟩
      else if o.OwnOf acct then
        match pol with
        | .cancelNewest => ⟨untouched (o :: os), 0, true⟩
        | .cancelOldest => (settle pol acct os rem).cons (o, .expired)
        | .decrementTrade => (settle pol acct os (rem - qty)).cons (o, .selfTraded qty)
      else (settle pol acct os (rem - qty)).cons (o, .filled qty)

/-- The makers that are still there. -/
def survivors (fates : List (Order × Fate)) : List Order := fates.filterMap fun a => a.2.after a.1

/-- What is published, with the stamps after `seq`. -/
def notices (m : SubmitMsg) : UInt64 → List (Order × Fate) → List Event
  | _, [] => []
  | seq, (_, .kept) :: rest => notices m seq rest
  | seq, (_, .expired) :: rest => notices m seq rest
  | seq, (o, .filled qty) :: rest =>
      .fill ⟨o.id, m.id, o.px, qty, seq + 1⟩ :: .trade ⟨o.px, qty, seq + 1⟩ ::
        notices m (seq + 1) rest
  | seq, (o, .selfTraded qty) :: rest =>
      .selfTrade ⟨m.id, o.id, m.accountId, o.px, qty, seq + 1⟩ :: notices m (seq + 1) rest

variable {pol : SelfCrossPolicy} {acct : UInt32} {os : List Order} {rem : UInt64} {m : SubmitMsg}

theorem settle_zero : settle pol acct os 0 = ⟨untouched os, 0, false⟩ := by
  cases os with
  | nil => rfl
  | cons o os =>
      unfold settle
      exact if_pos rfl

theorem settle_abort (os : List Order) {o : Order} (hrem : rem ≠ 0) (hown : o.OwnOf acct) :
    settle .cancelNewest acct (o :: os) rem = ⟨untouched (o :: os), 0, true⟩ := by
  unfold settle
  rw [if_neg hrem, if_pos hown]

theorem settle_expire (os : List Order) {o : Order} (hrem : rem ≠ 0) (hown : o.OwnOf acct) :
    settle .cancelOldest acct (o :: os) rem =
      (settle .cancelOldest acct os rem).cons (o, .expired) := by
  rw [settle, if_neg hrem, if_pos hown]

/-- The fate of a maker that is traded with. -/
def Fate.traded (acct : UInt32) (o : Order) (qty : UInt64) : Fate :=
  if o.OwnOf acct then .selfTraded qty else .filled qty

theorem Fate.after_traded (o : Order) (qty : UInt64) :
    (Fate.traded acct o qty).after o = o.less qty := by
  unfold Fate.traded
  split_ifs <;> rfl

theorem Fate.taken_traded (o : Order) (qty : UInt64) : (Fate.traded acct o qty).taken = qty := by
  unfold Fate.traded
  split_ifs <;> rfl

theorem settle_trade (os : List Order) {o : Order} (hrem : rem ≠ 0)
    (h : o.OwnOf acct → pol = .decrementTrade) :
    settle pol acct (o :: os) rem = (settle pol acct os (rem - min rem o.remaining)).cons
      (o, .traded acct o (min rem o.remaining)) := by
  rw [settle.eq_def]
  dsimp only
  rw [if_neg hrem]
  unfold Fate.traded
  split_ifs with hown
  · rw [h hown]
  · rfl

theorem survivors_untouched (os : List Order) : survivors (untouched os) = os := by
  induction os with
  | nil => rfl
  | cons o os ih =>
      change o :: survivors (untouched os) = _
      rw [ih]

theorem notices_untouched (seq : UInt64) (os : List Order) : notices m seq (untouched os) = [] := by
  induction os with
  | nil => rfl
  | cons o os ih => exact ih

/-! ## The makers in reach -/

namespace Queues

variable {ticks : ℕ} {d d' : Queues ticks} {p u : ℕ} {q : List ℕ}

/-- The makers `m` can trade with, best price first and each price in time order. -/
def crossing (d : Queues ticks) (m : SubmitMsg) : List Order :=
  ((m.s.opposite.priority ticks).filter (m.s.crosses m.px)).flatMap (d.ordersAt m.s.opposite)

theorem crossing_congr (h : ∀ r, m.s.crosses m.px r = true →
    d'.ordersAt m.s.opposite r = d.ordersAt m.s.opposite r) : d'.crossing m = d.crossing m :=
  List.flatMap_congr fun r hr => h r (List.mem_filter.mp hr).2

theorem crossing_eq_nil (hclear : d.Clear m.s m.px) : d.crossing m = [] := by
  refine List.flatMap_eq_nil_iff.mpr fun r hr => ?_
  have hcross := (List.mem_filter.mp hr).2
  have hnil : d.levels m.s.opposite r = [] := by
    by_contra hne
    rw [hclear r hne] at hcross
    exact Bool.noConfusion hcross
  simp [ordersAt, hnil]

/-- The front of the best price heads the list, whatever its record and whoever follows. -/
theorem crossing_split (hbest : d.best m.s.opposite = some p)
    (hcross : m.s.crosses m.px p = true) :
    ∃ rest, ∀ d' : Queues ticks,
      (∀ r, r ≠ p → d'.ordersAt m.s.opposite r = d.ordersAt m.s.opposite r) →
      d'.crossing m = d'.ordersAt m.s.opposite p ++ rest := by
  obtain ⟨hne, better, worse, hsplit, hempty⟩ := best_eq_some.mp hbest
  refine ⟨(worse.filter (m.s.crosses m.px)).flatMap (d.ordersAt m.s.opposite), fun d' hsame => ?_⟩
  have hnodup : (better ++ p :: worse).Nodup := by
    rw [← hsplit]
    exact m.s.opposite.nodup_priority ticks
  have hbetter : (better.filter (m.s.crosses m.px)).flatMap (d'.ordersAt m.s.opposite) = [] := by
    refine List.flatMap_eq_nil_iff.mpr fun r hr => ?_
    have hmem := (List.mem_filter.mp hr).1
    rw [hsame r fun h => hne (h ▸ hempty r hmem)]
    simp [ordersAt, hempty r hmem]
  have hworse : (worse.filter (m.s.crosses m.px)).flatMap (d'.ordersAt m.s.opposite) =
      (worse.filter (m.s.crosses m.px)).flatMap (d.ordersAt m.s.opposite) := by
    refine List.flatMap_congr fun r hr => hsame r fun h => ?_
    have hmem := (List.mem_filter.mp hr).1
    rw [h] at hmem
    have := (List.nodup_append.mp hnodup).2.1
    exact (List.nodup_cons.mp this).1 hmem
  unfold crossing
  rw [hsplit, List.filter_append, List.flatMap_append, hbetter, List.nil_append,
    List.filter_cons_of_pos hcross, List.flatMap_cons, hworse]

/-- Other levels keep their records when one order changes or leaves. -/
theorem WellFormed.ordersAt_setRemaining (hd : d.WellFormed) {t : Side} {r : ℕ} (qty : UInt64)
    (hne : ¬(t = (d.orders u).s ∧ r = (d.orders u).px)) :
    (d.setRemaining u qty).ordersAt t r = d.ordersAt t r := by
  refine List.map_congr_left fun v hv => ?_
  rw [setRemaining_orders, Function.update_of_ne (hd.ne_of_mem hne hv)]

theorem ordersAt_drop {t : Side} {r : ℕ}
    (hne : ¬(t = (d.orders u).s ∧ r = (d.orders u).px)) :
    (d.drop u).ordersAt t r = d.ordersAt t r := by
  unfold ordersAt
  rw [drop_orders, show (d.drop u).levels t r = d.levels t r from
    (unlink_levels).trans (if_neg hne)]

section Front

variable {s : Side} (hd : d.WellFormed) (hq : d.levels s p = u :: q)
include hq

theorem ordersAt_cons : d.ordersAt s p = d.orders u :: q.map d.orders := by
  unfold ordersAt
  rw [hq, List.map_cons]

include hd

theorem place_front : (d.orders u).s = s ∧ (d.orders u).px = p := by
  obtain ⟨hs, hp, _⟩ := hd.placed s p u (by simp [hq])
  exact ⟨hs, hp⟩

/-- The order at the front leaves. -/
theorem ordersAt_drop_front : (d.drop u).ordersAt s p = q.map d.orders := by
  have hlev : (d.drop u).levels s p = (d.levels s p).erase u := hd.unlink_levels_eq_erase
  unfold ordersAt
  rw [hlev, hq, List.erase_cons_head, drop_orders]

/-- The order at the front loses quantity. -/
theorem ordersAt_setRemaining_front (qty : UInt64) : (d.setRemaining u qty).ordersAt s p =
    { d.orders u with remaining := qty } :: q.map d.orders := by
  have hnodup := hd.nodup s p
  rw [hq, List.nodup_cons] at hnodup
  have hlev : (d.setRemaining u qty).levels s p = u :: q := hq
  rw [ordersAt_cons hlev, setRemaining_orders, Function.update_self]
  congr 1
  refine List.map_congr_left fun v hv => ?_
  rw [Function.update_of_ne]
  rintro rfl
  exact hnodup.1 hv

end Front

end Queues

/-! ## A sweep settles -/

namespace PriorityBook
open Queues

variable {ticks : ℕ} {b : PriorityBook ticks} {p u : ℕ} {q : List ℕ}

/-- The sweep `c` from `b` came to what `settle` says of the makers in reach. -/
structure SettledBy (m : SubmitMsg) (b : PriorityBook ticks) (rem : UInt64) (c : Sweep ticks) :
    Prop where
  remaining : c.remaining = (settle b.selfCross m.accountId (b.queues.crossing m) rem).left
  aborted : c.aborted = (settle b.selfCross m.accountId (b.queues.crossing m) rem).aborted
  makers : c.book.queues.crossing m =
    survivors (settle b.selfCross m.accountId (b.queues.crossing m) rem).fates
  log : c.book.log = b.log ++
    notices m b.state.seq (settle b.selfCross m.accountId (b.queues.crossing m) rem).fates
  others : ∀ t r, ¬(t = m.s.opposite ∧ m.s.crosses m.px r = true) →
    c.book.queues.ordersAt t r = b.queues.ordersAt t r

theorem SettledBy.stop (hd : b.queues.WellFormed) (h : Halted m b rem) :
    SettledBy m b rem ⟨b, rem, false⟩ := by
  have hsettle : settle b.selfCross m.accountId (b.queues.crossing m) rem =
      ⟨untouched (b.queues.crossing m), rem, false⟩ := by
    rcases h with rfl | h
    · exact settle_zero
    · rw [crossing_eq_nil (clear_of_best hd h)]
      rfl
  refine ⟨?_, ?_, ?_, ?_, fun _ _ _ => rfl⟩
  · rw [hsettle]
  · rw [hsettle]
  · rw [hsettle, survivors_untouched]
  · rw [hsettle, notices_untouched, List.append_nil]

/-- The queues once the maker at the front of the best price has been met. -/
theorem crossing_strike (hd : b.queues.WellFormed) (hbest : b.queues.best m.s.opposite = some p)
    (hcross : m.s.crosses m.px p = true) (hq : b.queues.levels m.s.opposite p = u :: q) :
    ∃ os, b.queues.crossing m = b.order u :: os ∧ (b.queues.drop u).crossing m = os ∧
      ∀ qty, (b.queues.setRemaining u qty).crossing m =
          { b.order u with remaining := qty } :: os ∧
        ((b.queues.setRemaining u qty).drop u).crossing m = os := by
  obtain ⟨hs, hp⟩ := place_front hd hq
  obtain ⟨rest, hrest⟩ := crossing_split hbest hcross
  have haway : ∀ r, r ≠ p → ¬(m.s.opposite = (b.queues.orders u).s ∧ r = (b.queues.orders u).px) :=
    fun r hr h => hr (h.2.trans hp)
  refine ⟨q.map b.queues.orders ++ rest, ?_, ?_, fun qty => ⟨?_, ?_⟩⟩
  · rw [hrest _ fun _ _ => rfl, ordersAt_cons hq]
    rfl
  · rw [hrest _ fun r hr => ordersAt_drop (haway r hr), ordersAt_drop_front hd hq]
  · rw [hrest _ fun r hr => hd.ordersAt_setRemaining qty (haway r hr),
      ordersAt_setRemaining_front hd hq]
    rfl
  · have hq' : (b.queues.setRemaining u qty).levels m.s.opposite p = u :: q := hq
    have hplace := place_front (hd.setRemaining u qty) hq'
    rw [hrest _ fun r hr => ?_, ordersAt_drop_front (hd.setRemaining u qty) hq']
    · have := ordersAt_setRemaining_front hd hq qty
      rw [ordersAt_cons hq'] at this
      rw [(List.cons.inj this).2]
    · rw [ordersAt_drop fun h => hr (h.2.trans hplace.2),
        hd.ordersAt_setRemaining qty (haway r hr)]

/-- One maker is met and leaves, and what follows is settled from there. -/
theorem SettledBy.gone {b' : PriorityBook ticks} {rem' : UInt64} {c : Sweep ticks} {o : Order}
    {f : Fate} {os : List Order} (h : SettledBy m b' rem' c) (hlist : b.queues.crossing m = o :: os)
    (hlist' : b'.queues.crossing m = os) (hpol : b'.selfCross = b.selfCross)
    (hsettle : settle b.selfCross m.accountId (o :: os) rem =
      (settle b.selfCross m.accountId os rem').cons (o, f)) (hgone : f.after o = none)
    (hlog : ∀ fates, b'.log ++ notices m b'.state.seq fates =
      b.log ++ notices m b.state.seq ((o, f) :: fates))
    (hothers : ∀ t r, ¬(t = m.s.opposite ∧ m.s.crosses m.px r = true) →
      b'.queues.ordersAt t r = b.queues.ordersAt t r) : SettledBy m b rem c := by
  obtain ⟨hrem, hab, hmakers, hclog, hcothers⟩ := h
  rw [hlist', hpol] at hrem hab hmakers hclog
  refine ⟨?_, ?_, ?_, ?_, fun t r h => (hcothers t r h).trans (hothers t r h)⟩
  · rw [hlist, hsettle]
    exact hrem
  · rw [hlist, hsettle]
    exact hab
  · rw [hlist, hsettle, hmakers]
    unfold survivors Outcome.cons
    rw [List.filterMap_cons, hgone]
  · rw [hlist, hsettle, hclog, hlog]
    rfl

/-- One maker is met and uses up the aggressor. -/
theorem SettledBy.worn {b' : PriorityBook ticks} {o o' : Order} {f : Fate} {os : List Order}
    (hlist : b.queues.crossing m = o :: os) (hlist' : b'.queues.crossing m = o' :: os)
    (hsettle : settle b.selfCross m.accountId (o :: os) rem =
      (settle b.selfCross m.accountId os 0).cons (o, f)) (hleft : f.after o = some o')
    (hlog : ∀ fates, b'.log ++ notices m b'.state.seq fates =
      b.log ++ notices m b.state.seq ((o, f) :: fates))
    (hothers : ∀ t r, ¬(t = m.s.opposite ∧ m.s.crosses m.px r = true) →
      b'.queues.ordersAt t r = b.queues.ordersAt t r) : SettledBy m b rem ⟨b', 0, false⟩ := by
  rw [settle_zero] at hsettle
  refine ⟨?_, ?_, ?_, ?_, hothers⟩
  · rw [hlist, hsettle]
    rfl
  · rw [hlist, hsettle]
    rfl
  · rw [hlist, hsettle, hlist']
    unfold Outcome.cons survivors
    rw [List.filterMap_cons, hleft]
    exact congrArg _ (survivors_untouched os).symm
  · rw [hlist, hsettle]
    change b'.log = b.log ++ notices m b.state.seq ((o, f) :: untouched os)
    rw [← hlog, notices_untouched, List.append_nil]

/-- What a trade with the maker at the front publishes. -/
theorem announce_log (hd : b.queues.WellFormed) (hq : b.queues.levels m.s.opposite p = u :: q)
    (qty : UInt64) (fates : List (Order × Fate)) :
    (b.announce m u p qty).log ++ notices m (b.announce m u p qty).state.seq fates =
      b.log ++ notices m b.state.seq
        ((b.order u, .traded m.accountId (b.order u) qty) :: fates) := by
  obtain ⟨_, hp⟩ := place_front hd hq
  unfold announce Fate.traded
  by_cases hown : b.isOwn m u
  · have : (b.order u).OwnOf m.accountId := hown
    simp only [show b.bumpSeq.isOwn m u from hown, this, if_true]
    simp [publish, bumpSeq, notices, hp, order]
  · have : ¬(b.order u).OwnOf m.accountId := hown
    simp only [show ¬b.bumpSeq.isOwn m u from hown, this, if_false]
    simp [publish, bumpSeq, notices, hp, order]

section Strike

variable (hd : b.queues.WellFormed) (hrem : rem ≠ 0)
  (hbest : b.queues.best m.s.opposite = some p) (hcross : m.s.crosses m.px p = true)
  (hq : b.queues.levels m.s.opposite p = u :: q)
include hd hcross hq

/-- The maker that is met is at a level in reach. -/
theorem away_of_unreached {t : Side} {r : ℕ}
    (h : ¬(t = m.s.opposite ∧ m.s.crosses m.px r = true)) :
    ¬(t = (b.queues.orders u).s ∧ r = (b.queues.orders u).px) := by
  obtain ⟨hs, hp⟩ := place_front hd hq
  rintro ⟨rfl, rfl⟩
  rw [hs, hp] at h
  exact h ⟨rfl, hcross⟩

include hrem hbest

theorem SettledBy.of_abort (hown : b.isOwn m u) (hpol : b.selfCross = .cancelNewest) :
    SettledBy m b rem ⟨b, 0, true⟩ := by
  obtain ⟨os, hos, _⟩ := crossing_strike hd hbest hcross hq
  have hsettle := settle_abort os hrem (show (b.order u).OwnOf m.accountId from hown)
  rw [← hpol, ← hos] at hsettle
  refine ⟨?_, ?_, ?_, ?_, fun _ _ _ => rfl⟩
  · rw [hsettle]
  · rw [hsettle]
  · rw [hsettle, survivors_untouched]
  · rw [hsettle, notices_untouched, List.append_nil]

theorem SettledBy.of_expire (hown : b.isOwn m u) (hpol : b.selfCross = .cancelOldest)
    {c : Sweep ticks} (hnext : SettledBy m (b.drop u).dirty rem c) : SettledBy m b rem c := by
  obtain ⟨os, hos, hdrop, _⟩ := crossing_strike hd hbest hcross hq
  have hsettle := settle_expire os hrem (show (b.order u).OwnOf m.accountId from hown)
  rw [← hpol] at hsettle
  exact hnext.gone hos hdrop rfl hsettle rfl (fun _ => rfl) fun t r h =>
    ordersAt_drop (away_of_unreached hd hcross hq h)

variable (hpol : (b.order u).OwnOf m.accountId → b.selfCross = .decrementTrade)
include hpol

/-- A maker that is traded with to its end. -/
theorem SettledBy.of_exhausted {qty : UInt64} (hqty : qty = min rem (b.order u).remaining)
    (hz : (b.order u).remaining - qty = 0) {c : Sweep ticks}
    (hnext : SettledBy m (((b.announce m u p qty).decrement u qty).drop u) (rem - qty) c) :
    SettledBy m b rem c := by
  obtain ⟨os, hos, _, hset⟩ := crossing_strike hd hbest hcross hq
  have hqueues : (((b.announce m u p qty).decrement u qty).drop u).queues =
      (b.queues.setRemaining u ((b.queues.orders u).remaining - qty)).drop u := by
    rw [drop_queues, decrement_queues, announce_queues]
  have hsettle := settle_trade os hrem hpol
  rw [← hqty] at hsettle
  refine hnext.gone hos (by rw [hqueues, (hset _).2]) (announce_selfCross _) hsettle
    ((Fate.after_traded _ _).trans (if_pos hz)) (announce_log hd hq qty) fun t r h => ?_
  have haway := away_of_unreached hd hcross hq h
  rw [hqueues, ordersAt_drop, hd.ordersAt_setRemaining _ haway]
  simpa using haway

/-- A maker that outlasts the aggressor. -/
theorem SettledBy.of_outlasted {qty : UInt64} (hqty : qty = min rem (b.order u).remaining)
    (hz : (b.order u).remaining - qty ≠ 0) :
    SettledBy m b rem (sweep m ((b.announce m u p qty).decrement u qty) (rem - qty)) := by
  obtain ⟨os, hos, _, hset⟩ := crossing_strike hd hbest hcross hq
  have hqueues : ((b.announce m u p qty).decrement u qty).queues =
      b.queues.setRemaining u ((b.queues.orders u).remaining - qty) := by
    rw [decrement_queues, announce_queues]
  have hspent : rem - qty = 0 := by
    rw [hqty] at hz ⊢
    exact sub_min_eq_zero hz
  have hsettle := settle_trade os hrem hpol
  rw [← hqty, hspent] at hsettle
  rw [hspent, sweep_stop (by rw [hqueues]; exact hd.setRemaining u _) (.inl rfl)]
  refine .worn hos (by rw [hqueues, (hset _).1]) hsettle
    ((Fate.after_traded _ _).trans (if_neg hz)) (announce_log hd hq qty) fun t r h => ?_
  rw [hqueues, hd.ordersAt_setRemaining _ (away_of_unreached hd hcross hq h)]

end Strike

/-- A sweep settles with the makers in reach. -/
theorem sweep_settledBy (hd : b.queues.WellFormed) (rem : UInt64) :
    SettledBy m b rem (sweep m b rem) := by
  -- every maker that is met and leaves is one fewer in reach
  generalize hn : (b.queues.crossing m).length = n
  induction n using Nat.strong_induction_on generalizing b rem with
  | _ n ih =>
      by_cases hh : Halted m b rem
      · rw [sweep_stop hd hh]
        exact .stop hd hh
      obtain ⟨hrem, p, u, q, hbest, hcross, hq⟩ := exists_maker hh
      obtain ⟨os, hos, hdrop, hset⟩ := crossing_strike hd hbest hcross hq
      have hlen : os.length < n := by simp [← hn, hos]
      rw [sweep_strike hd hrem hbest hcross hq]
      unfold strike
      by_cases hnewest : b.isOwn m u ∧ b.selfCross = .cancelNewest
      · rw [if_pos hnewest, if_pos rfl]
        exact .of_abort hd hrem hbest hcross hq hnewest.1 hnewest.2
      rw [if_neg hnewest]
      by_cases holdest : b.isOwn m u ∧ b.selfCross = .cancelOldest
      · rw [if_pos holdest, if_neg (by simp)]
        exact .of_expire hd hrem hbest hcross hq holdest.1 holdest.2
          (ih _ hlen (hd.drop u) rem (congrArg _ hdrop))
      rw [if_neg holdest, if_neg (by simp)]
      have hpol : (b.order u).OwnOf m.accountId → b.selfCross = .decrementTrade := by
        intro hown
        cases hpol : b.selfCross with
        | cancelNewest => exact absurd ⟨hown, hpol⟩ hnewest
        | cancelOldest => exact absurd ⟨hown, hpol⟩ holdest
        | decrementTrade => rfl
      dsimp only
      split_ifs with hz
      · refine .of_exhausted hd hrem hbest hcross hq hpol rfl hz (ih _ hlen ?_ _ ?_)
        · rw [drop_queues, decrement_queues, announce_queues]
          exact (hd.setRemaining u _).drop u
        · rw [drop_queues, decrement_queues, announce_queues, (hset _).2]
      · exact .of_outlasted hd hrem hbest hcross hq hpol rfl hz

end PriorityBook
end Orderbooks
