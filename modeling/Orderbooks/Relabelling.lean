import Orderbooks.MarketRefinement

/-!
# Venues under other labels

Prices are ticks of a ladder, ids and accounts are numbers, and buying is the mirror image of
selling. None of these labels matters to the engine beyond the order of the prices, the equality
of ids and accounts, and the id and the account zero. A relabelling exchanges the sides or not,
moves the prices to another ladder in their order (against it when the sides are exchanged) and
renames ids and accounts apart. Commands under other labels lead to the same books and the same
tape under these labels, on an arena that is large enough.
-/
namespace Orderbooks
open Runs

structure Relabelling (ticks ticks' : ℕ) where
  flips : Bool
  price : ℕ → ℕ
  id : UInt64 → UInt64
  account : UInt32 → UInt32
  price_lt : ∀ p < ticks, price p < ticks'
  ordered : ∀ p < ticks, ∀ q < ticks,
    (bif flips then price q < price p else price p < price q) ↔ p < q
  id_injective : Function.Injective id
  id_zero : id 0 = 0
  id_emptyKey : id emptyKey = emptyKey
  account_injective : Function.Injective account
  account_zero : account 0 = 0

namespace Relabelling

variable {ticks ticks' : ℕ} (ρ : Relabelling ticks ticks')

def side (s : Side) : Side := bif ρ.flips then s.opposite else s

def order (o : Order) : Order :=
  { o with id := ρ.id o.id, px := ρ.price o.px, s := ρ.side o.s,
           accountId := ρ.account o.accountId }

def submit (m : SubmitMsg) : SubmitMsg :=
  { m with id := ρ.id m.id, px := ρ.price m.px, s := ρ.side m.s,
           accountId := ρ.account m.accountId }

def modify (m : ModifyMsg) : ModifyMsg :=
  { m with id := ρ.id m.id, newPx := ρ.price m.newPx, newId := ρ.id m.newId }

def command : Command → Command
  | .submit m => .submit (ρ.submit m)
  | .cancel m => .cancel { m with id := ρ.id m.id }
  | .modify m => .modify (ρ.modify m)

/-- The price of a quote; where nothing is quoted it stands at zero. -/
def quote (px : ℕ) (qty : UInt64) : ℕ := if qty = 0 then 0 else ρ.price px

def top (t : Top) : Top :=
  bif ρ.flips then ⟨ρ.quote t.askPx t.askQty, ρ.quote t.bidPx t.bidQty, t.askQty, t.bidQty⟩
  else ⟨ρ.quote t.bidPx t.bidQty, ρ.quote t.askPx t.askQty, t.bidQty, t.askQty⟩

def topMsg (m : TopMsg) : TopMsg :=
  let t := ρ.top m.top
  ⟨t.bidPx, t.askPx, t.bidQty, t.askQty, m.seq⟩

def event : Event → Event
  | .fill m => .fill { m with maker := ρ.id m.maker, taker := ρ.id m.taker, px := ρ.price m.px }
  | .top m => .top (ρ.topMsg m)
  | .trade m => .trade { m with px := ρ.price m.px }
  | .selfTrade m => .selfTrade { m with
      aggressor := ρ.id m.aggressor, resting := ρ.id m.resting, account := ρ.account m.account,
      px := ρ.price m.px }
  | .reject m => .reject { m with
      id := ρ.id m.id, account := ρ.account m.account, px := ρ.price m.px }

/-- Buyers for sellers, on the ladder turned over. -/
def mirror (ticks : ℕ) : Relabelling ticks ticks where
  flips := true
  price p := ticks - 1 - p
  id x := x
  account x := x
  price_lt p hp := by omega
  ordered p hp q hq := by simp only [cond_true]; omega
  id_injective _ _ h := h
  id_zero := rfl
  id_emptyKey := rfl
  account_injective _ _ h := h
  account_zero := rfl

/-! ## Sides and prices -/

variable {ρ} {s : Side} {p q px : ℕ}

@[simp] theorem side_opposite : ρ.side s.opposite = (ρ.side s).opposite := by
  unfold side
  cases ρ.flips <;> rfl

theorem side_injective : Function.Injective ρ.side := by
  unfold side Function.Injective
  cases ρ.flips <;> decide

@[simp] theorem side_inj {s t : Side} : ρ.side s = ρ.side t ↔ s = t := side_injective.eq_iff

theorem exists_side (s : Side) : ∃ t, ρ.side t = s := by
  unfold side
  cases ρ.flips with
  | false => exact ⟨s, rfl⟩
  | true => exact ⟨s.opposite, s.opposite_opposite⟩

theorem better_side (hp : p < ticks) (hq : q < ticks) :
    (ρ.side s).better (ρ.price p) (ρ.price q) = s.better p q := by
  have hpq := ρ.ordered p hp q hq
  have hqp := ρ.ordered q hq p hp
  unfold side
  cases hf : ρ.flips <;> rw [hf] at hpq hqp <;> simp only [cond_true, cond_false] at hpq hqp <;>
    cases s <;> simp only [Side.better, Side.opposite, cond_true, cond_false, hpq, hqp]

theorem price_inj (hp : p < ticks) (hq : q < ticks) : ρ.price p = ρ.price q ↔ p = q := by
  constructor
  · intro h
    have hself (s : Side) (r : ℕ) : s.better r r = false := by cases s <;> simp [Side.better]
    have hpq : (ρ.side .bid).better (ρ.price p) (ρ.price q) = Side.bid.better p q :=
      better_side hp hq
    have hqp : (ρ.side .bid).better (ρ.price q) (ρ.price p) = Side.bid.better q p :=
      better_side hq hp
    rw [h, hself] at hpq hqp
    exact Side.bid.better_total hpq.symm hqp.symm
  · rintro rfl
    rfl

theorem crosses_eq_better (s : Side) (px q : ℕ) : s.crosses px q = !s.opposite.better px q := by
  cases s <;> simp [Side.crosses, Side.better, Side.opposite, ← decide_not]

theorem crosses_side (hpx : px < ticks) (hq : q < ticks) :
    (ρ.side s).crosses (ρ.price px) (ρ.price q) = s.crosses px q := by
  rw [crosses_eq_better, crosses_eq_better, ← side_opposite, better_side hpx hq]

/-- Prices under other labels come in the same order. -/
theorem filter_priority (s : Side) :
    ((ρ.side s).priority ticks').filter (fun q => ∃ p < ticks, ρ.price p = q) =
      (s.priority ticks).map ρ.price := by
  have hmap : ((s.priority ticks).map ρ.price).Pairwise
      fun p q => (ρ.side s).better p q = true := by
    rw [List.pairwise_map]
    refine (s.pairwise_priority ticks).imp_of_mem fun hp hq h => ?_
    rw [better_side (s.mem_priority.mp hp) (s.mem_priority.mp hq), h]
  have hnodup {t : Side} {l : List ℕ} (h : l.Pairwise fun p q => t.better p q = true) :
      l.Nodup := by
    refine h.imp fun hpq heq => ?_
    subst heq
    cases t <;> simp [Side.better] at hpq
  have hfilter := ((ρ.side s).pairwise_priority ticks').filter fun q =>
    decide (∃ p < ticks, ρ.price p = q)
  refine List.Perm.eq_of_pairwise (fun a b _ _ hab hba => ?_) hfilter hmap ?_
  · cases hs : ρ.side s <;> rw [hs] at hab hba <;>
      simp only [Side.better, decide_eq_true_eq] at hab hba <;> omega
  · refine (List.perm_ext_iff_of_nodup (hnodup hfilter) (hnodup hmap)).mpr fun q => ?_
    simp only [List.mem_filter, Side.mem_priority, decide_eq_true_eq, List.mem_map]
    constructor
    · rintro ⟨-, p, hp, rfl⟩
      exact ⟨p, hp, rfl⟩
    · rintro ⟨p, hp, rfl⟩
      exact ⟨ρ.price_lt p hp, p, hp, rfl⟩

theorem flatMap_priority {β : Type} (s : Side) {f : ℕ → List β}
    (hf : ∀ q, (∀ p < ticks, ρ.price p ≠ q) → f q = []) :
    ((ρ.side s).priority ticks').flatMap f = (s.priority ticks).flatMap fun p => f (ρ.price p) := by
  rw [← List.flatMap_map ρ.price f, ← filter_priority, flatMap_filter]
  refine List.flatMap_congr fun q _ => ?_
  split_ifs with hq
  · rfl
  · simp only [decide_eq_true_eq] at hq
    push Not at hq
    exact hf q hq

/-! ## Matching -/

variable (ρ) in
def fates (l : List (Order × Fate)) : List (Order × Fate) := l.map fun a => (ρ.order a.1, a.2)

variable (ρ) in
def outcome (k : Outcome) : Outcome := { k with fates := ρ.fates k.fates }

theorem ownOf_order {acct : UInt32} {o : Order} :
    (ρ.order o).OwnOf (ρ.account acct) ↔ o.OwnOf acct := by
  have hzero : ρ.account acct = 0 ↔ acct = 0 := by
    rw [← ρ.account_zero, ρ.account_injective.eq_iff, ρ.account_zero]
  simp only [Order.OwnOf, order, ne_eq, hzero, ρ.account_injective.eq_iff]

theorem fates_untouched (os : List Order) :
    ρ.fates (untouched os) = untouched (os.map ρ.order) := by
  simp [fates, untouched]

theorem settle_order (pol : SelfCrossPolicy) (acct : UInt32) (os : List Order) (rem : UInt64) :
    settle pol (ρ.account acct) (os.map ρ.order) rem =
      ρ.outcome (settle pol acct os rem) := by
  induction os generalizing rem with
  | nil => rfl
  | cons o os ih =>
      rw [List.map_cons]
      unfold settle
      simp only [ownOf_order]
      split_ifs with hrem hown
      · rw [outcome, fates_untouched]
        rfl
      · cases pol with
        | cancelNewest =>
            simp only
            rw [outcome, fates_untouched]
            rfl
        | cancelOldest =>
            simp only [ih]
            rfl
        | decrementTrade =>
            simp only [ih]
            rfl
      · simp only [ih]
        rfl

@[simp] theorem taken_fates (l : List (Order × Fate)) : taken (ρ.fates l) = taken l := by
  simp [taken, fates, Function.comp_def]

theorem after_order (o : Order) (f : Fate) : f.after (ρ.order o) = (f.after o).map ρ.order := by
  have hless (qty : UInt64) : (ρ.order o).less qty = (o.less qty).map ρ.order := by
    unfold Order.less
    by_cases hz : o.remaining - qty = 0
    · rw [if_pos hz, if_pos (show (ρ.order o).remaining - qty = 0 from hz)]
      rfl
    · rw [if_neg hz, if_neg (show (ρ.order o).remaining - qty ≠ 0 from hz)]
      rfl
  cases f with
  | kept => rfl
  | filled qty => exact hless qty
  | selfTraded qty => exact hless qty
  | expired => rfl

theorem survivors_fates (l : List (Order × Fate)) :
    survivors (ρ.fates l) = (survivors l).map ρ.order := by
  simp only [survivors, fates, List.filterMap_map, List.map_filterMap, Function.comp_def,
    after_order]

theorem notices_fates (m : SubmitMsg) (seq : UInt64) (l : List (Order × Fate)) :
    notices (ρ.submit m) seq (ρ.fates l) = (notices m seq l).map ρ.event := by
  induction l generalizing seq with
  | nil => rfl
  | cons a l ih =>
      obtain ⟨o, f⟩ := a
      change notices (ρ.submit m) seq ((ρ.order o, f) :: ρ.fates l) = _
      cases f with
      | kept => exact ih seq
      | expired => exact ih seq
      | filled qty =>
          simp only [notices, ih, List.map_cons]
          rfl
      | selfTraded qty =>
          simp only [notices, ih, List.map_cons]
          rfl

theorem unstamped_event (ev : Event) : (ρ.event ev).unstamped = ρ.event ev.unstamped := by
  cases ev <;> rfl

theorem deals_fates (m : SubmitMsg) (l : List (Order × Fate)) :
    deals (ρ.submit m) (ρ.fates l) = (deals m l).map ρ.event := by
  simp only [deals, notices_fates, List.map_map]
  exact List.map_congr_left fun ev _ => unstamped_event ev

@[simp] theorem records_submit (m : SubmitMsg) (r : Remainder) :
    r.records (ρ.submit m) = (r.records m).map ρ.order := by
  cases r <;> rfl

theorem news_submit (m : SubmitMsg) (r : Remainder) :
    r.news (ρ.submit m) = (r.news m).map ρ.event := by
  cases r <;> rfl

theorem id_eq_zero {id : UInt64} : ρ.id id = 0 ↔ id = 0 := by
  constructor
  · intro h
    exact ρ.id_injective (h.trans ρ.id_zero.symm)
  · rintro rfl
    exact ρ.id_zero

theorem renames_modify (m : ModifyMsg) : (ρ.modify m).renames = m.renames := by
  simp only [ModifyMsg.renames, modify, ne_eq, id_eq_zero, ρ.id_injective.eq_iff]

variable (ρ) in
theorem effectiveId_modify (m : ModifyMsg) : (ρ.modify m).effectiveId = ρ.id m.effectiveId := by
  unfold ModifyMsg.effectiveId modify
  simp only [ne_eq, id_eq_zero]
  split_ifs <;> rfl

end Relabelling
end Orderbooks
