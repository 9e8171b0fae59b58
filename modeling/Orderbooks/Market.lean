import Orderbooks.TopStream
import Orderbooks.FillOrKill
import Orderbooks.Residency
import Orderbooks.Lib.Runs

/-!
# The market behind the book

What the engine is for, said without any of its parts: a market is the orders that rest at each
side and price, oldest first, and a command makes of it another market and some news. There is no
id index, no arena, no cached price and no number that a resting order goes by: an order is found
by its id, and a modify to another price is a cancel followed by a submit.

News are events without stamps. After the news of a command comes the new top, when it is due:
with the throttle on when the top has changed, with it off when any resting quantity has.
-/
namespace Orderbooks
open Runs

/-- What a market is run by. -/
structure Rules where
  ticks : ℕ
  capacity : ℕ
  selfCross : SelfCrossPolicy
  topThrottle : Bool
  deriving DecidableEq, Repr

def Event.stamp (seq : UInt64) : Event → Event
  | .fill m => .fill { m with seq := seq }
  | .top m => .top { m with seq := seq }
  | .trade m => .trade { m with seq := seq }
  | .selfTrade m => .selfTrade { m with seq := seq }
  | .reject m => .reject { m with seq := seq }

/-- The event as it was before it was numbered. -/
def Event.unstamped (ev : Event) : Event := ev.stamp 0

/-- What is said of a top. -/
def Top.news (t : Top) : Event := .top ⟨t.bidPx, t.askPx, t.bidQty, t.askQty, 0⟩

/-- What is said of the makers an aggressor meets. -/
def deals (m : SubmitMsg) (fates : List (Order × Fate)) : List Event :=
  (notices m 0 fates).map Event.unstamped

/-- What is said of what is left of an aggressor. -/
def Remainder.news (m : SubmitMsg) : Remainder → List Event
  | .rejected qty => [.reject ⟨m.id, m.accountId, m.px, qty, .arenaFull, 0⟩]
  | _ => []

/-- A maker loses quantity at most. -/
theorem Fate.eq_of_after {o o' : Order} {f : Fate} (h : f.after o = some o') :
    o' = { o with remaining := o.remaining - f.taken } := by
  have hless {qty : UInt64} (h : o.less qty = some o') :
      o' = { o with remaining := o.remaining - qty } := by
    unfold Order.less at h
    split_ifs at h
    exact (Option.some.inj h).symm
  cases f with
  | kept =>
      rw [← Option.some.inj h, Fate.taken, UInt64.sub_zero]
  | filled qty => exact hless h
  | selfTraded qty => exact hless h
  | expired => simp [Fate.after] at h

theorem Fate.px_of_after {o o' : Order} {f : Fate} (h : f.after o = some o') : o'.px = o.px := by
  rw [Fate.eq_of_after h]

/-- The orders at each side and price, oldest first. -/
abbrev Market := Side → ℕ → List Order

namespace Market

variable (R : Rules) (M : Market)

/-- The makers in an aggressor's reach, in the order it meets them. -/
def makers (m : SubmitMsg) : List Order :=
  ((m.s.opposite.priority R.ticks).filter (m.s.crosses m.px)).flatMap (M m.s.opposite)

/-- What becomes of the makers and of the aggressor. A fill-or-kill order that would not be
filled meets nobody. -/
def outcome (m : SubmitMsg) : Outcome :=
  let k := settle R.selfCross m.accountId (M.makers R m) m.qty
  if m.t = .fok ∧ taken k.fates ≠ m.qty.toNat then ⟨untouched (M.makers R m), m.qty, false⟩ else k

/-- The market once the makers in reach have met their fates. -/
def matched (m : SubmitMsg) (fates : List (Order × Fate)) : Market := fun s p =>
  if s = m.s.opposite ∧ m.s.crosses m.px p = true then (survivors fates).filter (·.px = p)
  else M s p

def size : ℕ := ∑ p ∈ Finset.range R.ticks, ((M .bid p).length + (M .ask p).length)

/-- What becomes of the quantity `left` that nobody has met. -/
def remainder (m : SubmitMsg) (left : UInt64) : Remainder :=
  if left = 0 ∨ m.t ≠ .gtc then .gone
  else if R.capacity ≤ M.size R then .rejected left
  else .rests left

/-- Join the queue at the aggressor's price. -/
def join (m : SubmitMsg) (r : Remainder) : Market := fun s p =>
  M s p ++ if s = m.s ∧ p = m.px then r.records m else []

@[simp] theorem join_gone (m : SubmitMsg) : M.join m .gone = M := by
  funext s p
  simp [join, Remainder.records]

@[simp] theorem join_rejected (m : SubmitMsg) (qty : UInt64) : M.join m (.rejected qty) = M := by
  funext s p
  simp [join, Remainder.records]

def submit (m : SubmitMsg) : Market × List Event :=
  let k := M.outcome R m
  let M' := M.matched m k.fates
  let r := M'.remainder R m k.left
  (M'.join m r, deals m k.fates ++ r.news m)

def cancel (id : UInt64) : Market := fun s p => (M s p).filter (·.id ≠ id)

/-- All that rests. -/
def listing : List Order := [Side.bid, Side.ask].flatMap fun s => (List.range R.ticks).flatMap (M s)

def find (id : UInt64) : Option Order := (M.listing R).find? (·.id = id)

/-- Change the order `id` where it stands. -/
def amend (id : UInt64) (f : Order → Order) : Market := fun s p =>
  (M s p).map fun o => if o.id = id then f o else o

def modify (m : ModifyMsg) : Market × List Event :=
  match M.find R m.id with
  | none => (M, [])
  | some o =>
      if m.newPx = o.px then
        (M.amend m.id fun o => { o with id := m.effectiveId, remaining := m.newQty }, [])
      else (M.cancel m.id).submit R ⟨m.effectiveId, m.newPx, m.newQty, o.s, o.t, o.accountId⟩

section Modify
variable {R M} {m : ModifyMsg} {o : Order}

theorem modify_none (h : M.find R m.id = none) : M.modify R m = (M, []) := by
  simp [modify, h]

theorem modify_amend (h : M.find R m.id = some o) (hpx : m.newPx = o.px) :
    M.modify R m =
      (M.amend m.id fun o => { o with id := m.effectiveId, remaining := m.newQty }, []) := by
  simp [modify, h, hpx]

theorem modify_move (h : M.find R m.id = some o) (hpx : m.newPx ≠ o.px) :
    M.modify R m =
      (M.cancel m.id).submit R ⟨m.effectiveId, m.newPx, m.newQty, o.s, o.t, o.accountId⟩ := by
  simp [modify, h, hpx]

end Modify

def step : Command → Market × List Event
  | .submit m => M.submit R m
  | .cancel m => (M.cancel m.id, [])
  | .modify m => M.modify R m

/-! ## The top -/

def best (s : Side) : Option ℕ := (s.priority R.ticks).find? fun p => !(M s p).isEmpty

def aggregate (s : Side) (p : ℕ) : UInt64 := ((M s p).map Order.remaining).sum

def top : Top := .of (M.best R) M.aggregate

def quantities (s : Side) (p : ℕ) : List UInt64 := (M s p).map Order.remaining

/-- Whether the top is published once `M` has become `M'`. -/
def due (M' : Market) : Bool :=
  if R.topThrottle then decide (M'.top R ≠ M.top R)
  else decide (∃ s, ∃ p < R.ticks, M'.quantities s p ≠ M.quantities s p)

/-- One command: the market it leaves and what is published. -/
def apply (cmd : Command) : Market × List Event :=
  let r := M.step R cmd
  (r.1, r.2 ++ if M.due R r.1 then [(r.1.top R).news] else [])

/-! ## The markets that come about -/

/-- Orders rest where they belong. -/
def Filed : Prop := ∀ s p, ∀ o ∈ M s p, o.s = s ∧ o.px = p ∧ p < R.ticks

section Filed
variable {R M} {m : SubmitMsg}

theorem Filed.makers (h : M.Filed R) : ∀ o ∈ M.makers R m, o.px < R.ticks := by
  intro o ho
  obtain ⟨p, -, ho⟩ := List.mem_flatMap.mp ho
  obtain ⟨-, rfl, hp⟩ := h _ p o ho
  exact hp

theorem makers_outcome : (M.outcome R m).fates.map Prod.fst = M.makers R m := by
  unfold outcome
  dsimp only
  split_ifs
  · exact makers_untouched _
  · exact (settle_lawful _ _ _ _).makers

theorem mem_makers_of_fate {a : Order × Fate} (ha : a ∈ (M.outcome R m).fates) :
    a.1 ∈ M.makers R m := by
  rw [← makers_outcome]
  exact List.mem_map_of_mem ha

theorem Filed.survivors (h : M.Filed R) :
    ∀ o ∈ survivors (M.outcome R m).fates, o.px < R.ticks := by
  intro o ho
  obtain ⟨⟨o₀, f⟩, ha, hafter⟩ := List.mem_filterMap.mp ho
  rw [Fate.px_of_after hafter]
  exact h.makers o₀ (mem_makers_of_fate ha)

end Filed

/-- Orders rest where they belong, no two have one id, and no quote is for nothing. -/
structure Sane : Prop where
  filed : M.Filed R
  named : ∀ s p s' p', ∀ o ∈ M s p, ∀ o' ∈ M s' p', o.id = o'.id → o = o'
  nodup : ∀ s p, ((M s p).map Order.id).Nodup
  quoted : ∀ s p, M s p ≠ [] → M.aggregate s p ≠ 0

variable {R M} in
theorem Sane.find_eq_some_iff (h : M.Sane R) {id : UInt64} {o : Order} :
    M.find R id = some o ↔ (∃ s p, o ∈ M s p) ∧ o.id = id := by
  have hmem (x : Order) : x ∈ M.listing R ↔ ∃ s p, x ∈ M s p := by
    simp only [listing, List.mem_flatMap, List.mem_range]
    constructor
    · rintro ⟨s, -, p, -, hx⟩
      exact ⟨s, p, hx⟩
    · rintro ⟨s, p, hx⟩
      exact ⟨s, by cases s <;> simp, p, (h.filed s p x hx).2.2, hx⟩
  unfold find
  constructor
  · intro hfind
    have hid := List.find?_some hfind
    exact ⟨(hmem o).mp (List.mem_of_find?_eq_some hfind), by simpa using hid⟩
  · rintro ⟨⟨s, p, ho⟩, rfl⟩
    cases hfind : (M.listing R).find? (·.id = o.id) with
    | none =>
        have hnone := List.find?_eq_none.mp hfind o ((hmem o).mpr ⟨s, p, ho⟩)
        simp at hnone
    | some x =>
        obtain ⟨s', p', hx⟩ := (hmem x).mp (List.mem_of_find?_eq_some hfind)
        have hid := List.find?_some hfind
        rw [h.named s' p' s p x hx o ho (by simpa using hid)]

/-! ## What holds of every order -/

def All (P : Order → Prop) : Prop := ∀ s p, ∀ o ∈ M s p, P o

section All
variable {R M} {P : Order → Prop} {m : SubmitMsg}

theorem outcome_lawful (R : Rules) (M : Market) (m : SubmitMsg) :
    (M.outcome R m).Lawful R.selfCross m.accountId (M.makers R m) m.qty := by
  unfold outcome
  dsimp only
  split_ifs
  · exact .untouched _ _ _ _
  · exact settle_lawful _ _ _ _

theorem left_le (R : Rules) (M : Market) (m : SubmitMsg) : (M.outcome R m).left ≤ m.qty := by
  rw [UInt64.le_iff_toNat_le]
  rcases (M.outcome_lawful R m).complete with h | ⟨-, h, -⟩
  · omega
  · rw [h]
    exact Nat.zero_le _

theorem All.makers (h : M.All P) : ∀ o ∈ M.makers R m, P o := by
  intro o ho
  obtain ⟨p, -, ho⟩ := List.mem_flatMap.mp ho
  exact h _ p o ho

theorem All.cancel (h : M.All P) (id : UInt64) : (M.cancel id).All P :=
  fun s p o ho => h s p o (List.mem_of_mem_filter ho)

theorem All.find (h : M.All P) {id : UInt64} {o : Order} (hfind : M.find R id = some o) : P o := by
  obtain ⟨s, -, ho⟩ := List.mem_flatMap.mp (List.mem_of_find?_eq_some hfind)
  obtain ⟨p, -, ho⟩ := List.mem_flatMap.mp ho
  exact h s p o ho

variable (hless : ∀ o r, r ≤ o.remaining → P o → P { o with remaining := r })
include hless

/-- What the makers keep as they lose quantity, and the aggressor brings, every order has after
the submit. -/
theorem All.submit (h : M.All P) (hnew : ∀ r ≤ m.qty, P ⟨m.id, r, m.px, m.s, m.t, m.accountId⟩) :
    (M.submit R m).1.All P := by
  have hlaw := M.outcome_lawful R m
  intro s p o ho
  rcases List.mem_append.mp ho with ho | ho
  · unfold matched at ho
    split_ifs at ho
    · obtain ⟨⟨o₀, f⟩, ha, hafter⟩ := List.mem_filterMap.mp (List.mem_of_mem_filter ho)
      have hle : o₀.remaining - f.taken ≤ o₀.remaining := by
        have htaken : f.taken ≤ o₀.remaining := hlaw.bounded _ ha
        rw [UInt64.le_iff_toNat_le, UInt64.toNat_sub_of_le _ _ htaken]
        exact Nat.sub_le _ _
      rw [Fate.eq_of_after hafter]
      exact hless o₀ _ hle (h.makers o₀ (mem_makers_of_fate ha))
    · exact h s p o ho
  · split_ifs at ho
    · -- the aggressor rests with what nobody has taken
      unfold remainder at ho
      split_ifs at ho
      · simp [Remainder.records] at ho
      · simp [Remainder.records] at ho
      · obtain rfl := List.mem_singleton.mp ho
        exact hnew _ (M.left_le R m)
    · simp at ho

theorem All.step (h : M.All P) {cmd : Command}
    (hsubmit : ∀ m, cmd = .submit m → ∀ r ≤ m.qty, P ⟨m.id, r, m.px, m.s, m.t, m.accountId⟩)
    (hmodify : ∀ m o, cmd = .modify m → P o →
      P { o with id := m.effectiveId, remaining := m.newQty } ∧
        P ⟨m.effectiveId, m.newQty, m.newPx, o.s, o.t, o.accountId⟩) :
    (M.step R cmd).1.All P := by
  cases cmd with
  | submit m => exact h.submit hless (hsubmit m rfl)
  | cancel m => exact h.cancel m.id
  | modify m =>
      change (M.modify R m).1.All P
      cases hfind : M.find R m.id with
      | none =>
          rw [modify_none hfind]
          exact h
      | some o =>
          by_cases hpx : m.newPx = o.px
          · rw [modify_amend hfind hpx]
            intro s p o' ho'
            obtain ⟨o₀, ho₀, rfl⟩ := List.mem_map.mp ho'
            split_ifs
            · exact (hmodify m o₀ rfl (h s p o₀ ho₀)).1
            · exact h s p o₀ ho₀
          · rw [modify_move hfind hpx]
            refine (h.cancel m.id).submit hless fun r hr => ?_
            exact hless _ r hr (hmodify m o rfl (h.find hfind)).2

end All

/-- No resting order has the id. -/
def Absent (id : UInt64) : Prop := ∀ s p, ∀ o ∈ M s p, o.id ≠ id

/-- The command gives no order an id that another order rests under. -/
def Fresh : Command → Prop
  | .submit m => M.Absent m.id
  | .cancel _ => True
  | .modify m => m.renames → M.Absent m.newId

/-- A day of trading: the market and all that has been published. -/
abbrev Day := Market × List Event

def Day.next (R : Rules) (day : Day) (cmd : Command) : Day :=
  ((day.1.apply R cmd).1, day.2 ++ (day.1.apply R cmd).2)

/-- A command in its domain that gives no order an id already in use. -/
def Day.Permits (R : Rules) (maxQty : UInt64) (day : Day) (cmd : Command) : Prop :=
  cmd.InDomain R.ticks maxQty ∧ day.1.Fresh cmd

def play (cmds : List Command) : Day := cmds.foldl (Day.next R) (fun _ _ => [], [])

/-- A run that only gives the market what it permits. -/
def Permitted (maxQty : UInt64) (cmds : List Command) : Prop :=
  Along (Day.next R) (Day.Permits R maxQty) (fun _ _ => [], []) cmds

theorem foldl_news (R : Rules) (day : Day) (cmds : List Command) :
    ∃ evs, (cmds.foldl (Day.next R) day).2 = day.2 ++ evs := by
  induction cmds generalizing day with
  | nil => exact ⟨[], (List.append_nil _).symm⟩
  | cons cmd cmds ih =>
      obtain ⟨evs, hevs⟩ := ih (day.next R cmd)
      exact ⟨(day.1.apply R cmd).2 ++ evs, by
        rw [List.foldl_cons, hevs, ← List.append_assoc]
        rfl⟩

section Concat
variable {R} {maxQty : UInt64} {cmds : List Command} {cmd : Command}

theorem play_concat (R : Rules) (cmds : List Command) (cmd : Command) :
    play R (cmds ++ [cmd]) = (play R cmds).next R cmd := by
  simp [play]

theorem permitted_concat : Permitted R maxQty (cmds ++ [cmd]) ↔
    Permitted R maxQty cmds ∧ (play R cmds).Permits R maxQty cmd := by
  simp [Permitted, along_append, Along, play]

end Concat

end Market

end Orderbooks
