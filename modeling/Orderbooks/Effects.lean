import Orderbooks.Sweep

/-!
# What a command can do to the resting orders

Each command changes the queues in one of a few ways. A submit wears down the
opposite side and may then rest what is left of it; a cancel drops one order; a
modify renames an order, changes its quantity in place, moves it, or drops and
submits it again. Every invariant of the book follows from these shapes.
-/
namespace Orderbooks

namespace Queues

variable {ticks : ℕ}

/-- The queues after orders of side `opp` lost quantity or left. -/
inductive Worn (opp : Side) (d : Queues ticks) : Queues ticks → Prop
  | refl : Worn opp d d
  | decrement {d' : Queues ticks} {u : ℕ} {qty : UInt64} : Worn opp d d' → d'.Linked u →
      (d'.orders u).s = opp → qty ≠ 0 → qty ≤ (d'.orders u).remaining →
      Worn opp d (d'.setRemaining u qty)
  | drop {d' : Queues ticks} {u : ℕ} {qty : UInt64} : Worn opp d d' → d'.Linked u →
      (d'.orders u).s = opp → Worn opp d ((d'.setRemaining u qty).drop u)

/-- A submitted order rests with `remaining` open. -/
def rest (d : Queues ticks) (m : SubmitMsg) (remaining : UInt64) : Queues ticks :=
  (({ d with next := d.next + 1 } : Queues ticks).enter d.next
    ⟨m.id, remaining, m.px, m.s, m.t, m.accountId⟩).setIndex m.id (some d.next)

theorem rest_levels (d : Queues ticks) (m : SubmitMsg) (rem : UInt64) (t : Side) (r : ℕ) :
    (d.rest m rem).levels t r =
      if t = m.s ∧ r = m.px then d.levels t r ++ [d.next] else d.levels t r :=
  enter_levels

@[simp] theorem rest_orders (d : Queues ticks) (m : SubmitMsg) (rem : UInt64) :
    (d.rest m rem).orders =
      Function.update d.orders d.next ⟨m.id, rem, m.px, m.s, m.t, m.accountId⟩ := rfl

theorem WellFormed.linked_rest {d : Queues ticks} (hd : d.WellFormed) (m : SubmitMsg)
    (rem : UInt64) {v : ℕ} : (d.rest m rem).Linked v ↔ d.Linked v ∨ v = d.next :=
  linked_enter (d := { d with next := d.next + 1 }) hd.next_notMem

theorem WellFormed.rest {d : Queues ticks} (hd : d.WellFormed) {m : SubmitMsg}
    (hpx : m.px < ticks) (rem : UInt64) : (d.rest m rem).WellFormed := by
  have hwf := (hd.setNext (Nat.le_succ d.next)).enter
    (o := ⟨m.id, rem, m.px, m.s, m.t, m.accountId⟩) hd.next_notMem (Nat.lt_succ_self _) hpx
  have := hwf.setIndex (u := d.next) (linked_enter hd.next_notMem |>.mpr (.inr rfl))
  simpa [Queues.rest] using this

theorem Worn.wellFormed {opp : Side} {d d' : Queues ticks} (h : Worn opp d d')
    (hd : d.WellFormed) : d'.WellFormed := by
  induction h with
  | refl => exact hd
  | decrement _ _ _ _ _ ih => exact ih.setRemaining _ _
  | drop _ _ _ ih => exact (ih.setRemaining _ _).drop _

/-- Nothing resting opposite `s` trades with the price `px`. -/
def Clear (d : Queues ticks) (s : Side) (px : ℕ) : Prop :=
  ∀ q, d.levels s.opposite q ≠ [] → s.crosses px q = false

/-- When the best opposite price does not trade with `px`, no price does. -/
theorem clear_of_best {d : Queues ticks} {s : Side} {px : ℕ} (hd : d.WellFormed)
    (h : d.best s.opposite = none ∨
      ∃ p, d.best s.opposite = some p ∧ s.crosses px p = false) : d.Clear s px := by
  intro q hq
  rcases h with hnone | ⟨p, hp, hcross⟩
  · exact absurd ((best_eq_none hd).mp hnone q) hq
  · have hbest := hd.isBest_best s.opposite
    rw [hp] at hbest
    have := hbest.2 q hq
    cases s <;>
      simp only [Side.crosses, Side.better, Side.opposite, decide_eq_false_iff_not] at * <;>
      omega

/-- What a submit makes of the queues. -/
inductive Submitted (capacity : ℕ) (m : SubmitMsg) (d : Queues ticks) : Queues ticks → Prop
  | left {d' : Queues ticks} : Worn m.s.opposite d d' → Submitted capacity m d d'
  | rested {d' : Queues ticks} {rem : UInt64} : Worn m.s.opposite d d' → rem ≠ 0 → rem ≤ m.qty →
      m.t = .gtc → d'.live < capacity → d'.Clear m.s m.px →
      Submitted capacity m d (d'.rest m rem)

theorem Submitted.wellFormed {capacity : ℕ} {m : SubmitMsg} {d d' : Queues ticks}
    (h : Submitted capacity m d d') (hd : d.WellFormed) (hpx : m.px < ticks) : d'.WellFormed := by
  cases h with
  | left hw => exact hw.wellFormed hd
  | rested hw => exact (hw.wellFormed hd).rest hpx _

/-- The order `u` as a message that submits it again elsewhere. -/
def asSubmit (d : Queues ticks) (u newPx : ℕ) (newQty : UInt64) : SubmitMsg :=
  ⟨(d.orders u).id, newPx, newQty, (d.orders u).s, (d.orders u).t, (d.orders u).accountId⟩

/-- What a new price and quantity for the order `u` make of the queues. -/
inductive Repriced (capacity u newPx : ℕ) (newQty : UInt64) (d : Queues ticks) :
    Queues ticks → Prop
  | same : newPx = (d.orders u).px → newQty = (d.orders u).remaining →
      Repriced capacity u newPx newQty d d
  | requantified : newPx = (d.orders u).px → newQty ≠ (d.orders u).remaining →
      Repriced capacity u newPx newQty d (d.setRemaining u newQty)
  | moved : newPx ≠ (d.orders u).px → d.Clear (d.orders u).s newPx →
      Repriced capacity u newPx newQty d (d.move u newPx newQty)
  | resubmitted {d' : Queues ticks} : newPx ≠ (d.orders u).px →
      Submitted capacity (d.asSubmit u newPx newQty) (d.drop u) d' →
      Repriced capacity u newPx newQty d d'

/-- The order `u` under the id a modify leaves it with. -/
def chained (d : Queues ticks) (u : ℕ) (m : ModifyMsg) : Queues ticks :=
  if m.renames then d.rename u m.newId else d

theorem WellFormed.chained {d : Queues ticks} {u : ℕ} (hd : d.WellFormed) (hu : d.Linked u)
    (m : ModifyMsg) : (d.chained u m).WellFormed := by
  unfold Queues.chained
  split_ifs
  · exact hd.rename hu m.newId
  · exact hd

/-- What a command that reaches `target` makes of the queues. -/
inductive Effect (capacity : ℕ) (d : Queues ticks) : Option ℕ → Command → Queues ticks → Prop
  | submit {target : Option ℕ} {m : SubmitMsg} {d' : Queues ticks} :
      Submitted capacity m d d' → Effect capacity d target (.submit m) d'
  | cancelNone {m : CancelMsg} : Effect capacity d none (.cancel m) d
  | cancel {u : ℕ} {m : CancelMsg} : Effect capacity d (some u) (.cancel m) (d.drop u)
  | modifyNone {m : ModifyMsg} : Effect capacity d none (.modify m) d
  | modify {u : ℕ} {m : ModifyMsg} {d' : Queues ticks} :
      Repriced capacity u m.newPx m.newQty (d.chained u m) d' →
      Effect capacity d (some u) (.modify m) d'

end Queues

namespace PriorityBook
open Queues

variable {ticks : ℕ} {m : SubmitMsg} {b : PriorityBook ticks} {rem : UInt64} {u : ℕ}

@[simp] theorem publishTopIfChanged_queues : b.publishTopIfChanged.queues = b.queues := by
  unfold publishTopIfChanged
  dsimp only
  split <;> rfl

@[simp] theorem strike_capacity (p : ℕ) :
    (strike m p u b rem).book.capacity = b.capacity := by
  unfold strike announce
  dsimp only
  split_ifs <;> rfl

/-- Meeting the maker at the front of a level wears down its side. -/
theorem strike_worn {d : Queues ticks} {p : ℕ} {q : List ℕ} (hd : b.queues.WellFormed)
    (h : Worn m.s.opposite d b.queues) (hq : b.queues.levels m.s.opposite p = u :: q) :
    Worn m.s.opposite d (strike m p u b rem).book.queues := by
  have hmem : u ∈ b.queues.levels m.s.opposite p := by simp [hq]
  have hlinked := hd.linked hmem
  have hside := (hd.placed _ _ u hmem).1
  rcases strike_cases m p u b rem with ⟨_, _, hb⟩ | ⟨_, _, hb⟩ | ⟨qty, hqty, _, _, hb⟩
  · rwa [hb]
  · have hsame : b.queues.setRemaining u (b.order u).remaining = b.queues := by
      simp [setRemaining, setOrder, order]
    have : Worn m.s.opposite d ((b.queues.setRemaining u (b.order u).remaining).drop u) :=
      h.drop hlinked hside
    rw [hsame] at this
    rwa [hb]
  · rw [hb]
    split_ifs with hz
    · rw [drop_queues, decrement_queues, announce_queues]
      exact h.drop hlinked hside
    · rw [decrement_queues, announce_queues]
      refine h.decrement hlinked hside hz ?_
      rw [UInt64.le_iff_toNat_le, hqty, (toNat_sub_min rem _).2]
      exact Nat.sub_le _ _

theorem strike_remaining_le (p : ℕ) : (strike m p u b rem).remaining ≤ rem := by
  rcases strike_cases m p u b rem with ⟨_, hr, _⟩ | ⟨_, hr, _⟩ | ⟨qty, hqty, _, hr, _⟩
  · rw [hr]
    exact UInt64.zero_le
  · rw [hr]
    exact UInt64.le_refl rem
  · rw [hr, hqty, UInt64.le_iff_toNat_le, (toNat_sub_min rem _).1]
    exact Nat.sub_le _ _

/-- A sweep wears down the opposite side, and stops where nothing crosses. -/
theorem sweep_effect (m : SubmitMsg) (rem : UInt64) (hd : b.queues.WellFormed) :
    Worn m.s.opposite b.queues (sweep m b rem).book.queues ∧
      (sweep m b rem).remaining ≤ rem ∧ (sweep m b rem).book.capacity = b.capacity ∧
      (sweep m b rem).book.queues.WellFormed ∧
      ((sweep m b rem).remaining ≠ 0 → (sweep m b rem).book.queues.Clear m.s m.px) := by
  obtain ⟨⟨hworn, hle, hcap⟩, hwf, hend⟩ := sweep_induct (m := m)
    (I := fun b' r => Worn m.s.opposite b.queues b'.queues ∧ r ≤ rem ∧ b'.capacity = b.capacity)
    (fun b' r p u q hwf h _ _ _ hq =>
      ⟨strike_worn hwf h.1 hq, UInt64.le_trans (strike_remaining_le p) h.2.1,
        (strike_capacity p).trans h.2.2⟩)
    b rem hd ⟨.refl, UInt64.le_refl rem, rfl⟩
  refine ⟨hworn, hle, hcap, hwf, fun hr q hq => ?_⟩
  split_ifs at hend with hab
  · exact absurd hend hr
  exact clear_of_best hwf (hend.resolve_left hr) q hq

theorem rest_queues (hcap : ¬ b.capacity ≤ b.queues.live) :
    (b.rest m rem).queues = b.queues.rest m rem := by
  unfold PriorityBook.rest
  rw [if_neg hcap]
  rfl

theorem handleSubmit_effect (m : SubmitMsg) (hd : b.queues.WellFormed) :
    Submitted b.capacity m b.queues (b.handleSubmit m).queues := by
  obtain ⟨hworn, hle, hcap, hwf, hclear⟩ := sweep_effect m m.qty hd
  unfold handleSubmit
  dsimp only
  split_ifs with hkill hz
  · exact .left .refl
  · exact .left hworn
  · cases ht : m.t with
    | ioc => exact .left hworn
    | fok => exact .left hworn
    | gtc =>
        dsimp only
        by_cases hfull : (sweep m b m.qty).book.capacity ≤ (sweep m b m.qty).book.queues.live
        · unfold PriorityBook.rest
          rw [if_pos hfull]
          exact .left hworn
        · rw [rest_queues hfull]
          exact .rested hworn hz hle ht (hcap ▸ Nat.lt_of_not_le hfull) (hclear hz)

@[simp] theorem publishTopIfChanged_capacity :
    b.publishTopIfChanged.capacity = b.capacity := by
  unfold publishTopIfChanged
  dsimp only
  split <;> rfl

@[simp] theorem cancelAt_queues : (b.cancelAt u).queues = b.queues.drop u := by
  simp [cancelAt, markTop, drop, onQueues]

@[simp] theorem cancelAt_capacity : (b.cancelAt u).capacity = b.capacity := by
  simp [cancelAt, markTop, drop, onQueues]

theorem reprice_effect (u newPx : ℕ) (newQty : UInt64) (hd : b.queues.WellFormed) :
    Repriced b.capacity u newPx newQty b.queues (b.reprice u newPx newQty).queues := by
  have hrelink : (b.relink u newPx newQty).queues = b.queues.move u newPx newQty := by
    simp [relink, markTop, onQueues]
  unfold reprice
  dsimp only
  split_ifs with hpx hqty
  · exact .same hpx hqty
  · simp only [requantify, publishTopIfChanged_queues]
    exact .requantified hpx hqty
  · cases hbest : b.queues.best (b.order u).s.opposite with
    | none =>
        rw [hrelink]
        exact .moved hpx (clear_of_best hd (.inl hbest))
    | some q =>
        dsimp only
        split_ifs with hcross
        · rw [hrelink]
          exact .moved hpx (clear_of_best hd (.inr ⟨q, hbest, by simpa using hcross⟩))
        · refine .resubmitted hpx ?_
          have hwf : (b.suppress.cancelAt u).queues.WellFormed := by
            rw [cancelAt_queues]
            exact hd.drop u
          have := handleSubmit_effect (b.queues.asSubmit u newPx newQty) hwf
          rw [cancelAt_queues, cancelAt_capacity] at this
          simp only [resubmit, onSubmit, unsuppress, publishTopIfChanged_queues]
          exact this

/-- Every command acts on the queues in one of the listed ways. -/
theorem applyAt_effect {target : Option ℕ} (cmd : Command) (hd : b.queues.WellFormed)
    (hu : ∀ u, target = some u → b.queues.Linked u) :
    Effect b.capacity b.queues target cmd (b.applyAt target cmd).queues := by
  cases cmd with
  | submit m =>
      simp only [applyAt, onSubmit, publishTopIfChanged_queues]
      exact .submit (handleSubmit_effect m hd)
  | cancel m =>
      cases target with
      | none => exact .cancelNone
      | some u =>
          simp only [applyAt, Option.elim, cancelAt_queues]
          exact .cancel
  | modify m =>
      cases target with
      | none => exact .modifyNone
      | some u =>
          refine .modify ?_
          have hwf := hd.chained (hu u rfl) m
          simp only [applyAt, Option.elim, modifyAt]
          unfold chained at hwf ⊢
          split_ifs at hwf ⊢ with hren
          · exact reprice_effect (b := b.onQueues (·.rename u m.newId)) u _ _ hwf
          · exact reprice_effect u _ _ hwf

end PriorityBook
end Orderbooks
