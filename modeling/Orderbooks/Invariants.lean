import Orderbooks.Effects
import Mathlib.Algebra.BigOperators.Group.Finset.Piecewise

/-!
# Invariants of the resting orders

Four properties of the queues, each kept by every command: the book is not
crossed, every resting order is one a submit could have left there, the number
of resting orders is what the capacity check counts, and, as long as no resting
id is used again, the index names every resting order by its id.
-/
namespace Orderbooks

/-- An open quantity within the cap, under a valid id. -/
structure Order.Recordable (maxQty : UInt64) (o : Order) : Prop where
  id : ValidId o.id
  open_qty : o.remaining ≠ 0
  capped : o.remaining ≤ maxQty

/-- A record that can rest: good till cancelled besides. -/
structure Order.Sound (maxQty : UInt64) (o : Order) : Prop extends o.Recordable maxQty where
  gtc : o.t = .gtc

theorem Order.Sound.withRemaining {maxQty qty : UInt64} {o : Order} (h : o.Sound maxQty)
    (hz : qty ≠ 0) (hle : qty ≤ maxQty) : ({ o with remaining := qty } : Order).Sound maxQty :=
  ⟨⟨h.id, hz, hle⟩, h.gtc⟩

namespace Queues

variable {ticks : ℕ} {d d' : Queues ticks} {opp s : Side} {m : SubmitMsg} {rem qty : UInt64}
  {u v : ℕ} {cap newPx : ℕ} {newQty : UInt64} {target : Option ℕ} {cmd : Command}

/-- Orders that wear down leave their queues in place. -/
theorem Worn.sublist (h : Worn opp d d') (hd : d.WellFormed) (t : Side) (r : ℕ) :
    (d'.levels t r).Sublist (d.levels t r) := by
  induction h with
  | refl => exact List.Sublist.refl _
  | decrement _ _ _ _ _ ih => exact ih
  | @drop d' u qty hw _ _ ih =>
      have hwf := (hw.wellFormed hd).setRemaining u qty
      have : ((d'.setRemaining u qty).drop u).levels t r = (d'.levels t r).erase u :=
        hwf.unlink_levels_eq_erase
      rw [this]
      exact List.erase_sublist.trans ih

/-! ## Not crossed -/

/-- No resting order trades with another. -/
def Uncrossed (d : Queues ticks) : Prop := ∀ s p, d.levels s p ≠ [] → d.Clear s p

theorem Uncrossed.empty : ({} : Queues ticks).Uncrossed := fun s p h => by simp at h

/-- A crossing looks the same from both sides. -/
theorem crosses_opposite (s : Side) (p q : ℕ) : s.opposite.crosses q p = s.crosses p q := by
  cases s <;> rfl

/-- Adding orders at `px` on side `s`, where nothing opposite trades with them. -/
theorem Uncrossed.add (h : d.Uncrossed) (hclear : d.Clear s newPx)
    (hlev : ∀ t r, d'.levels t r ≠ [] → d.levels t r ≠ [] ∨ t = s ∧ r = newPx) :
    d'.Uncrossed := by
  intro t p hp q hq
  rcases hlev t p hp with hp | ⟨rfl, rfl⟩
  · rcases hlev t.opposite q hq with hq | ⟨hs, rfl⟩
    · exact h t p hp q hq
    · rw [← crosses_opposite, hs]
      refine hclear p ?_
      rwa [← hs, Side.opposite_opposite]
  · rcases hlev t.opposite q hq with hq | ⟨hs, _⟩
    · exact hclear q hq
    · exact absurd hs t.opposite_ne

theorem Uncrossed.mono (h : d.Uncrossed)
    (hlev : ∀ t r, d'.levels t r ≠ [] → d.levels t r ≠ []) : d'.Uncrossed :=
  fun t p hp q hq => h t p (hlev t p hp) q (hlev _ q hq)

theorem Uncrossed.worn (h : d.Uncrossed) (hw : Worn opp d d') (hd : d.WellFormed) :
    d'.Uncrossed :=
  h.mono fun t r hne hnil => hne (List.eq_nil_of_sublist_nil (hnil ▸ hw.sublist hd t r))

theorem Uncrossed.drop (h : d.Uncrossed) (hd : d.WellFormed) (u : ℕ) : (d.drop u).Uncrossed :=
  h.mono fun t r hne hnil => hne (by
    change (d.unlink u).levels t r = []
    rw [hd.unlink_levels_eq_erase, hnil]
    rfl)

theorem Uncrossed.submitted (h : d.Uncrossed) (hd : d.WellFormed)
    (hs : Submitted cap m d d') : d'.Uncrossed := by
  cases hs with
  | left hw => exact h.worn hw hd
  | rested hw _ _ _ _ hclear =>
      refine (h.worn hw hd).add hclear fun t r hne => ?_
      rw [rest_levels] at hne
      split_ifs at hne with hat
      · exact .inr hat
      · exact .inl hne

theorem Uncrossed.repriced (h : d.Uncrossed) (hd : d.WellFormed)
    (hr : Repriced cap u newPx newQty d d') : d'.Uncrossed := by
  cases hr with
  | same => exact h
  | requantified => exact h
  | moved _ hclear =>
      refine h.add hclear fun t r hne => ?_
      rw [hd.move_levels] at hne
      split_ifs at hne with hat
      · exact .inr hat
      · exact .inl fun hnil => hne (by rw [hnil]; rfl)
  | resubmitted _ hs => exact (h.drop hd u).submitted (hd.drop u) hs

theorem Uncrossed.effect (h : d.Uncrossed) (hd : d.WellFormed)
    (hu : ∀ u, target = some u → d.Linked u) (he : Effect cap d target cmd d') :
    d'.Uncrossed := by
  cases he with
  | submit hs => exact h.submitted hd hs
  | cancelNone => exact h
  | cancel => exact h.drop hd _
  | modifyNone => exact h
  | @modify u m _ hr =>
      refine Uncrossed.repriced ?_ (hd.chained (hu u rfl) m) hr
      unfold chained
      split_ifs <;> exact h

/-! ## Orders a submit could have left -/

/-- Every resting order is sound. -/
def Sound (maxQty : UInt64) (d : Queues ticks) : Prop :=
  ∀ u, d.Linked u → (d.orders u).Sound maxQty

variable {maxQty : UInt64}

theorem Sound.empty : ({} : Queues ticks).Sound maxQty := fun u h => by simp [Linked] at h

/-- A change of the record of one order. -/
theorem Sound.update {o : Order} (h : d.Sound maxQty) (ho : o.Sound maxQty)
    (horders : d'.orders = Function.update d.orders u o)
    (hlinked : ∀ v, v ≠ u → d'.Linked v → d.Linked v) : d'.Sound maxQty := by
  intro v hv
  rw [horders]
  by_cases hvu : v = u
  · subst hvu
    rwa [Function.update_self]
  · rw [Function.update_of_ne hvu]
    exact h v (hlinked v hvu hv)

theorem Sound.drop (h : d.Sound maxQty) (hd : d.WellFormed) (u : ℕ) : (d.drop u).Sound maxQty :=
  fun v hv => h v (hd.linked_drop.mp hv).1

theorem Sound.worn (h : d.Sound maxQty) (hw : Worn opp d d') (hd : d.WellFormed) :
    d'.Sound maxQty := by
  induction hw with
  | refl => exact h
  | @decrement d' u qty hw hu _ hz hle ih =>
      exact ih.update ((ih u hu).withRemaining hz (UInt64.le_trans hle (ih u hu).capped)) rfl
        fun v _ hv => (linked_setRemaining qty).mp hv
  | @drop d' u qty hw hu _ ih =>
      intro v hv
      obtain ⟨hv, hne⟩ := ((hw.wellFormed hd).setRemaining u qty).linked_drop.mp hv
      rw [drop_orders, setRemaining_orders, Function.update_of_ne hne]
      exact ih v ((linked_setRemaining qty).mp hv)

theorem Sound.submitted (h : d.Sound maxQty) (hd : d.WellFormed) (hs : Submitted cap m d d')
    (hqty : m.qty ≤ maxQty) (hid : ValidId m.id) : d'.Sound maxQty := by
  cases hs with
  | left hw => exact h.worn hw hd
  | rested hw hz hle hgtc _ _ =>
      refine (h.worn hw hd).update ⟨⟨hid, hz, UInt64.le_trans hle hqty⟩, hgtc⟩ rfl
        fun v hne hv => ?_
      exact (((hw.wellFormed hd).linked_rest m _).mp hv).resolve_right hne

theorem Sound.repriced (h : d.Sound maxQty) (hd : d.WellFormed) (hu : d.Linked u)
    (hz : newQty ≠ 0) (hle : newQty ≤ maxQty) (hr : Repriced cap u newPx newQty d d') :
    d'.Sound maxQty := by
  cases hr with
  | same => exact h
  | requantified =>
      exact h.update ((h u hu).withRemaining hz hle) rfl fun v _ hv =>
        (linked_setRemaining newQty).mp hv
  | moved =>
      have ho : ({ d.orders u with px := newPx, remaining := newQty } : Order).Sound maxQty :=
        ⟨⟨(h u hu).id, hz, hle⟩, (h u hu).gtc⟩
      exact h.update ho rfl fun v _ hv => (hd.linked_move hu newPx newQty).mp hv
  | resubmitted _ hs => exact (h.drop hd u).submitted (hd.drop u) hs hle (h u hu).id

theorem Sound.chained (h : d.Sound maxQty) (hu : d.Linked u) {m : ModifyMsg}
    (hnew : m.newId ≠ emptyKey) : (d.chained u m).Sound maxQty := by
  unfold Queues.chained
  split_ifs with hren
  · have hne : m.newId ≠ 0 := by
      simp only [ModifyMsg.renames, decide_eq_true_eq] at hren
      exact hren.1
    have ho : ({ d.orders u with id := m.newId } : Order).Sound maxQty :=
      ⟨⟨⟨hne, hnew⟩, (h u hu).open_qty, (h u hu).capped⟩, (h u hu).gtc⟩
    exact h.update ho rfl fun v _ hv => (linked_rename m.newId).mp hv
  · exact h

@[simp] theorem linked_chained (m : ModifyMsg) : (d.chained u m).Linked v ↔ d.Linked v := by
  unfold Queues.chained
  split_ifs
  · exact linked_rename m.newId
  · exact Iff.rfl

theorem Sound.effect (h : d.Sound maxQty) (hd : d.WellFormed)
    (hu : ∀ u, target = some u → d.Linked u) (hdom : cmd.InDomain ticks maxQty)
    (he : Effect cap d target cmd d') : d'.Sound maxQty := by
  cases he with
  | submit hs => exact h.submitted hd hs hdom.2.2.1 hdom.2.2.2
  | cancelNone => exact h
  | cancel => exact h.drop hd _
  | modifyNone => exact h
  | @modify u m _ hr =>
      obtain ⟨_, hpos, hle, _, hnew⟩ := hdom
      exact (h.chained (hu u rfl) hnew).repriced (hd.chained (hu u rfl) m)
        ((linked_chained m).mpr (hu u rfl)) (UInt64.pos_iff_ne_zero.mp hpos) hle hr

/-! ## How many orders rest -/

/-- The number of orders that rest on either side. -/
def count (d : Queues ticks) : ℕ :=
  ∑ p ∈ Finset.range ticks, ((d.levels .bid p).length + (d.levels .ask p).length)

/-- One more order at one price. -/
theorem count_eq_add_one {p : ℕ} (hp : p < ticks)
    (h : ∀ t r, (d'.levels t r).length = (d.levels t r).length + if t = s ∧ r = p then 1 else 0) :
    d'.count = d.count + 1 := by
  have hone : ∀ r, (if Side.bid = s ∧ r = p then 1 else 0) + (if Side.ask = s ∧ r = p then 1 else 0)
      = if p = r then 1 else 0 := fun r => by
    cases s <;> simp [eq_comm]
  have hsum : ∀ r, (d'.levels .bid r).length + (d'.levels .ask r).length =
      ((d.levels .bid r).length + (d.levels .ask r).length) + if p = r then 1 else 0 := fun r => by
    rw [h, h, ← hone r]
    omega
  unfold count
  rw [Finset.sum_congr rfl fun r _ => hsum r, Finset.sum_add_distrib, Finset.sum_ite_eq,
    if_pos (Finset.mem_range.mpr hp)]

theorem count_unlink (hd : d.WellFormed) (hu : d.Linked u) : d.count = (d.unlink u).count + 1 := by
  refine count_eq_add_one (s := (d.orders u).s) (hd.px_lt hu) fun t r => ?_
  rw [unlink_levels]
  split_ifs with hat
  · obtain ⟨rfl, rfl⟩ := hat
    rw [List.length_erase_of_mem hu]
    have := List.length_pos_of_mem hu
    omega
  · rfl

theorem count_link (hpx : (d.orders u).px < ticks) : (d.link u).count = d.count + 1 := by
  refine count_eq_add_one (s := (d.orders u).s) hpx fun t r => ?_
  rw [link_levels]
  split_ifs with hat
  · simp
  · rfl

/-- The capacity check counts the resting orders. -/
structure Counted (cap : ℕ) (d : Queues ticks) : Prop where
  live : d.live = d.count
  le : d.live ≤ cap

theorem Counted.empty : ({} : Queues ticks).Counted cap :=
  ⟨by simp [count], Nat.zero_le cap⟩

theorem Counted.drop (h : d.Counted cap) (hd : d.WellFormed) (hu : d.Linked u) :
    (d.drop u).Counted cap := by
  have hcount := count_unlink hd hu
  have hlive : (d.drop u).live = d.live - 1 := rfl
  refine ⟨?_, ?_⟩
  · change d.live - 1 = (d.unlink u).count
    have := h.live
    omega
  · have := h.le
    omega

theorem Counted.worn (h : d.Counted cap) (hw : Worn opp d d') (hd : d.WellFormed) :
    d'.Counted cap := by
  induction hw with
  | refl => exact h
  | decrement _ _ _ _ _ ih => exact ⟨ih.live, ih.le⟩
  | @drop d' u qty hw hu _ ih =>
      have hset : (d'.setRemaining u qty).Counted cap := ⟨ih.live, ih.le⟩
      exact hset.drop ((hw.wellFormed hd).setRemaining u qty) ((linked_setRemaining qty).mpr hu)

theorem Counted.submitted (h : d.Counted cap) (hd : d.WellFormed) (hpx : m.px < ticks)
    (hs : Submitted cap m d d') : d'.Counted cap := by
  cases hs with
  | left hw => exact h.worn hw hd
  | @rested d₁ rem hw _ _ _ hroom _ =>
      have h₁ := h.worn hw hd
      have hlink := count_link (u := d₁.next) (d := ({ d₁ with next := d₁.next + 1 }
        : Queues ticks).setOrder d₁.next ⟨m.id, rem, m.px, m.s, m.t, m.accountId⟩)
        (by simpa [setOrder] using hpx)
      refine ⟨?_, hroom⟩
      change d₁.live + 1 = _
      rw [h₁.live]
      exact hlink.symm

theorem Counted.repriced (h : d.Counted cap) (hd : d.WellFormed) (hu : d.Linked u)
    (hpx : newPx < ticks) (hr : Repriced cap u newPx newQty d d') : d'.Counted cap := by
  cases hr with
  | same => exact h
  | requantified => exact ⟨h.live, h.le⟩
  | moved =>
      have hlink := count_link (u := u) (d := (d.unlink u).setOrder u
        { d.orders u with px := newPx, remaining := newQty }) (by simpa [setOrder] using hpx)
      refine ⟨?_, h.le⟩
      change d.live = _
      rw [h.live, count_unlink hd hu]
      exact hlink.symm
  | resubmitted _ hs => exact (h.drop hd hu).submitted (hd.drop u) hpx hs

theorem Counted.chained (h : d.Counted cap) (u : ℕ) (m : ModifyMsg) :
    (d.chained u m).Counted cap := by
  unfold Queues.chained
  split_ifs
  · exact ⟨h.live, h.le⟩
  · exact h

theorem Counted.effect (h : d.Counted cap) (hd : d.WellFormed)
    (hu : ∀ u, target = some u → d.Linked u) (hrange : cmd.InRange ticks)
    (he : Effect cap d target cmd d') : d'.Counted cap := by
  cases he with
  | submit hs => exact h.submitted hd hrange.1 hs
  | cancelNone => exact h
  | cancel => exact h.drop hd (hu _ rfl)
  | modifyNone => exact h
  | @modify u m _ hr =>
      exact (h.chained u m).repriced (hd.chained (hu u rfl) m)
        ((linked_chained m).mpr (hu u rfl)) hrange.1 hr

/-! ## Sums that do not wrap -/

theorem toNat_sum {l : List UInt64} (h : (l.map UInt64.toNat).sum < 2 ^ 64) :
    l.sum.toNat = (l.map UInt64.toNat).sum := by
  induction l with
  | nil => rfl
  | cons a l ih =>
      simp only [List.map_cons, List.sum_cons] at h ⊢
      rw [UInt64.toNat_add, ih (by omega), Nat.mod_eq_of_lt h]

/-- The open quantity at a price, as a natural number. -/
def openAt (d : Queues ticks) (s : Side) (p : ℕ) : ℕ :=
  ((d.ordersAt s p).map fun o => o.remaining.toNat).sum

/-- Every resting order has an open quantity within the cap and a valid id, whatever
its time in force. -/
def Recordable (maxQty : UInt64) (d : Queues ticks) : Prop :=
  ∀ u, d.Linked u → (d.orders u).Recordable maxQty

theorem Sound.recordable (h : d.Sound maxQty) : d.Recordable maxQty := fun u hu =>
  (h u hu).toRecordable

theorem Recordable.openAt_le (h : d.Recordable maxQty) (hd : d.WellFormed) (s : Side) (p : ℕ) :
    d.openAt s p ≤ (d.levels s p).length * maxQty.toNat := by
  have hle := List.sum_le_card_nsmul ((d.ordersAt s p).map fun o => o.remaining.toNat) maxQty.toNat
    fun n hn => by
      obtain ⟨o, ho, rfl⟩ := List.mem_map.mp hn
      obtain ⟨u, hu, rfl⟩ := List.mem_map.mp ho
      exact UInt64.le_iff_toNat_le.mp (h u (hd.linked hu)).capped
  simpa [openAt, ordersAt] using hle

theorem length_le_count (hd : d.WellFormed) (s : Side) (p : ℕ) :
    (d.levels s p).length ≤ d.count := by
  by_cases hp : p < ticks
  · have hle : (d.levels .bid p).length + (d.levels .ask p).length ≤ d.count :=
      Finset.single_le_sum (f := fun p => (d.levels .bid p).length + (d.levels .ask p).length)
        (fun r _ => Nat.zero_le _) (Finset.mem_range.mpr hp)
    cases s <;> omega
  · have hnil : d.levels s p = [] := by
      by_contra hne
      exact hp (hd.lt_of_ne_nil hne)
    rw [hnil]
    exact Nat.zero_le _

/-- Within the capacity the aggregate of a level is the sum it stands for. -/
theorem Recordable.aggregateAt_toNat (h : d.Recordable maxQty) (hd : d.WellFormed)
    (hcount : d.Counted cap) (hcap : cap * maxQty.toNat < 2 ^ 64) (s : Side) (p : ℕ) :
    (d.aggregateAt s p).toNat = d.openAt s p := by
  have hlen : (d.levels s p).length ≤ cap :=
    (length_le_count hd s p).trans (hcount.live ▸ hcount.le)
  have hopen : d.openAt s p < 2 ^ 64 :=
    ((h.openAt_le hd s p).trans (Nat.mul_le_mul_right _ hlen)).trans_lt hcap
  unfold aggregateAt openAt at *
  rw [toNat_sum]
  · rw [List.map_map]
    rfl
  · rw [List.map_map]
    exact hopen

/-! ## Ids in use -/

/-- No resting order has this id. -/
def Absent (d : Queues ticks) (id : UInt64) : Prop := ∀ u, d.Linked u → (d.orders u).id ≠ id

/-- The index names every resting order. -/
def Exact (d : Queues ticks) : Prop := ∀ u, d.Linked u → d.index (d.orders u).id = some u

/-- The command brings no id into the book that is in use. -/
def Fresh (d : Queues ticks) : Command → Prop
  | .submit m => d.Absent m.id
  | .cancel _ => True
  | .modify m => m.renames → d.Absent m.newId

theorem Exact.empty : ({} : Queues ticks).Exact := fun u h => by simp [Linked] at h

theorem Exact.injective (h : d.Exact) (hu : d.Linked u) (hv : d.Linked v)
    (hid : (d.orders u).id = (d.orders v).id) : u = v := by
  have := h u hu
  rw [hid, h v hv] at this
  exact (Option.some.inj this).symm

theorem Exact.drop (h : d.Exact) (hd : d.WellFormed) (hu : d.Linked u) : (d.drop u).Exact := by
  intro v hv
  obtain ⟨hv, hne⟩ := hd.linked_drop.mp hv
  have hid : (d.orders v).id ≠ (d.orders u).id := fun hid => hne (h.injective hv hu hid)
  change Function.update d.index _ _ _ = _
  rw [drop_orders, Function.update_of_ne hid]
  exact h v hv

/-- An order that left took its id with it. -/
theorem Exact.absent_drop (h : d.Exact) (hd : d.WellFormed) (hu : d.Linked u) :
    (d.drop u).Absent (d.orders u).id := by
  intro v hv hid
  obtain ⟨hv, hne⟩ := hd.linked_drop.mp hv
  exact hne (h.injective hv hu hid)

theorem setRemaining_id (qty : UInt64) :
    ((d.setRemaining u qty).orders v).id = (d.orders v).id := by
  by_cases hv : v = u <;> simp [hv]

theorem Exact.setRemaining (h : d.Exact) (u : ℕ) (qty : UInt64) :
    (d.setRemaining u qty).Exact := fun v hv => by
  rw [setRemaining_id]
  exact h v ((linked_setRemaining qty).mp hv)

theorem Absent.setRemaining {id : UInt64} (h : d.Absent id) (u : ℕ) (qty : UInt64) :
    (d.setRemaining u qty).Absent id := fun v hv => by
  rw [setRemaining_id]
  exact h v ((linked_setRemaining qty).mp hv)

theorem Absent.drop {id : UInt64} (h : d.Absent id) (hd : d.WellFormed) (u : ℕ) :
    (d.drop u).Absent id := fun v hv => h v (hd.linked_drop.mp hv).1

theorem Exact.worn (h : d.Exact) (hw : Worn opp d d') (hd : d.WellFormed) : d'.Exact := by
  induction hw with
  | refl => exact h
  | decrement _ _ _ _ _ ih => exact ih.setRemaining _ _
  | drop hw hu _ ih =>
      exact (ih.setRemaining _ _).drop ((hw.wellFormed hd).setRemaining _ _)
        ((linked_setRemaining _).mpr hu)

theorem Absent.worn {id : UInt64} (h : d.Absent id) (hw : Worn opp d d') (hd : d.WellFormed) :
    d'.Absent id := by
  induction hw with
  | refl => exact h
  | decrement _ _ _ _ _ ih => exact ih.setRemaining _ _
  | drop hw hu _ ih => exact (ih.setRemaining _ _).drop ((hw.wellFormed hd).setRemaining _ _) _

theorem Exact.rest (h : d.Exact) (hd : d.WellFormed) (hid : d.Absent m.id) :
    (d.rest m rem).Exact := by
  intro v hv
  change Function.update d.index _ _ _ = _
  rw [rest_orders]
  rcases (hd.linked_rest m rem).mp hv with hv | rfl
  · have hne : v ≠ d.next := fun hvn => hd.next_notMem _ _ (hvn ▸ hv)
    rw [Function.update_of_ne hne, Function.update_of_ne (hid v hv)]
    exact h v hv
  · simp

theorem Exact.submitted (h : d.Exact) (hd : d.WellFormed) (hid : d.Absent m.id)
    (hs : Submitted cap m d d') : d'.Exact := by
  cases hs with
  | left hw => exact h.worn hw hd
  | rested hw => exact (h.worn hw hd).rest (hw.wellFormed hd) (hid.worn hw hd)

theorem Exact.rename (h : d.Exact) (hu : d.Linked u) {newId : UInt64} (hid : d.Absent newId) :
    (d.rename u newId).Exact := by
  intro v hv
  rw [linked_rename] at hv
  change Function.update (Function.update d.index _ _) _ _ _ = _
  rw [rename_orders]
  by_cases hvu : v = u
  · subst hvu
    simp
  · rw [Function.update_of_ne hvu, Function.update_of_ne (hid v hv),
      Function.update_of_ne fun hid => hvu (h.injective hv hu hid)]
    exact h v hv

theorem Exact.move (h : d.Exact) (hd : d.WellFormed) (hu : d.Linked u) (newPx : ℕ)
    (newQty : UInt64) : (d.move u newPx newQty).Exact := by
  intro v hv
  rw [hd.linked_move hu] at hv
  change d.index _ = _
  rw [move_orders]
  by_cases hvu : v = u
  · subst hvu
    simpa using h v hv
  · rw [Function.update_of_ne hvu]
    exact h v hv

theorem Exact.repriced (h : d.Exact) (hd : d.WellFormed) (hu : d.Linked u)
    (hr : Repriced cap u newPx newQty d d') : d'.Exact := by
  cases hr with
  | same => exact h
  | requantified => exact h.setRemaining u newQty
  | moved => exact h.move hd hu newPx newQty
  | resubmitted _ hs => exact (h.drop hd hu).submitted (hd.drop u) (h.absent_drop hd hu) hs

theorem Exact.chained (h : d.Exact) (hu : d.Linked u) {m : ModifyMsg}
    (hfresh : d.Fresh (.modify m)) : (d.chained u m).Exact := by
  unfold Queues.chained
  split_ifs with hren
  · exact h.rename hu (hfresh hren)
  · exact h

theorem Exact.effect (h : d.Exact) (hd : d.WellFormed)
    (hu : ∀ u, target = some u → d.Linked u) (hfresh : d.Fresh cmd)
    (he : Effect cap d target cmd d') : d'.Exact := by
  cases he with
  | submit hs => exact h.submitted hd hfresh hs
  | cancelNone => exact h
  | cancel => exact h.drop hd (hu _ rfl)
  | modifyNone => exact h
  | @modify u m _ hr =>
      exact (h.chained (hu u rfl) hfresh).repriced (hd.chained (hu u rfl) m)
        ((linked_chained m).mpr (hu u rfl)) hr

end Queues
end Orderbooks
