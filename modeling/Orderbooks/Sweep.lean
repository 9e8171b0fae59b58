import Orderbooks.PriorityBook
import Mathlib.Algebra.Order.BigOperators.Group.Finset

/-!
# Sweeping as a loop over the best maker

The machine matches by walking prices and queues. Here that walk is shown to be
the loop the code runs: as long as the aggressor is open and the best opposite
price crosses, meet the maker at the front of that price. `sweep_strike` and
`sweep_stop` are the two equations of that loop, and `sweep_induct` is the
invariant rule that follows from them.
-/
namespace Orderbooks

/-! ## Best prices -/

theorem Side.pairwise_priority (s : Side) (ticks : ℕ) :
    (s.priority ticks).Pairwise fun p q => s.better p q = true := by
  cases s with
  | bid =>
      simp only [Side.priority, Side.better, List.pairwise_reverse, decide_eq_true_eq]
      exact List.pairwise_lt_range
  | ask =>
      simp only [Side.priority, Side.better, decide_eq_true_eq]
      exact List.pairwise_lt_range

theorem Side.nodup_priority (s : Side) (ticks : ℕ) : (s.priority ticks).Nodup := by
  cases s with
  | bid => exact List.nodup_reverse.mpr List.nodup_range
  | ask => exact List.nodup_range

@[simp] theorem Side.mem_priority (s : Side) {ticks p : ℕ} : p ∈ s.priority ticks ↔ p < ticks := by
  cases s <;> simp [Side.priority]

namespace Queues

variable {ticks : ℕ} {d : Queues ticks} {s : Side} {p : ℕ}

theorem WellFormed.lt_of_ne_nil (hd : d.WellFormed) (h : d.levels s p ≠ []) : p < ticks := by
  obtain ⟨u, hu⟩ := List.exists_mem_of_ne_nil _ h
  exact (hd.placed s p u hu).2.2

/-- The best price splits the ladder into empty better prices and the rest. -/
theorem best_eq_some : d.best s = some p ↔
    d.levels s p ≠ [] ∧ ∃ better worse, s.priority ticks = better ++ p :: worse ∧
      ∀ r ∈ better, d.levels s r = [] := by
  unfold best
  rw [List.find?_eq_some_iff_append]
  simp

theorem best_eq_none (hd : d.WellFormed) : d.best s = none ↔ ∀ p, d.levels s p = [] := by
  unfold best
  rw [List.find?_eq_none]
  refine ⟨fun h p => ?_, fun h p _ => by simp [h]⟩
  by_contra hne
  have := h p (s.mem_priority.mpr (hd.lt_of_ne_nil hne))
  simp at this
  exact hne this

theorem better_eq_nil (h : d.best s = some p) (hd : d.WellFormed) {r : ℕ}
    (hr : s.better r p = true) : d.levels s r = [] := by
  obtain ⟨_, better, worse, heq, hempty⟩ := best_eq_some.mp h
  by_contra hne
  have hmem := s.mem_priority.mpr (hd.lt_of_ne_nil hne)
  rw [heq] at hmem
  rcases List.mem_append.mp hmem with hb | hw
  · exact hne (hempty r hb)
  · have hpw := s.pairwise_priority ticks
    rw [heq] at hpw
    have hpw := (List.pairwise_cons.mp (List.pairwise_append.mp hpw).2.1).1
    rcases List.mem_cons.mp hw with rfl | hw
    · cases s <;> simp [Side.better] at hr
    · have := hpw r hw
      cases s <;> simp only [Side.better, decide_eq_true_eq] at * <;> omega

/-- The prices at which an order rests. -/
def populated (d : Queues ticks) (s : Side) : Set ℕ := {p | d.levels s p ≠ []}

theorem populated_empty : ({} : Queues ticks).populated = fun _ => ∅ := by
  funext s
  simp [populated]

theorem populated_enter (u : ℕ) (o : Order) (t : Side) :
    (d.enter u o).populated t = if t = o.s then insert o.px (d.populated t) else d.populated t := by
  ext r
  simp only [populated, Set.mem_ofPred_eq, enter_levels]
  by_cases ht : t = o.s
  · by_cases hr : r = o.px
    · simp [ht, hr]
    · simp [ht, hr]
  · simp [ht]

theorem populated_unlink (u : ℕ) (t : Side) :
    (d.unlink u).populated t =
      if t = (d.orders u).s ∧ (d.levels (d.orders u).s (d.orders u).px).erase u = []
        then d.populated t \ {(d.orders u).px} else d.populated t := by
  ext r
  simp only [populated, Set.mem_ofPred_eq, unlink_levels]
  by_cases ht : t = (d.orders u).s
  · subst ht
    by_cases hr : r = (d.orders u).px
    · subst hr
      by_cases he : (d.levels (d.orders u).s (d.orders u).px).erase u = []
      · simp [he]
      · have hne : d.levels (d.orders u).s (d.orders u).px ≠ [] := fun h => by simp [h] at he
        simp [he, hne]
    · by_cases he : (d.levels (d.orders u).s (d.orders u).px).erase u = []
      · simp [he, hr]
      · simp [he, hr]
  · simp [ht]

theorem populated_drop (u : ℕ) : (d.drop u).populated = (d.unlink u).populated := rfl

theorem populated_move (u newPx : ℕ) (newQty : UInt64) (t : Side) :
    (d.move u newPx newQty).populated t =
      if t = (d.orders u).s then insert newPx ((d.unlink u).populated t)
      else (d.unlink u).populated t := by
  ext r
  simp only [populated, Set.mem_ofPred_eq, move, link_levels]
  by_cases ht : t = (d.orders u).s
  · by_cases hr : r = newPx
    · simp [setOrder, ht, hr]
    · simp [setOrder, ht, hr]
  · simp [setOrder, ht]

theorem WellFormed.isBest_best (hd : d.WellFormed) (s : Side) :
    s.IsBest (d.populated s) (d.best s) := by
  cases h : d.best s with
  | none =>
      refine Set.eq_empty_of_forall_notMem fun p hp => hp ?_
      exact (best_eq_none hd).mp h p
  | some p =>
      refine ⟨(best_eq_some.mp h).1, fun q hq => ?_⟩
      by_contra hb
      exact hq (better_eq_nil h hd (by simpa using hb))

/-- Among the prices after `p`, the first populated one is the best of those
that are worse than `p`. -/
theorem WellFormed.isBest_worse (hd : d.WellFormed) {better worse : List ℕ}
    (hsplit : s.priority ticks = better ++ p :: worse) :
    s.IsBest {q | q ∈ d.populated s ∧ s.better p q = true}
      (worse.find? fun r => !(d.levels s r).isEmpty) := by
  have hpw := s.pairwise_priority ticks
  rw [hsplit] at hpw
  obtain ⟨_, hcons, hcross⟩ := List.pairwise_append.mp hpw
  obtain ⟨hp, hworse⟩ := List.pairwise_cons.mp hcons
  have hmem : ∀ q, q ∈ d.populated s → s.better p q = true → q ∈ worse := fun q hq hb => by
    have hin := s.mem_priority.mpr (hd.lt_of_ne_nil hq)
    rw [hsplit] at hin
    rcases List.mem_append.mp hin with hbt | hin
    · have := hcross q hbt p (by simp)
      cases s <;> simp only [Side.better, decide_eq_true_eq] at * <;> omega
    · rcases List.mem_cons.mp hin with rfl | hw
      · cases s <;> simp [Side.better] at hb
      · exact hw
  cases hf : worse.find? fun r => !(d.levels s r).isEmpty with
  | none =>
      rw [List.find?_eq_none] at hf
      refine Set.eq_empty_of_forall_notMem fun q hq => hq.1 ?_
      simpa using hf q (hmem q hq.1 hq.2)
  | some r =>
      obtain ⟨hr, as, bs, heq, has⟩ := List.find?_eq_some_iff_append.mp hf
      have hrw : r ∈ worse := by simp [heq]
      refine ⟨⟨by simpa [populated] using hr, hp r hrw⟩, fun q hq => ?_⟩
      have hqw := hmem q hq.1 hq.2
      rw [heq] at hqw hworse
      rcases List.mem_append.mp hqw with ha | hqw
      · exact absurd (by simpa using has q ha) hq.1
      · rcases List.mem_cons.mp hqw with rfl | hb
        · cases s <;> simp [Side.better]
        · have := (List.pairwise_cons.mp (List.pairwise_append.mp hworse).2.1).1 q hb
          cases s <;> simp only [Side.better, decide_eq_true_eq, decide_eq_false_iff_not] at * <;>
            omega

end Queues

namespace PriorityBook

variable {ticks : ℕ} {m : SubmitMsg} {b : PriorityBook ticks} {rem : UInt64} {p u : ℕ}
  {q : List ℕ}

/-! ## One maker -/

@[simp] theorem announce_queues (qty : UInt64) : (b.announce m u p qty).queues = b.queues := by
  unfold announce
  dsimp only
  split_ifs <;> rfl

@[simp] theorem announce_selfCross (qty : UInt64) :
    (b.announce m u p qty).selfCross = b.selfCross := by
  unfold announce
  dsimp only
  split_ifs <;> rfl

/-- What rests after meeting `u`: the same orders, `u` dropped, or `u` with less. -/
theorem strike_cases (m : SubmitMsg) (p u : ℕ) (b : PriorityBook ticks) (rem : UInt64) :
    ((strike m p u b rem).aborted = true ∧ (strike m p u b rem).remaining = 0 ∧
      (strike m p u b rem).book = b) ∨
    ((strike m p u b rem).aborted = false ∧ (strike m p u b rem).remaining = rem ∧
      (strike m p u b rem).book = (b.drop u).dirty) ∨
    ∃ qty, qty = min rem (b.order u).remaining ∧
      (strike m p u b rem).aborted = false ∧ (strike m p u b rem).remaining = rem - qty ∧
      (strike m p u b rem).book =
        if (b.order u).remaining - qty = 0 then ((b.announce m u p qty).decrement u qty).drop u
        else (b.announce m u p qty).decrement u qty := by
  unfold strike
  split_ifs
  · exact .inl ⟨rfl, rfl, rfl⟩
  · exact .inr (.inl ⟨rfl, rfl, rfl⟩)
  all_goals exact .inr (.inr ⟨_, rfl, by simp [*]⟩)

/-- An aggressor that aborts leaves the maker alone. -/
theorem strike_book_of_aborted {rem : UInt64} (ha : (strike m p u b rem).aborted = true) :
    (strike m p u b rem).book = b := by
  rcases strike_cases m p u b rem with ⟨_, _, hb⟩ | ⟨hf, _⟩ | ⟨_, _, hf, _⟩
  · exact hb
  · simp [ha] at hf
  · simp [ha] at hf

theorem strike_remaining_of_aborted {rem : UInt64} (ha : (strike m p u b rem).aborted = true) :
    (strike m p u b rem).remaining = 0 := by
  rcases strike_cases m p u b rem with ⟨_, hr, _⟩ | ⟨hf, _⟩ | ⟨_, _, hf, _⟩
  · exact hr
  · simp [ha] at hf
  · simp [ha] at hf

theorem decrement_queues (qty : UInt64) : (b.decrement u qty).queues =
    b.queues.setRemaining u ((b.queues.orders u).remaining - qty) := rfl

theorem drop_queues : (b.drop u).queues = b.queues.drop u := rfl

theorem toNat_min (a c : UInt64) : (min a c).toNat = min a.toNat c.toNat := by
  have hmin : min a c = if a ≤ c then a else c := rfl
  rw [hmin]
  split_ifs with h
  · rw [UInt64.le_iff_toNat_le] at h
    omega
  · rw [UInt64.le_iff_toNat_le] at h
    omega

/-- What is left after a trade is no more than there was. -/
theorem toNat_sub_min (a c : UInt64) :
    (a - min a c).toNat = a.toNat - c.toNat ∧ (c - min a c).toNat = c.toNat - a.toNat := by
  have hmin := toNat_min a c
  rw [UInt64.toNat_sub_of_le _ _ (UInt64.le_iff_toNat_le.mpr (by omega)),
    UInt64.toNat_sub_of_le _ _ (UInt64.le_iff_toNat_le.mpr (by omega))]
  omega

/-- The quantity traded is everything the maker or the aggressor has left. -/
theorem sub_min_eq_zero {a c : UInt64} (h : a - min c a ≠ 0) : c - min c a = 0 := by
  have hc := toNat_sub_min c a
  rw [ne_eq, ← UInt64.toNat_inj, hc.2] at h
  rw [← UInt64.toNat_inj, hc.1]
  simp only [UInt64.toNat_zero] at h ⊢
  omega

/-- Meeting a maker takes it out of every queue or leaves the queues alone. -/
theorem strike_levels_cases (m : SubmitMsg) (p u : ℕ) (rem : UInt64) (hd : b.queues.WellFormed) :
    (strike m p u b rem).book.queues.levels = b.queues.levels ∨
      ∀ t r, (strike m p u b rem).book.queues.levels t r = (b.queues.levels t r).erase u := by
  rcases strike_cases m p u b rem with ⟨_, _, hb⟩ | ⟨_, _, hb⟩ | ⟨qty, _, _, _, hb⟩
  · exact .inl (by rw [hb])
  · rw [hb]
    exact .inr fun t r => hd.unlink_levels_eq_erase
  · rw [hb]
    split_ifs
    · rw [drop_queues, decrement_queues, announce_queues]
      exact .inr fun t r => (hd.setRemaining u _).unlink_levels_eq_erase
    · rw [decrement_queues, announce_queues]
      exact .inl rfl

/-- Meeting a maker links nothing. -/
theorem strike_sublist (m : SubmitMsg) (p u : ℕ) (rem : UInt64) (hd : b.queues.WellFormed)
    (t : Side) (r : ℕ) :
    ((strike m p u b rem).book.queues.levels t r).Sublist (b.queues.levels t r) := by
  rcases strike_levels_cases m p u rem hd with h | h
  · rw [h]
  · rw [h]
    exact List.erase_sublist

/-- Meeting a maker changes only the queue it stands in. -/
theorem strike_levels_of_ne (rem : UInt64) (hd : b.queues.WellFormed)
    (hq : b.queues.levels m.s.opposite p = u :: q) {t : Side} {r : ℕ}
    (hne : ¬ (t = m.s.opposite ∧ r = p)) :
    (strike m p u b rem).book.queues.levels t r = b.queues.levels t r := by
  rcases strike_levels_cases m p u rem hd with h | h
  · rw [h]
  · have hmem : u ∈ b.queues.levels m.s.opposite p := by simp [hq]
    rw [h]
    refine List.erase_of_not_mem fun hur => hne ?_
    obtain ⟨hs, hp, _⟩ := hd.placed _ _ u hmem
    obtain ⟨hs', hp', _⟩ := hd.placed _ _ u hur
    exact ⟨hs'.symm.trans hs, hp'.symm.trans hp⟩

/-- A maker that the aggressor got past has left its queue. -/
theorem strike_level (hd : b.queues.WellFormed) (hq : b.queues.levels m.s.opposite p = u :: q)
    (ha : (strike m p u b rem).aborted = false) (hr : (strike m p u b rem).remaining ≠ 0) :
    (strike m p u b rem).book.queues.levels m.s.opposite p = q := by
  have key : ∀ d : Queues ticks, d.levels = b.queues.levels → d.WellFormed →
      (d.drop u).levels m.s.opposite p = q := fun d hdl hwf => by
    have : (d.drop u).levels m.s.opposite p = (d.levels m.s.opposite p).erase u :=
      hwf.unlink_levels_eq_erase
    rw [this, hdl, hq, List.erase_cons_head]
  rcases strike_cases m p u b rem with ⟨hab, _⟩ | ⟨_, _, hb⟩ | ⟨qty, rfl, _, hrem, hb⟩
  · simp [hab] at ha
  · rw [hb]
    exact key b.queues rfl hd
  · have hzero : (b.order u).remaining - min rem (b.order u).remaining = 0 := by
      by_contra hne
      exact hr (hrem.trans (sub_min_eq_zero hne))
    rw [hb, if_pos hzero, drop_queues, decrement_queues, announce_queues]
    exact key _ rfl (hd.setRemaining u _)

/-- A maker that the aggressor got past no longer counts as live. -/
theorem strike_live (ha : (strike m p u b rem).aborted = false)
    (hr : (strike m p u b rem).remaining ≠ 0) :
    (strike m p u b rem).book.queues.live = b.queues.live - 1 := by
  rcases strike_cases m p u b rem with ⟨hab, _⟩ | ⟨_, _, hb⟩ | ⟨qty, rfl, _, hrem, hb⟩
  · simp [hab] at ha
  · rw [hb]
    rfl
  · have hzero : (b.order u).remaining - min rem (b.order u).remaining = 0 := by
      by_contra hne
      exact hr (hrem.trans (sub_min_eq_zero hne))
    rw [hb, if_pos hzero, drop_queues, decrement_queues, announce_queues]
    rfl

theorem strike_wellFormed (m : SubmitMsg) (p u : ℕ) (rem : UInt64) (hd : b.queues.WellFormed) :
    (strike m p u b rem).book.queues.WellFormed := by
  rcases strike_cases m p u b rem with ⟨_, _, hb⟩ | ⟨_, _, hb⟩ | ⟨qty, _, _, _, hb⟩
  · rw [hb]
    exact hd
  · rw [hb]
    exact hd.drop u
  · have hdec : ((b.announce m u p qty).decrement u qty).queues.WellFormed := by
      rw [decrement_queues, announce_queues]
      exact hd.setRemaining u _
    rw [hb]
    split_ifs
    · exact hdec.drop u
    · exact hdec

/-! ## The loop -/

theorem sweepLevel_zero (m : SubmitMsg) (p : ℕ) (q : List ℕ) (b : PriorityBook ticks) :
    sweepLevel m p q b 0 = ⟨b, 0, false⟩ := by
  cases q <;> simp [sweepLevel]

theorem sweepFrom_zero (m : SubmitMsg) (ps : List ℕ) (b : PriorityBook ticks) :
    sweepFrom m ps b 0 = ⟨b, 0, false⟩ := by
  cases ps <;> simp [sweepFrom]

theorem sweepFrom_empty {ps rest : List ℕ}
    (h : ∀ r ∈ ps, b.queues.levels m.s.opposite r = []) :
    sweepFrom m (ps ++ rest) b rem = sweepFrom m rest b rem := by
  induction ps with
  | nil => rfl
  | cons r ps ih =>
      rw [List.cons_append, sweepFrom, if_pos (h r (by simp))]
      split_ifs with hr
      · rw [hr, sweepFrom_zero]
      · exact ih fun r' hr' => h r' (by simp [hr'])

/-- While the aggressor is open and the best opposite price crosses, the maker
at its front is met and the sweep goes on. -/
theorem sweep_strike (hd : b.queues.WellFormed) (hrem : rem ≠ 0)
    (hbest : b.queues.best m.s.opposite = some p) (hcross : m.s.crosses m.px p = true)
    (hq : b.queues.levels m.s.opposite p = u :: q) :
    sweep m b rem =
      if (strike m p u b rem).aborted then strike m p u b rem
      else sweep m (strike m p u b rem).book (strike m p u b rem).remaining := by
  obtain ⟨hne, better, worse, hsplit, hempty⟩ := Queues.best_eq_some.mp hbest
  have hlhs : sweep m b rem =
      let c := sweepLevel m p (u :: q) b rem
      if c.aborted then c else sweepFrom m worse c.book c.remaining := by
    unfold sweep
    rw [hsplit, sweepFrom_empty hempty, sweepFrom, if_neg hrem, if_neg hne, hq]
    simp [hcross]
  have hlevel : sweepLevel m p (u :: q) b rem =
      if (strike m p u b rem).aborted then strike m p u b rem
      else sweepLevel m p q (strike m p u b rem).book (strike m p u b rem).remaining := by
    rw [sweepLevel, if_neg hrem]
  rw [hlhs, hlevel]
  cases ha : (strike m p u b rem).aborted with
  | true => simp [ha]
  | false =>
  have hlv := fun hr => strike_level hd hq ha hr
  have hothers := fun r (hr : r ≠ p) => strike_levels_of_ne rem hd hq
    (t := m.s.opposite) (r := r) fun h => hr h.2
  simp only [Bool.false_eq_true, if_false]
  generalize (strike m p u b rem).book = b' at hlv hothers ⊢
  generalize (strike m p u b rem).remaining = rem' at hlv ⊢
  by_cases hr : rem' = 0
  · subst hr
    simp [sweepLevel_zero, sweepFrom_zero, sweep]
  · have hp := hlv hr
    have hbetter : ∀ r ∈ better, b'.queues.levels m.s.opposite r = [] := fun r hmem => by
      rw [hothers r fun hrp => hne (hrp ▸ hempty r hmem)]
      exact hempty r hmem
    unfold sweep
    rw [hsplit, sweepFrom_empty hbetter, sweepFrom, if_neg hr, hp]
    cases q with
    | nil => simp [sweepLevel]
    | cons v q => simp [hcross]

/-- The aggressor is used up, or nothing it could trade with is left. -/
def Halted (m : SubmitMsg) (b : PriorityBook ticks) (rem : UInt64) : Prop :=
  rem = 0 ∨ b.queues.best m.s.opposite = none ∨
    ∃ p, b.queues.best m.s.opposite = some p ∧ m.s.crosses m.px p = false

/-- The sweep stops when the aggressor is used up or nothing crosses any more. -/
theorem sweep_stop (hd : b.queues.WellFormed) (h : Halted m b rem) :
    sweep m b rem = ⟨b, rem, false⟩ := by
  unfold sweep
  rcases h with rfl | hnone | ⟨p, hbest, hcross⟩
  · exact sweepFrom_zero m _ b
  · have hall := (Queues.best_eq_none hd).mp hnone
    rw [← List.append_nil (m.s.opposite.priority ticks), sweepFrom_empty fun r _ => hall r,
      sweepFrom]
  · obtain ⟨hne, better, worse, hsplit, hempty⟩ := Queues.best_eq_some.mp hbest
    rw [hsplit, sweepFrom_empty hempty, sweepFrom]
    simp [hne, hcross]

/-- An aggressor that is not halted meets the maker at the front of the best price. -/
theorem exists_maker (h : ¬ Halted m b rem) :
    rem ≠ 0 ∧ ∃ p u q, b.queues.best m.s.opposite = some p ∧ m.s.crosses m.px p = true ∧
      b.queues.levels m.s.opposite p = u :: q := by
  unfold Halted at h
  push Not at h
  obtain ⟨hrem, hsome, hcross⟩ := h
  obtain ⟨p, hp⟩ := Option.ne_none_iff_exists'.mp hsome
  obtain ⟨u, q, hq⟩ := List.exists_cons_of_ne_nil (Queues.best_eq_some.mp hp).1
  exact ⟨hrem, p, u, q, hp, by simpa using hcross p hp, hq⟩

/-- How many orders rest on a side. -/
def total (d : Queues ticks) (s : Side) : ℕ :=
  ∑ p ∈ Finset.range ticks, (d.levels s p).length

theorem strike_total (hd : b.queues.WellFormed) (hq : b.queues.levels m.s.opposite p = u :: q)
    (ha : (strike m p u b rem).aborted = false) (hr : (strike m p u b rem).remaining ≠ 0) :
    total (strike m p u b rem).book.queues m.s.opposite < total b.queues m.s.opposite := by
  have hp := strike_level hd hq ha hr
  have hmem : u ∈ b.queues.levels m.s.opposite p := by simp [hq]
  have hlt : p < ticks := (hd.placed _ _ u hmem).2.2
  refine Finset.sum_lt_sum (fun r _ => ?_) ⟨p, Finset.mem_range.mpr hlt, by simp [hp, hq]⟩
  exact (strike_sublist m p u rem hd _ r).length_le

/-- What meeting one maker preserves. -/
def StrikeInvariant (m : SubmitMsg) (I : PriorityBook ticks → UInt64 → Prop) : Prop :=
  ∀ b rem p u q, b.queues.WellFormed → I b rem → rem ≠ 0 →
    b.queues.best m.s.opposite = some p → m.s.crosses m.px p = true →
    b.queues.levels m.s.opposite p = u :: q →
    I (strike m p u b rem).book (strike m p u b rem).remaining

/-- The invariant rule of the sweep: what meeting one maker preserves, the whole
sweep preserves, and it ends halted or aborted. -/
theorem sweep_induct {I : PriorityBook ticks → UInt64 → Prop} (step : StrikeInvariant m I)
    (b : PriorityBook ticks) (rem : UInt64) (hd : b.queues.WellFormed) (h : I b rem) :
    I (sweep m b rem).book (sweep m b rem).remaining ∧ (sweep m b rem).book.queues.WellFormed ∧
      if (sweep m b rem).aborted then (sweep m b rem).remaining = 0
      else Halted m (sweep m b rem).book (sweep m b rem).remaining := by
  -- every maker met leaves the queues, or the aggressor ends with it
  generalize hn : total b.queues m.s.opposite = n
  induction n using Nat.strong_induction_on generalizing b rem with
  | _ n ih =>
      by_cases hh : Halted m b rem
      · rw [sweep_stop hd hh]
        exact ⟨h, hd, hh⟩
      obtain ⟨hrem, p, u, q, hbest, hcross, hq⟩ := exists_maker hh
      have hI := step b rem p u q hd h hrem hbest hcross hq
      have hwf := strike_wellFormed m p u rem hd
      rw [sweep_strike hd hrem hbest hcross hq]
      cases ha : (strike m p u b rem).aborted with
      | true =>
          simp only [if_true, ha]
          exact ⟨hI, hwf, strike_remaining_of_aborted ha⟩
      | false =>
          simp only [Bool.false_eq_true, if_false]
          by_cases hr : (strike m p u b rem).remaining = 0
          · rw [sweep_stop hwf (.inl hr)]
            exact ⟨hI, hwf, .inl hr⟩
          · exact ih _ (hn ▸ strike_total hd hq ha hr) _ _ hwf hI rfl

/-! ## The precheck -/

theorem precheckFrom_empty {opp : Side} {px : ℕ} {want : UInt64} {acct : UInt32}
    {ps rest : List ℕ} {c : Engine.Precheck} (h : ∀ r ∈ ps, b.queues.levels opp r = []) :
    b.precheckFrom opp px want acct (ps ++ rest) c = b.precheckFrom opp px want acct rest c := by
  induction ps with
  | nil => rfl
  | cons r ps ih =>
      rw [List.cons_append, precheckFrom, if_pos (h r (by simp))]
      exact ih fun r' hr' => h r' (by simp [hr'])

theorem precheckFrom_cons {opp : Side} {px : ℕ} {want : UInt64} {acct : UInt32}
    {ps : List ℕ} {c : Engine.Precheck} (h : b.queues.levels opp p ≠ []) :
    b.precheckFrom opp px want acct (p :: ps) c =
      if !opp.opposite.crosses px p then c
      else if (b.consumeLevel opp want acct p c).1 then (b.consumeLevel opp want acct p c).2
      else b.precheckFrom opp px want acct ps (b.consumeLevel opp want acct p c).2 := by
  rw [precheckFrom, if_neg h]

end PriorityBook
end Orderbooks
