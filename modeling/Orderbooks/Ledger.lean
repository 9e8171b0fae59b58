import Orderbooks.TopThrottle

/-!
# Accounts of a whole day

What an order is worth to an account is up to the account: its open quantity if it has a given id,
or one if orders are counted. So is what an event costs. Whatever the account, the worth of a market
changes with a submit only by the makers that lose something, by what the events cost and by what
the aggressor brings. Over a whole day that bounds what the tape can cost by what the commands have
brought: `Account.play`. Two accounts are kept here. In the first one no order trades more than it
was given. In the second one the tape is linear in the commands, as every trade but one of each
submit uses a maker up.
-/
namespace Orderbooks
open Runs

/-! ## Deals -/

/-- What is said of one maker. -/
def Fate.deal (m : SubmitMsg) (o : Order) : Fate → List Event
  | .filled qty => [.fill ⟨o.id, m.id, o.px, qty, 0⟩, .trade ⟨o.px, qty, 0⟩]
  | .selfTraded qty => [.selfTrade ⟨m.id, o.id, m.accountId, o.px, qty, 0⟩]
  | .kept => []
  | .expired => []

theorem deals_cons (m : SubmitMsg) (a : Order × Fate) (fates : List (Order × Fate)) :
    deals m (a :: fates) = a.2.deal m a.1 ++ deals m fates := by
  obtain ⟨o, f⟩ := a
  cases f with
  | kept => rfl
  | expired => rfl
  | filled qty =>
      unfold deals
      simp only [notices, List.map_cons]
      rw [unstamped_notices m (0 + 1)]
      rfl
  | selfTraded qty =>
      unfold deals
      simp only [notices, List.map_cons]
      rw [unstamped_notices m (0 + 1)]
      rfl

theorem mem_deals {m : SubmitMsg} {fates : List (Order × Fate)} {ev : Event} :
    ev ∈ deals m fates ↔ ∃ a ∈ fates, ev ∈ a.2.deal m a.1 := by
  induction fates with
  | nil => simp [deals, notices]
  | cons a fates ih => simp [deals_cons, ih]

theorem survivors_cons (a : Order × Fate) (fates : List (Order × Fate)) :
    survivors (a :: fates) = (a.2.after a.1).toList ++ survivors fates := by
  unfold survivors
  rw [List.filterMap_cons]
  cases a.2.after a.1 <;> rfl

section Deals
variable {w : Order → ℕ} {v : Event → ℕ} {c : Order × Fate → ℕ} {m : SubmitMsg}
  {fates : List (Order × Fate)}

/-- The makers' losses cover the cost of the deals, up to what is charged to the aggressor. -/
theorem sum_deals_le (h : ∀ a ∈ fates,
    ((a.2.deal m a.1).map v).sum + ((a.2.after a.1).toList.map w).sum ≤ w a.1 + c a) :
    ((deals m fates).map v).sum + ((survivors fates).map w).sum ≤
      ((fates.map Prod.fst).map w).sum + (fates.map c).sum := by
  induction fates with
  | nil => exact le_refl _
  | cons a fates ih =>
      have hhead := h a List.mem_cons_self
      have htail := ih fun b hb => h b (List.mem_cons_of_mem _ hb)
      rw [deals_cons, survivors_cons]
      simp only [List.map_append, List.sum_append, List.map_cons, List.sum_cons]
      omega

end Deals

/-! ## The worth of a market -/

namespace Market

variable {R : Rules} {M M' : Market} {m : SubmitMsg} {w : Order → ℕ} {v : Event → ℕ}
  {c : Order × Fate → ℕ} {fates : List (Order × Fate)} {o : Order} {s : Side} {p : ℕ}

def sideWorth (R : Rules) (w : Order → ℕ) (M : Market) (s : Side) : ℕ :=
  ∑ p ∈ Finset.range R.ticks, ((M s p).map w).sum

/-- What all resting orders are worth. -/
def worth (R : Rules) (w : Order → ℕ) (M : Market) : ℕ :=
  M.sideWorth R w .bid + M.sideWorth R w .ask

theorem worth_eq (M : Market) (s : Side) :
    M.worth R w = M.sideWorth R w s + M.sideWorth R w s.opposite := by
  cases s
  · rfl
  · exact Nat.add_comm _ _

theorem sideWorth_congr (h : ∀ p, M' s p = M s p) : M'.sideWorth R w s = M.sideWorth R w s := by
  unfold sideWorth
  simp only [h]

theorem worth_mono {w' : Order → ℕ}
    (h : ∀ s p, ((M' s p).map w').sum ≤ ((M s p).map w).sum) :
    M'.worth R w' ≤ M.worth R w :=
  Nat.add_le_add (Finset.sum_le_sum fun p _ => h .bid p) (Finset.sum_le_sum fun p _ => h .ask p)

/-- One queue has changed. -/
theorem worth_queue {k k' : ℕ} (hp : p < R.ticks) (hside : ∀ q, M' s.opposite q = M s.opposite q)
    (hprice : ∀ q, q ≠ p → M' s q = M s q)
    (h : ((M' s p).map w).sum + k = ((M s p).map w).sum + k') :
    M'.worth R w + k = M.worth R w + k' := by
  have hrest : ∑ q ∈ (Finset.range R.ticks).erase p, ((M' s q).map w).sum =
      ∑ q ∈ (Finset.range R.ticks).erase p, ((M s q).map w).sum :=
    Finset.sum_congr rfl fun q hq => by rw [hprice q (Finset.ne_of_mem_erase hq)]
  have hmem : p ∈ Finset.range R.ticks := Finset.mem_range.mpr hp
  have hsplit' := Finset.add_sum_erase _ (fun q => ((M' s q).map w).sum) hmem
  have hsplit := Finset.add_sum_erase _ (fun q => ((M s q).map w).sum) hmem
  rw [worth_eq M' s, worth_eq M s, sideWorth_congr hside]
  unfold sideWorth
  omega

/-- A list of orders, told apart by their prices. -/
theorem sum_filter_px {good : ℕ → Bool} {os : List Order}
    (h : ∀ o ∈ os, o.px < R.ticks ∧ good o.px = true) :
    (∑ p ∈ Finset.range R.ticks, if good p then ((os.filter (·.px = p)).map w).sum else 0) =
      (os.map w).sum := by
  induction os with
  | nil => simp
  | cons o os ih =>
      obtain ⟨hlt, hgood⟩ := h o List.mem_cons_self
      have hsplit (p : ℕ) : (if good p then (((o :: os).filter (·.px = p)).map w).sum else 0) =
          (if p = o.px then w o else 0) +
            if good p then ((os.filter (·.px = p)).map w).sum else 0 := by
        by_cases hp : p = o.px
        · subst hp
          simp [hgood]
        · rw [List.filter_cons_of_neg (by simpa using fun h => hp h.symm), if_neg hp, Nat.zero_add]
      simp only [hsplit, Finset.sum_add_distrib, Finset.sum_ite_eq', Finset.mem_range, hlt, if_true,
        List.map_cons, List.sum_cons]
      rw [ih fun o' ho' => h o' (List.mem_cons_of_mem _ ho')]

theorem sum_makers (M : Market) (m : SubmitMsg) :
    ((M.makers R m).map w).sum = ∑ p ∈ Finset.range R.ticks,
      if m.s.crosses m.px p then ((M m.s.opposite p).map w).sum else 0 := by
  have hlist (l : List ℕ) : (((l.filter (m.s.crosses m.px)).flatMap (M m.s.opposite)).map w).sum =
      (l.map fun p => if m.s.crosses m.px p then ((M m.s.opposite p).map w).sum else 0).sum := by
    induction l with
    | nil => rfl
    | cons p l ih => by_cases h : m.s.crosses m.px p <;> simp [h, ih]
  have hperm : (m.s.opposite.priority R.ticks).Perm (List.range R.ticks) := by
    cases m.s.opposite with
    | bid => exact List.reverse_perm _
    | ask => exact .refl _
  rw [makers, hlist]
  exact (hperm.map _).sum_eq

theorem mem_makers (hM : M.Filed R) :
    ∀ o ∈ M.makers R m, o.px < R.ticks ∧ m.s.crosses m.px o.px = true := by
  intro o ho
  obtain ⟨p, hp, ho⟩ := List.mem_flatMap.mp ho
  obtain ⟨-, rfl, hlt⟩ := hM _ p o ho
  exact ⟨hlt, (List.mem_filter.mp hp).2⟩

theorem mem_survivors (hM : M.Filed R) (hf : fates.map Prod.fst = M.makers R m) :
    ∀ o ∈ survivors fates, o.px < R.ticks ∧ m.s.crosses m.px o.px = true := by
  intro o ho
  obtain ⟨⟨o₀, f⟩, ha, hafter⟩ := List.mem_filterMap.mp ho
  have hmem : o₀ ∈ M.makers R m := by
    rw [← hf]
    exact List.mem_map_of_mem ha
  rw [Fate.px_of_after hafter]
  exact mem_makers hM o₀ hmem

/-- The worth of a market changes as the makers in reach change. -/
theorem worth_matched (hM : M.Filed R) (hf : fates.map Prod.fst = M.makers R m) :
    (M.matched m fates).worth R w + ((fates.map Prod.fst).map w).sum =
      M.worth R w + ((survivors fates).map w).sum := by
  have hside : (M.matched m fates).sideWorth R w m.s = M.sideWorth R w m.s :=
    sideWorth_congr fun p => if_neg fun h => m.s.opposite_ne h.1.symm
  have hother : (M.matched m fates).sideWorth R w m.s.opposite + ((M.makers R m).map w).sum =
      M.sideWorth R w m.s.opposite + ((survivors fates).map w).sum := by
    rw [sum_makers, ← sum_filter_px (mem_survivors hM hf)]
    unfold sideWorth
    rw [← Finset.sum_add_distrib, ← Finset.sum_add_distrib]
    refine Finset.sum_congr rfl fun p _ => ?_
    by_cases hcross : m.s.crosses m.px p = true
    · simp only [matched, hcross, and_self, if_true]
      exact Nat.add_comm _ _
    · simp [matched, hcross]
  rw [worth_eq _ m.s, worth_eq M m.s, hside, hf]
  omega

theorem worth_join (hpx : m.px < R.ticks) (r : Remainder) :
    (M.join m r).worth R w = M.worth R w + ((r.records m).map w).sum := by
  refine worth_queue (s := m.s) (p := m.px) (k := 0) hpx (fun q => ?_) (fun q hq => ?_) ?_
  · simp [join, m.s.opposite_ne]
  · simp [join, hq]
  · simp [join]

/-- A submit costs what it brings at most, if the makers' losses cover the deals up to what is
charged to the aggressor. -/
theorem worth_submit (hM : M.Filed R) (hpx : m.px < R.ticks) (hdeal : ∀ a ∈ (M.outcome R m).fates,
      ((a.2.deal m a.1).map v).sum + ((a.2.after a.1).toList.map w).sum ≤ w a.1 + c a)
    {credit : ℕ} (hcredit : ∀ r : Remainder, r.Of m (M.outcome R m).left →
      ((M.outcome R m).fates.map c).sum + ((r.news m).map v).sum + ((r.records m).map w).sum ≤
        credit) :
    (M.submit R m).1.worth R w + ((M.submit R m).2.map v).sum ≤ M.worth R w + credit := by
  have hmatched := worth_matched (w := w) hM (makers_outcome (M := M) (R := R) (m := m))
  have hdeals := sum_deals_le hdeal
  unfold submit
  dsimp only
  set M₁ := M.matched m (M.outcome R m).fates
  have hr : (M₁.remainder R m (M.outcome R m).left).Of m (M.outcome R m).left := by
    unfold remainder
    split_ifs with h hfull
    · exact h
    · push Not at h
      exact ⟨rfl, h⟩
    · push Not at h
      exact ⟨rfl, h⟩
  have := hcredit _ hr
  rw [worth_join hpx, List.map_append, List.sum_append]
  omega

theorem worth_cancel_le (M : Market) (id : UInt64) : (M.cancel id).worth R w ≤ M.worth R w :=
  worth_mono fun s p => (List.filter_sublist.map w).sum_le_sum (by simp)

/-! ## Cancels and modifies -/

/-- Where the order that goes by an id stands. -/
theorem Sane.queue (hM : M.Sane R) {id : UInt64} (hfind : M.find R id = some o) :
    o.px < R.ticks ∧ (∃ l₁ l₂, M o.s o.px = l₁ ++ o :: l₂ ∧ ∀ x ∈ l₁ ++ l₂, x.id ≠ id) ∧
      ∀ s p, ¬(s = o.s ∧ p = o.px) → ∀ x ∈ M s p, x.id ≠ id := by
  obtain ⟨⟨s, p, ho⟩, rfl⟩ := hM.find_eq_some_iff.mp hfind
  obtain ⟨rfl, rfl, hlt⟩ := hM.filed s p o ho
  refine ⟨hlt, ?_, fun s p hne x hx hid => ?_⟩
  · obtain ⟨l₁, l₂, hsplit⟩ := List.append_of_mem ho
    have hnodup := hM.nodup o.s o.px
    rw [hsplit, List.map_append, List.map_cons, List.nodup_middle, List.nodup_cons,
      ← List.map_append] at hnodup
    exact ⟨l₁, l₂, hsplit, fun x hx hid => hnodup.1 (List.mem_map.mpr ⟨x, hx, hid⟩)⟩
  · obtain rfl := hM.named s p o.s o.px x hx o ho hid
    obtain ⟨hs, hp, -⟩ := hM.filed s p x hx
    exact hne ⟨hs.symm, hp.symm⟩

theorem worth_cancel (hM : M.Sane R) {id : UInt64} (hfind : M.find R id = some o) :
    (M.cancel id).worth R w + w o = M.worth R w := by
  obtain ⟨hlt, ⟨l₁, l₂, hsplit, hl⟩, hothers⟩ := hM.queue hfind
  have hid : o.id = id := (hM.find_eq_some_iff.mp hfind).2
  have hkeep (s : Side) (p : ℕ) (h : ¬(s = o.s ∧ p = o.px)) : M.cancel id s p = M s p :=
    List.filter_eq_self.mpr fun x hx => by simpa using hothers s p h x hx
  have hqueue : M.cancel id o.s o.px = l₁ ++ l₂ := by
    have hself : (l₁ ++ l₂).filter (·.id ≠ id) = l₁ ++ l₂ :=
      List.filter_eq_self.mpr fun x hx => by simpa using hl x hx
    rw [cancel, hsplit, List.filter_append, List.filter_cons_of_neg (by simpa using hid),
      ← List.filter_append, hself]
  have hsum : ((M.cancel id o.s o.px).map w).sum + w o = ((M o.s o.px).map w).sum + 0 := by
    rw [hqueue, hsplit]
    simp only [List.map_append, List.sum_append, List.map_cons, List.sum_cons]
    omega
  exact worth_queue hlt (fun q => hkeep _ q fun h => o.s.opposite_ne h.1)
    (fun q hq => hkeep _ q fun h => hq h.2) hsum

theorem worth_amend (hM : M.Sane R) {id : UInt64} (hfind : M.find R id = some o)
    (f : Order → Order) : (M.amend id f).worth R w + w o = M.worth R w + w (f o) := by
  obtain ⟨hlt, ⟨l₁, l₂, hsplit, hl⟩, hothers⟩ := hM.queue hfind
  have hid : o.id = id := (hM.find_eq_some_iff.mp hfind).2
  have hsame {l : List Order} (h : ∀ x ∈ l, x.id ≠ id) :
      (l.map fun x => if x.id = id then f x else x) = l :=
    (List.map_congr_left fun x hx => if_neg (h x hx)).trans (List.map_id l)
  refine worth_queue hlt (fun q => hsame (hothers _ q fun h => o.s.opposite_ne h.1))
    (fun q hq => hsame (hothers _ q fun h => hq h.2)) ?_
  have hqueue : M.amend id f o.s o.px = l₁ ++ f o :: l₂ := by
    rw [amend, hsplit, List.map_append, List.map_cons, if_pos hid,
      hsame fun x hx => hl x (List.mem_append_left _ hx),
      hsame fun x hx => hl x (List.mem_append_right _ hx)]
  rw [hqueue, hsplit]
  simp only [List.map_append, List.sum_append, List.map_cons, List.sum_cons]
  omega

theorem Filed.cancel (hM : M.Filed R) (id : UInt64) : (M.cancel id).Filed R :=
  fun s p o ho => hM s p o (List.mem_of_mem_filter ho)

end Market

/-! ## Accounts -/

/-- What orders are worth and what events cost, with what a command brings at most. -/
structure Account (R : Rules) where
  order : Order → ℕ
  event : Event → ℕ
  given : SubmitMsg → ℕ
  regiven : ModifyMsg → ℕ
  quote : ℕ
  submit : ∀ (M : Market) (m : SubmitMsg), M.Filed R → m.px < R.ticks →
    (M.submit R m).1.worth R order + ((M.submit R m).2.map event).sum ≤ M.worth R order + given m
  amend : ∀ (m : ModifyMsg) (o : Order),
    order { o with id := m.effectiveId, remaining := m.newQty } ≤ order o + regiven m
  move : ∀ (m : ModifyMsg) (o : Order),
    given ⟨m.effectiveId, m.newPx, m.newQty, o.s, o.t, o.accountId⟩ ≤ order o + regiven m
  top : ∀ t : Top, event t.news ≤ quote

namespace Account

variable {R : Rules} (A : Account R) {M : Market} {cmd : Command} {maxQty : UInt64}

def credit : Command → ℕ
  | .submit m => A.given m
  | .cancel _ => 0
  | .modify m => A.regiven m

theorem step (hM : M.Sane R) (hdom : cmd.InDomain R.ticks maxQty) :
    (M.step R cmd).1.worth R A.order + ((M.step R cmd).2.map A.event).sum ≤
      M.worth R A.order + A.credit cmd := by
  cases cmd with
  | submit m => exact A.submit M m hM.filed hdom.1
  | cancel m => exact Market.worth_cancel_le M m.id
  | modify m =>
      change (M.modify R m).1.worth R A.order + ((M.modify R m).2.map A.event).sum ≤ _ + A.regiven m
      cases hfind : M.find R m.id with
      | none =>
          rw [Market.modify_none hfind]
          exact Nat.le_add_right _ _
      | some o =>
          by_cases hpx : m.newPx = o.px
          · have hworth := Market.worth_amend (w := A.order) hM hfind
              fun o => { o with id := m.effectiveId, remaining := m.newQty }
            have := A.amend m o
            rw [Market.modify_amend hfind hpx]
            simp only [List.map_nil, List.sum_nil]
            omega
          · have hworth := Market.worth_cancel (w := A.order) hM hfind
            have hsubmit := A.submit (M.cancel m.id)
              ⟨m.effectiveId, m.newPx, m.newQty, o.s, o.t, o.accountId⟩ (hM.filed.cancel m.id)
              hdom.1
            have := A.move m o
            rw [Market.modify_move hfind hpx]
            omega

theorem apply (hM : M.Sane R) (hdom : cmd.InDomain R.ticks maxQty) :
    (M.apply R cmd).1.worth R A.order + ((M.apply R cmd).2.map A.event).sum ≤
      M.worth R A.order + A.credit cmd + A.quote := by
  have hstep := A.step hM hdom
  unfold Market.apply
  dsimp only
  rw [List.map_append, List.sum_append]
  split_ifs
  · have := A.top ((M.step R cmd).1.top R)
    simp only [List.map_cons, List.map_nil, List.sum_cons, List.sum_nil]
    omega
  · simp only [List.map_nil, List.sum_nil]
    omega

/-- What a day leaves and what its tape has cost, the commands have brought. -/
theorem play {cmds : List Command} (hok : Market.Permitted R maxQty cmds) (hc : 0 < R.capacity)
    (ht : R.ticks ≤ 64 ^ 4) (hcap : R.capacity * maxQty.toNat < 2 ^ 64) :
    (Market.play R cmds).1.worth R A.order + ((Market.play R cmds).2.map A.event).sum ≤
      (cmds.map A.credit).sum + cmds.length * A.quote := by
  induction cmds using List.reverseRecOn with
  | nil => simp [Market.play, Market.worth, Market.sideWorth]
  | append_singleton cmds cmd ih =>
      obtain ⟨hbefore, hdom, -⟩ := Market.permitted_concat.mp hok
      have hday := ih hbefore
      have happly := A.apply (hbefore.sane hc ht hcap) hdom
      rw [Market.play_concat]
      simp only [Market.Day.next, List.map_append, List.sum_append, List.map_cons, List.map_nil,
        List.sum_cons, List.sum_nil, List.length_append, List.length_cons, List.length_nil,
        Nat.add_mul]
      omega

end Account

/-! ## The account of one order -/

/-- How much an event trades of the order `x`. -/
def Event.traded (x : UInt64) : Event → ℕ
  | .fill f => (if f.maker = x then f.qty.toNat else 0) + if f.taker = x then f.qty.toNat else 0
  | .selfTrade f =>
      (if f.resting = x then f.qty.toNat else 0) + if f.aggressor = x then f.qty.toNat else 0
  | _ => 0

/-- How much a command lets the order `x` trade. -/
def Command.grants (x : UInt64) : Command → ℕ
  | .submit m => if m.id = x then m.qty.toNat else 0
  | .cancel _ => 0
  | .modify m => if m.effectiveId = x then m.newQty.toNat else 0

def Order.openOf (x : UInt64) (o : Order) : ℕ := if o.id = x then o.remaining.toNat else 0

theorem Order.less_openOf (x : UInt64) {o : Order} {qty : UInt64} (h : qty ≤ o.remaining) :
    ((o.less qty).toList.map (openOf x)).sum + (if o.id = x then qty.toNat else 0) =
      o.openOf x := by
  have hsub := UInt64.toNat_sub_of_le _ _ h
  have hle := UInt64.le_iff_toNat_le.mp h
  unfold Order.less openOf
  split_ifs with hzero hid hid
  · have : (o.remaining - qty).toNat = 0 := by rw [hzero]; rfl
    simp only [Option.toList_none, List.map_nil, List.sum_nil]
    omega
  · rfl
  · simp only [Option.toList_some, List.map_cons, List.map_nil, List.sum_cons, List.sum_nil, hid,
      if_true]
    omega
  · simp [hid]

def Account.ofOrder (R : Rules) (x : UInt64) : Account R where
  order := Order.openOf x
  event := Event.traded x
  given m := if m.id = x then m.qty.toNat else 0
  regiven m := if m.effectiveId = x then m.newQty.toNat else 0
  quote := 0
  submit M m hM hpx := by
    have hlaw := M.outcome_lawful R m
    -- the aggressor is charged what it takes
    refine Market.worth_submit (c := fun a => if m.id = x then a.2.taken.toNat else 0) hM hpx ?_ ?_
    · rintro ⟨o, f⟩ ha
      have hle := hlaw.bounded _ ha
      cases f with
      | kept => simp [Fate.deal, Fate.after]
      | expired => simp [Fate.deal, Fate.after]
      | filled qty =>
          have := Order.less_openOf x hle
          simp only [Fate.deal, Fate.after, Fate.taken, Event.traded, List.map_cons, List.map_nil,
            List.sum_cons, List.sum_nil] at this ⊢
          omega
      | selfTraded qty =>
          have := Order.less_openOf x hle
          simp only [Fate.deal, Fate.after, Fate.taken, Event.traded, List.map_cons, List.map_nil,
            List.sum_cons, List.sum_nil] at this ⊢
          omega
    · intro r hr
      have htaken : taken (M.outcome R m).fates + (M.outcome R m).left.toNat ≤ m.qty.toNat := by
        rcases hlaw.complete with hall | ⟨hlt, hzero, -⟩
        · exact hall.le
        · rw [hzero]
          exact hlt.le
      by_cases hid : m.id = x
      · simp only [hid, if_true]
        change taken _ + _ + _ ≤ _
        cases r with
        | gone =>
            simpa [Remainder.news, Remainder.records] using (Nat.le_add_right _ _).trans htaken
        | rests qty =>
            obtain ⟨rfl, -⟩ := hr
            simpa [Remainder.news, Remainder.records, Order.openOf, hid] using htaken
        | rejected qty =>
            simpa [Remainder.news, Remainder.records, Event.traded] using
              (Nat.le_add_right _ _).trans htaken
      · cases r <;> simp [hid, Remainder.news, Remainder.records, Event.traded, Order.openOf]
  amend m o := Nat.le_add_left _ _
  move m o := Nat.le_add_left _ _
  top t := le_refl _

/-! ## The account of the tape -/

/-- Whether a trade leaves something of the maker. -/
def Fate.cut (o : Order) : Fate → ℕ
  | .filled qty => (o.less qty).toList.length
  | .selfTraded qty => (o.less qty).toList.length
  | .kept => 0
  | .expired => 0

theorem Fate.cut_traded (acct : UInt32) (o : Order) (qty : UInt64) :
    (Fate.traded acct o qty).cut o = (o.less qty).toList.length := by
  unfold Fate.traded
  split_ifs <;> rfl

/-- How many makers have something left that the aggressor has traded with. -/
def Outcome.cuts (k : Outcome) : ℕ := (k.fates.map fun a => a.2.cut a.1).sum

theorem Outcome.cuts_untouched (os : List Order) (left : UInt64) (aborted : Bool) :
    (⟨untouched os, left, aborted⟩ : Outcome).cuts = 0 := by
  induction os with
  | nil => rfl
  | cons o os ih => simpa [cuts, untouched, Fate.cut] using ih

theorem Outcome.cuts_cons (a : Order × Fate) (k : Outcome) :
    (k.cons a).cuts = a.2.cut a.1 + k.cuts := by
  simp [cuts, Outcome.cons]

/-- Only the last maker an aggressor trades with can have something left, and then the aggressor
has not. -/
theorem settle_cuts (pol : SelfCrossPolicy) (acct : UInt32) (os : List Order) (rem : UInt64) :
    (settle pol acct os rem).cuts = 0 ∨
      (settle pol acct os rem).cuts = 1 ∧ (settle pol acct os rem).left = 0 := by
  induction os generalizing rem with
  | nil => exact .inl rfl
  | cons o os ih =>
      by_cases hrem : rem = 0
      · rw [hrem, settle_zero]
        exact .inl (Outcome.cuts_untouched _ _ _)
      by_cases htrade : o.OwnOf acct → pol = .decrementTrade
      · rw [settle_trade os hrem htrade, Outcome.cuts_cons, Fate.cut_traded]
        by_cases hless : o.remaining - min rem o.remaining = 0
        · rw [Order.less, if_pos hless]
          simpa [Outcome.cons] using ih (rem - min rem o.remaining)
        · -- the maker had more than the aggressor was after
          have hdone : rem - min rem o.remaining = 0 := by
            have hmin := PriorityBook.toNat_sub_min rem o.remaining
            have hne : (o.remaining - min rem o.remaining).toNat ≠ 0 := fun h =>
              hless (UInt64.toNat_inj.mp h)
            refine UInt64.toNat_inj.mp ?_
            change _ = 0
            omega
          rw [hdone, settle_zero, Order.less, if_neg hless, Outcome.cuts_untouched]
          exact .inr ⟨rfl, rfl⟩
      obtain ⟨hown, hpol⟩ := Classical.not_imp.mp htrade
      cases pol with
      | decrementTrade => exact absurd rfl hpol
      | cancelNewest =>
          rw [settle_abort os hrem hown]
          exact .inl (Outcome.cuts_untouched _ _ _)
      | cancelOldest =>
          rw [settle_expire os hrem hown, Outcome.cuts_cons]
          simpa [Outcome.cons, Fate.cut] using ih rem

theorem Market.outcome_cuts (R : Rules) (M : Market) (m : SubmitMsg) :
    (M.outcome R m).cuts = 0 ∨ (M.outcome R m).cuts = 1 ∧ (M.outcome R m).left = 0 := by
  unfold outcome
  dsimp only
  split_ifs
  · exact .inl (Outcome.cuts_untouched _ _ _)
  · exact settle_cuts _ _ _ _

/-- Each order is worth `k`, and so a deal may cost as much. -/
def Account.counting (R : Rules) (k quote : ℕ) (v : Event → ℕ)
    (hfill : ∀ f t, v (.fill f) + v (.trade t) ≤ k) (hself : ∀ f, v (.selfTrade f) ≤ k)
    (hreject : ∀ f, v (.reject f) ≤ k) (htop : ∀ t : Top, v t.news ≤ quote) : Account R where
  order _ := k
  event := v
  given _ := k
  regiven _ := 0
  quote := quote
  submit M m hM hpx := by
    have hkept (l : List Order) : (l.map fun _ => k).sum = k * l.length := by
      rw [List.map_const', List.sum_replicate, Nat.nsmul_eq_mul, Nat.mul_comm]
    refine Market.worth_submit (c := fun a => k * a.2.cut a.1) hM hpx ?_ ?_
    · rintro ⟨o, f⟩ -
      cases f with
      | kept => simp [Fate.deal, Fate.after, Fate.cut]
      | expired => simp [Fate.deal, Fate.after, Fate.cut]
      | filled qty =>
          have := hfill ⟨o.id, m.id, o.px, qty, 0⟩ ⟨o.px, qty, 0⟩
          simp only [Fate.deal, Fate.after, Fate.cut, List.map_cons, List.map_nil, List.sum_cons,
            List.sum_nil, hkept]
          omega
      | selfTraded qty =>
          have := hself ⟨m.id, o.id, m.accountId, o.px, qty, 0⟩
          simp only [Fate.deal, Fate.after, Fate.cut, List.map_cons, List.map_nil, List.sum_cons,
            List.sum_nil, hkept]
          omega
    · intro r hr
      have hcuts : ((M.outcome R m).fates.map fun a => k * a.2.cut a.1).sum =
          k * (M.outcome R m).cuts := List.sum_map_mul_left _ _ _
      rw [hcuts]
      rcases M.outcome_cuts R m with hnone | ⟨hone, hleft⟩
      · rw [hnone]
        cases r with
        | gone => simp [Remainder.news, Remainder.records]
        | rests qty => simp [Remainder.news, Remainder.records]
        | rejected qty => simpa [Remainder.news, Remainder.records] using hreject _
      · rw [hone]
        cases r with
        | gone => simp [Remainder.news, Remainder.records]
        | rests qty => exact absurd hleft hr.2.1
        | rejected qty => exact absurd hleft hr.2.1
  amend m o := le_refl _
  move m o := le_refl _
  top := htop

/-! ## Engines -/

/-- Whether an event is a trade, a self-trade or a reject of some order. -/
def Event.settles : Event → Bool
  | .fill _ => true
  | .selfTrade _ => true
  | .reject _ => true
  | _ => false

def Command.isSubmit : Command → Bool
  | .submit _ => true
  | _ => false

theorem Account.counting_credit {R : Rules} {k quote : ℕ} {v : Event → ℕ}
    {hfill : ∀ f t, v (.fill f) + v (.trade t) ≤ k} {hself : ∀ f, v (.selfTrade f) ≤ k}
    {hreject : ∀ f, v (.reject f) ≤ k} {htop : ∀ t : Top, v t.news ≤ quote}
    (cmds : List Command) :
    (cmds.map (counting R k quote v hfill hself hreject htop).credit).sum =
      k * cmds.countP Command.isSubmit := by
  rw [← sum_ite_eq_countP]
  refine congrArg List.sum (List.map_congr_left fun cmd _ => ?_)
  cases cmd <;> rfl

/-- Orders against the events that settle them. -/
def Account.settled (R : Rules) : Account R :=
  .counting R 1 0 (fun ev => if ev.settles then 1 else 0) (fun _ _ => le_refl _)
    (fun _ => le_refl _) (fun _ => le_refl _) fun _ => le_refl _

/-- Orders against all events, where a fill comes with a trade. -/
def Account.published (R : Rules) : Account R :=
  .counting R 2 1 (fun _ => 1) (fun _ _ => le_refl _) (fun _ => Nat.le_succ 1)
    (fun _ => Nat.le_succ 1) fun _ => le_refl _

namespace Engine

variable {ticks maxOrders : ℕ}

/-- How many orders rest. -/
def restingCount (e : Engine (List Event) ticks maxOrders .byId) : ℕ :=
  ∑ s : Side, ∑ p ∈ Finset.range ticks, (e.recordsAt s p).length

theorem sum_sides (f : Side → ℕ) : ∑ s : Side, f s = f .bid + f .ask := rfl

theorem restingQty_eq_worth (e : Engine (List Event) ticks maxOrders .byId) (R : Rules)
    (hR : R.ticks = ticks) (x : UInt64) :
    e.restingQty x = Market.worth R (Order.openOf x) e.recordsAt := by
  have hlist (l : List Order) : ((l.filter (·.id = x)).map fun o => o.remaining.toNat).sum =
      (l.map (Order.openOf x)).sum := by
    induction l with
    | nil => rfl
    | cons o l ih => by_cases h : o.id = x <;> simp [h, Order.openOf, ih]
  rw [restingQty, sum_sides, Market.worth, Market.sideWorth, Market.sideWorth, hR]
  simp only [hlist]

theorem restingCount_eq_worth (e : Engine (List Event) ticks maxOrders .byId) (R : Rules)
    (hR : R.ticks = ticks) (k : ℕ) :
    k * e.restingCount = Market.worth R (fun _ => k) e.recordsAt := by
  have hlist (l : List Order) : (l.map fun _ => k).sum = k * l.length := by
    rw [List.map_const', List.sum_replicate, Nat.nsmul_eq_mul, Nat.mul_comm]
  rw [restingCount, sum_sides, Market.worth, Market.sideWorth, Market.sideWorth, hR]
  simp only [hlist, ← Finset.mul_sum, Nat.mul_add]

section Histories
variable (cfg : EngineConfig) (mem : Memory) (hc : 0 < maxOrders) (ht : ticks ≤ 64 ^ 4)
  (hcap : maxOrders * cfg.maxOrderQty.toNat < 2 ^ 64) (cmds : List Command)
  (hdom : ∀ cmd ∈ cmds, cmd.InDomain ticks cfg.maxOrderQty)
  (hfresh : Along apply Fresh (new [] cfg mem : Engine (List Event) ticks maxOrders .byId) cmds)
include hc ht hcap hdom hfresh

/-- What a history leaves in the book and has published, to any account. -/
theorem account_play (A : Account (rulesOf cfg ticks maxOrders))
    (hstamp : ∀ ev, A.event ev.unstamped = A.event ev) :
    let e : Engine (List Event) ticks maxOrders .byId := play [] cfg mem cmds
    Market.worth (rulesOf cfg ticks maxOrders) A.order e.recordsAt + (e.pub.map A.event).sum ≤
      (cmds.map A.credit).sum + cmds.length * A.quote := by
  intro e
  have hok := permitted cfg mem hc ht hcap hdom hfresh
  have hshows := play_shows cfg mem hc ht hcap hok
  have hevents : (e.pub.map A.event).sum =
      (((Market.play (rulesOf cfg ticks maxOrders) cmds).2).map A.event).sum := by
    rw [← hshows.published, List.map_map]
    exact congrArg List.sum (List.map_congr_left fun ev _ => (hstamp ev).symm)
  rw [hshows.records, hevents]
  exact A.play hok hc ht hcap

/-- No order ever trades more than it was given. Over any history, what an order id has traded as
a maker and as a taker, in fills and in self-trades, and what rests under it are together at most
what its submits and the modifies to it have asked for. -/
theorem no_order_overfilled (x : UInt64) :
    let e : Engine (List Event) ticks maxOrders .byId := play [] cfg mem cmds
    (e.pub.map (Event.traded x)).sum + e.restingQty x ≤ (cmds.map (Command.grants x)).sum := by
  intro e
  have h := account_play cfg mem hc ht hcap cmds hdom hfresh (.ofOrder _ x)
    (fun ev => by cases ev <;> rfl)
  have hcredit : (Account.ofOrder (rulesOf cfg ticks maxOrders) x).credit = Command.grants x := by
    funext cmd
    cases cmd <;> rfl
  rw [hcredit] at h
  rw [restingQty_eq_worth e (rulesOf cfg ticks maxOrders) rfl, Nat.add_comm]
  exact h

/-- The tape is linear in the commands, however deep the book is and however far a single order
sweeps it. Over any history there are at most as many fills, self-trades and rejects, together with
the orders that still rest, as there were submits. Modifies trade on what the modified order has
brought. The whole tape, with its trades and tops, has at most two events for each submit and one
for each command. -/
theorem tape_linear :
    let e : Engine (List Event) ticks maxOrders .byId := play [] cfg mem cmds
    e.pub.countP Event.settles + e.restingCount ≤ cmds.countP Command.isSubmit ∧
      e.pub.length + 2 * e.restingCount ≤ 2 * cmds.countP Command.isSubmit + cmds.length := by
  intro e
  have hcount := restingCount_eq_worth e (rulesOf cfg ticks maxOrders) rfl
  refine ⟨?_, ?_⟩
  · have h : Market.worth _ (fun _ => 1) e.recordsAt +
        (e.pub.map fun ev => if ev.settles then 1 else 0).sum ≤
          (cmds.map (Account.settled _).credit).sum + cmds.length * 0 :=
      account_play cfg mem hc ht hcap cmds hdom hfresh (.settled _) fun ev => by cases ev <;> rfl
    have hcredit : (cmds.map (Account.settled (rulesOf cfg ticks maxOrders)).credit).sum =
        1 * cmds.countP Command.isSubmit := Account.counting_credit cmds
    rw [sum_ite_eq_countP, ← hcount, hcredit] at h
    omega
  · have h : Market.worth _ (fun _ => 2) e.recordsAt + (e.pub.map fun _ => 1).sum ≤
        (cmds.map (Account.published _).credit).sum + cmds.length * 1 :=
      account_play cfg mem hc ht hcap cmds hdom hfresh (.published _) fun _ => rfl
    have hlength : (e.pub.map fun _ => 1).sum = e.pub.length := by simp
    have hcredit : (cmds.map (Account.published (rulesOf cfg ticks maxOrders)).credit).sum =
        2 * cmds.countP Command.isSubmit := Account.counting_credit cmds
    rw [hlength, ← hcount, hcredit] at h
    omega

end Histories

/-- An ask trades before and after a modify that lowers it and brings it down to a bid. -/
theorem no_order_overfilled_modified :
    let cmds : List Command := [.submit ⟨1, 1, 5, .ask, .gtc, 0⟩, .submit ⟨2, 1, 2, .bid, .ioc, 0⟩,
      .submit ⟨3, 0, 1, .bid, .gtc, 0⟩, .modify { id := 1, newPx := 0, newQty := 2 }]
    let e : Engine (List Event) 2 2 .byId := play [] {} .zeroed cmds
    (e.pub.map (Event.traded 1)).sum = 3 ∧ e.restingQty 1 = 1 ∧
      (e.pub.map (Event.traded 1)).sum + e.restingQty 1 ≤ 7 := by
  intro cmds e
  have h := no_order_overfilled {} .zeroed (by decide) (by decide) (by decide) cmds (by decide)
    (by decide : Along apply Fresh (new [] {} .zeroed : Engine (List Event) 2 2 .byId) cmds) 1
  exact ⟨by decide, by decide, h⟩

/-- One order sweeps three others. -/
theorem tape_linear_sweep :
    let cmds : List Command := [.submit ⟨1, 0, 1, .ask, .gtc, 0⟩, .submit ⟨2, 1, 1, .ask, .gtc, 0⟩,
      .submit ⟨3, 1, 1, .ask, .gtc, 0⟩, .submit ⟨4, 1, 4, .bid, .gtc, 0⟩]
    let e : Engine (List Event) 2 3 .byId := play [] {} .zeroed cmds
    e.pub.countP Event.settles + e.restingCount = 4 ∧
      e.pub.countP Event.settles + e.restingCount ≤ cmds.countP Command.isSubmit := by
  intro cmds e
  have h := tape_linear {} .zeroed (by decide) (by decide) (by decide) cmds (by decide)
    (by decide : Along apply Fresh (new [] {} .zeroed : Engine (List Event) 2 3 .byId) cmds)
  exact ⟨by decide +kernel, h.1⟩

end Engine
end Orderbooks
