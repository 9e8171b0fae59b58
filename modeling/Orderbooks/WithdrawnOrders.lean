import Orderbooks.Ledger
import Orderbooks.CancelReplace

/-!
# Orders that are withdrawn untouched

An order may wait in the book, be counted by the fill-or-kill check of others and be shown in the
top, and be cancelled before anybody has met it. The trades are then the same as if it had never
been sent. Two markets are run side by side, one with the order and one without it: the second one
is the first with the order cancelled, at any time. The order belongs to no account, as an order of
an account can stop or expire unseen by the tape.
-/
namespace Orderbooks
open Runs

/-- The event is about the order `x`. -/
def Event.names (x : UInt64) : Event → Bool
  | .fill f => f.maker = x || f.taker = x
  | .selfTrade f => f.resting = x || f.aggressor = x
  | .reject f => f.id = x
  | _ => false

theorem Event.names_unstamped (x : UInt64) (ev : Event) : ev.unstamped.names x = ev.names x := by
  cases ev <;> rfl

/-- The command is about the order `x`, or makes another order go by `x`. -/
def Command.names (x : UInt64) : Command → Bool
  | .submit m => m.id = x
  | .cancel m => m.id = x
  | .modify m => m.id = x || m.effectiveId = x

variable {pol : SelfCrossPolicy} {acct : UInt32} {os : List Order} {rem rem' x : UInt64}
  {m : SubmitMsg} {fates : List (Order × Fate)}

/-- The orders but the one that goes by `x`. -/
def without (x : UInt64) (os : List Order) : List Order := os.filter (·.id ≠ x)

def fatesWithout (x : UInt64) (fates : List (Order × Fate)) : List (Order × Fate) :=
  fates.filter (·.1.id ≠ x)

/-- Nobody has met the order `x`. -/
def Unmet (x : UInt64) (fates : List (Order × Fate)) : Prop :=
  ∀ a ∈ fates, a.1.id = x → a.2 = .kept

theorem untouched_without (x : UInt64) (os : List Order) :
    untouched (without x os) = fatesWithout x (untouched os) := by
  unfold untouched without fatesWithout
  rw [List.filter_map]
  rfl

/-! ## Settling without an order -/

/-- An aggressor that does not get to the order settles with the others as if it were not there. -/
theorem settle_without (hanon : ∀ o ∈ os, o.id = x → ¬o.OwnOf acct)
    (hunmet : Unmet x (settle pol acct os rem).fates) :
    settle pol acct (without x os) rem =
      { settle pol acct os rem with fates := fatesWithout x (settle pol acct os rem).fates } := by
  induction os generalizing rem with
  | nil => rfl
  | cons o os ih =>
      have hanon' : ∀ o ∈ os, o.id = x → ¬o.OwnOf acct := fun o ho =>
        hanon o (List.mem_cons_of_mem _ ho)
      by_cases hrem : rem = 0
      · rw [hrem, settle_zero, settle_zero, untouched_without]
      by_cases hx : o.id = x
      · -- it would have been traded with
        have hown := hanon o List.mem_cons_self hx
        rw [settle_trade os hrem fun h => absurd h hown] at hunmet
        have hkept := hunmet _ List.mem_cons_self hx
        rw [Fate.traded, if_neg hown] at hkept
        cases hkept
      have hhead : without x (o :: os) = o :: without x os :=
        List.filter_cons_of_pos (by simpa using hx)
      have hfates (f : Fate) (l : List (Order × Fate)) :
          fatesWithout x ((o, f) :: l) = (o, f) :: fatesWithout x l :=
        List.filter_cons_of_pos (by simpa using hx)
      rw [hhead]
      by_cases htrade : o.OwnOf acct → pol = .decrementTrade
      · rw [settle_trade os hrem htrade] at hunmet ⊢
        rw [settle_trade _ hrem htrade,
          ih hanon' fun a ha => hunmet a (List.mem_cons_of_mem _ ha)]
        simp only [Outcome.cons, hfates]
      obtain ⟨hown, hpol⟩ := Classical.not_imp.mp htrade
      cases pol with
      | decrementTrade => exact absurd rfl hpol
      | cancelNewest =>
          rw [settle_abort _ hrem hown, settle_abort _ hrem hown, ← hhead, untouched_without]
      | cancelOldest =>
          rw [settle_expire os hrem hown] at hunmet ⊢
          rw [settle_expire _ hrem hown,
            ih hanon' fun a ha => hunmet a (List.mem_cons_of_mem _ ha)]
          simp only [Outcome.cons, hfates]

/-- What is not to be filled is not to be filled with an order less. -/
theorem settle_short (hanon : ∀ o ∈ os, o.id = x → ¬o.OwnOf acct) (hle : rem ≤ rem')
    (h : taken (settle pol acct os rem).fates < rem.toNat) :
    taken (settle pol acct (without x os) rem').fates < rem'.toNat := by
  induction os generalizing rem rem' with
  | nil => exact h.trans_le (UInt64.le_iff_toNat_le.mp hle)
  | cons o os ih =>
      have hanon' : ∀ o ∈ os, o.id = x → ¬o.OwnOf acct := fun o ho =>
        hanon o (List.mem_cons_of_mem _ ho)
      have hrem : rem ≠ 0 := by
        rintro rfl
        exact absurd h (Nat.not_lt_zero _)
      have hle' := UInt64.le_iff_toNat_le.mp hle
      have hrem' : rem' ≠ 0 := by
        rintro rfl
        exact hrem (UInt64.toNat_inj.mp (Nat.le_zero.mp hle'))
      have hmin := PriorityBook.toNat_sub_min rem o.remaining
      have hmin' := PriorityBook.toNat_sub_min rem' o.remaining
      by_cases hx : o.id = x
      · have hown := hanon o List.mem_cons_self hx
        rw [settle_trade os hrem fun h => absurd h hown] at h
        change taken ((o, _) :: _) < _ at h
        rw [taken_cons, Fate.taken_traded, PriorityBook.toNat_min] at h
        have hskip : without x (o :: os) = without x os :=
          List.filter_cons_of_neg (by simpa using hx)
        have htail : taken (settle pol acct os (rem - min rem o.remaining)).fates <
            (rem - min rem o.remaining).toNat := by omega
        rw [hskip]
        exact ih hanon' (UInt64.le_iff_toNat_le.mpr (by omega)) htail
      have hhead : without x (o :: os) = o :: without x os :=
        List.filter_cons_of_pos (by simpa using hx)
      rw [hhead]
      by_cases htrade : o.OwnOf acct → pol = .decrementTrade
      · rw [settle_trade _ hrem htrade] at h
        rw [settle_trade _ hrem' htrade]
        change taken ((o, _) :: _) < _ at h ⊢
        rw [taken_cons, Fate.taken_traded, PriorityBook.toNat_min] at h ⊢
        -- the maker is used up, with the order `x` and without it
        have htail : taken (settle pol acct os (rem - min rem o.remaining)).fates <
            (rem - min rem o.remaining).toNat := by omega
        have hstep : rem - min rem o.remaining ≤ rem' - min rem' o.remaining :=
          UInt64.le_iff_toNat_le.mpr (by omega)
        have := ih hanon' hstep htail
        omega
      obtain ⟨hown, hpol⟩ := Classical.not_imp.mp htrade
      cases pol with
      | decrementTrade => exact absurd rfl hpol
      | cancelNewest =>
          rw [settle_abort _ hrem' hown, taken_untouched]
          omega
      | cancelOldest =>
          rw [settle_expire _ hrem hown] at h
          rw [settle_expire _ hrem' hown]
          change taken ((o, _) :: _) < _ at h ⊢
          rw [taken_cons] at h ⊢
          have hzero : ((o, Fate.expired) : Order × Fate).2.taken.toNat = 0 := rfl
          have := ih hanon' hle (by omega)
          omega

/-! ## What is said and left without an order -/

/-- Of an order that is not named in the news and cannot be an aggressor's own, nobody took
anything. -/
theorem unmet_of_not_named {rem : UInt64} {k : Outcome} (hlaw : k.Lawful pol acct os rem)
    (hanon : ∀ o ∈ os, o.id = x → ¬o.OwnOf acct)
    (hnews : ∀ ev ∈ deals m k.fates, ev.names x = false) : Unmet x k.fates := by
  rintro ⟨o, f⟩ ha rfl
  have hmem : o ∈ os := by
    rw [← hlaw.makers]
    exact List.mem_map_of_mem ha
  have hdeal : ∀ ev ∈ f.deal m o, ev.names o.id = false := fun ev hev =>
    hnews ev (mem_deals.mpr ⟨_, ha, hev⟩)
  cases f with
  | kept => rfl
  | expired => exact absurd (hlaw.allowed _ ha).2 (hanon o hmem rfl)
  | filled qty => simpa [Event.names] using hdeal _ List.mem_cons_self
  | selfTraded qty => simpa [Event.names] using hdeal _ List.mem_cons_self

theorem deals_without (h : Unmet x fates) : deals m (fatesWithout x fates) = deals m fates := by
  induction fates with
  | nil => rfl
  | cons a fates ih =>
      have hrest := ih fun b hb => h b (List.mem_cons_of_mem _ hb)
      by_cases hx : a.1.id = x
      · have hskip : fatesWithout x (a :: fates) = fatesWithout x fates :=
          List.filter_cons_of_neg (by simpa using hx)
        rw [hskip, hrest, deals_cons, h a List.mem_cons_self hx]
        rfl
      · have hkeep : fatesWithout x (a :: fates) = a :: fatesWithout x fates :=
          List.filter_cons_of_pos (by simpa using hx)
        rw [hkeep, deals_cons, deals_cons, hrest]

theorem taken_without (h : Unmet x fates) : taken (fatesWithout x fates) = taken fates := by
  induction fates with
  | nil => rfl
  | cons a fates ih =>
      have hrest := ih fun b hb => h b (List.mem_cons_of_mem _ hb)
      by_cases hx : a.1.id = x
      · have hskip : fatesWithout x (a :: fates) = fatesWithout x fates :=
          List.filter_cons_of_neg (by simpa using hx)
        rw [hskip, hrest, taken_cons, h a List.mem_cons_self hx]
        exact (Nat.zero_add _).symm
      · have hkeep : fatesWithout x (a :: fates) = a :: fatesWithout x fates :=
          List.filter_cons_of_pos (by simpa using hx)
        rw [hkeep, taken_cons, taken_cons, hrest]

theorem survivors_without (x : UInt64) (fates : List (Order × Fate)) :
    survivors (fatesWithout x fates) = without x (survivors fates) := by
  induction fates with
  | nil => rfl
  | cons a fates ih =>
      have hafter : without x (a.2.after a.1).toList =
          if a.1.id = x then [] else (a.2.after a.1).toList := by
        cases hf : a.2.after a.1 with
        | none => simp [without]
        | some o =>
            rw [Fate.eq_of_after hf]
            by_cases hx : a.1.id = x <;> simp [without, hx]
      have hsplit : without x (survivors (a :: fates)) =
          without x (a.2.after a.1).toList ++ without x (survivors fates) := by
        rw [survivors_cons]
        exact List.filter_append _ _
      rw [hsplit, hafter, ← ih]
      by_cases hx : a.1.id = x
      · have hskip : fatesWithout x (a :: fates) = fatesWithout x fates :=
          List.filter_cons_of_neg (by simpa using hx)
        rw [hskip, if_pos hx, List.nil_append]
      · have hkeep : fatesWithout x (a :: fates) = a :: fatesWithout x fates :=
          List.filter_cons_of_pos (by simpa using hx)
        rw [hkeep, if_neg hx, survivors_cons]

/-! ## Markets without an order -/

namespace Market

variable {R : Rules} {M : Market} {day day' : Day} {maxQty : UInt64} {cmd : Command}

/-- Where the order `x` rests, it belongs to no account. -/
def Anonymous (x : UInt64) (M : Market) : Prop := M.All fun o => o.id = x → o.accountId = 0

theorem Anonymous.not_own (h : M.Anonymous x) (acct : UInt32) :
    ∀ o ∈ M.makers R m, o.id = x → ¬o.OwnOf acct := by
  intro o ho hx hown
  exact hown.1 (hown.2.symm.trans (All.makers h o ho hx))

theorem makers_cancel (M : Market) (m : SubmitMsg) (x : UInt64) :
    (M.cancel x).makers R m = without x (M.makers R m) := by
  unfold makers without
  rw [List.filter_flatMap]
  rfl

theorem outcome_cancel (hM : M.Anonymous x) (hunmet : Unmet x (M.outcome R m).fates) :
    (M.cancel x).outcome R m =
      { M.outcome R m with fates := fatesWithout x (M.outcome R m).fates } := by
  have hanon := hM.not_own (R := R) (m := m) m.accountId
  unfold outcome at hunmet ⊢
  dsimp only at hunmet ⊢
  rw [makers_cancel]
  by_cases hkill : m.t = .fok ∧
      taken (settle R.selfCross m.accountId (M.makers R m) m.qty).fates ≠ m.qty.toNat
  · -- the order did not help to fill the aggressor
    have hle := (settle_lawful R.selfCross m.accountId (M.makers R m) m.qty).complete
    have hshort := settle_short hanon UInt64.le_rfl
      (show taken (settle R.selfCross m.accountId (M.makers R m) m.qty).fates < _ by omega)
    rw [if_pos hkill, if_pos ⟨hkill.1, hshort.ne⟩, untouched_without]
  · rw [if_neg hkill] at hunmet ⊢
    have hsame := settle_without hanon hunmet
    rw [hsame, taken_without hunmet, if_neg hkill]

theorem matched_cancel (M : Market) (m : SubmitMsg) (x : UInt64) (fates : List (Order × Fate)) :
    (M.matched m fates).cancel x = (M.cancel x).matched m (fatesWithout x fates) := by
  funext s p
  unfold cancel matched
  rw [survivors_without]
  split_ifs
  · exact List.filter_comm _ _ _
  · rfl

theorem join_cancel (M : Market) (hx : m.id ≠ x) (r : Remainder) :
    (M.join m r).cancel x = (M.cancel x).join m r := by
  funext s p
  have hrecords : (r.records m).filter (·.id ≠ x) = r.records m := by
    cases r <;> simp [Remainder.records, hx]
  unfold cancel join
  rw [List.filter_append]
  split_ifs
  · rw [hrecords]
  · rfl

theorem size_cancel_le (M : Market) (x : UInt64) : (M.cancel x).size R ≤ M.size R :=
  Finset.sum_le_sum fun _ _ =>
    Nat.add_le_add (List.length_filter_le _ _) (List.length_filter_le _ _)

theorem remainder_cancel {left : UInt64}
    (hroom : ∀ ev ∈ (M.remainder R m left).news m, ev.kind ≠ .reject) :
    (M.cancel x).remainder R m left = M.remainder R m left := by
  have hsize := M.size_cancel_le (R := R) x
  unfold remainder at hroom ⊢
  by_cases hdone : left = 0 ∨ m.t ≠ .gtc
  · rw [if_pos hdone, if_pos hdone]
  rw [if_neg hdone] at hroom
  rw [if_neg hdone, if_neg hdone]
  by_cases hfull : R.capacity ≤ M.size R
  · rw [if_pos hfull] at hroom
    exact absurd rfl (hroom _ List.mem_cons_self)
  · rw [if_neg hfull, if_neg (by omega)]

/-- A submit that does not get to the order `x` does the same without it. -/
theorem submit_cancel (hM : M.Anonymous x) (hx : m.id ≠ x)
    (hnews : ∀ ev ∈ (M.submit R m).2, ev.names x = false ∧ ev.kind ≠ .reject) :
    (M.cancel x).submit R m = ((M.submit R m).1.cancel x, (M.submit R m).2) := by
  unfold submit at hnews ⊢
  dsimp only at hnews ⊢
  have hunmet : Unmet x (M.outcome R m).fates :=
    unmet_of_not_named (M.outcome_lawful R m) (hM.not_own m.accountId) fun ev hev =>
      (hnews ev (List.mem_append_left _ hev)).1
  have hroom := fun ev hev => (hnews ev (List.mem_append_right _ hev)).2
  rw [outcome_cancel hM hunmet]
  dsimp only
  rw [← matched_cancel, remainder_cancel hroom, join_cancel _ hx, deals_without hunmet]

theorem cancel_comm (M : Market) (id x : UInt64) :
    (M.cancel id).cancel x = (M.cancel x).cancel id := by
  funext s p
  exact List.filter_comm _ _ _

theorem find_cancel (M : Market) {id : UInt64} (hx : id ≠ x) :
    (M.cancel x).find R id = M.find R id := by
  have hlisting : (M.cancel x).listing R = (M.listing R).filter (·.id ≠ x) := by
    simp only [listing, List.filter_flatMap]
    rfl
  unfold find
  rw [hlisting, List.find?_filter]
  congr 1
  funext o
  by_cases ho : o.id = id
  · simp [ho, hx]
  · simp [ho]

theorem amend_cancel (M : Market) {id new : UInt64} {qty : UInt64} (hx : id ≠ x) (hnew : new ≠ x) :
    (M.cancel x).amend id (fun o => { o with id := new, remaining := qty }) =
      (M.amend id fun o => { o with id := new, remaining := qty }).cancel x := by
  funext s p
  unfold amend cancel
  rw [List.filter_map]
  congr 1
  refine List.filter_congr fun o _ => ?_
  by_cases ho : o.id = id
  · simp [ho, hx, hnew]
  · simp [ho]

/-- A command that is not about the order `x`, and does not get to it, does the same without it. -/
theorem step_cancel (hM : M.Anonymous x) (hcmd : cmd.names x = false)
    (hnews : ∀ ev ∈ (M.step R cmd).2, ev.names x = false ∧ ev.kind ≠ .reject) :
    (M.cancel x).step R cmd = ((M.step R cmd).1.cancel x, (M.step R cmd).2) := by
  cases cmd with
  | submit m => exact submit_cancel hM (by simpa [Command.names] using hcmd) hnews
  | cancel m => exact Prod.ext (M.cancel_comm x m.id) rfl
  | modify m =>
      obtain ⟨hid, hnew⟩ : m.id ≠ x ∧ m.effectiveId ≠ x := by simpa [Command.names] using hcmd
      change ∀ ev ∈ (M.modify R m).2, _ at hnews
      change (M.cancel x).modify R m = ((M.modify R m).1.cancel x, (M.modify R m).2)
      cases hfind : M.find R m.id with
      | none => rw [modify_none hfind, modify_none ((M.find_cancel hid).trans hfind)]
      | some o =>
          have hfind' := (M.find_cancel (R := R) hid).trans hfind
          by_cases hpx : m.newPx = o.px
          · rw [modify_amend hfind hpx, modify_amend hfind' hpx, amend_cancel M hid hnew]
          · rw [modify_move hfind hpx] at hnews ⊢
            rw [modify_move hfind' hpx, M.cancel_comm]
            exact submit_cancel (All.cancel hM m.id) hnew hnews

theorem Anonymous.step (hM : M.Anonymous x) (hcmd : cmd.names x = false) :
    (M.step R cmd).1.Anonymous x := by
  refine All.step (fun o r _ h => h) hM ?_ ?_
  · rintro m rfl r -
    exact fun hid => absurd hid (by simpa [Command.names] using hcmd)
  · rintro m o rfl -
    obtain ⟨-, hnew⟩ : m.id ≠ x ∧ m.effectiveId ≠ x := by simpa [Command.names] using hcmd
    exact ⟨fun hid => absurd hid hnew, fun hid => absurd hid hnew⟩

/-! ## The order itself -/

/-- The makers at one price, in their order. -/
theorem makers_filter (hM : M.Filed R) {p : ℕ} (hcross : m.s.crosses m.px p = true) :
    (M.makers R m).filter (·.px = p) = M m.s.opposite p := by
  have hqueue (q : ℕ) : (M m.s.opposite q).filter (·.px = p) =
      if q = p then M m.s.opposite p else [] := by
    split_ifs with hq
    · subst hq
      exact List.filter_eq_self.mpr fun o ho => by simpa using (hM _ q o ho).2.1
    · exact List.filter_eq_nil_iff.mpr fun o ho => by
        simpa using fun h => hq ((hM _ q o ho).2.1.symm.trans h)
  have hnodup := (m.s.opposite.nodup_priority R.ticks).filter (m.s.crosses m.px)
  rw [makers, List.filter_flatMap, funext hqueue, flatMap_single hnodup]
  split_ifs with hp
  · rfl
  · symm
    rw [List.eq_nil_iff_forall_not_mem]
    intro o ho
    exact hp (List.mem_filter.mpr ⟨m.s.opposite.mem_priority.mpr (hM _ p o ho).2.2, hcross⟩)

theorem matched_untouched (hM : M.Filed R) : M.matched m (untouched (M.makers R m)) = M := by
  funext s p
  unfold matched
  split_ifs with h
  · rw [survivors_untouched, makers_filter hM h.2, h.1]
  · rfl

theorem eq_untouched (h : ∀ a ∈ fates, a.2 = .kept) : fates = untouched (fates.map Prod.fst) := by
  induction fates with
  | nil => rfl
  | cons a fates ih =>
      rw [List.map_cons]
      change _ = (a.1, Fate.kept) :: untouched (fates.map Prod.fst)
      rw [← ih fun b hb => h b (List.mem_cons_of_mem _ hb), ← h a List.mem_cons_self]

/-- An order without an account that meets nobody adds itself to the market at most. -/
theorem submit_unmet (hM : M.Filed R) (habsent : M.Absent m.id) (hacct : m.accountId = 0)
    (hnews : ∀ ev ∈ (M.submit R m).2, ev.names m.id = false) :
    (M.submit R m).1.cancel m.id = M ∧ (M.submit R m).2 = [] ∧
      (M.submit R m).1.Anonymous m.id := by
  have hself : M.cancel m.id = M := by
    funext s p
    exact List.filter_eq_self.mpr fun o ho => by simpa using habsent s p o ho
  have hlaw := M.outcome_lawful R m
  unfold submit at hnews ⊢
  dsimp only at hnews ⊢
  have hkept : ∀ a ∈ (M.outcome R m).fates, a.2 = .kept := by
    rintro ⟨o, f⟩ ha
    have hown : ¬o.OwnOf m.accountId := fun h => h.1 hacct
    have hallowed := hlaw.allowed _ ha
    cases f with
    | kept => rfl
    | expired => exact absurd hallowed.2 hown
    | selfTraded qty => exact absurd hallowed.2 hown
    | filled qty =>
        -- the taker would have been named
        have hev := hnews (.fill ⟨o.id, m.id, o.px, qty, 0⟩)
          (List.mem_append_left _ (mem_deals.mpr ⟨_, ha, List.mem_cons_self⟩))
        simp [Event.names] at hev
  have hfates : (M.outcome R m).fates = untouched (M.makers R m) := by
    rw [eq_untouched hkept, makers_outcome]
  have hnone : deals m (untouched (M.makers R m)) = [] := by
    rw [deals, notices_untouched]
    rfl
  rw [hfates, matched_untouched hM, hnone] at hnews ⊢
  generalize M.remainder R m _ = r at hnews ⊢
  have hrecords : (r.records m).filter (·.id ≠ m.id) = [] := by
    cases r <;> simp [Remainder.records]
  refine ⟨?_, ?_, ?_⟩
  · funext s p
    change (M s p ++ if _ then _ else []).filter _ = _
    rw [List.filter_append, apply_ite (List.filter _), hrecords, List.filter_nil, ite_self,
      List.append_nil]
    exact congrFun (congrFun hself s) p
  · cases r with
    | gone => rfl
    | rests qty => rfl
    | rejected qty => simpa [Event.names] using hnews _ (List.mem_append_right _ List.mem_cons_self)
  · intro s p o ho hid
    rcases List.mem_append.mp ho with ho | ho
    · exact absurd hid (habsent s p o ho)
    · split_ifs at ho
      · cases r with
        | gone => simp [Remainder.records] at ho
        | rejected qty => simp [Remainder.records] at ho
        | rests qty =>
            obtain rfl := List.mem_singleton.mp ho
            exact hacct
      · simp at ho

/-! ## Runs -/

/-- The second day is the first one without the order `x`. -/
structure Hides (x : UInt64) (day day' : Day) : Prop where
  market : day.1.cancel x = day'.1
  told : Orderbooks.told day.2 = Orderbooks.told day'.2
  anonymous : day.1.Anonymous x

theorem Fresh.cancel (h : M.Fresh cmd) (x : UInt64) : (M.cancel x).Fresh cmd := by
  have habsent {id : UInt64} (h : M.Absent id) : (M.cancel x).Absent id :=
    fun s p o ho => h s p o (List.mem_of_mem_filter ho)
  cases cmd with
  | submit m => exact habsent h
  | cancel m => trivial
  | modify m => exact fun hren => habsent (h hren)

/-- What is published of a command, it is published with or without the tops. -/
theorem mem_apply_of_mem_step {ev : Event} (h : ev ∈ (M.step R cmd).2) : ev ∈ (M.apply R cmd).2 :=
  List.mem_append_left _ h

theorem Hides.next (h : Hides x day day') (hcmd : cmd.names x = false)
    (hnews : ∀ ev ∈ (day.1.apply R cmd).2, ev.names x = false ∧ ev.kind ≠ .reject) :
    Hides x (day.next R cmd) (day'.next R cmd) := by
  have hstep := step_cancel h.anonymous hcmd fun ev hev => hnews ev (mem_apply_of_mem_step hev)
  rw [h.market] at hstep
  refine ⟨?_, ?_, h.anonymous.step hcmd⟩
  · change (day.1.step R cmd).1.cancel x = (day'.1.step R cmd).1
    rw [hstep]
  · simp only [Day.next, told_append, told_apply, h.told, hstep]

/-- What holds of the tape of a run holds of the news of each of its commands. -/
theorem along_of_tape {good : Event → Prop} {cmds : List Command}
    (h : ∀ ev ∈ (cmds.foldl (Day.next R) day).2.drop day.2.length, good ev) :
    Along (Day.next R) (fun day cmd => ∀ ev ∈ (day.1.apply R cmd).2, good ev) day cmds := by
  induction cmds generalizing day with
  | nil => trivial
  | cons cmd cmds ih =>
      obtain ⟨evs, hevs⟩ := foldl_news R (day.next R cmd) cmds
      have hnext : (day.next R cmd).2 = day.2 ++ (day.1.apply R cmd).2 := rfl
      rw [List.foldl_cons, hevs, hnext, List.append_assoc, List.drop_left] at h
      refine ⟨fun ev hev => h ev (List.mem_append_left _ hev), ih ?_⟩
      rw [hevs, List.drop_left]
      exact fun ev hev => h ev (List.mem_append_right _ hev)

theorem Alike.permits (h : Alike day day') (hok : day.Permits R maxQty cmd) :
    day'.Permits R maxQty cmd :=
  ⟨hok.1, h.market ▸ hok.2⟩

/-- A day with an order that is withdrawn untouched is, the tops apart, the day without it. -/
theorem withdrawn {before during after : List Command} {handle : OrderHandle}
    (hok : Permitted R maxQty
      (before ++ .submit m :: (during ++ .cancel ⟨m.id, handle⟩ :: after)))
    (hfiled : (play R before).1.Filed R) (hacct : m.accountId = 0)
    (hduring : ∀ cmd ∈ during, cmd.names m.id = false)
    (hnews : ∀ ev ∈ (play R (before ++ .submit m :: during)).2.drop (play R before).2.length,
      ev.names m.id = false ∧ ev.kind ≠ .reject) :
    Permitted R maxQty (before ++ (during ++ after)) ∧
      Alike (play R (before ++ .submit m :: (during ++ .cancel ⟨m.id, handle⟩ :: after)))
        (play R (before ++ (during ++ after))) := by
  obtain ⟨hbefore, hsubmit, hrest⟩ := along_append.mp hok
  obtain ⟨hmid, -, hafter⟩ := along_append.mp hrest
  simp only [play, List.foldl_append] at hnews
  obtain ⟨hown, hquiet⟩ := along_of_tape hnews
  simp only [Permitted, play, List.foldl_append, List.foldl_cons, along_append] at hfiled ⊢
  generalize before.foldl (Day.next R) (fun _ _ => [], []) = day at *
  -- the order comes
  obtain ⟨hmarket, hnone, hanon⟩ := submit_unmet hfiled hsubmit.2 hacct
    fun ev hev => (hown ev (mem_apply_of_mem_step hev)).1
  have hhides : Hides m.id (day.next R (.submit m)) day := by
    refine ⟨hmarket, ?_, hanon⟩
    rw [Day.next, told_append, told_apply]
    change Orderbooks.told day.2 ++ Orderbooks.told (day.1.submit R m).2 = _
    rw [hnone]
    exact List.append_nil _
  -- it waits
  have hwait := (hmid.and hquiet).and (along_of_forall hduring)
  have hpermitted : Along (Day.next R) (Day.Permits R maxQty) day during := by
    refine hwait.transport (Hides m.id) ?_ hhides
    rintro day day' cmd h ⟨⟨hcmd, hnews⟩, hother⟩
    exact ⟨h.next hother hnews, hcmd.1, h.market ▸ hcmd.2.cancel m.id⟩
  have hwaited : Hides m.id (during.foldl (Day.next R) (day.next R (.submit m)))
      (during.foldl (Day.next R) day) := by
    refine hwait.lockstep (Hides m.id) ?_ hhides
    rintro day day' cmd h ⟨⟨hcmd, hnews⟩, hother⟩
    exact h.next hother hnews
  generalize during.foldl (Day.next R) (day.next R (.submit m)) = late at *
  -- it goes
  have halike : Alike (late.next R (.cancel ⟨m.id, handle⟩)) (during.foldl (Day.next R) day) := by
    refine ⟨hwaited.market, ?_⟩
    rw [Day.next, told_append, told_apply, ← hwaited.told]
    exact List.append_nil _
  refine ⟨⟨hbefore, hpermitted, ?_⟩, ?_⟩
  · refine hafter.transport Alike ?_ halike
    exact fun day day' cmd h hcmd => ⟨h.next cmd, h.permits hcmd⟩
  · refine hafter.lockstep Alike ?_ halike
    exact fun day day' cmd h _ => h.next cmd

end Market

namespace Engine

variable {ticks maxOrders : ℕ}

/-- Sending an order and withdrawing it before anybody has met it has no effect on anybody's
trades. If between the two no event names it and no order is rejected, the history without it
leaves the same orders in the same priority and publishes the same fills, trades, self-trades and
rejects in the same order, although fill-or-kill orders have counted it and tops have shown it. -/
theorem withdrawn_order_leaves_no_trace (cfg : EngineConfig) (mem mem' : Memory)
    (hc : 0 < maxOrders) (ht : ticks ≤ 64 ^ 4)
    (hcap : maxOrders * cfg.maxOrderQty.toNat < 2 ^ 64) (before during after : List Command)
    (m : SubmitMsg) (handle : OrderHandle)
    (hdom : ∀ cmd ∈ before ++ .submit m :: (during ++ .cancel ⟨m.id, handle⟩ :: after),
      cmd.InDomain ticks cfg.maxOrderQty)
    (hfresh : Along apply Fresh (new [] cfg mem : Engine (List Event) ticks maxOrders .byId)
      (before ++ .submit m :: (during ++ .cancel ⟨m.id, handle⟩ :: after)))
    (hacct : m.accountId = 0) (hduring : ∀ cmd ∈ during, cmd.names m.id = false)
    (hnews : ∀ ev ∈ (play [] cfg mem (before ++ .submit m :: during) :
        Engine (List Event) ticks maxOrders .byId).pub.drop
          (play [] cfg mem before : Engine (List Event) ticks maxOrders .byId).pub.length,
      ev.names m.id = false ∧ ev.kind ≠ .reject) :
    let e : Engine (List Event) ticks maxOrders .byId :=
      play [] cfg mem (before ++ .submit m :: (during ++ .cancel ⟨m.id, handle⟩ :: after))
    let e' : Engine (List Event) ticks maxOrders .byId :=
      play [] cfg mem' (before ++ (during ++ after))
    e.recordsAt = e'.recordsAt ∧ told e.pub = told e'.pub := by
  intro e e'
  have hok := permitted cfg mem hc ht hcap hdom hfresh
  have hbefore := (along_append.mp hok).1
  have hsplit : before ++ .submit m :: (during ++ .cancel ⟨m.id, handle⟩ :: after) =
      (before ++ .submit m :: during) ++ .cancel ⟨m.id, handle⟩ :: after := by simp
  have hpart : Market.Permitted (rulesOf cfg ticks maxOrders) cfg.maxOrderQty
      (before ++ .submit m :: during) := by
    rw [Market.Permitted, hsplit] at hok
    exact (along_append.mp hok).1
  have hshowsBefore := play_shows cfg mem hc ht hcap hbefore
  have hshowsPart := play_shows cfg mem hc ht hcap hpart
  obtain ⟨hok', halike⟩ := Market.withdrawn hok hshowsBefore.sane.filed hacct hduring (by
    rw [← hshowsPart.published, ← hshowsBefore.published, List.length_map, ← List.map_drop]
    intro ev hev
    obtain ⟨ev, hmem, rfl⟩ := List.mem_map.mp hev
    rw [Event.names_unstamped, Event.kind_unstamped]
    exact hnews ev hmem)
  have hshows := play_shows cfg mem hc ht hcap hok
  have hshows' := play_shows cfg mem' hc ht hcap hok'
  refine ⟨?_, ?_⟩
  · rw [hshows.records, hshows'.records, halike.market]
  · rw [← told_unstamped e.pub, ← told_unstamped e'.pub, hshows.published, hshows'.published,
      halike.told]

/-- A fill-or-kill order is killed, and another bid trades, behind an ask that is withdrawn. -/
theorem withdrawn_order_leaves_no_trace_behind :
    let before : List Command := [.submit ⟨1, 1, 5, .ask, .gtc, 0⟩]
    let during : List Command :=
      [.submit ⟨3, 2, 9, .bid, .fok, 0⟩, .submit ⟨4, 2, 2, .bid, .ioc, 0⟩]
    let e : Engine (List Event) 4 4 .byId := play [] {} .zeroed
      (before ++ .submit ⟨2, 2, 3, .ask, .gtc, 0⟩ :: (during ++ [.cancel ⟨2, {}⟩]))
    let e' : Engine (List Event) 4 4 .byId := play [] {} .zeroed (before ++ (during ++ []))
    told e.pub = [.fill ⟨1, 4, 1, 2, 0⟩, .trade ⟨1, 2, 0⟩] ∧ e.recordsAt = e'.recordsAt ∧
      told e.pub = told e'.pub := by
  intro before during e e'
  have h := withdrawn_order_leaves_no_trace {} .zeroed .zeroed (by decide) (by decide) (by decide)
    before during [] ⟨2, 2, 3, .ask, .gtc, 0⟩ {} (by decide)
    (by decide +kernel : Along apply Fresh (new [] {} .zeroed : Engine (List Event) 4 4 .byId) _)
    rfl (by decide) (by decide +kernel)
  exact ⟨by decide +kernel, h⟩

end Engine
end Orderbooks
