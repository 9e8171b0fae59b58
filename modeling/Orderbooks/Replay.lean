import Orderbooks.Dashboard

/-!
# The replay tool and its dashboard

`apps/replay/main.cpp` drives an engine with the commands a random generator picks and records
everything it publishes. The dashboard reads the recording back and shows the top of the book at
a moment of the run. From end to end, what it shows is the top the engine had at that moment.

The generator and its distributions are an argument: a value drawn between two bounds is between
them, and nothing else is assumed of it. The ids the tool submits count up, and it cancels and
modifies ids it has submitted, so it never reuses an id that may still rest. Nothing it
has the engine publish is too large for the reader's columns.
-/
namespace Orderbooks

/-! ## What a day's news is about -/

namespace Market
open Runs
variable {R : Rules} {M : Market} {m : SubmitMsg} {P : Order → Prop} {Q : Event → Prop}
  {maxQty : UInt64} {cmds : List Command}

/-- What a submission says is about makers, or about itself. -/
theorem All.submit_news (h : M.All P)
    (hdeal : ∀ (o : Order) (f : Fate), P o → f.taken ≤ o.remaining → ∀ ev ∈ f.deal m o, Q ev)
    (hreject : ∀ qty ≤ m.qty, Q (.reject ⟨m.id, m.accountId, m.px, qty, .arenaFull, 0⟩)) :
    ∀ ev ∈ (M.submit R m).2, Q ev := by
  intro ev hev
  rcases List.mem_append.mp hev with hev | hev
  · obtain ⟨⟨o, f⟩, ha, hev⟩ := mem_deals.mp hev
    have ho := h.makers o (mem_makers_of_fate ha)
    exact hdeal o f ho ((M.outcome_lawful R m).bounded _ ha) ev hev
  · unfold remainder at hev
    split_ifs at hev
    · exact absurd hev List.not_mem_nil
    · obtain rfl := List.mem_singleton.mp hev
      exact hreject _ (M.left_le R m)
    · exact absurd hev List.not_mem_nil

/-- What a command says is about orders that rest, or about one it brings. -/
theorem All.step_news (h : M.All P) {cmd : Command}
    (hdeal : ∀ (m : SubmitMsg) (o : Order) (f : Fate),
      P ⟨m.id, m.qty, m.px, m.s, m.t, m.accountId⟩ → P o → f.taken ≤ o.remaining →
      ∀ ev ∈ f.deal m o, Q ev)
    (hreject : ∀ m : SubmitMsg, P ⟨m.id, m.qty, m.px, m.s, m.t, m.accountId⟩ →
      ∀ qty ≤ m.qty, Q (.reject ⟨m.id, m.accountId, m.px, qty, .arenaFull, 0⟩))
    (hsubmit : ∀ m, cmd = .submit m → P ⟨m.id, m.qty, m.px, m.s, m.t, m.accountId⟩)
    (hmodify : ∀ m o, cmd = .modify m → P o →
      P ⟨m.effectiveId, m.newQty, m.newPx, o.s, o.t, o.accountId⟩) :
    ∀ ev ∈ (M.step R cmd).2, Q ev := by
  cases cmd with
  | submit m =>
      have hnew := hsubmit m rfl
      exact h.submit_news (fun o f => hdeal m o f hnew) (hreject m hnew)
  | cancel m => exact fun ev hev => absurd hev List.not_mem_nil
  | modify m =>
      change ∀ ev ∈ (M.modify R m).2, Q ev
      cases hfind : M.find R m.id with
      | none =>
          rw [modify_none hfind]
          exact fun ev hev => absurd hev List.not_mem_nil
      | some o =>
          by_cases hpx : m.newPx = o.px
          · rw [modify_amend hfind hpx]
            exact fun ev hev => absurd hev List.not_mem_nil
          · have hnew := hmodify m o rfl (h.find hfind)
            rw [modify_move hfind hpx]
            exact (h.cancel m.id).submit_news (fun o' f => hdeal _ o' f hnew) (hreject _ hnew)

/-- The open quantity at a price, from a bound on every order there. -/
theorem aggregate_le {s : Side} {p c : ℕ} (h : ∀ o ∈ M s p, o.remaining.toNat ≤ c) :
    (M.aggregate s p).toNat ≤ c * (M s p).length := by
  unfold aggregate
  generalize M s p = l at h
  induction l with
  | nil => exact Nat.zero_le _
  | cons o l ih =>
      have ho := h o List.mem_cons_self
      have hl := ih fun o ho => h o (List.mem_cons_of_mem _ ho)
      have hsum : (o.remaining + (l.map Order.remaining).sum).toNat ≤
          o.remaining.toNat + ((l.map Order.remaining).sum).toNat := by
        rw [UInt64.toNat_add]
        exact Nat.mod_le _ _
      rw [List.map_cons, List.sum_cons, List.length_cons, Nat.mul_succ]
      omega

/-- How much a permitted run can leave at one price, and how much it can say. -/
theorem Permitted.size_le (hok : Permitted R maxQty cmds) (hc : 0 < R.capacity)
    (ht : R.ticks ≤ 64 ^ 4) (hcap : R.capacity * maxQty.toNat < 2 ^ 64) :
    (∀ s p, ((play R cmds).1 s p).length ≤ 2 * cmds.length) ∧
      (play R cmds).2.length ≤ 3 * cmds.length := by
  have hplay : (play R cmds).1.worth R (fun _ => 2) + ((play R cmds).2.map fun _ => 1).sum ≤
      (cmds.map (Account.published R).credit).sum + cmds.length * 1 :=
    (Account.published R).play hok hc ht hcap
  have hcredit : (cmds.map (Account.published R).credit).sum =
      2 * cmds.countP Command.isSubmit := Account.counting_credit cmds
  have hsubmits : cmds.countP Command.isSubmit ≤ cmds.length := List.countP_le_length
  have hnews : ((play R cmds).2.map fun _ => 1).sum = (play R cmds).2.length := by simp
  refine ⟨fun s p => ?_, by omega⟩
  by_cases hp : p < R.ticks
  · have hqueue : ((play R cmds).1 s p).length * 2 ≤
        (play R cmds).1.sideWorth R (fun _ => 2) s := by
      have hsum : (((play R cmds).1 s p).map fun _ => 2).sum ≤ _ :=
        Finset.single_le_sum (f := fun p => (((play R cmds).1 s p).map fun _ => 2).sum)
          (fun _ _ => Nat.zero_le _) (Finset.mem_range.mpr hp)
      simpa [sideWorth] using hsum
    have hside := (play R cmds).1.worth_eq (R := R) (w := fun _ => 2) s
    omega
  · have hnil : (play R cmds).1 s p = [] :=
      List.eq_nil_iff_forall_not_mem.mpr fun o ho =>
        hp ((hok.sane hc ht hcap).filed s p o ho).2.2
    simp [hnil]

end Market

namespace Replay
open JsonLog Runs

/-! ## The tool -/

abbrev defaultTicks : ℕ := 256

abbrev defaultMaxOrders : ℕ := 1024

structure Args where
  seed : UInt64 := 0xC0FFEE
  commands : ℕ := 10000
  accounts : UInt32 := 4
  selfCross : ℤ := 0
  deriving DecidableEq, Repr

/-- What `parse_args` says of values it does not let through. -/
def Args.complaint (a : Args) : Option String :=
  if a.selfCross < 0 ∨ a.selfCross > 2 then some "--self-cross must be 0, 1, or 2"
  else if a.accounts = 0 then some "--accounts must be at least 1"
  else none

/-- `static_cast<lob::self_cross_policy>(a.self_cross)`, for a value that was let through. -/
def Args.policy (a : Args) : SelfCrossPolicy :=
  if a.selfCross = 0 then .cancelNewest
  else if a.selfCross = 1 then .cancelOldest
  else .decrementTrade

variable {G : Type}

/-- `std::uniform_int_distribution` with its bounds: a value, and the generator after it. What
distributions may keep between two draws is part of `G`. -/
abbrev Uniform (G : Type) := ℕ → ℕ → G → ℕ × G

structure Uniform.Bounded (uniform : Uniform G) : Prop where
  bounds : ∀ lo hi rng, lo ≤ hi → lo ≤ (uniform lo hi rng).1 ∧ (uniform lo hi rng).1 ≤ hi

/-- What the loop keeps beside the engine. -/
structure Driver (G : Type) where
  rng : G
  live : List UInt64 := []
  nextId : UInt64 := 1

def sideOf (n : ℕ) : Side := if n = 0 then .bid else .ask

/-- `static_cast<lob::tif>`. -/
def tifOf : ℕ → Tif
  | 0 => .gtc
  | 1 => .ioc
  | _ => .fok

/-- The command a turn of the loop issues. -/
def Driver.next (uniform : Uniform G) (accounts : UInt32) (d : Driver G) : Command × Driver G :=
  let roll := uniform 0 9 d.rng
  if d.live ≠ [] ∧ roll.1 < 2 then
    let k := uniform 0 (d.live.length - 1) roll.2
    (.cancel { id := d.live.getD k.1 0 },
      -- the last id takes the place of the cancelled one
      { d with rng := k.2, live := (d.live.set k.1 (d.live.getLastD 0)).dropLast })
  else if d.live ≠ [] ∧ roll.1 < 3 then
    let k := uniform 0 (d.live.length - 1) roll.2
    let px := uniform 0 (defaultTicks - 1) k.2
    let qty := uniform 1 50 px.2
    (.modify { id := d.live.getD k.1 0, newPx := px.1, newQty := .ofNat qty.1 },
      { d with rng := qty.2 })
  else
    let px := uniform 0 (defaultTicks - 1) roll.2
    let qty := uniform 1 50 px.2
    let side := uniform 0 1 qty.2
    let tif := uniform 0 2 side.2
    let acct := uniform 1 accounts.toNat tif.2
    (.submit ⟨d.nextId, px.1, .ofNat qty.1, sideOf side.1, tifOf tif.1, .ofNat acct.1⟩,
      ⟨acct.2, d.live ++ [d.nextId], d.nextId + 1⟩)

/-- The engine and the driver between two turns. -/
structure Tool (G : Type) where
  eng : Engine JsonRecorder defaultTicks defaultMaxOrders .byId
  driver : Driver G

def Tool.turn (uniform : Uniform G) (accounts : UInt32) (t : Tool G) : Tool G :=
  ⟨t.eng.apply (t.driver.next uniform accounts).1, (t.driver.next uniform accounts).2⟩

def Args.config (a : Args) : EngineConfig := { selfCross := a.policy }

def Args.driver (a : Args) (seeded : UInt64 → G) : Driver G := { rng := seeded a.seed }

/-- The tool after `k` commands. -/
def Tool.after (uniform : Uniform G) (seeded : UInt64 → G) (mem : Memory) (a : Args) (k : ℕ) :
    Tool G :=
  (Tool.turn uniform a.accounts)^[k] ⟨.new {} a.config mem, a.driver seeded⟩

/-- The output of the tool, or what it complains of. -/
def main (uniform : Uniform G) (seeded : UInt64 → G) (mem : Memory) (a : Args) :
    Except String (List UInt8) :=
  match a.complaint with
  | some complaint => .error complaint
  | none => .ok (Tool.after uniform seeded mem a a.commands).eng.pub.out

/-! ## The commands it issues -/

section Script
variable (uniform : Uniform G) (accounts : UInt32) (d : Driver G)

def Driver.after (k : ℕ) : Driver G := (fun d => (d.next uniform accounts).2)^[k] d

/-- The first `n` commands. -/
def Driver.script (n : ℕ) : List Command :=
  (List.range n).map fun k => ((d.after uniform accounts k).next uniform accounts).1

theorem Driver.after_succ (k : ℕ) :
    d.after uniform accounts (k + 1) = ((d.after uniform accounts k).next uniform accounts).2 :=
  Function.iterate_succ_apply' _ _ _

@[simp] theorem Driver.length_script (n : ℕ) : (d.script uniform accounts n).length = n := by
  simp [script]

theorem Driver.script_succ (n : ℕ) : d.script uniform accounts (n + 1) =
    d.script uniform accounts n ++ [((d.after uniform accounts n).next uniform accounts).1] := by
  rw [script, List.range_succ, List.map_append]
  rfl

/-- The script goes on from where the driver is. -/
theorem Driver.script_append (k j : ℕ) : d.script uniform accounts (k + j) =
    d.script uniform accounts k ++ (d.after uniform accounts k).script uniform accounts j := by
  induction j with
  | zero => simp [script]
  | succ j ih =>
      have hafter : (d.after uniform accounts k).after uniform accounts j =
          d.after uniform accounts (k + j) := by
        unfold after
        rw [Nat.add_comm, Function.iterate_add_apply]
      rw [← Nat.add_assoc, script_succ, script_succ, ih, hafter, List.append_assoc]

theorem Driver.script_cons (n : ℕ) : d.script uniform accounts (n + 1) =
    (d.next uniform accounts).1 :: (d.next uniform accounts).2.script uniform accounts n := by
  rw [Nat.add_comm, script_append]
  rfl

/-- The engine runs the script. -/
theorem Tool.iterate_turn (t : Tool G) (k : ℕ) :
    (Tool.turn uniform accounts)^[k] t =
      ⟨(t.driver.script uniform accounts k).foldl Engine.apply t.eng,
        t.driver.after uniform accounts k⟩ := by
  induction k with
  | zero => rfl
  | succ k ih =>
      rw [Function.iterate_succ_apply', ih, Driver.script_succ, Driver.after_succ,
        List.foldl_append]
      rfl

end Script

/-- The commands a turn may issue, and what is left of the driver. -/
inductive Driver.Offers (d : Driver G) : Command → Driver G → Prop
  | cancel {id : UInt64} {d' : Driver G} : id ∈ d.live → (∀ x ∈ d'.live, x ∈ d.live) →
      d'.nextId = d.nextId → Offers d (.cancel { id := id }) d'
  | modify {id qty : UInt64} {px : ℕ} {rng : G} : id ∈ d.live → px < defaultTicks → 0 < qty →
      qty ≤ 50 → Offers d (.modify { id := id, newPx := px, newQty := qty }) { d with rng := rng }
  | submit {px : ℕ} {qty : UInt64} {s : Side} {t : Tif} {acct : UInt32} {rng : G} :
      px < defaultTicks → 0 < qty → qty ≤ 50 → Offers d (.submit ⟨d.nextId, px, qty, s, t, acct⟩)
        ⟨rng, d.live ++ [d.nextId], d.nextId + 1⟩

section Bounds
variable {uniform : Uniform G} (h : uniform.Bounded) {d : Driver G}
include h

theorem Uniform.Bounded.tick (rng : G) : (uniform 0 (defaultTicks - 1) rng).1 < defaultTicks := by
  have := (h.bounds 0 (defaultTicks - 1) rng (by decide)).2
  simp only [defaultTicks] at *
  omega

theorem Uniform.Bounded.qty (rng : G) : 0 < UInt64.ofNat (uniform 1 50 rng).1 ∧
    UInt64.ofNat (uniform 1 50 rng).1 ≤ 50 := by
  have hb := h.bounds 1 50 rng (by decide)
  have hval : (UInt64.ofNat (uniform 1 50 rng).1).toNat = (uniform 1 50 rng).1 :=
    UInt64.toNat_ofNat_of_lt' (by rw [UInt64.size]; omega)
  rw [UInt64.lt_iff_toNat_lt, UInt64.le_iff_toNat_le, hval]
  exact ⟨hb.1, hb.2⟩

/-- An id that is picked has been submitted. -/
theorem Uniform.Bounded.pick (rng : G) (hlive : d.live ≠ []) :
    d.live.getD (uniform 0 (d.live.length - 1) rng).1 0 ∈ d.live := by
  have hpos := List.length_pos_iff.mpr hlive
  have hb := (h.bounds 0 (d.live.length - 1) rng (Nat.zero_le _)).2
  have hlt : (uniform 0 (d.live.length - 1) rng).1 < d.live.length := by omega
  rw [List.getD_eq_getElem _ _ hlt]
  exact List.getElem_mem hlt

theorem Driver.next_offers (accounts : UInt32) :
    d.Offers (d.next uniform accounts).1 (d.next uniform accounts).2 := by
  unfold Driver.next
  dsimp only
  split_ifs with hcancel hmodify
  · refine .cancel (h.pick _ hcancel.1) (fun x hx => ?_) rfl
    rcases List.mem_or_eq_of_mem_set (List.mem_of_mem_dropLast hx) with hx | rfl
    · exact hx
    · rw [List.getLastD_eq_getLast?, List.getLast?_eq_getLast_of_ne_nil hcancel.1]
      exact List.getLast_mem hcancel.1
  · exact .modify (h.pick _ hmodify.1) (h.tick _) (h.qty _).1 (h.qty _).2
  · exact .submit (h.tick _) (h.qty _).1 (h.qty _).2

end Bounds

/-! ## What it records -/

/-- An order of the tool, before the id `next` is taken. -/
structure Listed (next : UInt64) (o : Order) : Prop where
  id : o.id < next
  px : o.px < defaultTicks
  qty : o.remaining ≤ 50

theorem toNat_succ {next : UInt64} (hnext : next.toNat < 2 ^ 62) :
    (next + 1).toNat = next.toNat + 1 := by
  have hone : (1 : UInt64).toNat = 1 := rfl
  rw [UInt64.toNat_add, hone]
  omega

theorem lt_succ {next : UInt64} (hnext : next.toNat < 2 ^ 62) : next < next + 1 := by
  rw [UInt64.lt_iff_toNat_lt, toNat_succ hnext]
  exact Nat.lt_succ_self _

theorem Listed.mono {next next' : UInt64} {o : Order} (h : Listed next o) (hle : next ≤ next') :
    Listed next' o :=
  ⟨UInt64.lt_of_lt_of_le h.id hle, h.px, h.qty⟩

theorem Listed.less {next : UInt64} (o : Order) (r : UInt64) (hr : r ≤ o.remaining)
    (h : Listed next o) : Listed next { o with remaining := r } :=
  ⟨h.id, h.px, UInt64.le_trans hr h.qty⟩

/-- The reader's columns take the event, whatever its stamp. -/
def Readable (ev : Event) : Prop := ∀ f ∈ fields ev, f.value < 2 ^ 63

section Readable
variable {next : UInt64} (hnext : next.toNat ≤ 2 ^ 62)
include hnext

theorem Listed.id_lt {o : Order} (h : Listed next o) : o.id.toNat < 2 ^ 63 := by
  have := UInt64.lt_iff_toNat_lt.mp h.id
  omega

omit hnext in
theorem Listed.px_lt {o : Order} (h : Listed next o) : o.px < 2 ^ 63 :=
  h.px.trans (by decide)

omit hnext in
theorem Listed.qty_lt {o : Order} (h : Listed next o) {qty : UInt64} (hle : qty ≤ o.remaining) :
    qty.toNat < 2 ^ 63 := by
  have hqty : qty.toNat ≤ (50 : UInt64).toNat :=
    UInt64.le_iff_toNat_le.mp (UInt64.le_trans hle h.qty)
  have : (50 : UInt64).toNat = 50 := rfl
  omega

theorem readable_deal (m : SubmitMsg) (o : Order) (f : Fate)
    (hm : Listed next ⟨m.id, m.qty, m.px, m.s, m.t, m.accountId⟩) (ho : Listed next o)
    (hle : f.taken ≤ o.remaining) : ∀ ev ∈ f.deal m o, Readable ev := by
  have hid : o.id.toNat < 2 ^ 63 := ho.id_lt hnext
  have hm' : m.id.toNat < 2 ^ 63 := hm.id_lt hnext
  have hacct : m.accountId.toNat < 2 ^ 63 := (UInt32.toNat_lt m.accountId).trans (by decide)
  have hqty := ho.qty_lt hle
  cases f with
  | kept => exact fun ev hev => absurd hev List.not_mem_nil
  | expired => exact fun ev hev => absurd hev List.not_mem_nil
  | filled qty =>
      simp only [Fate.deal, List.forall_mem_cons, Readable, fields, List.not_mem_nil,
        false_implies, implies_true, and_true]
      exact ⟨⟨hid, hm', ho.px_lt, hqty⟩, ho.px_lt, hqty⟩
  | selfTraded qty =>
      simp only [Fate.deal, List.forall_mem_cons, Readable, fields, List.not_mem_nil,
        false_implies, implies_true, and_true]
      exact ⟨hm', hid, hacct, ho.px_lt, hqty⟩

theorem readable_reject (m : SubmitMsg)
    (hm : Listed next ⟨m.id, m.qty, m.px, m.s, m.t, m.accountId⟩) (qty : UInt64)
    (hle : qty ≤ m.qty) : Readable (.reject ⟨m.id, m.accountId, m.px, qty, .arenaFull, 0⟩) := by
  have hacct : m.accountId.toNat < 2 ^ 63 := (UInt32.toNat_lt m.accountId).trans (by decide)
  have hid : m.id.toNat < 2 ^ 63 := hm.id_lt hnext
  simp only [List.forall_mem_cons, Readable, fields, List.not_mem_nil, false_implies,
    implies_true, and_true]
  exact ⟨hid, hacct, hm.px_lt, hm.qty_lt hle, by decide⟩

end Readable

/-- The quantities of a top are those of orders that rest. -/
theorem readable_top {R : Rules} {M : Market} {next : UInt64} (hR : R.ticks = defaultTicks)
    (h : M.All (Listed next)) (hlen : ∀ s p, (M s p).length ≤ 2 ^ 57) :
    Readable (M.top R).news := by
  have hpx (s : Side) : (M.best R s).getD 0 < 2 ^ 63 := by
    cases hbest : M.best R s with
    | none => decide
    | some p =>
        have hp : p < R.ticks := s.mem_priority.mp (List.mem_of_find?_eq_some hbest)
        rw [hR] at hp
        exact hp.trans (by decide)
  have hqty (s : Side) : ((M.best R s).elim 0 (M.aggregate s)).toNat < 2 ^ 63 := by
    cases M.best R s with
    | none => exact (by decide : (0 : UInt64).toNat < 2 ^ 63)
    | some p =>
        have hle := M.aggregate_le (s := s) (p := p) (c := 50) fun o ho =>
          UInt64.le_iff_toNat_le.mp (h s p o ho).qty
        have := hlen s p
        change (M.aggregate s p).toNat < 2 ^ 63
        omega
  simp only [Top.news, Market.top, Top.of, List.forall_mem_cons, Readable, fields,
    List.not_mem_nil, false_implies, implies_true, and_true]
  exact ⟨hpx .bid, hpx .ask, hqty .bid, hqty .ask⟩

namespace Driver.Offers
variable {d d' : Driver G} {cmd : Command} (h : d.Offers cmd d')
include h

/-- A turn takes at most one id. -/
theorem nextId_le (hnext : d.nextId.toNat < 2 ^ 62) :
    d.nextId ≤ d'.nextId ∧ d'.nextId.toNat ≤ d.nextId.toNat + 1 := by
  cases h with
  | cancel _ _ hsame =>
      rw [hsame]
      exact ⟨UInt64.le_refl _, Nat.le_succ _⟩
  | modify => exact ⟨UInt64.le_refl _, Nat.le_succ _⟩
  | submit => exact ⟨UInt64.le_of_lt (lt_succ hnext), (toNat_succ hnext).le⟩

theorem live_lt (hnext : d.nextId.toNat < 2 ^ 62) (hpos : 0 < d.nextId)
    (hlive : ∀ id ∈ d.live, 0 < id ∧ id < d.nextId) :
    ∀ id ∈ d'.live, 0 < id ∧ id < d'.nextId := by
  intro id hid
  cases h with
  | cancel _ hsub hsame =>
      rw [hsame]
      exact hlive id (hsub id hid)
  | modify => exact hlive id hid
  | submit =>
      rcases List.mem_append.mp hid with hid | hid
      · exact ⟨(hlive id hid).1, UInt64.lt_trans (hlive id hid).2 (lt_succ hnext)⟩
      · obtain rfl := List.mem_singleton.mp hid
        exact ⟨hpos, lt_succ hnext⟩

theorem submit_listed (hnext : d.nextId.toNat < 2 ^ 62) :
    ∀ m, cmd = .submit m →
      Listed d'.nextId ⟨m.id, m.qty, m.px, m.s, m.t, m.accountId⟩ := by
  rintro m rfl
  cases h with
  | submit hpx _ hqty => exact ⟨lt_succ hnext, hpx, hqty⟩

theorem modify_listed (hlive : ∀ id ∈ d.live, 0 < id ∧ id < d.nextId) :
    ∀ m o, cmd = .modify m → Listed d'.nextId o →
      Listed d'.nextId { o with id := m.effectiveId, remaining := m.newQty } ∧
        Listed d'.nextId ⟨m.effectiveId, m.newQty, m.newPx, o.s, o.t, o.accountId⟩ := by
  rintro m o rfl ho
  cases h with
  | modify hid hpx _ hqty =>
      exact ⟨⟨(hlive _ hid).2, ho.px, hqty⟩, ⟨(hlive _ hid).2, hpx, hqty⟩⟩

end Driver.Offers

/-- A day that the driver has brought about. -/
structure Follows (day : Market.Day) (d : Driver G) : Prop where
  next : 0 < d.nextId
  live : ∀ id ∈ d.live, 0 < id ∧ id < d.nextId
  orders : day.1.All (Listed d.nextId)
  news : ∀ ev ∈ day.2, Readable ev

theorem Follows.start (rng : G) : Follows (fun _ _ => [], []) ({ rng := rng } : Driver G) where
  next := (by decide : (0 : UInt64) < 1)
  live id hid := absurd hid List.not_mem_nil
  orders s p o ho := absurd ho List.not_mem_nil
  news ev hev := absurd hev List.not_mem_nil

namespace Follows
variable {R : Rules} {maxQty : UInt64} {day : Market.Day} {d d' : Driver G} {cmd : Command}
  (h : Follows day d) (hoffer : d.Offers cmd d')
include h hoffer

/-- The driver stays within the documented domain, and reuses no id that may rest. -/
theorem permits (hR : R.ticks = defaultTicks) (hmax : 50 ≤ maxQty)
    (hnext : d.nextId.toNat < 2 ^ 62) : day.Permits R maxQty cmd := by
  have hvalid {id : UInt64} (hpos : 0 < id) (hle : id ≤ d.nextId) : ValidId id := by
    refine ⟨fun hz => ?_, fun hkey => ?_⟩
    · rw [hz] at hpos
      exact absurd hpos (by decide)
    · have hkey' : id.toNat = 2 ^ 64 - 1 := by
        rw [hkey]
        rfl
      have := UInt64.le_iff_toNat_le.mp hle
      omega
  have hlive {id : UInt64} (hid : id ∈ d.live) : ValidId id :=
    hvalid (h.live id hid).1 (UInt64.le_of_lt (h.live id hid).2)
  have hkey : (0 : UInt64) ≠ emptyKey := by decide
  cases hoffer with
  | cancel hid _ _ => exact ⟨hlive hid, trivial⟩
  | modify hid hpx hpos hle =>
      refine ⟨⟨hR ▸ hpx, hpos, UInt64.le_trans hle hmax, hlive hid, hkey⟩, fun hren => ?_⟩
      simp [ModifyMsg.renames] at hren
  | submit hpx hpos hle =>
      refine ⟨⟨hR ▸ hpx, hpos, UInt64.le_trans hle hmax, hvalid h.next (UInt64.le_refl _)⟩, ?_⟩
      intro s p o ho hid
      have := (h.orders s p o ho).id
      rw [hid] at this
      exact UInt64.lt_irrefl _ this

theorem step (hnext : d.nextId.toNat < 2 ^ 62) (hR : R.ticks = defaultTicks)
    (hlen : ∀ s p, ((day.next R cmd).1 s p).length ≤ 2 ^ 57) : Follows (day.next R cmd) d' := by
  have hbound := hoffer.nextId_le hnext
  have hsubmit := hoffer.submit_listed hnext
  have hmodify := hoffer.modify_listed h.live
  have horders : day.1.All (Listed d'.nextId) := fun s p o ho => (h.orders s p o ho).mono hbound.1
  have hstep : (day.next R cmd).1.All (Listed d'.nextId) :=
    horders.step Listed.less (fun m hm r hr => Listed.less _ r hr (hsubmit m hm)) hmodify
  refine ⟨UInt64.lt_of_lt_of_le h.next hbound.1, hoffer.live_lt hnext h.next h.live, hstep,
    fun ev hev => ?_⟩
  have hsmall : d'.nextId.toNat ≤ 2 ^ 62 := by omega
  rcases List.mem_append.mp hev with hev | hev
  · exact h.news ev hev
  rcases List.mem_append.mp hev with hev | hev
  · exact horders.step_news (readable_deal hsmall) (readable_reject hsmall) hsubmit
      (fun m o hm ho => (hmodify m o hm ho).2) ev hev
  · split_ifs at hev
    · obtain rfl := List.mem_singleton.mp hev
      exact readable_top hR hstep hlen
    · exact absurd hev List.not_mem_nil

end Follows

/-! ## From the tool to the dashboard -/

/-- What can be read whatever its stamp can be read with the stamps of a run. -/
theorem numbers_stampAll {evs : List Event} (h : ∀ ev ∈ evs, Readable ev)
    (hlt : stamps evs < 2 ^ 63) : ∀ ev ∈ stampAll 0 evs, ∀ n ∈ numbers ev, n < 2 ^ 63 := by
  intro ev hev
  obtain ⟨ev₀, hev₀, k, rfl, -, hk, -⟩ := mem_stampAll (n := 0) hev
  have hfields : fields (ev₀.stamp (UInt64.ofNat k)) = fields ev₀ := by cases ev₀ <;> rfl
  unfold numbers
  rw [hfields, Event.seq_stamp, List.forall_mem_cons, List.forall_mem_map]
  refine ⟨?_, h ev₀ hev₀⟩
  rw [UInt64.toNat_ofNat_of_lt' (by rw [UInt64.size]; omega)]
  omega

section Main
variable {uniform : Uniform G} (seeded : UInt64 → G) (mem : Memory) (a : Args)

/-- The rules of the tool's engine. -/
def Args.rules : Rules := Engine.rulesOf a.config defaultTicks defaultMaxOrders

variable (uniform) in
/-- The commands of a run. -/
def Args.script (n : ℕ) : List Command := (a.driver seeded).script uniform a.accounts n

variable (uniform) in
/-- A run cut after `k` commands. -/
theorem Args.script_split {k n : ℕ} (hk : k ≤ n) :
    ∃ after, a.script uniform seeded n = a.script uniform seeded k ++ after ∧
      ∀ cmd rest, after = cmd :: rest →
        k < n ∧ a.script uniform seeded (k + 1) = a.script uniform seeded k ++ [cmd] := by
  obtain ⟨j, rfl⟩ := Nat.exists_eq_add_of_le hk
  refine ⟨_, Driver.script_append .., fun cmd rest hcons => ?_⟩
  cases j with
  | zero => simp [Driver.script] at hcons
  | succ j =>
      rw [Driver.script_cons] at hcons
      obtain ⟨rfl, -⟩ := List.cons.inj hcons
      exact ⟨by omega, Driver.script_succ ..⟩

theorem capacity_bound : defaultMaxOrders * a.config.maxOrderQty.toNat < 2 ^ 64 :=
  (by decide : defaultMaxOrders * (4294967296 : UInt64).toNat < 2 ^ 64)

/-- How much a run of the tool can leave at one price, and how much it can publish. -/
theorem Args.size_le {n : ℕ}
    (hok : Market.Permitted a.rules a.config.maxOrderQty (a.script uniform seeded n)) :
    (∀ s p, ((Market.play a.rules (a.script uniform seeded n)).1 s p).length ≤ 2 * n) ∧
      (Market.play a.rules (a.script uniform seeded n)).2.length ≤ 3 * n := by
  have hle := hok.size_le (by decide : 0 < defaultMaxOrders) (by decide : defaultTicks ≤ 64 ^ 4)
    (capacity_bound a)
  rwa [script, Driver.length_script] at hle

/-- The script is permitted, and everything it leads to can be read back. -/
theorem Args.script_follows (huniform : uniform.Bounded) {n : ℕ} (hn : n < 2 ^ 56) :
    Market.Permitted a.rules a.config.maxOrderQty (a.script uniform seeded n) ∧
      Follows (Market.play a.rules (a.script uniform seeded n))
        ((a.driver seeded).after uniform a.accounts n) ∧
      ((a.driver seeded).after uniform a.accounts n).nextId.toNat ≤ n + 1 := by
  induction n with
  | zero => exact ⟨trivial, .start _, Nat.le_refl 1⟩
  | succ n ih =>
      obtain ⟨hok, hday, hle⟩ := ih (by omega)
      have hnext : ((a.driver seeded).after uniform a.accounts n).nextId.toNat < 2 ^ 62 := by
        omega
      have hoffer := Driver.next_offers huniform (d := (a.driver seeded).after uniform a.accounts n)
        a.accounts
      have hscript := (a.driver seeded).script_succ uniform a.accounts n
      have hok' : Market.Permitted a.rules a.config.maxOrderQty
          (a.script uniform seeded (n + 1)) := by
        unfold script
        rw [hscript, Market.permitted_concat]
        exact ⟨hok, hday.permits hoffer rfl (by decide : (50 : UInt64) ≤ 4294967296) hnext⟩
      have hlen := (a.size_le seeded hok').1
      rw [Driver.after_succ]
      unfold script at hlen ⊢
      rw [hscript, Market.play_concat] at hlen ⊢
      refine ⟨hscript ▸ hok', hday.step hoffer hnext rfl fun s p => (hlen s p).trans (by omega), ?_⟩
      have := (hoffer.nextId_le hnext).2
      omega

variable (uniform) in
/-- The tool's engine is one that writes events down, behind a recorder. -/
theorem Tool.after_eng (k : ℕ) : (Tool.after uniform seeded mem a k).eng =
    (Engine.play [] a.config mem (a.script uniform seeded k)).mapPub
      fun log => log.foldl Publisher.publish ({} : JsonRecorder) := by
  unfold after
  rw [iterate_turn]
  exact Engine.foldl_apply_eq _ _

/-- After `k` commands the tool is where the day is that its script brings about. -/
theorem Tool.after_day (huniform : uniform.Bounded) {k : ℕ} (hk : k < 2 ^ 56) :
    let day := Market.play a.rules (a.script uniform seeded k)
    let engine := (Tool.after uniform seeded mem a k).eng
    (∀ ev ∈ stampAll 0 day.2, ∀ n ∈ numbers ev, n < 2 ^ 63) ∧ stamps day.2 < 2 ^ 63 ∧
      engine.pub.out = recordText (stampAll 0 day.2) ∧
      engine.state.seq.toNat = stamps day.2 ∧ engine.top = day.1.top a.rules := by
  intro day engine
  obtain ⟨hok, hday, -⟩ := a.script_follows seeded huniform hk
  have hstamps : stamps day.2 < 2 ^ 63 := by
    have hlen : day.2.length ≤ 3 * k := (a.size_le seeded hok).2
    have := stamps_le_length day.2
    omega
  obtain ⟨hpub, hseq, htop⟩ := Engine.play_day a.config rfl mem
    (by decide : 0 < defaultMaxOrders) (by decide : defaultTicks ≤ 64 ^ 4) (capacity_bound a) hok
  have hengine : engine = _ := Tool.after_eng uniform seeded mem a k
  refine ⟨numbers_stampAll hday.news hstamps, hstamps, ?_, ?_, ?_⟩
  · rw [hengine, Engine.mapPub_pub, hpub]
    rfl
  · have hseq' : engine.state.seq = UInt64.ofNat (stamps day.2) := by
      rw [hengine]
      exact hseq
    rw [hseq', UInt64.toNat_ofNat_of_lt' (by rw [UInt64.size]; omega)]
  · rw [hengine]
    exact htop

end Main

/-- From the tool to the dashboard. Whatever the generator draws, the recording of a run is read
back, and at any moment of it the dashboard shows the top of the book that the engine had after
the last command that was published in full. It has nothing to show only where the book was empty
after every command. -/
theorem main_atSeq {uniform : Uniform G} {loads : Loads} {fromiter : FromIter}
    {searchsorted : SearchSorted} (huniform : uniform.Bounded) (hloads : LoadsExact loads)
    (hiter : TakesInt64 fromiter) (hsearch : SearchesRight searchsorted) (seeded : UInt64 → G)
    (mem : Memory) (a : Args) (ha : a.complaint = none) (hcommands : a.commands < 2 ^ 56) :
    let engine (k : ℕ) := (Tool.after uniform seeded mem a k).eng
    ∃ text log, main uniform seeded mem a = .ok text ∧ readText loads fromiter text = .ok log ∧
      ∀ k ≤ a.commands, (log.tops.empty = true → (engine k).top = ⟨0, 0, 0, 0⟩) ∧
        (log.tops.empty = false → ∀ seq : ℕ, (engine k).state.seq.toNat ≤ seq →
          (k < a.commands → seq < (engine (k + 1)).state.seq.toNat) →
          ∃ n ≤ seq, atSeq searchsorted log seq = .ok (.of n (engine k).top)) := by
  intro engine
  obtain ⟨hsmall, hstamps, hout, -, -⟩ := Tool.after_day seeded mem a huniform hcommands
  have hread := (readText_eq_split hloads fromiter fun ev hev n hn =>
    (hsmall ev hev n hn).trans (by decide)).trans (split_rows hiter hsmall)
  have hmain : main uniform seeded mem a = .ok (engine a.commands).pub.out := by
    unfold main
    rw [ha]
  rw [hout] at hmain
  refine ⟨_, _, hmain, hread, fun k hk => ?_⟩
  obtain ⟨-, -, -, hseq, htop⟩ := Tool.after_day seeded mem a huniform (hk.trans_lt hcommands)
  obtain ⟨after, hsplit, hnext⟩ := a.script_split uniform seeded hk
  rw [hsplit] at hstamps ⊢
  have hlt := hstamps.trans (by decide : 2 ^ 63 < 2 ^ 64)
  refine ⟨fun hempty => ?_, fun hne seq hfrom hto => ?_⟩
  · rw [htop]
    refine Market.top_of_unshown a.rules ?_ hlt
    by_contra hne
    rw [(Market.shown_ne_nil_iff a.rules).mpr hne] at hempty
    exact Bool.false_ne_true hempty
  · rw [htop]
    refine Market.atSeq_day a.rules hsearch hlt ((Market.shown_ne_nil_iff a.rules).mp hne)
      (hseq ▸ hfrom) fun cmd rest hcons => ?_
    obtain ⟨hlast, hscript⟩ := hnext cmd rest hcons
    obtain ⟨-, -, -, hseq', -⟩ := Tool.after_day seeded mem a huniform (k := k + 1) (by omega)
    rw [← hscript, ← hseq']
    exact hto hlast

/-! ### A generator and a search -/

/-- A generator that counts. -/
def countUp : Uniform ℕ := fun lo hi g => (lo + g % (hi - lo + 1), g + 1)

theorem countUp_bounded : countUp.Bounded where
  bounds lo hi g hle := by
    have : g % (hi - lo + 1) < hi - lo + 1 := Nat.mod_lt g (Nat.succ_pos _)
    simp only [countUp]
    omega

/-- Count the values up to `v`, in the place of `np.searchsorted`. -/
def countUpTo : SearchSorted := fun a v => a.countP (· ≤ v)

theorem countUpTo_right : SearchesRight countUpTo where
  right before after v _ hbefore hafter := by
    have hnone : after.countP (· ≤ v) = 0 :=
      List.countP_eq_zero.mpr fun x hx => by simpa using hafter x hx
    rw [countUpTo, List.countP_append, hnone, List.countP_eq_length.mpr (by simpa using hbefore)]
    rfl

/-- Two asks rest, and the dashboard shows the better one. -/
theorem main_atSeq_two_asks :
    let a : Args := { seed := 2, commands := 2 }
    let top : Top := ⟨0, 3, 0, 5⟩
    (Tool.after countUp UInt64.toNat .zeroed a 2).eng.top = top ∧
      ∃ text log, main countUp UInt64.toNat .zeroed a = .ok text ∧
        readText flatLoads int64Column text = .ok log ∧
        ∃ n : ℕ, n ≤ 1 ∧ atSeq countUpTo log 1 = .ok (.of n top) := by
  intro a top
  obtain ⟨text, log, hmain, hread, hshow⟩ := main_atSeq countUp_bounded flatLoads_exact
    int64Column_takes countUpTo_right UInt64.toNat .zeroed a rfl (by decide)
  have htop : (Tool.after countUp UInt64.toNat .zeroed a 2).eng.top = top := by decide +kernel
  have hseq : (Tool.after countUp UInt64.toNat .zeroed a 2).eng.state.seq.toNat ≤ 1 := by
    decide +kernel
  obtain ⟨hempty, hfull⟩ := hshow 2 (Nat.le_refl 2)
  refine ⟨htop, text, log, hmain, hread, ?_⟩
  cases hcase : log.tops.empty with
  | true =>
      have := htop.symm.trans (hempty hcase)
      exact absurd this (by decide)
  | false =>
      have := hfull hcase 1 hseq fun hlt => absurd hlt (Nat.lt_irrefl 2)
      rwa [htop, Nat.cast_one] at this

end Replay
end Orderbooks
