import Orderbooks.ArrivalOrder
import Orderbooks.SubmitLeg

/-!
# Price-time priority

A trade happens at a turn of the inner matching loop. `moments` lists the states
at the head of that loop, in the order in which a match comes by them, and
`trades` is what the turn taken there publishes. Strict priority is a statement
about those states: the maker that trades is the one that a history-defined
priority, price first and arrival stamp second, puts in front of all others.
-/
namespace Orderbooks

/-! ## The aggressor of a command -/

namespace Engine
open Loop

variable {P : Type} [Publisher P] {ticks maxOrders : ℕ} {lookup : OrderLookup}

/-- A submitted order that gets to match, and the engine it is matched in. A
fill-or-kill order that fails its precheck does not. -/
def aggressorOfSubmit (e : Engine P ticks maxOrders lookup) (m : SubmitMsg) :
    Option (SubmitMsg × Engine P ticks maxOrders lookup) :=
  if m.t = .fok ∧ !e.canFullyFill m.s.opposite m.px m.qty m.accountId then none else some (m, e)

/-- The submission of a command, if it gets to match. -/
def aggressor (e : Engine P ticks maxOrders lookup) (cmd : Command) :
    Option (SubmitMsg × Engine P ticks maxOrders lookup) :=
  (e.leg cmd).bind fun leg => leg.2.aggressorOfSubmit leg.1

/-- An aggressor is the submission of its command. -/
theorem leg_of_aggressor {e e₁ : Engine P ticks maxOrders lookup} {cmd : Command} {m : SubmitMsg}
    (ha : e.aggressor cmd = some (m, e₁)) : e.leg cmd = some (m, e₁) := by
  obtain ⟨leg, hleg, ha⟩ := Option.bind_eq_some_iff.mp ha
  unfold aggressorOfSubmit at ha
  split_ifs at ha
  rw [hleg, ← ha]

/-! ## The moments of a match -/

/-- The states at the head of the loop over the makers of the level at `px`. -/
def makerMoments (m : SubmitMsg) (px : ℕ) (c : Matching P ticks maxOrders lookup) :
    List (ℕ × Matching P ticks maxOrders lookup) :=
  (heads (makerTurn m px) (((c.engine.side m.s.opposite).levelAt px).fifo.length + 2) c).map
    fun c => (px, c)

/-- The moments of one turn of the loop over the levels. -/
def levelMoments (m : SubmitMsg) (c : Matching P ticks maxOrders lookup) :
    List (ℕ × Matching P ticks maxOrders lookup) :=
  if c.remaining = 0 then []
  else match (c.engine.side m.s.opposite).best with
    | none => []
    | some bestPx => if !m.s.crosses m.px bestPx then [] else makerMoments m bestPx c

def moments (m : SubmitMsg) (e : Engine P ticks maxOrders lookup) :
    List (ℕ × Matching P ticks maxOrders lookup) :=
  (heads (levelTurn m) (e.book.arena.inUse + 2) ⟨e, m.qty, false⟩).flatMap (levelMoments m)

/-- What the turn taken at a moment publishes. -/
def trades (m : SubmitMsg) (k : ℕ × Matching (List Event) ticks maxOrders lookup) : List Event :=
  (makerTurn m k.1 k.2).state.engine.pub.drop k.2.engine.pub.length

/-- The maker in slot `x` comes before every other order opposite to `m`: none has a
better price, and none at its price an earlier stamp. -/
structure Foremost (g : UInt64 → ℕ) (m : SubmitMsg) (e : Engine P ticks maxOrders lookup)
    (px x : ℕ) : Prop where
  held : e.book.Held x
  side : (e.order x).s = m.s.opposite
  own_price : (e.order x).px = px
  within : m.s.crosses m.px px = true
  first : ∀ y, e.book.Held y → (e.order y).s = m.s.opposite → y ≠ x →
    m.s.opposite.better (e.order y).px px = false ∧
      ((e.order y).px = px → g (e.order x).id < g (e.order y).id)

/-! ## What is published -/

/-- Between the logs `p` and `p'` no two orders met. -/
def Untraded (p p' : List Event) : Prop :=
  ∃ evs, p' = p ++ evs ∧ ∀ ev ∈ evs, ev.parties = none

theorem Untraded.refl (p : List Event) : Untraded p p := ⟨[], by simp, by simp⟩

theorem Untraded.trans {p p' p'' : List Event} (h : Untraded p p') (h' : Untraded p' p'') :
    Untraded p p'' := by
  obtain ⟨evs, rfl, hevs⟩ := h
  obtain ⟨evs', rfl, hevs'⟩ := h'
  refine ⟨evs ++ evs', by rw [List.append_assoc], fun ev hev => ?_⟩
  rcases List.mem_append.mp hev with hev | hev
  · exact hevs ev hev
  · exact hevs' ev hev

variable {e : Engine (List Event) ticks maxOrders lookup} {m : SubmitMsg} {px x : ℕ}

theorem publishTopIfChanged_untraded (e : Engine (List Event) ticks maxOrders lookup) :
    Untraded e.pub e.publishTopIfChanged.pub := by
  unfold publishTopIfChanged
  dsimp only
  split
  · exact .refl _
  · exact ⟨[_], rfl, by simp [Event.parties]⟩

theorem decrementMaker_pub (s : Side) (qty : UInt64) :
    (e.decrementMaker s px x qty).pub = e.pub := by
  unfold decrementMaker
  dsimp only
  split_ifs
  · exact (dropFront_control _ _ _ _).1
  · rfl

theorem notifyIfEmptied_pub (s : Side) : (e.notifyIfEmptied s px).pub = e.pub := by
  unfold notifyIfEmptied
  split_ifs <;> rfl

theorem handleSelfCross_publishes (c : Matching (List Event) ticks maxOrders lookup)
    (m : SubmitMsg) (x px : ℕ) :
    ∃ evs, (handleSelfCross c m x px).2.engine.pub = c.engine.pub ++ evs ∧
      ∀ ev ∈ evs, ∀ a, ev.parties = some a → a = ((c.engine.order x).id, m.id, px) := by
  unfold handleSelfCross
  dsimp only
  cases c.engine.cfg.selfCross with
  | cancelNewest => exact ⟨[], by simp, by simp⟩
  | cancelOldest =>
      refine ⟨[], ?_, by simp⟩
      rw [List.append_nil]
      exact (dropFront_control _ _ _ _).1
  | decrementTrade =>
      refine ⟨[.selfTrade _], decrementMaker_pub _ _, ?_⟩
      intro ev hev a ha
      rw [List.mem_singleton.mp hev] at ha
      exact (Option.some.inj ha).symm

theorem fillMaker_pub (c : Matching (List Event) ticks maxOrders lookup) (m : SubmitMsg)
    (x px : ℕ) :
    ∃ qty seq, (fillMaker c m x px).engine.pub = c.engine.pub ++
      [.fill ⟨(c.engine.order x).id, m.id, px, qty, seq⟩, .trade ⟨px, qty, seq⟩] := by
  refine ⟨min c.remaining (c.engine.order x).remaining, c.engine.state.seq + 1,
    (decrementMaker_pub _ _).trans ?_⟩
  exact List.append_assoc _ _ _

/-- A turn publishes at most the trade with the maker at the front. -/
theorem makerTurn_publishes (m : SubmitMsg) (px : ℕ)
    (c : Matching (List Event) ticks maxOrders lookup) :
    ∃ evs, (makerTurn m px c).state.engine.pub = c.engine.pub ++ evs ∧
      ∀ ev ∈ evs, ∀ a, ev.parties = some a → ∃ x xs,
        ((c.engine.side m.s.opposite).levels px).fifo = x :: xs ∧
          a = ((c.engine.order x).id, m.id, px) := by
  unfold makerTurn BookSide.levelAt
  cases hf : ((c.engine.side m.s.opposite).levels px).fifo with
  | nil => exact ⟨[], by simp [Turn.state], by simp⟩
  | cons x xs =>
  dsimp only
  by_cases hrem : c.remaining = 0
  · rw [if_pos hrem]
    exact ⟨[], by simp [Turn.state], by simp⟩
  rw [if_neg hrem]
  by_cases hown : m.accountId ≠ 0 ∧ (c.engine.order x).accountId = m.accountId
  · rw [if_pos hown]
    obtain ⟨evs, hpub, hevs⟩ := handleSelfCross_publishes c m x px
    refine ⟨evs, ?_, fun ev hev a ha => ⟨x, xs, rfl, hevs ev hev a ha⟩⟩
    generalize handleSelfCross c m x px = r at hpub ⊢
    obtain ⟨abort, c'⟩ := r
    cases abort with
    | true => exact (notifyIfEmptied_pub _).trans hpub
    | false => exact hpub
  · rw [if_neg hown]
    obtain ⟨qty, seq, hpub⟩ := fillMaker_pub c m x px
    refine ⟨_, hpub, ?_⟩
    intro ev hev a ha
    rcases List.mem_cons.mp hev with rfl | hev
    · exact ⟨x, xs, rfl, (Option.some.inj ha).symm⟩
    · rw [List.mem_singleton.mp hev] at ha
      simp [Event.parties] at ha

theorem makerTurn_pub (m : SubmitMsg) (px : ℕ)
    (c : Matching (List Event) ticks maxOrders lookup) :
    (makerTurn m px c).state.engine.pub = c.engine.pub ++ trades m (px, c) := by
  obtain ⟨evs, hpub, _⟩ := makerTurn_publishes m px c
  simp [trades, hpub]

theorem makerLoop_pub (m : SubmitMsg) (px : ℕ)
    (c : Matching (List Event) ticks maxOrders lookup) :
    (makerLoop m px c).engine.pub =
      c.engine.pub ++ (makerMoments m px c).flatMap (trades m) := by
  rw [makerMoments, List.flatMap_map]
  exact run_output (fun c => c.engine.pub) (fun c => trades m (px, c)) (makerTurn_pub m px) _ c

theorem levelTurn_pub (m : SubmitMsg) (c : Matching (List Event) ticks maxOrders lookup) :
    (levelTurn m c).state.engine.pub =
      c.engine.pub ++ (levelMoments m c).flatMap (trades m) := by
  unfold levelTurn levelMoments
  split_ifs with hrem
  · simp [Turn.state]
  · cases (c.engine.side m.s.opposite).best with
    | none => simp [Turn.state]
    | some p =>
        dsimp only
        split_ifs with hcross hab
        · simp [Turn.state]
        · exact makerLoop_pub m p c
        · rw [← makerLoop_pub]
          exact notifyIfEmptied_pub _

/-- A match publishes the trades of its moments, in their order. -/
theorem matchAgainstOpposite_pub (m : SubmitMsg)
    (e : Engine (List Event) ticks maxOrders lookup) :
    (matchAgainstOpposite m e).engine.pub = e.pub ++ (moments m e).flatMap (trades m) := by
  rw [moments, List.flatMap_assoc]
  exact run_output (f := levelTurn m) (fun c => c.engine.pub)
    (fun c => (levelMoments m c).flatMap (trades m)) (levelTurn_pub m) _ _

/-- What a command publishes: its aggressor's trades, and around them nothing in
which two orders meet. -/
def Published (e e' : Engine (List Event) ticks maxOrders lookup) :
    Option (SubmitMsg × Engine (List Event) ticks maxOrders lookup) → Prop
  | none => Untraded e.pub e'.pub
  | some (m, e₁) => Untraded e.pub e₁.pub ∧
      Untraded (e₁.pub ++ (moments m e₁).flatMap (trades m)) e'.pub

theorem Published.extend {e e₀ e' e'' : Engine (List Event) ticks maxOrders lookup}
    {a : Option (SubmitMsg × Engine (List Event) ticks maxOrders lookup)}
    (h : Published e₀ e' a) (hpre : Untraded e.pub e₀.pub) (hpost : Untraded e'.pub e''.pub) :
    Published e e'' a := by
  cases a with
  | none => exact (hpre.trans h).trans hpost
  | some a => exact ⟨hpre.trans h.1, h.2.trans hpost⟩

theorem rest_untraded (m : SubmitMsg) (rem : UInt64) :
    Untraded e.pub (e.rest m rem).2.pub := by
  unfold rest
  split
  · exact ⟨[.reject _], rfl, by simp [Event.parties]⟩
  · split_ifs <;> exact .refl _

theorem handleSubmit_published (e : Engine (List Event) ticks maxOrders lookup) (m : SubmitMsg) :
    Published e (e.handleSubmit m).2 (e.aggressorOfSubmit m) := by
  unfold handleSubmit aggressorOfSubmit
  dsimp only
  split_ifs with hkill hrem
  · exact .refl _
  · refine ⟨.refl _, ?_⟩
    rw [← matchAgainstOpposite_pub]
    exact .refl _
  · refine ⟨.refl _, ?_⟩
    rw [← matchAgainstOpposite_pub]
    cases m.t with
    | ioc => exact .refl _
    | fok => exact .refl _
    | gtc => exact rest_untraded m _

theorem onSubmit_published (e : Engine (List Event) ticks maxOrders lookup) (m : SubmitMsg) :
    Published e (e.onSubmit m).2 (e.aggressorOfSubmit m) :=
  (e.handleSubmit_published m).extend (.refl _) (publishTopIfChanged_untraded _)

theorem find_pub (id : UInt64) (hdl : OrderHandle) (un : Bool) :
    (e.find id hdl un).2.pub = e.pub := (e.find_parts id hdl un).1

theorem onCancel_untraded (e : Engine (List Event) ticks maxOrders lookup) (m : CancelMsg) :
    Untraded e.pub (e.onCancel m).pub := by
  have hpub := find_pub (e := e) m.id m.handle true
  unfold onCancel
  generalize e.find m.id m.handle true = r at hpub
  obtain ⟨o, e'⟩ := r
  dsimp only at hpub
  rw [← hpub]
  cases o with
  | none => exact .refl _
  | some p => exact publishTopIfChanged_untraded _

theorem chain_pub (e : Engine (List Event) ticks maxOrders lookup) (p : ℕ) (m : ModifyMsg) :
    (if m.renames then (e.find m.id m.handle m.renames).2.rename p m.newId
      else (e.find m.id m.handle m.renames).2).pub = e.pub := by
  split_ifs
  · exact (rename_parts _ p m.newId).1.trans (find_pub ..)
  · exact find_pub ..

/-- Nothing is traded before the submission of a command. -/
theorem leg_untraded {e₁ : Engine (List Event) ticks maxOrders lookup} {cmd : Command}
    {m : SubmitMsg} (hl : e.leg cmd = some (m, e₁)) : Untraded e.pub e₁.pub := by
  cases cmd with
  | submit m' =>
      obtain ⟨rfl, rfl⟩ := Prod.mk.inj (Option.some.inj hl)
      exact .refl _
  | cancel m' => simp [leg] at hl
  | modify m' =>
      cases hf : (e.find m'.id m'.handle m'.renames).1 with
      | none => simp [leg_modify_none hf] at hl
      | some x =>
          rw [leg_modify_some hf] at hl
          obtain ⟨-, rfl⟩ := legOfReprice_eq hl
          have hpub := e.chain_pub x m'
          rw [← hpub]
          exact onCancel_untraded _ _

theorem reprice_untraded {p : ℕ} {m : ModifyMsg} (hl : e.legOfReprice p m = none) :
    Untraded e.pub (e.reprice p m).2.pub := by
  unfold legOfReprice at hl
  unfold reprice
  dsimp only at hl ⊢
  split_ifs at hl ⊢
  · exact .refl _
  · exact publishTopIfChanged_untraded _
  cases hbest : (e.side (e.order p).s.opposite).best with
  | none => exact publishTopIfChanged_untraded _
  | some b =>
      rw [hbest] at hl
      dsimp only at hl ⊢
      split_ifs at hl ⊢
      exact publishTopIfChanged_untraded _

/-- A command that submits nothing trades nothing. -/
theorem apply_untraded {cmd : Command} (hl : e.leg cmd = none) :
    Untraded e.pub (e.apply cmd).pub := by
  cases cmd with
  | submit m => simp [leg] at hl
  | cancel m => exact e.onCancel_untraded m
  | modify m =>
      change Untraded e.pub (e.onModify m).2.pub
      cases hf : (e.find m.id m.handle m.renames).1 with
      | none =>
          rw [onModify_none hf, find_pub]
          exact .refl _
      | some p =>
          rw [leg_modify_some hf] at hl
          rw [onModify_some hf, ← e.chain_pub p m]
          exact reprice_untraded hl

theorem settleLeg_untraded (e : Engine (List Event) ticks maxOrders lookup) (cmd : Command) :
    Untraded e.pub (e.settleLeg cmd).pub := by
  cases cmd with
  | modify m => exact publishTopIfChanged_untraded e.unsuppress
  | _ => exact .refl _

theorem apply_published (e : Engine (List Event) ticks maxOrders lookup) (cmd : Command) :
    Published e (e.apply cmd) (e.aggressor cmd) := by
  unfold aggressor
  cases hl : e.leg cmd with
  | none => exact apply_untraded hl
  | some leg =>
      rw [apply_of_leg hl]
      exact (leg.2.onSubmit_published leg.1).extend (leg_untraded hl) (settleLeg_untraded _ cmd)

end Engine

/-! ## The maker in front -/

namespace PriorityBook

variable {ticks : ℕ} {b : PriorityBook ticks} {m : SubmitMsg} {g : UInt64 → ℕ}

/-- The queues opposite to `m` are in the order of their stamps. -/
def InOrder (g : UInt64 → ℕ) (m : SubmitMsg) (b : PriorityBook ticks) (_rem : UInt64) : Prop :=
  ∀ p, (b.queues.levels m.s.opposite p).Pairwise fun u v => g (b.order u).id < g (b.order v).id

theorem strike_inOrder (g : UInt64 → ℕ) (m : SubmitMsg) :
    StrikeInvariant m (InOrder g m : PriorityBook ticks → UInt64 → Prop) := by
  intro b rem p u q hd h _ _ _ hq r
  have hworn : Queues.Worn m.s.opposite b.queues (strike m p u b rem).book.queues :=
    strike_worn hd .refl hq
  refine ((h r).sublist (hworn.sublist hd _ r)).imp ?_
  intro v w hlt
  unfold order
  rwa [hworn.id_eq, hworn.id_eq]

end PriorityBook

namespace Engine
open Loop Runs

variable {P : Type} [Publisher P] {ticks maxOrders : ℕ} {lookup : OrderLookup} {p0 : P}
  {e : Engine P ticks maxOrders lookup} {b : PriorityBook ticks} {tag : ℕ → ℕ}
  {pop : Side → Set ℕ} {m : SubmitMsg} {g : UInt64 → ℕ} {clock : ℕ}

theorem Represents.place_eq (h : e.Represents p0 b tag pop) (hd : b.queues.WellFormed) {y : ℕ}
    (hy : e.book.Held y) : y ∈ ((e.side (e.order y).s).levels (e.order y).px).fifo := by
  obtain ⟨s, p, hmem⟩ := hy
  obtain ⟨hs, hp, _⟩ := h.book.place hd hmem
  rw [h.order_eq ⟨s, p, hmem⟩]
  unfold PriorityBook.order
  rwa [hs, hp]

/-- While a level is drained, the maker at its front is the foremost order. -/
theorem Represents.foremost {target : PriorityBook.Sweep ticks} {p n x : ℕ} {xs : List ℕ}
    {c : Matching P ticks maxOrders lookup}
    (h : (matchLoop m).Draining (fun c b pop => c.engine.Represents p0 b tag pop) target
      (PriorityBook.InOrder g m) p n pop b c)
    (hf : ((c.engine.side m.s.opposite).levels p).fifo = x :: xs) :
    Foremost g m c.engine p x := by
  have hrep : c.engine.Represents p0 b tag pop := h.rep
  have hx := c.engine.held_of_front hf
  obtain ⟨hs, hp⟩ := hrep.front_place h.wf hf
  have horder := hrep.order_eq hx
  refine ⟨hx, horder ▸ hs, horder ▸ hp, h.crosses, fun y hy hside hne => ?_⟩
  have hmem := hrep.place_eq h.wf hy
  rw [hside] at hmem
  constructor
  · by_contra hb
    have hnil := h.better _ (by simpa using hb)
    rw [hrep.book.eq_nil_iff] at hnil
    simp [hnil] at hmem
  · intro hpx
    rw [hpx, hf] at hmem
    have hin : tag y ∈ xs.map tag := List.mem_map_of_mem ((List.mem_cons.mp hmem).resolve_left hne)
    have hsorted := h.inv p
    rw [hrep.front_level hf] at hsorted
    rw [horder, hrep.order_eq hy]
    exact (List.pairwise_cons.mp hsorted).1 _ hin

/-- At every moment of a match a level is being drained. -/
theorem Represents.moments_spec {J : PriorityBook ticks → UInt64 → Prop}
    (h : e.Represents p0 b tag b.queues.populated) (hd : b.queues.WellFormed)
    (hc : 0 < maxOrders) (ht : ticks ≤ 64 ^ 4) (hJ : PriorityBook.StrikeInvariant m J)
    (hinv : J b m.qty) :
    ∀ k ∈ moments m e, ∃ b' n pop,
      (matchLoop m).Draining (fun c b pop => c.engine.Represents p0 b tag pop)
        (PriorityBook.sweep m b m.qty) J k.1 n pop b' k.2 := by
  intro k hk
  obtain ⟨c, hhead, hk⟩ := List.mem_flatMap.mp hk
  unfold levelMoments at hk
  split_ifs at hk with hrem
  · simp at hk
  cases hbest : (c.engine.side m.s.opposite).best with
  | none => simp [hbest] at hk
  | some p =>
      rw [hbest] at hk
      dsimp only at hk
      split_ifs at hk with hcross
      · simp at hk
      obtain ⟨c', hhead', rfl⟩ := List.mem_map.mp hk
      exact (h.sweeping hd hinv).heads_draining (matchLoop_simulates m p0 tag hc ht) hJ _ hhead
        hbest (by simpa using hcross) _ hhead'

/-- An aggressor that stops with quantity left has nothing left to trade with. -/
theorem Represents.exhausted (h : e.Represents p0 b tag b.queues.populated)
    (hd : b.queues.WellFormed) (hc : 0 < maxOrders) (ht : ticks ≤ 64 ^ 4)
    (hrem : (Engine.matchAgainstOpposite m e).remaining ≠ 0) {y : ℕ}
    (hy : (Engine.matchAgainstOpposite m e).engine.book.Held y)
    (hside : ((Engine.matchAgainstOpposite m e).engine.order y).s = m.s.opposite) :
    m.s.crosses m.px ((Engine.matchAgainstOpposite m e).engine.order y).px = false := by
  obtain ⟨hrep, hwf, _, hleft, _⟩ := h.matchAgainstOpposite hd hc ht (m := m)
    (J := fun _ _ => True) (fun _ _ _ _ _ _ _ _ _ _ _ => trivial) trivial
  obtain ⟨_, _, _, _, hclear⟩ := PriorityBook.sweep_effect m m.qty hd
  refine hclear (fun hz => hrem (hleft.trans hz)) _ ?_
  have hmem := hrep.place_eq hwf hy
  rw [hside] at hmem
  rw [ne_eq, hrep.book.eq_nil_iff]
  exact List.ne_nil_of_mem hmem

/-- The engine an aggressor is matched in stands for a machine whose queues are in
the order of the stamps from before the command. -/
theorem Refines.aggressor (h : e.Refines p0 b) (hs : b.queues.Stamped g clock)
    (hc : 0 < maxOrders) (ht : ticks ≤ 64 ^ 4) {cmd : Command} (hr : cmd.InRange ticks)
    {e₁ : Engine P ticks maxOrders lookup} (ha : e.aggressor cmd = some (m, e₁)) :
    ∃ b₁, e₁.Refines p0 b₁ ∧ b₁.queues.Stamped g clock := by
  obtain ⟨b₁, h₁, hsub⟩ := h.leg hc ht hr (leg_of_aggressor ha)
  refine ⟨b₁, h₁, ?_⟩
  rcases hsub.queues with heq | ⟨u, mm, hu, _, heq⟩
  · rwa [heq]
  · rw [heq]
    exact hs.drop_chained h.1 hu mm

/-! ## Whole histories -/

/-- An engine with the ghost clock and the arrival stamps. -/
structure Timed (P : Type) (ticks maxOrders : ℕ) (lookup : OrderLookup) where
  engine : Engine P ticks maxOrders lookup
  stamp : UInt64 → ℕ
  clock : ℕ

def Timed.apply (t : Timed P ticks maxOrders lookup) (cmd : Command) :
    Timed P ticks maxOrders lookup :=
  ⟨t.engine.apply cmd,
    restamp t.stamp t.clock ((t.engine.reached cmd).map t.engine.order) cmd, t.clock + 1⟩

def Timed.play (pub : P) (cfg : EngineConfig) (mem : Memory) (cmds : List Command) :
    Timed P ticks maxOrders lookup :=
  cmds.foldl Timed.apply ⟨new pub cfg mem, fun _ => 0, 0⟩

omit [Publisher P] in
theorem restamp_congr {target : Option ℕ} {cmd : Command} (g : UInt64 → ℕ) (clock : ℕ)
    (h : (∀ m, cmd ≠ .submit m) → target.map b.order = (e.reached cmd).map e.order) :
    restamp g clock (target.map b.order) cmd =
      restamp g clock ((e.reached cmd).map e.order) cmd := by
  cases cmd with
  | submit m => rfl
  | cancel m => rfl
  | modify m => rw [h (by simp)]

/-- The timed engine is `e`, and stands for a machine whose queues are in the order
of the stamps. -/
def Follows (pub : P) (e : Engine P ticks maxOrders lookup) (t : Timed P ticks maxOrders lookup) :
    Prop :=
  t.engine = e ∧
    ∃ b, e.Refines pub b ∧ b.queues.Exact ∧ b.queues.Stamped t.stamp t.clock

theorem Follows.apply {pub : P} {t : Timed P ticks maxOrders lookup} (h : Follows pub e t)
    (hc : 0 < maxOrders) (ht : ticks ≤ 64 ^ 4) {cmd : Command} (hr : cmd.InRange ticks)
    (hf : e.Fresh cmd) : Follows pub (e.apply cmd) (t.apply cmd) := by
  obtain ⟨rfl, b, h, hx, hs⟩ := h
  obtain ⟨target, hreach, h', hsame⟩ := h.apply_reached hc ht hr
  obtain ⟨hu, heffect⟩ := h.effect hreach
  refine ⟨rfl, _, h', hx.effect h.1 hu (h.fresh hf) heffect, ?_⟩
  have hstep := hs.effect hx h.1 hreach.1 (h.fresh hf) heffect
  have hmap : target.map b.queues.orders = target.map b.order := rfl
  rw [hmap, restamp_congr _ _ hsame] at hstep
  exact hstep

/-- After a run that reuses no resting id, the stamps put the queues in order. -/
theorem play_follows (pub : P) (cfg : EngineConfig) (mem : Memory) (hc : 0 < maxOrders)
    (ht : ticks ≤ 64 ^ 4) {cmds : List Command}
    (hcmds : Along apply (fun e cmd => cmd.InRange ticks ∧ e.Fresh cmd)
      (new pub cfg mem : Engine P ticks maxOrders lookup) cmds) :
    Follows pub (play pub cfg mem cmds : Engine P ticks maxOrders lookup)
      (Timed.play pub cfg mem cmds) := by
  have step : ∀ (e : Engine P ticks maxOrders lookup) t cmd, Follows pub e t →
      cmd.InRange ticks ∧ e.Fresh cmd → Follows pub (e.apply cmd) (Timed.apply t cmd) :=
    fun _ _ _ h hok => h.apply hc ht hok.1 hok.2
  have hnew : Follows pub (new pub cfg mem : Engine P ticks maxOrders lookup)
      ⟨new pub cfg mem, fun _ => 0, 0⟩ :=
    ⟨rfl, _, new_refines pub cfg mem hc, .empty, .empty _ _⟩
  exact hcmds.lockstep (Follows pub) step hnew

/-- The trades of an aggressor matched in `e`: each meets the foremost order, and an
aggressor that stops with quantity left has nothing left to trade with. -/
structure StrictPriority (g : UInt64 → ℕ) (m : SubmitMsg)
    (e : Engine (List Event) ticks maxOrders lookup) : Prop where
  foremost : ∀ k ∈ moments m e, ∀ ev ∈ trades m k, ∀ maker taker px,
    ev.parties = some (maker, taker, px) →
      taker = m.id ∧ ∃ x, (k.2.engine.order x).id = maker ∧ Foremost g m k.2.engine px x
  exhausted : (matchAgainstOpposite m e).remaining ≠ 0 →
    ∀ y, (matchAgainstOpposite m e).engine.book.Held y →
      ((matchAgainstOpposite m e).engine.order y).s = m.s.opposite →
      m.s.crosses m.px ((matchAgainstOpposite m e).engine.order y).px = false

theorem Refines.strictPriority {e : Engine (List Event) ticks maxOrders lookup}
    {p0 : List Event} (h : e.Refines p0 b) (hs : b.queues.Stamped g clock) (hc : 0 < maxOrders)
    (ht : ticks ≤ 64 ^ 4) (m : SubmitMsg) : StrictPriority g m e := by
  obtain ⟨hd, tag, h⟩ := h
  refine ⟨fun k hk ev hev maker taker px hparties => ?_, fun hrem y hy hside =>
    h.exhausted hd hc ht hrem hy hside⟩
  obtain ⟨b', n, pop, hD⟩ := h.moments_spec hd hc ht (PriorityBook.strike_inOrder g m)
    (fun p => hs.sorted _ p) k hk
  obtain ⟨evs, hpub, hevs⟩ := makerTurn_publishes m k.1 k.2
  have hmem : ev ∈ evs := by
    unfold trades at hev
    rw [hpub, List.drop_left] at hev
    exact hev
  obtain ⟨x, xs, hf, ha⟩ := hevs ev hmem _ hparties
  obtain ⟨rfl, rfl, rfl⟩ := by simpa using ha
  exact ⟨rfl, x, rfl, Represents.foremost hD hf⟩

/-- Strict price-time priority over whole histories. After any run in the documented
domains that reuses no resting id, the next command publishes nothing in which two
orders meet but the trades of its aggressor, and these keep to price first and
arrival stamp second. -/
theorem play_price_time (cfg : EngineConfig) (mem : Memory) (hc : 0 < maxOrders)
    (ht : ticks ≤ 64 ^ 4) (cmds : List Command) (cmd : Command)
    (hdom : ∀ c ∈ cmds ++ [cmd], c.InDomain ticks cfg.maxOrderQty)
    (hfresh : Along apply Fresh
      (new [] cfg mem : Engine (List Event) ticks maxOrders lookup) (cmds ++ [cmd])) :
    let e : Engine (List Event) ticks maxOrders lookup := play [] cfg mem cmds
    let t : Timed (List Event) ticks maxOrders lookup := Timed.play [] cfg mem cmds
    Published e (e.apply cmd) (e.aggressor cmd) ∧
      ∀ m e₁, e.aggressor cmd = some (m, e₁) → StrictPriority t.stamp m e₁ := by
  have hrange : Along apply (fun e c => c.InRange ticks ∧ e.Fresh c)
      (new [] cfg mem : Engine (List Event) ticks maxOrders lookup) cmds :=
    (along_of_forall fun c hmem => (hdom c (by simp [hmem])).inRange).and (along_append.mp hfresh).1
  obtain ⟨_, b, h, _, hs⟩ := play_follows [] cfg mem hc ht hrange
  intro e t
  refine ⟨e.apply_published cmd, fun m e₁ ha => ?_⟩
  have hcmd := (hdom cmd (by simp)).inRange
  obtain ⟨b₁, h₁, hs₁⟩ := h.aggressor hs hc ht hcmd ha
  exact h₁.strictPriority hs₁ hc ht m

/-- A change of quantity keeps the place in the queue. -/
theorem play_price_time_requantified :
    let cmds : List Command := [.submit ⟨1, 1, 5, .ask, .gtc, 0⟩, .submit ⟨2, 1, 5, .ask, .gtc, 0⟩,
      .modify { id := 1, newPx := 1, newQty := 3 }]
    let m : SubmitMsg := ⟨3, 1, 4, .bid, .gtc, 0⟩
    let e : Engine (List Event) 2 2 .byId := play [] {} .zeroed cmds
    let t : Timed (List Event) 2 2 .byId := Timed.play [] {} .zeroed cmds
    ((moments m e).flatMap (trades m)).filterMap Event.parties = [(1, 3, 1), (2, 3, 1)] ∧
      Published e (e.apply (.submit m)) (some (m, e)) ∧ StrictPriority t.stamp m e := by
  have h := play_price_time {} .zeroed (by decide) (by decide)
    [.submit ⟨1, 1, 5, .ask, .gtc, 0⟩, .submit ⟨2, 1, 5, .ask, .gtc, 0⟩,
      .modify { id := 1, newPx := 1, newQty := 3 }]
    (.submit ⟨3, 1, 4, .bid, .gtc, 0⟩) (by decide)
    (by decide : Along apply Fresh (new [] {} .zeroed : Engine (List Event) 2 2 .byId) _)
  exact ⟨by decide, h.1, h.2 _ _ rfl⟩

end Engine
end Orderbooks
