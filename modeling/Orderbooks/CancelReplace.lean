import Orderbooks.MarketRefinement

/-!
# Modifies written out

A modify that changes the price of its order is, to everybody in the market, a cancel and a new
order. The engine does not carry it out that way: an order that does not cross keeps its slot and
is linked in elsewhere, under one look at the index. Here every such modify of a history is
written out as the two commands it stands for. The engine ends with the same books, and publishes
the same fills, trades, self-trades and rejects. Only between the two commands may a top be told
that the modify passes over.
-/
namespace Orderbooks
open Runs

/-- A modify of the given order, where a change of price is a cancel and a submit. -/
def ModifyMsg.legs (m : ModifyMsg) : Option Order → List Command
  | none => [.modify m]
  | some o =>
      if m.newPx = o.px then [.modify m]
      else [.cancel ⟨m.id, m.handle⟩,
        .submit ⟨m.effectiveId, m.newPx, m.newQty, o.s, o.t, o.accountId⟩]

namespace Engine

variable {ticks maxOrders : ℕ} (e : Engine (List Event) ticks maxOrders .byId)

/-- The record that rests under an id. -/
def recordOf (id : UInt64) : Option Order :=
  Market.find (rulesOf e.cfg ticks maxOrders) e.recordsAt id

def writtenOut : Command → List Command
  | .submit m => [.submit m]
  | .cancel m => [.cancel m]
  | .modify m => m.legs (e.recordOf m.id)

/-- A history with every change of price written out. -/
def longhand : Engine (List Event) ticks maxOrders .byId → List Command → List Command
  | _, [] => []
  | e, cmd :: cmds => e.writtenOut cmd ++ longhand (e.apply cmd) cmds

end Engine

theorem told_unstamped (evs : List Event) : told (evs.map Event.unstamped) = told evs := by
  have hidem (ev : Event) : ev.unstamped.unstamped = ev.unstamped := by cases ev <;> rfl
  simp only [told, List.filter_map, List.map_map, Function.comp_def, Event.isTop_unstamped, hidem]

namespace Market

variable {R : Rules} {M : Market} {day day' : Day} {maxQty : UInt64}

/-- The tops apart, a command is told by its news. -/
theorem told_apply (cmd : Command) : told (M.apply R cmd).2 = told (M.step R cmd).2 := by
  have htops : told (if M.due R (M.step R cmd).1 then [((M.step R cmd).1.top R).news] else []) =
      [] := by
    refine told_of_tops fun ev hev => ?_
    split_ifs at hev
    · exact ⟨_, List.mem_singleton.mp hev⟩
    · simp at hev
  simp only [apply, told_append, htops, List.append_nil]

/-- The days differ in the tops they told at most. -/
structure Alike (day day' : Day) : Prop where
  market : day.1 = day'.1
  told : told day.2 = told day'.2

theorem Alike.next (h : Alike day day') (cmd : Command) :
    Alike (day.next R cmd) (day'.next R cmd) := by
  constructor
  · simp only [Day.next, h.market]
  · simp only [Day.next, told_append, h.told, h.market]

/-- A change of price told as a cancel and a submit. -/
theorem Alike.move (h : Alike day day') {m : ModifyMsg} {o : Order} {handle : OrderHandle}
    (hfind : day.1.find R m.id = some o) (hpx : m.newPx ≠ o.px) :
    Alike (day.next R (.modify m)) ((day'.next R (.cancel ⟨m.id, handle⟩)).next R
      (.submit ⟨m.effectiveId, m.newPx, m.newQty, o.s, o.t, o.accountId⟩)) := by
  have hmodify : day.1.step R (.modify m) = (day'.1.cancel m.id).step R
      (.submit ⟨m.effectiveId, m.newPx, m.newQty, o.s, o.t, o.accountId⟩) := by
    rw [← h.market]
    exact modify_move hfind hpx
  constructor
  · change (day.1.step R (.modify m)).1 = _
    rw [hmodify]
    rfl
  · simp only [Day.next, told_append, told_apply, hmodify, h.told]
    change _ = Orderbooks.told day'.2 ++ [] ++ Orderbooks.told ((day'.1.cancel m.id).step R _).2
    rw [List.append_nil]

theorem absent_cancel (M : Market) (id : UInt64) : (M.cancel id).Absent id := by
  intro s p o ho
  simpa using List.of_mem_filter ho

theorem Day.Permits.legs {m : ModifyMsg} (h : day.Permits R maxQty (.modify m)) (o : Order)
    (handle : OrderHandle) :
    day.Permits R maxQty (.cancel ⟨m.id, handle⟩) ∧
      (day.next R (.cancel ⟨m.id, handle⟩)).Permits R maxQty
        (.submit ⟨m.effectiveId, m.newPx, m.newQty, o.s, o.t, o.accountId⟩) := by
  obtain ⟨⟨hpx, hpos, hle, hid, hkey⟩, hfresh⟩ := h
  refine ⟨⟨hid, trivial⟩, ⟨hpx, hpos, hle, ?_⟩, ?_⟩
  · change ValidId m.effectiveId
    unfold ModifyMsg.effectiveId
    split_ifs with hnew
    · exact ⟨hnew, hkey⟩
    · exact hid
  · change (day.1.cancel m.id).Absent m.effectiveId
    rw [ModifyMsg.effectiveId_eq]
    split_ifs with hren
    · exact fun s p o ho => hfresh hren s p o (List.mem_of_mem_filter ho)
    · exact absent_cancel day.1 m.id

end Market

namespace Engine

variable {ticks maxOrders : ℕ} {e e' : Engine (List Event) ticks maxOrders .byId} {R : Rules}
  {maxQty : UInt64} {day day' : Market.Day} {cmd : Command}

theorem Shows.recordOf_eq (h : e.Shows R maxQty day) (id : UInt64) :
    e.recordOf id = day.1.find R id := by
  rw [recordOf, h.records]
  obtain ⟨b, -, -, -, rfl, -, -⟩ := h
  rfl

theorem Shows.writtenOut (h : e.Shows R maxQty day) (h' : e'.Shows R maxQty day')
    (hsame : Market.Alike day day') (hc : 0 < maxOrders) (ht : ticks ≤ 64 ^ 4)
    (hok : day.Permits R maxQty cmd) :
    ∃ next', ((e.writtenOut cmd).foldl Engine.apply e').Shows R maxQty next' ∧
      Market.Alike (day.next R cmd) next' := by
  have hok' {cmd : Command} (hcmd : day.Permits R maxQty cmd) : day'.Permits R maxQty cmd :=
    ⟨hcmd.1, hsame.market ▸ hcmd.2⟩
  have hplain : ∃ next', (e'.apply cmd).Shows R maxQty next' ∧
      Market.Alike (day.next R cmd) next' :=
    ⟨_, h'.apply hc ht (hok' hok), hsame.next cmd⟩
  cases cmd with
  | submit m => exact hplain
  | cancel m => exact hplain
  | modify m =>
      change ∃ next', ((m.legs (e.recordOf m.id)).foldl Engine.apply e').Shows R maxQty next' ∧ _
      rw [h.recordOf_eq]
      cases hfind : day.1.find R m.id with
      | none => exact hplain
      | some o =>
          by_cases hpx : m.newPx = o.px
          · simp only [ModifyMsg.legs, if_pos hpx]
            exact hplain
          · simp only [ModifyMsg.legs, if_neg hpx]
            obtain ⟨hcancel, hsubmit⟩ := (hok' hok).legs o m.handle
            exact ⟨_, (h'.apply hc ht hcancel).apply hc ht hsubmit, hsame.move hfind hpx⟩

theorem Shows.longhand (h : e.Shows R maxQty day) (h' : e'.Shows R maxQty day')
    (hsame : Market.Alike day day') (hc : 0 < maxOrders) (ht : ticks ≤ 64 ^ 4)
    {cmds : List Command}
    (hok : Along Engine.apply (fun e cmd => cmd.InDomain ticks maxQty ∧ e.Fresh cmd) e cmds) :
    ∃ last last', (cmds.foldl Engine.apply e).Shows R maxQty last ∧
      ((e.longhand cmds).foldl Engine.apply e').Shows R maxQty last' ∧
        Market.Alike last last' := by
  induction cmds generalizing e e' day day' with
  | nil => exact ⟨day, day', h, h', hsame⟩
  | cons cmd cmds ih =>
      have hcmd := h.permits hok.1.1 hok.1.2
      obtain ⟨next', hnext', hsame'⟩ := h.writtenOut h' hsame hc ht hcmd
      rw [Engine.longhand, List.foldl_append]
      exact ih (h.apply hc ht hcmd) hnext' hsame' hok.2

/-- Modifies are cancels and submits. On every history in the documented domains that reuses no
resting id, writing out every change of price as a cancel and a submit leads to the same books and
to the same tape, stamps and tops apart. -/
theorem modifies_written_out (cfg : EngineConfig) (mem mem' : Memory) (hc : 0 < maxOrders)
    (ht : ticks ≤ 64 ^ 4) (hcap : maxOrders * cfg.maxOrderQty.toNat < 2 ^ 64)
    (cmds : List Command) (hdom : ∀ cmd ∈ cmds, cmd.InDomain ticks cfg.maxOrderQty)
    (hfresh : Along Engine.apply Fresh
      (new [] cfg mem : Engine (List Event) ticks maxOrders .byId) cmds) :
    let e : Engine (List Event) ticks maxOrders .byId := play [] cfg mem cmds
    let e' : Engine (List Event) ticks maxOrders .byId :=
      play [] cfg mem'
        ((new [] cfg mem : Engine (List Event) ticks maxOrders .byId).longhand cmds)
    e'.recordsAt = e.recordsAt ∧ told e'.pub = told e.pub := by
  intro e e'
  obtain ⟨last, last', hlast, hlast', hsame⟩ :=
    (new_shows cfg mem hc hcap).longhand (new_shows cfg mem' hc hcap) ⟨rfl, rfl⟩ hc ht
      ((along_of_forall hdom).and hfresh)
  have htold {e₁ : Engine (List Event) ticks maxOrders .byId} {day : Market.Day}
      (h : e₁.Shows (rulesOf cfg ticks maxOrders) cfg.maxOrderQty day) :
      told e₁.pub = told day.2 := by
    rw [← h.published, told_unstamped]
  exact ⟨hlast'.records.trans (hsame.market.symm.trans hlast.records.symm),
    (htold hlast').trans (hsame.told.symm.trans (htold hlast).symm)⟩

/-- A bid that is moved up and meets an offer. -/
theorem modifies_written_out_crossing :
    let cmds : List Command := [.submit ⟨1, 3, 5, .ask, .gtc, 0⟩, .submit ⟨2, 1, 2, .bid, .gtc, 0⟩,
      .modify { id := 2, newPx := 3, newQty := 4 }]
    let e : Engine (List Event) 4 4 .byId := play [] {} .zeroed cmds
    let e' : Engine (List Event) 4 4 .byId := play [] {} .zeroed
      ((new [] {} .zeroed : Engine (List Event) 4 4 .byId).longhand cmds)
    (new [] {} .zeroed : Engine (List Event) 4 4 .byId).longhand cmds =
        [.submit ⟨1, 3, 5, .ask, .gtc, 0⟩, .submit ⟨2, 1, 2, .bid, .gtc, 0⟩, .cancel ⟨2, {}⟩,
          .submit ⟨2, 3, 4, .bid, .gtc, 0⟩] ∧
      told e.pub = [.fill ⟨1, 2, 3, 4, 0⟩, .trade ⟨3, 4, 0⟩] ∧
      e'.recordsAt = e.recordsAt ∧ told e'.pub = told e.pub := by
  have h := modifies_written_out {} .zeroed .zeroed (by decide) (by decide) (by decide)
    [.submit ⟨1, 3, 5, .ask, .gtc, 0⟩, .submit ⟨2, 1, 2, .bid, .gtc, 0⟩,
      .modify { id := 2, newPx := 3, newQty := 4 }] (by decide)
    (by decide : Along Engine.apply Fresh (new [] {} .zeroed : Engine (List Event) 4 4 .byId) _)
  exact ⟨by decide, by decide, h⟩

end Engine
end Orderbooks
