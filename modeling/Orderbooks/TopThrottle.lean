import Orderbooks.MarketRefinement

/-!
# What the throttle leaves out

With `top_throttle` off an engine publishes its top after every command that changes a resting
quantity, with it on only when the top is not the one told before. Trading does not depend on it,
and the throttled tape is the other one without the tops that say nothing new.
-/
namespace Orderbooks
open Runs

/-- The last top that is told, `last` where there is none. -/
def lastTop : Event → List Event → Event
  | last, [] => last
  | last, ev :: evs => lastTop (if ev.isTop then ev else last) evs

/-- A tape without the tops that say the same as the one before them. -/
def withoutRepeats : Event → List Event → List Event
  | _, [] => []
  | last, ev :: evs =>
      if ev.isTop then if ev = last then withoutRepeats last evs else ev :: withoutRepeats ev evs
      else ev :: withoutRepeats last evs

theorem lastTop_append (last : Event) (evs evs' : List Event) :
    lastTop last (evs ++ evs') = lastTop (lastTop last evs) evs' := by
  induction evs generalizing last with
  | nil => rfl
  | cons ev evs ih => exact ih _

theorem withoutRepeats_append (last : Event) (evs evs' : List Event) :
    withoutRepeats last (evs ++ evs') =
      withoutRepeats last evs ++ withoutRepeats (lastTop last evs) evs' := by
  induction evs generalizing last with
  | nil => rfl
  | cons ev evs ih =>
      simp only [List.cons_append, withoutRepeats, lastTop, ih]
      split_ifs with htop hsame
      · rw [hsame]
      · rfl
      · rfl

theorem lastTop_of_not_top {evs : List Event} (h : ∀ ev ∈ evs, ev.isTop = false) (last : Event) :
    lastTop last evs = last := by
  induction evs with
  | nil => rfl
  | cons ev evs ih =>
      rw [lastTop, h ev (by simp)]
      exact ih fun ev' hev' => h ev' (by simp [hev'])

theorem withoutRepeats_of_not_top {evs : List Event} (h : ∀ ev ∈ evs, ev.isTop = false)
    (last : Event) : withoutRepeats last evs = evs := by
  induction evs with
  | nil => rfl
  | cons ev evs ih =>
      rw [withoutRepeats, h ev (by simp), ih fun ev' hev' => h ev' (by simp [hev'])]
      rfl

theorem Top.news_injective : Function.Injective Top.news := by
  rintro ⟨bp, ap, bq, aq⟩ ⟨bp', ap', bq', aq'⟩ h
  simpa [Top.news] using h

namespace Market

variable {R : Rules} {M M' : Market} {day day' : Day} {cmd : Command}

theorem submit_not_top (m : SubmitMsg) : ∀ ev ∈ (M.submit R m).2, ev.isTop = false := by
  intro ev hev
  rcases List.mem_append.mp hev with hev | hev
  · obtain ⟨ev, hmem, rfl⟩ := List.mem_map.mp hev
    rw [Event.isTop_unstamped]
    exact isTop_notices m 0 _ ev hmem
  · generalize (M.matched m _).remainder R m _ = r at hev
    cases r with
    | rejected qty =>
        rw [List.mem_singleton.mp hev]
        rfl
    | gone => simp [Remainder.news] at hev
    | rests qty => simp [Remainder.news] at hev

/-- The news of a command say nothing of the top. -/
theorem step_not_top (cmd : Command) : ∀ ev ∈ (M.step R cmd).2, ev.isTop = false := by
  cases cmd with
  | submit m => exact submit_not_top m
  | cancel m => simp [step]
  | modify m =>
      simp only [step, modify]
      cases M.find R m.id with
      | none => simp
      | some o =>
          by_cases hpx : m.newPx = o.px
          · simp [hpx]
          · simp only [if_neg hpx]
            exact submit_not_top _

/-- The top is a matter of the resting quantities. -/
theorem top_congr (h : ∀ s, ∀ p < R.ticks, M'.quantities s p = M.quantities s p) :
    M'.top R = M.top R := by
  have hbest : M'.best R = M.best R := by
    funext s
    unfold best
    rw [← List.head?_filter, ← List.head?_filter]
    refine congrArg List.head? (List.filter_congr fun p hp => ?_)
    have hpx : p < R.ticks := by cases s <;> simpa [Side.priority] using hp
    have hlen := congrArg List.length (h s p hpx)
    simp only [quantities, List.length_map] at hlen
    rw [Bool.eq_iff_iff]
    simp only [Bool.not_eq_true', List.isEmpty_eq_false_iff, ne_eq, ← List.length_eq_zero_iff, hlen]
  have hagg (s : Side) : (M.best R s).elim 0 (M'.aggregate s) =
      (M.best R s).elim 0 (M.aggregate s) := by
    cases hs : M.best R s with
    | none => rfl
    | some p =>
        have hmem := List.mem_of_find?_eq_some hs
        have hpx : p < R.ticks := by cases s <;> simpa [Side.priority] using hmem
        exact congrArg List.sum (h s p hpx)
  simp only [top, Top.of, hbest, hagg]

theorem top_empty (R : Rules) : top R (fun _ _ => []) = ⟨0, 0, 0, 0⟩ := by
  have hbest (s : Side) : best R (fun _ _ => []) s = none := by simp [best]
  simp [top, Top.of, hbest]

/-- `day` has brought what `day'` has, each top once. -/
structure Quieter (R : Rules) (day day' : Day) : Prop where
  market : day.1 = day'.1
  news : day.2 = withoutRepeats (Top.news ⟨0, 0, 0, 0⟩) day'.2
  told : lastTop (Top.news ⟨0, 0, 0, 0⟩) day'.2 = (day'.1.top R).news

/-- The tops of one command, throttled and not. -/
theorem tops_quieter (R : Rules) (M M' : Market) :
    (if M.due { R with topThrottle := true } M' then [(M'.top R).news] else []) =
        withoutRepeats (M.top R).news
          (if M.due { R with topThrottle := false } M' then [(M'.top R).news] else []) ∧
      lastTop (M.top R).news
          (if M.due { R with topThrottle := false } M' then [(M'.top R).news] else []) =
        (M'.top R).news := by
  have hon : M.due { R with topThrottle := true } M' = decide (M'.top R ≠ M.top R) := rfl
  have hoff : M.due { R with topThrottle := false } M' =
      decide (∃ s, ∃ p < R.ticks, M'.quantities s p ≠ M.quantities s p) := rfl
  rw [hon, hoff]
  by_cases hmoved : ∃ s, ∃ p < R.ticks, M'.quantities s p ≠ M.quantities s p
  · have htop : (M'.top R).news.isTop = true := rfl
    simp only [hmoved, decide_true, if_true, withoutRepeats, lastTop, htop,
      Top.news_injective.eq_iff]
    simp
  · have htop : M'.top R = M.top R := by
      push Not at hmoved
      exact top_congr hmoved
    simp only [hmoved, htop]
    simp [withoutRepeats, lastTop]

theorem Quieter.next (h : Quieter R day day') (cmd : Command) :
    Quieter R (day.next { R with topThrottle := true } cmd)
      (day'.next { R with topThrottle := false } cmd) := by
  obtain ⟨M, tape⟩ := day
  obtain ⟨M', tape'⟩ := day'
  obtain ⟨hmarket, hnews, htold⟩ := h
  obtain rfl : M = M' := hmarket
  obtain ⟨htops, hlast⟩ := tops_quieter R M (M.step R cmd).1
  refine ⟨rfl, ?_, ?_⟩
  · change tape ++ ((M.step R cmd).2 ++
      if M.due { R with topThrottle := true } (M.step R cmd).1 then
        [((M.step R cmd).1.top R).news] else []) =
      withoutRepeats _ (tape' ++ ((M.step R cmd).2 ++ _))
    rw [withoutRepeats_append, withoutRepeats_append, ← hnews, htold,
      withoutRepeats_of_not_top (step_not_top cmd), lastTop_of_not_top (step_not_top cmd), htops]
    rfl
  · change lastTop _ (tape' ++ ((M.step R cmd).2 ++ _)) = _
    rw [lastTop_append, lastTop_append, htold, lastTop_of_not_top (step_not_top cmd)]
    exact hlast

end Market

namespace Engine

variable {ticks maxOrders : ℕ}

/-- The throttle costs nothing but repeats. On every history in the documented domains that reuses
no resting id, an engine with the throttle and one without it hold the same books, and the tape of
the first is the tape of the second, renumbered, without the tops that repeat the one before. -/
theorem throttle_drops_repeats (cfg : EngineConfig) (mem mem' : Memory) (hc : 0 < maxOrders)
    (ht : ticks ≤ 64 ^ 4) (hcap : maxOrders * cfg.maxOrderQty.toNat < 2 ^ 64)
    (cmds : List Command) (hdom : ∀ cmd ∈ cmds, cmd.InDomain ticks cfg.maxOrderQty)
    (hfresh : Along apply Fresh
      (new [] { cfg with topThrottle := true } mem : Engine (List Event) ticks maxOrders .byId)
      cmds) :
    let e : Engine (List Event) ticks maxOrders .byId :=
      play [] { cfg with topThrottle := true } mem cmds
    let e' : Engine (List Event) ticks maxOrders .byId :=
      play [] { cfg with topThrottle := false } mem' cmds
    e.recordsAt = e'.recordsAt ∧ e.pub = stampAll cfg.seqBase
      (withoutRepeats (.top ⟨0, 0, 0, 0, 0⟩) (e'.pub.map Event.unstamped)) := by
  intro e e'
  let R := rulesOf cfg ticks maxOrders
  have hok : Market.Permitted { R with topThrottle := true } cfg.maxOrderQty cmds :=
    permitted { cfg with topThrottle := true } mem hc ht hcap hdom hfresh
  have hstart : Market.Quieter R (fun _ _ => [], []) (fun _ _ => [], []) := by
    refine ⟨rfl, rfl, ?_⟩
    rw [Market.top_empty]
    rfl
  have hquiet : Market.Quieter R (Market.play { R with topThrottle := true } cmds)
      (Market.play { R with topThrottle := false } cmds) :=
    hok.lockstep (Market.Quieter R) (fun day day' cmd h _ => h.next cmd) hstart
  have hok' : Market.Permitted { R with topThrottle := false } cfg.maxOrderQty cmds := by
    refine hok.transport (Market.Quieter R) (fun day day' cmd h hcmd => ⟨h.next cmd, hcmd.1, ?_⟩)
      hstart
    rw [← h.market]
    exact hcmd.2
  obtain ⟨hbook, htape⟩ := play_market { cfg with topThrottle := true } mem hc ht hcap hok
  have hshows := play_shows { cfg with topThrottle := false } mem' hc ht hcap hok'
  refine ⟨?_, ?_⟩
  · rw [hbook, hshows.records]
    exact hquiet.market
  · rw [htape, hshows.published]
    exact congrArg (stampAll cfg.seqBase) hquiet.news

/-- Behind a better bid, a bid changes a quantity and not the top. -/
theorem throttle_drops_repeats_behind :
    let cmds : List Command := [.submit ⟨1, 3, 5, .bid, .gtc, 0⟩, .submit ⟨2, 2, 5, .bid, .gtc, 0⟩]
    let e : Engine (List Event) 8 4 .byId := play [] {} .zeroed cmds
    let e' : Engine (List Event) 8 4 .byId := play [] { topThrottle := false } .zeroed cmds
    e'.pub = [.top ⟨3, 0, 5, 0, 1⟩, .top ⟨3, 0, 5, 0, 2⟩] ∧ e.pub = [.top ⟨3, 0, 5, 0, 1⟩] ∧
      e.recordsAt = e'.recordsAt := by
  have h := throttle_drops_repeats {} .zeroed .zeroed (by decide) (by decide) (by decide)
    [.submit ⟨1, 3, 5, .bid, .gtc, 0⟩, .submit ⟨2, 2, 5, .bid, .gtc, 0⟩] (by decide)
    (by decide : Along apply Fresh (new [] {} .zeroed : Engine (List Event) 8 4 .byId) _)
  exact ⟨by decide, by decide, h.1⟩

end Engine
end Orderbooks
