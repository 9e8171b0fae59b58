import Orderbooks.FillOrKill

/-!
# A full arena

A submission is turned away when it has something to rest and no slot is left. Whatever it
removes from the book frees a slot, so this only happens to a submission that met no maker at
all: it is turned away whole. A modify that crosses frees the slot of the order it replaces.
-/
namespace Orderbooks
open Loop Queues Runs

def Event.isReject : Event → Bool
  | .reject _ => true
  | _ => false

theorem isReject_notices (m : SubmitMsg) (seq : UInt64) (fates : List (Order × Fate)) :
    ∀ ev ∈ notices m seq fates, ev.isReject = false := by
  induction fates generalizing seq with
  | nil => simp [notices]
  | cons a fates ih =>
      obtain ⟨o, fate⟩ := a
      cases fate with
      | kept => exact ih seq
      | expired => exact ih seq
      | filled qty => simpa [notices, Event.isReject] using ih (seq + 1)
      | selfTraded qty => simpa [notices, Event.isReject] using ih (seq + 1)

theorem Queues.Worn.live_le {ticks : ℕ} {opp : Side} {d d' : Queues ticks} (h : Worn opp d d') :
    d'.live ≤ d.live := by
  induction h with
  | refl => exact le_refl _
  | decrement _ _ _ _ _ ih => exact ih
  | drop _ _ _ ih => exact (Nat.sub_le _ _).trans ih

namespace PriorityBook

variable {ticks : ℕ} {b : PriorityBook ticks} {m : SubmitMsg} {rem : UInt64}

/-- A match that leaves something to rest has freed a slot, or met nobody. -/
theorem sweep_live (hd : b.queues.WellFormed) (hcount : b.queues.Counted b.capacity)
    (hleft : (sweep m b rem).remaining ≠ 0) :
    (sweep m b rem).book.queues.live < b.queues.live ∨ Halted m b rem := by
  by_cases hhalt : Halted m b rem
  · exact .inr hhalt
  obtain ⟨hrem, p, u, q, hbest, hcross, hq⟩ := exists_maker hhalt
  have hlinked : b.queues.Linked u := hd.linked (hq ▸ List.mem_cons_self)
  have hpos : 0 < b.queues.live := by
    rw [hcount.live, count_unlink hd hlinked]
    exact Nat.succ_pos _
  rw [sweep_strike hd hrem hbest hcross hq] at hleft ⊢
  cases ha : (strike m p u b rem).aborted with
  | true =>
      rw [ha, if_pos rfl] at hleft
      exact absurd (strike_remaining_of_aborted ha) hleft
  | false =>
      rw [ha] at hleft
      simp only [Bool.false_eq_true, if_false] at hleft ⊢
      have hwf := strike_wellFormed m p u rem hd
      have hmore : (strike m p u b rem).remaining ≠ 0 := by
        intro hz
        rw [hz, sweep, sweepFrom_zero] at hleft
        exact hleft rfl
      have hless := strike_live ha hmore
      have hworn := (sweep_effect m (strike m p u b rem).remaining hwf).1.live_le
      exact .inl (by omega)

/-- A submission is turned away only where it met nobody and no slot was left. -/
theorem onSubmit_rejects (hd : b.queues.WellFormed) (hcount : b.queues.Counted b.capacity) :
    Adds (·.isReject = false) b (b.onSubmit m) ∨
      b.capacity ≤ b.queues.live ∧ Halted m b m.qty ∧ m.t = .gtc ∧ m.qty ≠ 0 := by
  have htop : ∀ top, Event.isReject (.top top) = false := fun _ => rfl
  have hswept : Adds (·.isReject = false) b (sweep m b m.qty).book :=
    ⟨_, (sweep_settledBy hd m.qty).log, isReject_notices m _ _⟩
  have hkept (h : Adds (·.isReject = false) b (b.handleSubmit m)) :
      Adds (·.isReject = false) b (b.onSubmit m) := h.publishTop htop
  unfold handleSubmit at hkept
  by_cases hkill : m.t = .fok ∧ !b.canFullyFill m.s.opposite m.px m.qty m.accountId
  · rw [if_pos hkill] at hkept
    exact .inl (hkept (.of_log_eq rfl))
  rw [if_neg hkill] at hkept
  by_cases hz : (sweep m b m.qty).remaining = 0
  · simp only [hz, if_true] at hkept
    exact .inl (hkept hswept)
  simp only [hz, if_false] at hkept
  cases ht : m.t with
  | ioc =>
      rw [ht] at hkept
      exact .inl (hkept hswept)
  | fok =>
      rw [ht] at hkept
      exact .inl (hkept hswept)
  | gtc =>
      rw [ht] at hkept
      have hcap := (sweep_effect m m.qty hd).2.2.1
      by_cases hroom : b.capacity ≤ (sweep m b m.qty).book.queues.live
      · rcases sweep_live hd hcount hz with hless | hhalt
        · have := hcount.le
          omega
        · rw [sweep_stop hd hhalt] at hroom hz
          exact .inr ⟨hroom, hhalt, rfl, hz⟩
      · refine .inl (hkept (hswept.trans (.of_log_eq ?_)))
        unfold rest
        rw [hcap, if_neg hroom]
        rfl

/-- With a slot left nothing is turned away. -/
theorem onSubmit_accepts (hd : b.queues.WellFormed) (hcount : b.queues.Counted b.capacity)
    (hroom : b.queues.live < b.capacity) : Adds (·.isReject = false) b (b.onSubmit m) :=
  (onSubmit_rejects hd hcount).resolve_right fun h => by omega

/-- A crossing modify has the slot of the order it replaces. -/
theorem applyAt_rejects {target : Option ℕ} (cmd : Command) (hd : b.queues.WellFormed)
    (hcount : b.queues.Counted b.capacity) (hu : ∀ u, target = some u → b.queues.Linked u) :
    Adds (·.isReject = false) b (b.applyAt target cmd) ∨
      ∃ m, cmd = .submit m ∧ b.capacity ≤ b.queues.live ∧ Halted m b m.qty ∧ m.t = .gtc ∧
        m.qty ≠ 0 := by
  have htop : ∀ top, Event.isReject (.top top) = false := fun _ => rfl
  have hmodify : ∀ u m, target = some u → cmd = .modify m →
      Adds (·.isReject = false) ((b.onQueues (·.chained u m)).suppress.cancelAt u)
        (((b.onQueues (·.chained u m)).suppress.cancelAt u).onSubmit
          ((b.queues.chained u m).asSubmit u m.newPx m.newQty)) := by
    rintro u m htarget rfl
    have hlink : (b.queues.chained u m).Linked u := (linked_chained m).mpr (hu u htarget)
    have hwf := hd.chained (hu u htarget) m
    have hcount' := hcount.chained u m
    have hqueues : ((b.onQueues (·.chained u m)).suppress.cancelAt u).queues =
        (b.queues.chained u m).drop u := cancelAt_queues ..
    have hcap : ((b.onQueues (·.chained u m)).suppress.cancelAt u).capacity = b.capacity :=
      cancelAt_capacity ..
    have hpos : 0 < (b.queues.chained u m).live := by
      rw [hcount'.live, count_unlink hwf hlink]
      exact Nat.succ_pos _
    refine onSubmit_accepts (hqueues ▸ hwf.drop u) ?_ ?_
    · rw [hqueues, hcap]
      exact hcount'.drop hwf hlink
    · rw [hqueues, hcap]
      change (b.queues.chained u m).live - 1 < b.capacity
      have := hcount'.le
      omega
  by_cases hsubmit : ∀ m, cmd = .submit m → Adds (·.isReject = false) b (b.onSubmit m)
  · exact .inl (applyAt_adds htop hsubmit hmodify)
  · obtain ⟨m, hm⟩ := not_forall.mp hsubmit
    obtain ⟨rfl, hnot⟩ := Classical.not_imp.mp hm
    exact .inr ⟨m, rfl, (onSubmit_rejects hd hcount).resolve_left hnot⟩

end PriorityBook

namespace Engine

variable {P : Type} [Publisher P] {ticks maxOrders : ℕ} {lookup : OrderLookup} {p0 : P}
  {e : Engine P ticks maxOrders lookup} {b : PriorityBook ticks} {m : SubmitMsg}

theorem Refines.matchAgainstOpposite_halted (h : e.Refines p0 b)
    (hhalt : PriorityBook.Halted m b m.qty) : matchAgainstOpposite m e = ⟨e, m.qty, false⟩ := by
  have hturn : levelTurn m ⟨e, m.qty, false⟩ = .done ⟨e, m.qty, false⟩ := by
    unfold levelTurn
    dsimp only
    rw [h.best_eq]
    rcases hhalt with hz | hnone | ⟨p, hbest, hcross⟩
    · rw [if_pos hz]
    · rw [hnone, ite_self]
    · simp [hbest, hcross]
  exact run_done hturn _

/-- A submission that meets nobody and finds no slot only says so. -/
theorem Refines.onSubmit_full (h : e.Refines p0 b) (hq : b.Quiet) (hc : 0 < maxOrders)
    (hfull : b.capacity ≤ b.queues.live) (hhalt : PriorityBook.Halted m b m.qty)
    (hgtc : m.t = .gtc) (hqty : m.qty ≠ 0) :
    e.onSubmit m = ({}, e.bumpSeq.publish
      (.reject ⟨m.id, m.accountId, m.px, m.qty, .arenaFull, e.state.seq + 1⟩)) := by
  obtain ⟨hd, tag, hrep⟩ := id h
  have halloc : e.book.arena.allocate = (none, e.book.arena) := by
    rcases hrep.allocate_cases hc with ⟨-, halloc⟩ | ⟨hroom, -⟩
    · exact halloc
    · exact absurd hfull hroom
  have hclean : e.state.topDirty = false := by
    rw [hrep.state]
    exact hq.clean
  unfold onSubmit handleSubmit
  rw [h.matchAgainstOpposite_halted hhalt]
  simp only [hgtc, reduceCtorEq, false_and, if_false, hqty]
  unfold rest
  rw [halloc]
  unfold publishTopIfChanged HotState.publishTopIfChanged
  simp [publish, bumpSeq, setArena, hclean]

theorem Refines.held_of_full (h : e.Refines p0 b) (hfull : b.capacity ≤ b.queues.live) :
    e.book.arena.inUse = maxOrders ∧ ∀ x < maxOrders, e.book.Held x := by
  obtain ⟨_, tag, hrep⟩ := id h
  obtain ⟨free, hfree, hheld⟩ := hrep.book.free
  have hcount := hfree.pool.count
  have huse : maxOrders ≤ e.book.arena.inUse := by
    rw [hrep.book.live, ← h.capacity]
    exact hfull
  have hnil : free = [] := List.eq_nil_of_length_eq_zero (by omega)
  subst hnil
  refine ⟨by simpa using hcount, fun x hx => (hheld x).mpr ⟨hx, List.not_mem_nil⟩⟩

/-- A reject is the whole of what a submission to a full arena publishes and does; no other
command publishes one. -/
theorem play_reject (cfg : EngineConfig) (mem : Memory) (hc : 0 < maxOrders) (ht : ticks ≤ 64 ^ 4)
    (cmds : List Command) (cmd : Command) (hcmds : ∀ c ∈ cmds, c.InRange ticks)
    (hcmd : cmd.InRange ticks) :
    let e : Engine (List Event) ticks maxOrders lookup := play [] cfg mem cmds
    ∃ evs, (e.apply cmd).pub = e.pub ++ evs ∧ ∀ r, .reject r ∈ evs →
      ∃ m, cmd = .submit m ∧ e.book.arena.inUse = maxOrders ∧ (∀ x < maxOrders, e.book.Held x) ∧
        r.qty = m.qty ∧ evs = [.reject r] ∧
        e.apply cmd = { e with
          pub := e.pub ++ [.reject r]
          state := { e.state with seq := e.state.seq + 1 } } := by
  intro e
  have hnew : (new [] cfg mem : Engine (List Event) ticks maxOrders lookup).Refines []
      (PriorityBook.new cfg maxOrders) := new_refines [] cfg mem hc
  obtain ⟨b, h, hq, hcount⟩ := hnew.run
    (fun _ cmd => cmd.InRange ticks) (fun b => b.Quiet ∧ b.queues.Counted maxOrders) hc ht
    (fun _ _ h => h)
    (fun e b cmd target h hI hr hreach =>
      have ⟨hu, heffect⟩ := h.effect hreach
      ⟨(hI.1.applyAt h.1 hu hr).quiet, hI.2.effect h.1 hu hr heffect⟩)
    ⟨.new cfg maxOrders, .empty⟩ (along_of_forall hcmds)
  change e.Refines [] b at h
  obtain ⟨target, hreach, h'⟩ := h.apply hc ht hcmd
  rcases PriorityBook.applyAt_rejects cmd h.1 (h.capacity.symm ▸ hcount) (h.effect hreach).1 with
    ⟨evs, hlog, hnone⟩ | ⟨m, rfl, hfull, hhalt, hgtc, hqty⟩
  · refine ⟨evs, ?_, fun r hr => Bool.noConfusion (hnone _ hr)⟩
    rw [h'.pub_eq, h.pub_eq, hlog, List.append_assoc]
  · have hrun : e.apply (.submit m) = e.bumpSeq.publish
        (.reject ⟨m.id, m.accountId, m.px, m.qty, .arenaFull, e.state.seq + 1⟩) :=
      congrArg Prod.snd (h.onSubmit_full hq hc hfull hhalt hgtc hqty)
    have ⟨huse, hheld⟩ := h.held_of_full hfull
    refine ⟨_, congrArg Engine.pub hrun, fun r hr => ⟨m, rfl, huse, hheld, ?_⟩⟩
    obtain rfl := Event.reject.inj (List.mem_singleton.mp hr)
    exact ⟨rfl, rfl, hrun⟩

/-- The one slot is taken by a bid, and a second bid is turned away. -/
theorem play_reject_one_slot :
    let e : Engine (List Event) 2 1 .byId := play [] {} .zeroed [.submit ⟨1, 0, 5, .bid, .gtc, 0⟩]
    let rej : RejectMsg := ⟨2, 0, 1, 9, .arenaFull, 2⟩
    (e.apply (.submit ⟨2, 1, 9, .bid, .gtc, 0⟩)).pub = e.pub ++ [.reject rej] ∧
    ∃ evs, (e.apply (.submit ⟨2, 1, 9, .bid, .gtc, 0⟩)).pub = e.pub ++ evs ∧
      ∀ r, .reject r ∈ evs →
      ∃ m, Command.submit ⟨2, 1, 9, .bid, .gtc, 0⟩ = .submit m ∧ e.book.arena.inUse = 1 ∧
        (∀ x < 1, e.book.Held x) ∧ r.qty = m.qty ∧ evs = [.reject r] ∧
        e.apply (.submit ⟨2, 1, 9, .bid, .gtc, 0⟩) = { e with
          pub := e.pub ++ [.reject r]
          state := { e.state with seq := e.state.seq + 1 } } :=
  ⟨by decide +kernel,
    play_reject {} .zeroed (by decide) (by decide) _ _ (by decide) (by decide)⟩

end Engine

end Orderbooks
