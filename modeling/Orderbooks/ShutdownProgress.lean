import Mathlib.Data.Fin.VecNotation
import Orderbooks.EgressPipeline
import Orderbooks.Lib.Fairness

/-!
# The shutdown comes to its end

`stop()` of a `shard_egress_runtime` and then `stop()` of the `egress_merger` on its rings, each a
request that is followed by a join. The producer has stopped feeding. Workers, merger and
controller take turns in an order none of them controls, as long as each gets another turn at any
point; a turn of a worker or of the merger may claim any number of elements that are there.

The workers never wait for the merger, as a full ring makes them drop events. So every worker runs
its ring dry and leaves, the merger then runs the egress rings dry and leaves, and both calls
return.
-/
namespace Orderbooks
open Runs Fairness

inductive ControllerPc where
  | stopping
  | joining
  | stoppingMerger
  | joiningMerger
  | returned
  deriving DecidableEq, Repr

inductive ShutdownParty (numShards : ℕ) where
  | worker (i : Fin numShards)
  | merger
  | controller
  deriving DecidableEq, Repr

/-- A turn of a party, where `n` is how much it would like to claim. -/
inductive ShutdownTurn (numShards : ℕ) where
  | worker (i : Fin numShards) (n : ℕ)
  | merger (n : ℕ)
  | controller
  deriving DecidableEq, Repr

def ShutdownTurn.party {numShards : ℕ} : ShutdownTurn numShards → ShutdownParty numShards
  | .worker i _ => .worker i
  | .merger _ => .merger
  | .controller => .controller

structure Shutdown (ticks maxOrders numShards ingressCapacity egressCapacity batchMax : ℕ) where
  pipe : EgressPipeline ticks maxOrders numShards ingressCapacity egressCapacity batchMax
  pc : ControllerPc := .stopping

namespace EgressPipeline

variable {ticks maxOrders numShards ingressCapacity egressCapacity batchMax : ℕ}

/-- The next action of the worker of a shard. -/
def workerAction
    (s : EgressPipeline ticks maxOrders numShards ingressCapacity egressCapacity batchMax)
    (i n : ℕ) : Action :=
  if s.told i < (s.tape i).length then .publish i
  else .runtime (.work i (Channel.claim workerBatch (s.runtime.shards i).ingress n))

/-- The next action of the merger. -/
def mergerAction
    (s : EgressPipeline ticks maxOrders numShards ingressCapacity egressCapacity batchMax)
    (n : ℕ) : Action :=
  match s.merger.pc with
  | .polling _ j _ => .merge (Channel.claim (claimMax batchMax) (s.merger.pubs j).egress n)
  | _ => .merge n

end EgressPipeline

/-- The action of a controller in a call, where there is one. -/
def ControllerPc.action : ControllerPc → Option EgressPipeline.Action
  | .stopping => some (.runtime .requestStop)
  | .joining => some (.runtime .join)
  | .stoppingMerger => some .stopMerger
  | .joiningMerger => some .joinMerger
  | .returned => none

def ControllerPc.next : ControllerPc → ControllerPc
  | .stopping => .joining
  | .joining => .stoppingMerger
  | .stoppingMerger => .joiningMerger
  | .joiningMerger => .returned
  | .returned => .returned

namespace Shutdown

variable {ticks maxOrders numShards ingressCapacity egressCapacity batchMax : ℕ}

/-- A party whose action cannot be taken yet waits. -/
def turn (s : Shutdown ticks maxOrders numShards ingressCapacity egressCapacity batchMax) :
    ShutdownTurn numShards →
      Shutdown ticks maxOrders numShards ingressCapacity egressCapacity batchMax
  | .worker i n => { s with pipe := (s.pipe.step (s.pipe.workerAction i n)).getD s.pipe }
  | .merger n => { s with pipe := (s.pipe.step (s.pipe.mergerAction n)).getD s.pipe }
  | .controller =>
      match s.pc.action.bind s.pipe.step with
      | none => s
      | some p => ⟨p, s.pc.next⟩

end Shutdown

/-! ## What a worker has ahead of it -/

/-- How far a worker that is asked to stop is from leaving, while it applies nothing. -/
def WorkerPc.ahead : WorkerPc → ℕ
  | .off => 0
  | .exited => 0
  | .leaving _ => 1
  | .polling (.closing _) => 2
  | .applying (.closing _) k n => if k < n then 0 else 3
  | .checking => 4
  | .polling .serving => 5
  | .counting _ => 6
  | .applying .serving k n => if k < n then 0 else 7

namespace Shard

variable {ticks maxOrders : ℕ}

/-- The commands in the ring that are not applied yet. -/
def unapplied (sh : Shard ticks maxOrders) : ℕ := sh.ingress.length - sh.pc.inHand

/-- After a stop request every turn of a worker applies a command or brings it nearer to leaving. -/
theorem work_ahead {sh : Shard ticks maxOrders}
    (hclaim : ∀ phase k n, sh.pc = .applying phase k n → k ≤ n ∧ n ≤ sh.ingress.length)
    (hoff : sh.pc ≠ .off) (hexit : sh.pc ≠ .exited) (n : ℕ) :
    ∃ sh', sh.work true (Channel.claim workerBatch sh.ingress n) = some sh' ∧
      (sh'.unapplied < sh.unapplied ∨ sh'.unapplied = sh.unapplied ∧
        sh'.engine = sh.engine ∧ sh'.pc.ahead < sh.pc.ahead) := by
  unfold work
  cases hpc : sh.pc with
  | off => exact absurd hpc hoff
  | exited => exact absurd hpc hexit
  | polling phase =>
      simp only [Channel.claims_claim, not_true_eq_false, if_false]
      by_cases hzero : Channel.claim workerBatch sh.ingress n = 0
      · simp only [hzero, if_true]
        cases phase with
        | serving =>
            exact ⟨_, rfl, .inr ⟨by simp [unapplied, hpc, WorkerPc.inHand], rfl,
              by simp [WorkerPc.ahead]⟩⟩
        | closing m =>
            exact ⟨_, rfl, .inr ⟨by simp [unapplied, hpc, WorkerPc.inHand], rfl,
              by simp [WorkerPc.ahead]⟩⟩
      · simp only [hzero, if_false]
        refine ⟨_, rfl, .inr ⟨by simp [unapplied, hpc, WorkerPc.inHand], rfl, ?_⟩⟩
        cases phase <;> simp [WorkerPc.ahead, Nat.pos_of_ne_zero hzero]
  | applying phase k n' =>
      obtain ⟨hk, hn⟩ := hclaim phase k n' hpc
      by_cases hlt : k < n'
      · have hget : sh.ingress[k]? = some sh.ingress[k] := List.getElem?_eq_getElem (by omega)
        simp only [if_pos hlt, hget, Option.map_some]
        refine ⟨_, rfl, .inl ?_⟩
        simp only [unapplied, hpc, WorkerPc.inHand]
        omega
      · simp only [if_neg hlt]
        cases phase with
        | serving =>
            refine ⟨_, rfl, .inr ⟨?_, rfl, by simp [WorkerPc.ahead, hlt]⟩⟩
            simp only [unapplied, hpc, WorkerPc.inHand, List.length_drop]
            omega
        | closing m =>
            refine ⟨_, rfl, .inr ⟨?_, rfl, by simp [WorkerPc.ahead, hlt]⟩⟩
            simp only [unapplied, hpc, WorkerPc.inHand, List.length_drop]
            omega
  | counting n' =>
      exact ⟨_, rfl, .inr ⟨by simp [unapplied, hpc, WorkerPc.inHand], rfl,
        by simp [WorkerPc.ahead]⟩⟩
  | checking =>
      exact ⟨_, rfl, .inr ⟨by simp [unapplied, hpc, WorkerPc.inHand], rfl,
        by simp [WorkerPc.ahead]⟩⟩
  | leaving m =>
      by_cases hm : 0 < m
      · simp only [if_pos hm]
        exact ⟨_, rfl, .inr ⟨by simp [unapplied, hpc, WorkerPc.inHand], rfl,
          by simp [WorkerPc.ahead]⟩⟩
      · simp only [if_neg hm]
        exact ⟨_, rfl, .inr ⟨by simp [unapplied, hpc, WorkerPc.inHand], rfl,
          by simp [WorkerPc.ahead]⟩⟩

end Shard
/-! ## The stages of a shutdown -/

theorem Shard.Move.ne_off {ticks maxOrders : ℕ} {sh sh' : Shard ticks maxOrders} {stop : Bool}
    (hm : Shard.Move stop sh sh') : sh'.pc ≠ .off := by
  cases hm <;> simp

namespace ShardRuntime

variable {ticks maxOrders numShards ringCapacity : ℕ}
  {s s' : ShardRuntime ticks maxOrders numShards ringCapacity}

/-- There is a worker for every shard. -/
def Manned (s : ShardRuntime ticks maxOrders numShards ringCapacity) : Prop :=
  s.running = true ∧ ∀ i < numShards, (s.shards i).pc ≠ .off

theorem Manned.work (h : s.Manned) {j n : ℕ} (hstep : s.step (.work j n) = some s') :
    s'.Manned ∧ s'.stop = s.stop := by
  have hmove := (step_work hstep).2
  obtain ⟨-, hw⟩ := Option.ite_none_right_eq_some.mp hstep
  obtain ⟨sh, -, rfl⟩ := Option.map_eq_some_iff.mp hw
  refine ⟨⟨h.1, fun i hi => ?_⟩, rfl⟩
  by_cases hij : i = j
  · subst hij
    exact hmove.ne_off
  · simpa [setShard, hij] using h.2 i hi

/-- A runtime that runs has all its workers. -/
theorem manned_step (h : s.running = true → s.Manned) {a : Action} (hstep : s.step a = some s') :
    s'.running = true → s'.Manned := by
  cases a with
  | tryPush c =>
      obtain ⟨-, ⟨⟩⟩ := Option.ite_none_right_eq_some.mp hstep
      unfold ShardRuntime.tryPush
      dsimp only
      cases hpush : (s.shards (shardIndex c.sym numShards)).tryPush ringCapacity c.cmd with
      | none => exact h
      | some sh =>
          intro hrun
          obtain ⟨q, -, rfl⟩ := Option.map_eq_some_iff.mp hpush
          refine ⟨hrun, fun i hi => ?_⟩
          by_cases hidx : i = shardIndex c.sym numShards
          · subst hidx
            simpa [setShard] using (h hrun).2 _ hi
          · simpa [setShard, hidx] using (h hrun).2 i hi
  | drain | drainReturn =>
      obtain ⟨-, ⟨⟩⟩ := Option.ite_none_right_eq_some.mp hstep
      exact h
  | drainLoad =>
      unfold ShardRuntime.step at hstep
      cases hprod : s.producer with
      | ready => simp [hprod] at hstep
      | draining j =>
          simp only [hprod] at hstep
          split_ifs at hstep with hj heq
          · exact Option.some.inj hstep ▸ h
          · exact Option.some.inj hstep ▸ h
  | start =>
      obtain ⟨-, ⟨⟩⟩ := Option.ite_none_left_eq_some.mp hstep
      refine fun _ => ⟨rfl, fun i hi => ?_⟩
      simp [hi, Shard.spawn]
  | requestStop =>
      obtain ⟨-, ⟨⟩⟩ := Option.ite_none_right_eq_some.mp hstep
      exact h
  | join =>
      obtain ⟨-, ⟨⟩⟩ := Option.ite_none_right_eq_some.mp hstep
      intro hrun
      cases hrun
  | work i n =>
      intro hrun
      have hrunning : s'.running = s.running := by
        obtain ⟨-, hw⟩ := Option.ite_none_right_eq_some.mp hstep
        obtain ⟨sh, -, rfl⟩ := Option.map_eq_some_iff.mp hw
        rfl
      exact ((h (hrunning ▸ hrun)).work hstep).1

end ShardRuntime

namespace EgressPipeline

variable {ticks maxOrders numShards ingressCapacity egressCapacity batchMax : ℕ}
  {cfg : EngineConfig} {mem : ℕ → Memory}
  {s s' : EgressPipeline ticks maxOrders numShards ingressCapacity egressCapacity batchMax}

/-- The merger runs and nobody has asked it to stop. -/
def Merging (s : EgressPipeline ticks maxOrders numShards ingressCapacity egressCapacity batchMax) :
    Prop :=
  s.merger.pc ≠ .off ∧ s.merger.stop = false

/-- What holds while the controller is at a point of the shutdown. -/
def Stage : ControllerPc →
    EgressPipeline ticks maxOrders numShards ingressCapacity egressCapacity batchMax → Prop
  | .stopping, s => s.runtime.Manned ∧ s.runtime.stop = false ∧ s.Merging
  | .joining, s => s.runtime.Manned ∧ s.runtime.stop = true ∧ s.runtime.LeftSettled ∧ s.Merging
  | .stoppingMerger, s => s.runtime.Quiet ∧ s.Merging
  | .joiningMerger, s =>
      s.runtime.Quiet ∧ s.merger.pc ≠ .off ∧ s.merger.stop = true ∧ s.merger.PassedEmpty
  | .returned, s =>
      s.runtime.Quiet ∧ s.merger.pc = .off ∧ ∀ i < numShards, (s.merger.pubs i).egress = []

/-- Actions of the workers and of the merger. -/
inductive Inner : Action → Prop
  | work (i n : ℕ) : Inner (.runtime (.work i n))
  | publish (i : ℕ) : Inner (.publish i)
  | merge (n : ℕ) : Inner (.merge n)

theorem Inner.not_feeds {a : Action} (h : Inner a) : ¬a.Feeds := by
  cases h <;> exact id

theorem workerAction_inner (i n : ℕ) : Inner (s.workerAction i n) := by
  unfold workerAction
  split_ifs
  · exact .publish i
  · exact .work i _

theorem mergerAction_inner (n : ℕ) : Inner (s.mergerAction n) := by
  unfold mergerAction
  split <;> exact .merge _

theorem Merging.inner (h : s.Merging) {a : Action} (ha : Inner a) (hstep : s.step a = some s') :
    s'.Merging := by
  cases step_cases hstep with
  | runtime => exact h
  | publish _ hm =>
      cases EgressMerger.step_cases hm with
      | publish => exact h
  | merger hb hm =>
      cases ha with
      | merge n =>
          cases hb
          have hmove := EgressMerger.merge_move hm
          exact ⟨hmove.ne_off, hmove.stop_eq.trans h.2⟩
      | work => cases hb
      | publish => cases hb

/-- Turns of the workers and of the merger leave the shutdown where it is. -/
theorem Inv.stage_inner (h : s.Inv cfg mem) {pc : ControllerPc} (hst : Stage pc s) {a : Action}
    (ha : Inner a) (hstep : s.step a = some s') : Stage pc s' := by
  have hmanned (hm : s.runtime.Manned) : s'.runtime.Manned ∧ s'.runtime.stop = s.runtime.stop := by
    cases step_cases hstep with
    | runtime _ hr =>
        cases ha with
        | work i n => exact hm.work hr
    | publish => exact ⟨hm, rfl⟩
    | merger => exact ⟨hm, rfl⟩
  cases pc with
  | stopping =>
      obtain ⟨hm, hstop, hmerge⟩ := hst
      exact ⟨(hmanned hm).1, (hmanned hm).2.trans hstop, hmerge.inner ha hstep⟩
  | joining =>
      obtain ⟨hm, hstop, hleft, hmerge⟩ := hst
      exact ⟨(hmanned hm).1, (hmanned hm).2.trans hstop,
        h.leftSettled_step hleft ha.not_feeds hstep, hmerge.inner ha hstep⟩
  | stoppingMerger =>
      obtain ⟨hq, hmerge⟩ := hst
      exact ⟨h.quiet_step hq ha.not_feeds hstep, hmerge.inner ha hstep⟩
  | joiningMerger =>
      obtain ⟨hq, hoff, hstop, hempty⟩ := hst
      refine ⟨h.quiet_step hq ha.not_feeds hstep, ?_⟩
      have hempty' := h.passedEmpty_step hq hempty hstep
      cases step_cases hstep with
      | runtime => exact ⟨hoff, hstop, hempty'⟩
      | publish _ hm =>
          cases EgressMerger.step_cases hm with
          | publish => exact ⟨hoff, hstop, hempty'⟩
      | merger hb hm =>
          cases ha with
          | merge n =>
              cases hb
              have hmove := EgressMerger.merge_move hm
              exact ⟨hmove.ne_off, hmove.stop_eq.trans hstop, hempty'⟩
          | work => cases hb
          | publish => cases hb
  | returned =>
      obtain ⟨hq, hoff, hnil⟩ := hst
      refine ⟨h.quiet_step hq ha.not_feeds hstep, ?_⟩
      cases step_cases hstep with
      | runtime => exact ⟨hoff, hnil⟩
      | @publish i ev _ hev _ =>
          rw [h.told_of_quiet hq i] at hev
          simp at hev
      | merger hb hm =>
          cases ha with
          | merge n =>
              cases hb
              simp [EgressMerger.step, EgressMerger.merge, hoff] at hm
          | work => cases hb
          | publish => cases hb

/-- The controller goes from one stage to the next. -/
theorem Inv.stage_controller (h : s.Inv cfg mem) {pc : ControllerPc} (hst : Stage pc s) {a : Action}
    (ha : pc.action = some a) (hstep : s.step a = some s') : Stage pc.next s' := by
  cases pc with
  | stopping =>
      cases ha
      obtain ⟨hm, hstop, hmerge⟩ := hst
      cases step_cases hstep with
      | runtime _ hr =>
          have hleft := h.runtime.leftSettled_requestStop hr
          obtain ⟨-, ⟨⟩⟩ := Option.ite_none_right_eq_some.mp hr
          exact ⟨hm, rfl, hleft, hmerge⟩
      | merger hb => cases hb
  | joining =>
      cases ha
      obtain ⟨hm, hstop, hleft, hmerge⟩ := hst
      cases step_cases hstep with
      | runtime _ hr => exact ⟨hleft.quiet hr, hmerge⟩
      | merger hb => cases hb
  | stoppingMerger =>
      cases ha
      obtain ⟨hq, hmerge⟩ := hst
      cases step_cases hstep with
      | merger hb hm =>
          cases hb
          cases EgressMerger.step_cases hm with
          | requestStop hoff hflag =>
              exact ⟨hq, hoff, rfl, .of_serving (h.merger.serving hflag)⟩
  | joiningMerger =>
      cases ha
      obtain ⟨hq, hoff, hstop, hempty⟩ := hst
      cases step_cases hstep with
      | merger hb hm =>
          cases hb
          cases EgressMerger.step_cases hm with
          | join hexit => exact ⟨hq, rfl, fun i hi => hempty i hi (hexit ▸ trivial)⟩
  | returned => cases ha

/-- During a shutdown no call is accepted. -/
theorem accepted_of_not_feeds {a : Action} (ha : ¬a.Feeds) (hstep : s.step a = some s') :
    s'.runtime.accepted = s.runtime.accepted := by
  cases step_cases hstep with
  | @runtime b _ _ hr =>
      rcases ShardRuntime.step_accepted hr with heq | ⟨c, rfl, -⟩
      · exact heq
      · exact absurd trivial ha
  | publish => rfl
  | merger => rfl

end EgressPipeline
namespace Shutdown

variable {ticks maxOrders numShards ingressCapacity egressCapacity batchMax : ℕ}
  {cfg : EngineConfig} {mem : ℕ → Memory}
  {s : Shutdown ticks maxOrders numShards ingressCapacity egressCapacity batchMax}

structure Inv (cfg : EngineConfig) (mem : ℕ → Memory)
    (s : Shutdown ticks maxOrders numShards ingressCapacity egressCapacity batchMax) : Prop where
  pipe : s.pipe.Inv cfg mem
  stage : EgressPipeline.Stage s.pc s.pipe

theorem Inv.inner (h : s.Inv cfg mem) {a : EgressPipeline.Action} (ha : EgressPipeline.Inner a) :
    ({ s with pipe := (s.pipe.step a).getD s.pipe } :
      Shutdown ticks maxOrders numShards ingressCapacity egressCapacity batchMax).Inv cfg mem := by
  cases hstep : s.pipe.step a with
  | none => exact h
  | some p => exact ⟨h.pipe.step hstep, h.pipe.stage_inner h.stage ha hstep⟩

theorem turn_controller {a : EgressPipeline.Action} (ha : s.pc.action = some a)
    {p : EgressPipeline ticks maxOrders numShards ingressCapacity egressCapacity batchMax}
    (hstep : s.pipe.step a = some p) : s.turn .controller = ⟨p, s.pc.next⟩ := by
  simp [turn, ha, hstep]

theorem turn_controller_cases (s : Shutdown ticks maxOrders numShards ingressCapacity egressCapacity
    batchMax) : s.turn .controller = s ∨ ∃ a p, s.pc.action = some a ∧ s.pipe.step a = some p ∧
      s.turn .controller = ⟨p, s.pc.next⟩ := by
  cases ha : s.pc.action with
  | none => exact .inl (by simp [turn, ha])
  | some a =>
      cases hstep : s.pipe.step a with
      | none => exact .inl (by simp [turn, ha, hstep])
      | some p => exact .inr ⟨a, p, rfl, hstep, turn_controller ha hstep⟩

theorem Inv.turn (h : s.Inv cfg mem) (t : ShutdownTurn numShards) : (s.turn t).Inv cfg mem := by
  cases t with
  | worker i n => exact h.inner (EgressPipeline.workerAction_inner i n)
  | merger n => exact h.inner (EgressPipeline.mergerAction_inner n)
  | controller =>
      rcases s.turn_controller_cases with heq | ⟨a, p, ha, hstep, heq⟩
      · rw [heq]
        exact h
      · rw [heq]
        exact ⟨h.pipe.step hstep, h.pipe.stage_controller h.stage ha hstep⟩

/-! ## Progress -/

/-- How far the controller has come. -/
def done (s : Shutdown ticks maxOrders numShards ingressCapacity egressCapacity batchMax) : ℕ :=
  match s.pc with
  | .stopping => 0
  | .joining => 1
  | .stoppingMerger => 2
  | .joiningMerger => 3
  | .returned => 4

theorem done_turn (s : Shutdown ticks maxOrders numShards ingressCapacity egressCapacity batchMax)
    (t : ShutdownTurn numShards) : s.done ≤ (s.turn t).done := by
  cases t with
  | worker i n => exact le_refl _
  | merger n => exact le_refl _
  | controller =>
      rcases s.turn_controller_cases with heq | ⟨a, p, ha, -, heq⟩
      · rw [heq]
      · rw [heq]
        unfold done
        cases hpc : s.pc <;> simp [ControllerPc.next]

/-- The shutdown has come to its stage `k` at least. -/
structure From (cfg : EngineConfig) (mem : ℕ → Memory) (k : ℕ)
    (s : Shutdown ticks maxOrders numShards ingressCapacity egressCapacity batchMax) : Prop where
  inv : s.Inv cfg mem
  le : k ≤ s.done

theorem From.turn {k : ℕ} (h : s.From cfg mem k) (t : ShutdownTurn numShards) :
    (s.turn t).From cfg mem k :=
  ⟨h.inv.turn t, h.le.trans (s.done_turn t)⟩

/-- The controller's next action can be taken, or it has gone on already. -/
def Open (k : ℕ) (s : Shutdown ticks maxOrders numShards ingressCapacity egressCapacity batchMax) :
    Prop :=
  k ≤ s.done ∧ (s.done = k → (s.pc.action.bind s.pipe.step).isSome)

variable {sched : ℕ → ShutdownTurn numShards}

/-- A controller that is never held up goes on. -/
theorem controller_goes_on {k : ℕ}
    (I : Shutdown ticks maxOrders numShards ingressCapacity egressCapacity batchMax → Prop)
    (hI : ∀ s t, I s → I (s.turn t)) (hopen : ∀ s, I s → s.Open k) (hs : I s)
    (hfair : Fair ShutdownTurn.party sched) :
    ∃ n, k + 1 ≤ (trace Shutdown.turn sched s n).done := by
  refine hfair.eventually I (fun s => k + 1 ≤ s.done) (fun _ => (0 : ℕ)) .controller hI ?_ ?_ hs
  · intro s t hs hgoal ht
    left
    obtain ⟨hle, hact⟩ := hopen s hs
    obtain ⟨p, hp⟩ := Option.isSome_iff_exists.mp (hact (by omega))
    obtain ⟨a, ha, hstep⟩ := Option.bind_eq_some_iff.mp hp
    cases t with
    | worker i n => cases ht
    | merger n => cases ht
    | controller =>
        rw [turn_controller ha hstep]
        unfold done at hle hgoal ⊢
        cases hpc : s.pc <;> simp only [hpc, ControllerPc.next] at hle hgoal ⊢ <;> try omega
        rw [hpc] at ha
        cases ha
  · intro s t hs hgoal
    exact .inr (le_refl 0)

theorem Inv.stopping_open (h : s.Inv cfg mem) : s.Open 0 := by
  refine ⟨Nat.zero_le _, fun hdone => ?_⟩
  obtain ⟨p, pc⟩ := s
  cases pc <;> simp only [done] at hdone <;> try omega
  obtain ⟨hm, hstop, -⟩ : p.runtime.Manned ∧ p.runtime.stop = false ∧ p.Merging := h.stage
  simp [ControllerPc.action, EgressPipeline.step, EgressPipeline.Busy, ShardRuntime.step, hm.1,
    hstop]

theorem Inv.stoppingMerger_open (h : s.Inv cfg mem) (hk : 2 ≤ s.done) : s.Open 2 := by
  refine ⟨hk, fun hdone => ?_⟩
  obtain ⟨p, pc⟩ := s
  cases pc <;> simp only [done] at hdone <;> try omega
  obtain ⟨-, hoff, hstop⟩ : p.runtime.Quiet ∧ p.merger.pc ≠ .off ∧ p.merger.stop = false := h.stage
  simp [ControllerPc.action, EgressPipeline.step, EgressPipeline.onMerger, EgressMerger.step, hoff,
    hstop]

/-- The worker has left, or the runtime is joined already. -/
def WorkerGone (i : ℕ)
    (s : Shutdown ticks maxOrders numShards ingressCapacity egressCapacity batchMax) : Prop :=
  (s.pipe.runtime.shards i).pc = .exited ∨ 2 ≤ s.done

/-- What a worker has ahead of it: commands, then events, then the way out. -/
def workerRest (i : ℕ)
    (p : EgressPipeline ticks maxOrders numShards ingressCapacity egressCapacity batchMax) :
    ℕ ×ₗ ℕ ×ₗ ℕ :=
  toLex ((p.runtime.shards i).unapplied,
    toLex ((p.tape i).length - p.told i, (p.runtime.shards i).pc.ahead))

theorem workerRest_own {p : EgressPipeline ticks maxOrders numShards ingressCapacity egressCapacity
    batchMax} (h : p.Inv cfg mem) (hm : p.runtime.Manned) (hstop : p.runtime.stop = true) {i : ℕ}
    (hi : i < numShards) (hgone : (p.runtime.shards i).pc ≠ .exited) (n : ℕ) :
    workerRest i ((p.step (p.workerAction i n)).getD p) < workerRest i p := by
  unfold EgressPipeline.workerAction
  split_ifs with hbusy
  · have hev : (p.tape i)[p.told i]? = some (p.tape i)[p.told i] := List.getElem?_eq_getElem hbusy
    simp only [EgressPipeline.step, hev, Option.bind_some, EgressPipeline.onMerger,
      EgressMerger.step, if_pos hi, Option.map_some, Option.getD_some]
    refine Prod.Lex.toLex_lt_toLex.mpr (.inr ⟨rfl, Prod.Lex.toLex_lt_toLex.mpr (.inl ?_)⟩)
    change (p.tape i).length - Function.update p.told i (p.told i + 1) i < _
    rw [Function.update_self]
    omega
  · obtain ⟨sh', hwork, hless⟩ := Shard.work_ahead (h.runtime.tracks i).claim (hm.2 i hi) hgone n
    have hbusy' : ¬p.Busy (.work i (Channel.claim workerBatch (p.runtime.shards i).ingress n)) :=
      hbusy
    simp only [EgressPipeline.step, if_neg hbusy', ShardRuntime.step, if_pos hi, hstop, hwork,
      Option.map_some, Option.getD_some]
    have hshard : (p.runtime.setShard i sh').shards i = sh' := by simp [ShardRuntime.setShard]
    unfold workerRest
    simp only [EgressPipeline.tape, hshard]
    rcases hless with hlt | ⟨heq, heng, hlt⟩
    · exact Prod.Lex.toLex_lt_toLex.mpr (.inl hlt)
    · rw [heq, heng]
      exact Prod.Lex.toLex_lt_toLex.mpr (.inr ⟨rfl, Prod.Lex.toLex_lt_toLex.mpr (.inr ⟨rfl, hlt⟩)⟩)

/-- Nobody but its worker changes a shard. -/
theorem step_other {i : ℕ}
    {p p' : EgressPipeline ticks maxOrders numShards ingressCapacity egressCapacity batchMax}
    {a : EgressPipeline.Action} (ha : EgressPipeline.Inner a) (hpub : a ≠ .publish i)
    (hwork : ∀ n, a ≠ .runtime (.work i n)) (hstep : p.step a = some p') :
    p'.runtime.shards i = p.runtime.shards i ∧ p'.told i = p.told i := by
  cases EgressPipeline.step_cases hstep with
  | runtime _ hr =>
      cases ha with
      | work j n =>
          obtain ⟨-, hw⟩ := Option.ite_none_right_eq_some.mp hr
          obtain ⟨sh, -, rfl⟩ := Option.map_eq_some_iff.mp hw
          have hij : i ≠ j := fun h => hwork n (by rw [h])
          exact ⟨by simp [ShardRuntime.setShard, hij], rfl⟩
  | @publish j =>
      have hij : i ≠ j := fun h => hpub (by rw [h])
      exact ⟨rfl, Function.update_of_ne hij _ _⟩
  | merger => exact ⟨rfl, rfl⟩

/-- So what it has ahead of it is the same after a turn of another party. -/
theorem inner_other
    (p : EgressPipeline ticks maxOrders numShards ingressCapacity egressCapacity batchMax) {i : ℕ}
    {a : EgressPipeline.Action} (ha : EgressPipeline.Inner a) (hpub : a ≠ .publish i)
    (hwork : ∀ n, a ≠ .runtime (.work i n)) :
    ((p.step a).getD p).runtime.shards i = p.runtime.shards i ∧
      ((p.step a).getD p).told i = p.told i := by
  cases hstep : p.step a with
  | none => exact ⟨rfl, rfl⟩
  | some p' => exact step_other ha hpub hwork hstep

theorem workerRest_congr {i : ℕ}
    {p p' : EgressPipeline ticks maxOrders numShards ingressCapacity egressCapacity batchMax}
    (h : p'.runtime.shards i = p.runtime.shards i ∧ p'.told i = p.told i) :
    workerRest i p' = workerRest i p := by
  unfold workerRest EgressPipeline.tape
  rw [h.1, h.2]

theorem workerAction_ne
    (p : EgressPipeline ticks maxOrders numShards ingressCapacity egressCapacity batchMax)
    {i j : ℕ} (hij : j ≠ i) (n : ℕ) : p.workerAction j n ≠ .publish i ∧
      ∀ n', p.workerAction j n ≠ .runtime (.work i n') := by
  unfold EgressPipeline.workerAction
  split_ifs <;> simp [hij]

theorem mergerAction_ne
    (p : EgressPipeline ticks maxOrders numShards ingressCapacity egressCapacity batchMax)
    (i n : ℕ) : p.mergerAction n ≠ .publish i ∧
      ∀ n', p.mergerAction n ≠ .runtime (.work i n') := by
  unfold EgressPipeline.mergerAction
  split <;> simp

theorem Inv.joining (h : s.Inv cfg mem) (hdone : s.done = 1) :
    s.pc = .joining ∧ s.pipe.runtime.Manned ∧ s.pipe.runtime.stop = true := by
  obtain ⟨p, pc⟩ := s
  cases pc <;> simp only [done] at hdone <;> try omega
  exact ⟨rfl, h.stage.1, h.stage.2.1⟩

/-- With its turn the controller has gone on, or nothing has happened. -/
theorem controller_waits (k : ℕ) (hle : k ≤ s.done) :
    s.turn .controller = s ∨ k + 1 ≤ (s.turn .controller).done := by
  rcases s.turn_controller_cases with heq | ⟨a, p, ha, -, heq⟩
  · exact .inl heq
  · right
    rw [heq]
    unfold done at hle ⊢
    cases hpc : s.pc <;> simp only [hpc, ControllerPc.next] at hle ⊢ <;> try omega
    rw [hpc] at ha
    cases ha

theorem worker_leaves (hs : s.From cfg mem 1) (hfair : Fair ShutdownTurn.party sched)
    (i : Fin numShards) : ∃ n, (trace Shutdown.turn sched s n).WorkerGone i := by
  refine hfair.eventually (From cfg mem 1) (WorkerGone i) (fun s => workerRest i s.pipe) (.worker i)
    (fun s t hs => hs.turn t) ?_ ?_ hs
  · intro s t hs hgone ht
    unfold WorkerGone at hgone
    push Not at hgone
    obtain ⟨hinv, hle⟩ := hs
    obtain ⟨-, hm, hstop⟩ := hinv.joining (by omega)
    cases t with
    | worker j n =>
        cases ht
        exact .inr (workerRest_own hinv.pipe hm hstop i.isLt hgone.1 n)
    | merger n => cases ht
    | controller => cases ht
  · intro s t hs hgone
    have hgone' := hgone
    unfold WorkerGone at hgone'
    push Not at hgone'
    obtain ⟨hinv, hle⟩ := hs
    obtain ⟨-, hm, hstop⟩ := hinv.joining (by omega)
    cases t with
    | worker j n =>
        by_cases hij : j = i
        · subst hij
          exact .inr (workerRest_own hinv.pipe hm hstop j.isLt hgone'.1 n).le
        · have hne := workerAction_ne s.pipe (fun h => hij (Fin.ext h)) n
          exact .inr (workerRest_congr (inner_other s.pipe
            (EgressPipeline.workerAction_inner j n) hne.1 hne.2)).le
    | merger n =>
        have hne := mergerAction_ne s.pipe i n
        exact .inr (workerRest_congr (inner_other s.pipe
          (EgressPipeline.mergerAction_inner n) hne.1 hne.2)).le
    | controller =>
        rcases controller_waits 1 hle with heq | hnext
        · rw [heq]
          exact .inr (le_refl _)
        · exact .inl (.inr hnext)

theorem WorkerGone.turn {i : ℕ} (h : s.From cfg mem 1) (hgone : s.WorkerGone i)
    (t : ShutdownTurn numShards) : (s.turn t).WorkerGone i := by
  rcases hgone with hexit | hle
  · have hkept {a : EgressPipeline.Action} (ha : EgressPipeline.Inner a) (hpub : a ≠ .publish i)
        (hwork : ∀ n, a ≠ .runtime (.work i n)) :
        ({ s with pipe := (s.pipe.step a).getD s.pipe } : Shutdown ticks maxOrders numShards
          ingressCapacity egressCapacity batchMax).WorkerGone i := by
      left
      change (((s.pipe.step a).getD s.pipe).runtime.shards i).pc = .exited
      rw [(inner_other s.pipe ha hpub hwork).1, hexit]
    cases t with
    | worker j n =>
        by_cases hij : (j : ℕ) = i
        · subst hij
          -- it has told everything, and there is no further step for it
          have htold := h.inv.pipe.all_told j (by rw [hexit]; exact id)
          have hnone : s.pipe.step (s.pipe.workerAction j n) = none := by
            simp [EgressPipeline.workerAction, htold, EgressPipeline.step, ShardRuntime.step,
              Shard.work, hexit]
          left
          change (((s.pipe.step (s.pipe.workerAction j n)).getD s.pipe).runtime.shards j).pc = _
          rw [hnone, Option.getD_none, hexit]
        · have hne := workerAction_ne s.pipe hij n
          exact hkept (EgressPipeline.workerAction_inner j n) hne.1 hne.2
    | merger n =>
        have hne := mergerAction_ne s.pipe i n
        exact hkept (EgressPipeline.mergerAction_inner n) hne.1 hne.2
    | controller =>
        rcases controller_waits 1 h.le with heq | hnext
        · rw [heq]
          exact .inl hexit
        · exact .inr hnext
  · exact .inr (hle.trans (s.done_turn t))

theorem From.joining_open (h : s.From cfg mem 1) (hgone : ∀ i < numShards, s.WorkerGone i) :
    s.Open 1 := by
  refine ⟨h.le, fun hdone => ?_⟩
  obtain ⟨hpc, hm, hstop⟩ := h.inv.joining hdone
  have hexit : ∀ i < numShards, (s.pipe.runtime.shards i).pc = .exited := fun i hi =>
    (hgone i hi).resolve_right (by omega)
  simpa [hpc, ControllerPc.action, EgressPipeline.step, EgressPipeline.Busy, ShardRuntime.step,
    hm.1, hstop] using hexit

/-- The runtime's `stop` returns. -/
theorem runtime_joined (hs : s.From cfg mem 1) (hfair : Fair ShutdownTurn.party sched) :
    ∃ n, 2 ≤ (trace Shutdown.turn sched s n).done := by
  obtain ⟨m, hm⟩ := exists_forall_lt (fun s t (hs : s.From cfg mem 1) => hs.turn t)
    (fun i s t hs hgone => hgone.turn hs t) hs
    (fun i hi => worker_leaves hs hfair ⟨i, hi⟩ : ∀ i < numShards,
      ∃ n, (trace Shutdown.turn sched s n).WorkerGone i)
  obtain ⟨n, hn⟩ := controller_goes_on (k := 1)
    (fun s => s.From cfg mem 1 ∧ ∀ i < numShards, s.WorkerGone i)
    (fun s t hs => ⟨hs.1.turn t, fun i hi => (hs.2 i hi).turn hs.1 t⟩)
    (fun s hs => hs.1.joining_open hs.2)
    ⟨trace_invariant (From cfg mem 1) (fun s t hs => hs.turn t) hs m, hm⟩ (hfair.shift m)
  exact ⟨m + n, by rwa [trace_add]⟩

/-! ## The merger -/

/-- The merger has left, or its `stop` has returned already. -/
def MergerGone (s : Shutdown ticks maxOrders numShards ingressCapacity egressCapacity batchMax) :
    Prop :=
  s.pipe.merger.pc = .exited ∨ 4 ≤ s.done

theorem merge_some {p : EgressPipeline ticks maxOrders numShards ingressCapacity egressCapacity
    batchMax} (h : p.merger.Inv) (hoff : p.merger.pc ≠ .off) (hexit : p.merger.pc ≠ .exited)
    (n : ℕ) : ∃ m, p.step (p.mergerAction n) = some { p with merger := m } ∧
      EgressMerger.Move p.merger m := by
  have hsome : ∃ c, p.mergerAction n = .merge c ∧ (p.merger.merge c).isSome := by
    unfold EgressPipeline.mergerAction EgressMerger.merge
    cases hpc : p.merger.pc with
    | off => exact absurd hpc hoff
    | exited => exact absurd hpc hexit
    | checking => exact ⟨n, rfl, rfl⟩
    | polling phase j any =>
        have hclaim : Channel.Claims (claimMax batchMax) (p.merger.pubs j).egress _ :=
          Channel.claims_claim _ n
        refine ⟨_, rfl, ?_⟩
        by_cases hj : j < numShards
        · simp only [hj, if_true, hclaim, not_true, if_false]
          split_ifs <;> rfl
        · simp only [hj, if_false]
          cases any <;> cases phase <;> rfl
    | handing phase j any k c =>
        obtain ⟨-, -, -, -, hlen⟩ := h.claim _ _ _ _ _ hpc
        refine ⟨n, rfl, ?_⟩
        by_cases hk : k < c
        · simp [hk, List.getElem?_eq_getElem (hk.trans_le hlen)]
        · simp [hk]
  obtain ⟨c, haction, hmerge⟩ := hsome
  obtain ⟨m, hm⟩ := Option.isSome_iff_exists.mp hmerge
  refine ⟨m, ?_, EgressMerger.merge_move hm⟩
  rw [haction]
  simp [EgressPipeline.step, EgressPipeline.onMerger, EgressMerger.step, hm]

theorem Inv.joiningMerger (h : s.Inv cfg mem) (hdone : s.done = 3) :
    s.pc = .joiningMerger ∧ s.pipe.runtime.Quiet ∧ s.pipe.merger.pc ≠ .off ∧
      s.pipe.merger.stop = true := by
  obtain ⟨p, pc⟩ := s
  cases pc <;> simp only [done] at hdone <;> try omega
  exact ⟨rfl, h.stage.1, h.stage.2.1, h.stage.2.2.1⟩

/-- There are no workers left to take a turn. -/
theorem turn_worker_of_quiet (h : s.pipe.Inv cfg mem) (hq : s.pipe.runtime.Quiet)
    (i : Fin numShards) (n : ℕ) : s.turn (.worker i n) = s := by
  have hoff := h.runtime.off i (.inl hq.1)
  have hnone : s.pipe.step (s.pipe.workerAction i n) = none := by
    simp [EgressPipeline.workerAction, h.told_of_quiet hq i, EgressPipeline.step,
      ShardRuntime.step, Shard.work, hoff]
  simp only [Shutdown.turn, hnone, Option.getD_none]

theorem merger_turn (h : s.pipe.merger.Inv) (hoff : s.pipe.merger.pc ≠ .off)
    (hexit : s.pipe.merger.pc ≠ .exited) (hstop : s.pipe.merger.stop = true) (n : ℕ) :
    (s.turn (.merger n)).pipe.merger.remaining < s.pipe.merger.remaining := by
  obtain ⟨m, hstep, hm⟩ := merge_some h hoff hexit n
  simp only [Shutdown.turn, hstep, Option.getD_some]
  exact h.remaining_move hstop hm

theorem merger_leaves (hs : s.From cfg mem 3) (hfair : Fair ShutdownTurn.party sched) :
    ∃ n, (trace Shutdown.turn sched s n).MergerGone := by
  refine hfair.eventually (From cfg mem 3) MergerGone (fun s => s.pipe.merger.remaining) .merger
    (fun s t hs => hs.turn t) ?_ ?_ hs
  · intro s t hs hgone ht
    unfold MergerGone at hgone
    push Not at hgone
    obtain ⟨hinv, hle⟩ := hs
    obtain ⟨-, -, hoff, hstop⟩ := hinv.joiningMerger (by omega)
    cases t with
    | worker i n => cases ht
    | merger n => exact .inr (merger_turn hinv.pipe.merger hoff hgone.1 hstop n)
    | controller => cases ht
  · intro s t hs hgone
    have hgone' := hgone
    unfold MergerGone at hgone'
    push Not at hgone'
    obtain ⟨hinv, hle⟩ := hs
    obtain ⟨-, hq, hoff, hstop⟩ := hinv.joiningMerger (by omega)
    cases t with
    | worker i n =>
        rw [turn_worker_of_quiet hinv.pipe hq]
        exact .inr (le_refl _)
    | merger n => exact .inr (merger_turn hinv.pipe.merger hoff hgone'.1 hstop n).le
    | controller =>
        rcases controller_waits 3 hle with heq | hnext
        · rw [heq]
          exact .inr (le_refl _)
        · exact .inl (.inr hnext)

theorem MergerGone.turn (h : s.From cfg mem 3) (hgone : s.MergerGone)
    (t : ShutdownTurn numShards) : (s.turn t).MergerGone := by
  by_cases hdone : 4 ≤ s.done
  · exact .inr (hdone.trans (s.done_turn t))
  · obtain ⟨-, hq, -, -⟩ := h.inv.joiningMerger (le_antisymm (by omega) h.le)
    have hexit := hgone.resolve_right hdone
    cases t with
    | worker i n =>
        rw [turn_worker_of_quiet h.inv.pipe hq]
        exact hgone
    | merger n =>
        have hnone : s.pipe.step (s.pipe.mergerAction n) = none := by
          simp [EgressPipeline.mergerAction, hexit, EgressPipeline.step, EgressPipeline.onMerger,
            EgressMerger.step, EgressMerger.merge]
        simp only [Shutdown.turn, hnone, Option.getD_none]
        exact hgone
    | controller =>
        rcases controller_waits 3 h.le with heq | hnext
        · rw [heq]
          exact hgone
        · exact .inr hnext

theorem From.joiningMerger_open (h : s.From cfg mem 3) (hgone : s.MergerGone) : s.Open 3 := by
  refine ⟨h.le, fun hdone => ?_⟩
  obtain ⟨hpc, -, -, hstop⟩ := h.inv.joiningMerger hdone
  have hexit : s.pipe.merger.pc = .exited := hgone.resolve_right (by omega)
  simp [hpc, ControllerPc.action, EgressPipeline.step, EgressPipeline.onMerger, EgressMerger.step,
    hexit, hstop]

/-- The merger's `stop` returns. -/
theorem merger_joined (hs : s.From cfg mem 3) (hfair : Fair ShutdownTurn.party sched) :
    ∃ n, 4 ≤ (trace Shutdown.turn sched s n).done := by
  obtain ⟨m, hm⟩ := merger_leaves hs hfair
  obtain ⟨n, hn⟩ := controller_goes_on (k := 3) (fun s => s.From cfg mem 3 ∧ s.MergerGone)
    (fun s t hs => ⟨hs.1.turn t, hs.2.turn hs.1 t⟩) (fun s hs => hs.1.joiningMerger_open hs.2)
    ⟨trace_invariant (From cfg mem 3) (fun s t hs => hs.turn t) hs m, hm⟩ (hfair.shift m)
  exact ⟨m + n, by rwa [trace_add]⟩

/-! ## The whole shutdown -/

theorem turn_accepted (s : Shutdown ticks maxOrders numShards ingressCapacity egressCapacity
    batchMax) (t : ShutdownTurn numShards) :
    (s.turn t).pipe.runtime.accepted = s.pipe.runtime.accepted := by
  have hinner {a : EgressPipeline.Action} (ha : ¬a.Feeds) :
      ((s.pipe.step a).getD s.pipe).runtime.accepted = s.pipe.runtime.accepted := by
    cases hstep : s.pipe.step a with
    | none => rfl
    | some p => exact EgressPipeline.accepted_of_not_feeds ha hstep
  cases t with
  | worker i n => exact hinner (EgressPipeline.workerAction_inner i n).not_feeds
  | merger n => exact hinner (EgressPipeline.mergerAction_inner n).not_feeds
  | controller =>
      rcases s.turn_controller_cases with heq | ⟨a, p, ha, hstep, heq⟩
      · rw [heq]
      · rw [heq]
        refine EgressPipeline.accepted_of_not_feeds ?_ hstep
        cases hpc : s.pc <;> rw [hpc] at ha <;> cases ha <;> exact id

/-- One stage of the shutdown after the other. -/
theorem From.returns (hs : s.From cfg mem 0) (hfair : Fair ShutdownTurn.party sched) :
    ∃ n, (trace Shutdown.turn sched s n).From cfg mem 4 := by
  -- a stage that ends has the next one start from there
  have hnext {k : ℕ} (hstage : ∀ {s : Shutdown ticks maxOrders numShards ingressCapacity
      egressCapacity batchMax} {sched : ℕ → ShutdownTurn numShards}, s.From cfg mem k →
      Fair ShutdownTurn.party sched → ∃ n, k + 1 ≤ (trace Shutdown.turn sched s n).done)
      (hk : ∃ n, (trace Shutdown.turn sched s n).From cfg mem k) :
      ∃ n, (trace Shutdown.turn sched s n).From cfg mem (k + 1) := by
    obtain ⟨m, hm⟩ := hk
    obtain ⟨n, hn⟩ := hstage hm (hfair.shift m)
    rw [← trace_add] at hn
    exact ⟨m + n, (trace_invariant (From cfg mem 0) (fun s t hs => hs.turn t) hs (m + n)).inv, hn⟩
  refine hnext merger_joined (hnext ?_ (hnext runtime_joined (hnext ?_ ⟨0, hs⟩)))
  · intro s sched hs hfair
    exact controller_goes_on (From cfg mem 2) (fun s t hs => hs.turn t)
      (fun s hs => hs.inv.stoppingMerger_open hs.le) hs hfair
  · intro s sched hs hfair
    exact controller_goes_on (From cfg mem 0) (fun s t hs => hs.turn t)
      (fun s hs => hs.inv.stopping_open) hs hfair

/-- A shutdown always comes to its end, and loses nothing that is not counted. Whatever a running
pipeline has on its rings when its owner calls the runtime's `stop` and then the merger's, every
fair schedule of the workers, the merger and the owner gets both calls to return. By then each
shard's sink has what the synchronous router would have published for the accepted calls, in that
order and without the dropped events, whose number the publisher has counted. -/
theorem shutdown_completes (cfg : EngineConfig) (mem : ℕ → Memory)
    (acts : List EgressPipeline.Action)
    (p : EgressPipeline ticks maxOrders numShards ingressCapacity egressCapacity batchMax)
    (hrun : exec EgressPipeline.step (.new cfg mem) acts = some p)
    (hrunning : p.runtime.running = true) (hstop : p.runtime.stop = false)
    (hmerger : p.merger.pc ≠ .off) (hmstop : p.merger.stop = false)
    (sched : ℕ → ShutdownTurn numShards) (hfair : Fair ShutdownTurn.party sched) :
    ∃ n, (trace Shutdown.turn sched ⟨p, .stopping⟩ n).pc = .returned ∧
      ∀ i < numShards,
        let q := (trace Shutdown.turn sched ⟨p, .stopping⟩ n).pipe
        (q.merger.delivered i).Sublist (p.routerTape cfg mem i) ∧
        ∃ lost, (q.merger.delivered i).length + lost = (p.routerTape cfg mem i).length ∧
          (q.merger.pubs i).dropped = UInt64.ofNat lost := by
  have hinv := EgressPipeline.Inv.new.run hrun
  have hmanned : p.runtime.Manned := by
    refine exec_invariant (fun p => p.runtime.running = true → p.runtime.Manned) ?_ hrun ?_ hrunning
    · intro p a p' h hstep
      cases EgressPipeline.step_cases hstep with
      | runtime _ hr => exact ShardRuntime.manned_step h hr
      | publish => exact h
      | merger => exact h
    · intro hnew
      cases hnew
  have hstart : From cfg mem 0 ⟨p, .stopping⟩ :=
    ⟨⟨hinv, hmanned, hstop, hmerger, hmstop⟩, Nat.zero_le _⟩
  obtain ⟨n, hend⟩ := hstart.returns hfair
  have haccepted : (trace Shutdown.turn sched ⟨p, .stopping⟩ n).pipe.runtime.accepted =
      p.runtime.accepted :=
    trace_invariant (fun s : Shutdown ticks maxOrders numShards ingressCapacity egressCapacity
      batchMax => s.pipe.runtime.accepted = p.runtime.accepted)
      (fun s t hs => (turn_accepted s t).trans hs) rfl n
  refine ⟨n, ?_⟩
  generalize trace Shutdown.turn sched ⟨p, .stopping⟩ n = s at hend haccepted
  obtain ⟨q, pc⟩ := s
  obtain ⟨⟨hinv', hstage⟩, hle⟩ := hend
  have htape (i : ℕ) : q.routerTape cfg mem i = p.routerTape cfg mem i := by
    unfold EgressPipeline.routerTape
    rw [show q.runtime.accepted = p.runtime.accepted from haccepted]
  cases pc <;> simp only [done] at hle <;> try omega
  obtain ⟨hq, -, hempty⟩ := hstage
  refine ⟨rfl, fun i hi => ?_⟩
  rw [← htape]
  exact ⟨hinv'.sublist i, hinv'.delivered_all hq hi (hempty i hi)⟩

/-- Two orders wait on the ring of a single shard when the shutdown begins, and its three parties
take turns. -/
theorem shutdown_completes_backlog :
    let ask : Call := ⟨1, .submit ⟨1, 0, 5, .ask, .gtc, 0⟩⟩
    let bid : Call := ⟨1, .submit ⟨2, 0, 5, .bid, .gtc, 0⟩⟩
    let acts : List EgressPipeline.Action :=
      [.runtime (.tryPush ask), .runtime (.tryPush bid), .runtime .start, .startMerger]
    let sched (n : ℕ) : ShutdownTurn 1 := ![.worker 0 1, .merger 0, .controller] (Fin.ofNat 3 n)
    ∃ p : EgressPipeline 1 2 1 2 1 0,
      exec EgressPipeline.step (.new {} fun _ => .zeroed) acts = some p ∧
      (p.runtime.shards 0).ingress.length = 2 ∧
      ∃ n, (trace Shutdown.turn sched ⟨p, .stopping⟩ n).pc = .returned ∧
        ((trace Shutdown.turn sched ⟨p, .stopping⟩ n).pipe.merger.delivered 0).Sublist
          (p.routerTape {} (fun _ => .zeroed) 0) := by
  intro ask bid acts sched
  have hrun : (exec EgressPipeline.step (.new {} (fun _ => .zeroed) : EgressPipeline 1 2 1 2 1 0)
      acts).map (fun p => (p.runtime.running, p.runtime.stop, p.merger.pc, p.merger.stop,
        (p.runtime.shards 0).ingress.length)) =
        some (true, false, .polling .serving 0 false, false, 2) := by decide +kernel
  obtain ⟨p, hp, hstate⟩ := Option.map_eq_some_iff.mp hrun
  simp only [Prod.mk.injEq] at hstate
  obtain ⟨hrunning, hstop, hpc, hmstop, hlen⟩ := hstate
  have hfair : Fair ShutdownTurn.party sched := by
    refine fair_cycle _ fun i => ?_
    cases i with
    | worker i => exact ⟨0, by simp [ShutdownTurn.party, Subsingleton.elim i 0]⟩
    | merger => exact ⟨1, rfl⟩
    | controller => exact ⟨2, rfl⟩
  obtain ⟨n, hend, hall⟩ := shutdown_completes {} (fun _ => .zeroed) acts p hp hrunning hstop
    (by simp [hpc]) hmstop sched hfair
  exact ⟨p, hp, hlen, n, hend, (hall 0 (by decide)).1⟩

end Shutdown
end Orderbooks
