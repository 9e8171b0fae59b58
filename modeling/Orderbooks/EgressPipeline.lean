import Orderbooks.RuntimeRefinement
import Orderbooks.EgressDelivery
import Orderbooks.Sequencing

/-!
# From the producer to the sink

A `shard_egress_runtime` with an `egress_merger` on its rings: the producer's commands go through
the ingress rings to the workers, each worker's engine publishes into the egress ring of its shard,
and the merger fans the rings in to one sink. A schedule is any order of the steps of the producer,
the controller, the workers and the merger.

An engine publishes while it applies a command, one event after another, and the merger may take
the first of them before the last is out. So the step of the worker that applies a command is
followed by one step for each event, and the worker does not go on before they are out. `told`
counts the events of a shard that have been handed to its publisher.
-/
namespace Orderbooks
open Runs

structure EgressPipeline (ticks maxOrders numShards ingressCapacity egressCapacity batchMax : ℕ)
    where
  runtime : ShardRuntime ticks maxOrders numShards ingressCapacity
  merger : EgressMerger numShards egressCapacity batchMax := {}
  told : ℕ → ℕ := fun _ => 0

namespace EgressPipeline

variable {ticks maxOrders numShards ingressCapacity egressCapacity batchMax : ℕ}

inductive Action where
  | runtime (a : ShardRuntime.Action)
  | publish (i : ℕ)
  | startMerger
  | stopMerger
  | joinMerger
  | merge (n : ℕ)
  deriving DecidableEq, Repr

def new (cfg : EngineConfig) (mem : ℕ → Memory) :
    EgressPipeline ticks maxOrders numShards ingressCapacity egressCapacity batchMax :=
  { runtime := .new cfg mem }

/-- All that the engine of a shard has to say. -/
def tape (s : EgressPipeline ticks maxOrders numShards ingressCapacity egressCapacity batchMax)
    (i : ℕ) : List Event :=
  (s.runtime.shards i).engine.pub

/-- The action is one of a worker that is still inside a call of its engine. -/
def Busy (s : EgressPipeline ticks maxOrders numShards ingressCapacity egressCapacity batchMax) :
    ShardRuntime.Action → Prop
  | .work i _ => s.told i < (s.tape i).length
  | _ => False

instance (s : EgressPipeline ticks maxOrders numShards ingressCapacity egressCapacity batchMax) :
    DecidablePred s.Busy := fun a =>
  match a with
  | .work i _ => inferInstanceAs (Decidable (s.told i < (s.tape i).length))
  | .tryPush _ | .drain | .drainLoad | .drainReturn | .start | .requestStop | .join => isFalse id

def onMerger (s : EgressPipeline ticks maxOrders numShards ingressCapacity egressCapacity batchMax)
    (a : EgressMerger.Action) :
    Option (EgressPipeline ticks maxOrders numShards ingressCapacity egressCapacity batchMax) :=
  (s.merger.step a).map fun m => { s with merger := m }

def step (s : EgressPipeline ticks maxOrders numShards ingressCapacity egressCapacity batchMax) :
    Action →
      Option (EgressPipeline ticks maxOrders numShards ingressCapacity egressCapacity batchMax)
  | .runtime a =>
      if s.Busy a then none else (s.runtime.step a).map fun r => { s with runtime := r }
  | .publish i =>
      (s.tape i)[s.told i]?.bind fun ev =>
        { s with told := Function.update s.told i (s.told i + 1) }.onMerger (.publish i ev)
  | .startMerger => s.onMerger .start
  | .stopMerger => s.onMerger .requestStop
  | .joinMerger => s.onMerger .join
  | .merge n => s.onMerger (.merge n)

/-- The action of the merger or of its controller that an action is. -/
def Action.ofMerger : Action → Option EgressMerger.Action
  | .startMerger => some .start
  | .stopMerger => some .requestStop
  | .joinMerger => some .join
  | .merge n => some (.merge n)
  | .runtime _ | .publish _ => none

theorem Action.ofMerger_ne {a : Action} {b : EgressMerger.Action} (h : a.ofMerger = some b) (i : ℕ)
    (ev : Event) : b ≠ .publish i ev := by
  rintro rfl
  cases a <;> simp [Action.ofMerger] at h

/-- What an action does, and when it can be taken. -/
inductive Step
    (s : EgressPipeline ticks maxOrders numShards ingressCapacity egressCapacity batchMax) :
    Action → EgressPipeline ticks maxOrders numShards ingressCapacity egressCapacity batchMax → Prop
  | runtime {a : ShardRuntime.Action}
      {r : ShardRuntime ticks maxOrders numShards ingressCapacity} : ¬s.Busy a →
      s.runtime.step a = some r → Step s (.runtime a) { s with runtime := r }
  | publish {i : ℕ} {ev : Event} {m : EgressMerger numShards egressCapacity batchMax} :
      (s.tape i)[s.told i]? = some ev → s.merger.step (.publish i ev) = some m →
      Step s (.publish i)
        { s with merger := m, told := Function.update s.told i (s.told i + 1) }
  | merger {a : Action} {b : EgressMerger.Action}
      {m : EgressMerger numShards egressCapacity batchMax} : a.ofMerger = some b →
      s.merger.step b = some m → Step s a { s with merger := m }

theorem step_cases {a : Action}
    {s s' : EgressPipeline ticks maxOrders numShards ingressCapacity egressCapacity batchMax}
    (h : s.step a = some s') : Step s a s' := by
  cases a with
  | runtime a =>
      obtain ⟨hbusy, hr⟩ := Option.ite_none_left_eq_some.mp h
      obtain ⟨r, hnext, rfl⟩ := Option.map_eq_some_iff.mp hr
      exact .runtime hbusy hnext
  | publish i =>
      obtain ⟨ev, hev, hpub⟩ := Option.bind_eq_some_iff.mp h
      obtain ⟨m, hm, rfl⟩ := Option.map_eq_some_iff.mp hpub
      exact .publish hev hm
  | startMerger | stopMerger | joinMerger | merge =>
      obtain ⟨m, hm, rfl⟩ := Option.map_eq_some_iff.mp h
      exact .merger rfl hm

end EgressPipeline

/-! ## What the runtime publishes -/

namespace Shard

variable {ticks maxOrders : ℕ} {sh sh' : Shard ticks maxOrders} {stop : Bool}

theorem Move.isPrefix_pub (hm : Move stop sh sh') : sh.engine.pub <+: sh'.engine.pub := by
  cases hm with
  | apply =>
      obtain ⟨-, evs, hpub, -⟩ := Engine.apply_advances sh.engine _
      exact ⟨evs, hpub.symm⟩
  | _ => exact List.prefix_rfl

/-- Only a worker that is applying commands publishes. -/
theorem Move.pub_eq (hm : Move stop sh sh') (h : ∀ phase k n, sh'.pc ≠ .applying phase k n) :
    sh'.engine.pub = sh.engine.pub := by
  cases hm with
  | apply => exact absurd rfl (h _ _ _)
  | _ => rfl

end Shard

/-- The worker is inside a claim. -/
def WorkerPc.Applying : WorkerPc → Prop
  | .applying _ _ _ => True
  | _ => False

namespace ShardRuntime

variable {ticks maxOrders numShards ringCapacity : ℕ} {cfg : EngineConfig} {mem : ℕ → Memory}
  {s s' : ShardRuntime ticks maxOrders numShards ringCapacity}

/-- Nobody but its worker touches the engine of a shard or takes the worker out of a claim. -/
theorem Inv.step_other (h : s.Inv cfg mem) {a : Action} (hstep : s.step a = some s') {i : ℕ}
    (ha : ∀ n, a ≠ .work i n) :
    (s'.shards i).engine = (s.shards i).engine ∧
      ((s.shards i).pc.Applying → (s'.shards i).pc.Applying) := by
  cases a with
  | tryPush c =>
      obtain ⟨-, ⟨⟩⟩ := Option.ite_none_right_eq_some.mp hstep
      unfold ShardRuntime.tryPush
      dsimp only
      cases hp : (s.shards (shardIndex c.sym numShards)).tryPush ringCapacity c.cmd with
      | none => exact ⟨rfl, id⟩
      | some sh =>
          obtain ⟨q, -, rfl⟩ := Option.map_eq_some_iff.mp hp
          by_cases hi : i = shardIndex c.sym numShards
          · subst hi
            simp [setShard]
          · simp [setShard, hi]
  | drain =>
      obtain ⟨-, ⟨⟩⟩ := Option.ite_none_right_eq_some.mp hstep
      exact ⟨rfl, id⟩
  | drainLoad =>
      unfold ShardRuntime.step at hstep
      cases hprod : s.producer with
      | ready => simp [hprod] at hstep
      | draining j =>
          simp only [hprod] at hstep
          split_ifs at hstep with hj heq
          · rw [← Option.some.inj hstep]
            exact ⟨rfl, id⟩
          · rw [← Option.some.inj hstep]
            exact ⟨rfl, id⟩
  | drainReturn =>
      obtain ⟨-, ⟨⟩⟩ := Option.ite_none_right_eq_some.mp hstep
      exact ⟨rfl, id⟩
  | start =>
      obtain ⟨hr, ⟨⟩⟩ := Option.ite_none_left_eq_some.mp hstep
      have hoff := h.off i (.inl (by simpa using hr))
      dsimp only
      rw [hoff]
      split_ifs <;> exact ⟨rfl, False.elim⟩
  | requestStop =>
      obtain ⟨-, ⟨⟩⟩ := Option.ite_none_right_eq_some.mp hstep
      exact ⟨rfl, id⟩
  | join =>
      obtain ⟨⟨-, -, hexit⟩, ⟨⟩⟩ := Option.ite_none_right_eq_some.mp hstep
      dsimp only
      split_ifs with hi
      · rw [hexit i hi]
        exact ⟨rfl, False.elim⟩
      · exact ⟨rfl, id⟩
  | work j n =>
      obtain ⟨-, hw⟩ := Option.ite_none_right_eq_some.mp hstep
      obtain ⟨sh, -, rfl⟩ := Option.map_eq_some_iff.mp hw
      have hij : i ≠ j := fun hij => ha n (by rw [hij])
      simp [setShard, hij]

theorem step_work {i n : ℕ} (hstep : s.step (.work i n) = some s') :
    i < numShards ∧ Shard.Move s.stop (s.shards i) (s'.shards i) := by
  obtain ⟨hi, hw⟩ := Option.ite_none_right_eq_some.mp hstep
  obtain ⟨sh, hsh, rfl⟩ := Option.map_eq_some_iff.mp hw
  refine ⟨hi, ?_⟩
  simpa [setShard] using Shard.work_move hsh

/-- The workers are gone and have left nothing behind. -/
def Quiet (s : ShardRuntime ticks maxOrders numShards ringCapacity) : Prop :=
  s.running = false ∧ ∀ i < numShards, s.Settled i

/-- It stays so until there are further pushes or other workers. -/
theorem Inv.quiet_step (h : s.Inv cfg mem) (hq : s.Quiet) {a : Action} (hpush : ∀ c, a ≠ .tryPush c)
    (hstart : a ≠ .start) (hstep : s.step a = some s') : s'.Quiet := by
  cases a with
  | tryPush c => exact absurd rfl (hpush c)
  | start => exact absurd rfl hstart
  | drain =>
      obtain ⟨-, ⟨⟩⟩ := Option.ite_none_right_eq_some.mp hstep
      exact hq
  | drainLoad =>
      unfold ShardRuntime.step at hstep
      cases hprod : s.producer with
      | ready => simp [hprod] at hstep
      | draining j =>
          simp only [hprod] at hstep
          split_ifs at hstep with hj heq
          · exact Option.some.inj hstep ▸ hq
          · exact Option.some.inj hstep ▸ hq
  | drainReturn =>
      obtain ⟨-, ⟨⟩⟩ := Option.ite_none_right_eq_some.mp hstep
      exact hq
  | requestStop =>
      obtain ⟨⟨hrun, -⟩, -⟩ := Option.ite_none_right_eq_some.mp hstep
      simp [hq.1] at hrun
  | join =>
      obtain ⟨⟨hrun, -⟩, -⟩ := Option.ite_none_right_eq_some.mp hstep
      simp [hq.1] at hrun
  | work i n =>
      obtain ⟨-, hw⟩ := Option.ite_none_right_eq_some.mp hstep
      obtain ⟨sh, hsh, -⟩ := Option.map_eq_some_iff.mp hw
      have hoff := h.off i (.inl hq.1)
      simp [Shard.work, hoff] at hsh

theorem LeftSettled.quiet (hl : s.LeftSettled) (hstep : s.step .join = some s') : s'.Quiet := by
  refine ⟨?_, fun i hi => hl.join hstep hi⟩
  obtain ⟨-, ⟨⟩⟩ := Option.ite_none_right_eq_some.mp hstep
  rfl

end ShardRuntime

/-! ## What holds all along -/

namespace EgressPipeline

variable {ticks maxOrders numShards ingressCapacity egressCapacity batchMax : ℕ}
  {cfg : EngineConfig} {mem : ℕ → Memory}
  {s s' : EgressPipeline ticks maxOrders numShards ingressCapacity egressCapacity batchMax}

/-- Both halves keep what they keep on their own, the publishers have been handed the first events
of the tapes, and a worker outside a claim has handed over all of its tape. -/
structure Inv (cfg : EngineConfig) (mem : ℕ → Memory)
    (s : EgressPipeline ticks maxOrders numShards ingressCapacity egressCapacity batchMax) :
    Prop where
  runtime : s.runtime.Inv cfg mem
  merger : s.merger.Inv
  told_le : ∀ i, s.told i ≤ (s.tape i).length
  published : ∀ i, (s.merger.pubs i).published.map Prod.fst = (s.tape i).take (s.told i)
  all_told : ∀ i, ¬(s.runtime.shards i).pc.Applying → s.told i = (s.tape i).length

theorem Inv.new : (new cfg mem :
    EgressPipeline ticks maxOrders numShards ingressCapacity egressCapacity batchMax).Inv cfg mem
    where
  runtime := .new
  merger := .new
  told_le _ := Nat.zero_le _
  published _ := rfl
  all_told _ _ := rfl

theorem Inv.ofRuntime (h : s.Inv cfg mem) {a : ShardRuntime.Action} (hbusy : ¬s.Busy a)
    {r : ShardRuntime ticks maxOrders numShards ingressCapacity}
    (hstep : s.runtime.step a = some r) :
    ({ s with runtime := r } :
      EgressPipeline ticks maxOrders numShards ingressCapacity egressCapacity batchMax).Inv
        cfg mem := by
  have htape (i : ℕ) : s.tape i <+: (r.shards i).engine.pub ∧
      (¬(r.shards i).pc.Applying → s.told i = ((r.shards i).engine.pub).length) := by
    by_cases hwork : ∃ n, a = .work i n
    · obtain ⟨n, rfl⟩ := hwork
      obtain ⟨-, hmove⟩ := ShardRuntime.step_work hstep
      refine ⟨hmove.isPrefix_pub, fun hpc => ?_⟩
      have htold : s.told i = (s.tape i).length :=
        le_antisymm (h.told_le i) (not_lt.mp hbusy)
      rw [htold, tape, hmove.pub_eq]
      intro phase k n' heq
      rw [heq] at hpc
      exact hpc trivial
    · obtain ⟨heng, hpc⟩ := h.runtime.step_other hstep fun n hn => hwork ⟨n, hn⟩
      rw [heng]
      exact ⟨List.prefix_rfl, fun hnot => h.all_told i fun happ => hnot (hpc happ)⟩
  refine ⟨h.runtime.step hstep, h.merger, fun i => ?_, fun i => ?_, fun i => (htape i).2⟩
  · exact (h.told_le i).trans (htape i).1.length_le
  · obtain ⟨rest, hrest⟩ := (htape i).1
    rw [h.published i]
    change _ = ((r.shards i).engine.pub).take (s.told i)
    rw [← hrest, List.take_append_of_le_length (h.told_le i)]

theorem Inv.ofMerger (h : s.Inv cfg mem) {b : EgressMerger.Action}
    (hb : ∀ i ev, b ≠ .publish i ev) {m : EgressMerger numShards egressCapacity batchMax}
    (hm : s.merger.step b = some m) :
    ({ s with merger := m } :
      EgressPipeline ticks maxOrders numShards ingressCapacity egressCapacity batchMax).Inv
        cfg mem := by
  refine ⟨h.runtime, h.merger.step hm, h.told_le, fun i => ?_, h.all_told⟩
  have hpub := EgressMerger.step_published hm i
  have hnone : EgressMerger.publishes i [b] = [] := by
    cases b with
    | publish j ev => exact absurd rfl (hb j ev)
    | _ => rfl
  rw [hnone, List.append_nil] at hpub
  exact hpub.trans (h.published i)

theorem Inv.publish (h : s.Inv cfg mem) {i : ℕ} {ev : Event}
    (hev : (s.tape i)[s.told i]? = some ev)
    {m : EgressMerger numShards egressCapacity batchMax}
    (hm : s.merger.step (.publish i ev) = some m) :
    ({ s with merger := m, told := Function.update s.told i (s.told i + 1) } :
      EgressPipeline ticks maxOrders numShards ingressCapacity egressCapacity batchMax).Inv
        cfg mem := by
  obtain ⟨hlt, hget⟩ := List.getElem?_eq_some_iff.mp hev
  have hother {j : ℕ} (hj : j ≠ i) : Function.update s.told i (s.told i + 1) j = s.told j :=
    Function.update_of_ne hj _ _
  refine ⟨h.runtime, h.merger.step hm, fun j => ?_, fun j => ?_, fun j hpc => ?_⟩
  · change Function.update s.told i (s.told i + 1) j ≤ (s.tape j).length
    by_cases hj : j = i
    · subst hj
      rw [Function.update_self]
      exact hlt
    · rw [hother hj]
      exact h.told_le j
  · change _ = (s.tape j).take (Function.update s.told i (s.told i + 1) j)
    refine (EgressMerger.step_published hm j).trans ?_
    rw [h.published j]
    by_cases hj : j = i
    · subst hj
      rw [Function.update_self, List.take_add_one, hev]
      simp [EgressMerger.publishes]
    · rw [hother hj]
      simp [EgressMerger.publishes, Ne.symm hj]
  · change Function.update s.told i (s.told i + 1) j = (s.tape j).length
    by_cases hj : j = i
    · subst hj
      exact absurd (h.all_told j hpc) (Nat.ne_of_lt hlt)
    · rw [hother hj]
      exact h.all_told j hpc

theorem Inv.step (h : s.Inv cfg mem) {a : Action} (hstep : s.step a = some s') :
    s'.Inv cfg mem := by
  cases step_cases hstep with
  | runtime hbusy hr => exact h.ofRuntime hbusy hr
  | publish hev hm => exact h.publish hev hm
  | merger hb hm => exact h.ofMerger (Action.ofMerger_ne hb) hm

theorem Inv.run (h : s.Inv cfg mem) {acts : List Action}
    (hrun : exec EgressPipeline.step s acts = some s') : s'.Inv cfg mem :=
  exec_invariant (Inv cfg mem) (fun _ _ _ hs hstep => hs.step hstep) hrun h

/-- What the synchronous router would have published for a shard, given the accepted calls. -/
def routerTape (cfg : EngineConfig) (mem : ℕ → Memory)
    (s : EgressPipeline ticks maxOrders numShards ingressCapacity egressCapacity batchMax) (i : ℕ) :
    List Event :=
  ShardRouter.stream i ((.new [] cfg mem : ShardRouter (List Event) ticks maxOrders numShards).trace
    s.runtime.accepted)

theorem isPrefix_foldl_pub (e : Engine (List Event) ticks maxOrders .byId) (cmds : List Command) :
    e.pub <+: (cmds.foldl Engine.apply e).pub := by
  induction cmds generalizing e with
  | nil => exact List.prefix_rfl
  | cons cmd cmds ih =>
      obtain ⟨-, evs, hpub, -⟩ := Engine.apply_advances e cmd
      exact (show e.pub <+: (e.apply cmd).pub from ⟨evs, hpub.symm⟩).trans (ih _)

/-- At any time a shard has told a beginning of what the router would tell. -/
theorem Inv.isPrefix_tape (h : s.Inv cfg mem) (i : ℕ) : s.tape i <+: s.routerTape cfg mem i := by
  obtain ⟨rest, hrest⟩ := (h.runtime.tracks i).isPrefix_applied
  rw [routerTape, ShardRouter.stream_trace, ← hrest, List.foldl_append, tape,
    (h.runtime.tracks i).engine]
  exact isPrefix_foldl_pub _ _

theorem Inv.sublist (h : s.Inv cfg mem) (i : ℕ) :
    (s.merger.delivered i).Sublist (s.routerTape cfg mem i) := by
  have haccepted : (s.merger.pubs i).accepted.Sublist
      ((s.merger.pubs i).published.map Prod.fst) := List.filter_sublist.map _
  rw [← h.merger.order i, h.published i] at haccepted
  have htaken : (s.merger.delivered i).Sublist ((s.tape i).take (s.told i)) :=
    (List.sublist_append_left _ _).trans haccepted
  exact htaken.trans ((List.take_sublist _ _).trans (h.isPrefix_tape i).sublist)

/-! ## Shutting down -/

/-- The action feeds the runtime or brings up workers. -/
def Action.Feeds : Action → Prop
  | .runtime (.tryPush _) => True
  | .runtime .start => True
  | _ => False

theorem Inv.leftSettled_step (h : s.Inv cfg mem) (hl : s.runtime.LeftSettled) {a : Action}
    (ha : ¬a.Feeds) (hstep : s.step a = some s') : s'.runtime.LeftSettled := by
  cases step_cases hstep with
  | @runtime a _ _ hr =>
      refine h.runtime.leftSettled_step hl (fun c hc => ha ?_) hr
      rw [hc]
      trivial
  | publish => exact hl
  | merger => exact hl

theorem Inv.quiet_step (h : s.Inv cfg mem) (hq : s.runtime.Quiet) {a : Action} (ha : ¬a.Feeds)
    (hstep : s.step a = some s') : s'.runtime.Quiet := by
  cases step_cases hstep with
  | @runtime a _ _ hr =>
      refine h.runtime.quiet_step hq (fun c hc => ha ?_) (fun hc => ha ?_) hr
      · rw [hc]
        trivial
      · rw [hc]
        trivial
  | publish => exact hq
  | merger => exact hq

/-- Once the workers are gone every event is out. -/
theorem Inv.told_of_quiet (h : s.Inv cfg mem) (hq : s.runtime.Quiet) (i : ℕ) :
    s.told i = (s.tape i).length := by
  refine h.all_told i ?_
  rw [h.runtime.off i (.inl hq.1)]
  exact id

theorem Inv.passedEmpty_step (h : s.Inv cfg mem) (hq : s.runtime.Quiet)
    (he : s.merger.PassedEmpty) {a : Action} (hstep : s.step a = some s') :
    s'.merger.PassedEmpty := by
  cases step_cases hstep with
  | runtime => exact he
  | @publish i ev _ hev _ =>
      rw [h.told_of_quiet hq i] at hev
      simp at hev
  | merger hb hm => exact he.step (Action.ofMerger_ne hb) hm

/-- With the workers gone and its ring empty, what a shard's sink has received is what the router
tells, and the dropped events are counted. -/
theorem Inv.delivered_all (h : s.Inv cfg mem) (hq : s.runtime.Quiet) {i : ℕ} (hi : i < numShards)
    (hnil : (s.merger.pubs i).egress = []) :
    ∃ lost, (s.merger.delivered i).length + lost = (s.routerTape cfg mem i).length ∧
      (s.merger.pubs i).dropped = UInt64.ofNat lost := by
  refine ⟨(s.merger.pubs i).refused.length, ?_, h.merger.dropped i⟩
  have horder := h.merger.order i
  simp only [EgressMerger.waiting, hnil, List.drop_nil, List.append_nil] at horder
  have hall := congrArg List.length (h.published i)
  rw [h.told_of_quiet hq i, List.take_length, List.length_map] at hall
  have hagrees := (h.runtime.agrees (hq.2 i hi)).2
  rw [horder, routerTape, ← hagrees]
  change _ = (s.tape i).length
  rw [← hall, RingPublisher.accepted, RingPublisher.refused, List.length_map, List.length_map]
  exact (List.length_eq_length_filter_add _).symm

/-- From the producer to the sink nothing is reordered, doubled or made up, and nothing is lost
that is not counted. At any time of any schedule, what the sink has of a shard is part of what the
synchronous router would have published for it, in that order, and the sink has counted its events
without a gap. Once the runtime has been stopped and joined, with nothing fed to it since the
request, and the merger has then been stopped and joined, exactly the dropped events are missing. -/
theorem pipeline_delivers (cfg : EngineConfig) (mem : ℕ → Memory) (acts : List Action)
    (s : EgressPipeline ticks maxOrders numShards ingressCapacity egressCapacity batchMax)
    (hrun : exec step (new cfg mem) acts = some s) :
    (∀ i, (s.merger.delivered i).Sublist (s.routerTape cfg mem i)) ∧
    s.merger.sink.map Delivery.seq = (List.range s.merger.sink.length).map UInt64.ofNat ∧
    ∀ pre mid₁ mid₂ mid₃, acts = pre ++ .runtime .requestStop :: (mid₁ ++ .runtime .join ::
        (mid₂ ++ .stopMerger :: (mid₃ ++ [.joinMerger]))) →
      (∀ a ∈ mid₁ ++ mid₂ ++ mid₃, ¬a.Feeds) →
      ∀ i < numShards, ∃ lost,
        (s.merger.delivered i).length + lost = (s.routerTape cfg mem i).length ∧
          (s.merger.pubs i).dropped = UInt64.ofNat lost := by
  have hinv := Inv.new.run hrun
  refine ⟨hinv.sublist, hinv.merger.seqs, ?_⟩
  rintro pre mid₁ mid₂ mid₃ rfl hmid i hi
  obtain ⟨s₁, hpre, hrun⟩ := exec_append.mp hrun
  obtain ⟨s₂, hreq, hrun⟩ := exec_cons.mp hrun
  obtain ⟨s₃, hmid₁, hrun⟩ := exec_append.mp hrun
  obtain ⟨s₄, hjoin, hrun⟩ := exec_cons.mp hrun
  obtain ⟨s₅, hmid₂, hrun⟩ := exec_append.mp hrun
  obtain ⟨s₆, hstop, hrun⟩ := exec_cons.mp hrun
  obtain ⟨s₇, hmid₃, hlast⟩ := exec_concat.mp hrun
  -- the workers drain their rings
  have hinv₁ := Inv.new.run hpre
  have hleft₂ : s₂.runtime.LeftSettled := by
    cases step_cases hreq with
    | runtime _ hr => exact hinv₁.runtime.leftSettled_requestStop hr
    | merger hb => cases hb
  obtain ⟨hinv₃, hleft₃⟩ := exec_invariant_of (fun a : Action => ¬a.Feeds)
    (fun s => s.Inv cfg mem ∧ s.runtime.LeftSettled)
    (fun s a s' hs ha hstep => ⟨hs.1.step hstep, hs.1.leftSettled_step hs.2 ha hstep⟩)
    (fun a ha => hmid a (by simp [ha])) hmid₁ ⟨hinv₁.step hreq, hleft₂⟩
  -- they are gone
  have hquiet₄ : s₄.runtime.Quiet := by
    cases step_cases hjoin with
    | runtime _ hr => exact hleft₃.quiet hr
    | merger hb => cases hb
  obtain ⟨hinv₅, hquiet₅⟩ := exec_invariant_of (fun a : Action => ¬a.Feeds)
    (fun s => s.Inv cfg mem ∧ s.runtime.Quiet)
    (fun s a s' hs ha hstep => ⟨hs.1.step hstep, hs.1.quiet_step hs.2 ha hstep⟩)
    (fun a ha => hmid a (by simp [ha])) hmid₂ ⟨hinv₃.step hjoin, hquiet₄⟩
  -- the merger drains the rings they have left
  have hempty₆ : s₆.merger.PassedEmpty := by
    obtain ⟨m, hm, rfl⟩ := Option.map_eq_some_iff.mp hstop
    cases EgressMerger.step_cases hm with
    | requestStop _ hflag => exact .of_serving (hinv₅.merger.serving hflag)
  obtain ⟨hinv₇, hquiet₇, hempty₇⟩ := exec_invariant_of (fun a : Action => ¬a.Feeds)
    (fun s => s.Inv cfg mem ∧ s.runtime.Quiet ∧ s.merger.PassedEmpty)
    (fun s a s' hs ha hstep => ⟨hs.1.step hstep, hs.1.quiet_step hs.2.1 ha hstep,
      hs.1.passedEmpty_step hs.2.1 hs.2.2 hstep⟩)
    (fun a ha => hmid a (by simp [ha])) hmid₃
    ⟨hinv₅.step hstop, hinv₅.quiet_step hquiet₅ id hstop, hempty₆⟩
  refine hinv.delivered_all (hinv₇.quiet_step hquiet₇ id hlast) hi ?_
  obtain ⟨m, hm, rfl⟩ := Option.map_eq_some_iff.mp hlast
  cases EgressMerger.step_cases hm with
  | join hexit => exact hempty₇ i hi (hexit ▸ trivial)

/-- Two orders trade while the egress ring has room for one event, and the merger comes by once
before the shutdown. -/
theorem pipeline_delivers_full_ring :
    let ask : Call := ⟨1, .submit ⟨1, 0, 5, .ask, .gtc, 0⟩⟩
    let bid : Call := ⟨1, .submit ⟨2, 0, 5, .bid, .gtc, 0⟩⟩
    let acts : List Action := [.runtime (.tryPush ask), .runtime (.tryPush bid), .runtime .start,
      .runtime (.work 0 2), .runtime (.work 0 0), .publish 0, .startMerger, .merge 1, .merge 0,
      .merge 0, .runtime (.work 0 0), .publish 0, .publish 0, .publish 0, .runtime (.work 0 0),
      .runtime (.work 0 0), .runtime .requestStop, .runtime (.work 0 0), .runtime (.work 0 0),
      .runtime (.work 0 0), .runtime (.work 0 0), .runtime .join, .stopMerger, .merge 0, .merge 1,
      .merge 0, .merge 0, .merge 0, .merge 0, .merge 0, .merge 0, .merge 0, .merge 0, .joinMerger]
    ∃ s : EgressPipeline 1 2 1 2 1 0, exec step (new {} fun _ => .zeroed) acts = some s ∧
      s.merger.delivered 0 = [.top ⟨0, 0, 0, 5, 1⟩, .fill ⟨1, 2, 0, 5, 2⟩] ∧
      ∃ lost, 2 + lost = (s.routerTape {} (fun _ => .zeroed) 0).length ∧
        (s.merger.pubs 0).dropped = UInt64.ofNat lost := by
  intro ask bid acts
  have hrun : (exec step (new {} (fun _ => .zeroed) : EgressPipeline 1 2 1 2 1 0) acts).map
      (fun s => s.merger.delivered 0) =
        some [.top ⟨0, 0, 0, 5, 1⟩, .fill ⟨1, 2, 0, 5, 2⟩] := by decide +kernel
  obtain ⟨s, hs, hdelivered⟩ := Option.map_eq_some_iff.mp hrun
  obtain ⟨-, -, hdown⟩ := pipeline_delivers {} (fun _ => .zeroed) acts s hs
  obtain ⟨lost, hlen, hdropped⟩ := hdown (acts.take 16) ((acts.drop 17).take 4) []
    ((acts.drop 23).take 10) rfl (by simp [acts, Action.Feeds]) 0 (by decide)
  rw [hdelivered] at hlen
  exact ⟨s, hs, hdelivered, lost, hlen, hdropped⟩

end EgressPipeline
end Orderbooks
