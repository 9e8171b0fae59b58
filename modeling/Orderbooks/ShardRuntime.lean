import Orderbooks.ShardRouter
import Orderbooks.Lib.Channel
import Orderbooks.Lib.Runs

/-!
# The threaded runtimes

`shard_worker.hpp` with `shard_runtime.hpp` and `shard_egress_runtime.hpp`. One producer feeds
a ring per shard, one worker per shard drains it into the shard's engine, and a controller
starts, stops and joins the workers. A schedule is any order of their steps.

Rings are channels. The two runtimes run the same steps and differ in what their engines
publish into, which an engine never reads back; here every engine has a log of its own. Starting
the workers is one step, since a worker that is yet to be spawned is one that has not moved yet.
Pinning, prefetching and the way a worker waits change nothing and are left out.

`accepted` and `applied` record what happened; no step reads them.
-/
namespace Orderbooks
open Runs

/-- How many commands a worker claims at a time, at most. -/
def workerBatch : ℕ := 64

/-- What a worker's loop is in: its main loop, or the drain after a stop request with the 32-bit
count of the commands drained there. -/
inductive WorkerPhase where
  | serving
  | closing (m : UInt32)
  deriving DecidableEq, Repr

inductive WorkerPc where
  | off
  | polling (phase : WorkerPhase)
  | applying (phase : WorkerPhase) (k n : ℕ)
  | counting (n : ℕ)
  | checking
  | leaving (m : UInt32)
  | exited
  deriving DecidableEq, Repr

structure Shard (ticks maxOrders : ℕ) where
  ingress : List Command := []
  engine : Engine (List Event) ticks maxOrders .byId
  processed : UInt64 := 0
  pushed : UInt64 := 0
  pc : WorkerPc := .off
  done : UInt64 := 0
  applied : List Command := []

namespace Shard

variable {ticks maxOrders : ℕ}

def tryPush (ringCapacity : ℕ) (sh : Shard ticks maxOrders) (cmd : Command) :
    Option (Shard ticks maxOrders) :=
  (Channel.push ringCapacity sh.ingress cmd).map fun q =>
    { sh with ingress := q, pushed := sh.pushed + 1 }

theorem tryPush_of_lt {ringCapacity : ℕ} {sh : Shard ticks maxOrders}
    (h : sh.ingress.length < ringCapacity) (cmd : Command) :
    sh.tryPush ringCapacity cmd =
      some { sh with ingress := sh.ingress ++ [cmd], pushed := sh.pushed + 1 } := by
  rw [tryPush, Channel.push, if_pos h]
  rfl

/-- The next step of the worker, where `stop` is the flag and `n` the size of a claim. -/
def work (stop : Bool) (n : ℕ) (sh : Shard ticks maxOrders) : Option (Shard ticks maxOrders) :=
  match sh.pc with
  | .off => none
  | .exited => none
  | .polling phase =>
      if ¬Channel.Claims workerBatch sh.ingress n then none
      else if n = 0 then
        match phase with
        | .serving => some { sh with pc := .checking }
        | .closing m => some { sh with pc := .leaving m }
      else some { sh with pc := .applying phase 0 n }
  | .applying phase k n =>
      if k < n then
        sh.ingress[k]?.map fun cmd =>
          { sh with
            engine := sh.engine.apply cmd
            applied := sh.applied ++ [cmd]
            pc := .applying phase (k + 1) n }
      else
        let sh := { sh with ingress := sh.ingress.drop n }
        match phase with
        | .serving => some { sh with pc := .counting n }
        | .closing m => some { sh with pc := .polling (.closing (m + UInt32.ofNat n)) }
  | .counting n =>
      let done := sh.done + UInt64.ofNat n
      some { sh with done := done, processed := done, pc := .polling .serving }
  | .checking =>
      some { sh with pc := .polling (if stop then .closing 0 else .serving) }
  | .leaving m =>
      if 0 < m then
        let done := sh.done + UInt64.ofNat m.toNat
        some { sh with done := done, processed := done, pc := .exited }
      else some { sh with pc := .exited }

/-- A thread for the shard, which reads the counter it goes on from. -/
def spawn (sh : Shard ticks maxOrders) : Shard ticks maxOrders :=
  { sh with pc := .polling .serving, done := sh.processed }

def join (sh : Shard ticks maxOrders) : Shard ticks maxOrders := { sh with pc := .off }

end Shard

/-- The producer waits in `drain` for the shards from `i` on. -/
inductive ProducerPc where
  | ready
  | draining (i : ℕ)
  deriving DecidableEq, Repr

structure ShardRuntime (ticks maxOrders numShards ringCapacity : ℕ) where
  shards : ℕ → Shard ticks maxOrders
  stop : Bool := false
  running : Bool := false
  producer : ProducerPc := .ready
  accepted : List Call := []

namespace ShardRuntime

variable {ticks maxOrders numShards ringCapacity : ℕ}

inductive Action where
  | tryPush (c : Call)
  | drain
  | drainLoad
  | drainReturn
  | start
  | requestStop
  | join
  | work (i n : ℕ)
  deriving DecidableEq, Repr

def new (cfg : EngineConfig) (mem : ℕ → Memory) :
    ShardRuntime ticks maxOrders numShards ringCapacity :=
  { shards := fun i => { engine := .new [] (shardConfig cfg numShards i) (mem i) } }

def setShard (s : ShardRuntime ticks maxOrders numShards ringCapacity) (i : ℕ)
    (sh : Shard ticks maxOrders) : ShardRuntime ticks maxOrders numShards ringCapacity :=
  { s with shards := Function.update s.shards i sh }

/-- `enqueue_`: what the call returns, and the state it leaves. -/
def tryPush (s : ShardRuntime ticks maxOrders numShards ringCapacity) (c : Call) :
    Bool × ShardRuntime ticks maxOrders numShards ringCapacity :=
  let idx := shardIndex c.sym numShards
  match (s.shards idx).tryPush ringCapacity c.cmd with
  | none => (false, s)
  | some sh => (true, { s.setShard idx sh with accepted := s.accepted ++ [c] })

def step (s : ShardRuntime ticks maxOrders numShards ringCapacity) :
    Action → Option (ShardRuntime ticks maxOrders numShards ringCapacity)
  | .tryPush c => if s.producer = .ready then some (s.tryPush c).2 else none
  | .drain => if s.producer = .ready then some { s with producer := .draining 0 } else none
  | .drainLoad =>
      match s.producer with
      | .ready => none
      | .draining i =>
          if numShards ≤ i then none
          else if (s.shards i).processed ≠ (s.shards i).pushed then some s
          else some { s with producer := .draining (i + 1) }
  | .drainReturn =>
      if s.producer = .draining numShards then some { s with producer := .ready } else none
  | .start =>
      if s.running then none
      else some { s with
        stop := false
        running := true
        shards := fun i => if i < numShards then (s.shards i).spawn else s.shards i }
  | .requestStop => if s.running ∧ !s.stop then some { s with stop := true } else none
  | .join =>
      if s.running ∧ s.stop ∧ ∀ i < numShards, (s.shards i).pc = .exited then
        some { s with
          running := false
          shards := fun i => if i < numShards then (s.shards i).join else s.shards i }
      else none
  | .work i n =>
      if i < numShards then ((s.shards i).work s.stop n).map (s.setShard i) else none

end ShardRuntime

/-! ## What a worker's step can do -/

namespace WorkerPc

/-- How many of the commands in the ring are applied already. -/
def inHand : WorkerPc → ℕ
  | .applying _ k _ => k
  | _ => 0

/-- How many of the applied commands the worker still has to add to its counter. -/
def uncounted : WorkerPc → ℕ
  | .polling (.closing m) => m.toNat
  | .applying .serving k _ => k
  | .applying (.closing m) k _ => m.toNat + k
  | .counting n => n
  | .leaving m => m.toNat
  | _ => 0

/-- The worker is in its main loop and has not seen a stop request. -/
def Serving : WorkerPc → Prop
  | .off => True
  | .polling phase => phase = .serving
  | .applying phase _ _ => phase = .serving
  | .counting _ => True
  | .checking => True
  | .leaving _ => False
  | .exited => False

/-- The worker has found its ring empty after a stop request. -/
def Closed : WorkerPc → Prop
  | .leaving _ => True
  | .exited => True
  | _ => False

theorem Serving.not_closed {pc : WorkerPc} (h : pc.Serving) : ¬pc.Closed := by
  cases pc with
  | leaving m => exact h.elim
  | exited => exact h.elim
  | off | polling | applying | counting | checking => exact id

end WorkerPc

namespace Shard

variable {ticks maxOrders : ℕ}

inductive Move (stop : Bool) (sh : Shard ticks maxOrders) : Shard ticks maxOrders → Prop
  | empty : sh.pc = .polling .serving → sh.ingress = [] → Move stop sh { sh with pc := .checking }
  | drained {m : UInt32} : sh.pc = .polling (.closing m) → sh.ingress = [] →
      Move stop sh { sh with pc := .leaving m }
  | claim {phase : WorkerPhase} {n : ℕ} : sh.pc = .polling phase → n ≤ sh.ingress.length →
      Move stop sh { sh with pc := .applying phase 0 n }
  | apply {phase : WorkerPhase} {k n : ℕ} {cmd : Command} : sh.pc = .applying phase k n → k < n →
      sh.ingress[k]? = some cmd →
      Move stop sh { sh with
        engine := sh.engine.apply cmd
        applied := sh.applied ++ [cmd]
        pc := .applying phase (k + 1) n }
  | release {k n : ℕ} : sh.pc = .applying .serving k n → n ≤ k →
      Move stop sh { sh with ingress := sh.ingress.drop n, pc := .counting n }
  | releaseClosing {m : UInt32} {k n : ℕ} : sh.pc = .applying (.closing m) k n → n ≤ k →
      Move stop sh { sh with
        ingress := sh.ingress.drop n
        pc := .polling (.closing (m + UInt32.ofNat n)) }
  | count {n : ℕ} : sh.pc = .counting n →
      Move stop sh { sh with
        done := sh.done + UInt64.ofNat n
        processed := sh.done + UInt64.ofNat n
        pc := .polling .serving }
  | check : sh.pc = .checking →
      Move stop sh { sh with pc := .polling (if stop then .closing 0 else .serving) }
  | leave {m : UInt32} : sh.pc = .leaving m →
      Move stop sh { sh with
        done := sh.done + UInt64.ofNat m.toNat
        processed := sh.done + UInt64.ofNat m.toNat
        pc := .exited }
  | leaveUnchanged {m : UInt32} : sh.pc = .leaving m → Move stop sh { sh with pc := .exited }

theorem work_move {stop : Bool} {n : ℕ} {sh sh' : Shard ticks maxOrders}
    (h : sh.work stop n = some sh') : Move stop sh sh' := by
  unfold work at h
  cases hpc : sh.pc with
  | off => simp [hpc] at h
  | exited => simp [hpc] at h
  | polling phase =>
      simp only [hpc] at h
      split_ifs at h with hclaim hn
      · have hnil := (hn ▸ hclaim : Channel.Claims workerBatch sh.ingress 0).eq_nil (by decide)
        cases phase with
        | serving => exact Option.some.inj h ▸ .empty hpc hnil
        | closing m => exact Option.some.inj h ▸ .drained hpc hnil
      · exact Option.some.inj h ▸ .claim hpc hclaim.2.1
  | applying phase k n =>
      simp only [hpc] at h
      split_ifs at h with hk
      · obtain ⟨cmd, hcmd, rfl⟩ := Option.map_eq_some_iff.mp h
        exact .apply hpc hk hcmd
      · cases phase with
        | serving => exact Option.some.inj h ▸ .release hpc (not_lt.mp hk)
        | closing m => exact Option.some.inj h ▸ .releaseClosing hpc (not_lt.mp hk)
  | counting n =>
      simp only [hpc] at h
      exact Option.some.inj h ▸ .count hpc
  | checking =>
      simp only [hpc] at h
      exact Option.some.inj h ▸ .check hpc
  | leaving m =>
      simp only [hpc] at h
      split_ifs at h
      · exact Option.some.inj h ▸ .leave hpc
      · exact Option.some.inj h ▸ .leaveUnchanged hpc

end Shard

end Orderbooks
