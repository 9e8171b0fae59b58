import Orderbooks.Publishing
import Orderbooks.Hash

/-!
# The shard router

`shard_router.hpp`. Every engine holds a reference to one publisher, so a dispatch hands the
publisher to the engine of the symbol's shard and takes it back afterwards.

`trace` lists what a run publishes with the shard it comes from. Each shard's part of it is
what that shard's engine, alone, publishes for the commands routed to it.
-/
namespace Orderbooks

/-- A call of the router: a symbol and the command for it. -/
structure Call where
  sym : UInt64
  cmd : Command
  deriving DecidableEq, Repr

/-- The commands for one of the shards, in their order. -/
def routed (numShards i : ℕ) (calls : List Call) : List Command :=
  (calls.filter fun c => shardIndex c.sym numShards = i).map Call.cmd

theorem routed_cons (numShards i : ℕ) (c : Call) (calls : List Call) :
    routed numShards i (c :: calls) = routed numShards i [c] ++ routed numShards i calls := by
  unfold routed
  rw [← List.map_append, ← List.filter_append, List.singleton_append]

structure ShardRouter (P : Type) (ticks maxOrders numShards : ℕ) where
  pub : P
  engines : ℕ → Engine P ticks maxOrders .byId

/-- Each shard stamps from a base of its own, whatever the caller's configuration says. -/
def shardConfig (cfg : EngineConfig) (numShards i : ℕ) : EngineConfig :=
  { cfg with seqBase := shardSeqBase i numShards }

namespace ShardRouter

variable {P : Type} {ticks maxOrders numShards : ℕ}

def new (pub : P) (cfg : EngineConfig) (mem : ℕ → Memory) :
    ShardRouter P ticks maxOrders numShards :=
  ⟨pub, fun i => .new pub (shardConfig cfg numShards i) (mem i)⟩

variable [Publisher P]

def dispatch (r : ShardRouter P ticks maxOrders numShards) (c : Call) :
    ShardRouter P ticks maxOrders numShards :=
  let i := shardIndex c.sym numShards
  let e := ({ r.engines i with pub := r.pub } : Engine P ticks maxOrders .byId).apply c.cmd
  ⟨e.pub, Function.update r.engines i e⟩

def run (pub : P) (cfg : EngineConfig) (mem : ℕ → Memory) (calls : List Call) :
    ShardRouter P ticks maxOrders numShards :=
  calls.foldl dispatch (new pub cfg mem)

/-- What one dispatch publishes. -/
def emitted (r : ShardRouter P ticks maxOrders numShards) (c : Call) : List Event :=
  ((r.engines (shardIndex c.sym numShards)).recorder.apply c.cmd).pub

/-- Everything published along a run, with its shard. -/
def trace (r : ShardRouter P ticks maxOrders numShards) : List Call → List (ℕ × Event)
  | [] => []
  | c :: cs => (r.emitted c).map (Prod.mk (shardIndex c.sym numShards)) ++ (r.dispatch c).trace cs

/-- One shard's part of a stream. -/
def stream (i : ℕ) (evs : List (ℕ × Event)) : List Event :=
  (evs.filter (·.1 = i)).map Prod.snd

theorem dispatch_pub (r : ShardRouter P ticks maxOrders numShards) (c : Call) :
    (r.dispatch c).pub = (r.emitted c).foldl Publisher.publish r.pub := by
  unfold dispatch
  dsimp only
  rw [Engine.apply_eq]
  rfl

/-- The publisher is handed the whole trace. -/
theorem foldl_dispatch_pub (r : ShardRouter P ticks maxOrders numShards) (calls : List Call) :
    (calls.foldl dispatch r).pub =
      ((r.trace calls).map Prod.snd).foldl Publisher.publish r.pub := by
  induction calls generalizing r with
  | nil => rfl
  | cons c cs ih =>
      rw [List.foldl_cons, ih, dispatch_pub, trace, List.map_append, List.foldl_append,
        List.map_map]
      congr 2
      exact (List.map_id _).symm

/-! ## Shards are independent -/

theorem dispatch_engine (r : ShardRouter P ticks maxOrders numShards) (c : Call) (i : ℕ) :
    ((r.dispatch c).engines i).recorder =
      ((routed numShards i [c]).foldl Engine.apply (r.engines i).recorder).recorder := by
  unfold dispatch
  dsimp only
  by_cases h : shardIndex c.sym numShards = i
  · subst h
    rw [Function.update_self, show routed numShards _ [c] = [c.cmd] by simp [routed]]
    exact Engine.recorder_foldl_apply
      ({ r.engines _ with pub := r.pub } : Engine P ticks maxOrders .byId) [c.cmd]
  · rw [Function.update_of_ne (Ne.symm h), show routed numShards i [c] = [] by simp [routed, h]]
    rfl

/-- A shard is what its engine alone makes of the commands routed to it. -/
theorem foldl_dispatch_engine (r : ShardRouter P ticks maxOrders numShards) (calls : List Call)
    (i : ℕ) :
    ((calls.foldl dispatch r).engines i).recorder =
      ((routed numShards i calls).foldl Engine.apply (r.engines i).recorder).recorder := by
  induction calls generalizing r with
  | nil => rfl
  | cons c cs ih =>
      rw [List.foldl_cons, ih, dispatch_engine, ← Engine.recorder_foldl_apply,
        routed_cons numShards i c cs, List.foldl_append]

/-- What a shard publishes is what its engine alone publishes for the commands routed to it. -/
theorem stream_trace (r : ShardRouter P ticks maxOrders numShards) (calls : List Call) (i : ℕ) :
    stream i (r.trace calls) =
      ((routed numShards i calls).foldl Engine.apply (r.engines i).recorder).pub := by
  induction calls generalizing r with
  | nil => rfl
  | cons c cs ih =>
      have hfirst : stream i ((r.emitted c).map (Prod.mk (shardIndex c.sym numShards))) =
          ((routed numShards i [c]).foldl Engine.apply (r.engines i).recorder).pub := by
        by_cases h : shardIndex c.sym numShards = i
        · subst h
          simp [stream, routed, emitted, List.filter_map, Function.comp_def]
        · simp [stream, routed, h, List.filter_map, Function.comp_def]
          rfl
      rw [routed_cons numShards i c cs, List.foldl_append, Engine.foldl_apply_log,
        ← dispatch_engine, ← ih, ← hfirst, trace]
      simp [stream]

end ShardRouter

end Orderbooks
