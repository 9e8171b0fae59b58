import Orderbooks.ShardRuntime

/-!
# The runtimes refine the router

`Tracks` relates a shard to the commands pushed for it: the applied ones, then what is left in
the ring, are those commands in their order, and the engine is what the applied ones make of
it. The counters are only ever behind. So `drain`, which compares them, is right as long as they
do not wrap, and a stop is right whatever they say.

The count of the final drain has 32 bits. It loses `2^32` commands where a ring holds so many,
and after enough stops the counters agree while the ring is full.
-/
namespace Orderbooks
open Runs

namespace Shard

variable {ticks maxOrders : ℕ}

/-- What holds between a shard and the commands `cmds` pushed for it. -/
structure Tracks (e₀ : Engine (List Event) ticks maxOrders .byId) (cmds : List Command)
    (sh : Shard ticks maxOrders) : Prop where
  order : sh.applied ++ sh.ingress.drop sh.pc.inHand = cmds
  engine : sh.engine = sh.applied.foldl Engine.apply e₀
  claim : ∀ phase k n, sh.pc = .applying phase k n → k ≤ n ∧ n ≤ sh.ingress.length
  pushed : sh.pushed = UInt64.ofNat cmds.length
  processed : sh.processed.toNat + sh.pc.uncounted ≤ sh.applied.length
  done : sh.pc ≠ .off → sh.done = sh.processed

variable {e₀ : Engine (List Event) ticks maxOrders .byId} {cmds : List Command}
  {sh sh' : Shard ticks maxOrders} {stop : Bool}

theorem toNat_add_ofNat_le {w : ℕ} (a : BitVec w) (n : ℕ) :
    (a + BitVec.ofNat w n).toNat ≤ a.toNat + n := by
  rw [BitVec.toNat_add, BitVec.toNat_ofNat]
  exact (Nat.mod_le _ _).trans (Nat.add_le_add_left (Nat.mod_le _ _) _)

theorem Tracks.move (h : sh.Tracks e₀ cmds) (hm : Move stop sh sh') : sh'.Tracks e₀ cmds := by
  obtain ⟨horder, hengine, hclaim, hpushed, hproc, hdone⟩ := h
  cases hm with
  | empty hpc hnil =>
      rw [hpc] at horder hproc hdone
      exact ⟨horder, hengine, by simp, hpushed, hproc, fun _ => hdone (by simp)⟩
  | drained hpc hnil =>
      rw [hpc] at horder hproc hdone
      exact ⟨horder, hengine, by simp, hpushed, hproc, fun _ => hdone (by simp)⟩
  | claim hpc hn =>
      rw [hpc] at horder hproc hdone
      refine ⟨horder, hengine, ?_, hpushed, ?_, fun _ => hdone (by simp)⟩
      · rintro phase k n ⟨⟩
        exact ⟨Nat.zero_le _, hn⟩
      · rename_i phase n
        cases phase <;> simpa [WorkerPc.uncounted] using hproc
  | @apply phase k n cmd hpc hk hcmd =>
      have hclaim' := hclaim phase k n hpc
      rw [hpc] at horder hproc hdone
      obtain ⟨hlt, hget⟩ := List.getElem?_eq_some_iff.mp hcmd
      refine ⟨?_, ?_, ?_, hpushed, ?_, fun _ => hdone (by simp)⟩
      · rw [← horder, List.append_assoc, WorkerPc.inHand, WorkerPc.inHand,
          List.drop_eq_getElem_cons hlt, hget]
        rfl
      · rw [List.foldl_append, ← hengine]
        rfl
      · rintro _ _ _ ⟨⟩
        exact ⟨hk, hclaim'.2⟩
      · rw [List.length_append, List.length_singleton]
        cases phase <;> simp only [WorkerPc.uncounted] at hproc ⊢ <;> omega
  | @release k n hpc hk =>
      obtain ⟨hkn, -⟩ := hclaim _ _ _ hpc
      obtain rfl : k = n := by omega
      rw [hpc] at horder hproc hdone
      exact ⟨horder, hengine, by simp, hpushed, hproc, fun _ => hdone (by simp)⟩
  | @releaseClosing m k n hpc hk =>
      obtain ⟨hkn, -⟩ := hclaim _ _ _ hpc
      obtain rfl : k = n := by omega
      rw [hpc] at horder hproc hdone
      refine ⟨horder, hengine, by simp, hpushed, ?_, fun _ => hdone (by simp)⟩
      have : (m + UInt32.ofNat k).toNat ≤ m.toNat + k := toNat_add_ofNat_le m.toBitVec k
      simp only [WorkerPc.uncounted] at hproc ⊢
      omega
  | @count n hpc =>
      rw [hpc] at horder hproc hdone
      refine ⟨horder, hengine, by simp, hpushed, ?_, fun _ => rfl⟩
      have : (sh.done + UInt64.ofNat n).toNat ≤ sh.done.toNat + n :=
        toNat_add_ofNat_le sh.done.toBitVec n
      rw [hdone (by simp)] at this
      simp only [WorkerPc.uncounted, hdone (by simp)] at hproc ⊢
      omega
  | check hpc =>
      rw [hpc] at horder hproc hdone
      refine ⟨horder, hengine, by simp, hpushed, ?_, fun _ => hdone (by simp)⟩
      cases stop <;> exact hproc
  | @leave m hpc =>
      rw [hpc] at horder hproc hdone
      refine ⟨horder, hengine, by simp, hpushed, ?_, fun _ => rfl⟩
      have : (sh.done + UInt64.ofNat m.toNat).toNat ≤ sh.done.toNat + m.toNat :=
        toNat_add_ofNat_le sh.done.toBitVec m.toNat
      rw [hdone (by simp)] at this
      simp only [WorkerPc.uncounted, hdone (by simp)] at hproc ⊢
      omega
  | leaveUnchanged hpc =>
      rw [hpc] at horder hproc hdone
      exact ⟨horder, hengine, by simp, hpushed, (Nat.le_add_right _ _).trans hproc,
        fun _ => hdone (by simp)⟩

/-- A worker only ever applies more. -/
theorem Move.isPrefix_applied (hm : Move stop sh sh') : sh.applied <+: sh'.applied := by
  cases hm with
  | apply => exact List.prefix_append _ _
  | _ => exact List.prefix_refl _

theorem Tracks.isPrefix_applied (h : sh.Tracks e₀ cmds) : sh.applied <+: cmds :=
  h.order ▸ List.prefix_append _ _

/-- Once everything is applied it stays so. -/
theorem Tracks.move_settled (h : sh.Tracks e₀ cmds) (hm : Move stop sh sh')
    (hs : sh.applied = cmds) : sh'.applied = cmds :=
  (h.move hm).isPrefix_applied.eq_of_length_le (hs ▸ hm.isPrefix_applied.length_le)

theorem Move.serving (hm : Move false sh sh') (h : sh.pc.Serving) : sh'.pc.Serving := by
  cases hm with
  | empty | count | check => trivial
  | drained hpc | releaseClosing hpc | leave hpc | leaveUnchanged hpc =>
      rw [hpc] at h
      exact absurd h (by simp [WorkerPc.Serving])
  | claim hpc | apply hpc =>
      rw [hpc] at h
      exact h
  | release => trivial

/-- A worker that has left its ring empty has applied everything. -/
theorem Tracks.move_closed (h : sh.Tracks e₀ cmds) (hm : Move stop sh sh')
    (hs : sh.pc.Closed → sh.applied = cmds) (hc : sh'.pc.Closed) : sh'.applied = cmds := by
  cases hm with
  | drained hpc hnil =>
      have := h.order
      rwa [hnil, List.drop_nil, List.append_nil] at this
  | leave hpc | leaveUnchanged hpc => exact hs (hpc ▸ trivial)
  | check => cases stop <;> exact hc.elim
  | empty | claim | apply | release | releaseClosing | count => exact hc.elim

theorem Tracks.new (e₀ : Engine (List Event) ticks maxOrders .byId) :
    ({ engine := e₀ } : Shard ticks maxOrders).Tracks e₀ [] :=
  ⟨rfl, rfl, by simp, rfl, by simp [WorkerPc.uncounted], by simp⟩

theorem Tracks.push {ringCapacity : ℕ} {cmd : Command} (h : sh.Tracks e₀ cmds)
    (hp : sh.tryPush ringCapacity cmd = some sh') : sh'.Tracks e₀ (cmds ++ [cmd]) := by
  obtain ⟨q, hq, rfl⟩ := Option.map_eq_some_iff.mp hp
  obtain ⟨-, rfl⟩ := Channel.push_eq_some.mp hq
  obtain ⟨horder, hengine, hclaim, hpushed, hproc, hdone⟩ := h
  have hhand : sh.pc.inHand ≤ sh.ingress.length := by
    unfold WorkerPc.inHand
    split
    · rename_i phase k n hpc
      obtain ⟨hk, hn⟩ := hclaim phase k n hpc
      omega
    · omega
  refine ⟨?_, hengine, fun phase k n hpc => ?_, ?_, hproc, hdone⟩
  · rw [List.drop_append_of_le_length hhand, ← List.append_assoc, horder]
  · obtain ⟨hk, hn⟩ := hclaim phase k n hpc
    exact ⟨hk, hn.trans (by simp)⟩
  · rw [hpushed, List.length_append, List.length_singleton, UInt64.ofNat_add]
    rfl

theorem Tracks.spawn (h : sh.Tracks e₀ cmds) (hoff : sh.pc = .off) : sh.spawn.Tracks e₀ cmds := by
  obtain ⟨horder, hengine, -, hpushed, hproc, -⟩ := h
  rw [hoff] at horder hproc
  exact ⟨horder, hengine, by simp [Shard.spawn], hpushed, hproc, fun _ => rfl⟩

theorem Tracks.join (h : sh.Tracks e₀ cmds) (hexit : sh.pc = .exited) : sh.join.Tracks e₀ cmds := by
  obtain ⟨horder, hengine, -, hpushed, hproc, -⟩ := h
  rw [hexit] at horder hproc
  exact ⟨horder, hengine, by simp [Shard.join], hpushed, hproc, by simp [Shard.join]⟩

/-- Counters of fewer than `2^64` commands do not wrap, so equal counters mean that everything
pushed is applied. -/
theorem Tracks.settled (h : sh.Tracks e₀ cmds) (hlt : cmds.length < 2 ^ 64)
    (heq : sh.processed = sh.pushed) : sh.applied = cmds := by
  refine h.isPrefix_applied.eq_of_length_le ?_
  have hproc := h.processed
  rw [heq, h.pushed, UInt64.toNat_ofNat_of_lt' hlt] at hproc
  omega

end Shard

/-! ## Schedules -/

namespace ShardRuntime

variable {ticks maxOrders numShards ringCapacity : ℕ}

/-- The engine a shard starts with. -/
def engine₀ (cfg : EngineConfig) (mem : ℕ → Memory) (numShards i : ℕ) :
    Engine (List Event) ticks maxOrders .byId :=
  .new [] (shardConfig cfg numShards i) (mem i)

/-- Everything accepted for a shard is applied. -/
def Settled (s : ShardRuntime ticks maxOrders numShards ringCapacity) (i : ℕ) : Prop :=
  (s.shards i).applied = routed numShards i s.accepted

structure Inv (cfg : EngineConfig) (mem : ℕ → Memory)
    (s : ShardRuntime ticks maxOrders numShards ringCapacity) : Prop where
  tracks : ∀ i, (s.shards i).Tracks (engine₀ cfg mem numShards i) (routed numShards i s.accepted)
  serving : s.stop = false → ∀ i, (s.shards i).pc.Serving
  off : ∀ i, s.running = false ∨ numShards ≤ i → (s.shards i).pc = .off
  drained : (∀ i, (routed numShards i s.accepted).length < 2 ^ 64) →
    ∀ j, s.producer = .draining j → ∀ i < j, s.Settled i

variable {cfg : EngineConfig} {mem : ℕ → Memory}
  {s s' : ShardRuntime ticks maxOrders numShards ringCapacity}

theorem routed_append (i : ℕ) (calls : List Call) (c : Call) :
    routed numShards i (calls ++ [c]) = routed numShards i calls ++ routed numShards i [c] := by
  simp [routed]

theorem routed_length_le (i : ℕ) (calls : List Call) :
    (routed numShards i calls).length ≤ calls.length := by
  unfold routed
  rw [List.length_map]
  exact List.length_filter_le _ _

theorem Inv.new :
    (new cfg mem : ShardRuntime ticks maxOrders numShards ringCapacity).Inv cfg mem where
  tracks _ := .new _
  serving _ _ := trivial
  off _ _ := rfl
  drained _ j h := by simp [ShardRuntime.new] at h

theorem Inv.tryPush (h : s.Inv cfg mem) (c : Call) (hr : s.producer = .ready) :
    (s.tryPush c).2.Inv cfg mem := by
  unfold ShardRuntime.tryPush
  dsimp only
  cases hp : (s.shards (shardIndex c.sym numShards)).tryPush ringCapacity c.cmd with
  | none => exact h
  | some sh =>
      have hpc : sh.pc = (s.shards (shardIndex c.sym numShards)).pc := by
        obtain ⟨q, -, rfl⟩ := Option.map_eq_some_iff.mp hp
        rfl
      have hown : routed numShards (shardIndex c.sym numShards) [c] = [c.cmd] := by simp [routed]
      refine ⟨?_, fun hs => ?_, ?_, fun _ j hj => ?_⟩
      · refine (Function.forall_update_iff s.shards fun i sh => sh.Tracks
          (engine₀ cfg mem numShards i) (routed numShards i (s.accepted ++ [c]))).mpr
          ⟨?_, fun i hi => ?_⟩
        · rw [routed_append, hown]
          exact (h.tracks _).push hp
        · rw [routed_append, show routed numShards i [c] = [] by simp [routed, Ne.symm hi],
            List.append_nil]
          exact h.tracks i
      · exact (Function.forall_update_iff s.shards fun _ sh => sh.pc.Serving).mpr
          ⟨hpc ▸ h.serving hs _, fun i _ => h.serving hs i⟩
      · exact (Function.forall_update_iff s.shards fun i sh =>
          s.running = false ∨ numShards ≤ i → sh.pc = .off).mpr
          ⟨hpc ▸ h.off _, fun i _ => h.off i⟩
      · rw [show s.producer = .draining j from hj] at hr
        exact ProducerPc.noConfusion hr

theorem Inv.work (h : s.Inv cfg mem) {i n : ℕ} {sh : Shard ticks maxOrders}
    (hw : (s.shards i).work s.stop n = some sh) : (s.setShard i sh).Inv cfg mem := by
  have hm := Shard.work_move hw
  refine ⟨?_, fun hs => ?_, ?_, fun hlt j hj k hk => ?_⟩
  · exact (Function.forall_update_iff s.shards fun i sh => sh.Tracks
      (engine₀ cfg mem numShards i) (routed numShards i s.accepted)).mpr
      ⟨(h.tracks i).move hm, fun k _ => h.tracks k⟩
  · rw [show s.stop = false from hs] at hm
    exact (Function.forall_update_iff s.shards fun _ sh => sh.pc.Serving).mpr
      ⟨hm.serving (h.serving hs i), fun k _ => h.serving hs k⟩
  · refine (Function.forall_update_iff s.shards fun i sh =>
      s.running = false ∨ numShards ≤ i → sh.pc = .off).mpr ⟨fun hi => ?_, fun k _ => h.off k⟩
    -- a worker that is off does not move
    unfold Shard.work at hw
    simp [h.off i hi] at hw
  · have hset := h.drained hlt j hj k hk
    unfold Settled setShard
    dsimp only
    by_cases hki : k = i
    · subst hki
      rw [Function.update_self]
      exact (h.tracks k).move_settled hm hset
    · rwa [Function.update_of_ne hki]

theorem Inv.start (h : s.Inv cfg mem) (hrun : s.running = false) :
    ({ s with
      stop := false
      running := true
      shards := fun i => if i < numShards then (s.shards i).spawn else s.shards i } :
        ShardRuntime ticks maxOrders numShards ringCapacity).Inv cfg mem := by
  have hoff := fun i => h.off i (.inl hrun)
  refine ⟨fun i => ?_, fun _ i => ?_, fun i hi => ?_, fun hlt j hj i hi => ?_⟩
  · dsimp only
    split_ifs
    · exact (h.tracks i).spawn (hoff i)
    · exact h.tracks i
  · dsimp only
    split_ifs
    · rfl
    · exact hoff i ▸ trivial
  · dsimp only
    rw [if_neg (not_lt.mpr (hi.resolve_left (by simp)))]
    exact hoff i
  · have hset := h.drained hlt j hj i hi
    unfold Settled at hset ⊢
    dsimp only
    split_ifs <;> exact hset

theorem Inv.join (h : s.Inv cfg mem) (hexit : ∀ i < numShards, (s.shards i).pc = .exited) :
    ({ s with
      running := false
      shards := fun i => if i < numShards then (s.shards i).join else s.shards i } :
        ShardRuntime ticks maxOrders numShards ringCapacity).Inv cfg mem := by
  refine ⟨fun i => ?_, fun hs i => ?_, fun i _ => ?_, fun hlt j hj i hi => ?_⟩
  · dsimp only
    split_ifs with hi
    · exact (h.tracks i).join (hexit i hi)
    · exact h.tracks i
  · dsimp only
    split_ifs
    · trivial
    · exact h.serving hs i
  · dsimp only
    split_ifs with hi
    · rfl
    · exact h.off i (.inr (not_lt.mp hi))
  · have hset := h.drained hlt j hj i hi
    unfold Settled at hset ⊢
    dsimp only
    split_ifs <;> exact hset

theorem Inv.drainLoad (h : s.Inv cfg mem) (hstep : s.step .drainLoad = some s') :
    s'.Inv cfg mem := by
  unfold ShardRuntime.step at hstep
  cases hprod : s.producer with
  | ready => simp [hprod] at hstep
  | draining i =>
      simp only [hprod] at hstep
      split_ifs at hstep with hi heq
      · exact Option.some.inj hstep ▸ h
      · rw [← Option.some.inj hstep]
        refine ⟨h.tracks, h.serving, h.off, fun hlt j hj k hk => ?_⟩
        obtain rfl : i + 1 = j := ProducerPc.draining.inj hj
        by_cases hki : k = i
        · subst hki
          exact (h.tracks k).settled (hlt k) (not_not.mp heq)
        · exact h.drained hlt i hprod k (by omega)

theorem Inv.step (h : s.Inv cfg mem) {a : Action} (hstep : s.step a = some s') :
    s'.Inv cfg mem := by
  cases a with
  | tryPush c =>
      obtain ⟨hr, ⟨⟩⟩ := Option.ite_none_right_eq_some.mp hstep
      exact h.tryPush c hr
  | drain =>
      obtain ⟨hr, ⟨⟩⟩ := Option.ite_none_right_eq_some.mp hstep
      exact ⟨h.tracks, h.serving, h.off, fun _ j hj i hi => by
        obtain rfl : 0 = j := ProducerPc.draining.inj hj
        omega⟩
  | drainLoad => exact h.drainLoad hstep
  | drainReturn =>
      obtain ⟨hr, ⟨⟩⟩ := Option.ite_none_right_eq_some.mp hstep
      exact ⟨h.tracks, h.serving, h.off, fun _ j hj => ProducerPc.noConfusion hj⟩
  | start =>
      obtain ⟨hr, ⟨⟩⟩ := Option.ite_none_left_eq_some.mp hstep
      exact h.start (by simpa using hr)
  | requestStop =>
      obtain ⟨hr, ⟨⟩⟩ := Option.ite_none_right_eq_some.mp hstep
      exact ⟨h.tracks, by simp, h.off, h.drained⟩
  | join =>
      obtain ⟨hr, ⟨⟩⟩ := Option.ite_none_right_eq_some.mp hstep
      exact h.join hr.2.2
  | work i n =>
      obtain ⟨-, hw⟩ := Option.ite_none_right_eq_some.mp hstep
      obtain ⟨sh, hsh, rfl⟩ := Option.map_eq_some_iff.mp hw
      exact h.work hsh

theorem Inv.run (h : s.Inv cfg mem) {acts : List Action}
    (hrun : exec ShardRuntime.step s acts = some s') : s'.Inv cfg mem :=
  exec_invariant (Inv cfg mem) (fun _ _ _ hs hstep => hs.step hstep) hrun h

/-! ## Stopping -/

/-- A worker that has left after a stop request has left nothing behind. -/
def LeftSettled (s : ShardRuntime ticks maxOrders numShards ringCapacity) : Prop :=
  s.stop = true → ∀ i, (s.shards i).pc.Closed → s.Settled i

theorem Inv.leftSettled_requestStop (h : s.Inv cfg mem) (hstep : s.step .requestStop = some s') :
    s'.LeftSettled := by
  obtain ⟨hr, ⟨⟩⟩ := Option.ite_none_right_eq_some.mp hstep
  exact fun _ i hc => absurd hc (h.serving (by simpa using hr.2) i).not_closed

/-- It stays so until there are further pushes. -/
theorem Inv.leftSettled_step (h : s.Inv cfg mem) (hl : s.LeftSettled) {a : Action}
    (ha : ∀ c, a ≠ .tryPush c) (hstep : s.step a = some s') : s'.LeftSettled := by
  cases a with
  | tryPush c => exact absurd rfl (ha c)
  | drain | drainReturn =>
      obtain ⟨hr, ⟨⟩⟩ := Option.ite_none_right_eq_some.mp hstep
      exact hl
  | drainLoad =>
      unfold ShardRuntime.step at hstep
      cases hprod : s.producer with
      | ready => simp [hprod] at hstep
      | draining i =>
          simp only [hprod] at hstep
          split_ifs at hstep <;> exact Option.some.inj hstep ▸ hl
  | start =>
      obtain ⟨hr, ⟨⟩⟩ := Option.ite_none_left_eq_some.mp hstep
      exact fun hs => absurd hs (by simp)
  | requestStop => exact h.leftSettled_requestStop hstep
  | join =>
      have hoff := (h.step hstep).off
      obtain ⟨hr, ⟨⟩⟩ := Option.ite_none_right_eq_some.mp hstep
      intro _ i hc
      rw [hoff i (.inl rfl)] at hc
      exact hc.elim
  | work i n =>
      obtain ⟨-, hw⟩ := Option.ite_none_right_eq_some.mp hstep
      obtain ⟨sh, hsh, rfl⟩ := Option.map_eq_some_iff.mp hw
      have hm := Shard.work_move hsh
      intro hs
      refine (Function.forall_update_iff s.shards fun i sh => sh.pc.Closed →
        sh.applied = routed numShards i s.accepted).mpr ⟨?_, fun k _ => hl hs k⟩
      exact (h.tracks i).move_closed hm (hl hs i)

theorem LeftSettled.join (hl : s.LeftSettled) (hstep : s.step .join = some s') {i : ℕ}
    (hi : i < numShards) : s'.Settled i := by
  obtain ⟨⟨-, hs, hexit⟩, ⟨⟩⟩ := Option.ite_none_right_eq_some.mp hstep
  have := hl hs i (hexit i hi ▸ trivial)
  unfold Settled at this ⊢
  dsimp only
  rwa [if_pos hi]

/-! ## The router -/

/-- Shard `i` is, but for the publisher, the shard of a router given the accepted commands, and
its engine has published what the router's shard has. -/
def Agrees (cfg : EngineConfig) (mem : ℕ → Memory)
    (s : ShardRuntime ticks maxOrders numShards ringCapacity) (i : ℕ) : Prop :=
  let r₀ : ShardRouter (List Event) ticks maxOrders numShards := .new [] cfg mem
  (s.shards i).engine.recorder = ((s.accepted.foldl .dispatch r₀).engines i).recorder ∧
    (s.shards i).engine.pub = ShardRouter.stream i (r₀.trace s.accepted)

theorem Inv.agrees (h : s.Inv cfg mem) {i : ℕ} (hs : s.Settled i) : s.Agrees cfg mem i := by
  have hengine := (h.tracks i).engine
  rw [show (s.shards i).applied = _ from hs] at hengine
  refine ⟨?_, ?_⟩
  · rw [ShardRouter.foldl_dispatch_engine, hengine]
    rfl
  · rw [ShardRouter.stream_trace, hengine]
    rfl

/-- The calls a schedule makes, whether they are accepted or not. -/
def calls (acts : List Action) : List Call :=
  acts.filterMap fun
    | .tryPush c => some c
    | _ => none

theorem step_accepted {a : Action} (hstep : s.step a = some s') :
    s'.accepted = s.accepted ∨ ∃ c, a = .tryPush c ∧ s'.accepted = s.accepted ++ [c] := by
  cases a with
  | tryPush c =>
      obtain ⟨-, ⟨⟩⟩ := Option.ite_none_right_eq_some.mp hstep
      unfold ShardRuntime.tryPush
      dsimp only
      split
      · exact .inl rfl
      · exact .inr ⟨c, rfl, rfl⟩
  | drain | drainReturn | requestStop | join =>
      obtain ⟨-, ⟨⟩⟩ := Option.ite_none_right_eq_some.mp hstep
      exact .inl rfl
  | drainLoad =>
      unfold ShardRuntime.step at hstep
      cases hprod : s.producer with
      | ready => simp [hprod] at hstep
      | draining i =>
          simp only [hprod] at hstep
          split_ifs at hstep <;> exact .inl (Option.some.inj hstep ▸ rfl)
  | start =>
      obtain ⟨-, ⟨⟩⟩ := Option.ite_none_left_eq_some.mp hstep
      exact .inl rfl
  | work i n =>
      obtain ⟨-, hw⟩ := Option.ite_none_right_eq_some.mp hstep
      obtain ⟨sh, hsh, rfl⟩ := Option.map_eq_some_iff.mp hw
      exact .inl rfl

theorem accepted_sublist {acts : List Action} (hrun : exec step s acts = some s') :
    s'.accepted.Sublist (s.accepted ++ calls acts) := by
  induction acts generalizing s with
  | nil =>
      obtain rfl : s = s' := Option.some.inj hrun
      simp
  | cons a acts ih =>
      obtain ⟨s₁, hstep, hrest⟩ := exec_cons.mp hrun
      refine (ih hrest).trans ?_
      rcases step_accepted hstep with h | ⟨c, rfl, h⟩
      · rw [h]
        refine List.Sublist.append_left ?_ _
        unfold calls
        rw [List.filterMap_cons]
        split
        · exact .refl _
        · exact List.sublist_cons_self _ _
      · rw [h, List.append_assoc]
        exact .refl _

/-- In every schedule that makes fewer than `2^64` calls for any one shard: each engine has at
all times been given a prefix of the commands accepted for its shard; a refused call changes
nothing; and when `drain` returns, or a stop with no calls since its request has joined the
workers, every shard is the router's. -/
theorem run_refines_router (cfg : EngineConfig) (mem : ℕ → Memory) (acts : List Action)
    (s : ShardRuntime ticks maxOrders numShards ringCapacity)
    (hrun : exec step (new cfg mem) acts = some s)
    (hcalls : ∀ i, (routed numShards i (calls acts)).length < 2 ^ 64) :
    (∀ i, (s.shards i).applied <+: routed numShards i s.accepted ∧
      (s.shards i).engine = .play [] (shardConfig cfg numShards i) (mem i) (s.shards i).applied) ∧
    (∀ c, (s.tryPush c).1 = false → (s.tryPush c).2 = s) ∧
    (∀ pre, acts = pre ++ [.drainReturn] → ∀ i < numShards, s.Agrees cfg mem i) ∧
    (∀ pre mid, acts = pre ++ .requestStop :: mid ++ [.join] → (∀ c, .tryPush c ∉ mid) →
      ∀ i < numShards, s.Agrees cfg mem i) := by
  have hinv := Inv.new.run hrun
  refine ⟨fun i => ⟨(hinv.tracks i).isPrefix_applied, (hinv.tracks i).engine⟩, fun c => ?_, ?_, ?_⟩
  · unfold ShardRuntime.tryPush
    dsimp only
    split
    · exact fun _ => rfl
    · simp
  · rintro pre rfl i hi
    obtain ⟨s₁, hpre, hret⟩ := exec_concat.mp hrun
    obtain ⟨hprod, ⟨⟩⟩ := Option.ite_none_right_eq_some.mp hret
    have hsmall : ∀ i, (routed numShards i s₁.accepted).length < 2 ^ 64 := by
      intro i
      have hsub := ((accepted_sublist hrun).filter
        fun c => shardIndex c.sym numShards = i).map Call.cmd
      exact hsub.length_le.trans_lt (hcalls i)
    exact hinv.agrees ((Inv.new.run hpre).drained hsmall numShards hprod i hi)
  · rintro pre mid rfl hmid i hi
    obtain ⟨s₃, hpre, hjoin⟩ := exec_concat.mp hrun
    obtain ⟨s₁, hpre, hrest⟩ := exec_append.mp hpre
    obtain ⟨s₂, hreq, hmidrun⟩ := exec_cons.mp hrest
    have hinv₁ := Inv.new.run hpre
    obtain ⟨-, hleft⟩ := exec_invariant_of (fun a : Action => ∀ c, a ≠ .tryPush c)
      (fun s => s.Inv cfg mem ∧ s.LeftSettled)
      (fun s a s' hs ha hstep => ⟨hs.1.step hstep, hs.1.leftSettled_step hs.2 ha hstep⟩)
      (fun a ha c hac => hmid c (by rwa [← hac])) hmidrun
      ⟨hinv₁.step hreq, hinv₁.leftSettled_requestStop hreq⟩
    exact hinv.agrees (hleft.join hjoin hi)

/-- Two commands fill the ring, a third is refused, and a drain waits for the two. -/
theorem run_refines_router_refused_call :
    let c : Call := ⟨1, .submit ⟨1, 0, 5, .ask, .gtc, 0⟩⟩
    let acts : List Action := [.tryPush c, .tryPush ⟨2, .submit ⟨2, 0, 3, .bid, .gtc, 0⟩⟩,
      .tryPush c, .start, .work 0 2, .work 0 0, .drain, .drainLoad, .work 0 0, .work 0 0, .work 0 0,
      .drainLoad, .drainReturn]
    ∃ s : ShardRuntime 1 2 1 2, exec step (new {} fun _ => .zeroed) acts = some s ∧
      s.accepted.length = 2 ∧ s.Agrees {} (fun _ => .zeroed) 0 := by
  intro c acts
  have hsome : (exec step (new {} (fun _ => .zeroed) : ShardRuntime 1 2 1 2) acts).isSome := by
    decide
  obtain ⟨s, hs⟩ := Option.isSome_iff_exists.mp hsome
  have haccepted : (exec step (new {} (fun _ => .zeroed) : ShardRuntime 1 2 1 2) acts).map
      (·.accepted.length) = some 2 := by decide
  rw [hs] at haccepted
  refine ⟨s, hs, Option.some.inj haccepted, ?_⟩
  exact (run_refines_router {} (fun _ => .zeroed) acts s hs
    (fun i => (routed_length_le i _).trans_lt (by decide))).2.2.1 acts.dropLast rfl 0 (by decide)

/-! ## A ring of `2^32` commands -/

section Wide
variable {cap : ℕ}

/-- One shard and the flags, as a schedule for a single shard sees them. -/
structure View (ticks maxOrders : ℕ) where
  shard : Shard ticks maxOrders
  stop : Bool
  running : Bool
  accepted : List Call

structure At (s : ShardRuntime ticks maxOrders 1 cap) (v : View ticks maxOrders) : Prop where
  shard : s.shards 0 = v.shard
  stop : s.stop = v.stop
  running : s.running = v.running
  accepted : s.accepted = v.accepted
  ready : s.producer = .ready

/-- The schedule leads from every state that looks like `v` to one that looks like `v'`. -/
def Leads (cap : ℕ) (acts : List Action) (v v' : View ticks maxOrders) : Prop :=
  ∀ s : ShardRuntime ticks maxOrders 1 cap, s.At v → ∃ s', exec step s acts = some s' ∧ s'.At v'

variable {v v₁ v₂ : View ticks maxOrders}

theorem Leads.nil : Leads cap [] v v := fun s h => ⟨s, rfl, h⟩

theorem Leads.append {acts acts' : List Action} (h : Leads cap acts v v₁)
    (h' : Leads cap acts' v₁ v₂) : Leads cap (acts ++ acts') v v₂ := by
  intro s hs
  obtain ⟨s₁, hrun, hs₁⟩ := h s hs
  obtain ⟨s₂, hrun', hs₂⟩ := h' s₁ hs₁
  exact ⟨s₂, exec_append.mpr ⟨s₁, hrun, hrun'⟩, hs₂⟩

theorem Leads.cons {a : Action} {acts : List Action} (h : Leads cap [a] v v₁)
    (h' : Leads cap acts v₁ v₂) : Leads cap (a :: acts) v v₂ := h.append h'

theorem Leads.of_step {a : Action} (h : ∀ s : ShardRuntime ticks maxOrders 1 cap, s.At v →
    ∃ s', s.step a = some s' ∧ s'.At v₁) : Leads cap [a] v v₁ := by
  intro s hs
  obtain ⟨s', hstep, hs'⟩ := h s hs
  exact ⟨s', exec_cons.mpr ⟨s', hstep, rfl⟩, hs'⟩

theorem leads_work {n : ℕ} {sh : Shard ticks maxOrders} (h : v.shard.work v.stop n = some sh) :
    Leads cap [.work 0 n] v { v with shard := sh } := by
  refine .of_step fun s hs => ⟨s.setShard 0 sh, ?_, ?_⟩
  · rw [← hs.shard, ← hs.stop] at h
    simp [step, h]
  · exact ⟨by simp [setShard], hs.stop, hs.running, hs.accepted, hs.ready⟩

theorem leads_push {c : Call} {sh : Shard ticks maxOrders}
    (h : v.shard.tryPush cap c.cmd = some sh) :
    Leads cap [.tryPush c] v { v with shard := sh, accepted := v.accepted ++ [c] } := by
  refine .of_step fun s hs => ?_
  have hidx : shardIndex c.sym 1 = 0 := by simp [shardIndex]
  rw [← hs.shard] at h
  refine ⟨{ s.setShard 0 sh with accepted := s.accepted ++ [c] }, ?_, ?_⟩
  · simp [step, hs.ready, ShardRuntime.tryPush, hidx, h]
  · exact ⟨by simp [setShard], hs.stop, hs.running, by simp [hs.accepted], hs.ready⟩

theorem leads_start (h : v.running = false) :
    Leads cap [.start] v ⟨v.shard.spawn, false, true, v.accepted⟩ := by
  refine .of_step fun s hs => ⟨_, if_neg (by simp [hs.running, h]), ?_⟩
  exact ⟨by simp [hs.shard], rfl, rfl, hs.accepted, hs.ready⟩

theorem leads_requestStop (h : v.running = true) (hs : v.stop = false) :
    Leads cap [.requestStop] v { v with stop := true } := by
  refine .of_step fun s ha => ⟨_, if_pos (by simp [ha.running, ha.stop, h, hs]), ?_⟩
  exact ⟨ha.shard, rfl, ha.running, ha.accepted, ha.ready⟩

theorem leads_join (h : v.running = true) (hs : v.stop = true) (hpc : v.shard.pc = .exited) :
    Leads cap [.join] v ⟨v.shard.join, true, false, v.accepted⟩ := by
  refine .of_step fun s ha => ?_
  have hexit : ∀ i < 1, (s.shards i).pc = .exited := by
    intro i hi
    obtain rfl : i = 0 := by omega
    rw [ha.shard, hpc]
  exact ⟨_, if_pos ⟨ha.running.trans h, ha.stop.trans hs, hexit⟩, by simp [ha.shard],
    ha.stop.trans hs, rfl, ha.accepted, ha.ready⟩

variable (e₀ : Engine (List Event) ticks maxOrders .byId) (c : Call)

/-- A shard whose ring holds `j` copies of a command, of `p` pushed and `a` applied ones, and
whose counter never left zero. -/
def copies (j p a : ℕ) (pc : WorkerPc) : Shard ticks maxOrders :=
  { ingress := List.replicate j c.cmd
    engine := e₀
    pushed := UInt64.ofNat p
    pc := pc
    applied := List.replicate a c.cmd }

def view (j p a : ℕ) (pc : WorkerPc) (stop running : Bool) : View ticks maxOrders :=
  ⟨copies e₀ c j p a pc, stop, running, List.replicate p c⟩

theorem leads_copies (n j p a : ℕ) (pc : WorkerPc) (stop running : Bool) (h : j + n ≤ cap) :
    Leads cap (List.replicate n (.tryPush c)) (view e₀ c j p a pc stop running)
      (view e₀ c (j + n) (p + n) a pc stop running) := by
  induction n with
  | zero => exact .nil
  | succ n ih =>
      have hpush : (copies e₀ c (j + n) (p + n) a pc).tryPush cap c.cmd =
          some (copies e₀ c (j + n + 1) (p + n + 1) a pc) := by
        rw [Shard.tryPush_of_lt (by simp [copies]; omega)]
        simp [copies, List.replicate_succ', UInt64.ofNat_add]
      rw [List.replicate_succ']
      refine (ih (by omega)).append ?_
      have := leads_push (v := view e₀ c (j + n) (p + n) a pc stop running) hpush
      rwa [show (view e₀ c (j + n) (p + n) a pc stop running).accepted ++ [c] =
        List.replicate (p + n + 1) c from List.replicate_succ'.symm] at this

variable {e₀ c} (he : e₀.apply c.cmd = e₀)
include he

theorem leads_applies (i j p a n : ℕ) (phase : WorkerPhase) (stop running : Bool) (hi : i ≤ n)
    (hn : n ≤ j) :
    Leads cap (List.replicate i (.work 0 0)) (view e₀ c j p a (.applying phase 0 n) stop running)
      (view e₀ c j p (a + i) (.applying phase i n) stop running) := by
  induction i with
  | zero => exact .nil
  | succ i ih =>
      have hwork : (copies e₀ c j p (a + i) (.applying phase i n)).work stop 0 =
          some (copies e₀ c j p (a + i + 1) (.applying phase (i + 1) n)) := by
        have hin : i < n := by omega
        have hij : i < j := by omega
        simp [Shard.work, copies, hin, hij, he, List.replicate_succ']
      rw [List.replicate_succ']
      exact (ih (by omega)).append (leads_work hwork)

/-- A claim in the final drain: the claim, its commands and the release. -/
def drainClaim : List Action := .work 0 64 :: List.replicate 65 (.work 0 0)

theorem leads_drainClaim (j p a : ℕ) (m : UInt32) :
    Leads cap drainClaim (view e₀ c (j + 64) p a (.polling (.closing m)) true true)
      (view e₀ c j p (a + 64) (.polling (.closing (m + 64))) true true) := by
  have hclaim : (copies e₀ c (j + 64) p a (.polling (.closing m))).work true 64 =
      some (copies e₀ c (j + 64) p a (.applying (.closing m) 0 64)) := by
    simp [Shard.work, copies, Channel.Claims, workerBatch]
  have hrelease : (copies e₀ c (j + 64) p (a + 64) (.applying (.closing m) 64 64)).work true 0 =
      some (copies e₀ c j p (a + 64) (.polling (.closing (m + 64)))) := by
    simp [Shard.work, copies]
  refine .cons (leads_work hclaim) ?_
  rw [List.replicate_succ']
  exact (leads_applies he 64 (j + 64) p a 64 (.closing m) true true (by omega) (by omega)).append
    (leads_work hrelease)

theorem leads_drainClaims (q p a : ℕ) (m : UInt32) :
    Leads cap (List.replicate q drainClaim).flatten
      (view e₀ c (q * 64) p a (.polling (.closing m)) true true)
      (view e₀ c 0 p (a + q * 64) (.polling (.closing (m + UInt32.ofNat (q * 64)))) true true) := by
  induction q generalizing a m with
  | zero =>
      rw [Nat.zero_mul, show m + UInt32.ofNat 0 = m from UInt32.add_zero m]
      exact .nil
  | succ q ih =>
      have hsum : m + UInt32.ofNat ((q + 1) * 64) = m + 64 + UInt32.ofNat (q * 64) := by
        rw [Nat.add_mul, Nat.one_mul, Nat.add_comm, UInt32.ofNat_add, ← UInt32.add_assoc]
        rfl
      rw [hsum, show a + (q + 1) * 64 = a + 64 + q * 64 by omega, Nat.add_mul, Nat.one_mul,
        List.replicate_succ, List.flatten_cons]
      exact (leads_drainClaim he (q * 64) p a m).append (ih (a + 64) (m + 64))

/-- A worker that found nothing, `64 q` pushes, and a stop that drains them all. -/
def cycle (c : Call) (q : ℕ) : List Action :=
  [.start, .work 0 0] ++ List.replicate (q * 64) (.tryPush c) ++ [.requestStop, .work 0 0] ++
    (List.replicate q drainClaim).flatten ++ [.work 0 0, .work 0 0, .join]

/-- Where the count of the final drain wraps to zero, the counter stays behind. -/
theorem leads_cycle {q : ℕ} (hcap : q * 64 ≤ cap) (hwrap : UInt32.ofNat (q * 64) = 0) (p a : ℕ)
    (stop : Bool) :
    Leads cap (cycle c q) (view e₀ c 0 p a .off stop false)
      (view e₀ c 0 (p + q * 64) (a + q * 64) .off true false) := by
  have hempty : (copies e₀ c 0 p a (.polling .serving)).work false 0 =
      some (copies e₀ c 0 p a .checking) := by
    simp [Shard.work, copies, Channel.Claims]
  have hcheck : (copies e₀ c (q * 64) (p + q * 64) a .checking).work true 0 =
      some (copies e₀ c (q * 64) (p + q * 64) a (.polling (.closing 0))) := by
    simp [Shard.work, copies]
  have hdrained : (copies e₀ c 0 (p + q * 64) (a + q * 64)
      (.polling (.closing (0 + UInt32.ofNat (q * 64))))).work true 0 =
      some (copies e₀ c 0 (p + q * 64) (a + q * 64) (.leaving 0)) := by
    simp [Shard.work, copies, Channel.Claims, hwrap]
  have hleave : (copies e₀ c 0 (p + q * 64) (a + q * 64) (.leaving 0)).work true 0 =
      some (copies e₀ c 0 (p + q * 64) (a + q * 64) .exited) := by
    simp [Shard.work, copies]
  have hpushes : Leads cap (List.replicate (q * 64) (.tryPush c))
      (view e₀ c 0 p a .checking false true)
      (view e₀ c (q * 64) (p + q * 64) a .checking false true) := by
    simpa using leads_copies e₀ c (q * 64) 0 p a .checking false true (by omega)
  have hstart : Leads cap [.start] (view e₀ c 0 p a .off stop false)
      (view e₀ c 0 p a (.polling .serving) false true) := leads_start rfl
  have hstop : Leads cap [.requestStop] (view e₀ c (q * 64) (p + q * 64) a .checking false true)
      (view e₀ c (q * 64) (p + q * 64) a .checking true true) := leads_requestStop rfl rfl
  have hjoin : Leads cap [.join] (view e₀ c 0 (p + q * 64) (a + q * 64) .exited true true)
      (view e₀ c 0 (p + q * 64) (a + q * 64) .off true false) := leads_join rfl rfl rfl
  exact ((((hstart.cons (leads_work hempty)).append hpushes).append
    (hstop.cons (leads_work hcheck))).append (leads_drainClaims he q _ a 0)).append
    ((leads_work hdrained).cons ((leads_work hleave).cons hjoin))

theorem leads_cycles {q : ℕ} (hcap : q * 64 ≤ cap) (hwrap : UInt32.ofNat (q * 64) = 0) (k : ℕ) :
    ∃ stop, Leads cap (List.replicate k (cycle c q)).flatten (view e₀ c 0 0 0 .off false false)
      (view e₀ c 0 (k * (q * 64)) (k * (q * 64)) .off stop false) := by
  induction k with
  | zero =>
      rw [Nat.zero_mul]
      exact ⟨false, .nil⟩
  | succ k ih =>
      obtain ⟨stop, hk⟩ := ih
      rw [List.replicate_succ', List.flatten_append, Nat.add_mul, Nat.one_mul]
      refine ⟨true, hk.append ?_⟩
      simpa using leads_cycle he hcap hwrap (k * (q * 64)) (k * (q * 64)) stop

theorem foldl_replicate (n : ℕ) : (List.replicate n c.cmd).foldl Engine.apply e₀ = e₀ := by
  induction n with
  | zero => rfl
  | succ n ih => rw [List.replicate_succ, List.foldl_cons, he, ih]

end Wide

/-- With equal counters a drain of the single shard returns at once. -/
theorem drain_at_once {s : ShardRuntime ticks maxOrders 1 ringCapacity} (hr : s.producer = .ready)
    (heq : (s.shards 0).processed = (s.shards 0).pushed) :
    exec step s [.drain, .drainLoad, .drainReturn] = some s := by
  obtain ⟨shards, stop, running, producer, accepted⟩ := s
  obtain rfl : producer = .ready := hr
  simp [exec, step, show (shards 0).processed = (shards 0).pushed from heq]

/-- After enough stops the counters agree while the ring is full. The last command in it is one
that would have changed the book. -/
theorem drainReturn_early {k q : ℕ} (hq : 0 < q) (hwrap : UInt32.ofNat (q * 64) = 0)
    (hcount : UInt64.ofNat ((k + 1) * (q * 64)) = 0) :
    ∃ (acts : List Action) (s : ShardRuntime 1 1 1 (q * 64)),
      exec step (new {} fun _ => .zeroed) (acts ++ [.drainReturn]) = some s ∧
        (s.shards 0).ingress.length = q * 64 ∧ ¬s.Agrees {} (fun _ => .zeroed) 0 := by
  let c : Call := ⟨0, .cancel ⟨1, {}⟩⟩
  let last : Call := ⟨0, .submit ⟨1, 0, 1, .bid, .gtc, 0⟩⟩
  let e₀ : Engine (List Event) 1 1 .byId := engine₀ {} (fun _ => .zeroed) 1 0
  have he : e₀.apply c.cmd = e₀ := rfl
  obtain ⟨j, hj⟩ : ∃ j, q * 64 = j + 1 := ⟨q * 64 - 1, by omega⟩
  obtain ⟨p, hp⟩ : ∃ p, p = k * (q * 64) := ⟨_, rfl⟩
  -- with the last push the count of pushes is a multiple of `2^64`
  have hpushed : UInt64.ofNat (p + j) + 1 = 0 := by
    rw [show (k + 1) * (q * 64) = p + j + 1 by rw [Nat.add_mul, ← hp]; omega,
      UInt64.ofNat_add] at hcount
    exact hcount
  obtain ⟨stop, hcycles⟩ : ∃ stop, Leads (q * 64) (List.replicate k (cycle c q)).flatten
      (view e₀ c 0 0 0 .off false false) (view e₀ c 0 p p .off stop false) :=
    hp ▸ leads_cycles he (le_refl _) hwrap k
  have hfill : Leads (q * 64) (List.replicate j (.tryPush c)) (view e₀ c 0 p p .off stop false)
      (view e₀ c j (p + j) p .off stop false) := by
    simpa using leads_copies e₀ c j 0 p p .off stop false (by omega)
  have hroom : (view e₀ c j (p + j) p .off stop false).shard.ingress.length < q * 64 := by
    simp [view, copies, hj]
  have hlast := Shard.tryPush_of_lt hroom last.cmd
  have hnew : (new {} (fun _ => .zeroed) : ShardRuntime 1 1 1 (q * 64)).At
      (view e₀ c 0 0 0 .off false false) := ⟨rfl, rfl, rfl, rfl, rfl⟩
  obtain ⟨s, hrun, hs⟩ := ((hcycles.append hfill).append (leads_push hlast)) _ hnew
  have hdrain : exec step s [.drain, .drainLoad, .drainReturn] = some s :=
    drain_at_once hs.ready (by rw [hs.shard]; exact hpushed.symm)
  generalize _ ++ [Action.tryPush last] = filled at hrun
  refine ⟨filled ++ [.drain, .drainLoad], s, ?_, ?_, ?_⟩
  · rw [List.append_assoc]
    exact exec_append.mpr ⟨s, hrun, hdrain⟩
  · rw [hs.shard]
    simp [view, copies, hj]
  · rintro ⟨hengine, -⟩
    -- the runtime's engine is as new, the router's has published a top
    have hrouted : routed 1 0 s.accepted = List.replicate (p + j) c.cmd ++ [last.cmd] := by
      rw [hs.accepted]
      simp [routed, view, shardIndex, c, last]
    have hrouter : (routed 1 0 s.accepted).foldl Engine.apply e₀ = e₀.apply last.cmd := by
      rw [hrouted, List.foldl_append, foldl_replicate he]
      rfl
    rw [ShardRouter.foldl_dispatch_engine, hs.shard] at hengine
    have hseq : e₀.state.seq = (e₀.apply last.cmd).state.seq :=
      hrouter ▸ congrArg (fun e => e.state.seq) hengine
    exact absurd hseq (by decide)

/-- A ring of `2^32` commands, `2^32 - 1` stops that each find it full, and a drain. -/
theorem drainReturn_early_wide :
    ∃ (acts : List Action) (s : ShardRuntime 1 1 1 (2 ^ 32)),
      exec step (new {} fun _ => .zeroed) (acts ++ [.drainReturn]) = some s ∧
        (s.shards 0).ingress.length = 2 ^ 32 ∧ ¬s.Agrees {} (fun _ => .zeroed) 0 := by
  have hq : 2 ^ 26 * 64 = 2 ^ 32 := by norm_num
  rw [← hq]
  exact drainReturn_early (k := 2 ^ 32 - 1) (by norm_num) (by decide) (by decide)

end ShardRuntime

end Orderbooks
