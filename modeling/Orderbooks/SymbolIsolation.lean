import Orderbooks.ShardRouter
import Orderbooks.SelfCross

/-!
# Symbols and shards

A shard keeps one book for all symbols that fall into it. Orders that meet were therefore
submitted under symbols of one shard, and under one symbol as long as no two symbols in use
share a shard. Two symbols that do share one trade with each other.

`SubmittedUnder` follows an order through the ids it goes by.
-/
namespace Orderbooks

/-- The commands that give an order this id. -/
def Command.Introduces (id : UInt64) : Command → Prop
  | .submit m => m.id = id
  | .cancel _ => False
  | .modify m => m.renames ∧ m.newId = id

/-- The order that goes by `id` was submitted under `sym`. -/
inductive SubmittedUnder (calls : List Call) : UInt64 → UInt64 → Prop
  | submit {sym : UInt64} {m : SubmitMsg} : ⟨sym, .submit m⟩ ∈ calls →
      SubmittedUnder calls m.id sym
  | rename {c sym : UInt64} {m : ModifyMsg} : ⟨c, .modify m⟩ ∈ calls → m.renames →
      SubmittedUnder calls m.id sym → SubmittedUnder calls m.newId sym

/-- No two calls bring in one id. -/
def UniqueIds (calls : List Call) : Prop :=
  calls.Pairwise fun c c' => ∀ id, c.cmd.Introduces id → ¬c'.cmd.Introduces id

namespace SubmittedUnder

variable {calls : List Call} {id sym : UInt64}

theorem exists_call (h : SubmittedUnder calls id sym) : ∃ c ∈ calls, c.sym = sym := by
  induction h with
  | submit h => exact ⟨_, h, rfl⟩
  | rename _ _ _ ih => exact ih

/-- An id comes from the submit itself or from the last renaming. -/
theorem origin (h : SubmittedUnder calls id sym) :
    (∃ m, ⟨sym, .submit m⟩ ∈ calls ∧ m.id = id) ∨
      ∃ c m, ⟨c, .modify m⟩ ∈ calls ∧ m.renames ∧ m.newId = id ∧ SubmittedUnder calls m.id sym := by
  cases h with
  | submit h => exact .inl ⟨_, h, rfl⟩
  | rename h hr h' => exact .inr ⟨_, _, h, hr, rfl, h'⟩

end SubmittedUnder

theorem UniqueIds.eq {calls : List Call} (h : UniqueIds calls) {c c' : Call} {id : UInt64}
    (hc : c ∈ calls) (hc' : c' ∈ calls) (hid : c.cmd.Introduces id)
    (hid' : c'.cmd.Introduces id) : c = c' := by
  by_contra hne
  have hsymm : Std.Symm fun c c' : Call => ∀ id, c.cmd.Introduces id → ¬c'.cmd.Introduces id :=
    ⟨fun _ _ hcc id hi hi' => hcc id hi' hi⟩
  exact h.forall hc hc' hne id hid hid'

theorem SubmittedUnder.unique {calls : List Call} {id sym sym' : UInt64}
    (h : SubmittedUnder calls id sym) (hu : UniqueIds calls)
    (h' : SubmittedUnder calls id sym') : sym = sym' := by
  induction h generalizing sym' with
  | submit hc =>
      rcases h'.origin with ⟨m', hc', hid⟩ | ⟨c', m', hc', hr', hid, _⟩
      · exact congrArg Call.sym (hu.eq hc hc' rfl hid)
      · exact Command.noConfusion (congrArg Call.cmd (hu.eq hc hc' rfl ⟨hr', hid⟩))
  | rename hc hr _ ih =>
      rcases h'.origin with ⟨m', hc', hid⟩ | ⟨c', m', hc', hr', hid, hm'⟩
      · exact Command.noConfusion (congrArg Call.cmd (hu.eq hc hc' ⟨hr, rfl⟩ hid))
      · have hcall := congrArg Call.cmd (hu.eq hc hc' ⟨hr, rfl⟩ ⟨hr', hid⟩)
        rw [← Command.modify.inj hcall] at hm'
        exact ih hm'

theorem SubmittedUnder.iff_eq {calls : List Call} {id sym : UInt64}
    (h : SubmittedUnder calls id sym) (hu : UniqueIds calls) (sym' : UInt64) :
    SubmittedUnder calls id sym' ↔ sym' = sym := by
  refine ⟨fun h' => h'.unique hu h, ?_⟩
  rintro rfl
  exact h

/-- A command under which the ids in `S` stay enough. -/
def Command.Within (S : UInt64 → Prop) : Command → Prop
  | .submit m => S m.id
  | .cancel _ => True
  | .modify m => m.renames → S m.id → S m.newId

namespace Queues

variable {ticks : ℕ} {d d' : Queues ticks} {opp : Side} {m : SubmitMsg} {rem : UInt64}
  {u : ℕ} {cap newPx : ℕ} {newQty : UInt64} {target : Option ℕ} {cmd : Command}
  {S : UInt64 → Prop}

/-- Every resting order goes by an id in `S`. -/
def Named (S : UInt64 → Prop) (d : Queues ticks) : Prop := ∀ u, d.Linked u → S (d.orders u).id

theorem Named.empty (S : UInt64 → Prop) : ({} : Queues ticks).Named S := fun u h => by
  simp [Linked] at h

theorem Named.drop (h : d.Named S) (hd : d.WellFormed) (u : ℕ) : (d.drop u).Named S :=
  fun v hv => h v (hd.linked_drop.mp hv).1

/-- Changing a record but for its id. -/
theorem Named.update {o : Order} (h : d.Named S)
    (horders : d'.orders = Function.update d.orders u o)
    (hid : o.id = (d.orders u).id) (hlinked : ∀ v, d'.Linked v → d.Linked v) : d'.Named S := by
  intro v hv
  have hv' := h v (hlinked v hv)
  rw [horders]
  by_cases hvu : v = u
  · subst hvu
    rwa [Function.update_self, hid]
  · rwa [Function.update_of_ne hvu]

theorem Named.setRemaining (h : d.Named S) (u : ℕ) (qty : UInt64) :
    (d.setRemaining u qty).Named S :=
  h.update rfl rfl fun _ hv => (linked_setRemaining qty).mp hv

theorem Named.worn (h : d.Named S) (hw : Worn opp d d') (hd : d.WellFormed) : d'.Named S := by
  induction hw with
  | refl => exact h
  | decrement _ _ _ _ _ ih => exact ih.setRemaining _ _
  | drop hw _ _ ih => exact (ih.setRemaining _ _).drop ((hw.wellFormed hd).setRemaining _ _) _

theorem Named.submitted (h : d.Named S) (hd : d.WellFormed) (hm : S m.id)
    (hs : Submitted cap m d d') : d'.Named S := by
  cases hs with
  | left hw => exact h.worn hw hd
  | @rested d₁ rem hw =>
      intro u hu
      rw [rest_orders]
      by_cases hn : u = d₁.next
      · rw [hn, Function.update_self]
        exact hm
      · rw [Function.update_of_ne hn]
        exact h.worn hw hd u ((((hw.wellFormed hd).linked_rest m rem).mp hu).resolve_right hn)

theorem Named.repriced (h : d.Named S) (hd : d.WellFormed) (hu : d.Linked u)
    (hr : Repriced cap u newPx newQty d d') : d'.Named S := by
  cases hr with
  | same => exact h
  | requantified => exact h.setRemaining u newQty
  | moved =>
      exact h.update (move_orders ..) rfl fun v hv => (hd.linked_move hu newPx newQty).mp hv
  | resubmitted _ hs => exact (h.drop hd u).submitted (hd.drop u) (h u hu) hs

theorem Named.chained (h : d.Named S) (hu : d.Linked u) {m : ModifyMsg}
    (hid : (d.orders u).id = m.id) (hin : (Command.modify m).Within S) :
    (d.chained u m).Named S := by
  unfold Queues.chained
  split_ifs with hren
  · intro v hv
    rw [rename_orders]
    by_cases hvu : v = u
    · rw [hvu, Function.update_self]
      exact hin hren (hid ▸ h u hu)
    · rw [Function.update_of_ne hvu]
      exact h v ((linked_rename m.newId).mp hv)
  · exact h

theorem Named.effect (h : d.Named S) (hd : d.WellFormed)
    (hu : ∀ u, target = some u → d.Linked u ∧ (d.orders u).id = cmd.id) (hin : cmd.Within S)
    (he : Effect cap d target cmd d') : d'.Named S := by
  cases he with
  | submit hs => exact h.submitted hd hin hs
  | cancelNone => exact h
  | cancel => exact h.drop hd _
  | modifyNone => exact h
  | @modify u m _ hr =>
      obtain ⟨hl, hid⟩ := hu u rfl
      exact (h.chained hl hid hin).repriced (hd.chained hl m) ((linked_chained m).mpr hl) hr

end Queues

/-! ## The parties of a trade -/

/-- Where two orders meet, both go by ids in `S`. -/
def Event.Between (S : UInt64 → Prop) (ev : Event) : Prop :=
  ∀ maker taker px, ev.parties = some (maker, taker, px) → S maker ∧ S taker

theorem notices_between {S : UInt64 → Prop} {m : SubmitMsg} (hm : S m.id) (seq : UInt64)
    (fates : List (Order × Fate)) (hfates : ∀ a ∈ fates, S a.1.id) :
    ∀ ev ∈ notices m seq fates, ev.Between S := by
  intro ev hev maker taker px hp
  cases ev with
  | fill f =>
      obtain ⟨htaker, o, ho, hmaker, _⟩ := fill_mem_notices hev
      obtain ⟨rfl, rfl, -⟩ : f.maker = maker ∧ f.taker = taker ∧ f.px = px := by
        simpa [Event.parties] using hp
      exact ⟨hmaker ▸ hfates _ ho, htaker ▸ hm⟩
  | selfTrade t =>
      obtain ⟨htaker, -, o, ho, hmaker⟩ := selfTrade_mem_notices hev
      obtain ⟨rfl, rfl, -⟩ : t.resting = maker ∧ t.aggressor = taker ∧ t.px = px := by
        simpa [Event.parties] using hp
      exact ⟨hmaker ▸ hfates _ ho, htaker ▸ hm⟩
  | top => simp [Event.parties] at hp
  | trade => simp [Event.parties] at hp
  | reject => simp [Event.parties] at hp

namespace PriorityBook

variable {ticks : ℕ} {b : PriorityBook ticks} {S : UInt64 → Prop}

/-- What is published from `b` to `b'` is between orders that go by ids in `S`. -/
def Tells (S : UInt64 → Prop) (b b' : PriorityBook ticks) : Prop :=
  ∃ evs, b'.log = b.log ++ evs ∧ ∀ ev ∈ evs, ev.Between S

theorem onSubmit_tells {m : SubmitMsg} (hd : b.queues.WellFormed) (hn : b.queues.Named S)
    (hm : S m.id) : Tells S b (b.onSubmit m) := by
  obtain ⟨k, r, tail, hclose⟩ := b.onSubmit_closes m hd
  refine ⟨_, hclose.log.trans (List.append_assoc _ _ _), fun ev hev => ?_⟩
  rcases List.mem_append.mp hev with hev | hev
  · refine notices_between hm _ _ (fun a ha => ?_) ev hev
    have hmem : a.1 ∈ b.queues.crossing m :=
      hclose.lawful.makers ▸ List.mem_map_of_mem ha
    obtain ⟨u, hu, hau⟩ := List.mem_map.mp ((Queues.mem_crossing hd).mp hmem).1
    rw [← hau]
    exact hn u (hd.linked hu)
  · intro maker taker px hp
    rw [(hclose.announced.parties hev).1] at hp
    simp at hp

theorem applyAt_tells {target : Option ℕ} {cmd : Command} (hd : b.queues.WellFormed)
    (hn : b.queues.Named S)
    (hu : ∀ u, target = some u → b.queues.Linked u ∧ (b.order u).id = cmd.id)
    (hin : cmd.Within S) : Tells S b (b.applyAt target cmd) := by
  refine applyAt_adds (fun top => by simp [Event.Between, Event.parties]) ?_ ?_
  · rintro m rfl
    exact onSubmit_tells hd hn hin
  · rintro u m rfl rfl
    -- the cancel of a resubmit leaves orders of the book
    obtain ⟨hl, hid⟩ := hu u rfl
    have hnamed := hn.chained hl hid hin
    have hwf := hd.chained hl m
    have hlink : (b.queues.chained u m).Linked u := (Queues.linked_chained m).mpr hl
    have hdrop : ((b.onQueues (·.chained u m)).suppress.cancelAt u).queues =
        (b.queues.chained u m).drop u := cancelAt_queues ..
    exact onSubmit_tells (hdrop ▸ hwf.drop u) (hdrop ▸ hnamed.drop hwf u) (hnamed u hlink)

end PriorityBook

namespace Engine
open Runs

variable {ticks maxOrders : ℕ} {lookup : OrderLookup}

/-- An engine whose commands stay within a set of ids only lets orders with such ids meet. -/
theorem play_between {S : UInt64 → Prop} (cfg : EngineConfig) (mem : Memory) (hc : 0 < maxOrders)
    (ht : ticks ≤ 64 ^ 4) {cmds : List Command} (hrange : ∀ cmd ∈ cmds, cmd.InRange ticks)
    (hin : ∀ cmd ∈ cmds, cmd.Within S) :
    ∀ ev ∈ (play [] cfg mem cmds : Engine (List Event) ticks maxOrders lookup).pub,
      ev.Between S := by
  have hnew : (new [] cfg mem : Engine (List Event) ticks maxOrders lookup).Refines []
      (.new cfg maxOrders) := new_refines [] cfg mem hc
  obtain ⟨b, h, -, hlog⟩ := hnew.run
    (fun _ cmd => cmd.InRange ticks ∧ cmd.Within S)
    (fun b => b.queues.Named S ∧ ∀ ev ∈ b.log, ev.Between S) hc ht (fun _ _ h => h.1)
    (by
      intro e b cmd target h hI hok hreach
      obtain ⟨hn, hlog⟩ := hI
      refine ⟨hn.effect h.1 hreach.1 hok.2 (h.effect hreach).2, ?_⟩
      obtain ⟨evs, hevs, hbetween⟩ := b.applyAt_tells h.1 hn hreach.1 hok.2
      intro ev hev
      rcases List.mem_append.mp (hevs ▸ hev) with hev | hev
      · exact hlog ev hev
      · exact hbetween ev hev)
    ⟨.empty S, by simp [PriorityBook.new]⟩
    (along_of_forall fun cmd hcmd => ⟨hrange cmd hcmd, hin cmd hcmd⟩)
  rwa [show (play [] cfg mem cmds : Engine (List Event) ticks maxOrders lookup).pub = b.log from
    h.pub_eq]

end Engine

namespace ShardRouter

variable {ticks maxOrders numShards : ℕ}

theorem run_pub (cfg : EngineConfig) (mem : ℕ → Memory) (calls : List Call) :
    (run [] cfg mem calls : ShardRouter (List Event) ticks maxOrders numShards).pub =
      ((new [] cfg mem : ShardRouter (List Event) ticks maxOrders numShards).trace calls).map
        Prod.snd :=
  (foldl_dispatch_pub _ calls).trans (foldl_publish_list _ _)

/-- Symbols with a shard of their own are isolated: whatever meets in a run was submitted under
one symbol. -/
theorem run_isolates (cfg : EngineConfig) (mem : ℕ → Memory) (hc : 0 < maxOrders)
    (ht : ticks ≤ 64 ^ 4) (calls : List Call) (hrange : ∀ c ∈ calls, c.cmd.InRange ticks)
    (hids : UniqueIds calls)
    (hown : ∀ c ∈ calls, ∀ c' ∈ calls,
      shardIndex c.sym numShards = shardIndex c'.sym numShards → c.sym = c'.sym) :
    ∀ ev ∈ (run [] cfg mem calls : ShardRouter (List Event) ticks maxOrders numShards).pub,
      ∀ maker taker px, ev.parties = some (maker, taker, px) →
        ∃ sym, ∀ sym', (SubmittedUnder calls maker sym' ↔ sym' = sym) ∧
          (SubmittedUnder calls taker sym' ↔ sym' = sym) := by
  intro ev hev maker taker px hp
  rw [run_pub] at hev
  obtain ⟨⟨i, ev⟩, hmem, rfl⟩ := List.mem_map.mp hev
  -- the ids of shard `i` are those of the orders submitted under its symbols
  let S : UInt64 → Prop := fun id =>
    ∃ sym, SubmittedUnder calls id sym ∧ shardIndex sym numShards = i
  have hwithin : ∀ cmd ∈ routed numShards i calls, cmd.InRange ticks ∧ cmd.Within S := by
    intro cmd hcmd
    obtain ⟨⟨sym, cmd⟩, hc', rfl⟩ := List.mem_map.mp hcmd
    obtain ⟨hcall, hi⟩ := List.mem_filter.mp hc'
    refine ⟨hrange _ hcall, ?_⟩
    cases cmd with
    | submit m => exact ⟨sym, .submit hcall, of_decide_eq_true hi⟩
    | cancel m => trivial
    | modify m =>
        rintro hren ⟨sym', hsub, hi'⟩
        exact ⟨sym', .rename hcall hren hsub, hi'⟩
  have hstream : ev ∈ stream i
      ((new [] cfg mem : ShardRouter (List Event) ticks maxOrders numShards).trace calls) :=
    List.mem_map.mpr ⟨(i, ev), List.mem_filter.mpr ⟨hmem, by simp⟩, rfl⟩
  rw [stream_trace] at hstream
  obtain ⟨⟨sym, hmaker, hi⟩, sym', htaker, hi'⟩ := Engine.play_between
    (shardConfig cfg numShards i) (mem i) hc ht (fun cmd h => (hwithin cmd h).1)
    (fun cmd h => (hwithin cmd h).2) ev hstream maker taker px hp
  obtain rfl : sym = sym' := by
    obtain ⟨c, hcall, rfl⟩ := hmaker.exists_call
    obtain ⟨c', hcall', rfl⟩ := htaker.exists_call
    exact hown c hcall c' hcall' (hi.trans hi'.symm)
  exact ⟨sym, fun sym' => ⟨hmaker.iff_eq hids sym', htaker.iff_eq hids sym'⟩⟩

/-- Two symbols in shards of their own, each with a trade. -/
theorem run_isolates_two_shards :
    let calls : List Call := [⟨1, .submit ⟨1, 0, 5, .ask, .gtc, 0⟩⟩,
      ⟨2, .submit ⟨2, 0, 5, .ask, .gtc, 0⟩⟩, ⟨2, .modify ⟨2, 0, 4, 3, {}⟩⟩,
      ⟨2, .submit ⟨4, 0, 4, .bid, .gtc, 0⟩⟩]
    let r : ShardRouter (List Event) 1 2 4 := run [] {} (fun _ => .zeroed) calls
    Event.fill ⟨3, 4, 0, 4, shardSeqBase (shardIndex 2 4) 4 + 3⟩ ∈ r.pub ∧
      ∃ sym, ∀ sym', (SubmittedUnder calls 3 sym' ↔ sym' = sym) ∧
        (SubmittedUnder calls 4 sym' ↔ sym' = sym) := by
  intro calls r
  have hmem : Event.fill ⟨3, 4, 0, 4, shardSeqBase (shardIndex 2 4) 4 + 3⟩ ∈ r.pub := by
    decide +kernel
  have hids : UniqueIds calls := by
    simp [calls, UniqueIds, Command.Introduces, ModifyMsg.renames]
  exact ⟨hmem, run_isolates {} (fun _ => .zeroed) (by decide) (by decide) calls (by decide) hids
    (by decide +kernel) _ hmem 3 4 0 rfl⟩

/-- Two symbols in one shard trade with each other. -/
theorem run_not_isolates_shared_shard :
    let calls : List Call := [⟨1, .submit ⟨1, 0, 5, .ask, .gtc, 0⟩⟩,
      ⟨2, .submit ⟨2, 0, 5, .bid, .gtc, 0⟩⟩]
    let r : ShardRouter (List Event) 1 2 1 := run [] {} (fun _ => .zeroed) calls
    (∀ c ∈ calls, c.cmd.InRange 1) ∧ UniqueIds calls ∧ Event.fill ⟨1, 2, 0, 5, 2⟩ ∈ r.pub ∧
      ∀ sym, (SubmittedUnder calls 1 sym ↔ sym = 1) ∧ (SubmittedUnder calls 2 sym ↔ sym = 2) := by
  intro calls r
  have hids : UniqueIds calls := by simp [calls, UniqueIds, Command.Introduces]
  have hmaker : SubmittedUnder calls 1 1 :=
    .submit (m := ⟨1, 0, 5, .ask, .gtc, 0⟩) (by simp [calls])
  have htaker : SubmittedUnder calls 2 2 :=
    .submit (m := ⟨2, 0, 5, .bid, .gtc, 0⟩) (by simp [calls])
  exact ⟨by decide, hids, by decide +kernel, fun sym =>
    ⟨hmaker.iff_eq hids sym, htaker.iff_eq hids sym⟩⟩

end ShardRouter

end Orderbooks
