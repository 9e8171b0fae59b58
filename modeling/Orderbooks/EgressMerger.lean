import Orderbooks.Types
import Orderbooks.Lib.Channel
import Orderbooks.Lib.Runs
import Mathlib.Logic.Function.Basic

/-!
# The merged egress

`ring_publisher.hpp` and `egress_merger.hpp`. Every shard publishes into a ring of its own, and
drops what finds the ring full. One thread goes over the rings in rounds and hands what it claims
to the sink under a running number. A controller starts, stops and joins that thread. A schedule
is any order of publishes, steps of the merger and calls of the controller.

Rings are channels, so a claimed event takes up room until the whole claim is released. Pinning
and the way the merger waits between two empty rounds change nothing and are left out.

`published` records what the pushes returned, and a delivery also has the shard and the round it
was claimed in; no step reads them.
-/
namespace Orderbooks
open Runs

/-- A publisher with the ring it is bound to. -/
structure RingPublisher (capacity : ℕ) where
  egress : List Event := []
  dropped : UInt64 := 0
  published : List (Event × Bool) := []
  deriving DecidableEq, Repr

namespace RingPublisher

variable {capacity : ℕ}

def push (p : RingPublisher capacity) (ev : Event) : RingPublisher capacity :=
  match Channel.push capacity p.egress ev with
  | some q => { p with egress := q, published := p.published ++ [(ev, true)] }
  | none => { p with dropped := p.dropped + 1, published := p.published ++ [(ev, false)] }

instance : Publisher (RingPublisher capacity) := ⟨push⟩

/-- The published events whose push found room. -/
def accepted (p : RingPublisher capacity) : List Event :=
  (p.published.filter (·.2)).map Prod.fst

/-- The published events whose push did not. -/
def refused (p : RingPublisher capacity) : List Event :=
  (p.published.filter (!·.2)).map Prod.fst

theorem push_cases (p : RingPublisher capacity) (ev : Event) :
    p.push ev = { p with egress := p.egress ++ [ev], published := p.published ++ [(ev, true)] } ∨
    p.push ev = { p with dropped := p.dropped + 1, published := p.published ++ [(ev, false)] } := by
  unfold push
  cases hq : Channel.push capacity p.egress ev with
  | none => exact .inr rfl
  | some q =>
      obtain ⟨-, rfl⟩ := Channel.push_eq_some.mp hq
      exact .inl rfl

end RingPublisher

/-- Which of the two loops of the merger a round belongs to: the main one, or the one that
empties the rings after a stop request. -/
inductive MergerPhase where
  | serving
  | closing
  deriving DecidableEq, Repr

/-- In a round, `s` is the shard the merger is at and `any` whether the round has found an event
yet; of a claim of `n` events, `k` are handed to the sink. -/
inductive MergerPc where
  | off
  | polling (phase : MergerPhase) (s : ℕ) (any : Bool)
  | handing (phase : MergerPhase) (s : ℕ) (any : Bool) (k n : ℕ)
  | checking
  | exited
  deriving DecidableEq, Repr

/-- A call of the sink. -/
structure Delivery where
  shard : ℕ
  round : ℕ
  ev : Event
  seq : UInt64
  deriving DecidableEq, Repr

/-- The bound on a claim, as the constructor clamps it. -/
def claimMax (batchMax : ℕ) : ℕ := if batchMax = 0 then 1 else batchMax

theorem claimMax_pos (batchMax : ℕ) : 0 < claimMax batchMax := by
  unfold claimMax
  split_ifs <;> omega

structure EgressMerger (numShards capacity batchMax : ℕ) where
  pubs : ℕ → RingPublisher capacity := fun _ => {}
  pc : MergerPc := .off
  seq : UInt64 := 0
  merged : UInt64 := 0
  stop : Bool := false
  round : ℕ := 0
  sink : List Delivery := []

namespace EgressMerger

variable {numShards capacity batchMax : ℕ}

inductive Action where
  | publish (i : ℕ) (ev : Event)
  | start
  | requestStop
  | join
  | merge (n : ℕ)
  deriving DecidableEq, Repr

def setPub (m : EgressMerger numShards capacity batchMax) (i : ℕ) (p : RingPublisher capacity) :
    EgressMerger numShards capacity batchMax :=
  { m with pubs := Function.update m.pubs i p }

def beginRound (phase : MergerPhase) (m : EgressMerger numShards capacity batchMax) :
    EgressMerger numShards capacity batchMax :=
  { m with round := m.round + 1, pc := .polling phase 0 false }

def onEvent (s : ℕ) (ev : Event) (m : EgressMerger numShards capacity batchMax) :
    EgressMerger numShards capacity batchMax :=
  { m with sink := m.sink ++ [⟨s, m.round, ev, m.seq⟩], seq := m.seq + 1 }

def release (s n : ℕ) (m : EgressMerger numShards capacity batchMax) :
    EgressMerger numShards capacity batchMax :=
  m.setPub s { m.pubs s with egress := (m.pubs s).egress.drop n }

/-- The next step of the merger's thread, where `n` is the size of a claim. -/
def merge (n : ℕ) (m : EgressMerger numShards capacity batchMax) :
    Option (EgressMerger numShards capacity batchMax) :=
  match m.pc with
  | .off => none
  | .exited => none
  | .polling phase s any =>
      if s < numShards then
        if ¬Channel.Claims (claimMax batchMax) (m.pubs s).egress n then none
        else if n = 0 then some { m with pc := .polling phase (s + 1) any }
        else some { m with pc := .handing phase s any 0 n }
      else if any then some (beginRound phase { m with merged := m.seq })
      else
        match phase with
        | .serving => some { m with pc := .checking }
        | .closing => some { m with pc := .exited }
  | .handing phase s any k n =>
      if k < n then
        (m.pubs s).egress[k]?.map fun ev =>
          { m.onEvent s ev with pc := .handing phase s any (k + 1) n }
      else some { m.release s n with pc := .polling phase (s + 1) true }
  | .checking => some (beginRound (if m.stop then .closing else .serving) m)

/-- A thread is there to be joined from `start` on; a stop returns with the join. -/
def step (m : EgressMerger numShards capacity batchMax) :
    Action → Option (EgressMerger numShards capacity batchMax)
  | .publish i ev => if i < numShards then some (m.setPub i ((m.pubs i).push ev)) else none
  | .start => if m.pc = .off then some (beginRound .serving { m with stop := false }) else none
  | .requestStop => if m.pc ≠ .off ∧ !m.stop then some { m with stop := true } else none
  | .join => if m.pc = .exited ∧ m.stop then some { m with pc := .off } else none
  | .merge n => m.merge n

/-! ## What a step of the merger can do -/

inductive Move (m : EgressMerger numShards capacity batchMax) :
    EgressMerger numShards capacity batchMax → Prop
  | skip {phase : MergerPhase} {s : ℕ} {any : Bool} : m.pc = .polling phase s any →
      s < numShards → (m.pubs s).egress = [] → Move m { m with pc := .polling phase (s + 1) any }
  | claim {phase : MergerPhase} {s n : ℕ} {any : Bool} : m.pc = .polling phase s any →
      s < numShards → 0 < n → n ≤ claimMax batchMax → n ≤ (m.pubs s).egress.length →
      Move m { m with pc := .handing phase s any 0 n }
  | hand {phase : MergerPhase} {s k n : ℕ} {any : Bool} {ev : Event} :
      m.pc = .handing phase s any k n → k < n → (m.pubs s).egress[k]? = some ev →
      Move m { m.onEvent s ev with pc := .handing phase s any (k + 1) n }
  | release {phase : MergerPhase} {s k n : ℕ} {any : Bool} : m.pc = .handing phase s any k n →
      n ≤ k → Move m { m.release s n with pc := .polling phase (s + 1) true }
  | again {phase : MergerPhase} {s : ℕ} : m.pc = .polling phase s true → numShards ≤ s →
      Move m (beginRound phase { m with merged := m.seq })
  | idle {s : ℕ} : m.pc = .polling .serving s false → numShards ≤ s →
      Move m { m with pc := .checking }
  | finish {s : ℕ} : m.pc = .polling .closing s false → numShards ≤ s →
      Move m { m with pc := .exited }
  | check : m.pc = .checking → Move m (beginRound (if m.stop then .closing else .serving) m)

theorem merge_move {n : ℕ} {m m' : EgressMerger numShards capacity batchMax}
    (h : m.merge n = some m') : Move m m' := by
  unfold merge at h
  cases hpc : m.pc with
  | off => simp [hpc] at h
  | exited => simp [hpc] at h
  | polling phase s any =>
      simp only [hpc] at h
      split_ifs at h with hs hclaim hn hany
      · subst hn
        exact Option.some.inj h ▸ .skip hpc hs (hclaim.eq_nil (claimMax_pos _))
      · exact Option.some.inj h ▸ .claim hpc hs (Nat.pos_of_ne_zero hn) hclaim.1 hclaim.2.1
      · subst hany
        exact Option.some.inj h ▸ .again hpc (not_lt.mp hs)
      · obtain rfl : any = false := by simpa using hany
        cases phase with
        | serving => exact Option.some.inj h ▸ .idle hpc (not_lt.mp hs)
        | closing => exact Option.some.inj h ▸ .finish hpc (not_lt.mp hs)
  | handing phase s any k n =>
      simp only [hpc] at h
      split_ifs at h with hk
      · obtain ⟨ev, hev, rfl⟩ := Option.map_eq_some_iff.mp h
        exact .hand hpc hk hev
      · exact Option.some.inj h ▸ .release hpc (not_lt.mp hk)
  | checking =>
      simp only [hpc] at h
      exact Option.some.inj h ▸ .check hpc

/-- What an action can do, and when it can be taken. -/
inductive Step (m : EgressMerger numShards capacity batchMax) :
    Action → EgressMerger numShards capacity batchMax → Prop
  | publish {i : ℕ} {ev : Event} : i < numShards →
      Step m (.publish i ev) (m.setPub i ((m.pubs i).push ev))
  | start : m.pc = .off → Step m .start (beginRound .serving { m with stop := false })
  | requestStop : m.pc ≠ .off → m.stop = false → Step m .requestStop { m with stop := true }
  | join : m.pc = .exited → m.stop = true → Step m .join { m with pc := .off }
  | merge {n : ℕ} {m' : EgressMerger numShards capacity batchMax} :
      Move m m' → Step m (.merge n) m'

theorem step_cases {a : Action} {m m' : EgressMerger numShards capacity batchMax}
    (h : m.step a = some m') : Step m a m' := by
  cases a with
  | publish i ev =>
      obtain ⟨hi, ⟨⟩⟩ := Option.ite_none_right_eq_some.mp h
      exact .publish hi
  | start =>
      obtain ⟨hpc, ⟨⟩⟩ := Option.ite_none_right_eq_some.mp h
      exact .start hpc
  | requestStop =>
      obtain ⟨⟨hpc, hstop⟩, ⟨⟩⟩ := Option.ite_none_right_eq_some.mp h
      exact .requestStop hpc (by simpa using hstop)
  | join =>
      obtain ⟨⟨hpc, hstop⟩, ⟨⟩⟩ := Option.ite_none_right_eq_some.mp h
      exact .join hpc hstop
  | merge n => exact .merge (merge_move h)

end EgressMerger

end Orderbooks
