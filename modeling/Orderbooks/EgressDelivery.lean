import Orderbooks.EgressMerger
import Mathlib.Algebra.Order.BigOperators.Group.Finset
import Mathlib.Data.Prod.Lex

/-!
# The merged egress delivers once

Of each shard, the events handed to the sink and then those that wait in its ring are the
accepted ones in their order. A round takes one claim of each shard. After a stop request with no
publishes behind it, the last round finds every ring empty, because each ring it has passed stays
so; and that round comes, since every round before it has taken something out.

The numbers are 64-bit counters. They are the numbers `0, 1, 2, …` for the first `2^64` events.
-/
namespace Orderbooks
open Runs

/-- How many of the events in the ring of shard `i` are handed to the sink already. -/
def MergerPc.inHand : MergerPc → ℕ → ℕ
  | .handing _ s _ k _, i => if i = s then k else 0
  | _, _ => 0

/-- The round goes on to shard `i`, or is at it. -/
def MergerPc.Due : MergerPc → ℕ → Prop
  | .polling _ s _, i => s ≤ i
  | .handing _ s _ _ _, i => s ≤ i
  | _, _ => False

/-- Nothing was handed over since the count was last stored. -/
def MergerPc.Stored : MergerPc → Prop
  | .polling _ _ any => any = false
  | .handing _ _ any k _ => any = false ∧ k = 0
  | _ => True

/-- The merger has not seen a stop request. -/
def MergerPc.Serving : MergerPc → Prop
  | .polling phase _ _ => phase = .serving
  | .handing phase _ _ _ _ => phase = .serving
  | .exited => False
  | _ => True

/-- After a stop request the merger has passed shard `j` in a round that found nothing. -/
def MergerPc.Passed : MergerPc → ℕ → Prop
  | .polling .closing s false, j => j < s
  | .handing .closing s false _ _, j => j < s
  | .exited, _ => True
  | _, _ => False

theorem MergerPc.Serving.not_passed {pc : MergerPc} (h : pc.Serving) (j : ℕ) : ¬pc.Passed j := by
  cases pc with
  | off | checking => exact id
  | exited => exact h.elim
  | polling phase s any | handing phase s any k n =>
      obtain rfl : phase = .serving := h
      exact id

namespace RingPublisher

variable {capacity : ℕ}

theorem push_counts {p : RingPublisher capacity} (h : p.dropped = UInt64.ofNat p.refused.length)
    (ev : Event) : (p.push ev).dropped = UInt64.ofNat (p.push ev).refused.length := by
  rcases p.push_cases ev with hp | hp <;> rw [hp]
  · simpa [refused] using h
  · simp [refused, UInt64.ofNat_add] at h ⊢
    exact h

theorem published_push (p : RingPublisher capacity) (ev : Event) :
    (p.push ev).published.map Prod.fst = p.published.map Prod.fst ++ [ev] := by
  rcases p.push_cases ev with hp | hp <;> simp [hp]

/-- What is put into the ring is accepted, whatever of the ring is read already. -/
theorem push_order {p : RingPublisher capacity} {before : List Event} {k : ℕ}
    (hk : k ≤ p.egress.length) (h : before ++ p.egress.drop k = p.accepted) (ev : Event) :
    before ++ (p.push ev).egress.drop k = (p.push ev).accepted := by
  rcases p.push_cases ev with hp | hp <;> rw [hp]
  · simp only [accepted, List.filter_append, List.map_append]
    rw [List.drop_append_of_le_length hk, ← List.append_assoc, h]
    rfl
  · simpa [accepted] using h

theorem length_le_push (p : RingPublisher capacity) (ev : Event) :
    p.egress.length ≤ (p.push ev).egress.length := by
  rcases p.push_cases ev with hp | hp <;> simp [hp]

end RingPublisher

namespace EgressMerger

variable {numShards capacity batchMax : ℕ}

/-- The events the sink was given for a shard. -/
def delivered (m : EgressMerger numShards capacity batchMax) (i : ℕ) : List Event :=
  (m.sink.filter (·.shard = i)).map Delivery.ev

/-- The events that wait in the ring of a shard. -/
def waiting (m : EgressMerger numShards capacity batchMax) (i : ℕ) : List Event :=
  (m.pubs i).egress.drop (m.pc.inHand i)

/-- How many events of a shard the sink was given in a round. -/
def taken (m : EgressMerger numShards capacity batchMax) (r i : ℕ) : ℕ :=
  m.sink.countP fun d => d.round = r ∧ d.shard = i

structure Inv (m : EgressMerger numShards capacity batchMax) : Prop where
  order : ∀ i, m.delivered i ++ m.waiting i = (m.pubs i).accepted
  claim : ∀ phase s any k n, m.pc = .handing phase s any k n →
    s < numShards ∧ 0 < n ∧ k ≤ n ∧ n ≤ claimMax batchMax ∧ n ≤ (m.pubs s).egress.length
  dropped : ∀ i, (m.pubs i).dropped = UInt64.ofNat (m.pubs i).refused.length
  seqs : m.sink.map Delivery.seq = (List.range m.sink.length).map UInt64.ofNat
  seq : m.seq = UInt64.ofNat m.sink.length
  merged : m.pc.Stored → m.merged = m.seq
  serving : m.stop = false → m.pc.Serving

variable {m m' : EgressMerger numShards capacity batchMax}

/-! ## The rings and the sink -/

theorem Inv.new : (({} : EgressMerger numShards capacity batchMax)).Inv where
  order _ := rfl
  claim _ _ _ _ _ h := by cases h
  dropped _ := rfl
  seqs := rfl
  seq := rfl
  merged _ := rfl
  serving _ := trivial

/-- A step that leaves the rings and the sink as they are. -/
theorem Inv.setPc (h : m.Inv) {pc : MergerPc} {merged : UInt64} {stop : Bool} {round : ℕ}
    (hhand : ∀ i, pc.inHand i = m.pc.inHand i)
    (hclaim : ∀ phase s any k n, pc = .handing phase s any k n →
      s < numShards ∧ 0 < n ∧ k ≤ n ∧ n ≤ claimMax batchMax ∧ n ≤ (m.pubs s).egress.length)
    (hmerged : pc.Stored → merged = m.seq) (hserving : stop = false → pc.Serving) :
    ({ m with pc, merged, stop, round } : EgressMerger numShards capacity batchMax).Inv where
  order i := by
    rw [← h.order i, waiting, waiting, hhand i]
    rfl
  claim := hclaim
  dropped := h.dropped
  seqs := h.seqs
  seq := h.seq
  merged := hmerged
  serving := hserving

theorem Inv.onEvent (h : m.Inv) {phase : MergerPhase} {s k n : ℕ} {any : Bool} {ev : Event}
    (hpc : m.pc = .handing phase s any k n) (hk : k < n) (hev : (m.pubs s).egress[k]? = some ev) :
    ({ m.onEvent s ev with pc := .handing phase s any (k + 1) n } :
      EgressMerger numShards capacity batchMax).Inv where
  order i := by
    have horder := h.order i
    rw [delivered, waiting, hpc, MergerPc.inHand] at horder
    simp only [delivered, waiting, EgressMerger.onEvent, MergerPc.inHand, List.filter_append,
      List.map_append]
    obtain ⟨hlt, hget⟩ := List.getElem?_eq_some_iff.mp hev
    by_cases hi : i = s
    · subst hi
      rw [if_pos rfl, List.drop_eq_getElem_cons hlt, hget] at horder
      rw [← horder, if_pos rfl]
      simp
    · rw [if_neg hi] at horder
      rw [← horder, if_neg hi]
      simp [Ne.symm hi]
  claim := by
    rintro phase' s' any' k' n' ⟨⟩
    obtain ⟨hs, hn, -, hmax, hlen⟩ := h.claim _ _ _ _ _ hpc
    exact ⟨hs, hn, hk, hmax, hlen⟩
  dropped := h.dropped
  seqs := by
    simp [EgressMerger.onEvent, List.range_succ, h.seqs, h.seq]
  seq := by
    simp [EgressMerger.onEvent, h.seq, UInt64.ofNat_add]
  merged := fun hst => absurd hst.2 (Nat.succ_ne_zero k)
  serving := fun hs => by
    have := h.serving hs
    rwa [hpc] at this

theorem Inv.release (h : m.Inv) {phase : MergerPhase} {s k n : ℕ} {any : Bool}
    (hpc : m.pc = .handing phase s any k n) (hk : n ≤ k) :
    ({ m.release s n with pc := .polling phase (s + 1) true } :
      EgressMerger numShards capacity batchMax).Inv where
  order i := by
    have horder := h.order i
    obtain ⟨-, -, hkn, -, -⟩ := h.claim _ _ _ _ _ hpc
    obtain rfl : k = n := le_antisymm hkn hk
    rw [delivered, waiting, hpc, MergerPc.inHand] at horder
    simp only [delivered, waiting, EgressMerger.release, setPub, MergerPc.inHand]
    by_cases hi : i = s
    · subst hi
      rw [if_pos rfl] at horder
      rw [Function.update_self]
      exact horder
    · rw [if_neg hi] at horder
      rw [Function.update_of_ne hi]
      exact horder
  claim := by
    rintro _ _ _ _ _ ⟨⟩
  dropped := (Function.forall_update_iff m.pubs fun _ p =>
    p.dropped = UInt64.ofNat p.refused.length).mpr ⟨h.dropped s, fun i _ => h.dropped i⟩
  seqs := h.seqs
  seq := h.seq
  merged := fun hst => by cases hst
  serving := fun hs => by
    have := h.serving hs
    rwa [hpc] at this

theorem Inv.move (h : m.Inv) (hm : Move m m') : m'.Inv := by
  have hserving := h.serving
  have hmerged := h.merged
  cases hm with
  | skip hpc hs hnil =>
      rw [hpc] at hserving hmerged
      exact h.setPc (by simp [hpc, MergerPc.inHand]) nofun hmerged hserving
  | claim hpc hs hn hmax hlen =>
      rw [hpc] at hserving hmerged
      refine h.setPc (by simp [hpc, MergerPc.inHand]) ?_ (fun hst => hmerged hst.1) hserving
      rintro _ _ _ _ _ ⟨⟩
      exact ⟨hs, hn, Nat.zero_le _, hmax, hlen⟩
  | hand hpc hk hev => exact h.onEvent hpc hk hev
  | release hpc hk => exact h.release hpc hk
  | again hpc hs =>
      rw [hpc] at hserving
      exact h.setPc (by simp [hpc, MergerPc.inHand]) nofun (fun _ => rfl) hserving
  | idle hpc hs =>
      rw [hpc] at hmerged
      exact h.setPc (by simp [hpc, MergerPc.inHand]) nofun (fun _ => hmerged rfl) fun _ => trivial
  | finish hpc hs =>
      rw [hpc] at hserving hmerged
      refine h.setPc (by simp [hpc, MergerPc.inHand]) nofun (fun _ => hmerged rfl) fun hst => ?_
      cases hserving hst
  | check hpc =>
      rw [hpc] at hmerged
      refine h.setPc (by simp [hpc, MergerPc.inHand]) nofun (fun _ => hmerged trivial) fun hst => ?_
      rw [hst]
      rfl

theorem Inv.publish (h : m.Inv) (i : ℕ) (ev : Event) :
    (m.setPub i ((m.pubs i).push ev)).Inv where
  order := by
    refine (Function.forall_update_iff m.pubs fun j p =>
      m.delivered j ++ p.egress.drop (m.pc.inHand j) = p.accepted).mpr ⟨?_, fun j _ => h.order j⟩
    refine RingPublisher.push_order ?_ (h.order i) ev
    unfold MergerPc.inHand
    split
    · rename_i phase s any k n j hpc
      obtain ⟨-, -, hk, -, hn⟩ := h.claim _ _ _ _ _ hpc
      split_ifs with hi
      · subst hi
        omega
      · exact Nat.zero_le _
    · exact Nat.zero_le _
  claim phase s any k n hpc := by
    obtain ⟨hs, hn, hk, hmax, hlen⟩ := h.claim phase s any k n hpc
    refine ⟨hs, hn, hk, hmax, hlen.trans ?_⟩
    dsimp only [setPub]
    by_cases hi : s = i
    · subst hi
      rw [Function.update_self]
      exact RingPublisher.length_le_push _ _
    · rw [Function.update_of_ne hi]
  dropped := (Function.forall_update_iff m.pubs fun _ p =>
    p.dropped = UInt64.ofNat p.refused.length).mpr
    ⟨RingPublisher.push_counts (h.dropped i) ev, fun j _ => h.dropped j⟩
  seqs := h.seqs
  seq := h.seq
  merged := h.merged
  serving := h.serving

theorem Inv.step (h : m.Inv) {a : Action} (hstep : m.step a = some m') : m'.Inv := by
  cases step_cases hstep with
  | @publish i ev => exact h.publish i ev
  | start hpc =>
      exact h.setPc (by simp [hpc, MergerPc.inHand]) nofun (fun _ => h.merged (hpc ▸ trivial))
        fun _ => rfl
  | requestStop => exact h.setPc (fun _ => rfl) h.claim h.merged nofun
  | join hpc =>
      exact h.setPc (by simp [hpc, MergerPc.inHand]) nofun (fun _ => h.merged (hpc ▸ trivial))
        fun _ => trivial
  | merge hm => exact h.move hm

theorem Inv.run (h : m.Inv) {acts : List Action} (hrun : exec EgressMerger.step m acts = some m') :
    m'.Inv :=
  exec_invariant Inv (fun _ _ _ h hstep => h.step hstep) hrun h

/-! ## Rounds -/

structure Rounds (m : EgressMerger numShards capacity batchMax) : Prop where
  bound : ∀ r i, m.taken r i ≤ claimMax batchMax
  due : ∀ i, m.pc.Due i → m.taken m.round i = m.pc.inHand i
  later : ∀ r, m.round < r → ∀ i, m.taken r i = 0

theorem Rounds.new : (({} : EgressMerger numShards capacity batchMax)).Rounds where
  bound _ _ := Nat.zero_le _
  due _ h := h.elim
  later _ _ _ := rfl

theorem Rounds.setPc (h : m.Rounds) {pc : MergerPc} {pubs : ℕ → RingPublisher capacity}
    {stop : Bool} (hdue : ∀ i, pc.Due i → m.pc.Due i ∧ pc.inHand i = m.pc.inHand i) :
    ({ m with pc, pubs, stop } : EgressMerger numShards capacity batchMax).Rounds where
  bound := h.bound
  due i hi := (h.due i (hdue i hi).1).trans (hdue i hi).2.symm
  later := h.later

/-- A round starts with nothing taken. -/
theorem Rounds.beginRound (h : m.Rounds) (phase : MergerPhase) {merged : UInt64} {stop : Bool} :
    (({ m with merged, stop } : EgressMerger numShards capacity batchMax).beginRound phase).Rounds
    where
  bound := h.bound
  due i _ := h.later _ (Nat.lt_succ_self _) i
  later r hr := h.later r (Nat.lt_of_succ_lt hr)

theorem taken_onEvent (m : EgressMerger numShards capacity batchMax) (s : ℕ) (ev : Event)
    (r i : ℕ) : (m.onEvent s ev).taken r i =
      m.taken r i + if m.round = r ∧ s = i then 1 else 0 := by
  simp [taken, EgressMerger.onEvent, List.countP_append, List.countP_singleton]

theorem Rounds.onEvent (h : m.Rounds) (hinv : m.Inv) {phase : MergerPhase} {s k n : ℕ} {any : Bool}
    (hpc : m.pc = .handing phase s any k n) (hk : k < n) (ev : Event) :
    ({ m.onEvent s ev with pc := .handing phase s any (k + 1) n } :
      EgressMerger numShards capacity batchMax).Rounds := by
  have hdue := h.due
  rw [hpc] at hdue
  have hs : m.taken m.round s = k := (hdue s le_rfl).trans (if_pos rfl)
  obtain ⟨-, -, -, hmax, -⟩ := hinv.claim _ _ _ _ _ hpc
  have htaken := m.taken_onEvent s ev
  refine ⟨fun r i => ?_, fun i hi => ?_, fun r hr i => ?_⟩
  · refine (htaken r i).trans_le ?_
    split_ifs with hri
    · obtain ⟨rfl, rfl⟩ := hri
      omega
    · exact h.bound r i
  · refine (htaken m.round i).trans ?_
    rw [hdue i hi]
    by_cases his : i = s
    · simp [MergerPc.inHand, his]
    · simp [MergerPc.inHand, his, Ne.symm his]
  · refine (htaken r i).trans ?_
    rw [h.later r hr i, if_neg fun hri => absurd hri.1 (Nat.ne_of_lt hr)]

theorem Rounds.move (h : m.Rounds) (hinv : m.Inv) (hm : Move m m') : m'.Rounds := by
  cases hm with
  | skip hpc =>
      refine h.setPc fun i hi => ?_
      rw [hpc]
      exact ⟨Nat.le_of_succ_le hi, rfl⟩
  | claim hpc =>
      refine h.setPc fun i hi => ?_
      rw [hpc]
      exact ⟨hi, ite_self _⟩
  | hand hpc hk _ => exact h.onEvent hinv hpc hk _
  | release hpc =>
      refine h.setPc fun i hi => ?_
      rw [hpc]
      exact ⟨Nat.le_of_succ_le hi, (if_neg (Nat.ne_of_gt hi)).symm⟩
  | again => exact h.beginRound _
  | idle | finish => exact h.setPc fun _ hi => hi.elim
  | check => exact h.beginRound _

theorem Rounds.step (h : m.Rounds) (hinv : m.Inv) {a : Action}
    (hstep : m.step a = some m') : m'.Rounds := by
  cases step_cases hstep with
  | publish => exact h.setPc fun _ hi => ⟨hi, rfl⟩
  | start => exact h.beginRound _
  | requestStop => exact h.setPc fun _ hi => ⟨hi, rfl⟩
  | join => exact h.setPc fun _ hi => hi.elim
  | merge hm => exact h.move hinv hm

/-! ## The last round -/

/-- What the merger has passed after a stop request is empty. -/
def PassedEmpty (m : EgressMerger numShards capacity batchMax) : Prop :=
  ∀ j < numShards, m.pc.Passed j → (m.pubs j).egress = []

theorem PassedEmpty.move (h : m.PassedEmpty) (hm : Move m m') : m'.PassedEmpty := by
  intro j hj hpassed
  have hprev := h j hj
  cases hm with
  | @skip phase s any hpc hs hnil =>
      rw [hpc] at hprev
      cases phase <;> cases any <;> try exact hpassed.elim
      rcases Nat.lt_succ_iff_lt_or_eq.mp hpassed with hlt | rfl
      · exact hprev hlt
      · exact hnil
  | @claim phase s n any hpc =>
      rw [hpc] at hprev
      cases phase <;> cases any <;> try exact hpassed.elim
      exact hprev hpassed
  | @hand phase s k n any ev hpc =>
      rw [hpc] at hprev
      cases phase <;> cases any <;> try exact hpassed.elim
      exact hprev hpassed
  | @release phase s k n any hpc => cases phase <;> exact hpassed.elim
  | @again phase =>
      cases phase
      · exact hpassed.elim
      · exact absurd hpassed (Nat.not_lt_zero j)
  | idle => exact hpassed.elim
  | finish hpc hs =>
      rw [hpc] at hprev
      exact hprev (hj.trans_le hs)
  | check =>
      cases hstop : m.stop <;> rw [hstop] at hpassed
      · exact hpassed.elim
      · exact absurd hpassed (Nat.not_lt_zero j)

theorem PassedEmpty.of_serving (h : m.pc.Serving) : m.PassedEmpty :=
  fun j _ hpassed => absurd hpassed (h.not_passed j)

theorem PassedEmpty.step (h : m.PassedEmpty) {a : Action} (ha : ∀ i ev, a ≠ .publish i ev)
    (hstep : m.step a = some m') : m'.PassedEmpty := by
  cases step_cases hstep with
  | @publish i ev => exact absurd rfl (ha i ev)
  | start => exact .of_serving rfl
  | join => exact .of_serving trivial
  | requestStop => exact h
  | merge hm => exact h.move hm

/-! ## A stop returns -/

theorem Move.stop_eq (hm : Move m m') : m'.stop = m.stop := by
  cases hm <;> rfl

theorem Move.ne_off (hm : Move m m') : m'.pc ≠ .off := by
  cases hm <;> exact nofun

/-- The stations of the merger after a stop request, in the order of passing through them for
the last time. -/
def loopRank : MergerPhase → Bool → ℕ
  | .serving, true => 5
  | .serving, false => 4
  | .closing, true => 2
  | .closing, false => 1

def rank : MergerPc → ℕ
  | .polling phase _ any => loopRank phase any
  | .handing phase _ any k _ => loopRank phase (any || 0 < k)
  | .checking => 3
  | _ => 0

/-- What is left of a round. -/
def ahead (numShards : ℕ) : MergerPc → ℕ
  | .polling _ s _ => 2 * (numShards - s) + 1
  | .handing _ s _ _ _ => 2 * (numShards - s)
  | _ => 0

def backlog (m : EgressMerger numShards capacity batchMax) : ℕ :=
  ∑ i ∈ Finset.range numShards, (m.waiting i).length

def remaining (m : EgressMerger numShards capacity batchMax) : ℕ ×ₗ ℕ ×ₗ ℕ :=
  toLex (m.backlog, toLex (rank m.pc, ahead numShards m.pc))

theorem remaining_lt (hbacklog : m'.backlog = m.backlog)
    (h : rank m'.pc < rank m.pc ∨
      rank m'.pc = rank m.pc ∧ ahead numShards m'.pc < ahead numShards m.pc) :
    m'.remaining < m.remaining := by
  simp only [remaining, hbacklog, Prod.Lex.toLex_lt_toLex, lt_self_iff_false, true_and, false_or]
  exact h

theorem backlog_setPc {pc : MergerPc} {merged : UInt64} {round : ℕ}
    (h : ∀ i, pc.inHand i = m.pc.inHand i) :
    ({ m with pc, merged, round } : EgressMerger numShards capacity batchMax).backlog =
      m.backlog := by
  refine Finset.sum_congr rfl fun i _ => ?_
  simp only [waiting, h]

theorem Inv.backlog_hand (h : m.Inv) {phase : MergerPhase} {s k n : ℕ} {any : Bool} {ev : Event}
    (hpc : m.pc = .handing phase s any k n) (hk : k < n) :
    ({ m.onEvent s ev with pc := .handing phase s any (k + 1) n } :
      EgressMerger numShards capacity batchMax).backlog < m.backlog := by
  obtain ⟨hs, -, -, -, hlen⟩ := h.claim _ _ _ _ _ hpc
  refine Finset.sum_lt_sum (fun i _ => ?_) ⟨s, Finset.mem_range.mpr hs, ?_⟩
  · simp only [waiting, hpc, MergerPc.inHand, List.length_drop, EgressMerger.onEvent]
    split_ifs <;> omega
  · simp only [waiting, hpc, MergerPc.inHand, List.length_drop, EgressMerger.onEvent, if_true]
    omega

theorem Inv.backlog_release (h : m.Inv) {phase : MergerPhase} {s k n : ℕ} {any : Bool}
    (hpc : m.pc = .handing phase s any k n) (hk : n ≤ k) :
    ({ m.release s n with pc := .polling phase (s + 1) true } :
      EgressMerger numShards capacity batchMax).backlog = m.backlog := by
  obtain ⟨-, -, hkn, -, -⟩ := h.claim _ _ _ _ _ hpc
  obtain rfl : k = n := le_antisymm hkn hk
  refine Finset.sum_congr rfl fun i _ => ?_
  simp only [waiting, hpc, MergerPc.inHand, EgressMerger.release, setPub]
  by_cases hi : i = s
  · subst hi
    simp
  · simp [hi]

/-- With no publishes, every step of a merger that is to stop brings it nearer to its exit. -/
theorem Inv.remaining_move (h : m.Inv) (hstop : m.stop = true) (hm : Move m m') :
    m'.remaining < m.remaining := by
  cases hm with
  | skip hpc hs =>
      refine remaining_lt (backlog_setPc (by simp [hpc, MergerPc.inHand])) (.inr ?_)
      simp only [hpc, rank, ahead, true_and]
      omega
  | claim hpc hs =>
      refine remaining_lt (backlog_setPc (by simp [hpc, MergerPc.inHand])) (.inr ?_)
      simp [hpc, rank, ahead]
  | hand hpc hk => exact Prod.Lex.toLex_lt_toLex.mpr (.inl (h.backlog_hand hpc hk))
  | @release phase s k n any hpc hk =>
      obtain ⟨hs, hn, -⟩ := h.claim _ _ _ _ _ hpc
      refine remaining_lt (h.backlog_release hpc hk) (.inr ?_)
      simp only [hpc, rank, ahead, decide_eq_true (hn.trans_le hk), Bool.or_true, true_and]
      omega
  | @again phase s hpc =>
      refine remaining_lt (backlog_setPc (by simp [hpc, MergerPc.inHand])) (.inl ?_)
      cases phase <;> simp [hpc, rank, loopRank, beginRound]
  | idle hpc | finish hpc =>
      refine remaining_lt (backlog_setPc (by simp [hpc, MergerPc.inHand])) (.inl ?_)
      simp [hpc, rank, loopRank]
  | check hpc =>
      refine remaining_lt (backlog_setPc (by simp [hpc, MergerPc.inHand])) (.inl ?_)
      simp [hpc, hstop, rank, loopRank, beginRound]

/-- A running merger always has a next step. -/
theorem Inv.progress (h : m.Inv) (hoff : m.pc ≠ .off) (hexit : m.pc ≠ .exited) :
    ∃ n m', m.merge n = some m' := by
  unfold merge
  cases hpc : m.pc with
  | off => exact absurd hpc hoff
  | exited => exact absurd hpc hexit
  | checking => exact ⟨0, _, rfl⟩
  | polling phase s any =>
      by_cases hs : s < numShards
      · have hclaim : Channel.Claims (claimMax batchMax) (m.pubs s).egress
            (min (claimMax batchMax) (m.pubs s).egress.length) := by
          refine ⟨min_le_left _ _, min_le_right _ _, fun hz => ?_⟩
          have := claimMax_pos batchMax
          exact .inr (List.length_eq_zero_iff.mp (by omega))
        refine ⟨min (claimMax batchMax) (m.pubs s).egress.length, ?_⟩
        simp only [hs, hclaim, not_true_eq_false, if_true, if_false]
        split_ifs <;> exact ⟨_, rfl⟩
      · simp only [hs, if_false]
        split_ifs
        · exact ⟨0, _, rfl⟩
        · cases phase <;> exact ⟨0, _, rfl⟩
  | handing phase s any k n =>
      obtain ⟨-, -, -, -, hlen⟩ := h.claim _ _ _ _ _ hpc
      by_cases hk : k < n
      · simp [hk, List.getElem?_eq_getElem (hk.trans_le hlen)]
      · simp [hk]

/-- A merger that is to stop takes finitely many steps, whatever its claims find. -/
theorem Inv.merge_acc {m : EgressMerger numShards capacity batchMax} (h : m.Inv)
    (hstop : m.stop = true) : Acc (fun m₂ m₁ => ∃ n, m₁.merge n = some m₂) m := by
  refine ⟨_, fun m₁ ⟨n, hmerge⟩ => ?_⟩
  have hm := merge_move hmerge
  exact (h.move hm).merge_acc (hm.stop_eq.trans hstop)
termination_by m.remaining
decreasing_by exact h.remaining_move hstop hm

/-- So it gets to its exit, where it is joined. -/
theorem Inv.stop_returns (h : m.Inv) (hstop : m.stop = true) (hoff : m.pc ≠ .off) :
    ∃ ns m', exec EgressMerger.step m (List.map Action.merge ns ++ [.join]) = some m' := by
  induction h.merge_acc hstop with
  | intro m _ ih =>
      by_cases hexit : m.pc = .exited
      · exact ⟨[], { m with pc := .off }, by simp [exec, EgressMerger.step, hexit, hstop]⟩
      · obtain ⟨n, m₁, hmerge⟩ := h.progress hoff hexit
        have hm := merge_move hmerge
        obtain ⟨ns, m', hrun⟩ := ih m₁ ⟨n, hmerge⟩ (h.move hm) (hm.stop_eq.trans hstop) hm.ne_off
        exact ⟨n :: ns, m', exec_cons.mpr ⟨m₁, hmerge, hrun⟩⟩

/-! ## Schedules -/

/-- The events that a schedule publishes on a shard. -/
def publishes (i : ℕ) (acts : List Action) : List Event :=
  acts.filterMap fun
    | .publish j ev => if j = i then some ev else none
    | _ => none

theorem Move.published_eq (hm : Move m m') (i : ℕ) :
    (m'.pubs i).published = (m.pubs i).published := by
  cases hm with
  | @release phase s =>
      by_cases hi : i = s
      · subst hi
        simp [EgressMerger.release, setPub]
      · simp [EgressMerger.release, setPub, hi]
  | _ => rfl

theorem step_published {a : Action} (hstep : m.step a = some m') (i : ℕ) :
    (m'.pubs i).published.map Prod.fst =
      (m.pubs i).published.map Prod.fst ++ publishes i [a] := by
  cases step_cases hstep with
  | @publish j ev =>
      by_cases hi : i = j
      · subst hi
        simp [setPub, publishes, RingPublisher.published_push]
      · simp [setPub, publishes, hi, Ne.symm hi]
  | start | requestStop | join => exact (List.append_nil _).symm
  | merge hm =>
      rw [hm.published_eq]
      exact (List.append_nil _).symm

theorem run_published {acts : List Action} (hrun : exec step m acts = some m') (i : ℕ) :
    (m'.pubs i).published.map Prod.fst =
      (m.pubs i).published.map Prod.fst ++ publishes i acts := by
  induction acts generalizing m with
  | nil =>
      obtain rfl : m = m' := Option.some.inj hrun
      exact (List.append_nil _).symm
  | cons a acts ih =>
      obtain ⟨m₁, hstep, hrest⟩ := exec_cons.mp hrun
      have hcons : publishes i (a :: acts) = publishes i [a] ++ publishes i acts := by
        unfold publishes
        rw [← List.filterMap_append, List.singleton_append]
      rw [ih hrest, step_published hstep, List.append_assoc, hcons]

/-- In every schedule: of each shard the accepted events are those given to the sink and then
those that wait, and the others are counted as dropped; the sink sees the numbers from zero on;
a round takes no more of a shard than the bound; a stop returns; and one with no publishes since
its request leaves every ring empty and everything counted. -/
theorem run_delivers_once (acts : List Action) (m : EgressMerger numShards capacity batchMax)
    (hrun : exec step {} acts = some m) :
    (∀ i, (m.pubs i).published.map Prod.fst = publishes i acts ∧
      m.delivered i ++ m.waiting i = (m.pubs i).accepted ∧
      (m.pubs i).dropped = UInt64.ofNat (m.pubs i).refused.length) ∧
    (m.sink.map Delivery.seq = (List.range m.sink.length).map UInt64.ofNat ∧
      (m.sink.length ≤ 2 ^ 64 →
        m.sink.map (·.seq.toNat) = List.range m.sink.length)) ∧
    (∀ r i, m.taken r i ≤ claimMax batchMax) ∧
    (m.stop = true → m.pc ≠ .off →
      ∃ ns m', exec step m (List.map Action.merge ns ++ [.join]) = some m') ∧
    (∀ pre mid, acts = pre ++ .requestStop :: mid ++ [.join] → (∀ i ev, .publish i ev ∉ mid) →
      (∀ i < numShards, (m.pubs i).egress = [] ∧ m.delivered i = (m.pubs i).accepted) ∧
      m.merged = UInt64.ofNat m.sink.length) := by
  have hinv := Inv.new.run hrun
  obtain ⟨-, hrounds⟩ := exec_invariant (fun m => m.Inv ∧ m.Rounds)
    (fun m a m' h hstep => ⟨h.1.step hstep, h.2.step h.1 hstep⟩) hrun ⟨.new, .new⟩
  refine ⟨fun i => ⟨run_published hrun i, hinv.order i, hinv.dropped i⟩, ⟨hinv.seqs, ?_⟩,
    hrounds.bound, hinv.stop_returns, ?_⟩
  · intro hlen
    have hseqs := congrArg (List.map UInt64.toNat) hinv.seqs
    rw [List.map_map, List.map_map] at hseqs
    refine hseqs.trans ((List.map_congr_left fun k hk => ?_).trans (List.map_id _))
    exact UInt64.toNat_ofNat_of_lt' ((List.mem_range.mp hk).trans_le hlen)
  · rintro pre mid rfl hmid
    obtain ⟨m₃, hpre, hjoin⟩ := exec_concat.mp hrun
    obtain ⟨m₁, hpre, hrest⟩ := exec_append.mp hpre
    obtain ⟨m₂, hreq, hmidrun⟩ := exec_cons.mp hrest
    have hempty₂ : m₂.PassedEmpty := by
      cases step_cases hreq with
      | requestStop _ hflag => exact .of_serving ((Inv.new.run hpre).serving hflag)
    have hempty := exec_invariant_of (fun a : Action => ∀ i ev, a ≠ .publish i ev) PassedEmpty
      (fun m a m' h ha hstep => h.step ha hstep)
      (fun a ha i ev heq => hmid i ev (by rwa [← heq])) hmidrun hempty₂
    cases step_cases hjoin with
    | join hexit =>
        refine ⟨fun i hi => ?_, (hinv.merged trivial).trans hinv.seq⟩
        have hnil : (m₃.pubs i).egress = [] := hempty i hi (hexit ▸ trivial)
        have horder := hinv.order i
        simp only [waiting, hnil, List.drop_nil, List.append_nil] at horder
        exact ⟨hnil, horder⟩

/-- A ring of two takes two of three events. The merger hands one over in each round; the stop is
requested while the second waits. -/
theorem run_delivers_once_full_ring :
    let ev : UInt64 → Event := fun seq => .trade ⟨7, 5, seq⟩
    let acts : List Action := [.start, .publish 0 (ev 1), .publish 0 (ev 2), .publish 0 (ev 3),
      .merge 1, .merge 0, .merge 0, .merge 0, .requestStop, .merge 1, .merge 0, .merge 0, .merge 0,
      .merge 0, .merge 0, .merge 0, .merge 0, .merge 0, .join]
    ∃ m : EgressMerger 1 2 0, exec step {} acts = some m ∧ (m.pubs 0).dropped = 1 ∧
      m.delivered 0 = [ev 1, ev 2] ∧ (m.pubs 0).egress = [] ∧ m.merged = 2 := by
  intro ev acts
  have hrun : (exec step ({} : EgressMerger 1 2 0) acts).map
      (fun m => ((m.pubs 0).refused.length, m.delivered 0, m.sink.length)) =
      some (1, [ev 1, ev 2], 2) := by decide +kernel
  obtain ⟨m, hm, hend⟩ := Option.map_eq_some_iff.mp hrun
  obtain ⟨hdropped, hdelivered, hlen⟩ : (m.pubs 0).refused.length = 1 ∧
      m.delivered 0 = [ev 1, ev 2] ∧ m.sink.length = 2 := by simpa using hend
  obtain ⟨hshards, -, -, -, hstop⟩ := run_delivers_once acts m hm
  obtain ⟨hempty, hmerged⟩ := hstop (acts.take 8) ((acts.drop 9).dropLast) rfl
    (by simp [acts])
  refine ⟨m, hm, ?_, hdelivered, (hempty 0 (by decide)).1, ?_⟩
  · rw [(hshards 0).2.2, hdropped]
    rfl
  · rw [hmerged, hlen]
    rfl

end EgressMerger

end Orderbooks
