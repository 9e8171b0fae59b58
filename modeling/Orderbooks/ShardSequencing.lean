import Orderbooks.RuntimeRefinement
import Orderbooks.Sequencing

/-!
# Stamps of the shards

With `2^k` shards each engine counts its stamps from a base of its own, and the bases lie
`2^(64 - k)` apart. A shard that hands out fewer stamps than that stays below the next base, so
the streams of the shards can be merged in any way, and with any losses, without two events of
one kind having the same stamp.
-/
namespace Orderbooks

/-! ## The bases -/

section Bases
variable {k i : ℕ}

theorem toNat_ctz_two_pow (hk : k < 64) : (BitVec.ofNat 64 (2 ^ k)).ctz.toNat = k := by
  have hlt : 2 ^ k < 2 ^ 64 := Nat.pow_lt_pow_right (by omega) hk
  have hne : BitVec.ofNat 64 (2 ^ k) ≠ 0#64 := by
    intro h
    have hzero := congrArg BitVec.toNat h
    rw [BitVec.toNat_ofNat, Nat.mod_eq_of_lt hlt] at hzero
    exact absurd hzero (Nat.two_pow_pos k).ne'
  have hbit := BitVec.getLsbD_true_ctz_of_ne_zero hne
  rw [BitVec.getLsbD_ofNat, Bool.and_eq_true, Nat.testBit_two_pow, decide_eq_true_eq] at hbit
  exact (of_decide_eq_true hbit.2).symm

/-- The last range ends where the stamps wrap. -/
theorem base_succ_le (hk : k < 64) (hi : i < 2 ^ k) : (i + 1) * 2 ^ (64 - k) ≤ 2 ^ 64 := by
  calc (i + 1) * 2 ^ (64 - k) ≤ 2 ^ k * 2 ^ (64 - k) := Nat.mul_le_mul_right _ hi
    _ = 2 ^ 64 := by rw [← Nat.pow_add, Nat.add_sub_cancel' hk.le]

theorem toNat_shardSeqBase (hk : k < 64) (hi : i < 2 ^ k) :
    (shardSeqBase i (2 ^ k)).toNat = i * 2 ^ (64 - k) := by
  unfold shardSeqBase
  split
  next h =>
    obtain rfl : i = 0 := by omega
    rw [Nat.zero_mul]
    rfl
  next h =>
    have hpos : 0 < k := Nat.pos_of_ne_zero fun h0 => h (by simp [h0])
    have hend := base_succ_le hk hi
    rw [Nat.add_mul, Nat.one_mul] at hend
    have hstep : 0 < 2 ^ (64 - k) := Nat.two_pow_pos _
    have hi64 : i < 2 ^ 64 := hi.trans (Nat.pow_lt_pow_right (by omega) hk)
    dsimp only
    rw [toNat_ctz_two_pow hk, UInt64.toNat_shiftLeft, UInt64.toNat_ofNat_of_lt' hi64,
      UInt64.toNat_ofNat_of_lt' (show 64 - k < 2 ^ 64 by omega),
      Nat.mod_eq_of_lt (show 64 - k < 64 by omega), Nat.shiftLeft_eq, Nat.mod_eq_of_lt (by omega)]

end Bases

/-! ## The streams -/

/-- Each stamp goes to one event, a trade's apart. -/
def stampsAssigned (evs : List Event) : ℕ := (evs.filter (·.kind ≠ .trade)).length

/-- Each shard's stamps are its own, and stay so in every merge of what arrives from the shards. -/
structure DisjointStamps (numShards : ℕ) (streams : ℕ → List Event) : Prop where
  above : ∀ i < numShards, ∀ ev ∈ streams i, shardSeqBase i numShards < ev.seq
  below : ∀ i, i + 1 < numShards → ∀ ev ∈ streams i, ev.seq < shardSeqBase (i + 1) numShards
  merge : ∀ merged : List (ℕ × Event), (∀ a ∈ merged, a.1 < numShards) →
    (∀ i < numShards, (ShardRouter.stream i merged).Sublist (streams i)) →
    merged.Pairwise fun a b => a.2.kind = b.2.kind → a.2.seq ≠ b.2.seq

theorem Stamped.toNat_seq {k i n : ℕ} {evs : List Event} {ev : Event} (hk : k < 64)
    (hi : i < 2 ^ k) (h : Stamped (shardSeqBase i (2 ^ k)) n evs) (hn : n < 2 ^ (64 - k))
    (hev : ev ∈ evs) :
    i * 2 ^ (64 - k) < ev.seq.toNat ∧ ev.seq.toNat < (i + 1) * 2 ^ (64 - k) := by
  obtain ⟨j, hpos, hle, hseq⟩ := h.mem hev
  have hend := base_succ_le hk hi
  rw [Nat.add_mul, Nat.one_mul] at hend ⊢
  rw [hseq, UInt64.toNat_add, toNat_shardSeqBase hk hi,
    UInt64.toNat_ofNat_of_lt' (show j < 2 ^ 64 by omega), Nat.mod_eq_of_lt (by omega)]
  omega

/-- A relation on each shard's part of a stream, read in the stream. -/
theorem pairwise_of_stream {R : Event → Event → Prop} {merged : List (ℕ × Event)}
    (h : ∀ a ∈ merged, (ShardRouter.stream a.1 merged).Pairwise R) :
    merged.Pairwise fun a b => a.1 = b.1 → R a.2 b.2 := by
  induction merged with
  | nil => exact .nil
  | cons a rest ih =>
      have hsub : ∀ i, (ShardRouter.stream i rest).Sublist (ShardRouter.stream i (a :: rest)) :=
        fun i => ((List.sublist_cons_self a rest).filter _).map _
      refine List.pairwise_cons.mpr ⟨fun b hb hab => ?_, ih fun b hb => ?_⟩
      · have hfirst := h a List.mem_cons_self
        have hcons : ShardRouter.stream a.1 (a :: rest) =
            a.2 :: ShardRouter.stream a.1 rest := by simp [ShardRouter.stream]
        rw [hcons] at hfirst
        refine (List.pairwise_cons.mp hfirst).1 b.2 ?_
        exact List.mem_map_of_mem (List.mem_filter.mpr ⟨hb, by simp [hab]⟩)
      · exact (h b (List.mem_cons_of_mem a hb)).sublist (hsub b.1)

theorem disjointStamps {numShards k : ℕ} (hN : numShards = 2 ^ k) (hk : k < 64)
    {streams : ℕ → List Event}
    (hst : ∀ i, ∃ n, Stamped (shardSeqBase i numShards) n (streams i))
    (hcount : ∀ i < numShards, stampsAssigned (streams i) < 2 ^ (64 - k)) :
    DisjointStamps numShards streams := by
  subst hN
  have hrange : ∀ i < 2 ^ k, ∀ ev ∈ streams i,
      i * 2 ^ (64 - k) < ev.seq.toNat ∧ ev.seq.toNat < (i + 1) * 2 ^ (64 - k) := by
    intro i hi ev hev
    obtain ⟨n, hn⟩ := hst i
    exact hn.toNat_seq hk hi (hn.count ▸ hcount i hi) hev
  refine ⟨fun i hi ev hev => ?_, fun i hi ev hev => ?_, fun merged hlt hsub => ?_⟩
  · rw [UInt64.lt_iff_toNat_lt, toNat_shardSeqBase hk hi]
    exact (hrange i hi ev hev).1
  · rw [UInt64.lt_iff_toNat_lt, toNat_shardSeqBase hk hi]
    exact (hrange i (by omega) ev hev).2
  · have hown : merged.Pairwise fun a b => a.1 = b.1 → a.2.kind = b.2.kind → a.2.seq ≠ b.2.seq := by
      refine pairwise_of_stream (R := fun a b => a.kind = b.kind → a.seq ≠ b.seq) fun a ha => ?_
      obtain ⟨n, hn⟩ := hst a.1
      have hle : 2 ^ (64 - k) ≤ 2 ^ 64 := Nat.pow_le_pow_right (by omega) (by omega)
      exact (hn.pairwise (hn.count ▸ (hcount a.1 (hlt a ha)).trans_le hle)).sublist
        (hsub a.1 (hlt a ha))
    -- events of two shards lie in two ranges
    refine hown.imp_of_mem fun {a b} ha hb hab hkind hseq => ?_
    have hmem : ∀ c ∈ merged, c.2 ∈ streams c.1 := fun c hc =>
      (hsub c.1 (hlt c hc)).subset
        (List.mem_map_of_mem (List.mem_filter.mpr ⟨hc, by simp⟩))
    have ha' := hrange a.1 (hlt a ha) a.2 (hmem a ha)
    have hb' := hrange b.1 (hlt b hb) b.2 (hmem b hb)
    rw [hseq] at ha'
    have hle : a.1 = b.1 := by
      have h₁ := Nat.lt_of_mul_lt_mul_right (ha'.1.trans hb'.2)
      have h₂ := Nat.lt_of_mul_lt_mul_right (hb'.1.trans ha'.2)
      omega
    exact hab hle hkind hseq

/-- An engine's stamps have no gap, and the stamps of the shards are disjoint: under the router,
and under the threaded runtime at every moment of every schedule. -/
theorem seq_gapFree_and_disjoint {ticks maxOrders numShards k : ℕ} (hN : numShards = 2 ^ k)
    (hk : k < 64) (cfg : EngineConfig) (mem : ℕ → Memory) :
    (∀ (lookup : OrderLookup) (cmds : List Command),
      let e : Engine (List Event) ticks maxOrders lookup := .play [] cfg (mem 0) cmds
      GapFree cfg.seqBase e.lastSeq e.pub) ∧
    (∀ (P : Type) [Publisher P] (pub : P) (calls : List Call),
      let r : ShardRouter P ticks maxOrders numShards := .new pub cfg mem
      (∀ i < numShards, stampsAssigned (ShardRouter.stream i (r.trace calls)) < 2 ^ (64 - k)) →
      DisjointStamps numShards fun i => ShardRouter.stream i (r.trace calls)) ∧
    (∀ (ringCapacity : ℕ) (acts : List ShardRuntime.Action)
      (s : ShardRuntime ticks maxOrders numShards ringCapacity),
      Runs.exec ShardRuntime.step (.new cfg mem) acts = some s →
      (∀ i < numShards, stampsAssigned (s.shards i).engine.pub < 2 ^ (64 - k)) →
      DisjointStamps numShards fun i => (s.shards i).engine.pub) := by
  refine ⟨fun lookup cmds => ?_, fun P _ pub calls hcount => ?_, fun cap acts s hrun hcount => ?_⟩
  · intro e
    obtain ⟨n, hst, hlast⟩ : ∃ n, Stamped cfg.seqBase n e.pub ∧
        e.lastSeq = cfg.seqBase + UInt64.ofNat n := Engine.play_stamped cfg (mem 0) cmds
    rw [hlast]
    exact hst.gapFree
  · refine disjointStamps hN hk (fun i => ?_) hcount
    rw [ShardRouter.stream_trace]
    obtain ⟨n, hst, -⟩ := Engine.play_stamped (shardConfig cfg numShards i) (mem i)
      (routed numShards i calls)
    exact ⟨n, hst⟩
  · refine disjointStamps hN hk (fun i => ?_) hcount
    rw [((ShardRuntime.Inv.new.run hrun).tracks i).engine]
    obtain ⟨n, hst, -⟩ := Engine.play_stamped (shardConfig cfg numShards i) (mem i)
      (s.shards i).applied
    exact ⟨n, hst⟩

/-- Two shards, an order on each: each publishes a top under its first stamp. -/
theorem seq_gapFree_and_disjoint_two_shards :
    let r : ShardRouter (List Event) 1 2 2 := .new [] {} fun _ => .zeroed
    let trace := r.trace [⟨1, .submit ⟨1, 0, 5, .bid, .gtc, 0⟩⟩,
      ⟨2, .submit ⟨2, 0, 5, .ask, .gtc, 0⟩⟩]
    trace.map (fun a => (a.1, a.2.seq)) = [(1, 2 ^ 63 + 1), (0, 1)] ∧
      DisjointStamps 2 fun i => ShardRouter.stream i trace := by
  intro r trace
  refine ⟨by decide +kernel, ?_⟩
  refine (seq_gapFree_and_disjoint (k := 1) rfl (by decide) {} fun _ => .zeroed).2.1 _ [] _ ?_
  decide +kernel

end Orderbooks
