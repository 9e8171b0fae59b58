import Orderbooks.SpscRing
import Orderbooks.Lib.Channel
import Orderbooks.Lib.Cursors

/-!
# The ring is a bounded channel

A position is published by the store of its sequence number. From then on the consumer may find
it, although the `try_push` of that value has one store left before it returns. The channel
that the ring implements holds the values published and not released.

The invariant says what every slot holds. The sequence number in a slot is the one of the last
position published there, which is one lap behind the next position that will use the slot; no
other position is confused with it, wherever the cursors have wrapped. The payloads between the
two cursors are the values in the channel.
-/
namespace Orderbooks.SpscRing

open Runs

variable {T : Type} {capacity k : ℕ}

/-- The value of a `try_push` that has only `head_` left to store. -/
def ProducerPc.unreturned : ProducerPc T → List T
  | .storeHead v _ => [v]
  | _ => []

/-- Whether the slot at the head is being filled. -/
def ProducerPc.reserved : ProducerPc T → ℕ
  | .writeValue _ _ | .storeSeq _ _ => 1
  | _ => 0

/-- The consumer has found this many positions published from its cursor on. -/
def ConsumerPc.found : ConsumerPc T → ℕ
  | .popRead _ | .popStore _ _ => 1
  | .scan _ _ _ n | .claimed _ _ n _ => n
  | _ => 0

/-- The positions found and not released. -/
def ConsumerPc.held : ConsumerPc T → List UInt64
  | .popRead tail | .popStore tail _ => [tail]
  | .scan _ _ tail n | .claimed _ tail n _ => (List.range n).map (tail + UInt64.ofNat ·)
  | _ => []

/-- The positions whose payload the next step may read. -/
def ConsumerPc.reading : ConsumerPc T → List UInt64
  | .popRead tail => [tail]
  | .claimed _ tail n _ => (List.range n).map (tail + UInt64.ofNat ·)
  | _ => []

def published (s : SpscRing T capacity) : List T := s.pushed ++ s.producer.unreturned

/-- The channel. -/
def queue (s : SpscRing T capacity) : List T := s.published.drop s.consumed.length

/-- What the producer has loaded and written, with `h` values pushed. -/
def ProducerPc.Valid (h : ℕ) (x : T) : ProducerPc T → Prop
  | .idle | .loadHead _ => True
  | .loadTail _ head | .writeValue _ head | .storeHead _ head => head = UInt64.ofNat h
  | .storeSeq v head => head = UInt64.ofNat h ∧ x = v

/-- What the consumer has loaded and read, with `r` values released. -/
def ConsumerPc.Valid (r : ℕ) (published : List T) : ConsumerPc T → Prop
  | .idle | .popLoadTail | .claimLoadTail _ _ => True
  | .popLoadSeq tail | .popRead tail => tail = UInt64.ofNat r
  | .popStore tail out => tail = UInt64.ofNat r ∧ published[r]? = some out
  | .scan _ maxN tail n => tail = UInt64.ofNat r ∧ n < maxN
  | .claimed kind tail n reads => tail = UInt64.ofNat r ∧ 0 < n ∧
      (∀ a ∈ reads, a.1 < n ∧ published[r + a.1]? = some a.2) ∧
      (kind = .batch → reads.map Prod.fst = List.range reads.length)

/-- The state of the ring when the values `pub` have been published. -/
structure Inv (s : SpscRing T (2 ^ k)) (pub : List T) : Prop where
  published : s.published = pub
  head : s.head = UInt64.ofNat s.pushed.length
  tail : s.tail = UInt64.ofNat s.consumed.length
  consumed : s.consumed <+: pub
  room : ∃ c ≤ s.consumed.length, s.tailCache = UInt64.ofNat c ∧
    pub.length + s.producer.reserved ≤ c + 2 ^ k
  seq : ∀ p, pub.length ≤ p → p < pub.length + 2 ^ k →
    (s.buf (p % 2 ^ k)).seq = if p < 2 ^ k then 0 else UInt64.ofNat (p - 2 ^ k + 1)
  value : ∀ p, s.consumed.length ≤ p → p < pub.length →
    pub[p]? = some (s.buf (p % 2 ^ k)).value
  producer : s.producer.Valid s.pushed.length (s.buf (s.pushed.length % 2 ^ k)).value
  consumer : s.consumer.Valid s.consumed.length pub
  found : s.consumed.length + s.consumer.found ≤ pub.length

theorem Inv.new [Inhabited T] : (new : SpscRing T (2 ^ k)).Inv [] where
  published := rfl
  head := rfl
  tail := rfl
  consumed := List.prefix_rfl
  room := ⟨0, le_refl _, rfl, Nat.zero_le _⟩
  seq p _ hp := by
    rw [List.length_nil, Nat.zero_add] at hp
    rw [if_pos hp]
    rfl
  value _ _ hp := absurd hp (Nat.not_lt_zero _)
  producer := trivial
  consumer := trivial
  found := le_refl _

section
variable {s s' : SpscRing T (2 ^ k)} {pub : List T} (hk : k < 64)
include hk

theorem slotIndex_ofNat (p : ℕ) : slotIndex (2 ^ k) (UInt64.ofNat p) = p % 2 ^ k :=
  Cursors.toNat_and_mask hk p

theorem slot_ofNat (s : SpscRing T (2 ^ k)) (p : ℕ) : s.slot (UInt64.ofNat p) = s.buf (p % 2 ^ k) :=
  congrArg s.buf (slotIndex_ofNat hk p)

theorem setSlot_ofNat (s : SpscRing T (2 ^ k)) (p : ℕ) (x : Slot T) :
    s.setSlot (UInt64.ofNat p) x = Function.update s.buf (p % 2 ^ k) x :=
  congrArg (Function.update s.buf · x) (slotIndex_ofNat hk p)

/-- The sequence number tells whether the next position is published. -/
theorem Inv.seq_eq_iff (h : s.Inv pub) {q : ℕ} (hq : s.consumed.length ≤ q)
    (hq' : q ≤ pub.length) :
    (s.buf (q % 2 ^ k)).seq = UInt64.ofNat q + 1 ↔ q < pub.length := by
  obtain ⟨c, hc, -, hroom⟩ := h.room
  have hpow : 2 ^ k < 2 ^ 64 := Nat.pow_lt_pow_right (by omega) hk
  have hpos : 0 < 2 ^ k := Nat.two_pow_pos k
  rcases hq'.lt_or_eq with hlt | rfl
  · -- the slot was filled on this lap
    have hseq := h.seq (q + 2 ^ k) (by omega) (by omega)
    rw [Nat.add_mod_right, if_neg (by omega), Nat.add_sub_cancel] at hseq
    rw [hseq, UInt64.ofNat_add]
    exact iff_of_true rfl hlt
  · have hseq := h.seq _ (le_refl _) (by omega)
    rw [hseq]
    refine iff_of_false ?_ (lt_irrefl _)
    rw [show (1 : UInt64) = UInt64.ofNat 1 from rfl, ← UInt64.ofNat_add]
    split
    next hfirst => exact Cursors.ofNat_ne_ofNat (p := 0) (by omega) (by omega)
    next hlap => exact Cursors.ofNat_ne_ofNat (by omega) (by omega)

end

/-! ## The producer -/

section
variable {s s' : SpscRing T (2 ^ k)} {pub : List T}

theorem writeValue_seq (buf : ℕ → Slot T) (i j : ℕ) (v : T) :
    (Function.update buf i { buf i with value := v } j).seq = (buf j).seq := by
  by_cases hj : j = i
  · subst hj
    rw [Function.update_self]
  · rw [Function.update_of_ne hj]

theorem storeSeq_value (buf : ℕ → Slot T) (i j : ℕ) (q : UInt64) :
    (Function.update buf i { buf i with seq := q } j).value = (buf j).value := by
  by_cases hj : j = i
  · subst hj
    rw [Function.update_self]
  · rw [Function.update_of_ne hj]

theorem Inv.setProducer (h : s.Inv pub) {pc : ProducerPc T} {cache : UInt64} {refused : ℕ}
    (hun : pc.unreturned = s.producer.unreturned)
    (hroom : ∃ c ≤ s.consumed.length, cache = UInt64.ofNat c ∧
      pub.length + pc.reserved ≤ c + 2 ^ k)
    (hvalid : pc.Valid s.pushed.length (s.buf (s.pushed.length % 2 ^ k)).value) :
    ({ s with tailCache := cache, producer := pc, refused := refused } :
      SpscRing T (2 ^ k)).Inv pub :=
  { h with
    published := (congrArg (s.pushed ++ ·) hun).trans h.published
    room := hroom
    producer := hvalid }

theorem Inv.pushed_eq (h : s.Inv pub) (hun : s.producer.unreturned = []) : s.pushed = pub := by
  rw [← h.published, SpscRing.published, hun, List.append_nil]

/-- The payload goes to a slot outside the channel. -/
theorem Inv.writeValue (hk : k < 64) (h : s.Inv pub) {v : T} {head : UInt64}
    (hp : s.producer = .writeValue v head) :
    ({ s with
      buf := s.setSlot head { s.slot head with value := v }
      producer := .storeSeq v head } : SpscRing T (2 ^ k)).Inv pub := by
  obtain ⟨c, hc, hcache, hroom⟩ := h.room
  have hvalid := h.producer
  rw [hp] at hroom hvalid
  obtain rfl : s.pushed = pub := h.pushed_eq (by rw [hp]; rfl)
  obtain rfl : head = UInt64.ofNat s.pushed.length := hvalid
  rw [setSlot_ofNat hk, slot_ofNat hk]
  refine
    { h with
      published := List.append_nil _
      room := ⟨c, hc, hcache, hroom⟩
      seq := fun p hle hlt => (writeValue_seq ..).trans (h.seq p hle hlt)
      value := fun p hle hlt => ?_
      producer := ⟨rfl, ?_⟩ }
  · dsimp only [ProducerPc.reserved] at hle hroom ⊢
    rw [Function.update_of_ne (Cursors.mod_ne_mod hlt (by omega))]
    exact h.value p hle hlt
  · dsimp only
    rw [Function.update_self]

theorem ConsumerPc.Valid.append {r : ℕ} {pc : ConsumerPc T} (h : pc.Valid r pub) (v : T) :
    pc.Valid r (pub ++ [v]) := by
  have hmono : ∀ {i : ℕ} {x : T}, pub[i]? = some x → (pub ++ [v])[i]? = some x := by
    intro i x hx
    rw [List.getElem?_append_left (List.getElem?_eq_some_iff.mp hx).1, hx]
  cases pc with
  | popStore tail out => exact ⟨h.1, hmono h.2⟩
  | claimed kind tail n reads =>
      exact ⟨h.1, h.2.1, fun a ha => ⟨(h.2.2.1 a ha).1, hmono (h.2.2.1 a ha).2⟩, h.2.2.2⟩
  | _ => exact h

/-- The store of the sequence number publishes the value. -/
theorem Inv.storeSeq (hk : k < 64) (h : s.Inv pub) {v : T} {head : UInt64}
    (hp : s.producer = .storeSeq v head) :
    ({ s with
      buf := s.setSlot head { s.slot head with seq := head + 1 }
      producer := .storeHead v head } : SpscRing T (2 ^ k)).Inv (pub ++ [v]) := by
  obtain ⟨c, hc, hcache, hroom⟩ := h.room
  have hvalid := h.producer
  rw [hp] at hroom hvalid
  obtain rfl : s.pushed = pub := h.pushed_eq (by rw [hp]; rfl)
  obtain ⟨rfl, hv⟩ := hvalid
  rw [setSlot_ofNat hk, slot_ofNat hk]
  have hlen : (s.pushed ++ [v]).length = s.pushed.length + 1 := by simp
  refine
    { head := h.head
      tail := h.tail
      published := rfl
      consumed := h.consumed.trans (List.prefix_append _ _)
      room := ⟨c, hc, hcache, hlen ▸ hroom⟩
      seq := fun p hle hlt => ?_
      value := fun p hle hlt => ?_
      producer := rfl
      consumer := h.consumer.append v
      found := h.found.trans (by simp) }
  · rw [hlen] at hle hlt
    dsimp only
    -- the slot just filled is the one of the position a lap ahead
    rcases Nat.lt_or_ge p (s.pushed.length + 2 ^ k) with hlap | hlap
    · rw [Function.update_of_ne (Cursors.mod_ne_mod hle hlap).symm]
      exact h.seq p (by omega) hlap
    · obtain rfl : p = s.pushed.length + 2 ^ k := by omega
      rw [Nat.add_mod_right, Function.update_self, if_neg (by omega), Nat.add_sub_cancel,
        UInt64.ofNat_add]
      rfl
  · dsimp only
    rw [storeSeq_value]
    rcases Nat.lt_or_ge p s.pushed.length with hold | hnew
    · rw [List.getElem?_append_left hold, h.value p hle hold]
    · obtain rfl : p = s.pushed.length := by omega
      rw [hv, List.getElem?_concat_length]

theorem Inv.storeHead (h : s.Inv pub) {v : T} {head : UInt64}
    (hp : s.producer = .storeHead v head) :
    ({ s with head := head + 1, producer := .idle, pushed := s.pushed ++ [v] } :
      SpscRing T (2 ^ k)).Inv pub := by
  have hvalid := h.producer
  have hroom := h.room
  have hpub := h.published
  rw [SpscRing.published] at hpub
  rw [hp] at hvalid hroom hpub
  obtain rfl : head = UInt64.ofNat s.pushed.length := hvalid
  refine
    { h with
      published := (List.append_nil _).trans hpub
      head := ?_
      room := hroom
      producer := trivial }
  rw [List.length_append, UInt64.ofNat_add]
  rfl

/-- The two tests for room. -/
theorem Inv.full_iff (hk : k < 64) (h : s.Inv pub) {c : ℕ} (hc : c ≤ s.consumed.length)
    (hroom : pub.length ≤ c + 2 ^ k) :
    UInt64.ofNat (2 ^ k) ≤ UInt64.ofNat pub.length - UInt64.ofNat c ↔ pub.length = c + 2 ^ k := by
  have hpow : 2 ^ k < 2 ^ 64 := Nat.pow_lt_pow_right (by omega) hk
  have hle : s.consumed.length ≤ pub.length := h.consumed.length_le
  rw [Cursors.ofNat_le_sub (by omega) (by omega) hpow]
  omega

theorem Inv.loadHead (hk : k < 64) (h : s.Inv pub) {v : T} (hp : s.producer = .loadHead v) :
    ({ s with
      producer := if UInt64.ofNat (2 ^ k) ≤ s.head - s.tailCache then .loadTail v s.head
        else .writeValue v s.head } : SpscRing T (2 ^ k)).Inv pub := by
  obtain ⟨c, hc, hcache, hroom⟩ := h.room
  rw [hp] at hroom
  obtain rfl : s.pushed = pub := h.pushed_eq (by rw [hp]; rfl)
  have hfull := h.full_iff hk hc hroom
  rw [← h.head, ← hcache] at hfull
  by_cases hf : UInt64.ofNat (2 ^ k) ≤ s.head - s.tailCache
  · rw [if_pos hf]
    exact h.setProducer (by rw [hp]; rfl) ⟨c, hc, hcache, hroom⟩ h.head
  · rw [if_neg hf]
    have hlt : s.pushed.length + 1 ≤ c + 2 ^ k :=
      Nat.lt_of_le_of_ne hroom fun heq => hf (hfull.mpr heq)
    exact h.setProducer (by rw [hp]; rfl) ⟨c, hc, hcache, hlt⟩ h.head

/-- A refusal has read a cursor that is a lap behind. -/
theorem Inv.loadTail (hk : k < 64) (h : s.Inv pub) {v : T} {head : UInt64}
    (hp : s.producer = .loadTail v head) :
    (UInt64.ofNat (2 ^ k) ≤ head - s.tail ↔ pub.length = s.consumed.length + 2 ^ k) ∧
    ({ s with tailCache := s.tail, producer := .idle, refused := s.refused + 1 } :
      SpscRing T (2 ^ k)).Inv pub ∧
    (¬UInt64.ofNat (2 ^ k) ≤ head - s.tail →
      ({ s with tailCache := s.tail, producer := .writeValue v head } :
        SpscRing T (2 ^ k)).Inv pub) := by
  obtain ⟨c, hc, hcache, hroom⟩ := h.room
  have hvalid := h.producer
  rw [hp] at hroom hvalid
  obtain rfl : s.pushed = pub := h.pushed_eq (by rw [hp]; rfl)
  obtain rfl : head = UInt64.ofNat s.pushed.length := hvalid
  have hle : s.pushed.length ≤ s.consumed.length + 2 ^ k := by
    dsimp only [ProducerPc.reserved] at hroom
    omega
  have hfull := h.full_iff hk (le_refl _) hle
  rw [← h.tail] at hfull
  refine ⟨hfull, ?_, fun hf => ?_⟩
  · exact h.setProducer (by rw [hp]; rfl) ⟨_, le_refl _, h.tail, hle⟩ trivial
  · have hlt : s.pushed.length + 1 ≤ s.consumed.length + 2 ^ k :=
      Nat.lt_of_le_of_ne hle fun heq => hf (hfull.mpr heq)
    exact h.setProducer (by rw [hp]; rfl) ⟨_, le_refl _, h.tail, hlt⟩ rfl

/-! ## The consumer -/

theorem Inv.setConsumer (h : s.Inv pub) {pc : ConsumerPc T} {empties : ℕ}
    (hvalid : pc.Valid s.consumed.length pub)
    (hfound : s.consumed.length + pc.found ≤ pub.length) :
    ({ s with consumer := pc, empties := empties } : SpscRing T (2 ^ k)).Inv pub :=
  { h with
    consumer := hvalid
    found := hfound }

/-- The values released are the next ones of the channel. -/
theorem Inv.release (h : s.Inv pub) {n : ℕ} {vs : List T} (hlen : vs.length = n)
    (hvs : ∀ i (hi : i < vs.length), pub[s.consumed.length + i]? = some vs[i]) :
    (s.release (UInt64.ofNat s.consumed.length) n vs).Inv pub := by
  subst hlen
  have hconsumed : s.consumed ++ vs <+: pub := by
    rw [List.prefix_iff_getElem?]
    intro i hi
    rcases Nat.lt_or_ge i s.consumed.length with hold | hnew
    · rw [List.getElem_append_left hold]
      exact List.prefix_iff_getElem?.mp h.consumed i hold
    · rw [List.getElem_append_right hnew]
      rw [List.length_append] at hi
      have := hvs (i - s.consumed.length) (by omega)
      rwa [Nat.add_sub_cancel' hnew] at this
  obtain ⟨c, hc, hcache, hroom⟩ := h.room
  have hlength : (s.consumed ++ vs).length = s.consumed.length + vs.length := List.length_append
  have hmore : s.consumed.length ≤ (s.consumed ++ vs).length := by omega
  refine
    { h with
      tail := ?_
      consumed := hconsumed
      room := ⟨c, hc.trans hmore, hcache, hroom⟩
      value := fun p hle hlt => h.value p (hmore.trans hle) hlt
      consumer := trivial
      found := hconsumed.length_le }
  change UInt64.ofNat s.consumed.length + UInt64.ofNat vs.length = _
  rw [← UInt64.ofNat_add, ← hlength]
  rfl

theorem Inv.valueAt (hk : k < 64) (h : s.Inv pub) {i : ℕ}
    (hi : s.consumed.length + i < pub.length) :
    pub[s.consumed.length + i]? = some (s.valueAt (UInt64.ofNat s.consumed.length) i) := by
  rw [SpscRing.valueAt, ← UInt64.ofNat_add, slot_ofNat hk]
  exact h.value _ (by omega) hi

theorem Inv.readClaim (hk : k < 64) (h : s.Inv pub) {kind : ClaimKind} {n i : ℕ}
    {reads : List (ℕ × T)}
    (hvalid : (ConsumerPc.claimed kind (UInt64.ofNat s.consumed.length) n reads).Valid
      s.consumed.length pub)
    (hfound : s.consumed.length + n ≤ pub.length) (hi : i < n)
    (hnext : kind = .batch → i = reads.length) :
    (ConsumerPc.claimed kind (UInt64.ofNat s.consumed.length) n
      (reads ++ [(i, s.valueAt (UInt64.ofNat s.consumed.length) i)])).Valid
      s.consumed.length pub := by
  obtain ⟨-, hn, hreads, horder⟩ := hvalid
  refine ⟨rfl, hn, fun a ha => ?_, fun hbatch => ?_⟩
  · rcases List.mem_append.mp ha with hold | hnew
    · exact hreads a hold
    · rw [List.mem_singleton.mp hnew]
      exact ⟨hi, h.valueAt hk (by omega)⟩
  · rw [List.map_append, horder hbatch, List.length_append, hnext hbatch]
    exact List.range_succ.symm

/-- A batch has read a position each time. -/
theorem ConsumerPc.Valid.batch {r n : ℕ} {tail : UInt64} {reads : List (ℕ × T)}
    (h : (ConsumerPc.claimed .batch tail n reads).Valid r pub) :
    reads.length ≤ n ∧ ∀ i (hi : i < reads.length), pub[r + i]? = some reads[i].2 := by
  obtain ⟨-, -, hreads, horder⟩ := h
  have hfst : ∀ i (hi : i < reads.length), reads[i].1 = i := by
    intro i hi
    have hmap : (reads.map Prod.fst)[i]? = some reads[i].1 := by simp [hi]
    rw [horder rfl, List.getElem?_range hi] at hmap
    exact (Option.some.inj hmap).symm
  refine ⟨Nat.le_of_not_lt fun hlt => ?_, fun i hi => ?_⟩
  · have := (hreads _ (List.getElem_mem hlt)).1
    rw [hfst n hlt] at this
    omega
  · have := (hreads _ (List.getElem_mem hi)).2
    rwa [hfst i hi] at this

/-! ## Every step is a step of the channel -/

theorem Inv.queue_eq (h : s.Inv pub) : s.queue = pub.drop s.consumed.length := by
  rw [queue, h.published]

theorem Inv.queue_length (h : s.Inv pub) : s.queue.length = pub.length - s.consumed.length := by
  rw [h.queue_eq, List.length_drop]

/-- What a step does to the channel. -/
inductive Effect (s s' : SpscRing T (2 ^ k)) : Prop
  | silent : s'.queue = s.queue → s'.refused = s.refused → s'.empties = s.empties → Effect s s'
  | push (v : T) : Channel.push (2 ^ k) s.queue v = some s'.queue → s'.refused = s.refused →
      s'.empties = s.empties → Effect s s'
  | take (n : ℕ) : 0 < n → n ≤ s.queue.length → s'.queue = s.queue.drop n →
      s'.refused = s.refused → s'.empties = s.empties → Effect s s'
  | refuse : (∀ v, Channel.push (2 ^ k) s.queue v = none) → s'.queue = s.queue →
      s'.empties = s.empties → Effect s s'
  | empty : s.queue = [] → s'.queue = s.queue → s'.refused = s.refused → Effect s s'

theorem Inv.producerStep (hk : k < 64) (h : s.Inv pub) (hstep : s.producerStep = some s') :
    ∃ pub', s'.Inv pub' ∧ Effect s s' := by
  have hsame : s'.Inv pub → s'.consumed = s.consumed → s'.queue = s.queue := by
    intro h' hc
    rw [h.queue_eq, h'.queue_eq, hc]
  unfold SpscRing.producerStep at hstep
  split at hstep
  next => exact absurd hstep (by simp)
  next v hp =>
    obtain rfl := Option.some.inj hstep
    have h' := h.loadHead hk hp
    exact ⟨pub, h', .silent (hsame h' rfl) rfl rfl⟩
  next v head hp =>
    obtain ⟨hfull, hrefused, hroom⟩ := h.loadTail hk hp
    split at hstep
    next hf =>
      obtain rfl := Option.some.inj hstep
      have hq := hsame hrefused rfl
      refine ⟨pub, hrefused, .refuse (fun v => Channel.push_eq_none.mpr ?_) hq rfl⟩
      rw [h.queue_length, hfull.mp hf]
      omega
    next hf =>
      obtain rfl := Option.some.inj hstep
      exact ⟨pub, hroom hf, .silent (hsame (hroom hf) rfl) rfl rfl⟩
  next v head hp =>
    obtain rfl := Option.some.inj hstep
    have h' := h.writeValue hk hp
    exact ⟨pub, h', .silent (hsame h' rfl) rfl rfl⟩
  next v head hp =>
    obtain rfl := Option.some.inj hstep
    have h' := h.storeSeq hk hp
    refine ⟨pub ++ [v], h', .push v (Channel.push_eq_some.mpr ⟨?_, ?_⟩) rfl rfl⟩
    · obtain ⟨c, hc, -, hroom⟩ := h.room
      rw [hp] at hroom
      dsimp only [ProducerPc.reserved] at hroom
      have hpos := Nat.two_pow_pos k
      rw [h.queue_length]
      omega
    · rw [h.queue_eq, h'.queue_eq]
      exact List.drop_append_of_le_length h.consumed.length_le
  next v head hp =>
    obtain rfl := Option.some.inj hstep
    have h' := h.storeHead hp
    exact ⟨pub, h', .silent (hsame h' rfl) rfl rfl⟩

theorem Inv.release_step (h : s.Inv pub) {n : ℕ} {vs : List T} (hn : 0 < n) (hlen : vs.length = n)
    (hvs : ∀ i (hi : i < vs.length), pub[s.consumed.length + i]? = some vs[i])
    (hfound : s.consumed.length + n ≤ pub.length) :
    ∃ pub', (s.release (UInt64.ofNat s.consumed.length) n vs).Inv pub' ∧
      Effect s (s.release (UInt64.ofNat s.consumed.length) n vs) := by
  have h' := h.release hlen hvs
  refine ⟨pub, h', .take n hn ?_ ?_ rfl rfl⟩
  · rw [h.queue_length]
    omega
  · rw [h'.queue_eq, h.queue_eq, List.drop_drop, ← hlen]
    exact congrArg (pub.drop ·) List.length_append

theorem Inv.foundNothing (h : s.Inv pub) (hempty : ¬s.consumed.length < pub.length) :
    ∃ pub', s.foundNothing.Inv pub' ∧ Effect s s.foundNothing := by
  have h' : s.foundNothing.Inv pub := h.setConsumer trivial h.consumed.length_le
  refine ⟨pub, h', .empty ?_ ?_ rfl⟩
  · rw [← List.length_eq_zero_iff, h.queue_length]
    omega
  · rw [h.queue_eq, h'.queue_eq]
    rfl

/-- A step that only moves the consumer along. -/
theorem Inv.consumer_silent (h : s.Inv pub) {pc : ConsumerPc T}
    (hvalid : pc.Valid s.consumed.length pub)
    (hfound : s.consumed.length + pc.found ≤ pub.length) :
    ∃ pub', ({ s with consumer := pc } : SpscRing T (2 ^ k)).Inv pub' ∧
      Effect s { s with consumer := pc } := by
  have h' : ({ s with consumer := pc } : SpscRing T (2 ^ k)).Inv pub :=
    h.setConsumer hvalid hfound
  refine ⟨pub, h', .silent ?_ rfl rfl⟩
  rw [h.queue_eq, h'.queue_eq]

theorem Inv.seq_slot_iff (hk : k < 64) (h : s.Inv pub) {n : ℕ}
    (hn : s.consumed.length + n ≤ pub.length) :
    (s.slot (UInt64.ofNat s.consumed.length + UInt64.ofNat n)).seq =
        UInt64.ofNat s.consumed.length + UInt64.ofNat n + 1 ↔
      s.consumed.length + n < pub.length := by
  rw [← UInt64.ofNat_add, slot_ofNat hk]
  exact h.seq_eq_iff hk (by omega) hn

theorem Inv.consumerStep (hk : k < 64) (h : s.Inv pub) (hstep : s.consumerStep = some s') :
    ∃ pub', s'.Inv pub' ∧ Effect s s' := by
  have hvalid := h.consumer
  have hfound := h.found
  unfold SpscRing.consumerStep at hstep
  split at hstep
  next => exact absurd hstep (by simp)
  next hc =>
    obtain rfl := Option.some.inj hstep
    exact h.consumer_silent h.tail h.consumed.length_le
  next tail hc =>
    rw [hc] at hvalid
    obtain rfl : tail = UInt64.ofNat s.consumed.length := hvalid
    have hseq := h.seq_slot_iff hk (n := 0) h.consumed.length_le
    rw [show UInt64.ofNat s.consumed.length + UInt64.ofNat 0 = UInt64.ofNat s.consumed.length from
      UInt64.add_zero _] at hseq
    split at hstep
    next hpub =>
      obtain rfl := Option.some.inj hstep
      exact h.consumer_silent rfl (hseq.mp hpub)
    next hpub =>
      obtain rfl := Option.some.inj hstep
      exact h.foundNothing fun hlt => hpub (hseq.mpr hlt)
  next tail hc =>
    rw [hc] at hvalid hfound
    obtain rfl := Option.some.inj hstep
    obtain rfl : tail = UInt64.ofNat s.consumed.length := hvalid
    have hread := h.value _ (le_refl _) hfound
    rw [← slot_ofNat hk] at hread
    exact h.consumer_silent ⟨rfl, hread⟩ hfound
  next tail out hc =>
    rw [hc] at hvalid hfound
    obtain rfl := Option.some.inj hstep
    obtain ⟨rfl, hout⟩ := hvalid
    refine h.release_step Nat.one_pos rfl (fun i hi => ?_) hfound
    obtain rfl : i = 0 := by simpa using hi
    exact hout
  next kind maxN hc =>
    obtain rfl := Option.some.inj hstep
    split
    next => exact h.consumer_silent trivial h.consumed.length_le
    next hmax => exact h.consumer_silent ⟨h.tail, Nat.pos_of_ne_zero hmax⟩ h.consumed.length_le
  next kind maxN tail n hc =>
    rw [hc] at hvalid hfound
    obtain ⟨rfl, hn⟩ := hvalid
    have hseq := h.seq_slot_iff hk hfound
    split at hstep
    next hpub =>
      obtain rfl := Option.some.inj hstep
      have hmore : s.consumed.length + (n + 1) ≤ pub.length := hseq.mp hpub
      split
      next hlt => exact h.consumer_silent ⟨rfl, hlt⟩ hmore
      next => exact h.consumer_silent ⟨rfl, Nat.succ_pos n, by simp, by simp⟩ hmore
    next hpub =>
      split at hstep
      next hzero =>
        obtain rfl := Option.some.inj hstep
        subst hzero
        exact h.foundNothing fun hlt => hpub (hseq.mpr hlt)
      next hpos =>
        obtain rfl := Option.some.inj hstep
        exact h.consumer_silent ⟨rfl, Nat.pos_of_ne_zero hpos, by simp, by simp⟩ hfound
  next tail n reads hc =>
    rw [hc] at hvalid hfound
    obtain ⟨hle, hvs⟩ := hvalid.batch
    obtain ⟨rfl, hn⟩ : tail = UInt64.ofNat s.consumed.length ∧ 0 < n := ⟨hvalid.1, hvalid.2.1⟩
    dsimp only at hstep
    split at hstep
    next hlt =>
      obtain rfl := Option.some.inj hstep
      exact h.consumer_silent (h.readClaim hk hvalid hfound hlt fun _ => rfl) hfound
    next hdone =>
      obtain rfl := Option.some.inj hstep
      refine h.release_step hn (by rw [List.length_map]; omega) (fun i hi => ?_) hfound
      rw [List.getElem_map]
      exact hvs i (by simpa using hi)
  next tail n reads hc =>
    rw [hc] at hvalid hfound
    obtain ⟨rfl, hn, -, -⟩ := hvalid
    dsimp only [ConsumerPc.found] at hfound
    obtain rfl := Option.some.inj hstep
    refine h.release_step hn (by simp) (fun i hi => ?_) hfound
    have hi' : i < n := by simpa using hi
    rw [List.getElem_map, List.getElem_range]
    exact h.valueAt hk (by omega)

theorem Inv.step (hk : k < 64) (h : s.Inv pub) {a : Action T} (hstep : s.step a = some s') :
    ∃ pub', s'.Inv pub' ∧ Effect s s' := by
  cases a with
  | tryPush v =>
      dsimp only [SpscRing.step] at hstep
      split at hstep
      next hp =>
        obtain rfl := Option.some.inj hstep
        have hroom := h.room
        rw [hp] at hroom
        have h' : ({ s with producer := .loadHead v } : SpscRing T (2 ^ k)).Inv pub :=
          h.setProducer (by rw [hp]; rfl) hroom trivial
        exact ⟨pub, h', .silent (by rw [h.queue_eq, h'.queue_eq]) rfl rfl⟩
      next => exact absurd hstep (by simp)
  | producer => exact h.producerStep hk hstep
  | tryPop =>
      dsimp only [SpscRing.step] at hstep
      split at hstep
      next =>
        obtain rfl := Option.some.inj hstep
        exact h.consumer_silent trivial h.consumed.length_le
      next => exact absurd hstep (by simp)
  | consume kind maxN =>
      dsimp only [SpscRing.step] at hstep
      split at hstep
      next =>
        obtain rfl := Option.some.inj hstep
        exact h.consumer_silent trivial h.consumed.length_le
      next => exact absurd hstep (by simp)
  | readAt i =>
      dsimp only [SpscRing.step, SpscRing.readAt] at hstep
      split at hstep
      next tail n reads hc =>
        obtain ⟨hi, hs⟩ := Option.ite_none_right_eq_some.mp hstep
        obtain rfl := Option.some.inj hs
        have hvalid := h.consumer
        have hfound := h.found
        rw [hc] at hvalid hfound
        obtain rfl : tail = UInt64.ofNat s.consumed.length := hvalid.1
        exact h.consumer_silent (h.readClaim hk hvalid hfound hi (by simp)) hfound
      next => exact absurd hstep (by simp)
  | consumer => exact h.consumerStep hk hstep

theorem Inv.run (hk : k < 64) (h : s.Inv pub) {acts : List (Action T)}
    (hrun : exec SpscRing.step s acts = some s') : ∃ pub', s'.Inv pub' := by
  refine exec_invariant (fun s => ∃ pub, s.Inv pub) ?_ hrun ⟨pub, h⟩
  rintro s a s' ⟨pub, h⟩ hstep
  obtain ⟨pub', h', -⟩ := h.step hk hstep
  exact ⟨pub', h'⟩

theorem ConsumerPc.reading_subset (pc : ConsumerPc T) : pc.reading ⊆ pc.held := by
  cases pc <;> simp [ConsumerPc.reading, ConsumerPc.held]

theorem ConsumerPc.Valid.held {r : ℕ} {pc : ConsumerPc T} (h : pc.Valid r pub) {pos : UInt64}
    (hpos : pos ∈ pc.held) : ∃ i < pc.found, pos = UInt64.ofNat (r + i) := by
  cases pc with
  | popRead tail =>
      obtain rfl : tail = UInt64.ofNat r := h
      exact ⟨0, Nat.one_pos, List.mem_singleton.mp hpos⟩
  | popStore tail out =>
      obtain rfl : tail = UInt64.ofNat r := h.1
      exact ⟨0, Nat.one_pos, List.mem_singleton.mp hpos⟩
  | scan kind maxN tail n =>
      obtain ⟨i, hi, rfl⟩ := List.mem_map.mp hpos
      exact ⟨i, List.mem_range.mp hi, by rw [h.1, UInt64.ofNat_add]⟩
  | claimed kind tail n reads =>
      obtain ⟨i, hi, rfl⟩ := List.mem_map.mp hpos
      exact ⟨i, List.mem_range.mp hi, by rw [h.1, UInt64.ofNat_add]⟩
  | _ => exact absurd hpos List.not_mem_nil

/-- While the producer fills a slot, the consumer holds other slots. -/
theorem Inv.slot_ne_held (hk : k < 64) (h : s.Inv pub) {head pos : UInt64}
    (hun : s.producer.unreturned = []) (hres : s.producer.reserved = 1)
    (hhead : head = UInt64.ofNat s.pushed.length) (hpos : pos ∈ s.consumer.held) :
    slotIndex (2 ^ k) pos ≠ slotIndex (2 ^ k) head := by
  obtain ⟨c, hc, -, hroom⟩ := h.room
  obtain rfl := h.pushed_eq hun
  obtain ⟨i, hi, rfl⟩ := h.consumer.held hpos
  have hfound := h.found
  rw [hhead, slotIndex_ofNat hk, slotIndex_ofNat hk]
  exact Cursors.mod_ne_mod (by omega) (by omega)

end

theorem producer_returns (s : SpscRing T capacity) {v : T} (hv : v ∈ s.producer.unreturned) :
    (s.step .producer).map SpscRing.pushed = some (s.pushed ++ [v]) := by
  obtain ⟨head, hp⟩ : ∃ head, s.producer = .storeHead v head := by
    generalize s.producer = pc at hv
    cases pc with
    | storeHead v' head => exact ⟨head, by rw [List.mem_singleton.mp hv]⟩
    | _ => exact absurd hv List.not_mem_nil
  simp [SpscRing.step, SpscRing.producerStep, hp]

/-- In every schedule, wherever the cursors have wrapped. The consumed values come first among
those pushed; the last of these may belong to a `try_push` that has only `head_` left to store
before it returns true. -/
theorem run_lossless_fifo [Inhabited T] (hk : k < 64) (acts : List (Action T))
    (s : SpscRing T (2 ^ k)) (hrun : exec step new acts = some s) :
    s.consumed <+: s.pushed ++ s.producer.unreturned ∧
    (∀ v ∈ s.producer.unreturned,
      (s.step .producer).map SpscRing.pushed = some (s.pushed ++ [v])) ∧
    (∀ kind tail n reads, s.consumer = .claimed kind tail n reads →
      ∀ a ∈ reads, s.published[s.consumed.length + a.1]? = some a.2) ∧
    s.published.length + s.producer.reserved ≤ s.consumed.length + 2 ^ k ∧
    (∀ v head, s.producer = .storeSeq v head →
      ∀ pos ∈ s.consumer.reading, slotIndex (2 ^ k) pos ≠ slotIndex (2 ^ k) head) ∧
    (∀ v head, s.producer = .writeValue v head →
      ∀ pos ∈ s.consumer.held, slotIndex (2 ^ k) pos ≠ slotIndex (2 ^ k) head) ∧
    (∀ a s', s.step a = some s' → s'.refused ≠ s.refused →
      s.published.length = s.consumed.length + 2 ^ k) ∧
    (∀ a s', s.step a = some s' → s'.empties ≠ s.empties →
      s.published.length = s.consumed.length) := by
  obtain ⟨pub, h⟩ := Inv.new.run hk hrun
  obtain ⟨c, hc, -, hroom⟩ := h.room
  have hle : s.consumed.length ≤ s.published.length := h.published ▸ h.consumed.length_le
  have hqueue : s.queue.length = s.published.length - s.consumed.length := List.length_drop
  refine ⟨?_, fun v hv => ?_, fun kind tail n reads hcl a ha => ?_, ?_,
    fun v head hp pos hpos => ?_, fun v head hp pos hpos => ?_, fun a s' hstep hne => ?_,
    fun a s' hstep hne => ?_⟩
  · change s.consumed <+: s.published
    rw [h.published]
    exact h.consumed
  · exact s.producer_returns hv
  · have hvalid := h.consumer
    rw [hcl] at hvalid
    rw [h.published]
    exact (hvalid.2.2.1 a ha).2
  · rw [h.published]
    omega
  · have hvalid := h.producer
    rw [hp] at hvalid
    exact h.slot_ne_held hk (by rw [hp]; rfl) (by rw [hp]; rfl) hvalid.1
      (s.consumer.reading_subset hpos)
  · have hvalid := h.producer
    rw [hp] at hvalid
    exact h.slot_ne_held hk (by rw [hp]; rfl) (by rw [hp]; rfl) hvalid hpos
  · obtain ⟨-, -, heff⟩ := h.step hk hstep
    cases heff with
    | refuse hfull =>
        obtain ⟨x⟩ := ‹Inhabited T›
        have := Channel.push_eq_none.mp (hfull x)
        rw [h.published] at *
        omega
    | silent _ hr | push _ _ hr | take _ _ _ _ hr | empty _ _ hr => exact absurd hr hne
  · obtain ⟨-, -, heff⟩ := h.step hk hstep
    cases heff with
    | empty hempty =>
        rw [hempty] at hqueue
        have := hqueue.symm
        simp at this
        omega
    | silent _ _ he | push _ _ _ he | take _ _ _ _ _ he | refuse _ _ he => exact absurd he hne

/-- A ring of one slot: the value is popped before its `try_push` has returned. -/
theorem run_lossless_fifo_one_slot :
    let acts : List (Action ℕ) := [.tryPush 7, .producer, .producer, .tryPop, .consumer, .producer,
      .consumer, .consumer, .consumer]
    ∃ s : SpscRing ℕ (2 ^ 0), exec step new acts = some s ∧ s.consumed = [7] ∧ s.pushed = [] ∧
      s.consumed <+: s.pushed ++ s.producer.unreturned := by
  intro acts
  have hcons : (exec step (new : SpscRing ℕ (2 ^ 0)) acts).map (fun s => (s.consumed, s.pushed)) =
      some ([7], []) := by decide
  obtain ⟨s, hs, heq⟩ := Option.map_eq_some_iff.mp hcons
  obtain ⟨h₁, h₂⟩ := Prod.mk.inj heq
  exact ⟨s, hs, h₁, h₂, (run_lossless_fifo (by decide) acts s hs).1⟩

end Orderbooks.SpscRing
