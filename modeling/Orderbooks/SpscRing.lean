import Orderbooks.Lib.Runs
import Mathlib.Logic.Function.Basic
import Mathlib.Data.Nat.Notation

/-!
# The single-producer single-consumer ring

`spsc_ring.hpp`. One thread runs `try_push`, the other any mix of `try_pop`, `consume_batch` and
`consume_claim`. Every load and store of `head_`, `tail_`, a slot's `seq` and a slot's payload is
a step of its own, and a schedule interleaves the steps of the two threads in any order. Branches
on what a thread has loaded belong to the step of the load.

Besides the memory of the ring the state records what came out of the calls: the values pushed
and consumed, and how many calls were refused or found nothing.
-/
namespace Orderbooks

namespace SpscRing

structure Slot (T : Type) where
  value : T
  seq : UInt64 := 0
  deriving DecidableEq, Repr

/-- Where the producer is in `try_push`, with what it has loaded. -/
inductive ProducerPc (T : Type) where
  | idle
  | loadHead (v : T)
  | loadTail (v : T) (head : UInt64)
  | writeValue (v : T) (head : UInt64)
  | storeSeq (v : T) (head : UInt64)
  | storeHead (v : T) (head : UInt64)
  deriving DecidableEq, Repr

/-- A batch walks the claimed slots in order. A bare claim hands its caller the accessor `at`. -/
inductive ClaimKind where
  | batch | claim
  deriving DecidableEq, Repr

/-- Where the consumer is, with what it has loaded. `reads` lists what was read of a claim, by
its index in the claim. -/
inductive ConsumerPc (T : Type) where
  | idle
  | popLoadTail
  | popLoadSeq (tail : UInt64)
  | popRead (tail : UInt64)
  | popStore (tail : UInt64) (out : T)
  | claimLoadTail (kind : ClaimKind) (maxN : ℕ)
  | scan (kind : ClaimKind) (maxN : ℕ) (tail : UInt64) (n : ℕ)
  | claimed (kind : ClaimKind) (tail : UInt64) (n : ℕ) (reads : List (ℕ × T))
  deriving DecidableEq, Repr

end SpscRing

open SpscRing in
structure SpscRing (T : Type) (capacity : ℕ) where
  head : UInt64 := 0
  tailCache : UInt64 := 0
  tail : UInt64 := 0
  buf : ℕ → Slot T
  producer : ProducerPc T := .idle
  consumer : ConsumerPc T := .idle
  /-- The values whose `try_push` returned true. -/
  pushed : List T := []
  /-- The values taken out, up to the last store of `tail_`. -/
  consumed : List T := []
  /-- The calls of `try_push` that returned false. -/
  refused : ℕ := 0
  /-- The pops, and claims of at least one, that found nothing. -/
  empties : ℕ := 0

namespace SpscRing

variable {T : Type} {capacity : ℕ}

def new [Inhabited T] : SpscRing T capacity := { buf := fun _ => { value := default } }

/-- `pos & mask` -/
def slotIndex (capacity : ℕ) (pos : UInt64) : ℕ := (pos &&& UInt64.ofNat (capacity - 1)).toNat

/-- The slot of a position. -/
def slot (s : SpscRing T capacity) (pos : UInt64) : Slot T := s.buf (slotIndex capacity pos)

def setSlot (s : SpscRing T capacity) (pos : UInt64) (x : Slot T) : ℕ → Slot T :=
  Function.update s.buf (slotIndex capacity pos) x

/-- The next step of `try_push`. -/
def producerStep (s : SpscRing T capacity) : Option (SpscRing T capacity) :=
  match s.producer with
  | .idle => none
  | .loadHead v =>
      some { s with
        producer := if UInt64.ofNat capacity ≤ s.head - s.tailCache then .loadTail v s.head
          else .writeValue v s.head }
  | .loadTail v head =>
      if UInt64.ofNat capacity ≤ head - s.tail then
        some { s with tailCache := s.tail, producer := .idle, refused := s.refused + 1 }
      else some { s with tailCache := s.tail, producer := .writeValue v head }
  | .writeValue v head =>
      some { s with
        buf := s.setSlot head { s.slot head with value := v }
        producer := .storeSeq v head }
  | .storeSeq v head =>
      some { s with
        buf := s.setSlot head { s.slot head with seq := head + 1 }
        producer := .storeHead v head }
  | .storeHead v head =>
      some { s with head := head + 1, producer := .idle, pushed := s.pushed ++ [v] }

/-- `tail_.store(tail + n)` at the end of a pop or a claim. -/
def release (s : SpscRing T capacity) (tail : UInt64) (n : ℕ) (vs : List T) :
    SpscRing T capacity :=
  { s with tail := tail + UInt64.ofNat n, consumer := .idle, consumed := s.consumed ++ vs }

/-- Nothing was published at the position looked at. -/
def foundNothing (s : SpscRing T capacity) : SpscRing T capacity :=
  { s with consumer := .idle, empties := s.empties + 1 }

/-- `at(i)` -/
def valueAt (s : SpscRing T capacity) (tail : UInt64) (i : ℕ) : T :=
  (s.slot (tail + UInt64.ofNat i)).value

/-- The next step of the consumer's call. A bare claim is released here; what its caller reads
through the accessor are steps of `readAt`. -/
def consumerStep (s : SpscRing T capacity) : Option (SpscRing T capacity) :=
  match s.consumer with
  | .idle => none
  | .popLoadTail => some { s with consumer := .popLoadSeq s.tail }
  | .popLoadSeq tail =>
      if (s.slot tail).seq = tail + 1 then some { s with consumer := .popRead tail }
      else some s.foundNothing
  | .popRead tail => some { s with consumer := .popStore tail (s.slot tail).value }
  | .popStore tail out => some (s.release tail 1 [out])
  | .claimLoadTail kind maxN =>
      some { s with consumer := if maxN = 0 then .idle else .scan kind maxN s.tail 0 }
  | .scan kind maxN tail n =>
      if (s.slot (tail + UInt64.ofNat n)).seq = tail + UInt64.ofNat n + 1 then
        some { s with
          consumer := if n + 1 < maxN then .scan kind maxN tail (n + 1)
            else .claimed kind tail (n + 1) [] }
      else if n = 0 then some s.foundNothing
      else some { s with consumer := .claimed kind tail n [] }
  | .claimed .batch tail n reads =>
      let i := reads.length
      if i < n then
        some { s with consumer := .claimed .batch tail n (reads ++ [(i, s.valueAt tail i)]) }
      else some (s.release tail n (reads.map Prod.snd))
  | .claimed .claim tail n _ => some (s.release tail n ((List.range n).map (s.valueAt tail)))

/-- The caller of `consume_claim` reads the element `i` of its claim. -/
def readAt (s : SpscRing T capacity) (i : ℕ) : Option (SpscRing T capacity) :=
  match s.consumer with
  | .claimed .claim tail n reads =>
      if i < n then
        some { s with consumer := .claimed .claim tail n (reads ++ [(i, s.valueAt tail i)]) }
      else none
  | _ => none

inductive Action (T : Type) where
  | tryPush (v : T)
  | producer
  | tryPop
  | consume (kind : ClaimKind) (maxN : ℕ)
  | readAt (i : ℕ)
  | consumer
  deriving DecidableEq, Repr

/-- A thread begins a call only when it has finished the one before. -/
def step (s : SpscRing T capacity) : Action T → Option (SpscRing T capacity)
  | .tryPush v =>
      match s.producer with
      | .idle => some { s with producer := .loadHead v }
      | _ => none
  | .producer => s.producerStep
  | .tryPop =>
      match s.consumer with
      | .idle => some { s with consumer := .popLoadTail }
      | _ => none
  | .consume kind maxN =>
      match s.consumer with
      | .idle => some { s with consumer := .claimLoadTail kind maxN }
      | _ => none
  | .readAt i => s.readAt i
  | .consumer => s.consumerStep

end SpscRing

end Orderbooks
