import Orderbooks.WarmStart

/-!
# The load of the id index

The index is sized once, for the orders its arena can hold, and never grows. It stores a
finite map as long as every insert finds it less than half full, whatever the hash. The
engine keeps to that by construction: an entry names a resting order by the order's own id,
so before an insert the order about to be named is missing from the index, and the others
are fewer than the arena has slots. Repeated ids only make the entries fewer.

What an engine asks of its index is read off the record the index keeps of its assertions:
after any calls on an index, the record says of every insert among them whether it found the
table less than half full.
-/
namespace Orderbooks
open Loop Probing Runs

namespace Engine

variable {P : Type} [Publisher P] {ticks maxOrders : ℕ}

/-- No insert of an engine ever finds its assertions false. -/
theorem calls_assertsHeld (pub : P) (cfg : EngineConfig) (mem : Memory) (hc : 0 < maxOrders)
    (ht : ticks ≤ 64 ^ 4) {calls : List Call} (hcalls : ∀ c ∈ calls, c.InRange ticks) :
    (calls.foldl call (new pub cfg mem : Engine P ticks maxOrders .byId)).book.idx.assertsHeld =
      true := by
  obtain ⟨p₁, b, -, tag, h⟩ : ∃ p₁ b, (calls.foldl call (new pub cfg mem :
      Engine P ticks maxOrders .byId)).Refines p₁ b := calls_refines pub cfg mem hc ht hcalls
  exact (h.book.index rfl).asserts

/-- An index of any hash answers every call as a finite map does and leaves every loop it
enters, if it is less than half full at each insert. The record of the assertions says when
that is so, and the record of an engine's index says that it always was, in any run of commands
and restores. -/
theorem index_finite_map (hash : UInt64 → UInt64) (hint : ℕ) (hhint : hint < 2 ^ 62)
    (ops : List IdIndex.IndexOp)
    (hops : Along (fun x op => (IdIndex.call x op).2) IdIndex.Admits
      (IdIndex.new hint : IdIndex hash) ops)
    (pub : P) (cfg : EngineConfig) (mem : Memory) (hc : 0 < maxOrders) (ht : ticks ≤ 64 ^ 4)
    (calls : List Call) (hcalls : ∀ c ∈ calls, c.InRange ticks) :
    let x := final IdIndex.call (IdIndex.new hint : IdIndex hash) ops
    let m := final IdIndex.IndexOp.onMap (fun _ => none) ops
    let e := calls.foldl call (new pub cfg mem : Engine P ticks maxOrders .byId)
    (answers IdIndex.call (IdIndex.new hint : IdIndex hash) ops =
        answers IdIndex.IndexOp.onMap (fun _ => none) ops ∧
      (∀ id, id ≠ emptyKey → x.lookup id = m id) ∧
      (∃ keys : Finset UInt64, keys.card = x.size ∧ ∀ id, id ∈ keys ↔ m id ≠ none) ∧
      Along (fun x op => (IdIndex.call x op).2) IdIndex.Ends
        (IdIndex.new hint : IdIndex hash) ops ∧
      x.mask + 1 ≤ 2 ^ 63) ∧
    (∀ ops, (final IdIndex.call (IdIndex.new hint : IdIndex hash) ops).assertsHeld = true ↔
      Along (fun x op => (IdIndex.call x op).2) IdIndex.Asserted
        (IdIndex.new hint : IdIndex hash) ops) ∧
    e.book.idx.assertsHeld = true := by
  intro x m e
  obtain ⟨hanswers, hrun⟩ := IdIndex.run_answers hops
  have hmask : x.mask = (IdIndex.new hint : IdIndex hash).mask := IdIndex.final_mask _ ops
  refine ⟨⟨hanswers, fun id hid => hrun.stores.lookup_eq hrun.room hid, hrun.stores.sized,
    IdIndex.run_ends hops, ?_⟩, fun ops => ?_, calls_assertsHeld pub cfg mem hc ht hcalls⟩
  · rw [hmask]
    exact IdIndex.new_mask_le hhint
  · rw [IdIndex.final_assertsHeld]
    exact and_iff_right rfl

/-- Every id goes to the last of four slots and the chain wraps; the engine rests two orders
of one id and then refuses a blob. -/
theorem index_finite_map_collisions :
    let ops : List IdIndex.IndexOp :=
      [.insert 5 0, .insert 9 1, .take 5, .lookup 9, .insert 5 2, .erase 9, .lookup 9]
    let calls : List Call :=
      [.command (.submit ⟨7, 0, 5, .bid, .gtc, 0⟩), .command (.submit ⟨7, 0, 5, .bid, .gtc, 0⟩),
        .restore []]
    answers IdIndex.call (IdIndex.new 2 : IdIndex fun _ => 3) ops =
        [none, none, some 0, some 1, none, none, none] ∧
      (calls.foldl call (new [] {} .zeroed :
        Engine (List Event) 2 2 .byId)).book.idx.assertsHeld = true := by
  intro ops calls
  obtain ⟨⟨hanswers, -⟩, -, hasserts⟩ : (_ ∧ _) ∧ _ ∧ (calls.foldl call (new [] {} .zeroed :
      Engine (List Event) 2 2 .byId)).book.idx.assertsHeld = true :=
    index_finite_map (fun _ => 3) 2 (by decide) ops (by decide +kernel) [] {} .zeroed (by decide)
      (by decide) calls (by decide)
  exact ⟨hanswers.trans rfl, hasserts⟩

end Engine
end Orderbooks
