import Mathlib.Tactic.Common
import Mathlib.Data.Nat.Notation
import Mathlib.Order.WellFounded

/-!
# Fair schedules

Several parties take turns on one state, in an order none of them controls. A schedule is the
infinite sequence of their turns, and it is fair when every party gets another turn at any
point. What a turn does beyond its party may be up to the environment, so one party can have
many turns.

A party that waits spins: its turn changes nothing. `Fair.reaches` is the rule for progress. If
every turn changes nothing or brings a measure down, and short of the goal some party is not
waiting, then every fair schedule reaches the goal. `Fair.eventually` is the rule for one party
among others that never come to rest.
-/
namespace Orderbooks.Fairness

variable {σ α ι : Type} {step : σ → α → σ} {party : α → ι} {sched : ℕ → α}

/-- The state after the first `n` turns. -/
def trace (step : σ → α → σ) (sched : ℕ → α) (s : σ) : ℕ → σ
  | 0 => s
  | n + 1 => step (trace step sched s n) (sched n)

def Fair (party : α → ι) (sched : ℕ → α) : Prop := ∀ i n, ∃ m, n ≤ m ∧ party (sched m) = i

theorem trace_invariant (I : σ → Prop) (h : ∀ s a, I s → I (step s a)) {s : σ} (hs : I s)
    (n : ℕ) : I (trace step sched s n) := by
  induction n with
  | zero => exact hs
  | succ n ih => exact h _ _ ih

/-- A run goes on from the state it has reached with the turns that are left. -/
theorem trace_add (s : σ) (m n : ℕ) :
    trace step sched s (m + n) =
      trace step (fun k => sched (m + k)) (trace step sched s m) n := by
  induction n with
  | zero => rfl
  | succ n ih => rw [← Nat.add_assoc, trace, trace, ih]

/-- Turns that are a subset of all turns, or are named otherwise, take the same steps. -/
theorem trace_comp {β : Type} (f : β → α) (turns : ℕ → β) (s : σ) (n : ℕ) :
    trace (fun s b => step s (f b)) turns s n = trace step (fun k => f (turns k)) s n := by
  induction n with
  | zero => rfl
  | succ n ih => rw [trace, trace, ih]

theorem Fair.shift (h : Fair party sched) (m : ℕ) : Fair party fun k => sched (m + k) := by
  intro i n
  obtain ⟨k, hk, hi⟩ := h i (m + n)
  refine ⟨k - m, by omega, ?_⟩
  change party (sched (m + (k - m))) = i
  rwa [Nat.add_sub_cancel' (by omega)]

/-- Two parties that take turns are treated fairly. -/
theorem fair_alternate {a b : α} (h : ∀ i, party a = i ∨ party b = i) :
    Fair party fun n => if n % 2 = 0 then a else b := by
  intro i n
  rcases h i with ha | hb
  · exact ⟨2 * n, by omega, by simpa using ha⟩
  · exact ⟨2 * n + 1, by omega, by simpa [Nat.add_mod] using hb⟩

/-- So are any number of parties that take turns. -/
theorem fair_cycle {k : ℕ} (turns : Fin (k + 1) → α) (h : ∀ i, ∃ j, party (turns j) = i) :
    Fair party fun n => turns (Fin.ofNat (k + 1) n) := by
  intro i n
  obtain ⟨j, hj⟩ := h i
  refine ⟨n * (k + 1) + j, ?_, ?_⟩
  · exact (Nat.le_mul_of_pos_right n k.succ_pos).trans (Nat.le_add_right _ _)
  · have hmod : Fin.ofNat (k + 1) (n * (k + 1) + j) = j := by
      apply Fin.ext
      simp [Fin.ofNat, Nat.mod_eq_of_lt j.isLt]
    change party (turns _) = i
    rw [hmod, hj]

/-- A state that no turn changes is kept. -/
theorem trace_of_stuck {s : σ} (h : ∀ a, step s a = s) (n : ℕ) : trace step sched s n = s := by
  induction n with
  | zero => rfl
  | succ n ih => rw [trace, ih, h]

section Progress
variable (I goal : σ → Prop) (μ : σ → ℕ) (hI : ∀ s a, I s → I (step s a))
  (hμ : ∀ s a, I s → step s a = s ∨ μ (step s a) < μ s)
include hμ

/-- The measure has gone down by the time of the next turn of a party that is not waiting. -/
theorem exists_lt_of_turn {s : σ} (hs : I s) {i : ι}
    (hi : ∀ a, party a = i → step s a ≠ s) {m : ℕ} (hm : party (sched m) = i) :
    ∃ n, μ (trace step sched s n) < μ s := by
  by_contra hnone
  simp only [not_exists, Nat.not_lt] at hnone
  -- until then nobody has changed anything
  have hkept : ∀ n, trace step sched s n = s := by
    intro n
    induction n with
    | zero => rfl
    | succ n ih =>
        rcases hμ s (sched n) hs with heq | hlt
        · rw [trace, ih, heq]
        · have := hnone (n + 1)
          rw [trace, ih] at this
          omega
  have hturn := hkept (m + 1)
  rw [trace, hkept m] at hturn
  exact hi _ hm hturn

include hI in
theorem Fair.reaches (hlive : ∀ s, I s → ¬goal s → ∃ i, ∀ a, party a = i → step s a ≠ s)
    {s : σ} (hs : I s) (hfair : Fair party sched) : ∃ n, goal (trace step sched s n) := by
  generalize hk : μ s = k
  induction k using Nat.strongRecOn generalizing s sched with
  | ind k ih =>
      subst hk
      by_cases hgoal : goal s
      · exact ⟨0, hgoal⟩
      · obtain ⟨i, hi⟩ := hlive s hs hgoal
        obtain ⟨m, -, hm⟩ := hfair i 0
        obtain ⟨n, hn⟩ := exists_lt_of_turn I μ hμ hs hi hm
        obtain ⟨n', hn'⟩ :=
          ih _ hn (trace_invariant I hI hs n) (hfair.shift n) rfl
        exact ⟨n + n', by rwa [trace_add]⟩

end Progress

/-! ## One party at a time -/

section Party
variable {β : Type} [Preorder β] [WellFoundedLT β]

/-- The rule for one party. If its turns bring a measure down and the turns of others do not raise
it, then every fair schedule reaches the party's goal, whatever the others are busy with. -/
theorem Fair.eventually (I goal : σ → Prop) (μ : σ → β) (i : ι) (hI : ∀ s a, I s → I (step s a))
    (hown : ∀ s a, I s → ¬goal s → party a = i → goal (step s a) ∨ μ (step s a) < μ s)
    (hother : ∀ s a, I s → ¬goal s → goal (step s a) ∨ μ (step s a) ≤ μ s) {s : σ} (hs : I s)
    (hfair : Fair party sched) : ∃ n, goal (trace step sched s n) := by
  induction hk : μ s using WellFoundedLT.induction generalizing s sched with
  | ind k ih =>
      subst hk
      by_contra hnone
      push Not at hnone
      have hle : ∀ n, μ (trace step sched s n) ≤ μ s := by
        intro n
        induction n with
        | zero => exact le_refl _
        | succ n hn =>
            have hnext := hother _ (sched n) (trace_invariant I hI hs n) (hnone n)
            exact (hnext.resolve_left (hnone (n + 1))).trans hn
      -- the measure is lower after the party's next turn
      obtain ⟨m, -, hm⟩ := hfair i 0
      have hturn := hown _ (sched m) (trace_invariant I hI hs m) (hnone m) hm
      have hlt : μ (trace step sched s (m + 1)) < μ s :=
        (hturn.resolve_left (hnone (m + 1))).trans_le (hle m)
      obtain ⟨n, hn⟩ := ih _ hlt (trace_invariant I hI hs (m + 1)) (hfair.shift (m + 1)) rfl
      exact hnone (m + 1 + n) (by rwa [trace_add])

end Party

/-- What is kept once it holds, and comes about for each of finitely many, comes about for all. -/
theorem exists_forall_lt {I : σ → Prop} {goal : ℕ → σ → Prop} (hI : ∀ s a, I s → I (step s a))
    (hkept : ∀ j s a, I s → goal j s → goal j (step s a)) {s : σ} (hs : I s) {k : ℕ}
    (h : ∀ j < k, ∃ n, goal j (trace step sched s n)) :
    ∃ n, ∀ j < k, goal j (trace step sched s n) := by
  have hlater (j m n : ℕ) (hm : goal j (trace step sched s m)) :
      goal j (trace step sched s (m + n)) := by
    induction n with
    | zero => exact hm
    | succ n ih => exact hkept j _ _ (trace_invariant I hI hs (m + n)) ih
  induction k with
  | zero => exact ⟨0, fun j hj => absurd hj (Nat.not_lt_zero j)⟩
  | succ k ih =>
      obtain ⟨n, hn⟩ := ih fun j hj => h j (Nat.lt_succ_of_lt hj)
      obtain ⟨m, hm⟩ := h k (Nat.lt_succ_self k)
      refine ⟨n + m, fun j hj => ?_⟩
      rcases Nat.lt_succ_iff_lt_or_eq.mp hj with hlt | rfl
      · exact hlater j n m (hn j hlt)
      · rw [Nat.add_comm]
        exact hlater j m n hm

end Orderbooks.Fairness
