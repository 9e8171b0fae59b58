import Mathlib.Tactic.Common

/-!
# Bounded `while` loops

A source loop is given by what one turn does to the loop state. The bound only
makes the recursion structural: `run_spec` shows that a loop with a decreasing
measure leaves through its own exit before the bound matters, so no result
below depends on how generously the bound was chosen.

`heads` lists the states met at the head of the loop. It is what a statement
about a moment inside a loop quantifies over.
-/
namespace Orderbooks.Loop

/-- One turn either goes round again or leaves the loop. -/
inductive Turn (σ : Type) where
  | again (s : σ)
  | done (s : σ)

variable {σ τ α : Type}

/-- The state a turn leaves. -/
def Turn.state : Turn σ → σ
  | .again s => s
  | .done s => s

def Turn.map (φ : σ → τ) : Turn σ → Turn τ
  | .again s => .again (φ s)
  | .done s => .done (φ s)

def run (f : σ → Turn σ) : ℕ → σ → σ
  | 0, s => s
  | n + 1, s =>
      match f s with
      | .again s' => run f n s'
      | .done s' => s'

def heads (f : σ → Turn σ) : ℕ → σ → List σ
  | 0, _ => []
  | n + 1, s =>
      s :: match f s with
        | .again s' => heads f n s'
        | .done _ => []

theorem run_again {f : σ → Turn σ} {s s' : σ} (h : f s = .again s') (n : ℕ) :
    run f (n + 1) s = run f n s' := by
  simp only [run, h]

theorem run_done {f : σ → Turn σ} {s s' : σ} (h : f s = .done s') (n : ℕ) :
    run f (n + 1) s = s' := by
  simp only [run, h]

/-- A map of the loop state that each turn respects is respected by the loop. -/
theorem run_map {f : σ → Turn σ} {g : τ → Turn τ} {φ : σ → τ}
    (h : ∀ s, g (φ s) = (f s).map φ) (fuel : ℕ) : ∀ s, run g fuel (φ s) = φ (run f fuel s) := by
  induction fuel with
  | zero => exact fun s => rfl
  | succ n ih =>
      intro s
      have hs := h s
      cases hturn : f s with
      | again s' =>
          rw [hturn] at hs
          rw [run_again hturn, run_again hs, ih]
      | done s' =>
          rw [hturn] at hs
          rw [run_done hturn, run_done hs]

/-- What every turn preserves, the loop preserves, wherever it stops. -/
theorem run_invariant {f : σ → Turn σ} (I : σ → Prop) (h : ∀ s, I s → I (f s).state) (fuel : ℕ) :
    ∀ s, I s → I (run f fuel s) := by
  induction fuel with
  | zero => exact fun s hs => hs
  | succ n ih =>
      intro s hs
      have hstep := h s hs
      cases hturn : f s with
      | again s' =>
          rw [hturn] at hstep
          rw [run_again hturn]
          exact ih s' hstep
      | done s' =>
          rw [hturn] at hstep
          rwa [run_done hturn]

/-- The invariant rule with a variant. Every run that starts below its bound
leaves through a `done` turn taken from a state that satisfies the invariant. -/
theorem run_spec {f : σ → Turn σ} (I Q : σ → Prop) (μ : σ → ℕ)
    (step : ∀ s s', I s → f s = .again s' → I s' ∧ μ s' < μ s)
    (exit : ∀ s s', I s → f s = .done s' → Q s') (fuel : ℕ) :
    ∀ s, I s → μ s < fuel → Q (run f fuel s) := by
  induction fuel with
  | zero =>
      intro s _ h
      omega
  | succ n ih =>
      intro s hs hμ
      cases ht : f s with
      | again s' =>
          obtain ⟨hI, hlt⟩ := step s s' hs ht
          rw [run_again ht]
          exact ih s' hI (by omega)
      | done s' =>
          rw [run_done ht]
          exact exit s s' hs ht

/-- The loop leaves through a `done` turn within the bound, so that `run` returns what the
source's loop returns. -/
def Exits (f : σ → Turn σ) : ℕ → σ → Prop
  | 0, _ => False
  | n + 1, s =>
      match f s with
      | .again s' => Exits f n s'
      | .done _ => True

/-- A loop with a decreasing measure leaves through its own exit. -/
theorem exits_of_variant {f : σ → Turn σ} (I : σ → Prop) (μ : σ → ℕ)
    (step : ∀ s s', I s → f s = .again s' → I s' ∧ μ s' < μ s) (fuel : ℕ) :
    ∀ s, I s → μ s < fuel → Exits f fuel s := by
  induction fuel with
  | zero =>
      intro s _ h
      omega
  | succ n ih =>
      intro s hs hμ
      cases ht : f s with
      | again s' =>
          obtain ⟨hI, hlt⟩ := step s s' hs ht
          simp only [Exits, ht]
          exact ih s' hI (by omega)
      | done s' => simp only [Exits, ht]

/-- Two bounds above the variant give the same run. -/
theorem run_fuel {f : σ → Turn σ} (μ : σ → ℕ) (step : ∀ s s', f s = .again s' → μ s' < μ s)
    (fuel : ℕ) : ∀ s fuel', μ s < fuel → μ s < fuel' → run f fuel s = run f fuel' s := by
  induction fuel with
  | zero =>
      intro s fuel' h
      omega
  | succ n ih =>
      intro s fuel' h h'
      obtain ⟨k, rfl⟩ := Nat.exists_eq_succ_of_ne_zero (Nat.ne_zero_of_lt h')
      cases ht : f s with
      | again s' =>
          have hlt := step s s' ht
          rw [run_again ht, run_again ht]
          exact ih s' k (by omega) (by omega)
      | done s' => rw [run_done ht, run_done ht]

/-- Every state at the head of the loop satisfies what each turn preserves. -/
theorem heads_spec {f : σ → Turn σ} (I : σ → Prop)
    (step : ∀ s s', I s → f s = .again s' → I s') (fuel : ℕ) :
    ∀ s, I s → ∀ t ∈ heads f fuel s, I t := by
  induction fuel with
  | zero =>
      intro s _ t ht
      simp [heads] at ht
  | succ n ih =>
      intro s hs t ht
      simp only [heads, List.mem_cons] at ht
      rcases ht with rfl | ht
      · exact hs
      · cases hturn : f s with
        | again s' =>
            rw [hturn] at ht
            exact ih s' (step s s' hs hturn) t ht
        | done s' =>
            rw [hturn] at ht
            simp at ht

/-- What a loop puts out is what its turns put out, one after another. -/
theorem run_output {f : σ → Turn σ} (out δ : σ → List α)
    (h : ∀ s, out (f s).state = out s ++ δ s) (fuel : ℕ) :
    ∀ s, out (run f fuel s) = out s ++ (heads f fuel s).flatMap δ := by
  induction fuel with
  | zero =>
      intro s
      simp [run, heads]
  | succ n ih =>
      intro s
      have hs := h s
      cases hturn : f s with
      | again s' =>
          rw [hturn] at hs
          rw [run_again hturn, ih s', show out s' = _ from hs, heads, hturn]
          simp
      | done s' =>
          rw [hturn] at hs
          rw [run_done hturn, show out s' = _ from hs, heads, hturn]
          simp

end Orderbooks.Loop
