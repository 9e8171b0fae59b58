import Mathlib.Tactic.Common

/-!
# Runs of a deterministic machine

A machine takes one input after another. `Along` says that every input of a run
meets a precondition in the state it is given to, which is how an assumption
about the environment that depends on the state is stated. What one step
preserves under its precondition, a run preserves.

`exec` is for a machine that several parties drive: an input that its party cannot
give in the present state leads nowhere, and a schedule is a list of inputs that is
accepted to its end.
-/
namespace Orderbooks.Runs

variable {σ τ α : Type} {step : σ → α → σ} {next : τ → α → τ} {ok ok' : σ → α → Prop}

/-- Every input of the run that starts in `s` is given to a state that permits it. -/
def Along (step : σ → α → σ) (ok : σ → α → Prop) : σ → List α → Prop
  | _, [] => True
  | s, a :: as => ok s a ∧ Along step ok (step s a) as

instance Along.decidable [∀ s a, Decidable (ok s a)] :
    ∀ (s : σ) (as : List α), Decidable (Along step ok s as)
  | _, [] => isTrue trivial
  | s, a :: as =>
      have := Along.decidable (step s a) as
      inferInstanceAs (Decidable (ok s a ∧ Along step ok (step s a) as))

theorem Along.and {s : σ} {as : List α} (ha : Along step ok s as) (ha' : Along step ok' s as) :
    Along step (fun s a => ok s a ∧ ok' s a) s as := by
  induction as generalizing s with
  | nil => trivial
  | cons a as ih => exact ⟨⟨ha.1, ha'.1⟩, ih ha.2 ha'.2⟩

theorem along_append {s : σ} {as bs : List α} :
    Along step ok s (as ++ bs) ↔ Along step ok s as ∧ Along step ok (as.foldl step s) bs := by
  induction as generalizing s with
  | nil => simp [Along]
  | cons a as ih => simp [Along, ih, and_assoc]

/-- A precondition that does not look at the state. -/
theorem along_of_forall {good : α → Prop} {s : σ} {as : List α} (h : ∀ a ∈ as, good a) :
    Along step (fun _ a => good a) s as := by
  induction as generalizing s with
  | nil => trivial
  | cons a as ih => exact ⟨h a (by simp), ih fun a' ha' => h a' (by simp [ha'])⟩

/-- The invariant rule for runs. -/
theorem Along.invariant (I : σ → Prop) (h : ∀ s a, I s → ok s a → I (step s a)) {s : σ}
    {as : List α} (ha : Along step ok s as) (hs : I s) : I (as.foldl step s) := by
  induction as generalizing s with
  | nil => exact hs
  | cons a as ih => exact ih ha.2 (h s a hs ha.1)

/-- The simulation rule: two machines given the same inputs stay related. -/
theorem Along.lockstep (R : σ → τ → Prop)
    (h : ∀ s t a, R s t → ok s a → R (step s a) (next t a)) {s : σ} {t : τ} {as : List α}
    (ha : Along step ok s as) (hs : R s t) : R (as.foldl step s) (as.foldl next t) := by
  induction as generalizing s t with
  | nil => exact hs
  | cons a as ih => exact ih ha.2 (h s t a hs ha.1)

/-- What two machines in step give at every step holds along the second one's run. -/
theorem Along.transport {ok'' : τ → α → Prop} (R : σ → τ → Prop)
    (h : ∀ s t a, R s t → ok s a → R (step s a) (next t a) ∧ ok'' t a) {s : σ} {t : τ}
    {as : List α} (ha : Along step ok s as) (hs : R s t) : Along next ok'' t as := by
  induction as generalizing s t with
  | nil => trivial
  | cons a as ih =>
      obtain ⟨hnext, hok⟩ := h s t a hs ha.1
      exact ⟨hok, ih ha.2 hnext⟩

/-- What an invariant and the precondition give at every step holds along the run. -/
theorem Along.of_invariant (I : σ → Prop)
    (h : ∀ s a, I s → ok s a → I (step s a) ∧ ok' s a) {s : σ} {as : List α}
    (ha : Along step ok s as) (hs : I s) : Along step ok' s as := by
  induction as generalizing s with
  | nil => trivial
  | cons a as ih =>
      obtain ⟨hnext, hok⟩ := h s a hs ha.1
      exact ⟨hok, ih ha.2 hnext⟩

/-! ## Machines with answers -/

section Answers
variable {β : Type} {move : σ → α → β × σ} {reply : τ → α → β × τ}

/-- The answers of a run, one for each input. -/
def answers (move : σ → α → β × σ) : σ → List α → List β
  | _, [] => []
  | s, a :: as => (move s a).1 :: answers move (move s a).2 as

/-- The state a run with answers ends in. -/
def final (move : σ → α → β × σ) : σ → List α → σ := List.foldl fun s a => (move s a).2

/-- The simulation rule for machines with answers. -/
theorem Along.answers_eq (R : σ → τ → Prop)
    (h : ∀ s t a, R s t → ok s a →
      (move s a).1 = (reply t a).1 ∧ R (move s a).2 (reply t a).2) {s : σ} {t : τ} {as : List α}
    (ha : Along (fun s a => (move s a).2) ok s as) (hs : R s t) :
    answers move s as = answers reply t as ∧ R (final move s as) (final reply t as) := by
  induction as generalizing s t with
  | nil => exact ⟨rfl, hs⟩
  | cons a as ih =>
      obtain ⟨hout, hnext⟩ := h s t a hs ha.1
      obtain ⟨houts, hend⟩ := ih ha.2 hnext
      refine ⟨?_, hend⟩
      simp only [answers, hout, houts]

end Answers

/-! ## Machines that refuse inputs -/

section Exec
variable {step : σ → α → Option σ}

def exec (step : σ → α → Option σ) : σ → List α → Option σ
  | s, [] => some s
  | s, a :: as => (step s a).bind fun s' => exec step s' as

theorem exec_cons {s s' : σ} {a : α} {as : List α} :
    exec step s (a :: as) = some s' ↔ ∃ s₁, step s a = some s₁ ∧ exec step s₁ as = some s' :=
  Option.bind_eq_some_iff

theorem exec_append {s s' : σ} {as bs : List α} :
    exec step s (as ++ bs) = some s' ↔
      ∃ s₁, exec step s as = some s₁ ∧ exec step s₁ bs = some s' := by
  induction as generalizing s with
  | nil => simp [exec]
  | cons a as ih =>
      rw [List.cons_append, exec_cons]
      simp only [ih, exec_cons]
      constructor
      · rintro ⟨s₁, h₁, s₂, h₂, h₃⟩
        exact ⟨s₂, ⟨s₁, h₁, h₂⟩, h₃⟩
      · rintro ⟨s₂, ⟨s₁, h₁, h₂⟩, h₃⟩
        exact ⟨s₁, h₁, s₂, h₂, h₃⟩

theorem exec_concat {s s' : σ} {as : List α} {a : α} :
    exec step s (as ++ [a]) = some s' ↔ ∃ s₁, exec step s as = some s₁ ∧ step s₁ a = some s' := by
  simp [exec_append, exec]

/-- The invariant rule for schedules, with inputs restricted to `good` ones. -/
theorem exec_invariant_of (good : α → Prop) (I : σ → Prop)
    (h : ∀ s a s', I s → good a → step s a = some s' → I s') {s s' : σ} {as : List α}
    (hgood : ∀ a ∈ as, good a) (hrun : exec step s as = some s') (hs : I s) : I s' := by
  induction as generalizing s with
  | nil => exact Option.some.inj hrun ▸ hs
  | cons a as ih =>
      obtain ⟨s₁, hstep, hrest⟩ := exec_cons.mp hrun
      have hs₁ : I s₁ := h s a s₁ hs (hgood a (by simp)) hstep
      exact ih (fun a' ha' => hgood a' (by simp [ha'])) hrest hs₁

theorem exec_invariant (I : σ → Prop) (h : ∀ s a s', I s → step s a = some s' → I s') {s s' : σ}
    {as : List α} (hrun : exec step s as = some s') (hs : I s) : I s' :=
  exec_invariant_of (fun _ => True) I (fun s a s' hs _ => h s a s' hs) (fun _ _ => trivial) hrun hs

end Exec

end Orderbooks.Runs
