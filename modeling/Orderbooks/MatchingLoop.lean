import Orderbooks.Sweep

/-!
# Two nested loops that sweep

A match is written in the source as two nested loops: the outer one looks up the
best opposite price, the inner one meets the makers at the front of its level
until the level or the aggressor is used up, and the level is then given up if
nothing is left in it. In between a level can be empty and still be listed as
populated.

`Simulates` says what each part of such a pair of loops has to do to the machine
its state stands for. From that the loops end, and end in the state the machine's
sweep ends in.
-/
namespace Orderbooks
open Loop

/-- The parts of two nested loops over states `σ` that match the aggressor `m`. -/
structure MatchLoop (m : SubmitMsg) (σ : Type) where
  remaining : σ → UInt64
  aborted : σ → Bool
  best : σ → Option ℕ
  /-- How many makers stand at a price. -/
  makers : ℕ → σ → ℕ
  /-- How many orders rest. -/
  live : σ → ℕ
  makerTurn : ℕ → σ → Turn σ
  /-- What is done once a level has been worked through. -/
  leave : ℕ → σ → σ

namespace MatchLoop

variable {ticks : ℕ} {m : SubmitMsg} {σ : Type}

def makerLoop (L : MatchLoop m σ) (p : ℕ) (c : σ) : σ := run (L.makerTurn p) (L.makers p c + 2) c

def levelTurn (L : MatchLoop m σ) (c : σ) : Turn σ :=
  if L.remaining c = 0 then .done c
  else match L.best c with
    | none => .done c
    | some p =>
        if !m.s.crosses m.px p then .done c
        else
          let c := L.makerLoop p c
          if L.aborted c then .done c else .again (L.leave p c)

def levelLoop (L : MatchLoop m σ) (c : σ) : σ := run L.levelTurn (L.live c + 2) c

/-- The parts of the loops, as steps of the machine a state stands for. A set of
prices goes with the machine: those the state lists as populated. -/
structure Simulates (L : MatchLoop m σ)
    (Rep : σ → PriorityBook ticks → (Side → Set ℕ) → Prop) : Prop where
  best : ∀ {c b}, Rep c b b.queues.populated → b.queues.WellFormed →
    L.best c = b.queues.best m.s.opposite
  makers : ∀ {c b pop} (p), Rep c b pop →
    L.makers p c = (b.queues.levels m.s.opposite p).length
  live : ∀ {c b pop}, Rep c b pop → L.live c = b.queues.live
  live_pos : ∀ {c b pop s p}, Rep c b pop → b.queues.WellFormed →
    b.queues.levels s p ≠ [] → 0 < b.queues.live
  halt : ∀ {c b pop p}, Rep c b pop →
    b.queues.levels m.s.opposite p = [] ∨ L.remaining c = 0 → L.makerTurn p c = .done c
  meet : ∀ {c b pop p u q}, Rep c b pop → b.queues.WellFormed → L.aborted c = false →
    L.remaining c ≠ 0 → b.queues.levels m.s.opposite p = u :: q →
    ∃ c', L.makerTurn p c =
        (if (PriorityBook.strike m p u b (L.remaining c)).aborted then .done c' else .again c') ∧
      L.remaining c' = (PriorityBook.strike m p u b (L.remaining c)).remaining ∧
      L.aborted c' = (PriorityBook.strike m p u b (L.remaining c)).aborted ∧
      Rep c' (PriorityBook.strike m p u b (L.remaining c)).book pop
  leave : ∀ {c b pop p}, Rep c b pop →
    (∀ t, pop t = if t = m.s.opposite then insert p (b.queues.populated t)
      else b.queues.populated t) →
    Rep (L.leave p c) b b.queues.populated ∧ L.remaining (L.leave p c) = L.remaining c ∧
      L.aborted (L.leave p c) = L.aborted c

variable {L : MatchLoop m σ} {Rep : σ → PriorityBook ticks → (Side → Set ℕ) → Prop}
  {target : PriorityBook.Sweep ticks} {J : PriorityBook ticks → UInt64 → Prop}
  {b : PriorityBook ticks} {c c' : σ} {p n : ℕ} {pop : Side → Set ℕ}

/-- A property of the states that every turn keeps can be carried along. -/
theorem Simulates.and {S : σ → Prop} (hL : L.Simulates Rep)
    (hturn : ∀ {c b pop p c'}, Rep c b pop → S c →
      L.makerTurn p c = .again c' ∨ L.makerTurn p c = .done c' → S c')
    (hleave : ∀ {c p}, S c → S (L.leave p c)) :
    L.Simulates fun c b pop => Rep c b pop ∧ S c where
  best h := hL.best h.1
  makers p h := hL.makers p h.1
  live h := hL.live h.1
  live_pos h := hL.live_pos h.1
  halt h := hL.halt h.1
  meet h hd hrun hrem hq := by
    obtain ⟨c', heq, hr, ha, hrep⟩ := hL.meet h.1 hd hrun hrem hq
    refine ⟨c', heq, hr, ha, hrep, ?_⟩
    split_ifs at heq
    · exact hturn h.1 h.2 (.inr heq)
    · exact hturn h.1 h.2 (.inl heq)
  leave h hmarked := by
    obtain ⟨hrep, hsame⟩ := hL.leave h.1 hmarked
    exact ⟨⟨hrep, hleave h.2⟩, hsame⟩

/-- The inner loop is draining the level at `p`, and what is left of the sweep
will end in `target`. `n` bounds how many orders are live. -/
structure Draining (L : MatchLoop m σ) (Rep : σ → PriorityBook ticks → (Side → Set ℕ) → Prop)
    (target : PriorityBook.Sweep ticks) (J : PriorityBook ticks → UInt64 → Prop) (p n : ℕ)
    (pop : Side → Set ℕ) (b : PriorityBook ticks) (c : σ) : Prop where
  rep : Rep c b pop
  wf : b.queues.WellFormed
  inv : J b (L.remaining c)
  running : L.aborted c = false
  left : PriorityBook.sweep m b (L.remaining c) = target
  crosses : m.s.crosses m.px p = true
  better : ∀ r, m.s.opposite.better r p = true → b.queues.levels m.s.opposite r = []
  marked : ∀ t, pop t = if t = m.s.opposite then insert p (b.queues.populated t)
    else b.queues.populated t
  live : L.remaining c = 0 ∨ b.queues.live < n ∨
    (b.queues.live = n ∧ b.queues.levels m.s.opposite p ≠ [])

/-- The match is over, with the machine in the state the sweep leaves. -/
structure Settled (L : MatchLoop m σ) (Rep : σ → PriorityBook ticks → (Side → Set ℕ) → Prop)
    (target : PriorityBook.Sweep ticks) (J : PriorityBook ticks → UInt64 → Prop) (c : σ) :
    Prop where
  rep : Rep c target.book target.book.queues.populated
  wf : target.book.queues.WellFormed
  inv : J target.book target.remaining
  remaining : L.remaining c = target.remaining
  aborted : L.aborted c = target.aborted

/-- The outer loop is at its head. -/
structure Sweeping (L : MatchLoop m σ) (Rep : σ → PriorityBook ticks → (Side → Set ℕ) → Prop)
    (target : PriorityBook.Sweep ticks) (J : PriorityBook ticks → UInt64 → Prop)
    (b : PriorityBook ticks) (c : σ) : Prop where
  rep : Rep c b b.queues.populated
  wf : b.queues.WellFormed
  inv : J b (L.remaining c)
  running : L.aborted c = false
  left : PriorityBook.sweep m b (L.remaining c) = target

/-! ## The inner loop -/

/-- What bounds the inner loop: the makers left, and whether the aggressor is open. -/
def drainRank (L : MatchLoop m σ) (p : ℕ) (c : σ) : ℕ :=
  L.makers p c + if L.remaining c = 0 then 0 else 1

namespace Draining

variable (h : L.Draining Rep target J p n pop b c)
include h

theorem best_eq (hne : b.queues.levels m.s.opposite p ≠ []) :
    b.queues.best m.s.opposite = some p := by
  refine (h.wf.isBest_best m.s.opposite).unique ⟨hne, fun q hq => ?_⟩
  by_contra hb
  exact hq (h.better q (by simpa using hb))

/-- While a maker stands at the front, the list of prices is not ahead of the level. -/
theorem marked_eq (hne : b.queues.levels m.s.opposite p ≠ []) : pop = b.queues.populated := by
  funext t
  rw [h.marked]
  split_ifs with ht
  · rw [Set.insert_eq_of_mem]
    rw [ht]
    exact hne
  · rfl

/-- The maker at the front has been met, and the aggressor goes on. -/
theorem advance (hL : L.Simulates Rep) (hJ : PriorityBook.StrikeInvariant m J) {u : ℕ}
    {q : List ℕ} (hq : b.queues.levels m.s.opposite p = u :: q) (hrem : L.remaining c ≠ 0)
    (ha : (PriorityBook.strike m p u b (L.remaining c)).aborted = false)
    (hrem' : L.remaining c' = (PriorityBook.strike m p u b (L.remaining c)).remaining)
    (hab : L.aborted c' = false)
    (hrep : Rep c' (PriorityBook.strike m p u b (L.remaining c)).book pop) :
    L.Draining Rep target J p n pop (PriorityBook.strike m p u b (L.remaining c)).book c' ∧
      L.drainRank p c' < L.drainRank p c := by
  have hne : b.queues.levels m.s.opposite p ≠ [] := by simp [hq]
  have hbest := h.best_eq hne
  have hsub := fun t r => PriorityBook.strike_sublist m p u (L.remaining c) h.wf t r
  refine ⟨⟨hrep, PriorityBook.strike_wellFormed m p u _ h.wf, ?_, hab, ?_, h.crosses,
    fun r hr => ?_, fun t => ?_, ?_⟩, ?_⟩
  · rw [hrem']
    exact hJ b _ p u q h.wf h.inv hrem hbest h.crosses hq
  · have := h.left
    rw [PriorityBook.sweep_strike h.wf hrem hbest h.crosses hq, ha] at this
    rw [hrem', ← this]
    rfl
  · have := hsub m.s.opposite r
    rw [h.better r hr] at this
    exact List.eq_nil_of_sublist_nil this
  · have hlev := fun r => PriorityBook.strike_levels_of_ne (L.remaining c) h.wf hq
      (t := t) (r := r)
    rw [h.marked]
    split_ifs with ht
    · ext r
      by_cases hr : r = p
      · simp [hr]
      · simp only [Set.mem_insert_iff, hr, false_or, Queues.populated, Set.mem_ofPred_eq]
        rw [hlev r fun h => hr h.2]
    · ext r
      simp only [Queues.populated, Set.mem_ofPred_eq]
      rw [hlev r fun h => ht h.1]
  · by_cases hz : (PriorityBook.strike m p u b (L.remaining c)).remaining = 0
    · exact .inl (hrem'.trans hz)
    · rw [PriorityBook.strike_live ha hz]
      have hpos := hL.live_pos h.rep h.wf hne
      rcases h.live with hz' | hlt | ⟨heq, _⟩
      · exact absurd hz' hrem
      · exact .inr (.inl (by omega))
      · exact .inr (.inl (by omega))
  · unfold drainRank
    rw [hL.makers p hrep, hL.makers p h.rep, if_neg hrem]
    by_cases hz : (PriorityBook.strike m p u b (L.remaining c)).remaining = 0
    · rw [hrem', if_pos hz]
      have := (hsub m.s.opposite p).length_le
      omega
    · rw [hrem', if_neg hz, PriorityBook.strike_level h.wf hq ha hz, hq]
      simp

/-- One turn of the inner loop. -/
theorem makerTurn (hL : L.Simulates Rep) (hJ : PriorityBook.StrikeInvariant m J) :
    (∃ c' b', L.makerTurn p c = .again c' ∧ L.Draining Rep target J p n pop b' c' ∧
      L.drainRank p c' < L.drainRank p c) ∨
    (∃ c', L.makerTurn p c = .done c' ∧ L.aborted c' = true ∧ L.Settled Rep target J c') ∨
    (L.makerTurn p c = .done c ∧
      (b.queues.levels m.s.opposite p = [] ∨ L.remaining c = 0)) := by
  by_cases hrem : L.remaining c = 0
  · exact .inr (.inr ⟨hL.halt h.rep (.inr hrem), .inr hrem⟩)
  cases hq : b.queues.levels m.s.opposite p with
  | nil => exact .inr (.inr ⟨hL.halt h.rep (.inl hq), .inl rfl⟩)
  | cons u q =>
  have hne : b.queues.levels m.s.opposite p ≠ [] := by simp [hq]
  obtain ⟨c', hturn, hr, hab, hrep⟩ := hL.meet h.rep h.wf h.running hrem hq
  cases ha : (PriorityBook.strike m p u b (L.remaining c)).aborted with
  | false =>
      rw [ha] at hturn hab
      obtain ⟨hD, hlt⟩ := h.advance hL hJ hq hrem ha hr hab hrep
      exact .inl ⟨c', _, hturn, hD, hlt⟩
  | true =>
      rw [ha] at hturn hab
      have htarget : target = PriorityBook.strike m p u b (L.remaining c) := by
        rw [← h.left, PriorityBook.sweep_strike h.wf hrem (h.best_eq hne) h.crosses hq, ha]
        rfl
      have hbook := PriorityBook.strike_book_of_aborted ha
      refine .inr (.inl ⟨c', hturn, hab, ?_⟩)
      rw [htarget]
      refine ⟨?_, ?_, ?_, hr, hab.trans ha.symm⟩
      · rw [hbook, ← h.marked_eq hne, ← hbook]
        exact hrep
      · rw [hbook]
        exact h.wf
      · exact hJ b _ p u q h.wf h.inv hrem (h.best_eq hne) h.crosses hq

theorem makerLoop (hL : L.Simulates Rep) (hJ : PriorityBook.StrikeInvariant m J) :
    (L.aborted (L.makerLoop p c) = true ∧ L.Settled Rep target J (L.makerLoop p c)) ∨
    ∃ b', L.Draining Rep target J p n pop b' (L.makerLoop p c) ∧
      (b'.queues.levels m.s.opposite p = [] ∨ L.remaining (L.makerLoop p c) = 0) := by
  refine run_spec (f := L.makerTurn p) (fun c => ∃ b, L.Draining Rep target J p n pop b c)
    (fun c => (L.aborted c = true ∧ L.Settled Rep target J c) ∨
      ∃ b', L.Draining Rep target J p n pop b' c ∧
        (b'.queues.levels m.s.opposite p = [] ∨ L.remaining c = 0))
    (L.drainRank p) ?_ ?_ _ c ⟨b, h⟩ ?_
  · rintro c c' ⟨b, hD⟩ hturn
    rcases hD.makerTurn hL hJ with ⟨c₁, b₁, h₁, hD₁, hlt⟩ | ⟨c₁, h₁, _⟩ | ⟨h₁, _⟩
    · rw [h₁, Turn.again.injEq] at hturn
      exact hturn ▸ ⟨⟨b₁, hD₁⟩, hlt⟩
    · simp [h₁] at hturn
    · simp [h₁] at hturn
  · rintro c c' ⟨b, hD⟩ hturn
    rcases hD.makerTurn hL hJ with ⟨c₁, b₁, h₁, _⟩ | ⟨c₁, h₁, hab, hset⟩ | ⟨h₁, hend⟩
    · simp [h₁] at hturn
    · rw [h₁, Turn.done.injEq] at hturn
      exact .inl (hturn ▸ ⟨hab, hset⟩)
    · rw [h₁, Turn.done.injEq] at hturn
      exact .inr (hturn ▸ ⟨b, hD, hend⟩)
  · unfold drainRank
    split_ifs <;> omega

end Draining

/-! ## The outer loop -/

/-- What bounds the outer loop: every level worked through takes an order with it,
or the aggressor ends there. -/
def sweepRank (L : MatchLoop m σ) (c : σ) : ℕ := if L.remaining c = 0 then 0 else L.live c + 1

namespace Sweeping

variable (h : L.Sweeping Rep target J b c)
include h

theorem settled (hh : PriorityBook.Halted m b (L.remaining c)) : L.Settled Rep target J c := by
  have htarget := h.left
  rw [PriorityBook.sweep_stop h.wf hh] at htarget
  rw [← htarget]
  exact ⟨h.rep, h.wf, h.inv, rfl, h.running⟩

theorem draining (hbest : b.queues.best m.s.opposite = some p)
    (hcross : m.s.crosses m.px p = true) :
    L.Draining Rep target J p b.queues.live b.queues.populated b c := by
  have hne := (Queues.best_eq_some.mp hbest).1
  refine ⟨h.rep, h.wf, h.inv, h.running, h.left, hcross,
    fun r hr => Queues.better_eq_nil hbest h.wf hr, fun t => ?_, .inr (.inr ⟨rfl, hne⟩)⟩
  split_ifs with ht
  · rw [Set.insert_eq_of_mem]
    rw [ht]
    exact hne
  · rfl

/-- One turn of the outer loop. -/
theorem levelTurn (hL : L.Simulates Rep) (hJ : PriorityBook.StrikeInvariant m J) :
    (∃ c' b', L.levelTurn c = .again c' ∧ L.Sweeping Rep target J b' c' ∧
      L.sweepRank c' < L.sweepRank c) ∨
    ∃ c', L.levelTurn c = .done c' ∧ L.Settled Rep target J c' := by
  by_cases hrem : L.remaining c = 0
  · exact .inr ⟨c, by simp [MatchLoop.levelTurn, hrem], h.settled (.inl hrem)⟩
  have hbest_eq := hL.best h.rep h.wf
  cases hbest : b.queues.best m.s.opposite with
  | none =>
      refine .inr ⟨c, ?_, h.settled (.inr (.inl hbest))⟩
      simp [MatchLoop.levelTurn, hrem, hbest_eq, hbest]
  | some p =>
  cases hcross : m.s.crosses m.px p with
  | false =>
      refine .inr ⟨c, ?_, h.settled (.inr (.inr ⟨p, hbest, hcross⟩))⟩
      simp [MatchLoop.levelTurn, hrem, hbest_eq, hbest, hcross]
  | true =>
  have hturn : L.levelTurn c =
      if L.aborted (L.makerLoop p c) then .done (L.makerLoop p c)
      else .again (L.leave p (L.makerLoop p c)) := by
    simp [MatchLoop.levelTurn, hrem, hbest_eq, hbest, hcross]
  rw [hturn]
  rcases (h.draining hbest hcross).makerLoop hL hJ with ⟨hab, hset⟩ | ⟨b', hD, hend⟩
  · exact .inr ⟨_, if_pos hab, hset⟩
  · obtain ⟨hrep, hsame, hrun⟩ := hL.leave hD.rep hD.marked
    refine .inl ⟨_, b', if_neg (by simp [hD.running]),
      ⟨hrep, hD.wf, hsame ▸ hD.inv, hrun.trans hD.running, hsame ▸ hD.left⟩, ?_⟩
    have hlive := hD.live
    unfold sweepRank
    rw [if_neg hrem, hL.live hrep, hL.live h.rep, hsame]
    split_ifs with hz
    · omega
    · rcases hlive with hlive | hlive | ⟨_, hne⟩
      · exact absurd hlive hz
      · omega
      · rcases hend with hend | hend
        · exact absurd hend hne
        · exact absurd hend hz

/-- The loops end where the machine's sweep ends. -/
theorem levelLoop (hL : L.Simulates Rep) (hJ : PriorityBook.StrikeInvariant m J) :
    L.Settled Rep target J (L.levelLoop c) := by
  refine run_spec (f := L.levelTurn) (fun c => ∃ b', L.Sweeping Rep target J b' c)
    (L.Settled Rep target J) L.sweepRank ?_ ?_ _ _ ⟨b, h⟩ ?_
  · rintro c c' ⟨b', hS⟩ hturn
    rcases hS.levelTurn hL hJ with ⟨c₁, b₁, h₁, hS₁, hlt⟩ | ⟨c₁, h₁, _⟩
    · rw [h₁, Turn.again.injEq] at hturn
      exact hturn ▸ ⟨⟨b₁, hS₁⟩, hlt⟩
    · simp [h₁] at hturn
  · rintro c c' ⟨b', hS⟩ hturn
    rcases hS.levelTurn hL hJ with ⟨c₁, b₁, h₁, _⟩ | ⟨c₁, h₁, hset⟩
    · simp [h₁] at hturn
    · rw [h₁, Turn.done.injEq] at hturn
      exact hturn ▸ hset
  · unfold sweepRank
    split_ifs <;> omega

/-- Whenever the inner loop is at its head, a level is being drained. -/
theorem heads_draining (hL : L.Simulates Rep) (hJ : PriorityBook.StrikeInvariant m J) (fuel : ℕ)
    {c₁ : σ} (hhead : c₁ ∈ heads L.levelTurn fuel c) (hbest : L.best c₁ = some p)
    (hcross : m.s.crosses m.px p = true) (fuel' : ℕ) {c₂ : σ}
    (hhead' : c₂ ∈ heads (L.makerTurn p) fuel' c₁) :
    ∃ b' n pop, L.Draining Rep target J p n pop b' c₂ := by
  have houter := heads_spec (f := L.levelTurn) (fun c => ∃ b', L.Sweeping Rep target J b' c)
    (fun c c' hS hturn => by
      obtain ⟨b', hS⟩ := hS
      rcases hS.levelTurn hL hJ with ⟨c₁, b₁, h₁, hS₁, _⟩ | ⟨c₁, h₁, _⟩
      · rw [h₁, Turn.again.injEq] at hturn
        exact ⟨b₁, hturn ▸ hS₁⟩
      · simp [h₁] at hturn)
    _ _ ⟨b, h⟩ c₁ hhead
  obtain ⟨b₁, hS⟩ := houter
  have hdrain := hS.draining ((hL.best hS.rep hS.wf).symm.trans hbest) hcross
  have hinner := heads_spec (f := L.makerTurn p)
    (fun c => ∃ b', L.Draining Rep target J p b₁.queues.live b₁.queues.populated b' c)
    (fun c c' hD hturn => by
      obtain ⟨b', hD⟩ := hD
      rcases hD.makerTurn hL hJ with ⟨c₁, b₂, h₁, hD₁, _⟩ | ⟨c₁, h₁, _⟩ | ⟨h₁, _⟩
      · rw [h₁, Turn.again.injEq] at hturn
        exact ⟨b₂, hturn ▸ hD₁⟩
      · simp [h₁] at hturn
      · simp [h₁] at hturn)
    _ _ ⟨b₁, hdrain⟩ c₂ hhead'
  obtain ⟨b', hD⟩ := hinner
  exact ⟨b', _, _, hD⟩

end Sweeping
end MatchLoop
end Orderbooks
