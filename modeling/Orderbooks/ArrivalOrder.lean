import Orderbooks.Invariants

/-!
# Arrival stamps

A ghost clock stamps an order when it starts to rest, and again when a modify
changes its price. A change of quantity or of id keeps the stamp. The stamps are
kept by id; as long as no resting id is used again, they say of every resting
order when it came, and every queue is in the order of its stamps.
-/
namespace Orderbooks

/-- The stamps after a command that is given at time `clock` and reaches the
order `reached`. -/
def restamp (g : UInt64 → ℕ) (clock : ℕ) (reached : Option Order) : Command → UInt64 → ℕ
  | .submit m => Function.update g m.id clock
  | .cancel _ => g
  | .modify m =>
      match reached with
      | none => g
      | some o => Function.update g (if m.renames then m.newId else m.id)
          (if m.newPx = o.px then g m.id else clock)

namespace Queues

variable {ticks : ℕ} {d d' : Queues ticks} {opp s : Side} {m : SubmitMsg} {rem qty : UInt64}
  {u v : ℕ} {cap newPx : ℕ} {newQty : UInt64} {target : Option ℕ} {cmd : Command}
  {f f' : ℕ → ℕ} {g : UInt64 → ℕ} {clock : ℕ}

/-! ## Queues in the order of a stamp -/

/-- Every queue is in the order of the stamps `f`, all of them before `clock`. -/
structure Ranked (f : ℕ → ℕ) (clock : ℕ) (d : Queues ticks) : Prop where
  sorted : ∀ s p, (d.levels s p).Pairwise fun u v => f u < f v
  past : ∀ s p, ∀ u ∈ d.levels s p, f u < clock

theorem Ranked.congr (h : Ranked f clock d) (heq : ∀ s p, ∀ u ∈ d.levels s p, f' u = f u) :
    Ranked f' clock d where
  sorted s p := by
    refine (h.sorted s p).imp_of_mem ?_
    intro u v hu hv hlt
    rwa [heq s p u hu, heq s p v hv]
  past s p u hu := by
    rw [heq s p u hu]
    exact h.past s p u hu

theorem Ranked.sublist (h : Ranked f clock d)
    (hsub : ∀ s p, (d'.levels s p).Sublist (d.levels s p)) : Ranked f clock d' where
  sorted s p := (h.sorted s p).sublist (hsub s p)
  past s p u hu := h.past s p u ((hsub s p).subset hu)

theorem Ranked.tick (h : Ranked f clock d) : Ranked f (clock + 1) d :=
  ⟨h.sorted, fun s p u hu => (h.past s p u hu).trans (Nat.lt_succ_self clock)⟩

/-- An order stamped now goes to the back of a queue. -/
theorem Ranked.append (h : Ranked f clock d) (hu : f u = clock)
    (hsub : ∀ s p, (d'.levels s p).Sublist (d.levels s p ++ [u])) :
    Ranked f (clock + 1) d' where
  sorted s p := by
    refine List.Pairwise.sublist (hsub s p) ?_
    refine List.pairwise_append.mpr ⟨h.sorted s p, List.pairwise_singleton _ u, ?_⟩
    intro v hv w hw
    rw [List.mem_singleton.mp hw, hu]
    exact h.past s p v hv
  past s p v hv := by
    rcases List.mem_append.mp ((hsub s p).subset hv) with hv | hv
    · exact (h.past s p v hv).trans (Nat.lt_succ_self clock)
    · rw [List.mem_singleton.mp hv, hu]
      exact Nat.lt_succ_self clock

/-! ## Stamps kept by id -/

/-- The queues are in the order of the stamps of their orders' ids. -/
def Stamped (g : UInt64 → ℕ) (clock : ℕ) (d : Queues ticks) : Prop :=
  Ranked (fun u => g (d.orders u).id) clock d

theorem Stamped.empty (g : UInt64 → ℕ) (clock : ℕ) : ({} : Queues ticks).Stamped g clock :=
  ⟨fun _ _ => List.Pairwise.nil, fun s p u hu => by simp at hu⟩

theorem Worn.id_eq (h : Worn opp d d') (v : ℕ) : (d'.orders v).id = (d.orders v).id := by
  induction h with
  | refl => rfl
  | decrement _ _ _ _ _ ih => rw [setRemaining_id, ih]
  | drop _ _ _ ih => rw [drop_orders, setRemaining_id, ih]

theorem Stamped.worn (h : d.Stamped g clock) (hw : Worn opp d d') (hd : d.WellFormed) :
    d'.Stamped g clock :=
  (Ranked.sublist h (hw.sublist hd)).congr fun _ _ u _ => by rw [hw.id_eq]

/-- A stamp for an id that no resting order has. -/
theorem Stamped.update (h : d.Stamped g clock) (hd : d.WellFormed) {id : UInt64}
    (hid : d.Absent id) (n : ℕ) : d.Stamped (Function.update g id n) clock :=
  Ranked.congr h fun _ _ u hu => Function.update_of_ne (hid u (hd.linked hu)) n g

theorem Stamped.drop (h : d.Stamped g clock) (hd : d.WellFormed) (u : ℕ) :
    (d.drop u).Stamped g clock := by
  refine Ranked.sublist h fun s p => ?_
  have : (d.drop u).levels s p = (d.levels s p).erase u := hd.unlink_levels_eq_erase
  rw [this]
  exact List.erase_sublist

theorem Stamped.rest (h : d.Stamped g clock) (hd : d.WellFormed) (hid : d.Absent m.id) :
    (d.rest m rem).Stamped (Function.update g m.id clock) (clock + 1) := by
  refine Ranked.append (u := d.next) (d := d) ?_ (by simp) fun s p => ?_
  · refine (h.update hd hid clock).congr fun s p u hu => ?_
    have hne : u ≠ d.next := fun h => hd.next_notMem s p (h ▸ hu)
    rw [rest_orders, Function.update_of_ne hne]
  · rw [rest_levels]
    split_ifs
    · exact List.Sublist.refl _
    · exact List.sublist_append_left _ _

theorem Stamped.submitted (h : d.Stamped g clock) (hd : d.WellFormed) (hid : d.Absent m.id)
    (hs : Submitted cap m d d') : d'.Stamped (Function.update g m.id clock) (clock + 1) := by
  cases hs with
  | left hw =>
      have hworn := h.worn hw hd
      exact (hworn.update (hw.wellFormed hd) (hid.worn hw hd) clock).tick
  | rested hw => exact (h.worn hw hd).rest (hw.wellFormed hd) (hid.worn hw hd)

theorem Stamped.move (h : d.Stamped g clock) (hx : d.Exact) (hd : d.WellFormed)
    (hu : d.Linked u) :
    (d.move u newPx newQty).Stamped (Function.update g (d.orders u).id clock) (clock + 1) := by
  refine Ranked.append (u := u) (d := d.drop u) ?_ (by simp) fun s p => ?_
  · have hdrop := (h.drop hd u).update (hd.drop u) (hx.absent_drop hd hu) clock
    refine hdrop.congr fun s p v hv => ?_
    have hne : v ≠ u := (hd.mem_unlink.mp hv).2
    rw [move_orders, Function.update_of_ne hne, drop_orders]
  · have hlev : (d.drop u).levels s p = (d.levels s p).erase u := hd.unlink_levels_eq_erase
    rw [hlev, hd.move_levels]
    split_ifs
    · exact List.Sublist.refl _
    · exact List.sublist_append_left _ _

/-- A new price stamps the order anew; a new quantity does not. -/
theorem Stamped.repriced (h : d.Stamped g clock) (hx : d.Exact) (hd : d.WellFormed)
    (hu : d.Linked u) (hr : Repriced cap u newPx newQty d d') :
    d'.Stamped (if newPx = (d.orders u).px then g
      else Function.update g (d.orders u).id clock) (clock + 1) := by
  cases hr with
  | same hpx =>
      rw [if_pos hpx]
      exact h.tick
  | requantified hpx =>
      rw [if_pos hpx]
      have hsame : Ranked _ clock (d.setRemaining u newQty) :=
        Ranked.sublist h fun _ _ => List.Sublist.refl _
      refine (hsame.congr fun _ _ v _ => ?_).tick
      rw [setRemaining_id]
  | moved hpx =>
      rw [if_neg hpx]
      exact h.move hx hd hu
  | resubmitted hpx hs =>
      rw [if_neg hpx]
      exact (h.drop hd u).submitted (hd.drop u) (hx.absent_drop hd hu) hs

/-- The id under which a modify leaves the order it reaches. -/
theorem chained_id {m : ModifyMsg} (hid : (d.orders u).id = m.id) :
    ((d.chained u m).orders u).id = if m.renames then m.newId else m.id := by
  unfold Queues.chained
  split_ifs
  · simp
  · exact hid

theorem chained_px (m : ModifyMsg) : ((d.chained u m).orders u).px = (d.orders u).px := by
  unfold Queues.chained
  split_ifs
  · simp
  · rfl

/-- The stamp of a renamed order goes with it. -/
theorem Stamped.chained (h : d.Stamped g clock) (hd : d.WellFormed) {m : ModifyMsg}
    (hid : (d.orders u).id = m.id) (hfresh : d.Fresh (.modify m)) :
    (d.chained u m).Stamped
      (Function.update g (if m.renames then m.newId else m.id) (g m.id)) clock := by
  unfold Queues.chained
  split_ifs with hren
  · have hsame : Ranked _ clock (d.rename u m.newId) :=
      Ranked.sublist h fun _ _ => List.Sublist.refl _
    refine hsame.congr fun s p v hv => ?_
    rw [rename_orders]
    by_cases hvu : v = u
    · subst hvu
      simp [hid]
    · have hne : (d.orders v).id ≠ m.newId := hfresh hren v (hd.linked hv)
      rw [Function.update_of_ne hvu, Function.update_of_ne hne]
  · rw [Function.update_eq_self]
    exact h

/-- Without the order a modify reaches, the stamps are as they were. -/
theorem Stamped.drop_chained (h : d.Stamped g clock) (hd : d.WellFormed) (hu : d.Linked u)
    (m : ModifyMsg) : ((d.chained u m).drop u).Stamped g clock := by
  have hsame : Ranked (fun v => g (d.orders v).id) clock ((d.chained u m).drop u) := by
    refine Ranked.sublist h fun s p => ?_
    have hlev : ((d.chained u m).drop u).levels s p = ((d.chained u m).levels s p).erase u :=
      (hd.chained hu m).unlink_levels_eq_erase
    rw [hlev]
    unfold Queues.chained
    split_ifs
    · exact List.erase_sublist
    · exact List.erase_sublist
  refine hsame.congr fun s p v hv => ?_
  have hne : v ≠ u := ((hd.chained hu m).mem_unlink.mp hv).2
  rw [drop_orders]
  unfold Queues.chained
  split_ifs
  · rw [rename_orders, Function.update_of_ne hne]
  · rfl

theorem Stamped.effect (h : d.Stamped g clock) (hx : d.Exact) (hd : d.WellFormed)
    (hu : ∀ u, target = some u → d.Linked u ∧ (d.orders u).id = cmd.id) (hfresh : d.Fresh cmd)
    (he : Effect cap d target cmd d') :
    d'.Stamped (restamp g clock (target.map d.orders) cmd) (clock + 1) := by
  cases he with
  | submit hs => exact h.submitted hd hfresh hs
  | cancelNone => exact h.tick
  | cancel => exact (h.drop hd _).tick
  | modifyNone => exact h.tick
  | @modify u m _ hr =>
      obtain ⟨hl, hid⟩ := hu u rfl
      have hstep := (h.chained hd hid hfresh).repriced (hx.chained hl hfresh) (hd.chained hl m)
        ((linked_chained m).mpr hl) hr
      rw [chained_id hid, chained_px] at hstep
      simp only [restamp, Option.map_some]
      split_ifs at hstep ⊢
      all_goals simpa using hstep

end Queues
end Orderbooks
