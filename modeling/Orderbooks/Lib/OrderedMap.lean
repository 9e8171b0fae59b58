import Mathlib.Data.List.Sort
import Mathlib.Order.Defs.Unbundled

/-!
# Ordered maps

A map whose keys are iterated in the order of a comparison, as `std::map` is. The
entries are a list that is sorted by key; the proof of that is part of the map.
-/
namespace Orderbooks

structure OrderedMap (κ ν : Type) (lt : κ → κ → Bool) where
  entries : List (κ × ν) := []
  sorted : entries.Pairwise fun a b => lt a.1 b.1 = true := by exact List.Pairwise.nil

namespace OrderedMap

variable {κ ν : Type} {lt : κ → κ → Bool}

section Entries

variable [DecidableEq κ]

def lookupEntries (k : κ) : List (κ × ν) → Option ν
  | [] => none
  | (k', v) :: l => if k' = k then some v else lookupEntries k l

/-- Replace the value under `k` in a sorted list of entries, or insert one. -/
def upsertEntries (lt : κ → κ → Bool) (k : κ) (f : Option ν → ν) : List (κ × ν) → List (κ × ν)
  | [] => [(k, f none)]
  | (k', v) :: l =>
      if k' = k then (k, f (some v)) :: l
      else if lt k k' then (k, f none) :: (k', v) :: l
      else (k', v) :: upsertEntries lt k f l

theorem mem_of_lookupEntries {k : κ} {v : ν} {l : List (κ × ν)}
    (h : lookupEntries k l = some v) : (k, v) ∈ l := by
  induction l with
  | nil => simp [lookupEntries] at h
  | cons e l ih =>
      simp only [lookupEntries] at h
      split_ifs at h with hk
      · rw [← hk, ← Option.some.inj h]
        exact List.mem_cons_self
      · exact List.mem_cons_of_mem _ (ih h)

theorem mem_upsertEntries {k : κ} {f : Option ν → ν} {l : List (κ × ν)} {a : κ × ν}
    (h : a ∈ upsertEntries lt k f l) : a.1 = k ∨ a ∈ l := by
  induction l with
  | nil =>
      rw [List.mem_singleton.mp h]
      exact .inl rfl
  | cons e l ih =>
      simp only [upsertEntries] at h
      split_ifs at h with hk hlt
      · rcases List.mem_cons.mp h with rfl | h
        · exact .inl rfl
        · exact .inr (List.mem_cons_of_mem _ h)
      · rcases List.mem_cons.mp h with rfl | h
        · exact .inl rfl
        · exact .inr h
      · rcases List.mem_cons.mp h with rfl | h
        · exact .inr List.mem_cons_self
        · exact (ih h).imp_right (List.mem_cons_of_mem _)

theorem lookupEntries_filter (k k' : κ) (l : List (κ × ν)) :
    lookupEntries k' (l.filter fun a => decide (a.1 ≠ k)) =
      if k' = k then none else lookupEntries k' l := by
  induction l with
  | nil => simp [lookupEntries]
  | cons e l ih =>
      by_cases he : e.1 = k
      · rw [List.filter_cons_of_neg (by simpa using he), ih]
        by_cases hk : k' = k
        · rw [if_pos hk, if_pos hk]
        · have hne : e.1 ≠ k' := fun h => hk (h.symm.trans he)
          rw [if_neg hk, if_neg hk, lookupEntries, if_neg hne]
      · rw [List.filter_cons_of_pos (by simpa using he), lookupEntries, lookupEntries, ih]
        by_cases hk : k' = k
        · have hne : e.1 ≠ k' := fun h => he (h.trans hk)
          rw [if_neg hne, if_pos hk, if_pos hk]
        · rw [if_neg hk, if_neg hk]

def find? (m : OrderedMap κ ν lt) (k : κ) : Option ν := lookupEntries k m.entries

/-- The entry iteration starts with. -/
def first? (m : OrderedMap κ ν lt) : Option (κ × ν) := m.entries.head?

def erase (m : OrderedMap κ ν lt) (k : κ) : OrderedMap κ ν lt :=
  ⟨m.entries.filter fun a => decide (a.1 ≠ k), m.sorted.filter _⟩

theorem find?_empty (k : κ) : ({} : OrderedMap κ ν lt).find? k = none := rfl

theorem find?_erase (m : OrderedMap κ ν lt) (k k' : κ) :
    (m.erase k).find? k' = if k' = k then none else m.find? k' :=
  lookupEntries_filter k k' m.entries

end Entries

variable [IsStrictTotalOrder κ (fun a b => lt a b = true)]

theorem lt_irrefl (a : κ) : ¬ lt a a = true := irrefl_of (fun a b => lt a b = true) a

theorem lt_of_not_lt {a b : κ} (hne : a ≠ b) (h : ¬ lt b a = true) : lt a b = true := by
  rcases trichotomous_of (fun a b => lt a b = true) a b with hab | hab | hab
  · exact hab
  · exact absurd hab hne
  · exact absurd hab h

variable [DecidableEq κ]

theorem sorted_upsertEntries (k : κ) (f : Option ν → ν) {l : List (κ × ν)}
    (h : l.Pairwise fun a b => lt a.1 b.1 = true) :
    (upsertEntries lt k f l).Pairwise fun a b => lt a.1 b.1 = true := by
  induction l with
  | nil => exact List.pairwise_singleton _ _
  | cons e l ih =>
      obtain ⟨hfirst, hrest⟩ := List.pairwise_cons.mp h
      simp only [upsertEntries]
      split_ifs with hk hlt
      · subst hk
        exact List.pairwise_cons.mpr ⟨hfirst, hrest⟩
      · refine List.pairwise_cons.mpr ⟨fun a ha => ?_, h⟩
        rcases List.mem_cons.mp ha with rfl | ha
        · exact hlt
        · exact trans_of (fun a b => lt a b = true) hlt (hfirst a ha)
      · refine List.pairwise_cons.mpr ⟨fun a ha => ?_, ih hrest⟩
        rcases mem_upsertEntries ha with heq | ha
        · rw [heq]
          exact lt_of_not_lt hk hlt
        · exact hfirst a ha

/-- No entry under a key that comes before all of them. -/
theorem lookupEntries_of_lt {k : κ} {l : List (κ × ν)} (h : ∀ a ∈ l, lt k a.1 = true) :
    lookupEntries k l = none := by
  cases hl : lookupEntries k l with
  | none => rfl
  | some v => exact absurd (h _ (mem_of_lookupEntries hl)) (lt_irrefl k)

theorem lookupEntries_upsert (k k' : κ) (f : Option ν → ν) {l : List (κ × ν)}
    (h : l.Pairwise fun a b => lt a.1 b.1 = true) :
    lookupEntries k' (upsertEntries lt k f l) =
      if k' = k then some (f (lookupEntries k l)) else lookupEntries k' l := by
  induction l with
  | nil => simp [upsertEntries, lookupEntries, eq_comm]
  | cons e l ih =>
      obtain ⟨hfirst, hrest⟩ := List.pairwise_cons.mp h
      rw [upsertEntries]
      by_cases he : e.1 = k
      · rw [if_pos he, lookupEntries, lookupEntries, lookupEntries, if_pos he, he]
        by_cases hk : k = k'
        · rw [if_pos hk, if_pos hk.symm]
        · rw [if_neg hk, if_neg hk, if_neg (Ne.symm hk)]
      · rw [if_neg he]
        split_ifs with hlt hk hk
        · have hall : ∀ a ∈ e :: l, lt k a.1 = true := by
            intro a ha
            rcases List.mem_cons.mp ha with rfl | ha
            · exact hlt
            · exact trans_of (fun a b => lt a b = true) hlt (hfirst a ha)
          rw [lookupEntries, if_pos hk.symm, lookupEntries_of_lt hall]
        · rw [lookupEntries, if_neg (Ne.symm hk)]
        · rw [lookupEntries, if_neg fun h => he (h.trans hk), ih hrest, if_pos hk, lookupEntries,
            if_neg he]
        · rw [lookupEntries, lookupEntries, ih hrest, if_neg hk]

/-! ## Maps -/

/-- Write the value `f` makes of the present one, where there is one, under `k`. -/
def upsert (m : OrderedMap κ ν lt) (k : κ) (f : Option ν → ν) : OrderedMap κ ν lt :=
  ⟨upsertEntries lt k f m.entries, sorted_upsertEntries k f m.sorted⟩

variable {m : OrderedMap κ ν lt} {k k' : κ} {v : ν}

theorem find?_upsert (m : OrderedMap κ ν lt) (k k' : κ) (f : Option ν → ν) :
    (m.upsert k f).find? k' = if k' = k then some (f (m.find? k)) else m.find? k' :=
  lookupEntries_upsert k k' f m.sorted

theorem lookupEntries_of_mem {l : List (κ × ν)} (h : l.Pairwise fun a b => lt a.1 b.1 = true)
    (hmem : (k, v) ∈ l) : lookupEntries k l = some v := by
  induction l with
  | nil => simp at hmem
  | cons e l ih =>
      obtain ⟨hfirst, hrest⟩ := List.pairwise_cons.mp h
      rcases List.mem_cons.mp hmem with rfl | hmem
      · exact if_pos rfl
      · have hne : e.1 ≠ k := fun heq => lt_irrefl k (heq ▸ hfirst _ hmem)
        rw [lookupEntries, if_neg hne]
        exact ih hrest hmem

theorem mem_entries : (k, v) ∈ m.entries ↔ m.find? k = some v :=
  ⟨lookupEntries_of_mem m.sorted, mem_of_lookupEntries⟩

theorem first?_eq_none : m.first? = none ↔ ∀ k, m.find? k = none := by
  unfold first?
  rw [List.head?_eq_none_iff]
  constructor
  · intro h k
    unfold find?
    rw [h]
    rfl
  · intro h
    refine List.eq_nil_iff_forall_not_mem.mpr fun a ha => ?_
    rw [show a = (a.1, a.2) from rfl, mem_entries, h] at ha
    simp at ha

/-- Iteration starts with the least key. -/
theorem first?_eq_some (h : m.first? = some (k, v)) :
    m.find? k = some v ∧ ∀ k', (m.find? k').isSome → lt k' k = false := by
  obtain ⟨l, hl⟩ := List.head?_eq_some_iff.mp h
  have hmem : (k, v) ∈ m.entries := by simp [hl]
  refine ⟨mem_entries.mp hmem, fun k' hk' => ?_⟩
  obtain ⟨v', hv'⟩ := Option.isSome_iff_exists.mp hk'
  have hin := mem_entries.mpr hv'
  have hsorted := m.sorted
  rw [hl] at hin hsorted
  rcases List.mem_cons.mp hin with heq | hin
  · have hself : ¬ lt k k = true := lt_irrefl k
    rw [(Prod.mk.inj heq).1]
    simpa using hself
  · have hlt := (List.pairwise_cons.mp hsorted).1 _ hin
    by_contra hne
    exact lt_irrefl k (trans_of (fun a b => lt a b = true) hlt (by simpa using hne))

/-- The keys in their order are those of any sorted list that has them all. -/
theorem keys_eq_filter {l : List κ} (hl : l.Pairwise fun a b => lt a b = true)
    (hk : ∀ k, (m.find? k).isSome → k ∈ l) :
    m.entries.map Prod.fst = l.filter fun k => (m.find? k).isSome := by
  have hsorted : (m.entries.map Prod.fst).Pairwise fun a b => lt a b = true :=
    List.pairwise_map.mpr m.sorted
  have hnodup : ∀ {l : List κ}, l.Pairwise (fun a b => lt a b = true) → l.Nodup := fun h =>
    List.Pairwise.imp (fun {a b} hab (heq : a = b) => lt_irrefl b (heq ▸ hab)) h
  have hasymm : ∀ a b, lt a b = true → lt b a = true → a = b := fun a b hab hba =>
    absurd (trans_of (fun a b => lt a b = true) hab hba) (lt_irrefl a)
  refine List.Perm.eq_of_pairwise (fun a b _ _ => hasymm a b) hsorted (hl.filter _) ?_
  refine (List.perm_ext_iff_of_nodup (hnodup hsorted) (hnodup (hl.filter _))).mpr fun k => ?_
  rw [List.mem_filter, List.mem_map]
  constructor
  · rintro ⟨a, ha, rfl⟩
    have := mem_entries.mp (show (a.1, a.2) ∈ m.entries from ha)
    simp only [this, Option.isSome_some, and_true]
    exact hk _ (by simp [this])
  · rintro ⟨_, hsome⟩
    obtain ⟨v, hv⟩ := Option.isSome_iff_exists.mp hsome
    exact ⟨(k, v), mem_entries.mpr hv, rfl⟩

end OrderedMap
end Orderbooks
