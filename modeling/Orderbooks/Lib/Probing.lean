import Mathlib.Data.Finset.Card
import Mathlib.Data.Fintype.Card
import Mathlib.Data.Finset.Insert
import Mathlib.Logic.Function.Basic
import Mathlib.Tactic.Common

/-!
# Linear probing with backward-shift deletion

A table of `n` slots in a ring. A key is stored at its home slot or, when that
is taken, further along the ring with every slot in between occupied. `Table t m`
says that the slots `t` store the map `m` in this way. `Passed` is the invariant
of a probe, `Gap` the invariant of a deletion that pulls later entries back into
the emptied slot.
-/
namespace Orderbooks.Probing

/-! ## Distances along the ring -/

/-- How far `b` lies after `a` in the direction of probing. -/
def offset (n a b : ℕ) : ℕ := if a ≤ b then b - a else b + n - a

/-- The slot probed after `a`. -/
def next (n a : ℕ) : ℕ := if a + 1 < n then a + 1 else 0

section Ring

variable {n a b c h i j z : ℕ}

theorem next_lt (ha : a < n) : next n a < n := by
  unfold next
  split_ifs <;> omega

@[simp] theorem offset_self (n a : ℕ) : offset n a a = 0 := by simp [offset]

theorem offset_pos (ha : a < n) (hab : a ≠ b) : 0 < offset n a b := by
  unfold offset
  split_ifs <;> omega

theorem offset_lt (ha : a < n) (hb : b < n) : offset n a b < n := by
  unfold offset
  split_ifs <;> omega

theorem offset_inj (ha : a < n) (hb : b < n) (hc : c < n)
    (h : offset n a b = offset n a c) : b = c := by
  unfold offset at h
  split_ifs at h <;> omega

/-- Moving the start one slot on brings every other slot one closer. -/
theorem offset_next_left (ha : a < n) (hz : z < n) (haz : a ≠ z) :
    offset n (next n a) z + 1 = offset n a z := by
  unfold offset next
  split_ifs <;> omega

/-- Moving the end one slot on takes it one further, unless it comes full circle. -/
theorem offset_next_right (hh : h < n) (hj : j < n) (hne : next n j ≠ h) :
    offset n h (next n j) = offset n h j + 1 := by
  unfold next at *
  unfold offset
  split_ifs at * <;> omega

/-- A slot before another one on the way to `z` has not come full circle. -/
theorem next_ne (hh : h < n) (hj : j < n) (hz : z < n) (hlt : offset n h j < offset n h z) :
    next n j ≠ h := by
  unfold next
  unfold offset at hlt
  split_ifs at * <;> omega

/-- Whatever `h` meets before `i` does, `a` meets on its way through `h`. -/
theorem offset_through (ha : a < n) (hh : h < n) (hi : i < n)
    (hhi : offset n a h < offset n a i) (hji : offset n h j < offset n h i) :
    offset n a j < offset n a i := by
  unfold offset at *
  split_ifs at * <;> omega

end Ring

/-! ## Tables -/

variable {K V : Type} {n : ℕ} {home : K → ℕ} {t : ℕ → Option (K × V)}
  {m : K → Option V} {k : K} {v w : V} {h i j z s : ℕ}

/-- The slots `t` store the map `m`. -/
structure Table (n : ℕ) (home : K → ℕ) (t : ℕ → Option (K × V)) (m : K → Option V) : Prop where
  holds : ∀ k v, m k = some v ↔ ∃ i < n, t i = some (k, v)
  inj : ∀ i < n, ∀ j < n, ∀ k v w, t i = some (k, v) → t j = some (k, w) → i = j
  chain : ∀ i < n, ∀ k v, t i = some (k, v) →
    ∀ p < n, offset n (home k) p < offset n (home k) i → t p ≠ none

/-- `m` has `s` keys. -/
def Sized (m : K → Option V) (s : ℕ) : Prop :=
  ∃ S : Finset K, S.card = s ∧ ∀ k, k ∈ S ↔ m k ≠ none

theorem Table.empty : Table n home (fun _ => none) (fun _ => (none : Option V)) where
  holds k v := by simp
  inj i _ j _ k v w hi := by simp at hi
  chain i _ k v hi := by simp at hi

theorem Sized.empty : Sized (fun _ : K => (none : Option V)) 0 :=
  ⟨∅, by simp⟩

theorem Sized.insert [DecidableEq K] (hs : Sized m s) (hk : m k = none) :
    Sized (Function.update m k (some v)) (s + 1) := by
  obtain ⟨S, hcard, hmem⟩ := hs
  have hkS : k ∉ S := by simp [hmem, hk]
  refine ⟨Insert.insert k S, by simp [hkS, hcard], fun q => ?_⟩
  by_cases hq : q = k
  · simp [hq]
  · simp [hq, hmem]

theorem Sized.overwrite [DecidableEq K] (hs : Sized m s) (hk : m k ≠ none) :
    Sized (Function.update m k (some v)) s := by
  obtain ⟨S, hcard, hmem⟩ := hs
  refine ⟨S, hcard, fun q => ?_⟩
  by_cases hq : q = k
  · simp [hq, hmem, hk]
  · simp [hq, hmem]

theorem Sized.erase [DecidableEq K] (hs : Sized m s) (hk : m k ≠ none) :
    Sized (Function.update m k none) (s - 1) := by
  obtain ⟨S, hcard, hmem⟩ := hs
  have hkS : k ∈ S := by simp [hmem, hk]
  refine ⟨S.erase k, by simp [hkS, hcard], fun q => ?_⟩
  by_cases hq : q = k
  · simp [hq]
  · simp [hq, hmem]

/-- A map whose keys are the labels of the members of a list has no more keys
than the list has members. -/
theorem Sized.le_length [DecidableEq K] {A : Type} (hs : Sized m s) (l : List A) (f : A → K)
    (hl : ∀ k, m k ≠ none → ∃ a ∈ l, f a = k) : s ≤ l.length := by
  obtain ⟨S, hcard, hmem⟩ := hs
  have hsub : S ⊆ (l.map f).toFinset := fun k hk => by
    obtain ⟨a, ha, rfl⟩ := hl k ((hmem k).mp hk)
    simp only [List.mem_toFinset, List.mem_map]
    exact ⟨a, ha, rfl⟩
  calc s = S.card := hcard.symm
    _ ≤ (l.map f).toFinset.card := Finset.card_le_card hsub
    _ ≤ (l.map f).length := List.toFinset_card_le _
    _ = l.length := List.length_map f

/-- A table with fewer keys than slots has an empty slot. -/
theorem Table.exists_empty (ht : Table n home t m) (hs : Sized m s) (hlt : s < n) :
    ∃ z < n, t z = none := by
  by_contra hfull
  push Not at hfull
  obtain ⟨S, hcard, hmem⟩ := hs
  choose e he using fun i : Fin n => Option.ne_none_iff_exists'.mp (hfull i i.isLt)
  have hmaps : ∀ i ∈ Finset.univ, (e i).1 ∈ S := fun i _ => by
    rw [hmem, (ht.holds (e i).1 (e i).2).mpr ⟨i, i.isLt, he i⟩]
    simp
  have hinj : Set.InjOn (fun i => (e i).1) (Finset.univ : Finset (Fin n)) := fun i _ j _ hij => by
    refine Fin.ext (ht.inj i i.isLt j j.isLt (e i).1 (e i).2 (e j).2 (he i) ?_)
    simp only at hij
    rw [he j, hij]
  have := Finset.card_le_card_of_injOn _ hmaps hinj
  rw [Finset.card_univ, Fintype.card_fin] at this
  omega

/-! ## Probing for a key -/

/-- A probe for `k` has reached slot `i`: every slot it passed holds another key. -/
structure Passed (n : ℕ) (home : K → ℕ) (t : ℕ → Option (K × V)) (k : K) (i : ℕ) : Prop where
  lt : i < n
  others : ∀ p < n, offset n (home k) p < offset n (home k) i → ∃ e, t p = some e ∧ e.1 ≠ k

theorem Passed.start (hk : home k < n) : Passed n home t k (home k) where
  lt := hk
  others p _ hp := by simp at hp

/-- An empty slot is never passed. -/
theorem Passed.le_empty (hp : Passed n home t k i) (hz : z < n) (htz : t z = none) :
    offset n (home k) i ≤ offset n (home k) z := by
  by_contra hlt
  obtain ⟨e, he, _⟩ := hp.others z hz (by omega)
  simp [htz] at he

theorem Passed.advance (hp : Passed n home t k i) (hk : home k < n) (hz : z < n)
    (htz : t z = none) {e : K × V} (hi : t i = some e) (hne : e.1 ≠ k) :
    Passed n home t k (next n i) ∧ offset n (next n i) z < offset n i z := by
  have hiz : i ≠ z := fun h => by simp [← h, hi] at htz
  have hlt : offset n (home k) i < offset n (home k) z := by
    refine lt_of_le_of_ne (hp.le_empty hz htz) fun h => hiz (offset_inj hk hp.lt hz h)
  refine ⟨⟨next_lt hp.lt, fun p hpn hd => ?_⟩, ?_⟩
  · rw [offset_next_right hk hp.lt (next_ne hk hp.lt hz hlt)] at hd
    by_cases hpi : p = i
    · exact ⟨e, hpi ▸ hi, hne⟩
    · refine hp.others p hpn (lt_of_le_of_ne (by omega) fun h => hpi (offset_inj hk hpn hp.lt h))
  · have := offset_next_left hp.lt hz hiz
    omega

/-- A probe that meets an empty slot has shown that the key is absent. -/
theorem Passed.absent (hp : Passed n home t k i) (ht : Table n home t m) (hk : home k < n)
    (hi : t i = none) : m k = none := by
  by_contra hm
  obtain ⟨v, hv⟩ := Option.ne_none_iff_exists'.mp hm
  obtain ⟨j, hj, htj⟩ := (ht.holds k v).mp hv
  rcases Nat.lt_trichotomy (offset n (home k) j) (offset n (home k) i) with hlt | heq | hgt
  · obtain ⟨e, he, hne⟩ := hp.others j hj hlt
    rw [htj] at he
    simp only [Option.some.injEq] at he
    exact hne (he ▸ rfl)
  · have := offset_inj hk hj hp.lt heq
    rw [this, hi] at htj
    simp at htj
  · exact ht.chain j hj k v htj i hp.lt hgt hi

/-- Storing a key in the empty slot its probe stopped at. -/
theorem Passed.insert [DecidableEq K] (hp : Passed n home t k i) (ht : Table n home t m)
    (hk : home k < n) (hi : t i = none) (v : V) :
    Table n home (Function.update t i (some (k, v))) (Function.update m k (some v)) where
  holds q w := by
    have habs := hp.absent ht hk hi
    by_cases hq : q = k
    · subst hq
      rw [Function.update_self]
      constructor
      · intro h
        exact ⟨i, hp.lt, by simpa using h⟩
      · rintro ⟨j, hj, htj⟩
        by_cases hji : j = i
        · simpa [hji] using htj
        · rw [Function.update_of_ne hji] at htj
          have := (ht.holds q w).mpr ⟨j, hj, htj⟩
          simp [habs] at this
    · rw [Function.update_of_ne hq, ht.holds]
      refine exists_congr fun j => and_congr_right fun _ => ?_
      by_cases hji : j = i
      · simp [hji, hi, Ne.symm hq]
      · rw [Function.update_of_ne hji]
  inj a ha b hb q w w' hta htb := by
    have habs := hp.absent ht hk hi
    have hne : ∀ c < n, ∀ u, t c = some (k, u) → False := fun c hc u hcu => by
      have := (ht.holds k u).mpr ⟨c, hc, hcu⟩
      simp [habs] at this
    by_cases hai : a = i <;> by_cases hbi : b = i
    · rw [hai, hbi]
    · subst hai
      simp only [Function.update_self, Option.some.injEq, Prod.mk.injEq] at hta
      rw [Function.update_of_ne hbi, ← hta.1] at htb
      exact (hne b hb _ htb).elim
    · subst hbi
      simp only [Function.update_self, Option.some.injEq, Prod.mk.injEq] at htb
      rw [Function.update_of_ne hai, ← htb.1] at hta
      exact (hne a ha _ hta).elim
    · rw [Function.update_of_ne hai] at hta
      rw [Function.update_of_ne hbi] at htb
      exact ht.inj a ha b hb q w w' hta htb
  chain a ha q w hta p hpn hd := by
    by_cases hpi : p = i
    · simp [hpi]
    rw [Function.update_of_ne hpi]
    by_cases hai : a = i
    · subst hai
      simp only [Function.update_self, Option.some.injEq, Prod.mk.injEq] at hta
      rw [← hta.1] at hd
      obtain ⟨e, he, _⟩ := hp.others p hpn hd
      simp [he]
    · rw [Function.update_of_ne hai] at hta
      exact ht.chain a ha q w hta p hpn hd

/-- Storing a new value for a key in the slot that already holds it. -/
theorem Table.overwrite [DecidableEq K] (ht : Table n home t m) (hi : i < n)
    (hti : t i = some (k, w)) (v : V) :
    Table n home (Function.update t i (some (k, v))) (Function.update m k (some v)) where
  holds q u := by
    by_cases hq : q = k
    · subst hq
      rw [Function.update_self]
      constructor
      · intro h
        exact ⟨i, hi, by simpa using h⟩
      · rintro ⟨j, hj, htj⟩
        by_cases hji : j = i
        · simpa [hji] using htj
        · rw [Function.update_of_ne hji] at htj
          exact absurd (ht.inj j hj i hi q u w htj hti) hji
    · rw [Function.update_of_ne hq, ht.holds]
      refine exists_congr fun j => and_congr_right fun _ => ?_
      by_cases hji : j = i
      · simp [hji, hti, Ne.symm hq]
      · rw [Function.update_of_ne hji]
  inj a ha b hb q u u' hta htb := by
    have key : ∀ c x y, Function.update t i (some (k, v)) c = some (x, y) →
        ∃ y', t c = some (x, y') := fun c x y h => by
      by_cases hci : c = i
      · simp only [hci, Function.update_self, Option.some.injEq, Prod.mk.injEq] at h
        exact ⟨w, by rw [hci, hti, h.1]⟩
      · exact ⟨y, by rwa [Function.update_of_ne hci] at h⟩
    obtain ⟨_, hta'⟩ := key a q u hta
    obtain ⟨_, htb'⟩ := key b q u' htb
    exact ht.inj a ha b hb q _ _ hta' htb'
  chain a ha q u hta p hpn hd := by
    by_cases hpi : p = i
    · simp [hpi]
    rw [Function.update_of_ne hpi]
    by_cases hai : a = i
    · subst hai
      simp only [Function.update_self, Option.some.injEq, Prod.mk.injEq] at hta
      exact ht.chain a ha k w hti p hpn (hta.1 ▸ hd)
    · rw [Function.update_of_ne hai] at hta
      exact ht.chain a ha q u hta p hpn hd

/-! ## Deletion by backward shift -/

/-- A deletion in progress. Slot `h` is being vacated, whatever it still
contains, and the scan has reached `j`; apart from `h` the slots store `m`, and
only keys at `j` or beyond may have been separated from their home by the gap.
The scan will stop at the empty slot `z` at the latest. -/
structure Gap (n : ℕ) (home : K → ℕ) (t : ℕ → Option (K × V)) (m : K → Option V)
    (h j z : ℕ) : Prop where
  hole : h < n
  scan : j < n
  stop : z < n
  scan_ne : j ≠ h
  stop_ne : z ≠ h
  stop_empty : t z = none
  scan_le : offset n h j ≤ offset n h z
  holds : ∀ k v, m k = some v ↔ ∃ i < n, i ≠ h ∧ t i = some (k, v)
  inj : ∀ a < n, ∀ b < n, a ≠ h → b ≠ h →
    ∀ k v w, t a = some (k, v) → t b = some (k, w) → a = b
  chain : ∀ i < n, i ≠ h → ∀ k v, t i = some (k, v) →
    ∀ p < n, offset n (home k) p < offset n (home k) i →
      if p = h then offset n h j ≤ offset n h i else t p ≠ none

theorem Gap.start [DecidableEq K] (ht : Table n home t m) (hh : h < n) (hth : t h = some (k, v))
    (hz : z < n) (htz : t z = none) :
    Gap n home t (Function.update m k none) h (next n h) z where
  hole := hh
  scan := next_lt hh
  stop := hz
  scan_ne := by
    have hne : z ≠ h := fun h' => by simp [h', hth] at htz
    unfold next
    split_ifs <;> omega
  stop_ne := fun h' => by simp [h', hth] at htz
  stop_empty := htz
  scan_le := by
    have hne : h ≠ z := fun h' => by simp [← h', hth] at htz
    have h1 := offset_pos hh hne
    rw [offset_next_right hh hh (next_ne hh hh hz (by simpa using h1)), offset_self]
    omega
  holds q w := by
    by_cases hq : q = k
    · subst hq
      simp only [Function.update_self, reduceCtorEq, false_iff]
      rintro ⟨i, hi, hne, hti⟩
      exact hne (ht.inj i hi h hh q w v hti hth)
    · rw [Function.update_of_ne hq, ht.holds]
      constructor
      · rintro ⟨i, hi, hti⟩
        refine ⟨i, hi, fun hih => ?_, hti⟩
        rw [hih, hth] at hti
        simp [Ne.symm hq] at hti
      · rintro ⟨i, hi, _, hti⟩
        exact ⟨i, hi, hti⟩
  inj a ha b hb _ _ := ht.inj a ha b hb
  chain i hi hne q w hti p hp hd := by
    split_ifs with hph
    · have hz' : h ≠ z := fun h' => by simp [← h', hth] at htz
      have h1 := offset_pos hh hz'
      have h2 := offset_pos hh (Ne.symm hne)
      rw [offset_next_right hh hh (next_ne hh hh hz (by simpa using h1)), offset_self]
      omega
    · exact ht.chain i hi q w hti p hp hd

variable (g : Gap n home t m h j z)
include g

/-- The scan stops at an empty slot, and emptying the hole completes the deletion. -/
theorem Gap.finish (hhome : ∀ k, home k < n) (hj : t j = none) :
    Table n home (Function.update t h none) m where
  holds q w := by
    rw [g.holds]
    refine exists_congr fun i => and_congr_right fun _ => ?_
    by_cases hih : i = h
    · simp [hih]
    · simp [hih]
  inj a ha b hb q u w hta htb := by
    have hah : a ≠ h := fun h' => by simp [h'] at hta
    have hbh : b ≠ h := fun h' => by simp [h'] at htb
    rw [Function.update_of_ne hah] at hta
    rw [Function.update_of_ne hbh] at htb
    exact g.inj a ha b hb hah hbh q u w hta htb
  chain i hi q w hti p hp hd := by
    have hih : i ≠ h := fun h' => by simp [h'] at hti
    rw [Function.update_of_ne hih] at hti
    have hc := g.chain i hi hih q w hti
    have hph : p ≠ h := by
      -- a chain through the hole would also run through the empty slot `j`
      rintro rfl
      have hle := hc p hp hd
      rw [if_pos rfl] at hle
      have hij : j ≠ i := fun h' => by simp [← h', hj] at hti
      have hlt : offset n p j < offset n p i :=
        lt_of_le_of_ne hle fun h' => hij (offset_inj g.hole g.scan hi h')
      have := hc j g.scan (offset_through (hhome q) g.hole hi hd hlt)
      rw [if_neg g.scan_ne] at this
      exact this hj
    have := hc p hp hd
    rw [if_neg hph] at this
    rwa [Function.update_of_ne hph]

theorem Gap.scan_lt (hj : t j ≠ none) : offset n h j < offset n h z :=
  lt_of_le_of_ne g.scan_le fun h' => hj (offset_inj g.hole g.scan g.stop h' ▸ g.stop_empty)

theorem Gap.closer (hj : t j ≠ none) : offset n (next n j) z < offset n j z := by
  have hjz : j ≠ z := fun h' => hj (h' ▸ g.stop_empty)
  have := offset_next_left g.scan g.stop hjz
  omega

/-- An entry whose home lies after the hole stays where it is. -/
theorem Gap.skip (hj : t j = some (k, v)) (hd : ¬ offset n (home k) h < offset n (home k) j) :
    Gap n home t m h (next n j) z where
  hole := g.hole
  scan := next_lt g.scan
  stop := g.stop
  scan_ne := next_ne g.hole g.scan g.stop (g.scan_lt (by simp [hj]))
  stop_ne := g.stop_ne
  stop_empty := g.stop_empty
  scan_le := by
    have hlt := g.scan_lt (by simp [hj])
    rw [offset_next_right g.hole g.scan (next_ne g.hole g.scan g.stop hlt)]
    exact hlt
  holds := g.holds
  inj := g.inj
  chain i hi hih q w hti p hp hpd := by
    have hc := g.chain i hi hih q w hti p hp hpd
    have hlt := g.scan_lt (by simp [hj])
    split_ifs at hc ⊢ with hph
    · rw [offset_next_right g.hole g.scan (next_ne g.hole g.scan g.stop hlt)]
      refine lt_of_le_of_ne hc fun h' => ?_
      have hij := offset_inj g.hole g.scan hi h'
      rw [← hij, hj] at hti
      simp only [Option.some.injEq, Prod.mk.injEq] at hti
      rw [← hti.1, ← hij, hph] at hpd
      exact hd hpd
    · exact hc

/-- An entry whose home lies at or before the hole moves into it and leaves the
hole where it was. -/
theorem Gap.move (hj : t j = some (k, v)) (hd : offset n (home k) h < offset n (home k) j) :
    Gap n home (Function.update t h (t j)) m j (next n j) z where
  hole := g.scan
  scan := next_lt g.scan
  stop := g.stop
  scan_ne := by
    have := g.scan_ne
    have := g.hole
    have := g.scan
    unfold next
    split_ifs <;> omega
  stop_ne := fun h' => by simp [← h', g.stop_empty] at hj
  stop_empty := by rw [Function.update_of_ne g.stop_ne, g.stop_empty]
  scan_le := by
    have hjz : j ≠ z := fun h' => by simp [h', g.stop_empty] at hj
    have h1 := offset_pos g.scan hjz
    rw [offset_next_right g.scan g.scan (next_ne g.scan g.scan g.stop (by simpa using h1)),
      offset_self]
    omega
  holds q w := by
    rw [g.holds]
    constructor
    · rintro ⟨i, hi, hih, hti⟩
      by_cases hij : i = j
      · exact ⟨h, g.hole, Ne.symm g.scan_ne, by simpa [hij] using hti⟩
      · exact ⟨i, hi, hij, by rwa [Function.update_of_ne hih]⟩
    · rintro ⟨i, hi, hij, hti⟩
      by_cases hih : i = h
      · exact ⟨j, g.scan, g.scan_ne, by simpa [hih] using hti⟩
      · exact ⟨i, hi, hih, by rwa [Function.update_of_ne hih] at hti⟩
  inj a ha b hb haj hbj q u w hta htb := by
    by_cases hah : a = h <;> by_cases hbh : b = h
    · rw [hah, hbh]
    · rw [hah, Function.update_self] at hta
      rw [Function.update_of_ne hbh] at htb
      exact absurd (g.inj j g.scan b hb g.scan_ne hbh q u w hta htb).symm hbj
    · rw [Function.update_of_ne hah] at hta
      rw [hbh, Function.update_self] at htb
      exact absurd (g.inj a ha j g.scan hah g.scan_ne q u w hta htb) haj
    · rw [Function.update_of_ne hah] at hta
      rw [Function.update_of_ne hbh] at htb
      exact g.inj a ha b hb hah hbh q u w hta htb
  chain i hi hij q w hti p hp hpd := by
    split_ifs with hpj
    · have hjz : j ≠ z := fun h' => by simp [h', g.stop_empty] at hj
      have h1 := offset_pos g.scan hjz
      have h2 := offset_pos g.scan (Ne.symm hij)
      rw [offset_next_right g.scan g.scan (next_ne g.scan g.scan g.stop (by simpa using h1)),
        offset_self]
      omega
    · by_cases hph : p = h
      · simp [hph, hj]
      rw [Function.update_of_ne hph]
      by_cases hih : i = h
      · rw [hih, Function.update_self, hj] at hti
        simp only [Option.some.injEq, Prod.mk.injEq] at hti
        rw [hih, ← hti.1] at hpd
        have hc := g.chain j g.scan g.scan_ne k v hj p hp (lt_trans hpd hd)
        rwa [if_neg hph] at hc
      · rw [Function.update_of_ne hih] at hti
        have hc := g.chain i hi hih q w hti p hp hpd
        rwa [if_neg hph] at hc

end Orderbooks.Probing
