import Mathlib.Order.Bounds.Basic
import Mathlib.Data.Nat.Bitwise
import Mathlib.Tactic.Ring

/-!
# Sets of naturals stored in machine words, and tiers that summarise them

A function from word positions to words of `n` bits stores a set of naturals.
A second such function *summarises* the first when its elements are exactly the
positions of the first one's nonzero words. The lemmas say how one update of a
word changes the set, where the extreme element of a nonzero word lies, and how
a search that leaves a word continues in the summary and comes back down.
-/
namespace Orderbooks.WordTiers

variable {n : ℕ} {w up lo : ℕ → BitVec n} {i j k start : ℕ}

def bit (w : ℕ → BitVec n) (i : ℕ) : Bool := (w (i / n)).getLsbD (i % n)

/-- The set the words store. -/
def bits (w : ℕ → BitVec n) : Set ℕ := {i | bit w i = true}

/-- The elements of `up` are the positions of the nonzero words of `lo`. -/
def Summarises (up lo : ℕ → BitVec n) : Prop := ∀ j, bit up j = true ↔ lo j ≠ 0#n

theorem mem_bits : i ∈ bits w ↔ bit w i = true := Iff.rfl

theorem eq_of_div_mod (h : i / n = j / n) (h' : i % n = j % n) : i = j := by
  rw [← Nat.div_add_mod i n, ← Nat.div_add_mod j n, h, h']

theorem bit_mul_add (hk : k < n) : bit w (j * n + k) = (w j).getLsbD k := by
  have hn : 0 < n := by omega
  unfold bit
  rw [Nat.mul_comm, Nat.mul_add_div hn, Nat.div_eq_of_lt hk, Nat.mul_add_mod,
    Nat.mod_eq_of_lt hk, Nat.add_zero]

theorem getLsbD_mask (hn : 0 < n) (b : ℕ) (hk : k < n) :
    (1#n <<< (b % n)).getLsbD k = decide (k = b % n) := by
  have hb := Nat.mod_lt b hn
  simp only [BitVec.getLsbD_shiftLeft, BitVec.getLsbD_one]
  by_cases h : k = b % n
  · subst h
    simp [hb, hn]
  · by_cases hlt : k < b % n
    · simp [hlt, h]
    · have hne : k - b % n ≠ 0 := by omega
      simp [h, hne]

theorem bit_set (hn : 0 < n) (b : ℕ) :
    bit (Function.update w (b / n) (w (b / n) ||| 1#n <<< (b % n))) i =
      (bit w i || decide (i = b)) := by
  unfold bit
  by_cases hw : i / n = b / n
  · rw [hw, Function.update_self, BitVec.getLsbD_or, getLsbD_mask hn b (Nat.mod_lt i hn)]
    have : i % n = b % n ↔ i = b := ⟨eq_of_div_mod hw, fun h => h ▸ rfl⟩
    simp only [this]
  · have : i ≠ b := fun h => hw (h ▸ rfl)
    simp [Function.update_of_ne hw, this]

theorem bit_clear (hn : 0 < n) (b : ℕ) :
    bit (Function.update w (b / n) (w (b / n) &&& ~~~(1#n <<< (b % n)))) i =
      (bit w i && !decide (i = b)) := by
  unfold bit
  by_cases hw : i / n = b / n
  · rw [hw, Function.update_self, BitVec.getLsbD_and, BitVec.getLsbD_not,
      getLsbD_mask hn b (Nat.mod_lt i hn)]
    have : i % n = b % n ↔ i = b := ⟨eq_of_div_mod hw, fun h => h ▸ rfl⟩
    simp [this, Nat.mod_lt i hn]
  · have : i ≠ b := fun h => hw (h ▸ rfl)
    simp [Function.update_of_ne hw, this]

theorem word_ne_zero_iff (hn : 0 < n) : w j ≠ 0#n ↔ ∃ i ∈ bits w, i / n = j := by
  constructor
  · intro h
    by_contra hne
    push Not at hne
    apply h
    apply BitVec.eq_of_getLsbD_eq
    intro k hk
    have hj : (j * n + k) / n = j := by
      rw [Nat.mul_comm, Nat.mul_add_div hn, Nat.div_eq_of_lt hk, Nat.add_zero]
    have hbit : ¬ bit w (j * n + k) = true := fun hb => hne _ hb hj
    rw [bit_mul_add hk] at hbit
    simpa using hbit
  · rintro ⟨i, hi, rfl⟩ h
    have hb : bit w i = true := hi
    simp [bit, h] at hb

theorem Summarises.mem_iff (hn : 0 < n) (h : Summarises up lo) :
    j ∈ bits up ↔ ∃ i ∈ bits lo, i / n = j := by
  rw [mem_bits, h j, word_ne_zero_iff hn]

theorem Summarises.div_mem (hn : 0 < n) (h : Summarises up lo) (hi : i ∈ bits lo) :
    i / n ∈ bits up := (h.mem_iff hn).mpr ⟨i, hi, rfl⟩

/-! ## Summaries under one-bit updates -/

theorem Summarises.set (hn : 0 < n) (h : Summarises up lo) (b : ℕ) :
    Summarises
      (Function.update up (b / n / n) (up (b / n / n) ||| 1#n <<< (b / n % n)))
      (Function.update lo (b / n) (lo (b / n) ||| 1#n <<< (b % n))) := by
  intro j
  rw [bit_set hn, word_ne_zero_iff hn]
  simp only [mem_bits, bit_set hn, Bool.or_eq_true, decide_eq_true_eq]
  constructor
  · rintro (hj | rfl)
    · obtain ⟨i, hi, rfl⟩ := (h.mem_iff hn).mp hj
      exact ⟨i, Or.inl hi, rfl⟩
    · exact ⟨b, Or.inr rfl, rfl⟩
  · rintro ⟨i, hi | rfl, rfl⟩
    · exact Or.inl (h.div_mem hn hi)
    · exact Or.inr rfl

/-- Remove `b` from the set when the flag says so. -/
def drop (w : ℕ → BitVec n) (b : ℕ) (e : Bool) : ℕ → BitVec n :=
  if e then Function.update w (b / n) (w (b / n) &&& ~~~(1#n <<< (b % n))) else w

theorem bits_drop (hn : 0 < n) (b : ℕ) : bits (drop w b true) = bits w \ {b} := by
  ext i
  simp only [drop, if_true, mem_bits, bit_clear hn, Set.mem_sdiff, Set.mem_singleton_iff]
  simp

/-- A removal below is followed above exactly when it emptied a word, and a
flag carries that news from tier to tier. -/
theorem Summarises.drop (hn : 0 < n) (h : Summarises up lo) (b : ℕ) (e : Bool) :
    Summarises (drop up (b / n) (decide (WordTiers.drop lo b e (b / n) = 0#n) && e))
      (WordTiers.drop lo b e) := by
  cases e with
  | false => simpa [WordTiers.drop] using h
  | true =>
      intro j
      by_cases hz : lo (b / n) &&& ~~~(1#n <<< (b % n)) = 0#n
      · by_cases hj : j = b / n
        · subst hj
          simp [WordTiers.drop, hz, bit_clear hn]
        · simp [WordTiers.drop, hz, bit_clear hn, hj, h j]
      · by_cases hj : j = b / n
        · subst hj
          have hne : lo (b / n) ≠ 0#n := fun hzero => hz (by rw [hzero, BitVec.zero_and])
          simp [WordTiers.drop, hz, h (b / n), hne]
        · simp [WordTiers.drop, hz, hj, h j]

/-! ## The extreme element of a word -/

theorem isLeast_ctz {v : BitVec n} (hv : v ≠ 0#n) :
    IsLeast {k | v.getLsbD k = true} v.ctz.toNat := by
  refine ⟨BitVec.getLsbD_true_ctz_of_ne_zero hv, ?_⟩
  intro k hk
  by_contra hlt
  have := BitVec.getLsbD_false_of_lt_ctz (x := v) (i := k) (by omega)
  rw [Set.mem_ofPred_eq, this] at hk
  exact absurd hk (by decide)

theorem isGreatest_clz {v : BitVec n} (hv : v ≠ 0#n) :
    IsGreatest {k | v.getLsbD k = true} (n - 1 - v.clz.toNat) := by
  have hn : 0 < n := by
    rcases Nat.eq_zero_or_pos n with rfl | h
    · exact absurd (BitVec.of_length_zero) hv
    · exact h
  refine ⟨BitVec.getLsbD_true_clz_of_ne_zero hn hv, ?_⟩
  intro k hk
  have hlt : v.toNat < 2 ^ (n - v.clz.toNat) := BitVec.toNat_lt_two_pow_sub_clz
  have hge : 2 ^ k ≤ v.toNat := Nat.ge_two_pow_of_testBit hk
  have := (Nat.pow_lt_pow_iff_right (by decide : 1 < 2)).mp (hge.trans_lt hlt)
  omega

theorem lt_of_getLsbD {v : BitVec n} (h : v.getLsbD k = true) : k < n :=
  BitVec.lt_of_getLsbD h

/-- A summary's least element names the word that holds the least element. -/
theorem Summarises.isLeast (hn : 0 < n) (h : Summarises up lo)
    (hj : IsLeast {j | j ∈ bits up ∧ start ≤ j} j) :
    IsLeast {i | i ∈ bits lo ∧ start * n ≤ i} (j * n + (lo j).ctz.toNat) := by
  obtain ⟨⟨hjm, hjs⟩, hmin⟩ := hj
  obtain ⟨hc, hcmin⟩ := isLeast_ctz ((h j).mp hjm)
  have hclt := lt_of_getLsbD hc
  refine ⟨⟨?_, ?_⟩, ?_⟩
  · rw [mem_bits, bit_mul_add hclt]
    exact hc
  · have := Nat.mul_le_mul_right n hjs
    omega
  · rintro i ⟨hi, his⟩
    have hdiv : start ≤ i / n := (Nat.le_div_iff_mul_le hn).mpr his
    have hle : j ≤ i / n := hmin ⟨h.div_mem hn hi, hdiv⟩
    have hi' := Nat.div_add_mod i n
    rcases Nat.eq_or_lt_of_le hle with heq | hlt
    · have hk : (lo j).getLsbD (i % n) = true := by
        have hb : bit lo i = true := hi
        rwa [bit, ← heq] at hb
      have := hcmin hk
      rw [← heq, Nat.mul_comm] at hi'
      omega
    · have := Nat.mul_le_mul_right n hlt
      rw [Nat.succ_mul] at this
      rw [Nat.mul_comm] at hi'
      omega

/-- The mirror of `Summarises.isLeast`, for the greatest element below a bound. -/
theorem Summarises.isGreatest (hn : 0 < n) (h : Summarises up lo)
    (hj : IsGreatest {j | j ∈ bits up ∧ j < start} j) :
    IsGreatest {i | i ∈ bits lo ∧ i < start * n}
      (j * n + (n - 1 - (lo j).clz.toNat)) := by
  obtain ⟨⟨hjm, hjs⟩, hmax⟩ := hj
  obtain ⟨hc, hcmax⟩ := isGreatest_clz ((h j).mp hjm)
  have hclt := lt_of_getLsbD hc
  refine ⟨⟨?_, ?_⟩, ?_⟩
  · rw [mem_bits, bit_mul_add hclt]
    exact hc
  · have := Nat.mul_le_mul_right n hjs
    rw [Nat.succ_mul] at this
    omega
  · rintro i ⟨hi, his⟩
    have hdiv : i / n < start := (Nat.div_lt_iff_lt_mul hn).mpr his
    have hle : i / n ≤ j := hmax ⟨h.div_mem hn hi, hdiv⟩
    have hi' := Nat.div_add_mod i n
    have hmod := Nat.mod_lt i hn
    rcases Nat.eq_or_lt_of_le hle with heq | hlt
    · have hk : (lo j).getLsbD (i % n) = true := by
        have hb : bit lo i = true := hi
        rwa [bit, heq] at hb
      have := hcmax hk
      rw [heq, Nat.mul_comm] at hi'
      omega
    · have := Nat.mul_le_mul_right n hlt
      rw [Nat.succ_mul] at this
      rw [Nat.mul_comm] at hi'
      omega

theorem Summarises.isLeast_bits (hn : 0 < n) (h : Summarises up lo)
    (hj : IsLeast (bits up) j) : IsLeast (bits lo) (j * n + (lo j).ctz.toNat) := by
  have h0 : IsLeast {i | i ∈ bits up ∧ 0 ≤ i} j :=
    ⟨⟨hj.1, Nat.zero_le j⟩, fun i hi => hj.2 hi.1⟩
  obtain ⟨hm, hmin⟩ := h.isLeast hn h0
  exact ⟨hm.1, fun i hi => hmin ⟨hi, by omega⟩⟩

theorem Summarises.isGreatest_bits (hn : 0 < n) (h : Summarises up lo)
    (hj : IsGreatest (bits up) j) :
    IsGreatest (bits lo) (j * n + (n - 1 - (lo j).clz.toNat)) := by
  have hlast : IsGreatest {i | i ∈ bits up ∧ i < j + 1} j :=
    ⟨⟨hj.1, Nat.lt_succ_self j⟩, fun i hi => hj.2 hi.1⟩
  obtain ⟨hm, hmax⟩ := h.isGreatest hn hlast
  refine ⟨hm.1, fun i hi => hmax ⟨hi, ?_⟩⟩
  exact (Nat.div_lt_iff_lt_mul hn).mp (Nat.lt_succ_of_le (hj.2 (h.div_mem hn hi)))

/-- A nonzero first word holds the least element. -/
theorem isLeast_first (hne : w 0 ≠ 0#n) :
    IsLeast (bits w) (w 0).ctz.toNat := by
  obtain ⟨hc, hcmin⟩ := isLeast_ctz hne
  have hclt := lt_of_getLsbD hc
  refine ⟨?_, fun i hi => ?_⟩
  · simpa [mem_bits, bit, Nat.div_eq_of_lt hclt, Nat.mod_eq_of_lt hclt] using hc
  · by_cases hlt : i < n
    · have hb : bit w i = true := hi
      rw [bit, Nat.div_eq_of_lt hlt, Nat.mod_eq_of_lt hlt] at hb
      exact hcmin hb
    · omega

/-- When there is only the first word, it holds the greatest element. -/
theorem isGreatest_first (hne : w 0 ≠ 0#n) (hw : ∀ i ∈ bits w, i < n) :
    IsGreatest (bits w) (n - 1 - (w 0).clz.toNat) := by
  obtain ⟨hc, hcmax⟩ := isGreatest_clz hne
  have hclt := lt_of_getLsbD hc
  refine ⟨?_, fun i hi => ?_⟩
  · simpa [mem_bits, bit, Nat.div_eq_of_lt hclt, Nat.mod_eq_of_lt hclt] using hc
  · have hb : bit w i = true := hi
    rw [bit, Nat.div_eq_of_lt (hw i hi), Nat.mod_eq_of_lt (hw i hi)] at hb
    exact hcmax hb

/-- When there is only the first word, the set is empty if that word is zero. -/
theorem bits_eq_empty (hz : w 0 = 0#n) (hw : ∀ i ∈ bits w, i < n) : bits w = ∅ := by
  ext i
  refine ⟨fun hi => ?_, fun hi => absurd hi (Set.notMem_empty i)⟩
  have hb : bit w i = true := hi
  rw [bit, Nat.div_eq_of_lt (hw i hi), hz] at hb
  simp at hb

theorem Summarises.bits_eq_empty (hn : 0 < n) (h : Summarises up lo) (he : bits up = ∅) :
    bits lo = ∅ := by
  ext i
  refine ⟨fun hi => ?_, fun hi => absurd hi (Set.notMem_empty i)⟩
  have := h.div_mem hn hi
  rwa [he] at this

/-! ## Searching from a position inside a word -/

/-- `v` is word `j` cut down to the positions from `start % n` upwards. -/
theorem isLeast_of_word (hn : 0 < n) {v : BitVec n}
    (hv : ∀ k < n, v.getLsbD k = ((w (start / n)).getLsbD k && decide (start % n ≤ k)))
    (hne : v ≠ 0#n) :
    IsLeast {i | i ∈ bits w ∧ start ≤ i} (start / n * n + v.ctz.toNat) := by
  obtain ⟨hc, hcmin⟩ := isLeast_ctz hne
  have hclt := lt_of_getLsbD hc
  have hs := Nat.div_add_mod start n
  rw [Nat.mul_comm] at hs
  have hc' := hv _ hclt
  rw [Set.mem_ofPred_eq.mp hc, eq_comm, Bool.and_eq_true, decide_eq_true_eq] at hc'
  refine ⟨⟨?_, by omega⟩, ?_⟩
  · rw [mem_bits, bit_mul_add hclt]
    exact hc'.1
  · rintro i ⟨hi, his⟩
    have hi' := Nat.div_add_mod i n
    rw [Nat.mul_comm] at hi'
    have hle : start / n ≤ i / n := Nat.div_le_div_right his
    rcases Nat.eq_or_lt_of_le hle with heq | hlt
    · have hmod : start % n ≤ i % n := by
        rw [← heq] at hi'
        omega
      have hb : bit w i = true := hi
      have hk : v.getLsbD (i % n) = true := by
        rw [hv _ (Nat.mod_lt i hn), heq]
        simpa [hmod, bit] using hb
      have := hcmin hk
      rw [← heq] at hi'
      omega
    · have := Nat.mul_le_mul_right n hlt
      rw [Nat.succ_mul] at this
      omega

theorem le_div_of_word_zero (hn : 0 < n) {v : BitVec n}
    (hv : ∀ k < n, v.getLsbD k = ((w (start / n)).getLsbD k && decide (start % n ≤ k)))
    (hz : v = 0#n) (hi : i ∈ bits w) (his : start ≤ i) : start / n + 1 ≤ i / n := by
  have hle : start / n ≤ i / n := Nat.div_le_div_right his
  rcases Nat.eq_or_lt_of_le hle with heq | hlt
  · have hi' := Nat.div_add_mod i n
    have hs := Nat.div_add_mod start n
    have hmod : start % n ≤ i % n := by
      rw [← heq] at hi'
      omega
    have hb : bit w i = true := hi
    have hk := hv _ (Nat.mod_lt i hn)
    rw [hz, heq] at hk
    simp only [BitVec.getLsbD_zero, hmod, decide_true, Bool.and_true] at hk
    rw [bit, ← hk] at hb
    exact absurd hb (by decide)
  · exact hlt

/-- `v` is word `j` cut down to the positions up to `start % n`. -/
theorem isGreatest_of_word (hn : 0 < n) {v : BitVec n}
    (hv : ∀ k < n, v.getLsbD k = ((w (start / n)).getLsbD k && decide (k ≤ start % n)))
    (hne : v ≠ 0#n) :
    IsGreatest {i | i ∈ bits w ∧ i ≤ start} (start / n * n + (n - 1 - v.clz.toNat)) := by
  obtain ⟨hc, hcmax⟩ := isGreatest_clz hne
  have hclt := lt_of_getLsbD hc
  have hs := Nat.div_add_mod start n
  rw [Nat.mul_comm] at hs
  have hc' := hv _ hclt
  rw [Set.mem_ofPred_eq.mp hc, eq_comm, Bool.and_eq_true, decide_eq_true_eq] at hc'
  refine ⟨⟨?_, by omega⟩, ?_⟩
  · rw [mem_bits, bit_mul_add hclt]
    exact hc'.1
  · rintro i ⟨hi, his⟩
    have hi' := Nat.div_add_mod i n
    have hmodlt := Nat.mod_lt i hn
    rw [Nat.mul_comm] at hi'
    have hle : i / n ≤ start / n := Nat.div_le_div_right his
    rcases Nat.eq_or_lt_of_le hle with heq | hlt
    · have hmod : i % n ≤ start % n := by
        rw [heq] at hi'
        omega
      have hb : bit w i = true := hi
      have hk : v.getLsbD (i % n) = true := by
        rw [hv _ hmodlt, ← heq]
        simpa [hmod, bit] using hb
      have := hcmax hk
      rw [heq] at hi'
      omega
    · have := Nat.mul_le_mul_right n hlt
      rw [Nat.succ_mul] at this
      omega

theorem div_lt_of_word_zero (hn : 0 < n) {v : BitVec n}
    (hv : ∀ k < n, v.getLsbD k = ((w (start / n)).getLsbD k && decide (k ≤ start % n)))
    (hz : v = 0#n) (hi : i ∈ bits w) (his : i ≤ start) : i / n < start / n := by
  have hle : i / n ≤ start / n := Nat.div_le_div_right his
  rcases Nat.eq_or_lt_of_le hle with heq | hlt
  · have hi' := Nat.div_add_mod i n
    have hs := Nat.div_add_mod start n
    have hmod : i % n ≤ start % n := by
      rw [heq] at hi'
      omega
    have hb : bit w i = true := hi
    have hk := hv _ (Nat.mod_lt i hn)
    rw [hz, ← heq] at hk
    simp only [BitVec.getLsbD_zero, hmod, decide_true, Bool.and_true] at hk
    rw [bit, ← hk] at hb
    exact absurd hb (by decide)
  · exact hlt

/-! ## Searches that climb into the summary -/

/-- The outcome of looking for the least element of `S` from `start` upwards. -/
def IsNext (S : Set ℕ) (start : ℕ) : Option ℕ → Prop
  | none => ∀ i ∈ S, i < start
  | some x => IsLeast {i | i ∈ S ∧ start ≤ i} x

/-- The outcome of looking for the greatest element of `S` from `start` downwards. -/
def IsPrev (S : Set ℕ) (start : ℕ) : Option ℕ → Prop
  | none => ∀ i ∈ S, start < i
  | some x => IsGreatest {i | i ∈ S ∧ i ≤ start} x

theorem Summarises.isNext (hn : 0 < n) (h : Summarises up lo) {v : BitVec n} {r : Option ℕ}
    (hv : ∀ k < n, v.getLsbD k = ((lo (start / n)).getLsbD k && decide (start % n ≤ k)))
    (hz : v = 0#n) (hr : IsNext (bits up) (start / n + 1) r) :
    IsNext (bits lo) start (r.map fun j => j * n + (lo j).ctz.toNat) := by
  -- below the next word boundary there is nothing from `start` on
  have hcut : ∀ i ∈ bits lo, start ≤ i → (start / n + 1) * n ≤ i := fun i hi his =>
    (Nat.le_div_iff_mul_le hn).mp (le_div_of_word_zero hn hv hz hi his)
  have hstart : start < (start / n + 1) * n := by
    rw [Nat.succ_mul, Nat.mul_comm]
    exact Nat.lt_div_mul_add hn |>.trans_eq (by rw [Nat.mul_comm])
  cases r with
  | none =>
      intro i hi
      by_contra hlt
      have := le_div_of_word_zero hn hv hz hi (by omega)
      have := hr _ (h.div_mem hn hi)
      omega
  | some j =>
      obtain ⟨⟨hm, hs⟩, hmin⟩ := h.isLeast hn hr
      exact ⟨⟨hm, hstart.le.trans hs⟩, fun i hi => hmin ⟨hi.1, hcut i hi.1 hi.2⟩⟩

theorem Summarises.isPrev (hn : 0 < n) (h : Summarises up lo) {v : BitVec n} {r : Option ℕ}
    (hv : ∀ k < n, v.getLsbD k = ((lo (start / n)).getLsbD k && decide (k ≤ start % n)))
    (hz : v = 0#n) (hpos : 0 < start / n) (hr : IsPrev (bits up) (start / n - 1) r) :
    IsPrev (bits lo) start (r.map fun j => j * n + (n - 1 - (lo j).clz.toNat)) := by
  have hcut : ∀ i ∈ bits lo, i ≤ start → i < start / n * n := fun i hi his =>
    (Nat.div_lt_iff_lt_mul hn).mp (div_lt_of_word_zero hn hv hz hi his)
  have hstart : start / n * n ≤ start := Nat.div_mul_le_self start n
  cases r with
  | none =>
      intro i hi
      by_contra hlt
      have := div_lt_of_word_zero hn hv hz hi (by omega)
      have := hr _ (h.div_mem hn hi)
      omega
  | some j =>
      have hj : IsGreatest {j | j ∈ bits up ∧ j < start / n} j :=
        ⟨⟨hr.1.1, by have := hr.1.2; omega⟩, fun i hi => hr.2 ⟨hi.1, by have := hi.2; omega⟩⟩
      obtain ⟨⟨hm, hs⟩, hmax⟩ := h.isGreatest hn hj
      exact ⟨⟨hm, (hs.trans_le hstart).le⟩, fun i hi => hmax ⟨hi.1, hcut i hi.1 hi.2⟩⟩

/-- With no word below the one searched, an empty cut means there is nothing. -/
theorem isPrev_none (hn : 0 < n) {v : BitVec n}
    (hv : ∀ k < n, v.getLsbD k = ((w (start / n)).getLsbD k && decide (k ≤ start % n)))
    (hz : v = 0#n) (hpos : start / n = 0) : IsPrev (bits w) start none := by
  intro i hi
  by_contra hlt
  have := div_lt_of_word_zero hn hv hz hi (by omega)
  exact Nat.not_lt_zero _ (hpos ▸ this)

/-- With no element above the word searched, an empty cut means there is nothing. -/
theorem isNext_none (hn : 0 < n) {v : BitVec n}
    (hv : ∀ k < n, v.getLsbD k = ((w (start / n)).getLsbD k && decide (start % n ≤ k)))
    (hz : v = 0#n) (hlast : ∀ i ∈ bits w, i / n ≤ start / n) :
    IsNext (bits w) start none := by
  intro i hi
  by_contra hlt
  have := le_div_of_word_zero hn hv hz hi (by omega)
  have := hlast i hi
  omega

end Orderbooks.WordTiers
