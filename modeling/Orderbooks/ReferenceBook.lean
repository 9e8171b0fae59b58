import Orderbooks.Invariants
import Orderbooks.ReferenceEngine

/-!
# How the reference engine stores queues

`Stores r d` relates the maps and lists of the reference engine to the queues
they stand for, as `Book.Stores` does for the ladder, bitmap, arena and hash
table of the engine. `tag` names the order a list node currently holds, and `pop`
the prices a map has an entry for, an empty one included.
-/
namespace Orderbooks
namespace ReferenceEngine

variable {ticks : ℕ} {r r' : ReferenceEngine} {d : Queues ticks} {tag : ℕ → ℕ}
  {pop Q : Side → Set ℕ} {s t : Side} {p q x y u : ℕ}

/-! ## Reading a FIFO after a change -/

theorem fifo_congr (h : r'.books = r.books) : r'.fifo = r.fifo := by
  unfold fifo
  rw [h]

theorem setBook_books (b : OrderedMap ℕ (List ℕ) s.better) :
    (r.setBook s b).books = Function.update r.books s b := rfl

theorem onFifo_find? (f : List ℕ → List ℕ) (t : Side) (q : ℕ) :
    ((r.onFifo s p f).books t).find? q =
      if t = s ∧ q = p then some (f (r.fifo s p)) else (r.books t).find? q := by
  unfold onFifo
  rw [setBook_books]
  by_cases ht : t = s
  · subst ht
    rw [Function.update_self, OrderedMap.find?_upsert]
    by_cases hq : q = p
    · simp [hq, fifo]
    · simp [hq]
  · rw [Function.update_of_ne ht, if_neg fun h => ht h.1]

theorem onFifo_fifo (f : List ℕ → List ℕ) (t : Side) (q : ℕ) :
    (r.onFifo s p f).fifo t q = if t = s ∧ q = p then f (r.fifo s p) else r.fifo t q := by
  unfold fifo
  rw [onFifo_find?]
  split_ifs <;> rfl

theorem dropIfEmpty_find? (t : Side) (q : ℕ) :
    ((r.dropIfEmpty s p).books t).find? q =
      if t = s ∧ q = p ∧ r.fifo s p = [] then none else (r.books t).find? q := by
  unfold dropIfEmpty
  by_cases hnil : r.fifo s p = []
  · rw [if_pos hnil, setBook_books]
    by_cases ht : t = s
    · subst ht
      rw [Function.update_self, OrderedMap.find?_erase]
      simp [hnil]
    · rw [Function.update_of_ne ht, if_neg fun h => ht h.1]
  · rw [if_neg hnil, if_neg fun h => hnil h.2.2]

theorem dropIfEmpty_fifo (t : Side) (q : ℕ) : (r.dropIfEmpty s p).fifo t q = r.fifo t q := by
  unfold fifo
  rw [dropIfEmpty_find?]
  split_ifs with h
  · obtain ⟨rfl, rfl, hnil⟩ := h
    exact hnil.symm
  · rfl

/-! ## The relation -/

/-- A node that some FIFO lists. -/
def Held (r : ReferenceEngine) (x : ℕ) : Prop := ∃ s p, x ∈ r.fifo s p

structure Stores (r : ReferenceEngine) (d : Queues ticks) (tag : ℕ → ℕ) (pop : Side → Set ℕ) :
    Prop where
  level : ∀ s p, d.levels s p = (r.fifo s p).map tag
  listed : ∀ s p, ((r.books s).find? p).isSome ↔ p ∈ pop s
  node : ∀ x, r.Held x → r.nodes x = d.orders (tag x)
  inj : ∀ x y, r.Held x → r.Held y → tag x = tag y → x = y
  old : ∀ x, r.Held x → x < r.nextNode
  index : ∀ k, d.index k = (r.idx.lookup k).map tag
  named : ∀ k x, r.idx.lookup k = some x → r.Held x
  sized : r.idx.keys.length = d.live
  exact : d.Exact

theorem Held.of_fifo_eq (h : ∀ s p, r'.fifo s p = r.fifo s p) : r'.Held x ↔ r.Held x := by
  unfold Held
  simp only [h]

namespace Stores

theorem empty (cfg : EngineConfig) (maxOrders : ℕ) (tag : ℕ → ℕ) :
    Stores { cfg := cfg, maxOrders := maxOrders } ({} : Queues ticks) tag fun _ => ∅ where
  level s p := rfl
  listed s p := by simp [OrderedMap.find?_empty]
  node x := by rintro ⟨s, p, hx⟩; simp [fifo, OrderedMap.find?_empty] at hx
  inj x y := by rintro ⟨s, p, hx⟩; simp [fifo, OrderedMap.find?_empty] at hx
  old x := by rintro ⟨s, p, hx⟩; simp [fifo, OrderedMap.find?_empty] at hx
  index k := rfl
  named k x h := by simp at h
  sized := rfl
  exact := .empty

section Facts

variable (h : r.Stores d tag pop) (hd : d.WellFormed)
include h

theorem mem_levels (hx : x ∈ r.fifo s p) : tag x ∈ d.levels s p := by
  rw [h.level]
  exact List.mem_map_of_mem hx

theorem eq_nil_iff (s : Side) (p : ℕ) : d.levels s p = [] ↔ r.fifo s p = [] := by
  rw [h.level, List.map_eq_nil_iff]

theorem listed_iff (hpop : pop = d.populated) (s : Side) (p : ℕ) :
    ((r.books s).find? p).isSome ↔ r.fifo s p ≠ [] := by
  rw [h.listed, hpop]
  exact (h.eq_nil_iff s p).not

include hd

theorem linked (hx : r.Held x) : d.Linked (tag x) := by
  obtain ⟨s, p, hx⟩ := hx
  exact hd.linked (h.mem_levels hx)

theorem place (hx : x ∈ r.fifo s p) : (r.nodes x).s = s ∧ (r.nodes x).px = p := by
  obtain ⟨hs, hp, _⟩ := hd.placed s p _ (h.mem_levels hx)
  rw [h.node x ⟨s, p, hx⟩]
  exact ⟨hs, hp⟩

theorem fifo_nodup (s : Side) (p : ℕ) : (r.fifo s p).Nodup := by
  have := hd.nodup s p
  rw [h.level] at this
  exact this.of_map

/-- Where a record says it is, it is. -/
theorem mem_fifo (hx : r.Held x) : x ∈ r.fifo (r.nodes x).s (r.nodes x).px := by
  obtain ⟨s, p, hx⟩ := hx
  obtain ⟨hs, hp⟩ := h.place hd hx
  rwa [hs, hp]

theorem lookup_id (hx : r.Held x) : r.idx.lookup (r.nodes x).id = some x := by
  have hl := h.linked hd hx
  have hindex := h.exact _ hl
  rw [← h.node x hx, h.index] at hindex
  obtain ⟨y, hy, htag⟩ := Option.map_eq_some_iff.mp hindex
  rw [hy, h.inj y x (h.named _ y hy) hx htag]

theorem lookup_node {k : UInt64} (hk : r.idx.lookup k = some x) : (r.nodes x).id = k := by
  have hindex := h.index k
  rw [hk] at hindex
  rw [h.node x (h.named k x hk)]
  exact (hd.indexed k _ hindex).2

theorem absent_iff (k : UInt64) : d.Absent k ↔ r.idx.lookup k = none := by
  constructor
  · intro hab
    cases hk : r.idx.lookup k with
    | none => rfl
    | some x =>
        have hindex := h.index k
        rw [hk] at hindex
        obtain ⟨hl, hid⟩ := hd.indexed k _ hindex
        exact absurd hid (hab _ hl)
  · intro hnone u hu hid
    have hindex := h.exact u hu
    rw [hid, h.index, hnone] at hindex
    simp at hindex

end Facts

/-! ## Changes -/

/-- Nothing but which prices are listed may differ. -/
theorem relist (h : r.Stores d tag pop) (hfifo : ∀ s p, r'.fifo s p = r.fifo s p)
    (hlisted : ∀ s p, ((r'.books s).find? p).isSome ↔ p ∈ Q s) (hnodes : r'.nodes = r.nodes)
    (hnext : r'.nextNode = r.nextNode) (hidx : r'.idx = r.idx) : r'.Stores d tag Q where
  level s p := by rw [hfifo, h.level]
  listed := hlisted
  node x hx := by
    rw [hnodes]
    exact h.node x ((Held.of_fifo_eq hfifo).mp hx)
  inj x y hx hy := h.inj x y ((Held.of_fifo_eq hfifo).mp hx) ((Held.of_fifo_eq hfifo).mp hy)
  old x hx := by
    rw [hnext]
    exact h.old x ((Held.of_fifo_eq hfifo).mp hx)
  index k := by rw [hidx, h.index]
  named k x hk := (Held.of_fifo_eq hfifo).mpr (h.named k x (hidx ▸ hk))
  sized := by rw [hidx, h.sized]
  exact := h.exact

/-- No price is listed that has no orders. -/
theorem settle (h : r.Stores d tag pop)
    (hlisted : ∀ s p, ((r.books s).find? p).isSome ↔ r.fifo s p ≠ []) :
    r.Stores d tag d.populated :=
  h.relist (fun _ _ => rfl) (fun s p => (hlisted s p).trans (h.eq_nil_iff s p).not.symm) rfl rfl
    rfl

/-- A record's open quantity changes. -/
theorem setRemaining (h : r.Stores d tag pop) (hx : r.Held x) {o : Order} (ho : r.nodes x = o)
    (qty : UInt64) :
    (r.setNode x { o with remaining := qty }).Stores (d.setRemaining (tag x) qty) tag pop where
  level := h.level
  listed := h.listed
  node y hy := by
    have hy : r.Held y := hy
    by_cases hyx : y = x
    · subst hyx
      simp [setNode, ← ho, h.node y hx]
    · have hne : tag y ≠ tag x := fun ht => hyx (h.inj y x hy hx ht)
      rw [Queues.setRemaining_orders, Function.update_of_ne hne]
      exact (Function.update_of_ne hyx _ _).trans (h.node y hy)
  inj := h.inj
  old := h.old
  index := h.index
  named := h.named
  sized := h.sized
  exact := h.exact.setRemaining _ _

/-- A node leaves its FIFO, and its id the index. -/
theorem drop (h : r.Stores d tag pop) (hd : d.WellFormed) (hx : r.Held x)
    (hfifo : ∀ s p, r'.fifo s p = (r.fifo s p).erase x)
    (hlisted : ∀ s p, ((r'.books s).find? p).isSome ↔ p ∈ Q s) (hnodes : r'.nodes = r.nodes)
    (hnext : r'.nextNode = r.nextNode) (hidx : r'.idx = r.idx.erase (r.nodes x).id) :
    r'.Stores (d.drop (tag x)) tag Q := by
  have hheld : ∀ y, r'.Held y ↔ r.Held y ∧ y ≠ x := by
    intro y
    unfold Held
    simp only [hfifo, (h.fifo_nodup hd _ _).mem_erase_iff]
    constructor
    · rintro ⟨s, p, hne, hy⟩
      exact ⟨⟨s, p, hy⟩, hne⟩
    · rintro ⟨⟨s, p, hy⟩, hne⟩
      exact ⟨s, p, hne, hy⟩
  have hlookup := h.lookup_id hd hx
  refine ⟨fun s p => ?_, hlisted, fun y hy => ?_, fun y z hy hz => ?_, fun y hy => ?_,
    fun k => ?_, fun k y hk => ?_, ?_, h.exact.drop hd (h.linked hd hx)⟩
  · have hlev : (d.drop (tag x)).levels s p = (d.levels s p).erase (tag x) :=
      hd.unlink_levels_eq_erase
    rw [hlev, h.level, hfifo]
    exact (map_erase_of_inj fun y hy ht => h.inj y x ⟨s, p, hy⟩ hx ht).symm
  · rw [hnodes]
    exact h.node y ((hheld y).mp hy).1
  · exact h.inj y z ((hheld y).mp hy).1 ((hheld z).mp hz).1
  · rw [hnext]
    exact h.old y ((hheld y).mp hy).1
  · change Function.update d.index _ _ k = _
    rw [hidx, ← h.node x hx]
    by_cases hk : k = (r.nodes x).id
    · rw [hk, Function.update_self, AList.lookup_erase]
      rfl
    · rw [Function.update_of_ne hk, AList.lookup_erase_ne hk, h.index]
  · rw [hidx] at hk
    have hne : k ≠ (r.nodes x).id := fun heq => by
      rw [heq, AList.lookup_erase] at hk
      simp at hk
    rw [AList.lookup_erase_ne hne] at hk
    refine (hheld y).mpr ⟨h.named k y hk, fun hyx => hne ?_⟩
    rw [← h.lookup_node hd hk, hyx]
  · have hmem : (r.nodes x).id ∈ r.idx.keys := by
      rw [← AList.mem_keys, ← AList.lookup_isSome, hlookup]
      rfl
    rw [hidx, AList.keys_erase, List.length_erase_of_mem hmem, h.sized]
    rfl

theorem keys_length_erase {k : UInt64} {l : AList fun _ : UInt64 => ℕ} (hk : l.lookup k ≠ none) :
    (l.erase k).keys.length = l.keys.length - 1 := by
  have hmem : k ∈ l.keys := by
    rw [← AList.mem_keys]
    by_contra hnot
    exact hk (AList.lookup_eq_none.mpr hnot)
  rw [AList.keys_erase, List.length_erase_of_mem hmem]

theorem keys_length_insert {k : UInt64} {l : AList fun _ : UInt64 => ℕ} (hk : l.lookup k = none)
    (x : ℕ) : (l.insert k x).keys.length = l.keys.length + 1 := by
  have hmem : k ∉ l.keys := by
    rw [← AList.mem_keys]
    exact AList.lookup_eq_none.mp hk
  rw [AList.keys_insert, List.erase_of_not_mem hmem, List.length_cons]

/-- A new node joins the back of a FIFO, and its id the index. -/
theorem rest (h : r.Stores d tag d.populated) (hd : d.WellFormed) {m : SubmitMsg}
    {rem : UInt64} (hid : d.Absent m.id)
    (hbooks : r'.books = (r.onFifo m.s m.px (· ++ [r.nextNode])).books)
    (hnodes : r'.nodes =
      Function.update r.nodes r.nextNode ⟨m.id, rem, m.px, m.s, m.t, m.accountId⟩)
    (hnext : r'.nextNode = r.nextNode + 1) (hidx : r'.idx = r.idx.insert m.id r.nextNode) :
    r'.Stores (d.rest m rem) (Function.update tag r.nextNode d.next)
      (d.rest m rem).populated := by
  have hfifo : ∀ t q, r'.fifo t q =
      if t = m.s ∧ q = m.px then r.fifo t q ++ [r.nextNode] else r.fifo t q := by
    intro t q
    rw [fifo_congr hbooks, onFifo_fifo]
    split_ifs with hat
    · rw [hat.1, hat.2]
    · rfl
  have hlisted : ∀ t q, ((r'.books t).find? q).isSome ↔ r'.fifo t q ≠ [] := by
    intro t q
    rw [hbooks, fifo_congr hbooks, onFifo_find?, onFifo_fifo]
    split_ifs
    · simp
    · exact h.listed_iff rfl t q
  have hnew : ∀ y, r.Held y → y ≠ r.nextNode := fun y hy heq =>
    Nat.lt_irrefl _ (heq ▸ h.old y hy)
  have htag : ∀ y, r.Held y → Function.update tag r.nextNode d.next y = tag y := fun y hy =>
    Function.update_of_ne (hnew y hy) _ _
  have hfresh : ∀ y, r.Held y → tag y ≠ d.next := fun y hy heq => by
    obtain ⟨s, p, hy⟩ := hy
    exact hd.next_notMem s p (heq ▸ h.mem_levels hy)
  have hheld : ∀ y, r'.Held y ↔ r.Held y ∨ y = r.nextNode := by
    intro y
    constructor
    · rintro ⟨t, q, hy⟩
      rw [hfifo] at hy
      split_ifs at hy
      · rcases List.mem_append.mp hy with hy | hy
        · exact .inl ⟨t, q, hy⟩
        · exact .inr (List.mem_singleton.mp hy)
      · exact .inl ⟨t, q, hy⟩
    · rintro (⟨t, q, hy⟩ | rfl)
      · refine ⟨t, q, ?_⟩
        rw [hfifo]
        split_ifs
        · exact List.mem_append_left _ hy
        · exact hy
      · refine ⟨m.s, m.px, ?_⟩
        rw [hfifo, if_pos ⟨rfl, rfl⟩]
        simp
  have hnone := (h.absent_iff hd m.id).mp hid
  refine settle ⟨fun t q => ?_, fun _ _ => Iff.rfl, fun y hy => ?_, fun y z hy hz heq => ?_,
    fun y hy => ?_, fun k => ?_, fun k y hk => ?_, ?_, h.exact.rest hd hid⟩ hlisted
  · have hmap : (r.fifo t q).map (Function.update tag r.nextNode d.next) = d.levels t q := by
      rw [h.level]
      exact List.map_congr_left fun y hy => htag y ⟨t, q, hy⟩
    rw [Queues.rest_levels, hfifo]
    split_ifs
    · simp [hmap]
    · exact hmap.symm
  · rw [hnodes, Queues.rest_orders]
    rcases (hheld y).mp hy with hy | rfl
    · rw [htag y hy, Function.update_of_ne (hnew y hy), Function.update_of_ne (hfresh y hy)]
      exact h.node y hy
    · simp
  · rcases (hheld y).mp hy with hy | rfl
    · rcases (hheld z).mp hz with hz | rfl
      · rw [htag y hy, htag z hz] at heq
        exact h.inj y z hy hz heq
      · rw [htag y hy, Function.update_self] at heq
        exact absurd heq (hfresh y hy)
    · rcases (hheld z).mp hz with hz | rfl
      · rw [htag z hz, Function.update_self] at heq
        exact absurd heq.symm (hfresh z hz)
      · rfl
  · rw [hnext]
    rcases (hheld y).mp hy with hy | rfl
    · exact (h.old y hy).trans (Nat.lt_succ_self _)
    · exact Nat.lt_succ_self _
  · change Function.update d.index _ _ k = _
    rw [hidx]
    by_cases hk : k = m.id
    · rw [hk, Function.update_self, AList.lookup_insert, Option.map_some, Function.update_self]
    · rw [Function.update_of_ne hk, AList.lookup_insert_ne hk, h.index]
      cases hl : r.idx.lookup k with
      | none => rfl
      | some y => rw [Option.map_some, Option.map_some, htag y (h.named k y hl)]
  · rw [hidx] at hk
    by_cases hkm : k = m.id
    · rw [hkm, AList.lookup_insert] at hk
      exact (hheld y).mpr (.inr (Option.some.inj hk).symm)
    · rw [AList.lookup_insert_ne hkm] at hk
      exact (hheld y).mpr (.inl (h.named k y hk))
  · rw [hidx, keys_length_insert hnone, h.sized]
    rfl

/-- A record gets another id. -/
theorem rename (h : r.Stores d tag pop) (hd : d.WellFormed) (hx : r.Held x) {newId : UInt64}
    (hid : d.Absent newId) :
    ((r.setIdx (r.idx.erase (r.nodes x).id)).setNode x
      { r.nodes x with id := newId } |>.setIdx ((r.idx.erase (r.nodes x).id).insert newId x)).Stores
      (d.rename (tag x) newId) tag pop where
  level := h.level
  listed := h.listed
  node y hy := by
    have hy : r.Held y := hy
    by_cases hyx : y = x
    · subst hyx
      simp [setNode, setIdx, h.node y hx]
    · have hne : tag y ≠ tag x := fun ht => hyx (h.inj y x hy hx ht)
      rw [Queues.rename_orders, Function.update_of_ne hne]
      exact (Function.update_of_ne hyx _ _).trans (h.node y hy)
  inj := h.inj
  old := h.old
  index k := by
    change Function.update (Function.update d.index _ _) _ _ k =
      (((r.idx.erase (r.nodes x).id).insert newId x).lookup k).map tag
    rw [← h.node x hx]
    by_cases hk : k = newId
    · rw [hk, Function.update_self, AList.lookup_insert]
      rfl
    · rw [Function.update_of_ne hk, AList.lookup_insert_ne hk]
      by_cases hk' : k = (r.nodes x).id
      · rw [hk', Function.update_self, AList.lookup_erase]
        rfl
      · rw [Function.update_of_ne hk', AList.lookup_erase_ne hk', h.index]
  named k y hk := by
    change ((r.idx.erase (r.nodes x).id).insert newId x).lookup k = some y at hk
    by_cases hkn : k = newId
    · rw [hkn, AList.lookup_insert] at hk
      exact Option.some.inj hk ▸ hx
    · rw [AList.lookup_insert_ne hkn] at hk
      by_cases hk' : k = (r.nodes x).id
      · rw [hk', AList.lookup_erase] at hk
        simp at hk
      · rw [AList.lookup_erase_ne hk'] at hk
        exact h.named k y hk
  sized := by
    change ((r.idx.erase (r.nodes x).id).insert newId x).keys.length = d.live
    have hold := h.lookup_id hd hx
    have hne : newId ≠ (r.nodes x).id := fun heq =>
      hid _ (h.linked hd hx) (by rw [← h.node x hx, heq])
    have hnew : (r.idx.erase (r.nodes x).id).lookup newId = none := by
      rw [AList.lookup_erase_ne hne]
      exact (h.absent_iff hd newId).mp hid
    have hpos : 0 < r.idx.keys.length := by
      refine List.length_pos_of_mem (a := (r.nodes x).id) ?_
      rw [← AList.mem_keys, ← AList.lookup_isSome, hold]
      rfl
    rw [keys_length_insert hnew, keys_length_erase (by simp [hold]), ← h.sized]
    omega
  exact := h.exact.rename (h.linked hd hx) hid

/-- The numbers of the orders do not matter. -/
theorem renumber (h : r.Stores d tag pop) (hd : d.WellFormed) {d' : Queues ticks} (σ : ℕ → ℕ)
    (hlevels : ∀ s p, d'.levels s p = (d.levels s p).map σ)
    (horders : ∀ u, d.Linked u → d'.orders (σ u) = d.orders u)
    (hinj : ∀ u v, d.Linked u → d.Linked v → σ u = σ v → u = v)
    (hindex : ∀ k, d'.index k = (d.index k).map σ) (hlive : d'.live = d.live)
    (hexact : d'.Exact) : r.Stores d' (σ ∘ tag) pop where
  level s p := by rw [hlevels, h.level, List.map_map]
  listed := h.listed
  node x hx := by
    rw [h.node x hx]
    exact (horders _ (h.linked hd hx)).symm
  inj x y hx hy heq := h.inj x y hx hy (hinj _ _ (h.linked hd hx) (h.linked hd hy) heq)
  old := h.old
  index k := by rw [hindex, h.index, Option.map_map]
  named := h.named
  sized := h.sized.trans hlive.symm
  exact := hexact

/-! ## Prices and quantities -/

theorem isBest (h : r.Stores d tag pop) (s : Side) : s.IsBest (pop s) (r.best s) := by
  unfold best
  cases hf : (r.books s).first? with
  | none =>
      refine Set.eq_empty_of_forall_notMem fun p hp => ?_
      have := (h.listed s p).mpr hp
      simp [OrderedMap.first?_eq_none.mp hf p] at this
  | some a =>
      obtain ⟨hfind, hleast⟩ := OrderedMap.first?_eq_some (k := a.1) (v := a.2) hf
      exact ⟨(h.listed s a.1).mp (by simp [hfind]), fun q hq => hleast q ((h.listed s q).mpr hq)⟩

theorem aggregate_eq (h : r.Stores d tag pop) (s : Side) (p : ℕ) :
    r.aggregate s p = d.aggregateAt s p := by
  have hsum : ∀ (l : List ℕ) (a : UInt64), l.foldl (fun sum x => sum + (r.nodes x).remaining) a =
      a + (l.map fun x => (r.nodes x).remaining).sum := by
    intro l
    induction l with
    | nil => intro a; simp
    | cons x l ih =>
        intro a
        rw [List.foldl_cons, ih, List.map_cons, List.sum_cons]
        grind
  have hfifo : r.aggregate s p = ((r.fifo s p).map fun x => (r.nodes x).remaining).sum := by
    unfold aggregate fifo
    cases (r.books s).find? p with
    | none => rfl
    | some l =>
        simp only [Option.getD_some]
        rw [hsum]
        grind
  rw [hfifo, Queues.aggregateAt, Queues.ordersAt, h.level, List.map_map, List.map_map]
  refine congrArg List.sum (List.map_congr_left fun x hx => ?_)
  rw [h.node x ⟨s, p, hx⟩]
  rfl

end Stores
end ReferenceEngine
end Orderbooks
