import Orderbooks.JsonRoundTrip
import Orderbooks.Ledger

/-!
# What the dashboard shows of a recorded run

`depth.at_seq` looks a moment of a recorded run up in the table of tops, by a search for the last
top that is not after it. The search is `np.searchsorted`, which is an argument here: it is right
on a sorted column, and the stamps of the tops are sorted. A command publishes its top last, so
until then the dashboard shows the market from before the command, even where trades of the
command have been published already.
-/
namespace Orderbooks
open Runs

namespace JsonLog
open Decimal JsonObject

/-! ## `depth.at_seq` -/

inductive ViewError where
  | noTopEvents
  | key
  | index
  deriving DecidableEq, Repr

structure BookSnapshot where
  seq : ℤ
  bidPx : ℤ
  askPx : ℤ
  bidQty : ℤ
  askQty : ℤ
  deriving DecidableEq, Repr

/-- `DataFrame.empty`. -/
def Table.empty (t : Table) : Bool := t.all (·.2.isEmpty)

/-- `t[c]`. -/
def Table.column (t : Table) (c : List UInt8) : Except ViewError (List ℤ) :=
  match t.lookup c with
  | none => .error .key
  | some column => .ok column

/-- `t.iloc[i][c]`. -/
def Table.cell (t : Table) (i : ℕ) (c : List UInt8) : Except ViewError ℤ := do
  let column ← t.column c
  match column[i]? with
  | none => .error .index
  | some v => .ok v

/-- `np.searchsorted(a, v, side="right")`. -/
abbrev SearchSorted := List ℤ → ℤ → ℕ

/-- In a sorted array the values up to `v` are counted. -/
structure SearchesRight (searchsorted : SearchSorted) : Prop where
  right : ∀ (before after : List ℤ) (v : ℤ), (before ++ after).Pairwise (· ≤ ·) →
    (∀ x ∈ before, x ≤ v) → (∀ x ∈ after, v < x) → searchsorted (before ++ after) v = before.length

def atSeq (searchsorted : SearchSorted) (log : EventLog) (seq : ℤ) :
    Except ViewError BookSnapshot := do
  if log.tops.empty then .error .noTopEvents
  else
    let seqs ← log.tops.column (ascii "seq")
    match searchsorted seqs seq with
    | 0 => return ⟨seq, 0, 0, 0, 0⟩
    | idx + 1 =>
        let seq ← log.tops.cell idx (ascii "seq")
        let bidPx ← log.tops.cell idx (ascii "bid_px")
        let askPx ← log.tops.cell idx (ascii "ask_px")
        let bidQty ← log.tops.cell idx (ascii "bid_qty")
        let askQty ← log.tops.cell idx (ascii "ask_qty")
        return ⟨seq, bidPx, askPx, bidQty, askQty⟩

/-- What is shown of a top. -/
def BookSnapshot.of (seq : ℤ) (t : Top) : BookSnapshot :=
  ⟨seq, t.bidPx, t.askPx, t.bidQty.toNat, t.askQty.toNat⟩

def topsOf (evs : List Event) : List TopMsg := evs.filterMap topLayout.message

@[simp] theorem topsOf_append (evs evs' : List Event) :
    topsOf (evs ++ evs') = topsOf evs ++ topsOf evs' :=
  List.filterMap_append

theorem mem_topsOf {evs : List Event} {t : TopMsg} : t ∈ topsOf evs ↔ .top t ∈ evs := by
  unfold topsOf
  simp only [List.mem_filterMap, topLayout.message_eq_some]
  refine ⟨fun ⟨ev, hev, htop⟩ => ?_, fun h => ⟨_, h, rfl⟩⟩
  rw [← htop] at hev
  exact hev

section AtSeq
variable {searchsorted : SearchSorted} {evs : List Event} {seen unseen : List TopMsg}

/-- The columns of the tops. -/
theorem tops_eq (evs : List Event) : (logOf evs).tops =
    [(ascii "seq", (topsOf evs).map fun t => (t.seq.toNat : ℤ)),
      (ascii "bid_px", (topsOf evs).map fun t => (t.bidPx : ℤ)),
      (ascii "ask_px", (topsOf evs).map fun t => (t.askPx : ℤ)),
      (ascii "bid_qty", (topsOf evs).map fun t => (t.bidQty.toNat : ℤ)),
      (ascii "ask_qty", (topsOf evs).map fun t => (t.askQty.toNat : ℤ))] := rfl

theorem tops_empty (evs : List Event) : (logOf evs).tops.empty = (topsOf evs).isEmpty := by
  rw [tops_eq]
  cases topsOf evs <;> rfl

theorem tops_column (evs : List Event) :
    (logOf evs).tops.column (ascii "seq") = .ok ((topsOf evs).map fun t => (t.seq.toNat : ℤ)) := by
  rw [tops_eq]
  rfl

/-- A row of the tops is one of them. -/
theorem tops_cells {evs : List Event} {i : ℕ} {t : TopMsg} (h : (topsOf evs)[i]? = some t) :
    (logOf evs).tops.cell i (ascii "seq") = .ok (t.seq.toNat : ℤ) ∧
      (logOf evs).tops.cell i (ascii "bid_px") = .ok (t.bidPx : ℤ) ∧
      (logOf evs).tops.cell i (ascii "ask_px") = .ok (t.askPx : ℤ) ∧
      (logOf evs).tops.cell i (ascii "bid_qty") = .ok (t.bidQty.toNat : ℤ) ∧
      (logOf evs).tops.cell i (ascii "ask_qty") = .ok (t.askQty.toNat : ℤ) := by
  have hcell {c : List UInt8} (f : TopMsg → ℤ)
      (hcol : (logOf evs).tops.column c = .ok ((topsOf evs).map f)) :
      (logOf evs).tops.cell i c = .ok (f t) := by
    simp [Table.cell, hcol, h, bind, Except.bind]
  rw [tops_eq] at hcell ⊢
  exact ⟨hcell (fun t => (t.seq.toNat : ℤ)) rfl, hcell (fun t => (t.bidPx : ℤ)) rfl,
    hcell (fun t => (t.askPx : ℤ)) rfl, hcell (fun t => (t.bidQty.toNat : ℤ)) rfl,
    hcell (fun t => (t.askQty.toNat : ℤ)) rfl⟩

/-- The last top up to a moment is found. -/
theorem atSeq_logOf (hsearch : SearchesRight searchsorted) {seq : ℕ}
    (htops : topsOf evs = seen ++ unseen) (hne : topsOf evs ≠ [])
    (hsorted : (topsOf evs).Pairwise fun t t' => t.seq.toNat < t'.seq.toNat)
    (hseen : ∀ t ∈ seen, t.seq.toNat ≤ seq) (hunseen : ∀ t ∈ unseen, seq < t.seq.toNat) :
    atSeq searchsorted (logOf evs) seq =
      .ok (seen.getLast?.elim (.of seq ⟨0, 0, 0, 0⟩) fun t => .of t.seq.toNat t.top) := by
  have hfound : searchsorted ((topsOf evs).map fun t => (t.seq.toNat : ℤ)) seq = seen.length := by
    have hcolumn : ((topsOf evs).map fun t => (t.seq.toNat : ℤ)).Pairwise (· ≤ ·) :=
      List.pairwise_map.mpr (hsorted.imp fun hlt => by omega)
    rw [htops, List.map_append] at hcolumn ⊢
    rw [hsearch.right _ _ _ hcolumn (by simpa using hseen) (by simpa using hunseen),
      List.length_map]
  have hrows : (logOf evs).tops.empty = false := by
    rw [tops_empty]
    simpa using hne
  unfold atSeq
  rw [hrows, tops_column]
  simp only [Bool.false_eq_true, if_false, bind, Except.bind, hfound]
  cases hlast : seen.getLast? with
  | none =>
      rw [List.getLast?_eq_none_iff.mp hlast]
      rfl
  | some t =>
      have hget : (topsOf evs)[seen.length - 1]? = some t := by
        rw [List.getLast?_eq_getElem?] at hlast
        have hlt := (List.getElem?_eq_some_iff.mp hlast).choose
        rw [htops, List.getElem?_append_left hlt, hlast]
      have hpos : seen.length = (seen.length - 1) + 1 := by
        have := (List.getElem?_eq_some_iff.mp
          ((List.getLast?_eq_getElem? (l := seen)).symm.trans hlast)).choose
        omega
      obtain ⟨h₁, h₂, h₃, h₄, h₅⟩ := tops_cells hget
      rw [hpos]
      simp only [h₁, h₂, h₃, h₄, h₅]
      rfl

end AtSeq

end JsonLog

/-! ## Stamps of tops -/

section Stamps
open JsonLog

/-- How many stamps the events take. -/
def stamps (evs : List Event) : ℕ := evs.countP fun ev => ev.kind ≠ .trade

@[simp] theorem stamps_append (evs evs' : List Event) :
    stamps (evs ++ evs') = stamps evs + stamps evs' :=
  List.countP_append

theorem stamps_cons (ev : Event) (evs : List Event) :
    stamps (ev :: evs) = (if ev.kind = .trade then 0 else 1) + stamps evs := by
  unfold stamps
  rw [List.countP_cons]
  by_cases h : ev.kind = .trade <;> simp [h, Nat.add_comm]

theorem stamps_le_length (evs : List Event) : stamps evs ≤ evs.length := List.countP_le_length

theorem stamps_unstamped (evs : List Event) : stamps (evs.map Event.unstamped) = stamps evs := by
  unfold stamps
  rw [List.countP_map]
  congr 1
  funext ev
  simp

theorem Stamped.stamps_eq {base : UInt64} {n : ℕ} {evs : List Event} (h : Stamped base n evs) :
    stamps evs = n := by
  induction h with
  | nil => rfl
  | @snoc n evs new _ hnew ih =>
      have hone : stamps new = 1 := by
        cases hnew with
        | fill => rfl
        | single _ htrade => simp [stamps, htrade]
      rw [stamps_append, ih, hone]

theorem stampAll_append (seq : UInt64) (evs evs' : List Event) :
    stampAll seq (evs ++ evs') =
      stampAll seq evs ++ stampAll (seq + UInt64.ofNat (stamps evs)) evs' := by
  induction evs generalizing seq with
  | nil => simp [stamps, stampAll]
  | cons ev evs ih =>
      rw [List.cons_append, stampAll, stampAll, stamps_cons]
      split_ifs with h
      · rw [ih, Nat.zero_add]
        rfl
      · have hseq : seq + 1 + UInt64.ofNat (stamps evs) =
            seq + UInt64.ofNat (1 + stamps evs) := by
          rw [UInt64.ofNat_add, ← UInt64.add_assoc]
          rfl
        rw [ih, hseq]
        rfl

theorem topsOf_stampAll_nil {evs : List Event} (h : ∀ ev ∈ evs, ev.isTop = false) (seq : UInt64) :
    topsOf (stampAll seq evs) = [] := by
  induction evs generalizing seq with
  | nil => rfl
  | cons ev evs ih =>
      have hev := h ev List.mem_cons_self
      have hrest := ih fun ev hev => h ev (List.mem_cons_of_mem _ hev)
      cases ev with
      | top m => simp [Event.isTop] at hev
      | trade m => exact hrest seq
      | fill m => exact hrest (seq + 1)
      | selfTrade m => exact hrest (seq + 1)
      | reject m => exact hrest (seq + 1)

/-- An event gets one of the stamps after `n`, or the stamp `n` itself where it is a trade. -/
theorem mem_stampAll {evs : List Event} {ev' : Event} {n : ℕ}
    (h : ev' ∈ stampAll (UInt64.ofNat n) evs) :
    ∃ ev ∈ evs, ∃ k, ev' = ev.stamp (UInt64.ofNat k) ∧ n ≤ k ∧ k ≤ n + stamps evs ∧
      (ev.kind ≠ .trade → n < k) := by
  induction evs generalizing n with
  | nil => exact absurd h List.not_mem_nil
  | cons ev evs ih =>
      rw [stampAll] at h
      rw [stamps_cons]
      split_ifs at h ⊢ with htrade
      · rcases List.mem_cons.mp h with rfl | h
        · exact ⟨ev, List.mem_cons_self, n, rfl, le_refl n, by omega, absurd htrade⟩
        · obtain ⟨ev₀, hev₀, k, heq, hle, hge, hlt⟩ := ih h
          exact ⟨ev₀, List.mem_cons_of_mem _ hev₀, k, heq, hle, by omega, hlt⟩
      · rw [show UInt64.ofNat n + 1 = UInt64.ofNat (n + 1) from (UInt64.ofNat_add n 1).symm] at h
        rcases List.mem_cons.mp h with rfl | h
        · exact ⟨ev, List.mem_cons_self, n + 1, rfl, by omega, by omega, fun _ => by omega⟩
        · obtain ⟨ev₀, hev₀, k, heq, hle, hge, -⟩ := ih h
          exact ⟨ev₀, List.mem_cons_of_mem _ hev₀, k, heq, by omega, by omega, fun _ => by omega⟩

theorem topsOf_stampAll_bounds {evs : List Event} {n : ℕ} (hlt : n + stamps evs < 2 ^ 64) :
    ∀ t ∈ topsOf (stampAll (UInt64.ofNat n) evs),
      n < t.seq.toNat ∧ t.seq.toNat ≤ n + stamps evs := by
  intro t ht
  obtain ⟨ev, -, k, heq, -, hge, hgt⟩ := mem_stampAll (mem_topsOf.mp ht)
  have hseq : t.seq = UInt64.ofNat k := by
    rw [← ev.seq_stamp (UInt64.ofNat k), ← heq]
    rfl
  have hkind : ev.kind ≠ .trade := by
    rw [← ev.kind_stamp (UInt64.ofNat k), ← heq]
    simp [Event.kind]
  rw [hseq, UInt64.toNat_ofNat_of_lt' (by rw [UInt64.size]; omega)]
  exact ⟨hgt hkind, hge⟩

end Stamps

/-! ## The tops of a day -/

namespace Market
open JsonLog
variable (R : Rules)

/-- The tops a day publishes. -/
def shown (cmds : List Command) : List TopMsg := topsOf (stampAll 0 (play R cmds).2)

/-- The top a command publishes after the stamp `seq`, if one is due. -/
theorem topsOf_apply (M : Market) (cmd : Command) (seq : UInt64) :
    topsOf (stampAll seq (M.apply R cmd).2) =
      if M.due R (M.step R cmd).1 then
        topsOf (stampAll (seq + UInt64.ofNat (stamps (M.step R cmd).2))
          [((M.step R cmd).1.top R).news])
      else [] := by
  unfold apply
  rw [stampAll_append, topsOf_append, topsOf_stampAll_nil (step_not_top cmd), List.nil_append]
  split_ifs <;> rfl

theorem shown_concat (cmds : List Command) (cmd : Command) :
    shown R (cmds ++ [cmd]) = shown R cmds ++ topsOf
      (stampAll (UInt64.ofNat (stamps (play R cmds).2)) ((play R cmds).1.apply R cmd).2) := by
  unfold shown
  rw [play_concat, Day.next, stampAll_append, topsOf_append, UInt64.zero_add]

theorem top_eq_of_not_due {M M' : Market} (h : M.due R M' = false) : M'.top R = M.top R := by
  unfold due at h
  split_ifs at h with hthrottle
  · simpa using h
  · exact top_congr (by simpa using h)

/-- The last top published is the market's. -/
theorem last_shown (cmds : List Command) :
    (shown R cmds).getLast?.elim ⟨0, 0, 0, 0⟩ TopMsg.top = (play R cmds).1.top R := by
  induction cmds using List.reverseRecOn with
  | nil => exact (top_empty R).symm
  | append_singleton cmds cmd ih =>
      rw [shown_concat, topsOf_apply, play_concat]
      split_ifs with hdue
      · rw [List.getLast?_append]
        rfl
      · rw [List.append_nil, ih]
        exact (top_eq_of_not_due R (Bool.eq_false_iff.mpr hdue)).symm

theorem shown_le {cmds : List Command} (h : stamps (play R cmds).2 < 2 ^ 64) :
    ∀ t ∈ shown R cmds, t.seq.toNat ≤ stamps (play R cmds).2 := by
  intro t ht
  have := topsOf_stampAll_bounds (n := 0) (by simpa using h) t ht
  omega

/-- A command publishes its top last. -/
theorem topsOf_apply_seq {M : Market} {cmd : Command} {n : ℕ}
    (hlt : n + stamps (M.apply R cmd).2 < 2 ^ 64) :
    ∀ t ∈ topsOf (stampAll (UInt64.ofNat n) (M.apply R cmd).2),
      t.seq.toNat = n + stamps (M.apply R cmd).2 := by
  intro t ht
  rw [topsOf_apply] at ht
  split_ifs at ht with hdue
  · have hone : stamps (M.apply R cmd).2 = stamps (M.step R cmd).2 + 1 := by
      unfold apply
      rw [stamps_append, if_pos hdue]
      rfl
    have hnews : stamps [((M.step R cmd).1.top R).news] = 1 := rfl
    rw [← UInt64.ofNat_add] at ht
    have := topsOf_stampAll_bounds (by omega) t ht
    omega
  · exact absurd ht List.not_mem_nil

/-- The tops of a day are stamped in increasing order. -/
theorem shown_sorted {cmds : List Command} (h : stamps (play R cmds).2 < 2 ^ 64) :
    (shown R cmds).Pairwise fun t t' => t.seq.toNat < t'.seq.toNat := by
  induction cmds using List.reverseRecOn with
  | nil => exact .nil
  | append_singleton cmds cmd ih =>
      rw [play_concat, Day.next, stamps_append] at h
      have hbefore : stamps (play R cmds).2 < 2 ^ 64 := by omega
      rw [shown_concat]
      refine List.pairwise_append.mpr ⟨ih hbefore, ?_, fun t ht t' ht' => ?_⟩
      · -- there is at most one
        rw [topsOf_apply]
        split_ifs
        · exact List.pairwise_singleton _ _
        · exact .nil
      · exact (shown_le R hbefore t ht).trans_lt (topsOf_stampAll_bounds h t' ht').1

/-- The tops after a command are stamped no earlier than its own last event. -/
theorem shown_split {cmds : List Command} {cmd : Command} (rest : List Command)
    (h : stamps (play R (cmds ++ cmd :: rest)).2 < 2 ^ 64) :
    ∃ unseen, shown R (cmds ++ cmd :: rest) = shown R cmds ++ unseen ∧
      ∀ t ∈ unseen, stamps (play R (cmds ++ [cmd])).2 ≤ t.seq.toNat := by
  obtain ⟨evs, hevs⟩ := foldl_news R (play R (cmds ++ [cmd])) rest
  have hplay : (play R (cmds ++ cmd :: rest)).2 = (play R (cmds ++ [cmd])).2 ++ evs := by
    rw [← hevs, play, play, ← List.foldl_append, List.append_assoc]
    rfl
  have hday : stamps (play R (cmds ++ [cmd])).2 =
      stamps (play R cmds).2 + stamps ((play R cmds).1.apply R cmd).2 := by
    rw [play_concat, Day.next, stamps_append]
  rw [hplay, stamps_append] at h
  refine ⟨topsOf (stampAll (UInt64.ofNat (stamps (play R cmds).2))
      ((play R cmds).1.apply R cmd).2) ++
    topsOf (stampAll (UInt64.ofNat (stamps (play R (cmds ++ [cmd])).2)) evs), ?_, ?_⟩
  · rw [shown, hplay, stampAll_append, topsOf_append, UInt64.zero_add, ← List.append_assoc,
      ← shown_concat]
    rfl
  · intro t ht
    rcases List.mem_append.mp ht with ht | ht
    · rw [topsOf_apply_seq R (by omega) t ht, hday]
    · exact (topsOf_stampAll_bounds h t ht).1.le

/-- Within the stamps of the commands in `before`, and before the last of the next command, the
dashboard shows the market after `before`. -/
theorem atSeq_day {searchsorted : SearchSorted} (hsearch : SearchesRight searchsorted)
    {before after : List Command} {seq : ℕ}
    (hlt : stamps (play R (before ++ after)).2 < 2 ^ 64) (hne : shown R (before ++ after) ≠ [])
    (hseen : stamps (play R before).2 ≤ seq)
    (hnext : ∀ cmd rest, after = cmd :: rest → seq < stamps (play R (before ++ [cmd])).2) :
    ∃ n ≤ seq, atSeq searchsorted (logOf (stampAll 0 (play R (before ++ after)).2)) seq =
      .ok (.of n ((play R before).1.top R)) := by
  obtain ⟨unseen, hsplit, hunseen⟩ : ∃ unseen, shown R (before ++ after) =
      shown R before ++ unseen ∧ ∀ t ∈ unseen, seq < t.seq.toNat := by
    cases after with
    | nil => exact ⟨[], by simp, by simp⟩
    | cons cmd rest =>
        obtain ⟨unseen, hsplit, hlater⟩ := shown_split R rest hlt
        exact ⟨unseen, hsplit, fun t ht => (hnext cmd rest rfl).trans_le (hlater t ht)⟩
  have hbefore : stamps (play R before).2 < 2 ^ 64 := by
    obtain ⟨evs, hevs⟩ := foldl_news R (play R before) after
    rw [play, List.foldl_append, ← play, hevs, stamps_append] at hlt
    omega
  have hle : ∀ t ∈ shown R before, t.seq.toNat ≤ seq := fun t ht =>
    (shown_le R hbefore t ht).trans hseen
  rw [atSeq_logOf hsearch hsplit hne (shown_sorted R hlt) hle hunseen, ← last_shown]
  cases hlast : (shown R before).getLast? with
  | none => exact ⟨seq, le_refl seq, rfl⟩
  | some t => exact ⟨t.seq.toNat, hle t (List.mem_of_getLast? hlast), rfl⟩

theorem shown_ne_nil_iff {cmds : List Command} :
    (logOf (stampAll 0 (play R cmds).2)).tops.empty = false ↔ shown R cmds ≠ [] := by
  rw [tops_empty, List.isEmpty_eq_false_iff]
  rfl

/-- Where no top was ever published, there was nothing to show. -/
theorem top_of_unshown {before after : List Command} (h : shown R (before ++ after) = [])
    (hlt : stamps (play R (before ++ after)).2 < 2 ^ 64) :
    (play R before).1.top R = ⟨0, 0, 0, 0⟩ := by
  have hnil : shown R before = [] := by
    cases after with
    | nil => rwa [List.append_nil] at h
    | cons cmd rest =>
        obtain ⟨unseen, hsplit, -⟩ := shown_split R rest hlt
        rw [hsplit] at h
        exact (List.append_eq_nil_iff.mp h).1
  rw [← last_shown, hnil]
  rfl

end Market

/-! ## The engine behind the day -/

namespace Engine
open JsonLog
variable {ticks maxOrders : ℕ}

/-- What an engine publishes in a permitted run, its last stamp and its top are those of the day. -/
theorem play_day (cfg : EngineConfig) (hbase : cfg.seqBase = 0) (mem : Memory) (hc : 0 < maxOrders)
    (ht : ticks ≤ 64 ^ 4) (hcap : maxOrders * cfg.maxOrderQty.toNat < 2 ^ 64)
    {cmds : List Command}
    (hok : Market.Permitted (rulesOf cfg ticks maxOrders) cfg.maxOrderQty cmds) :
    let e : Engine (List Event) ticks maxOrders .byId := play [] cfg mem cmds
    let day := Market.play (rulesOf cfg ticks maxOrders) cmds
    e.pub = stampAll 0 day.2 ∧ e.state.seq = UInt64.ofNat (stamps day.2) ∧
      e.top = day.1.top (rulesOf cfg ticks maxOrders) := by
  intro e day
  have h : e.Shows (rulesOf cfg ticks maxOrders) cfg.maxOrderQty day :=
    play_shows cfg mem hc ht hcap hok
  obtain ⟨n, hst, hseq⟩ : ∃ n, Stamped cfg.seqBase n e.pub ∧
    e.lastSeq = cfg.seqBase + UInt64.ofNat n := play_stamped cfg mem cmds
  rw [hbase] at hst hseq
  have hcount : stamps day.2 = n := by
    rw [← h.published, stamps_unstamped, hst.stamps_eq]
  refine ⟨?_, ?_, ?_⟩
  · rw [← h.published, hst.stampAll]
  · rw [hcount, ← UInt64.zero_add (UInt64.ofNat n)]
    exact hseq
  · obtain ⟨b, href, -, -, -, hmarket, -⟩ := h
    rw [href.top_eq, ← hmarket]
    exact (PriorityBook.top_eq b.queues _ rfl).symm

end Engine

end Orderbooks
