import Orderbooks.JsonLog
import Orderbooks.Lib.Lists
import Orderbooks.ShardRouter

/-!
# Reading a recorded log back

A recorded line is the text of a flat object, so the reader gets back the members the
recorder named, and each table the fields of the events of its kind. The reader's columns
are signed: a log is only read when every number in it is below `2^63`. The stamps of the
upper half of the shards of a runtime are not.
-/
namespace Orderbooks.JsonLog
open Decimal JsonObject

/-! ## Lines -/

/-- The members of a line. -/
def members (ev : Event) : List Member :=
  (ascii "kind", .str (kindTag ev.kind)) :: (ascii "seq", .int ev.seq.toNat) ::
    (fields ev).map fun f => (f.key, .int f.value)

/-- The record that a line is read as. -/
def row (ev : Event) : Dict := .of (members ev)

/-- Every number that an event carries. -/
def numbers (ev : Event) : List ℕ := ev.seq.toNat :: (fields ev).map Field.value

/-- The prices that an event carries, which the source keeps in 32 bits. -/
def prices : Event → List ℕ
  | .fill m => [m.px]
  | .top m => [m.bidPx, m.askPx]
  | .trade m => [m.px]
  | .selfTrade m => [m.px]
  | .reject m => [m.px]

theorem numbers_lt {ev : Event} (h : ∀ px ∈ prices ev, px < 2 ^ 32) :
    ∀ n ∈ numbers ev, n < 2 ^ 64 := by
  have hwide : ∀ a : UInt64, a.toNat < 2 ^ 64 := UInt64.toNat_lt
  have haccount : ∀ a : UInt32, a.toNat < 2 ^ 64 := fun a => a.toNat_lt.trans (by decide)
  have hprice : ∀ px ∈ prices ev, px < 2 ^ 64 := fun px hpx => (h px hpx).trans (by decide)
  cases ev <;> simp_all [numbers, fields, prices, RejectReason.code]

theorem line_eq (kind : List UInt8) (seq : UInt64) (fs : List Field) :
    line kind seq fs = text (ascii "kind", .str kind)
      ((ascii "seq", .int seq.toNat) :: fs.map fun f => (f.key, .int f.value)) ++ [10] := by
  have hopen : ascii "\x7b\"kind\":\"" = 123 :: 34 :: ascii "kind" ++ [34, 58, 34] := by decide
  have hseq : ascii "\",\"seq\":" = 34 :: 44 :: 34 :: ascii "seq" ++ [34, 58] := by decide
  have hclose : ascii "\x7d\n" = [125, 10] := by decide
  have hcomma : ascii ",\"" = [44, 34] := by decide
  have hcolon : ascii "\":" = [34, 58] := by decide
  simp only [line, text, memberText, Value.text, hopen, hseq, hclose, hcomma, hcolon,
    List.flatMap_cons, List.flatMap_map]
  simp [appendNum, maxDigits]

theorem publishLine_eq (ev : Event) : ∃ m ms, members ev = m :: ms ∧
    publishLine ev = text m ms ++ [10] :=
  ⟨_, _, rfl, line_eq _ _ _⟩

/-- Keys and tags are printable. -/
theorem memberValid_members {ev : Event} (h : ∀ n ∈ numbers ev, n < 2 ^ 64) :
    ∀ m ∈ members ev, MemberValid m := by
  have htag : ∀ k : Event.Kind, (kindTag k).all plain = true := by
    intro k
    cases k <;> decide
  have hkey : ∀ f ∈ fields ev, f.key.all plain = true := by
    cases ev <;> simp only [fields, List.forall_mem_cons, List.not_mem_nil, false_imp_iff,
      implies_true, and_true] <;> decide
  intro m hm
  have hkind : (ascii "kind").all plain = true := by decide
  have hseq : (ascii "seq").all plain = true := by decide
  rcases List.mem_cons.mp hm with rfl | hm
  · exact ⟨List.all_eq_true.mp hkind, List.all_eq_true.mp (htag _)⟩
  rcases List.mem_cons.mp hm with rfl | hm
  · exact ⟨List.all_eq_true.mp hseq, h _ List.mem_cons_self⟩
  · obtain ⟨f, hf, rfl⟩ := List.mem_map.mp hm
    exact ⟨List.all_eq_true.mp (hkey f hf), h _ (List.mem_cons_of_mem _ (List.mem_map_of_mem hf))⟩

/-- Keys of at most twelve bytes and numbers of at most twenty digits. -/
theorem length_line_le {kind : List UInt8} (seq : UInt64) {fs : List Field}
    (hkind : kind.length ≤ 12) (hkeys : ∀ f ∈ fs, f.key.length ≤ 12) :
    (line kind seq fs).length ≤ 51 + 36 * fs.length := by
  have hnum : ∀ v, (appendNum v).length ≤ 20 := length_toChars_le 20
  have hfields : (fs.flatMap fun f =>
      ascii ",\"" ++ f.key ++ ascii "\":" ++ appendNum f.value).length ≤ 36 * fs.length := by
    induction fs with
    | nil => exact Nat.zero_le _
    | cons f fs ih =>
        have hrest := ih fun f' hf' => hkeys f' (List.mem_cons_of_mem _ hf')
        have hkey := hkeys f List.mem_cons_self
        have hval := hnum f.value
        have hcomma : (ascii ",\"").length = 2 := by decide
        have hcolon : (ascii "\":").length = 2 := by decide
        simp only [List.flatMap_cons, List.length_append, List.length_cons, hcomma, hcolon]
        omega
  have hopen : (ascii "\x7b\"kind\":\"").length = 9 := by decide
  have hseq : (ascii "\",\"seq\":").length = 8 := by decide
  have hclose : (ascii "\x7d\n").length = 2 := by decide
  have hstamp := hnum seq.toNat
  simp only [line, List.length_append, hopen, hseq, hclose]
  omega

/-- A line fits the buffer it is formatted into. -/
theorem length_publishLine_le (ev : Event) : (publishLine ev).length ≤ lineCapacity := by
  have hkind : (kindTag ev.kind).length ≤ 12 := by
    cases ev.kind <;> decide
  have hkeys : ∀ f ∈ fields ev, f.key.length ≤ 12 := by
    cases ev <;> simp only [fields, List.forall_mem_cons, List.not_mem_nil, false_imp_iff,
      implies_true, and_true] <;> decide
  have hcount : (fields ev).length ≤ 5 := by
    cases ev <;> simp [fields]
  have hle := length_line_le ev.seq hkind hkeys
  unfold publishLine lineCapacity
  omega

/-! ## Records -/

theorem recordText_eq (evs : List Event) : recordText evs = evs.flatMap publishLine := by
  have hfold : ∀ r : JsonRecorder,
      (evs.foldl Publisher.publish r).out = r.out ++ evs.flatMap publishLine := by
    induction evs with
    | nil =>
        intro r
        simp
    | cons ev evs ih =>
        intro r
        rw [List.foldl_cons, ih, List.flatMap_cons, ← List.append_assoc]
        rfl
  exact hfold {}

theorem splitFrom_line {w : List UInt8} (hw : ∀ ch ∈ w, 32 ≤ ch) (rest : List UInt8) :
    ∀ cur, splitFrom cur (w ++ 10 :: rest) = (cur ++ w) :: splitFrom [] rest := by
  induction w with
  | nil =>
      intro cur
      simp [splitFrom, isBreak]
  | cons ch w ih =>
      intro cur
      have hch := hw ch List.mem_cons_self
      have hne : ∀ c : UInt8, c < 32 → (ch == c) = false := fun c hc =>
        beq_eq_false_iff_ne.mpr fun heq => by
          rw [heq] at hch
          exact absurd hch (by simpa using hc)
      have hbreak : isBreak ch = false := by
        simp [isBreak, hne]
      have hcr : ch ≠ 13 := beq_eq_false_iff_ne.mp (hne 13 (by decide))
      have hstep : splitFrom cur (ch :: (w ++ 10 :: rest)) =
          splitFrom (cur ++ [ch]) (w ++ 10 :: rest) := by
        rw [splitFrom]
        · simp [hbreak]
        · exact fun _ heq _ => hcr heq
      rw [List.cons_append, hstep, ih fun c hc => hw c (List.mem_cons_of_mem _ hc)]
      simp

/-- Every line is read back as the members it was written from. -/
theorem records_recordText {loads : Loads} (hloads : LoadsExact loads) {evs : List Event}
    (h : ∀ ev ∈ evs, ∀ n ∈ numbers ev, n < 2 ^ 64) :
    records loads (splitlines (recordText evs)) = .ok (evs.map row) := by
  rw [recordText_eq, splitlines]
  induction evs with
  | nil => rfl
  | cons ev evs ih =>
      have hrest := ih fun ev' hev' => h ev' (List.mem_cons_of_mem _ hev')
      obtain ⟨m, ms, hmem, hline⟩ := publishLine_eq ev
      have hvalid := memberValid_members (h ev List.mem_cons_self)
      rw [hmem] at hvalid
      obtain ⟨hm, hms⟩ := List.forall_mem_cons.mp hvalid
      have hsplit : splitFrom [] ((ev :: evs).flatMap publishLine) =
          text m ms :: splitFrom [] (evs.flatMap publishLine) := by
        rw [List.flatMap_cons, hline, List.append_assoc, List.singleton_append,
          splitFrom_line (text_printable hm hms)]
        rfl
      have hblank : (text m ms).all isSpace = false := by
        simp [text, isSpace, isBreak]
      have hload : loads (text m ms) = .ok (row ev) := by
        rw [hloads.object m ms hvalid, row, hmem]
      rw [records] at hrest ⊢
      rw [hsplit, List.filter_cons_of_pos (by simp [hblank]), List.mapM_cons, hload, hrest]
      rfl

/-! ## Tables -/

theorem get_kind (ev : Event) :
    (row ev).get (ascii "kind") = some (.str (kindTag ev.kind)) := by
  cases ev <;> rfl

theorem kindTag_injective : Function.Injective kindTag := by
  intro k k'
  cases k <;> cases k' <;> decide

/-- The events of a kind, by the message they carry, and the columns of its table. Every
column is a field of the recorded line, and every number of the line has a column. -/
structure Layout (α : Type) where
  kind : Event.Kind
  event : α → Event
  message : Event → Option α
  cols : List (List UInt8 × (α → ℕ))
  message_eq_some : ∀ ev a, message ev = some a ↔ event a = ev
  kind_iff : ∀ ev, ev.kind = kind ↔ ∃ a, event a = ev
  get_eq : ∀ a, ∀ c ∈ cols, (row (event a)).get c.1 = some (.int (c.2 a))
  field : ∀ a, ∀ c ∈ cols, c.2 a ∈ numbers (event a)
  complete : ∀ a, ∀ n ∈ numbers (event a), ∃ c ∈ cols, c.2 a = n

variable {α : Type}

/-- The table whose rows are the events of a layout, in order. -/
def Layout.table (L : Layout α) (evs : List Event) : Table :=
  L.cols.map fun c => (c.1, (evs.filterMap L.message).map fun a => (c.2 a : ℤ))

/-- The records of a kind are those of its events. -/
theorem Layout.ofKind_rows (L : Layout α) (evs : List Event) :
    ofKind (kindTag L.kind) (evs.map row) =
      (evs.filterMap L.message).map fun a => row (L.event a) := by
  induction evs with
  | nil => rfl
  | cons ev evs ih =>
      rw [List.map_cons, ofKind, List.filter_cons, get_kind, ← ofKind, ih, List.filterMap_cons]
      by_cases hk : ev.kind = L.kind
      · obtain ⟨a, ha⟩ := (L.kind_iff ev).mp hk
        simp [(L.message_eq_some ev a).mpr ha, hk, ha]
      · have hnone : L.message ev = none := by
          refine Option.eq_none_iff_forall_ne_some.mpr fun a ha => hk ?_
          exact (L.kind_iff ev).mpr ⟨a, (L.message_eq_some ev a).mp ha⟩
        have hne : kindTag ev.kind ≠ kindTag L.kind := fun heq => hk (kindTag_injective heq)
        simp [hnone, hne]

section Columns
variable {fromiter : FromIter} (hiter : TakesInt64 fromiter) {evs : List Event}
include hiter

/-- A column of a kind is built when the field fits it for each of the events. -/
theorem Layout.column_eq_ok_iff (L : Layout α) {c : List UInt8 × (α → ℕ)} (hc : c ∈ L.cols)
    {msgs : List α} {col : List ℤ} :
    fromiter ((msgs.map fun a => row (L.event a)).map (Dict.item c.1)) = .ok col ↔
      (col = msgs.map fun a => (c.2 a : ℤ)) ∧ ∀ a ∈ msgs, c.2 a < 2 ^ 63 := by
  have hitems : (msgs.map fun a => row (L.event a)).map (Dict.item c.1) =
      (msgs.map fun a => (c.2 a : ℤ)).map fun n => .ok (.int n) := by
    rw [List.map_map, List.map_map]
    refine List.map_congr_left fun a _ => ?_
    rw [Function.comp_apply, Dict.item, L.get_eq a c hc]
    rfl
  rw [hitems, hiter.column]
  refine and_congr_right fun _ => ?_
  simp only [List.forall_mem_map]
  refine forall₂_congr fun a _ => ?_
  omega

/-- The reader's table of a kind has the fields of its events. -/
theorem Layout.columnar_eq (L : Layout α) (hsmall : ∀ ev ∈ evs, ∀ n ∈ numbers ev, n < 2 ^ 63) :
    columnar fromiter (ofKind (kindTag L.kind) (evs.map row)) (L.cols.map Prod.fst) =
      .ok (L.table evs) := by
  rw [L.ofKind_rows]
  unfold columnar
  split_ifs with hnil
  · have hnone : evs.filterMap L.message = [] := by simpa using hnil
    simp [Layout.table, hnone]
  · rw [List.mapM_map]
    refine mapM_ok fun c hc => ?_
    have hcol := (L.column_eq_ok_iff hiter hc).mpr ⟨rfl, fun a ha => by
      obtain ⟨ev, hev, hsome⟩ := List.mem_filterMap.mp ha
      obtain rfl := (L.message_eq_some ev a).mp hsome
      exact hsmall _ hev _ (L.field a c hc)⟩
    rw [Function.comp_apply, hcol]
    rfl

/-- A table of a kind is only built when the numbers of its events fit the columns. -/
theorem Layout.small_of_columnar (L : Layout α) {t : Table}
    (h : columnar fromiter (ofKind (kindTag L.kind) (evs.map row)) (L.cols.map Prod.fst) = .ok t)
    {ev : Event} (hev : ev ∈ evs) (hkind : ev.kind = L.kind) : ∀ n ∈ numbers ev, n < 2 ^ 63 := by
  obtain ⟨a, rfl⟩ := (L.kind_iff ev).mp hkind
  have ha : a ∈ evs.filterMap L.message :=
    List.mem_filterMap.mpr ⟨_, hev, (L.message_eq_some _ a).mpr rfl⟩
  rw [L.ofKind_rows, columnar, if_neg (by simpa using List.ne_nil_of_mem ha)] at h
  intro n hn
  obtain ⟨c, hc, rfl⟩ := L.complete a n hn
  obtain ⟨cell, hcell⟩ := ok_of_mapM h c.1 (List.mem_map_of_mem hc)
  obtain ⟨col, hcol, -⟩ := bind_eq_ok.mp hcell
  exact ((L.column_eq_ok_iff hiter hc).mp hcol).2 a ha

end Columns

def fillLayout : Layout FillMsg where
  kind := .fill
  event := .fill
  message
    | .fill m => some m
    | _ => none
  cols := [(ascii "seq", (·.seq.toNat)), (ascii "maker", (·.maker.toNat)),
    (ascii "taker", (·.taker.toNat)), (ascii "px", (·.px)), (ascii "qty", (·.qty.toNat))]
  message_eq_some ev a := by cases ev <;> simp [eq_comm]
  kind_iff ev := by cases ev <;> simp [Event.kind]
  get_eq a := by simp only [List.forall_mem_cons]; exact ⟨rfl, rfl, rfl, rfl, rfl, nofun⟩
  field a := by simp [numbers, fields, Event.seq]
  complete a n hn := by simpa [numbers, fields, Event.seq, eq_comm] using hn

def topLayout : Layout TopMsg where
  kind := .top
  event := .top
  message
    | .top m => some m
    | _ => none
  cols := [(ascii "seq", (·.seq.toNat)), (ascii "bid_px", (·.bidPx)), (ascii "ask_px", (·.askPx)),
    (ascii "bid_qty", (·.bidQty.toNat)), (ascii "ask_qty", (·.askQty.toNat))]
  message_eq_some ev a := by cases ev <;> simp [eq_comm]
  kind_iff ev := by cases ev <;> simp [Event.kind]
  get_eq a := by simp only [List.forall_mem_cons]; exact ⟨rfl, rfl, rfl, rfl, rfl, nofun⟩
  field a := by simp [numbers, fields, Event.seq]
  complete a n hn := by simpa [numbers, fields, Event.seq, eq_comm] using hn

def tradeLayout : Layout TradeMsg where
  kind := .trade
  event := .trade
  message
    | .trade m => some m
    | _ => none
  cols := [(ascii "seq", (·.seq.toNat)), (ascii "px", (·.px)), (ascii "qty", (·.qty.toNat))]
  message_eq_some ev a := by cases ev <;> simp [eq_comm]
  kind_iff ev := by cases ev <;> simp [Event.kind]
  get_eq a := by simp only [List.forall_mem_cons]; exact ⟨rfl, rfl, rfl, nofun⟩
  field a := by simp [numbers, fields, Event.seq]
  complete a n hn := by simpa [numbers, fields, Event.seq, eq_comm] using hn

def selfTradeLayout : Layout SelfTradeMsg where
  kind := .selfTrade
  event := .selfTrade
  message
    | .selfTrade m => some m
    | _ => none
  cols := [(ascii "seq", (·.seq.toNat)), (ascii "aggressor", (·.aggressor.toNat)),
    (ascii "resting", (·.resting.toNat)), (ascii "account", (·.account.toNat)),
    (ascii "px", (·.px)), (ascii "qty", (·.qty.toNat))]
  message_eq_some ev a := by cases ev <;> simp [eq_comm]
  kind_iff ev := by cases ev <;> simp [Event.kind]
  get_eq a := by simp only [List.forall_mem_cons]; exact ⟨rfl, rfl, rfl, rfl, rfl, rfl, nofun⟩
  field a := by simp [numbers, fields, Event.seq]
  complete a n hn := by simpa [numbers, fields, Event.seq, eq_comm] using hn

def rejectLayout : Layout RejectMsg where
  kind := .reject
  event := .reject
  message
    | .reject m => some m
    | _ => none
  cols := [(ascii "seq", (·.seq.toNat)), (ascii "id", (·.id.toNat)),
    (ascii "account", (·.account.toNat)), (ascii "px", (·.px)), (ascii "qty", (·.qty.toNat)),
    (ascii "reason", fun m => RejectReason.code m.reason)]
  message_eq_some ev a := by cases ev <;> simp [eq_comm]
  kind_iff ev := by cases ev <;> simp [Event.kind]
  get_eq a := by simp only [List.forall_mem_cons]; exact ⟨rfl, rfl, rfl, rfl, rfl, rfl, nofun⟩
  field a := by simp [numbers, fields, Event.seq]
  complete a n hn := by simpa [numbers, fields, Event.seq, eq_comm] using hn

/-- The tables that have the events' own fields. -/
def logOf (evs : List Event) : EventLog where
  fills := fillLayout.table evs
  tops := topLayout.table evs
  trades := tradeLayout.table evs
  selfTrades := selfTradeLayout.table evs
  rejects := rejectLayout.table evs

section Split
variable {fromiter : FromIter} (hiter : TakesInt64 fromiter) {evs : List Event}
include hiter

theorem split_rows (hsmall : ∀ ev ∈ evs, ∀ n ∈ numbers ev, n < 2 ^ 63) :
    split fromiter (evs.map row) = .ok (logOf evs) := by
  have hfills : columnar fromiter (ofKind (ascii "fill") (evs.map row)) fillCols = _ :=
    fillLayout.columnar_eq hiter hsmall
  have htops : columnar fromiter (ofKind (ascii "top") (evs.map row)) topCols = _ :=
    topLayout.columnar_eq hiter hsmall
  have htrades : columnar fromiter (ofKind (ascii "trade") (evs.map row)) tradeCols = _ :=
    tradeLayout.columnar_eq hiter hsmall
  have hselfTrades :
      columnar fromiter (ofKind (ascii "self_trade") (evs.map row)) selfTradeCols = _ :=
    selfTradeLayout.columnar_eq hiter hsmall
  have hrejects : columnar fromiter (ofKind (ascii "reject") (evs.map row)) rejectCols = _ :=
    rejectLayout.columnar_eq hiter hsmall
  simp only [split, bind, Except.bind, hfills, htops, htrades, hselfTrades, hrejects]
  rfl

theorem small_of_split {log : EventLog} (h : split fromiter (evs.map row) = .ok log) :
    ∀ ev ∈ evs, ∀ n ∈ numbers ev, n < 2 ^ 63 := by
  obtain ⟨fills, hfills, h⟩ := bind_eq_ok.mp h
  obtain ⟨tops, htops, h⟩ := bind_eq_ok.mp h
  obtain ⟨trades, htrades, h⟩ := bind_eq_ok.mp h
  obtain ⟨selfTrades, hselfTrades, h⟩ := bind_eq_ok.mp h
  obtain ⟨rejects, hrejects, -⟩ := bind_eq_ok.mp h
  intro ev hev
  cases hkind : ev.kind with
  | fill => exact fillLayout.small_of_columnar hiter hfills hev hkind
  | top => exact topLayout.small_of_columnar hiter htops hev hkind
  | trade => exact tradeLayout.small_of_columnar hiter htrades hev hkind
  | selfTrade => exact selfTradeLayout.small_of_columnar hiter hselfTrades hev hkind
  | reject => exact rejectLayout.small_of_columnar hiter hrejects hev hkind

end Split

theorem readText_eq_split {loads : Loads} (hloads : LoadsExact loads) (fromiter : FromIter)
    {evs : List Event} (h : ∀ ev ∈ evs, ∀ n ∈ numbers ev, n < 2 ^ 64) :
    readText loads fromiter (recordText evs) = split fromiter (evs.map row) := by
  rw [readText, records_recordText hloads h]
  rfl

/-- Whatever parser and columns the reader is given, as long as the one is exact on unsigned 64-bit
integers and the other take signed ones: a log is read back exactly if and only if every number in
it is below `2^63`. Each of its lines fits the recorder's buffer in any case. -/
theorem readText_recordText_iff {loads : Loads} {fromiter : FromIter} (hloads : LoadsExact loads)
    (hiter : TakesInt64 fromiter) (evs : List Event)
    (hprices : ∀ ev ∈ evs, ∀ px ∈ prices ev, px < 2 ^ 32) :
    (readText loads fromiter (recordText evs) = .ok (logOf evs) ↔
        ∀ ev ∈ evs, ∀ n ∈ numbers ev, n < 2 ^ 63) ∧
      ∀ ev ∈ evs, (publishLine ev).length ≤ lineCapacity := by
  refine ⟨?_, fun ev _ => length_publishLine_le ev⟩
  rw [readText_eq_split hloads fromiter fun ev hev => numbers_lt (hprices ev hev)]
  exact ⟨small_of_split hiter, split_rows hiter⟩

/-! ## Libraries as they are assumed -/

/-- A parser of flat objects in the place of `orjson.loads`. -/
def flatLoads : Loads := fun raw =>
  match parse raw with
  | some ms => .ok (.of ms)
  | none => .error .jsonDecode

theorem flatLoads_exact : LoadsExact flatLoads where
  object m ms h := by
    obtain ⟨hm, hms⟩ := List.forall_mem_cons.mp h
    rw [flatLoads, parse_text hm hms]

/-- One element of a signed 64-bit column. -/
def takeInt64 : PyValue → Except ReadError ℤ
  | .str _ => .error .value
  | .int n => if -2 ^ 63 ≤ n ∧ n < 2 ^ 63 then .ok n else .error .overflow

/-- Columns that are filled element by element, in the place of `np.fromiter`. -/
def int64Column : FromIter := fun it => it.mapM fun x => x >>= takeInt64

theorem int64Column_takes : TakesInt64 int64Column where
  column ns col := by
    have htake (n : ℤ) : (Except.ok (.int n) >>= takeInt64 : Except ReadError ℤ) =
        if -2 ^ 63 ≤ n ∧ n < 2 ^ 63 then .ok n else .error .overflow := rfl
    have hfits : (∀ n ∈ ns, -2 ^ 63 ≤ n ∧ n < 2 ^ 63) →
        int64Column (ns.map fun n => .ok (.int n)) = .ok ns := by
      intro h
      rw [int64Column, List.mapM_map]
      refine (mapM_ok fun n hn => ?_).trans (congrArg _ (List.map_id ns))
      exact (htake n).trans (if_pos (h n hn))
    refine ⟨fun h => ?_, fun h => h.1 ▸ hfits h.2⟩
    have hall : ∀ n ∈ ns, -2 ^ 63 ≤ n ∧ n < 2 ^ 63 := by
      intro n hn
      rw [int64Column, List.mapM_map] at h
      obtain ⟨v, hv⟩ := ok_of_mapM h n hn
      rw [Function.comp_apply, htake] at hv
      split_ifs at hv with hn
      exact hn
    rw [hfits hall] at h
    exact ⟨(Except.ok.inj h).symm, hall⟩

/-- A fill between two orders, the trade and the top of the book after it, all read back. -/
theorem readText_recordText_fill :
    let evs : List Event := [.fill ⟨1, 2, 7, 5, 3⟩, .trade ⟨7, 5, 3⟩, .top ⟨0, 9, 0, 6, 4⟩]
    readText flatLoads int64Column (recordText evs) = .ok (logOf evs) ∧
      (logOf evs).fills = [(ascii "seq", [3]), (ascii "maker", [1]), (ascii "taker", [2]),
        (ascii "px", [7]), (ascii "qty", [5])] ∧
      (logOf evs).rejects.map Prod.snd = [[], [], [], [], [], []] := by
  intro evs
  have hread := (readText_recordText_iff flatLoads_exact int64Column_takes evs (by decide)).1.mpr
    (by decide)
  exact ⟨hread, by decide, by decide⟩

/-- The second of two shards stamps from `2^63` on. The first event it publishes is recorded,
and the reader raises on it. -/
theorem readText_recordText_overflow :
    let e : Engine (List Event) 1 2 .byId :=
      .play [] (shardConfig {} 2 1) .zeroed [.submit ⟨1, 0, 5, .bid, .gtc, 0⟩]
    LoadsExact flatLoads ∧ TakesInt64 int64Column ∧ e.pub.map Event.seq = [2 ^ 63 + 1] ∧
      readText flatLoads int64Column (recordText e.pub) = .error .overflow :=
  ⟨flatLoads_exact, int64Column_takes, by decide +kernel, by decide +kernel⟩

end Orderbooks.JsonLog
