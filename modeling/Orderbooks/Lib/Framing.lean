import Orderbooks.Lib.Loop

/-!
# Messages framed on a stream

A decoder looks at what has arrived and finds a message at the front, asks for more,
or gives up. When what it says is final, whatever arrives later, the messages a
receiver extracts do not depend on how the stream was cut into chunks.
-/
namespace Orderbooks.Framing
open Loop

inductive Verdict (β ε : Type) where
  | message (m : β) (n : ℕ)
  | more
  | fault (e : ε)
  deriving DecidableEq, Repr

/-- A decoder whose verdicts, `more` apart, stand whatever follows. -/
structure Decoder (α β ε : Type) where
  decode : List α → Verdict β ε
  idle : decode [] = .more
  bounded : ∀ {w m n}, decode w = .message m n → 0 < n ∧ n ≤ w.length
  stable : ∀ {w}, decode w ≠ .more → ∀ x, decode (w ++ x) = decode w

/-- The receiving end: what has arrived and is not yet used, the messages found, and
the fault that ended the session. -/
structure Session (α β ε : Type) where
  buffer : List α := []
  out : List β := []
  fault : Option ε := none
  deriving DecidableEq, Repr

variable {α β ε : Type}

namespace Decoder

variable (D : Decoder α β ε)

def turn (s : Session α β ε) : Turn (Session α β ε) :=
  match D.decode s.buffer with
  | .message m n => .again { s with buffer := s.buffer.drop n, out := s.out ++ [m] }
  | .more => .done s
  | .fault e => .done { s with buffer := [], fault := some e }

/-- Takes messages off the front until there is none. -/
def drain (s : Session α β ε) : Session α β ε := run D.turn (s.buffer.length + 1) s

/-- A session that has ended takes nothing in. -/
def receive (s : Session α β ε) (chunk : List α) : Session α β ε :=
  match s.fault with
  | some _ => s
  | none => D.drain { s with buffer := s.buffer ++ chunk }

variable {D} {s : Session α β ε} {m : β} {n : ℕ}

theorem receive_open (h : s.fault = none) (chunk : List α) :
    D.receive s chunk = D.drain { s with buffer := s.buffer ++ chunk } := by
  simp only [receive, h]

theorem turn_message (h : D.decode s.buffer = .message m n) :
    D.turn s = .again { s with buffer := s.buffer.drop n, out := s.out ++ [m] } := by
  simp only [turn, h]

theorem turn_shorter {s' : Session α β ε} (h : D.turn s = .again s') :
    s'.buffer.length < s.buffer.length := by
  unfold turn at h
  split at h
  next m n hd =>
    have := D.bounded hd
    obtain rfl := Turn.again.inj h
    simp only [List.length_drop]
    omega
  · cases h
  · cases h

theorem drain_message (h : D.decode s.buffer = .message m n) :
    D.drain s = D.drain { s with buffer := s.buffer.drop n, out := s.out ++ [m] } := by
  have hturn := turn_message h
  have hlt := turn_shorter hturn
  unfold drain
  rw [run_again hturn]
  exact run_fuel (·.buffer.length) (fun _ _ => turn_shorter) _ _ _ hlt (Nat.lt_succ_self _)

theorem drain_more (h : D.decode s.buffer = .more) : D.drain s = s := by
  refine run_done ?_ _
  simp only [turn, h]

theorem drain_fault {e : ε} (h : D.decode s.buffer = .fault e) :
    D.drain s = { s with buffer := [], fault := some e } := by
  refine run_done ?_ _
  simp only [turn, h]

/-- It makes no difference whether a stretch of the stream is there from the start or
arrives after everything before it has been used up. -/
theorem receive_drain (x : List α) : ∀ s : Session α β ε, s.fault = none →
    D.receive (D.drain s) x = D.drain { s with buffer := s.buffer ++ x } := by
  intro s
  induction hlen : s.buffer.length using Nat.strongRecOn generalizing s with
  | _ len ih =>
      intro hopen
      cases h : D.decode s.buffer with
      | message m n =>
          have hx : D.decode (s.buffer ++ x) = .message m n := by
            rw [D.stable (by simp [h]), h]
          have hle := (D.bounded h).2
          have hshort := turn_shorter (turn_message h)
          rw [drain_message h, drain_message (s := { s with buffer := s.buffer ++ x }) hx]
          rw [ih _ (hlen ▸ hshort) { s with buffer := s.buffer.drop n, out := s.out ++ [m] } rfl
            hopen]
          simp only [List.drop_append_of_le_length hle]
      | more =>
          rw [drain_more h, receive_open hopen]
      | fault e =>
          have hx : D.decode (s.buffer ++ x) = .fault e := by
            rw [D.stable (by simp [h]), h]
          rw [drain_fault h, drain_fault (s := { s with buffer := s.buffer ++ x }) hx]
          rfl

theorem foldl_receive (chunks : List (List α)) : ∀ s : Session α β ε, s.fault = none →
    chunks.foldl D.receive (D.drain s) =
      D.drain { s with buffer := s.buffer ++ chunks.flatten } := by
  induction chunks with
  | nil =>
      intro s _
      simp
  | cons chunk chunks ih =>
      intro s hopen
      rw [List.foldl_cons, receive_drain chunk s hopen, List.flatten_cons,
        ih { s with buffer := s.buffer ++ chunk } hopen, List.append_assoc]

/-- Whole messages one after another are taken off one by one. -/
theorem drain_messages (ms : List (List α × β))
    (hms : ∀ a ∈ ms, D.decode a.1 = .message a.2 a.1.length) : ∀ out : List β,
    D.drain { buffer := (ms.map Prod.fst).flatten, out } =
      { out := out ++ ms.map Prod.snd } := by
  induction ms with
  | nil =>
      intro out
      simpa using drain_more D.idle
  | cons a ms ih =>
      intro out
      have ha := hms a List.mem_cons_self
      have hx : D.decode (a.1 ++ (ms.map Prod.fst).flatten) = .message a.2 a.1.length := by
        rw [D.stable (by simp [ha]), ha]
      rw [List.map_cons, List.flatten_cons, drain_message hx]
      simpa using ih (fun b hb => hms b (List.mem_cons_of_mem _ hb)) (out ++ [a.2])

/-- However a stream of whole messages is cut, each is received once and in order, and
nothing is left over. -/
theorem receive_segments (ms : List (List α × β))
    (hms : ∀ a ∈ ms, D.decode a.1 = .message a.2 a.1.length) (chunks : List (List α))
    (hcut : chunks.flatten = (ms.map Prod.fst).flatten) :
    chunks.foldl D.receive {} = { out := ms.map Prod.snd } := by
  have hstart : D.drain {} = {} := drain_more D.idle
  have hfold := foldl_receive (D := D) chunks {} rfl
  rw [hstart, List.nil_append, hcut, drain_messages ms hms] at hfold
  exact hfold

end Decoder

/-! ## Records of one size -/

section Fixed

/-- The whole records of a stream that is cut every `k` items. -/
def records (k : ℕ) (w : List α) : List (List α) :=
  (List.range (w.length / k)).map fun i => (w.drop (k * i)).take k

variable {k : ℕ}

theorem records_of_short {w : List α} (h : w.length < k) : records k w = [] := by
  simp [records, Nat.div_eq_of_lt h]

theorem records_of_le (hk : 0 < k) {w : List α} (h : k ≤ w.length) :
    records k w = w.take k :: records k (w.drop k) := by
  have hlen : w.length / k = (w.length - k) / k + 1 := Nat.div_eq_sub_div hk h
  simp only [records, List.length_drop, List.drop_drop, hlen, List.range_succ_eq_map,
    List.map_cons, List.map_map, Nat.mul_zero, List.drop_zero]
  congr 2
  funext i
  simp only [Function.comp_apply, Nat.succ_eq_add_one, Nat.mul_add, Nat.mul_one, Nat.add_comm]

/-- Items that come later do not change the records there are. -/
theorem records_of_prefix {w w' : List α} (h : w <+: w') :
    records k w = (records k w').take (w.length / k) := by
  obtain ⟨x, rfl⟩ := h
  have hle : w.length / k ≤ (w ++ x).length / k :=
    Nat.div_le_div_right (by rw [List.length_append]; omega)
  rw [records, records, ← List.map_take, List.take_range, Nat.min_eq_left hle]
  refine List.map_congr_left fun i hi => ?_
  have hi' : k * i + k ≤ w.length := by
    have hlt : i + 1 ≤ w.length / k := List.mem_range.mp hi
    calc k * i + k = k * (i + 1) := (Nat.mul_succ k i).symm
      _ ≤ k * (w.length / k) := Nat.mul_le_mul_left k hlt
      _ ≤ w.length := Nat.mul_div_le _ _
  rw [List.drop_append_of_le_length (by omega),
    List.take_append_of_le_length (by rw [List.length_drop]; omega)]

/-- The records of encodings that all take up `k` items. -/
theorem records_flatMap (hk : 0 < k) {f : β → List α} (hf : ∀ b, (f b).length = k) (bs : List β) :
    records k (bs.flatMap f) = bs.map f := by
  induction bs with
  | nil => exact records_of_short (by simpa using hk)
  | cons b bs ih =>
      rw [List.flatMap_cons, records_of_le hk (by rw [List.length_append, hf]; omega),
        List.take_left' (hf b), List.drop_left' (hf b), ih, List.map_cons]

/-- A decoder that waits for `k` items and then reads them. -/
def Decoder.fixed (k : ℕ) (hk : 0 < k) (read : List α → β) : Decoder α β ε where
  decode w := if k ≤ w.length then .message (read (w.take k)) k else .more
  idle := if_neg (by rw [List.length_nil]; omega)
  bounded {w m n} h := by
    split_ifs at h with hle
    obtain ⟨_, rfl⟩ := Verdict.message.inj h
    exact ⟨hk, hle⟩
  stable {w} h x := by
    have hle : k ≤ w.length := by
      by_contra hlt
      simp [hlt] at h
    rw [if_pos hle, if_pos (by rw [List.length_append]; omega),
      List.take_append_of_le_length hle]

variable {hk : 0 < k} {read : List α → β}

theorem Decoder.fixed_message {w : List α} (h : k ≤ w.length) :
    (fixed k hk read : Decoder α β ε).decode w = .message (read (w.take k)) k := if_pos h

theorem Decoder.fixed_more {w : List α} (h : w.length < k) :
    (fixed k hk read : Decoder α β ε).decode w = .more := if_neg (by omega)

/-- The records are read one after another and less than one of them is left. -/
theorem Decoder.drain_fixed : ∀ s : Session α β ε, (fixed k hk read).drain s =
    { s with
      buffer := s.buffer.drop (k * (s.buffer.length / k))
      out := s.out ++ (records k s.buffer).map read } := by
  intro s
  induction hlen : s.buffer.length using Nat.strongRecOn generalizing s with
  | _ len ih =>
      subst hlen
      by_cases h : k ≤ s.buffer.length
      · have hlen : s.buffer.length / k = (s.buffer.length - k) / k + 1 := Nat.div_eq_sub_div hk h
        have hshort : (s.buffer.drop k).length < s.buffer.length := by
          rw [List.length_drop]
          omega
        rw [drain_message (fixed_message h), records_of_le hk h,
          ih _ hshort { s with
            buffer := s.buffer.drop k, out := s.out ++ [read (s.buffer.take k)] } rfl]
        simp only [List.length_drop, List.drop_drop, hlen, Nat.mul_add, Nat.mul_one, Nat.add_comm,
          List.map_cons, List.append_assoc, List.singleton_append]
      · have hlt : s.buffer.length < k := by omega
        rw [drain_more (fixed_more hlt), records_of_short hlt, Nat.div_eq_of_lt hlt]
        simp

end Fixed

end Orderbooks.Framing
