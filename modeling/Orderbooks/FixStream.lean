import Orderbooks.FixFields
import Orderbooks.Lib.Framing
import Orderbooks.Lib.Lists

/-!
# The parser on a stream

A caller that drains a stream appends what arrives, parses, advances by what a message
took and waits when the parse is incomplete. Every other outcome of the parser rests
on bytes that are already there, so it does not matter how the stream was cut.
-/
namespace Orderbooks.Fix
open Decimal Loop

variable {α β : Type} {buf : List UInt8} {pos csStart : ℕ}

/-! ## Verdicts that stand -/

/-- The second outcome is the first, unless that was to wait. -/
def Settled (r r' : Except Error α) : Prop := r = .error .incomplete ∨ r' = r

theorem Settled.bind {r r' : Except Error α} {k k' : α → Except Error β} (h : Settled r r')
    (hk : ∀ a, r = .ok a → Settled (k a) (k' a)) : Settled (r >>= k) (r' >>= k') := by
  rcases h with rfl | rfl
  · exact .inl rfl
  · cases r' with
    | error e => exact .inr rfl
    | ok a => exact hk a rfl

theorem expectField_append (buf : List UInt8) (pos : ℕ) (t : Tag) (x : List UInt8) :
    Settled (expectField buf pos t) (expectField (buf ++ x) pos t) := by
  by_cases hmore : readField buf pos = .needMore
  · left
    rw [expectField, hmore]
  · right
    rw [expectField, expectField, readField_append hmore]

theorem envelope_append (buf x : List UInt8) : Settled (envelope buf) (envelope (buf ++ x)) := by
  unfold envelope
  refine (expectField_append buf 0 _ x).bind fun ⟨dialect, pos⟩ _ => ?_
  dsimp only
  split_ifs
  · exact .inr rfl
  refine (expectField_append buf pos _ x).bind fun ⟨value, bodyStart⟩ _ => ?_
  refine Settled.bind (.inr rfl) fun bodyLen _ => ?_
  have hle : buf.length ≤ (buf ++ x).length := by simp
  by_cases hlen : buf.length < bodyLen
  · exact .inl (if_pos hlen)
  by_cases htotal : buf.length < bodyStart + bodyLen + checksumFieldWidth
  · exact .inl ((if_neg hlen).trans (if_pos htotal))
  · right
    rw [if_neg hlen, if_neg htotal, if_neg (by omega), if_neg (by omega)]

theorem expectField_ok {t : Tag} {v : List UInt8} {pos' : ℕ}
    (h : expectField buf pos t = .ok (v, pos')) : ∃ (g : FieldText) (rest : List UInt8),
      buf.drop pos = g.bytes ++ rest ∧ g.field.tag = tagNumber t ∧ v = g.value ∧
      pos' = pos + g.bytes.length := by
  unfold expectField at h
  split at h
  · cases h
  · cases h
  next f end' hread =>
    split_ifs at h with htag
    obtain ⟨rfl, rfl⟩ := Prod.mk.inj (Except.ok.inj h)
    obtain ⟨g, rest, heq, rfl, rfl⟩ := readField_ok hread
    exact ⟨g, rest, heq, not_not.mp htag, rfl, rfl⟩

theorem toUint_eq_some {limit x : ℕ} {v : List UInt8} :
    toUint limit v = some x ↔ v ≠ [] ∧ Digits v ∧ numeral v < limit ∧ x = numeral v := by
  rw [← fromChars_all]
  unfold toUint
  by_cases hv : v = []
  · subst hv
    simp [fromChars]
  · rw [if_neg hv]
    split
    next y heq => simp [heq]
    next hne => exact iff_of_false (Option.some_ne_none x).symm fun h => hne _ h

theorem toBodyLength_ok {v : List UInt8} {bodyLen : ℕ} : toBodyLength v = .ok bodyLen ↔
    v ≠ [] ∧ Digits v ∧ numeral v ≤ maxMessageSize ∧ bodyLen = numeral v := by
  unfold toBodyLength
  cases h : toUint (2 ^ 64) v with
  | none =>
      refine iff_of_false nofun fun ⟨hne, hd, hle, _⟩ => ?_
      have hlt : numeral v < 2 ^ 64 := Nat.lt_of_le_of_lt hle (by decide)
      rw [toUint_eq_some.mpr ⟨hne, hd, hlt, rfl⟩] at h
      cases h
  | some x =>
      obtain ⟨hne, hd, -, rfl⟩ := toUint_eq_some.mp h
      dsimp only
      split_ifs with hcap
      · exact iff_of_false nofun fun h => absurd h.2.2.1 (Nat.not_le.mpr hcap)
      · simp [hne, hd, Nat.not_lt.mp hcap, eq_comm]

theorem expectField_text {g : FieldText} {t : Tag} {rest : List UInt8}
    (hdrop : buf.drop pos = g.bytes ++ rest) (h : g.field.tag = tagNumber t) :
    expectField buf pos t = .ok (g.value, pos + g.bytes.length) := by
  rw [expectField, readField_text hdrop]
  exact if_neg (not_not.mpr h)

/-- An envelope is settled by how much follows its two fields. -/
theorem envelope_fields {head len : FieldText} {rest : List UInt8}
    (hbuf : buf = head.bytes ++ (len.bytes ++ rest))
    (htag : head.field.tag = tagNumber .beginString) (hvalue : head.value = ascii "FIX.4.4")
    (hlentag : len.field.tag = tagNumber .bodyLength) (hne : len.value ≠ [])
    (hd : Digits len.value) (hle : numeral len.value ≤ maxMessageSize) :
    envelope buf =
      if rest.length < numeral len.value + checksumFieldWidth then .error .incomplete
      else .ok (head.bytes.length + len.bytes.length,
        head.bytes.length + len.bytes.length + numeral len.value) := by
  have hhead : expectField buf 0 .beginString = .ok (head.value, 0 + head.bytes.length) :=
    expectField_text hbuf htag
  have hlen : expectField buf head.bytes.length .bodyLength =
      .ok (len.value, head.bytes.length + len.bytes.length) := by
    have hdrop : buf.drop head.bytes.length = len.bytes ++ rest := by rw [hbuf, List.drop_left]
    exact expectField_text hdrop hlentag
  have hbody := toBodyLength_ok.mpr ⟨hne, hd, hle, rfl⟩
  have htotal : buf.length = head.bytes.length + len.bytes.length + rest.length := by
    rw [hbuf, List.length_append, List.length_append, Nat.add_assoc]
  unfold envelope
  rw [hhead, Nat.zero_add]
  change (if head.value ≠ ascii "FIX.4.4" then _ else _) = _
  rw [if_neg (not_not.mpr hvalue)]
  rw [hlen]
  change (toBodyLength len.value >>= _) = _
  rw [hbody]
  change (if _ then _ else if _ then _ else _) = _
  split_ifs <;> first | rfl | omega

/-- What an envelope that is all there looks like. -/
theorem envelope_ok {bodyStart : ℕ} (h : envelope buf = .ok (bodyStart, csStart)) :
    ∃ (head len : FieldText) (rest : List UInt8), buf = head.bytes ++ (len.bytes ++ rest) ∧
      head.field.tag = tagNumber .beginString ∧ head.value = ascii "FIX.4.4" ∧
      len.field.tag = tagNumber .bodyLength ∧ len.value ≠ [] ∧ Digits len.value ∧
      numeral len.value ≤ maxMessageSize ∧ bodyStart = head.bytes.length + len.bytes.length ∧
      csStart = bodyStart + numeral len.value ∧ csStart + checksumFieldWidth ≤ buf.length := by
  unfold envelope at h
  obtain ⟨⟨dialect, pos⟩, hhead, h⟩ := bind_eq_ok.mp h
  obtain ⟨head, rest, hbuf, htag, rfl, rfl⟩ := expectField_ok hhead
  dsimp only at h
  split_ifs at h with hfix
  obtain ⟨⟨value, start⟩, hlen, h⟩ := bind_eq_ok.mp h
  obtain ⟨len, rest', hrest, hlentag, rfl, rfl⟩ := expectField_ok hlen
  obtain ⟨bodyLen, hbody, h⟩ := bind_eq_ok.mp h
  obtain ⟨hne, hd, hle, rfl⟩ := toBodyLength_ok.mp hbody
  dsimp only at h
  split_ifs at h with hshort hwhole
  obtain ⟨rfl, rfl⟩ := Prod.mk.inj (Except.ok.inj h)
  rw [List.drop_zero] at hbuf
  have hrest' : rest = len.bytes ++ rest' := by
    rw [← hrest, hbuf, Nat.zero_add, List.drop_left]
  refine ⟨head, len, rest', by rw [hbuf, hrest'], htag, not_not.mp hfix, hlentag, hne, hd, hle,
    by omega, rfl, by omega⟩

theorem checksumTag_length : checksumTag.length = 3 := rfl

theorem checksumFieldWidth_eq : checksumFieldWidth = 7 := rfl

theorem verifyCheckSum_append (h : csStart + checksumFieldWidth ≤ buf.length) (x : List UInt8) :
    verifyCheckSum (buf ++ x) csStart = verifyCheckSum buf csStart := by
  have hslice : ∀ k n, k + n ≤ buf.length → ((buf ++ x).drop k).take n = (buf.drop k).take n := by
    intro k n hk
    rw [List.drop_append_of_le_length (by omega), List.take_append_of_le_length]
    rw [List.length_drop]
    omega
  have htag := checksumTag_length
  have hdigits : checksumDigits = 3 := rfl
  have hwidth := checksumFieldWidth_eq
  unfold verifyCheckSum
  dsimp only
  rw [hslice csStart _ (by omega), hslice (csStart + checksumTag.length) _ (by omega),
    List.take_append_of_le_length (by omega), List.getElem?_append_left (by omega)]

/-- A parse that does not ask for more is not changed by what comes after. -/
theorem parseMessage_append (buf x : List UInt8) :
    Settled (parseMessage buf) (parseMessage (buf ++ x)) := by
  unfold parseMessage
  refine (envelope_append buf x).bind fun ⟨bodyStart, csStart⟩ henv => ?_
  obtain ⟨_, _, _, _, _, _, _, _, _, _, _, _, hle⟩ := envelope_ok henv
  right
  dsimp only
  rw [verifyCheckSum_append hle, List.take_append_of_le_length (by omega)]

/-! ## Which errors a stage gives -/

/-- Every error of the outcome is one of `S`. -/
def Blames (S : Error → Prop) (r : Except Error α) : Prop := ∀ e, r = .error e → S e

section Blames
variable {S : Error → Prop}

theorem Blames.ok (a : α) : Blames S (.ok a : Except Error α) := nofun

theorem Blames.error {e : Error} (h : S e) : Blames S (.error e : Except Error α) := by
  rintro _ ⟨⟩
  exact h

theorem Blames.bind {r : Except Error α} {k : α → Except Error β} (h : Blames S r)
    (hk : ∀ a, r = .ok a → Blames S (k a)) : Blames S (r >>= k) := by
  cases r with
  | error e => exact .error (h e rfl)
  | ok a => exact hk a rfl

theorem Blames.map {r : Except Error α} (h : Blames S r) (f : α → β) : Blames S (r.map f) := by
  cases r with
  | error e => exact .error (h e rfl)
  | ok a => exact .ok (f a)

end Blames

/-- An error that says what is wrong with the bytes. -/
def Error.Final (e : Error) : Prop := e ≠ .ok ∧ e ≠ .incomplete

instance : DecidablePred Error.Final := fun _ => inferInstanceAs (Decidable (_ ∧ _))

theorem verifyCheckSum_final (buf : List UInt8) (csStart : ℕ) :
    Blames Error.Final (verifyCheckSum buf csStart) := by
  unfold verifyCheckSum
  dsimp only
  split_ifs
  · exact .error (by decide)
  · split
    · exact .error (by decide)
    · split_ifs
      · exact .error (by decide)
      · exact .ok _

theorem orBadValue_final (o : Option α) : Blames Error.Final (orBadValue o) := by
  cases o with
  | none => exact .error (by decide)
  | some a => exact .ok a

theorem take_final (a : OrderFields) (bf : Field) : Blames Error.Final (a.take bf) := by
  unfold OrderFields.take
  split_ifs
  all_goals first
    | exact (orBadValue_final _).map _
    | exact .ok a

theorem readFields_final (body : List UInt8) (csStart bpos : ℕ) :
    Blames Error.Final (readFields body csStart bpos) := by
  refine run_invariant (fun c : BodyScan => Blames Error.Final c.read) (fun c hc => ?_) _ _ (.ok _)
  unfold bodyTurn
  split
  · exact hc
  · split_ifs
    · split
      · exact take_final _ _
      · exact .error (by decide)
      · exact .error (by decide)
    · exact hc

theorem buildCommand_final (msgType : List UInt8) (a : OrderFields) :
    Blames Error.Final (buildCommand msgType a) := by
  unfold buildCommand
  split_ifs
  all_goals first
    | exact .ok _
    | exact .error (by decide)

theorem parseBody_final (body : List UInt8) (bodyStart csStart : ℕ) :
    Blames Error.Final (parseBody body bodyStart csStart) := by
  unfold parseBody
  split
  · exact .error (by decide)
  · exact .error (by decide)
  · split_ifs
    · exact .error (by decide)
    · exact (readFields_final _ _ _).bind fun a _ => buildCommand_final _ a

theorem toBodyLength_final (v : List UInt8) : Blames Error.Final (toBodyLength v) := by
  unfold toBodyLength
  split
  · exact .error (by decide)
  · split_ifs
    · exact .error (by decide)
    · exact .ok _

theorem expectField_blames (buf : List UInt8) (pos : ℕ) (t : Tag) :
    Blames (· ≠ .ok) (expectField buf pos t) := by
  unfold expectField
  split
  · exact .error (by decide)
  · exact .error (by decide)
  · split_ifs
    · exact .error (by decide)
    · exact .ok _

theorem envelope_blames (buf : List UInt8) : Blames (· ≠ .ok) (envelope buf) := by
  unfold envelope
  refine (expectField_blames _ _ _).bind fun ⟨dialect, pos⟩ _ => ?_
  dsimp only
  split_ifs
  · exact .error (by decide)
  refine (expectField_blames _ _ _).bind fun ⟨value, bodyStart⟩ _ => ?_
  refine Blames.bind (fun e he => (toBodyLength_final _ e he).1) fun bodyLen _ => ?_
  dsimp only
  split_ifs
  · exact .error (by decide)
  · exact .error (by decide)
  · exact .ok _

/-- Once the frame is all there, nothing waits. -/
theorem parseMessage_after (h : envelope buf = .ok (pos, csStart)) :
    Blames Error.Final (parseMessage buf) := by
  unfold parseMessage
  rw [h]
  refine (verifyCheckSum_final _ _).bind fun _ _ => ?_
  exact (parseBody_final _ _ _).bind fun _ _ => .ok _

theorem parseMessage_blames (buf : List UInt8) : Blames (· ≠ .ok) (parseMessage buf) := by
  cases h : envelope buf with
  | ok a => exact fun e he => (parseMessage_after h e he).1
  | error e =>
      unfold parseMessage
      rw [h]
      exact .error (envelope_blames buf e h)

theorem parse_incomplete_iff : (parse buf).err = .incomplete ↔
    parseMessage buf = .error .incomplete := by
  unfold parse
  cases parseMessage buf with
  | error e => simp
  | ok a => simp

/-- A parse that is not waiting for more gives the same result on every longer buffer. -/
theorem parse_append (h : (parse buf).err ≠ .incomplete) (x : List UInt8) :
    parse (buf ++ x) = parse buf := by
  rcases parseMessage_append buf x with hmore | hsame
  · exact absurd (parse_incomplete_iff.mpr hmore) h
  · rw [parse, parse, hsame]

theorem parse_ok {r : Command × ℕ} :
    parse buf = { err := .ok, cmd := r.1, consumed := r.2 } ↔ parseMessage buf = .ok r := by
  unfold parse
  cases h : parseMessage buf with
  | error e =>
      have := parseMessage_blames buf e h
      simp [this]
  | ok a =>
      obtain ⟨cmd, n⟩ := a
      simp [Prod.ext_iff]

/-- A message takes at least its CheckSum field and no more than there is. -/
theorem parseMessage_consumed {cmd : Command} {n : ℕ} (h : parseMessage buf = .ok (cmd, n)) :
    0 < n ∧ n ≤ buf.length := by
  unfold parseMessage at h
  obtain ⟨⟨bodyStart, csStart⟩, henv, h⟩ := bind_eq_ok.mp h
  obtain ⟨_, _, h⟩ := bind_eq_ok.mp h
  obtain ⟨cmd', _, h⟩ := bind_eq_ok.mp h
  obtain ⟨-, rfl⟩ := Prod.mk.inj (Except.ok.inj h)
  obtain ⟨_, _, _, _, _, _, _, _, _, _, _, _, hle⟩ := envelope_ok henv
  exact ⟨Nat.lt_of_lt_of_le (by decide) (Nat.le_add_left checksumFieldWidth csStart), hle⟩

/-! ## The caller -/

def Result.verdict (r : Result) : Framing.Verdict Command Error :=
  match r.err with
  | .ok => .message r.cmd r.consumed
  | .incomplete => .more
  | e => .fault e

theorem verdict_more : (parse buf).verdict = .more ↔ (parse buf).err = .incomplete := by
  unfold Result.verdict
  split <;> simp_all

theorem verdict_message {cmd : Command} {n : ℕ} :
    (parse buf).verdict = .message cmd n ↔ parse buf = { err := .ok, cmd, consumed := n } := by
  unfold Result.verdict
  cases h : parse buf with
  | mk err c k => cases err <;> simp

/-- The parser as the decoder of a stream. -/
def decoder : Framing.Decoder UInt8 Command Error where
  decode buf := (parse buf).verdict
  idle := rfl
  bounded h := parseMessage_consumed (parse_ok.mp (verdict_message.mp h))
  stable h x := by rw [parse_append (mt verdict_more.mpr h)]

/-- Only the wait for more depends on where a stream was cut: every other result stands on
every longer buffer, and a stream of messages gives their commands however it arrives. -/
theorem parse_segments :
    (∀ buf, (parse buf).err ≠ .incomplete → ∀ x, parse (buf ++ x) = parse buf) ∧
    ∀ msgs : List (List UInt8),
      (∀ msg ∈ msgs, (parse msg).err = .ok ∧ (parse msg).consumed = msg.length) →
      ∀ chunks : List (List UInt8), chunks.flatten = msgs.flatten →
        chunks.foldl decoder.receive {} = { out := msgs.map fun msg => (parse msg).cmd } := by
  refine ⟨fun buf h => parse_append h, fun msgs hmsgs chunks hcut => ?_⟩
  have hall := decoder.receive_segments (msgs.map fun msg => (msg, (parse msg).cmd))
    (fun a ha => ?_) chunks (by simpa [Function.comp_def] using hcut)
  · simpa [Function.comp_def] using hall
  · obtain ⟨msg, hmem, rfl⟩ := List.mem_map.mp ha
    obtain ⟨hok, hlen⟩ := hmsgs msg hmem
    refine verdict_message.mpr ?_
    rw [← hok, ← hlen]

/-- Two cancels that arrive in three pieces, cut inside the envelope and inside the body. -/
theorem parse_segments_two_cancels :
    let msg := ascii "8=FIX.4.4\x019=10\x0135=F\x0141=7\x0110=191\x01"
    parse msg = { err := .ok, cmd := .cancel { id := 7 }, consumed := msg.length } ∧
    [msg.take 5, msg.drop 5 ++ msg.take 20, msg.drop 20].foldl decoder.receive {} =
      { out := [.cancel { id := 7 }, .cancel { id := 7 }] } := by
  intro msg
  have hmsg : parse msg = { err := .ok, cmd := .cancel { id := 7 }, consumed := msg.length } := by
    decide +kernel
  refine ⟨hmsg, ?_⟩
  have hall := parse_segments.2 [msg, msg] (by simp [hmsg])
    [msg.take 5, msg.drop 5 ++ msg.take 20, msg.drop 20] (by decide +kernel)
  simpa [hmsg] using hall

/-! ## How long a caller may wait -/

namespace FieldText

/-- The SOH of a field is its last byte. -/
theorem soh_notMem_take {g : FieldText} {k : ℕ} (h : k < g.bytes.length) :
    soh ∉ g.bytes.take k := by
  have hbytes : g.bytes = (g.digits ++ equals :: g.value) ++ [soh] := by simp [bytes]
  intro hmem
  rw [hbytes, List.take_append_of_le_length (by simp [bytes_length] at h ⊢; omega)] at hmem
  have hmem := List.mem_of_mem_take hmem
  rw [List.mem_append, List.mem_cons] at hmem
  rcases hmem with hmem | hmem | hmem
  · exact soh_notMem_digits g.numeric hmem
  · exact absurd hmem (by decide)
  · exact g.plain hmem

theorem length_le_of_soh {g : FieldText} {rest : List UInt8} {k : ℕ}
    (h : soh ∈ (g.bytes ++ rest).take k) : g.bytes.length ≤ k := by
  by_contra hlt
  rw [List.take_append_of_le_length (by omega)] at h
  exact soh_notMem_take (by omega) h

theorem count_soh (g : FieldText) : g.bytes.count soh = 1 := by
  have hdigits : g.digits.count soh = 0 := List.count_eq_zero.mpr (soh_notMem_digits g.numeric)
  have hvalue : g.value.count soh = 0 := List.count_eq_zero.mpr g.plain
  have hne : equals ≠ soh := by decide
  simp [bytes, hdigits, hvalue, hne]

end FieldText

theorem expectField_incomplete {t : Tag} :
    expectField buf pos t = .error .incomplete ↔ Unfinished (buf.drop pos) := by
  rw [← readField_needMore]
  unfold expectField
  cases readField buf pos with
  | needMore => simp
  | bad => simp
  | ok a => by_cases htag : a.1.tag = tagNumber t <;> simp [htag]

/-- The two fields of the envelope are begun as they should, and are not ended, or state a length
that goes past what has arrived. -/
inductive Stalls (buf : List UInt8) : Prop
  | beginString : Unfinished buf → Stalls buf
  | bodyLength {head : FieldText} {rest : List UInt8} : buf = head.bytes ++ rest →
      head.field.tag = tagNumber .beginString → head.value = ascii "FIX.4.4" →
      Unfinished rest → Stalls buf
  | body {head len : FieldText} {rest : List UInt8} : buf = head.bytes ++ (len.bytes ++ rest) →
      head.field.tag = tagNumber .beginString → head.value = ascii "FIX.4.4" →
      len.field.tag = tagNumber .bodyLength → len.value ≠ [] → Digits len.value →
      numeral len.value ≤ maxMessageSize →
      rest.length < numeral len.value + checksumFieldWidth → Stalls buf

theorem Stalls.envelope_eq (h : Stalls buf) : envelope buf = .error .incomplete := by
  cases h with
  | beginString hopen =>
      have hwait : expectField buf 0 .beginString = .error .incomplete :=
        expectField_incomplete.mpr hopen
      rw [envelope, hwait]
      rfl
  | @bodyLength head rest hbuf htag hvalue hopen =>
      have hwait : expectField buf (0 + head.bytes.length) .bodyLength = .error .incomplete := by
        rw [expectField_incomplete, hbuf, Nat.zero_add, List.drop_left]
        exact hopen
      have hhead : expectField buf 0 .beginString = .ok (head.value, 0 + head.bytes.length) :=
        expectField_text hbuf htag
      rw [envelope, hhead]
      change (if head.value ≠ ascii "FIX.4.4" then _ else _) = _
      rw [if_neg (not_not.mpr hvalue), hwait]
      rfl
  | body hbuf htag hvalue hlentag hne hd hle hshort =>
      rw [envelope_fields hbuf htag hvalue hlentag hne hd hle, if_pos hshort]

theorem stalls_of_envelope (h : envelope buf = .error .incomplete) : Stalls buf := by
  cases hhead : expectField buf 0 .beginString with
  | error e =>
      rw [envelope, hhead] at h
      obtain rfl := Except.error.inj h
      exact .beginString (expectField_incomplete.mp hhead)
  | ok a =>
      obtain ⟨dialect, pos⟩ := a
      obtain ⟨head, rest, hbuf, htag, rfl, rfl⟩ := expectField_ok hhead
      rw [List.drop_zero] at hbuf
      by_cases hfix : head.value = ascii "FIX.4.4"
      · have hrest : buf.drop (0 + head.bytes.length) = rest := by
          rw [hbuf, Nat.zero_add, List.drop_left]
        cases hlen : expectField buf (0 + head.bytes.length) .bodyLength with
        | error e =>
            rw [envelope, hhead] at h
            change (if head.value ≠ ascii "FIX.4.4" then _ else _) = _ at h
            rw [if_neg (not_not.mpr hfix), hlen] at h
            obtain rfl := Except.error.inj h
            exact .bodyLength hbuf htag hfix (hrest ▸ expectField_incomplete.mp hlen)
        | ok a =>
            obtain ⟨value, bodyStart⟩ := a
            obtain ⟨len, rest', hrest', hlentag, rfl, rfl⟩ := expectField_ok hlen
            rw [hrest] at hrest'
            subst hrest'
            cases hbody : toBodyLength len.value with
            | error e =>
                rw [envelope, hhead] at h
                change (if head.value ≠ ascii "FIX.4.4" then _ else _) = _ at h
                rw [if_neg (not_not.mpr hfix), hlen] at h
                change (toBodyLength len.value >>= _) = _ at h
                rw [hbody] at h
                obtain rfl := Except.error.inj h
                exact absurd rfl (toBodyLength_final _ _ hbody).2
            | ok bodyLen =>
                obtain ⟨hne, hd, hle, -⟩ := toBodyLength_ok.mp hbody
                rw [envelope_fields hbuf htag hfix hlentag hne hd hle] at h
                split_ifs at h with hshort
                exact .body hbuf htag hfix hlentag hne hd hle hshort
      · rw [envelope, hhead] at h
        change (if head.value ≠ ascii "FIX.4.4" then _ else _) = _ at h
        rw [if_pos hfix] at h
        cases h

/-- A buffer in which both fields end within the first `k` bytes only stalls for its body. -/
theorem Stalls.length_lt (h : Stalls buf) {k : ℕ} (hsoh : 2 ≤ (buf.take k).count soh) :
    buf.length < k + maxMessageSize + checksumFieldWidth := by
  have hcount : 2 ≤ buf.count soh := hsoh.trans ((List.take_sublist k buf).count_le soh)
  cases h with
  | beginString hopen => simp [List.count_eq_zero.mpr hopen.soh_notMem] at hcount
  | @bodyLength head rest hbuf _ _ hopen =>
      simp [hbuf, head.count_soh, List.count_eq_zero.mpr hopen.soh_notMem] at hcount
  | @body head len rest hbuf _ _ _ _ _ hle hshort =>
      have hhead : head.bytes.length ≤ k := by
        have hmem : soh ∈ buf.take k := List.count_pos_iff.mp (by omega)
        rw [hbuf] at hmem
        exact FieldText.length_le_of_soh hmem
      have hlen : len.bytes.length ≤ k - head.bytes.length := by
        rw [hbuf, List.take_append, List.take_of_length_le hhead, List.count_append,
          head.count_soh] at hsoh
        have hmem : soh ∈ (len.bytes ++ rest).take (k - head.bytes.length) :=
          List.count_pos_iff.mp (by omega)
        exact FieldText.length_le_of_soh hmem
      have htotal : buf.length = head.bytes.length + (len.bytes.length + rest.length) := by
        rw [hbuf, List.length_append, List.length_append]
      omega

/-- A buffer is waited on exactly when its envelope stalls, however long the buffer is. One with
room for the longest message does not stall if the two fields end within 121 bytes. -/
theorem parse_decides_iff (buf : List UInt8) :
    ((parse buf).err ≠ .incomplete ↔ ¬Stalls buf) ∧
      (maxMessageSize + 128 ≤ buf.length → 2 ≤ (buf.take 121).count soh → ¬Stalls buf) := by
  constructor
  · rw [ne_eq, parse_incomplete_iff, not_iff_not]
    constructor
    · intro hwait
      cases henv : envelope buf with
      | ok a => exact absurd rfl (parseMessage_after henv _ hwait).2
      | error e =>
          rw [parseMessage, henv] at hwait
          obtain rfl := Except.error.inj hwait
          exact stalls_of_envelope henv
    · intro hstalls
      rw [parseMessage, hstalls.envelope_eq]
      rfl
  · intro hlen hsoh hstalls
    have := hstalls.length_lt hsoh
    have := checksumFieldWidth_eq
    omega

/-- A heartbeat and 4300 bytes of the next message. -/
theorem parse_decides_unsupported :
    let buf := ascii "8=FIX.4.4\x019=5\x0135=0\x0110=163\x01" ++ List.replicate 4300 65
    2 ≤ (buf.take 121).count soh ∧ (parse buf).err ≠ .incomplete := by
  intro buf
  have hsoh : 2 ≤ (buf.take 121).count soh := by decide +kernel
  have hlen : maxMessageSize + 128 ≤ buf.length := by
    rw [List.length_append, List.length_replicate]
    decide
  obtain ⟨hiff, hmet⟩ := parse_decides_iff buf
  exact ⟨hsoh, hiff.mpr (hmet hlen hsoh)⟩

/-- A BeginString that never ends is waited on however much of it arrives. -/
theorem parse_waits (n : ℕ) : (parse (ascii "8=" ++ List.replicate n 65)).err = .incomplete := by
  have hdrop : (ascii "8=" ++ List.replicate n 65).drop 0 = [56] ++ equals :: List.replicate n 65 :=
    rfl
  have hread := readField_open hdrop (by decide) (by decide) (by decide) fun hmem =>
    absurd (List.eq_of_mem_replicate hmem) (by decide)
  rw [parse_incomplete_iff, parseMessage, envelope, expectField, hread]
  rfl

theorem parse_waits_long :
    let buf := ascii "8=" ++ List.replicate 4300 65
    maxMessageSize + 128 ≤ buf.length ∧ (parse buf).err = .incomplete := by
  refine ⟨?_, parse_waits 4300⟩
  rw [List.length_append, List.length_replicate]
  decide

end Orderbooks.Fix
