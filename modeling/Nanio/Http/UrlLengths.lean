/-
Nanio.Http.UrlLengths — the buffers of `io_url_decode` and `io_url_encode`.

`io_url_decoded_length` takes off two bytes for every `%`, whether or not
it opens an escape, so it is too small as soon as one does not
(`decodedLengthServes_iff`). `io_url_encoded_length` is right, but the
encoder asks for one free place before it writes the three bytes of an
escape: whether that goes well depends on where each escape starts
(`encodesWithin_iff`). Both functions narrow the length of the text to 32
bits.
-/
import Nanio.Http.UrlDecode

namespace Nanio.Http

open Nanio.Lib

/-! ## §1 The two length functions -/

/-- `io_url_decoded_length`: the length of the text as an `unsigned`, the
rest of the sum as a `size_t`. -/
def ioUrlDecodedLength (encodedUrl : Text) : Nat :=
  toUnsignedLong (toUnsigned encodedUrl.length - 2 * (encodedUrl.count percent : Int) + 1)

/-- `io_url_encoded_length`. -/
def ioUrlEncodedLength (url : Text) : Nat :=
  toUnsignedLong (toUnsigned url.length + 2 * (url.countP isUrlEncodeChar : Int) + 1)

/-! ## §2 Decoding into a buffer of the computed length -/

/-- `io_url_decoded_length` is large enough for what the decoder produces
without a limit, such a buffer can exist beside the text, decoding into it
gives the same, and for a text with valid escapes only it is exact. -/
def DecodedLengthServes (text : Text) : Prop :=
  ∃ out : Text,
    (∀ size, text.length < size → ioUrlDecode size text = .ok out) ∧
    out.length + 1 ≤ ioUrlDecodedLength text ∧
    text.length + 1 + ioUrlDecodedLength text ≤ 2 ^ 63 ∧
    ioUrlDecode (ioUrlDecodedLength text) text = .ok out ∧
    (AllOpen percent hexEscape text → ioUrlDecodedLength text = out.length + 1)

theorem ioUrlDecode_of_room {text : Text} (hlast : text.getLast? ≠ some percent) {size : Nat}
    (hsize : (looseDecoded text).length < size) :
    ioUrlDecode size text = .ok (looseDecoded text) := by
  have hne : size ≠ 0 := by omega
  rw [ioUrlDecode, if_neg hne, urlDecodeLoop_eq, decodeOutcome, if_neg (by simp [hlast]),
    List.take_of_length_le (by omega)]

/-- With room to spare a result means that the text does not end in `%`. -/
theorem eq_looseDecoded_of_ok {text out : Text} {size : Nat} (hsize : text.length < size)
    (h : ioUrlDecode size text = .ok out) :
    text.getLast? ≠ some percent ∧ out = looseDecoded text := by
  have hne : size ≠ 0 := by omega
  have hlen := length_looseDecoded text
  have hroom : (looseDecoded text).length ≤ size - 1 := by omega
  rw [ioUrlDecode, if_neg hne, urlDecodeLoop_eq, decodeOutcome, List.take_of_length_le hroom] at h
  by_cases hlast : text.getLast? = some percent
  · simp [hlast, hroom] at h
  · simp only [hlast, false_and, if_false, Except.ok.injEq] at h
    exact ⟨hlast, h.symm⟩

theorem AllOpen.getLast_ne {esc : UInt8 → UInt8 → Option UInt8} {text : Text}
    (h : AllOpen percent esc text) : text.getLast? ≠ some percent := by
  intro hlast
  obtain ⟨v, rfl⟩ := List.getLast?_eq_some_iff.mp hlast
  have := h v [] rfl
  simp [opensEscape] at this

/-- The computed length serves exactly the texts, shorter than 2 ^ 32, in
which every `%` opens an escape that the decoder takes. -/
theorem decodedLengthServes_iff (text : Text) :
    DecodedLengthServes text ↔ AllOpen percent numEscape text ∧ text.length < 2 ^ 32 := by
  have hlen := length_looseDecoded text
  have hescapes : escapeCount percent numEscape text ≤ text.count percent :=
    escapeCount_le_count text
  have hcount : text.count percent ≤ text.length := List.count_le_length
  rw [← escapeCount_eq_count_iff]
  constructor
  · rintro ⟨out, hout, hle, hmemory, -, -⟩
    obtain ⟨-, rfl⟩ :=
      eq_looseDecoded_of_ok (Nat.lt_succ_self text.length) (hout _ (Nat.lt_succ_self _))
    -- a length that wrapped around is too large for memory, so this one did not
    unfold ioUrlDecodedLength toUnsignedLong toUnsigned at hle hmemory
    omega
  · rintro ⟨hall, h32⟩
    have hlast := AllOpen.getLast_ne ((escapeCount_eq_count_iff text).mp hall)
    have hexact : ioUrlDecodedLength text = (looseDecoded text).length + 1 := by
      unfold ioUrlDecodedLength toUnsignedLong toUnsigned
      omega
    refine ⟨looseDecoded text, fun size hsize => ioUrlDecode_of_room hlast (by omega), hexact.ge,
      by omega, ?_, fun _ => hexact⟩
    rw [hexact]
    exact ioUrlDecode_of_room hlast (Nat.lt_succ_self _)

/-- A `%` that opens no escape is copied with the two characters behind it,
and there is room for two of the three. -/
theorem decodedLength_percent_zz :
    ioUrlDecodedLength (lit ['%', 'z', 'z']) = 2 ∧
    ioUrlDecode 100 (lit ['%', 'z', 'z']) = .ok (lit ['%', 'z', 'z']) ∧
    ioUrlDecode 2 (lit ['%', 'z', 'z']) = .ok (lit ['%']) ∧
    ¬ DecodedLengthServes (lit ['%', 'z', 'z']) := by
  have hlength : ioUrlDecodedLength (lit ['%', 'z', 'z']) = 2 := by decide
  refine ⟨hlength, rfl, rfl, ?_⟩
  rintro ⟨out, hout, hle, -⟩
  have h : ioUrlDecode 4 (lit ['%', 'z', 'z']) = .ok (lit ['%', 'z', 'z']) := rfl
  rw [hout 4 (by decide), Except.ok.injEq] at h
  rw [h, hlength] at hle
  exact absurd hle (by decide)

/-! ## §3 The room of the encoder -/

/-- Where the encoder stands in the output once it has written `pre`. -/
def outPos (pre : Text) : Nat := pre.length + 2 * pre.countP isUrlEncodeChar

theorem length_escape (c : UInt8) : (escape c).length = if isUrlEncodeChar c then 3 else 1 := by
  unfold escape
  split <;> rfl

theorem outPos_cons (c : UInt8) (pre : Text) :
    outPos (c :: pre) = (escape c).length + outPos pre := by
  rw [outPos, outPos, List.length_cons, List.countP_cons, length_escape]
  split <;> omega

theorem length_escaped (s : Text) : (escaped s).length = outPos s := by
  induction s with
  | nil => rfl
  | cons c s ih => rw [outPos_cons, ← ih, escaped, List.flatMap_cons, List.length_append, escaped]

/-- No escape of `s` starts one or two places before the end of the room. -/
def EscapesClear (room : Nat) (s : Text) : Prop :=
  ∀ pre c post, s = pre ++ c :: post → isUrlEncodeChar c →
    outPos pre + 1 ≠ room ∧ outPos pre + 2 ≠ room

theorem escapesClear_cons {c : UInt8} {s : Text} {room : Nat} (hroom : (escape c).length ≤ room) :
    EscapesClear room (c :: s) ↔ EscapesClear (room - (escape c).length) s := by
  constructor
  · intro h pre d post hs hd
    have := h (c :: pre) d post (by simp [hs]) hd
    rw [outPos_cons] at this
    omega
  · intro h pre d post hs hd
    cases pre with
    | nil =>
      simp only [List.nil_append, List.cons.injEq] at hs
      rw [← hs.1] at hd
      rw [length_escape, if_pos hd] at hroom
      simp only [outPos, List.length_nil, List.countP_nil]
      omega
    | cons e pre =>
      simp only [List.cons_append, List.cons.injEq] at hs
      have := h pre d post hs.2 hd
      rw [← hs.1, outPos_cons]
      omega

/-- The loop stays in its room exactly when no escape runs over its end. -/
theorem urlEncodeLoop_ok_iff (s : Text) (room : Nat) :
    (∃ out, urlEncodeLoop room s = .ok out) ↔ EscapesClear room s := by
  induction s generalizing room with
  | nil => cases room <;> simp [urlEncodeLoop, EscapesClear]
  | cons c s ih =>
    cases room with
    | zero => simp [urlEncodeLoop, EscapesClear]
    | succ room =>
      by_cases hc : isUrlEncodeChar c = true
      · have hlen : (escape c).length = 3 := by rw [length_escape, if_pos hc]
        rw [urlEncodeLoop, if_pos hc]
        by_cases hshort : room < 2
        · have hnot : ¬ EscapesClear (room + 1) (c :: s) := by
            intro h
            have := h [] c s rfl hc
            simp only [outPos, List.length_nil, List.countP_nil] at this
            omega
          simp [hshort, hnot]
        · rw [if_neg hshort, escapesClear_cons (by omega), hlen,
            show room + 1 - 3 = room - 2 by omega, ← ih]
          cases urlEncodeLoop (room - 2) s <;> simp [bind, Except.bind, pure, Except.pure]
      · have hlen : (escape c).length = 1 := by rw [length_escape, if_neg hc]
        rw [urlEncodeLoop, if_neg hc, escapesClear_cons (by omega), hlen, Nat.add_sub_cancel, ← ih]
        cases urlEncodeLoop room s <;> simp [bind, Except.bind, pure, Except.pure]

theorem length_urlEncodeLoop_le (s : Text) {room : Nat} {out : Text}
    (h : urlEncodeLoop room s = .ok out) : out.length ≤ room := by
  induction s generalizing room out with
  | nil => cases room <;> simp_all [urlEncodeLoop]
  | cons c s ih =>
    cases room with
    | zero =>
      simp only [urlEncodeLoop, Except.ok.injEq] at h
      simp [← h]
    | succ room =>
      rw [urlEncodeLoop] at h
      by_cases hc : isUrlEncodeChar c = true
      · by_cases hshort : room < 2
        · simp [hc, hshort] at h
        · rw [if_pos hc, if_neg hshort, except_bind_eq_ok] at h
          obtain ⟨rest, hrest, h⟩ := h
          have := ih hrest
          cases h
          simp only [List.length_cons]
          omega
      · rw [if_neg hc, except_bind_eq_ok] at h
        obtain ⟨rest, hrest, h⟩ := h
        have := ih hrest
        cases h
        simp only [List.length_cons]
        omega

/-- `io_url_encode` stays in a buffer of `size` bytes, the NUL included, and
in one of the computed length it leaves the whole encoding and no free place. -/
def EncodesWithin (size : Nat) (url : Text) : Prop :=
  ∃ out : Text, ioUrlEncode size url = .ok out ∧ out.length + 1 ≤ size ∧
    (size = ioUrlEncodedLength url → out = escaped url ∧ out.length + 1 = size)

/-- The encoder does so exactly when no escape would start two or three
places before the end of the buffer, and a computed length is that of a
text shorter than 2 ^ 32. -/
theorem encodesWithin_iff (size : Nat) (url : Text) (hsize : 1 ≤ size) :
    EncodesWithin size url ↔
      (∀ pre c post, url = pre ++ c :: post → isUrlEncodeChar c →
        outPos pre + 2 ≠ size ∧ outPos pre + 3 ≠ size) ∧
      (size = ioUrlEncodedLength url → url.length < 2 ^ 32) := by
  have hne : size ≠ 0 := by omega
  have hclear : EscapesClear (size - 1) url ↔
      ∀ pre c post, url = pre ++ c :: post → isUrlEncodeChar c →
        outPos pre + 2 ≠ size ∧ outPos pre + 3 ≠ size := by
    constructor
    · intro h pre c post hs hc
      have := h pre c post hs hc
      omega
    · intro h pre c post hs hc
      have := h pre c post hs hc
      omega
  have hlen : (escaped url).length = url.length + 2 * url.countP isUrlEncodeChar :=
    length_escaped url
  rw [← hclear, ← urlEncodeLoop_ok_iff, EncodesWithin, ioUrlEncode, if_neg hne]
  constructor
  · rintro ⟨out, hout, -, hexact⟩
    refine ⟨⟨out, hout⟩, fun hcomputed => ?_⟩
    obtain ⟨rfl, hfull⟩ := hexact hcomputed
    rw [hcomputed, hlen] at hfull
    unfold ioUrlEncodedLength toUnsignedLong toUnsigned at hfull
    omega
  · rintro ⟨⟨out, hout⟩, h32⟩
    have hle := length_urlEncodeLoop_le url hout
    refine ⟨out, hout, by omega, fun hcomputed => ?_⟩
    have hcount : url.countP isUrlEncodeChar ≤ url.length := List.countP_le_length
    have hfull : size = (escaped url).length + 1 := by
      have hshort := h32 hcomputed
      rw [hcomputed, hlen]
      unfold ioUrlEncodedLength toUnsignedLong toUnsigned
      omega
    rw [urlEncodeLoop_eq url (by omega), Except.ok.injEq] at hout
    exact ⟨hout.symm, by rw [← hout, hfull]⟩

theorem encodesWithin_iff_three :
    1 ≤ 3 ∧ (EncodesWithin 3 (lit ['a', 'b', '%']) ↔
      (∀ pre c post, lit ['a', 'b', '%'] = pre ++ c :: post → isUrlEncodeChar c →
        outPos pre + 2 ≠ 3 ∧ outPos pre + 3 ≠ 3) ∧
      (3 = ioUrlEncodedLength (lit ['a', 'b', '%']) → (lit ['a', 'b', '%']).length < 2 ^ 32)) :=
  ⟨by decide, encodesWithin_iff 3 (lit ['a', 'b', '%']) (by decide)⟩

/-- In two bytes the escape of a single `%` has no room. -/
theorem not_encodesWithin_percent :
    ioUrlEncode 2 (lit ['%']) = .error .outOfBuffer ∧ ¬ EncodesWithin 2 (lit ['%']) := by
  refine ⟨rfl, ?_⟩
  rintro ⟨out, hout, -⟩
  have h : ioUrlEncode 2 (lit ['%']) = .error .outOfBuffer := rfl
  rw [h] at hout
  cases hout

end Nanio.Http
