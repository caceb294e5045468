/-
Nanio.Http.UrlDecode — what `io_url_decode` takes for an escape.

The reference decoder (`decoded`) replaces a `%` and two hexadecimal digits
by the byte they denote. The code adds up two values of `digit2num` and
takes every sum below 256, which lets through pairs such as `0Z`, and it
looks at two characters after a `%` that may be the last one of the text.
Both decoders are `unescape` of the library with a test of their own, so
one lemma says what the loop does with any room (`urlDecodeLoop_eq`) and
the two are compared by what their tests let through.
-/
import Nanio.Http.UrlCode
import Nanio.Http.ReqParseTheorems
import Nanio.Lib.Escape

namespace Nanio.Http

open Nanio.Lib

def percent : UInt8 := ascii '%'

/-! ## §1 The two tests for an escape -/

/-- Two hexadecimal digits and the byte they denote. -/
def hexEscape (a b : UInt8) : Option UInt8 := do
  let high ← hexValue a
  let low ← hexValue b
  pure (UInt8.ofNat (16 * high + low))

/-- The reference: each `%` with two hexadecimal digits is the byte they
denote, each `+` a space, every other character itself. -/
def decoded (text : Text) : Text := unescape percent hexEscape plusToSpace text

/-- The test of `io_url_decode`: the sum is below 256. -/
def takesEscape (a b : UInt8) : Bool := digit2num a * 16 + digit2num b < 256

/-- Two characters the code takes for an escape, and the byte it makes of them. -/
def numEscape (a b : UInt8) : Option UInt8 :=
  if takesEscape a b then some (UInt8.ofInt (digit2num a * 16 + digit2num b)) else none

/-- What the code makes of a text, given room for all of it. -/
def looseDecoded (text : Text) : Text := unescape percent numEscape plusToSpace text

theorem digit2num_hexValue {c : UInt8} {v : Nat} (h : hexValue c = some v) :
    digit2num c = v := by
  have key : ∀ n : Fin 256, ∀ w ∈ hexValue (.ofFin n), digit2num (.ofFin n) = w := by
    decide +kernel
  exact key c.toFin v h

/-- The code knows every escape of the reference. -/
theorem numEscape_of_hexEscape {a b d : UInt8} (h : hexEscape a b = some d) :
    numEscape a b = some d := by
  simp only [hexEscape, Option.bind_eq_bind, Option.bind_eq_some_iff, Option.pure_def] at h
  obtain ⟨high, ha, low, hb, hd⟩ := h
  have hhigh := hexValue_lt ha
  have hlow := hexValue_lt hb
  have hsum : digit2num a * 16 + digit2num b = ((16 * high + low : Nat) : Int) := by
    rw [digit2num_hexValue ha, digit2num_hexValue hb]
    omega
  have htake : takesEscape a b = true := by
    rw [takesEscape, hsum, decide_eq_true_eq]
    omega
  have hbyte : (((16 * high + low : Nat) : Int) % 2 ^ 8).toNat = 16 * high + low := by
    rw [Int.emod_eq_of_lt (by omega) (by omega), Int.toNat_natCast]
  rw [numEscape, if_pos htake, hsum, UInt8.ofInt, hbyte, hd]

theorem numEscape_isSome (a b : UInt8) : (numEscape a b).isSome = takesEscape a b := by
  unfold numEscape
  cases takesEscape a b <;> rfl

theorem hexEscape_isSome (a b : UInt8) :
    (hexEscape a b).isSome = ((hexValue a).isSome && (hexValue b).isSome) := by
  unfold hexEscape
  cases hexValue a <;> cases hexValue b <;> rfl

/-- A `%` is worth 256, so it is no part of an escape. -/
theorem markFree_numEscape : MarkFree percent numEscape := by
  intro a b h
  rw [numEscape_isSome, takesEscape, decide_eq_true_eq] at h
  have ha := digit2num_nonneg a
  have hb := digit2num_nonneg b
  have hpercent : digit2num percent = 256 := by decide
  constructor
  · rintro rfl
    omega
  · rintro rfl
    omega

/-! ## §2 The loop of `io_url_decode` -/

/-- A character that is no `%`, wherever it stands. -/
theorem urlDecodeLoop_cons_of_ne {c : UInt8} (hc : c ≠ percent) (room : Nat) (p : Text) :
    urlDecodeLoop (room + 1) (c :: p) = (urlDecodeLoop room p).map (plusToSpace c :: ·) := by
  have hne : (c == ascii '%') = false := beq_eq_false_iff_ne.mpr hc
  have hplus : (if c == ascii '+' then sp else c) = plusToSpace c := by simp [plusToSpace]
  rw [urlDecodeLoop, hne, if_neg (by decide), hplus]
  cases urlDecodeLoop room p <;> rfl

/-- One round of the loop with two more characters to look at. -/
theorem urlDecodeLoop_cons (room : Nat) (c a b : UInt8) (p : Text) :
    urlDecodeLoop (room + 1) (c :: a :: b :: p) =
      match (if c = percent then numEscape a b else none) with
      | some d => (urlDecodeLoop room p).map (d :: ·)
      | none => (urlDecodeLoop room (a :: b :: p)).map (plusToSpace c :: ·) := by
  by_cases hc : c = percent
  · subst hc
    have hplus : plusToSpace percent = percent := by decide
    rw [urlDecodeLoop, if_pos (by decide)]
    simp only [urlChar, deref_zero_cons, deref_succ_cons, Except.mapError, bind, Except.bind,
      List.drop_succ_cons, List.drop_zero, if_true, hplus, numEscape, takesEscape,
      decide_eq_true_eq]
    by_cases hlt : digit2num a * 16 + digit2num b < 256
    · simp only [hlt, if_true]
      cases urlDecodeLoop room p <;> rfl
    · simp only [hlt, if_false]
      cases urlDecodeLoop room (a :: b :: p) <;> rfl
  · rw [urlDecodeLoop_cons_of_ne hc, if_neg hc]

/-- A `%` at the end of the text: its second digit is behind the NUL. -/
theorem urlDecodeLoop_percent (room : Nat) :
    urlDecodeLoop (room + 1) [percent] = .error (.text .outOfText) := rfl

/-- A `%` before the last character is copied: the NUL is no digit. -/
theorem urlDecodeLoop_percent_last (room : Nat) (a : UInt8) :
    urlDecodeLoop (room + 1) [percent, a] = (urlDecodeLoop room [a]).map (percent :: ·) := by
  have hnul : digit2num 0 = 256 := by decide
  have ha := digit2num_nonneg a
  have hge : ¬ digit2num a * 16 + 256 < 256 := by omega
  rw [urlDecodeLoop, if_pos (by decide)]
  simp only [urlChar, deref_zero_cons, deref_succ_cons, deref_zero_nil, Except.mapError, bind,
    Except.bind, hnul, hge, if_false]
  cases urlDecodeLoop room [a] <;> rfl

/-- What the loop leaves, or that it reads too far: in room for less than
the whole result it never comes to the last character. -/
def decodeOutcome (room : Nat) (s : Text) : Except UrlFault Text :=
  if s.getLast? = some percent ∧ (looseDecoded s).length ≤ room then .error (.text .outOfText)
  else .ok ((looseDecoded s).take room)

theorem looseDecoded_cons_ne_nil (c : UInt8) (p : Text) : looseDecoded (c :: p) ≠ [] := by
  rcases p with _ | ⟨a, _ | ⟨b, p⟩⟩
  · simp [looseDecoded, unescape]
  · simp [looseDecoded, unescape]
  · rw [looseDecoded, unescape]
    split <;> simp

theorem decodeOutcome_zero (s : Text) : decodeOutcome 0 s = .ok [] := by
  cases s with
  | nil => rfl
  | cons c p =>
    have hpos : 0 < (looseDecoded (c :: p)).length :=
      List.length_pos_iff.mpr (looseDecoded_cons_ne_nil c p)
    simp [decodeOutcome, Nat.not_le.mpr hpos]

theorem decodeOutcome_cons {d : UInt8} {s q : Text}
    (hlast : s.getLast? = some percent ↔ q.getLast? = some percent)
    (hdec : looseDecoded s = d :: looseDecoded q) (room : Nat) :
    decodeOutcome (room + 1) s = (decodeOutcome room q).map (d :: ·) := by
  simp only [decodeOutcome, hdec, List.length_cons, Nat.add_le_add_iff_right, hlast,
    List.take_succ_cons]
  split <;> rfl

/-- The loop stops with what fits, unless it comes to a `%` at the very
end of the text: then it reads the character behind the NUL. -/
theorem urlDecodeLoop_eq (room : Nat) (s : Text) :
    urlDecodeLoop room s = decodeOutcome room s := by
  cases room with
  | zero => rw [decodeOutcome_zero, urlDecodeLoop]
  | succ room =>
    rcases s with _ | ⟨c, _ | ⟨a, _ | ⟨b, p⟩⟩⟩
    · rfl
    · by_cases hc : c = percent
      · rw [hc, urlDecodeLoop_percent]
        simp [decodeOutcome, looseDecoded, unescape]
      · rw [urlDecodeLoop_cons_of_ne hc, urlDecodeLoop_eq room []]
        exact (decodeOutcome_cons (by simp [hc]) rfl room).symm
    · by_cases hc : c = percent
      · rw [hc, urlDecodeLoop_percent_last, urlDecodeLoop_eq room [a]]
        exact (decodeOutcome_cons (by simp) rfl room).symm
      · rw [urlDecodeLoop_cons_of_ne hc, urlDecodeLoop_eq room [a]]
        exact (decodeOutcome_cons (by simp) rfl room).symm
    · have hlast : (c :: a :: b :: p).getLast? = (a :: b :: p).getLast? := by simp
      rw [urlDecodeLoop_cons]
      cases hesc : (if c = percent then numEscape a b else none) with
      | none =>
        have hdec : looseDecoded (c :: a :: b :: p) =
            plusToSpace c :: looseDecoded (a :: b :: p) := by
          simp [looseDecoded, unescape, hesc]
        rw [urlDecodeLoop_eq room (a :: b :: p)]
        exact (decodeOutcome_cons (by rw [hlast]) hdec room).symm
      | some d =>
        have hdec : looseDecoded (c :: a :: b :: p) = d :: looseDecoded p := by
          simp [looseDecoded, unescape, hesc]
        have hb : b ≠ percent := by
          by_cases hc : c = percent
          · rw [if_pos hc] at hesc
            exact (markFree_numEscape a b (by simp [hesc])).2
          · simp [hc] at hesc
        rw [urlDecodeLoop_eq room p]
        refine (decodeOutcome_cons ?_ hdec room).symm
        cases p <;> simp [hb]

/-! ## §3 The decoder against the reference -/

theorem hexEscape_le_numEscape (a b : UInt8) :
    (hexEscape a b).isSome → (numEscape a b).isSome := by
  intro h
  obtain ⟨d, hd⟩ := Option.isSome_iff_exists.mp h
  simp [numEscape_of_hexEscape hd]

theorem length_looseDecoded (text : Text) :
    (looseDecoded text).length + 2 * escapeCount percent numEscape text = text.length :=
  length_unescape markFree_numEscape text

/-- The code takes at least the escapes of the reference. -/
theorem length_looseDecoded_le (text : Text) :
    (looseDecoded text).length ≤ (decoded text).length := by
  have hfree : MarkFree percent hexEscape :=
    fun a b h => markFree_numEscape a b (hexEscape_le_numEscape a b h)
  have hloose := length_looseDecoded text
  have hdecoded : (decoded text).length + 2 * escapeCount percent hexEscape text = text.length :=
    length_unescape hfree text
  have hmono : escapeCount percent hexEscape text ≤ escapeCount percent numEscape text :=
    escapeCount_mono hexEscape_le_numEscape text
  omega

/-- Both decoders make the same of a text exactly when every escape the
code takes is made of two hexadecimal digits. -/
theorem looseDecoded_eq_decoded_iff (text : Text) :
    looseDecoded text = decoded text ↔
      ∀ a b, [percent, a, b] <:+: text → takesEscape a b →
        (hexValue a).isSome ∧ (hexValue b).isSome := by
  have hsame : looseDecoded text = decoded text ↔
      ∀ a b, [percent, a, b] <:+: text → (numEscape a b).isSome → (hexEscape a b).isSome :=
    unescape_eq_iff markFree_numEscape (fun a b d => numEscape_of_hexEscape) text
  simpa only [numEscape_isSome, hexEscape_isSome, Bool.and_eq_true] using hsame

/-- With room for the reference result the code gives it exactly when the
last character is no `%` and the two characters after a `%` that it takes
for an escape are hexadecimal digits. -/
theorem ioUrlDecode_decoded_iff (text : Text) (size : Nat) (hsize : (decoded text).length < size) :
    ioUrlDecode size text = .ok (decoded text) ↔
      text.getLast? ≠ some percent ∧
      ∀ a b, [percent, a, b] <:+: text → takesEscape a b →
        (hexValue a).isSome ∧ (hexValue b).isSome := by
  have hne : size ≠ 0 := by omega
  have hroom : (looseDecoded text).length ≤ size - 1 := by
    have := length_looseDecoded_le text
    omega
  rw [ioUrlDecode, if_neg hne, urlDecodeLoop_eq, decodeOutcome, List.take_of_length_le hroom,
    ← looseDecoded_eq_decoded_iff]
  by_cases hlast : text.getLast? = some percent
  · simp [hlast, hroom]
  · simp [hlast]

theorem ioUrlDecode_decoded_A :
    (decoded (lit ['%', '4', '1'])).length < 2 ∧
    (ioUrlDecode 2 (lit ['%', '4', '1']) = .ok (decoded (lit ['%', '4', '1'])) ↔
      (lit ['%', '4', '1']).getLast? ≠ some percent ∧
      ∀ a b, [percent, a, b] <:+: lit ['%', '4', '1'] → takesEscape a b →
        (hexValue a).isSome ∧ (hexValue b).isSome) :=
  ⟨by decide, ioUrlDecode_decoded_iff _ 2 (by decide)⟩

/-- `0Z` is no hexadecimal number; the code makes the byte 35 of it. -/
theorem ioUrlDecode_loose_escape :
    ioUrlDecode 100 (lit ['%', '0', 'Z']) = .ok (lit ['#']) ∧
    decoded (lit ['%', '0', 'Z']) = lit ['%', '0', 'Z'] ∧
    (decoded (lit ['%', '0', 'Z'])).length < 100 ∧
    ioUrlDecode 100 (lit ['%', '0', 'Z']) ≠ .ok (decoded (lit ['%', '0', 'Z'])) :=
  ⟨rfl, by decide, by decide, by decide⟩

end Nanio.Http
