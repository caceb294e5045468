/-
Nanio.Http.UrlCode — `io_url_encode` and `io_url_decode` against each other.

The encoder escapes control characters, both quotes, `%` and the backslash;
the decoder turns an escape back into its byte and `+` into a space. The
encoder leaves `+` alone, so what comes back is the text with its `+`
turned into spaces (`ioUrlDecode_escaped`), and the round trip holds
exactly for texts without one.
-/
import Nanio.Http.HttpParse

namespace Nanio.Http

open Nanio.Lib

/-! ## §1 The two functions -/

/-- A read past the NUL of the argument, or a write past the end of the
output. -/
inductive UrlFault where
  | text (f : TextFault)
  | outOfBuffer
  deriving DecidableEq, Repr

def apostrophe : UInt8 := 0x27

/-- The characters that `is_url_encode_char` looks up. `strchr` also finds
the NUL, which the test before it has caught. -/
def urlEncodeChars : Text := apostrophe :: lit ['"', '%', '\\']

/-- `is_url_encode_char`. -/
def isUrlEncodeChar (ch : UInt8) : Bool := ch &&& 0xE0 == 0 || urlEncodeChars.contains ch

def hexDigits : Text :=
  lit ['0', '1', '2', '3', '4', '5', '6', '7', '8', '9', 'A', 'B', 'C', 'D', 'E', 'F']

/-- `"0123456789ABCDEF"[15 & n]`. -/
def hexDigit (n : UInt8) : UInt8 := hexDigits.getD (15 &&& n).toNat 0

/-- The loop of `io_url_encode` with `end - out` places left. The test
before a character asks for one place. An escape takes three: where they
are not there, it or the NUL behind it lands outside. -/
def urlEncodeLoop : Nat → Text → Except UrlFault Text
  | 0, _ => .ok []
  | _ + 1, [] => .ok []
  | room + 1, c :: str =>
    if isUrlEncodeChar c then
      if room < 2 then .error .outOfBuffer
      else do
        let out ← urlEncodeLoop (room - 2) str
        pure (ascii '%' :: hexDigit (c >>> 4) :: hexDigit c :: out)
    else do
      let out ← urlEncodeLoop room str
      pure (c :: out)

/-- `io_url_encode`: the text it leaves at `to`. -/
def ioUrlEncode (size : Nat) (url : Text) : Except UrlFault Text :=
  if size = 0 then .error .outOfBuffer else urlEncodeLoop (size - 1) url

/-- `encoded_url[k]`. -/
def urlChar (p : Text) (k : Nat) : Except UrlFault UInt8 := (deref p k).mapError .text

/-- The loop of `io_url_decode` with `end - out` places left. -/
def urlDecodeLoop : Nat → Text → Except UrlFault Text
  | 0, _ => .ok []
  | _ + 1, [] => .ok []
  | room + 1, ch :: p =>
    if ch == ascii '%' then do
      let num := digit2num (← urlChar p 0) * 16 + digit2num (← urlChar p 1)
      if num < 256 then do
        let out ← urlDecodeLoop room (p.drop 2)
        pure (UInt8.ofInt num :: out)
      else do
        let out ← urlDecodeLoop room p
        pure (ch :: out)
    else do
      let out ← urlDecodeLoop room p
      pure ((if ch == ascii '+' then sp else ch) :: out)

/-- `io_url_decode`: the text it leaves at `out`. -/
def ioUrlDecode (size : Nat) (encodedUrl : Text) : Except UrlFault Text :=
  if size = 0 then .error .outOfBuffer else urlDecodeLoop (size - 1) encodedUrl

/-! ## §2 What the encoder writes -/

/-- One character as the encoder writes it. -/
def escape (c : UInt8) : Text :=
  if isUrlEncodeChar c then [ascii '%', hexDigit (c >>> 4), hexDigit c] else [c]

/-- The encoded text. -/
def escaped (s : Text) : Text := s.flatMap escape

theorem urlEncodeLoop_eq (s : Text) {room : Nat} (hroom : (escaped s).length ≤ room) :
    urlEncodeLoop room s = .ok (escaped s) := by
  induction s generalizing room with
  | nil => cases room <;> rfl
  | cons c s ih =>
    have hlen : (escaped (c :: s)).length = (escape c).length + (escaped s).length := by
      simp [escaped]
    rw [hlen] at hroom
    by_cases hc : isUrlEncodeChar c = true
    · have hesc : escape c = [ascii '%', hexDigit (c >>> 4), hexDigit c] := if_pos hc
      rw [hesc] at hroom
      simp only [List.length_cons, List.length_nil] at hroom
      obtain ⟨room, rfl⟩ : ∃ n, room = n + 1 := ⟨room - 1, by omega⟩
      have hnot : ¬ room < 2 := by omega
      rw [urlEncodeLoop, if_pos hc, if_neg hnot, ih (by omega)]
      simp [escaped, hesc, bind, Except.bind, pure, Except.pure]
    · have hesc : escape c = [c] := if_neg hc
      rw [hesc] at hroom
      simp only [List.length_cons, List.length_nil] at hroom
      obtain ⟨room, rfl⟩ : ∃ n, room = n + 1 := ⟨room - 1, by omega⟩
      rw [urlEncodeLoop, if_neg hc, ih (by omega)]
      simp [escaped, hesc, bind, Except.bind, pure, Except.pure]

theorem ioUrlEncode_eq (s : Text) {size : Nat} (hsize : (escaped s).length < size) :
    ioUrlEncode size s = .ok (escaped s) := by
  have hne : size ≠ 0 := by omega
  rw [ioUrlEncode, if_neg hne, urlEncodeLoop_eq s (by omega)]

/-! ## §3 What the decoder reads -/

theorem digit2num_hexDigits (n : Fin 16) : digit2num (hexDigits.getD n 0) = n := by
  revert n
  decide

theorem toNat_nibble (c : UInt8) : (15 &&& c).toNat = c.toNat % 16 := by
  rw [UInt8.toNat_and, Nat.and_comm]
  exact Nat.and_two_pow_sub_one_eq_mod c.toNat 4

theorem digit2num_hexDigit (c : UInt8) : digit2num (hexDigit c) = c.toNat % 16 := by
  have hlt : c.toNat % 16 < 16 := Nat.mod_lt _ (by omega)
  rw [hexDigit, toNat_nibble]
  exact digit2num_hexDigits ⟨c.toNat % 16, hlt⟩

/-- The two digits of an escape make the byte again. -/
theorem digit2num_escape (c : UInt8) :
    digit2num (hexDigit (c >>> 4)) * 16 + digit2num (hexDigit c) = c.toNat := by
  have hlt := c.toNat_lt
  have hhigh : (c >>> 4).toNat = c.toNat / 16 := by
    rw [UInt8.toNat_shiftRight]
    exact Nat.shiftRight_eq_div_pow c.toNat 4
  rw [digit2num_hexDigit, digit2num_hexDigit, hhigh]
  omega

/-- What a character comes back as. -/
def plusToSpace (c : UInt8) : UInt8 := if c = ascii '+' then sp else c

theorem urlDecodeLoop_escape (room : Nat) (c : UInt8) (p : Text) :
    urlDecodeLoop (room + 1) (escape c ++ p) =
      (urlDecodeLoop room p).map (plusToSpace c :: ·) := by
  by_cases hc : isUrlEncodeChar c = true
  · have hplus : c ≠ ascii '+' := fun e => absurd hc (by rw [e]; decide)
    have hnum := digit2num_escape c
    have hlt : (c.toNat : Int) < 256 := by have := c.toNat_lt; omega
    have hback : UInt8.ofInt c.toNat = c := by
      rw [UInt8.ofInt, Int.emod_eq_of_lt (by omega) (by omega), Int.toNat_natCast,
        UInt8.ofNat_toNat]
    simp only [escape, if_pos hc, List.cons_append, List.nil_append, urlDecodeLoop,
      beq_self_eq_true, if_true, urlChar, deref_zero_cons, deref_succ_cons, Except.mapError, bind,
      Except.bind, hnum, hlt, hback, List.drop_succ_cons, List.drop_zero, plusToSpace, if_neg hplus]
    cases urlDecodeLoop room p <;> rfl
  · have hpercent : (c == ascii '%') = false := by
      rw [beq_eq_false_iff_ne]
      rintro rfl
      exact hc (by decide)
    simp only [escape, if_neg hc, List.cons_append, List.nil_append, urlDecodeLoop, hpercent,
      Bool.false_eq_true, if_false, plusToSpace, beq_iff_eq]
    cases urlDecodeLoop room p <;> rfl

theorem urlDecodeLoop_escaped (s : Text) {room : Nat} (hroom : s.length ≤ room) :
    urlDecodeLoop room (escaped s) = .ok (s.map plusToSpace) := by
  induction s generalizing room with
  | nil => cases room <;> rfl
  | cons c s ih =>
    rw [List.length_cons] at hroom
    obtain ⟨room, rfl⟩ : ∃ n, room = n + 1 := ⟨room - 1, by omega⟩
    have hesc : escaped (c :: s) = escape c ++ escaped s := by simp [escaped]
    rw [hesc, urlDecodeLoop_escape, ih (by omega)]
    rfl

theorem ioUrlDecode_escaped (s : Text) {size : Nat} (hsize : s.length < size) :
    ioUrlDecode size (escaped s) = .ok (s.map plusToSpace) := by
  have hne : size ≠ 0 := by omega
  rw [ioUrlDecode, if_neg hne, urlDecodeLoop_escaped s (by omega)]

/-! ## §4 The round trip -/

theorem map_plusToSpace_eq_iff (s : Text) : s.map plusToSpace = s ↔ ascii '+' ∉ s := by
  induction s with
  | nil => simp
  | cons c s ih =>
    simp only [List.map_cons, List.cons.injEq, List.mem_cons, not_or, ih, and_congr_left_iff]
    intro _
    unfold plusToSpace
    by_cases hc : c = ascii '+'
    · simp only [hc, if_true]
      decide
    · simp [hc, Ne.symm hc]

/-- With room for both results, the decoded text is the text that was
encoded if and only if it has no `+`. -/
theorem ioUrlDecode_ioUrlEncode_iff (s : Text) (size₁ size₂ : Nat)
    (h₁ : (escaped s).length < size₁) (h₂ : s.length < size₂) :
    ∃ encoded decoded, ioUrlEncode size₁ s = .ok encoded ∧
      ioUrlDecode size₂ encoded = .ok decoded ∧ (decoded = s ↔ ascii '+' ∉ s) :=
  ⟨escaped s, s.map plusToSpace, ioUrlEncode_eq s h₁, ioUrlDecode_escaped s h₂,
    map_plusToSpace_eq_iff s⟩

theorem ioUrlDecode_ioUrlEncode_percent :
    (escaped (lit ['%'])).length < 4 ∧ (lit ['%']).length < 2 ∧
    ∃ encoded decoded, ioUrlEncode 4 (lit ['%']) = .ok encoded ∧
      ioUrlDecode 2 encoded = .ok decoded ∧ (decoded = lit ['%'] ↔ ascii '+' ∉ lit ['%']) :=
  ⟨by decide, by decide,
    ioUrlDecode_ioUrlEncode_iff (lit ['%']) 4 2 (by decide) (by decide)⟩

/-- One `+` is written as it is and read as a space. -/
theorem ioUrlDecode_ioUrlEncode_plus :
    ioUrlEncode 100 (lit ['+']) = .ok (lit ['+']) ∧
    ioUrlDecode 100 (lit ['+']) = .ok (lit [' ']) ∧ lit [' '] ≠ lit ['+'] := by
  refine ⟨rfl, rfl, by decide⟩

end Nanio.Http
