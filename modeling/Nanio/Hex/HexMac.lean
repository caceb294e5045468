/-
Nanio.Hex.HexMac — the readers of `io_hexmac.c`: pairs of hexadecimal
digits, MAC addresses, and the check of a hexadecimal text.

A pair is read as a whole before its first digit is looked at, so at the
end of a text the second digit is behind the NUL, which is a fault
(`deref`). Each reader returns the length it has read, or 0, and the bytes
it has stored.
-/
import Nanio.Base
import Nanio.Lib.CString

namespace Nanio.Hex

open Nanio.Lib

/-! ## Digits -/

/-- `hextonibble`: the value of a digit, or 256. The two low quarters of
the signed `char` are the cases 0 and 1. -/
def hextonibble (digit : UInt8) : Nat :=
  match (digit >>> 6).toNat with
  | 1 =>
    let n : Int := ((digit &&& ~~~32).toNat : Int) - (ascii 'A').toNat + 10
    if 9 < n ∧ n < 16 then n.toNat else 256
  | 0 =>
    let d : Int := (digit.toNat : Int) - (ascii '0').toNat
    if 0 ≤ d ∧ d < 10 then d.toNat else 256
  | _ => 256

/-- `hextobyte`: both characters are read. -/
def hextobyte (text : Text) : Except TextFault Nat := do
  let high ← deref text 0
  let low ← deref text 1
  pure (hextonibble high * 16 + hextonibble low)

/-! ## Readers -/

/-- `(*str == ':' || *str == '-') ? 1 : 0` -/
def isSeparator (c : UInt8) : Bool := c == ascii ':' || c == ascii '-'

/-- The loop of `mac_aton` from `_start` on, with `size` bytes to come and
`mac` stored. -/
def macAtonLoop (buf : Text) : Nat → Text → List UInt8 → Except TextFault (Int × List UInt8)
  | 0, str, mac => .ok (((buf.length - str.length : Nat) : Int), mac)
  | size + 1, str, mac => do
    let abyte ← hextobyte str
    if 256 ≤ abyte then pure (0, mac)
    else
      let mac := mac ++ [UInt8.ofNat abyte]
      let str := str.drop 2
      if size = 0 then pure (((buf.length - str.length : Nat) : Int), mac)
      else if isSeparator (← deref str 0) then macAtonLoop buf size (str.drop 1) mac
      else macAtonLoop buf size str mac

/-- `mac_aton`. -/
def macAton (str : Text) : Except TextFault (Int × List UInt8) := macAtonLoop str 6 str []

/-- The loop of `hex_aton`, with room for `size` bytes and `bin` stored. -/
def hexAtonLoop (buf : Text) : Nat → Text → List UInt8 → Except TextFault (Int × List UInt8)
  | 0, hex, bin => .ok (toInt (buf.length - hex.length : Nat), bin)
  | size + 1, hex, bin => do
    let abyte ← hextobyte hex
    if 256 ≤ abyte then
      if (← deref hex 0) != 0 then pure (0, bin)
      else pure (toInt (buf.length - hex.length : Nat), bin)
    else hexAtonLoop buf size (hex.drop 2) (bin ++ [UInt8.ofNat abyte])

/-- `hex_aton`. -/
def hexAton (size : Nat) (hex : Text) : Except TextFault (Int × List UInt8) :=
  hexAtonLoop hex size hex []

/-- The loop of `hex_check` over the whole text. -/
def hexCheckText : Nat → Text → Except TextFault Int
  | 0, _ => .error .endless
  | fuel + 1, hex => do
    if (← deref hex 0) == 0 then pure 1
    else
      let abyte ← hextobyte hex
      if 256 ≤ abyte then pure 0 else hexCheckText fuel (hex.drop 2)

/-- The loop of `hex_check` over `size` bytes. -/
def hexCheckBytes : Nat → Text → Except TextFault Int
  | 0, _ => .ok 1
  | size + 1, hex => do
    let abyte ← hextobyte hex
    if 256 ≤ abyte then pure 0 else hexCheckBytes size (hex.drop 2)

/-- `hex_check`. -/
def hexCheck (size : Nat) (hex : Text) : Except TextFault Int :=
  if size = 0 then hexCheckText (hex.length + 1) hex else hexCheckBytes size hex

/-! ## What a digit is -/

theorem hextonibble_eq (c : UInt8) : hextonibble c = (hexValue c).getD 256 := by
  have key : ∀ n : Fin 256, hextonibble (.ofFin n) = (hexValue (.ofFin n)).getD 256 := by
    decide +kernel
  exact key c.toFin

/-- Two hexadecimal digits. -/
def hexPair (a b : UInt8) : Bool := (hexValue a).isSome && (hexValue b).isSome

theorem hexPair_iff (a b : UInt8) :
    hexPair a b = true ↔ hextonibble a * 16 + hextonibble b < 256 := by
  rw [hextonibble_eq, hextonibble_eq, hexPair]
  cases ha : hexValue a with
  | none =>
    simp
    omega
  | some v =>
    cases hb : hexValue b with
    | none => simp
    | some w =>
      have hv := hexValue_lt ha
      have hw := hexValue_lt hb
      simp
      omega

theorem hextobyte_nil : hextobyte [] = .error .outOfText := rfl

/-- The NUL is no digit. -/
theorem hextobyte_single (a : UInt8) : ∃ abyte, hextobyte [a] = .ok abyte ∧ 256 ≤ abyte := by
  have hnul : hextonibble 0 = 256 := by decide
  refine ⟨hextonibble a * 16 + hextonibble 0, rfl, ?_⟩
  omega

theorem hextobyte_cons (a b : UInt8) (p : Text) :
    hextobyte (a :: b :: p) = .ok (hextonibble a * 16 + hextonibble b) := rfl

/-- A round of `hex_aton` that stops: what it returns is at most the length
read so far. -/
theorem hexAtonLoop_stop {buf : Text} {size : Nat} {hex : Text} {bin : List UInt8} {abyte : Nat}
    (hread : hextobyte hex = .ok abyte) (hbad : 256 ≤ abyte) (hne : hex ≠ []) :
    ∃ r, hexAtonLoop buf (size + 1) hex bin = .ok (r, bin) ∧
      r ≤ (buf.length - hex.length : Nat) ∧ r < 2 ^ 31 := by
  obtain ⟨c, p, rfl⟩ := List.exists_cons_of_ne_nil hne
  rw [hexAtonLoop, hread, except_ok_bind, if_pos hbad, deref_zero_cons, except_ok_bind]
  split
  · exact ⟨0, rfl, by omega, by decide⟩
  · exact ⟨_, rfl, toInt_le _, toInt_lt _⟩

/-- What a round of `hex_aton` can do: read behind the text, take a pair,
or stop. -/
theorem hexAtonLoop_cases (buf : Text) (size : Nat) (hex : Text) (bin : List UInt8) :
    (hex = [] ∧ hexAtonLoop buf (size + 1) hex bin = .error .outOfText) ∨
    (∃ a b p, hex = a :: b :: p ∧ hextonibble a * 16 + hextonibble b < 256 ∧
      hexAtonLoop buf (size + 1) hex bin =
        hexAtonLoop buf size p (bin ++ [UInt8.ofNat (hextonibble a * 16 + hextonibble b)])) ∨
    ((∀ a b p, hex = a :: b :: p → 256 ≤ hextonibble a * 16 + hextonibble b) ∧ hex ≠ [] ∧
      ∃ r, hexAtonLoop buf (size + 1) hex bin = .ok (r, bin) ∧
        r ≤ (buf.length - hex.length : Nat) ∧ r < 2 ^ 31) := by
  rcases hex with _ | ⟨a, _ | ⟨b, p⟩⟩
  · exact .inl ⟨rfl, rfl⟩
  · obtain ⟨abyte, hread, hbad⟩ := hextobyte_single a
    exact .inr (.inr ⟨by simp, by simp, hexAtonLoop_stop hread hbad (by simp)⟩)
  · by_cases hgood : hextonibble a * 16 + hextonibble b < 256
    · refine .inr (.inl ⟨a, b, p, rfl, hgood, ?_⟩)
      rw [hexAtonLoop, hextobyte_cons, except_ok_bind, if_neg (Nat.not_le_of_lt hgood)]
      rfl
    · have hbad := Nat.le_of_not_lt hgood
      refine .inr (.inr ⟨fun a' b' p' heq => ?_, by simp, ?_⟩)
      · obtain ⟨rfl, hrest⟩ := List.cons.inj heq
        obtain ⟨rfl, -⟩ := List.cons.inj hrest
        exact hbad
      · exact hexAtonLoop_stop (hextobyte_cons a b p) hbad (by simp)

end Nanio.Hex
