/-
Nanio.Hex.HexCodec — hexadecimal texts of byte arrays.

`hex_ntostr` writes two digits for each byte while two more characters and
the NUL fit (`hexNtostr_eq`). `hex_aton` and `hex_check` take the text
apart again, and a text that `hex_aton` reads whole is, in upper case, the
text of the bytes it has read (`hexAton_inv`). The lengths are returned as
an `int`, which is all that goes wrong for long texts.
-/
import Nanio.Hex.HexMac

namespace Nanio.Hex

open Nanio.Lib

/-! ## §1 The writer -/

/-- A byte read behind the end of its array. -/
inductive HexFault where
  | outOfBin
  deriving DecidableEq, Repr

def hexdigits : Text :=
  lit ['0', '1', '2', '3', '4', '5', '6', '7', '8', '9', 'A', 'B', 'C', 'D', 'E', 'F']

/-- `nibbletohex`. -/
def nibbletohex (nibble : UInt8) : UInt8 := hexdigits.getD (nibble &&& 0xF).toNat 0

/-- The loop of `hex_ntostr`, with `left` bytes up to `bend`, `bin` readable
and `str` written; `end` is two before the end of the buffer. -/
def hexNtostrLoop (ssize : Nat) : Nat → List UInt8 → Text → Except HexFault Text
  | 0, _, str => .ok str
  | left + 1, bin, str =>
    if (str.length : Int) < (ssize : Int) - 2 then
      match bin with
      | [] => .error .outOfBin
      | b :: bin =>
        hexNtostrLoop ssize left bin (str ++ [nibbletohex (b >>> 4), nibbletohex b])
    else .ok str

/-- `hex_ntostr`: what it returns, and the bytes it writes from `str` on. -/
def hexNtostr (ssize : Nat) (bin : List UInt8) (bsize : Nat) :
    Except HexFault (Int × List UInt8) := do
  let str ← hexNtostrLoop ssize bsize bin []
  pure (toInt str.length, str ++ [0])

/-- The digits of a byte. -/
def hexByte (b : UInt8) : Text := [nibbletohex (b >>> 4), nibbletohex b]

/-- The hexadecimal text of bytes. -/
def hexOf (bin : List UInt8) : Text := bin.flatMap hexByte

theorem length_hexOf (bin : List UInt8) : (hexOf bin).length = 2 * bin.length := by
  induction bin with
  | nil => rfl
  | cons b bin ih =>
    have hcons : hexOf (b :: bin) = hexByte b ++ hexOf bin := rfl
    rw [hcons, List.length_append, ih, List.length_cons]
    change 2 + _ = _
    omega

/-- The loop writes the digits of as many bytes as there are and as fit. -/
theorem hexNtostrLoop_eq (ssize left : Nat) (bin : List UInt8) (str : Text) :
    hexNtostrLoop ssize left bin str =
      if min left ((ssize - 1 - str.length) / 2) ≤ bin.length then
        .ok (str ++ hexOf (bin.take (min left ((ssize - 1 - str.length) / 2))))
      else .error .outOfBin := by
  induction left generalizing bin str with
  | zero => simp [hexNtostrLoop, hexOf]
  | succ left ih =>
    by_cases hroom : (str.length : Int) < (ssize : Int) - 2
    · have hrounds : min (left + 1) ((ssize - 1 - str.length) / 2) =
          min left ((ssize - 1 - (str.length + 2)) / 2) + 1 := by omega
      rw [hrounds]
      cases bin with
      | nil => simp [hexNtostrLoop, hroom]
      | cons b bin =>
        simp only [hexNtostrLoop, if_pos hroom, ih, List.length_append, List.length_cons,
          List.length_nil, Nat.zero_add, Nat.add_le_add_iff_right, List.take_succ_cons,
          List.append_assoc]
        rfl
    · have hnone : (ssize - 1 - str.length) / 2 = 0 := by omega
      have hstop : hexNtostrLoop ssize (left + 1) bin str = .ok str := by
        cases bin <;> simp [hexNtostrLoop, hroom]
      rw [hstop, hnone]
      simp [hexOf]

theorem hexNtostr_eq (ssize : Nat) (bin : List UInt8) {bsize : Nat}
    (h : min bsize ((ssize - 1) / 2) ≤ bin.length) :
    hexNtostr ssize bin bsize =
      .ok (toInt (2 * min bsize ((ssize - 1) / 2) : Nat),
        hexOf (bin.take (min bsize ((ssize - 1) / 2))) ++ [0]) := by
  have hloop := hexNtostrLoop_eq ssize bsize bin []
  rw [List.length_nil, Nat.sub_zero, if_pos h, List.nil_append] at hloop
  rw [hexNtostr, hloop]
  simp only [bind, Except.bind, length_hexOf, List.length_take, Nat.min_eq_left h]
  rfl

/-- It returns only if all the bytes it shows can be read. -/
theorem hexNtostr_readable {ssize : Nat} {bin : List UInt8} {bsize : Nat} {r : Int × List UInt8}
    (h : hexNtostr ssize bin bsize = .ok r) : min bsize ((ssize - 1) / 2) ≤ bin.length := by
  obtain ⟨str, hloop, -⟩ := except_bind_eq_ok.mp h
  by_contra hno
  have heq := hexNtostrLoop_eq ssize bsize bin []
  rw [List.length_nil, Nat.sub_zero, if_neg hno] at heq
  simp [heq] at hloop

/-! ## §2 Reading back -/

theorem hexByte_spec (b : UInt8) :
    hextonibble (nibbletohex (b >>> 4)) * 16 + hextonibble (nibbletohex b) = b.toNat ∧
      nibbletohex (b >>> 4) ≠ 0 ∧ nibbletohex b ≠ 0 := by
  have key : ∀ n : Fin 256,
      hextonibble (nibbletohex (UInt8.ofFin n >>> 4)) * 16 +
          hextonibble (nibbletohex (UInt8.ofFin n)) = n.val ∧
        nibbletohex (UInt8.ofFin n >>> 4) ≠ 0 ∧ nibbletohex (UInt8.ofFin n) ≠ 0 := by
    decide +kernel
  exact key b.toFin

theorem hextobyte_hexByte (b : UInt8) (p : Text) : hextobyte (hexByte b ++ p) = .ok b.toNat := by
  change hextobyte (nibbletohex (b >>> 4) :: nibbletohex b :: p) = _
  rw [hextobyte_cons, (hexByte_spec b).1]

theorem zero_not_mem_hexOf (bin : List UInt8) : 0 ∉ hexOf bin := by
  simp only [hexOf, List.mem_flatMap, not_exists, not_and]
  intro b _ hmem
  obtain ⟨-, hhigh, hlow⟩ := hexByte_spec b
  simp only [hexByte, List.mem_cons, List.not_mem_nil, or_false] at hmem
  rcases hmem with hmem | hmem
  · exact hhigh hmem.symm
  · exact hlow hmem.symm

theorem hexAtonLoop_hexOf (buf : Text) (bin : List UInt8) (p : Text) (acc : List UInt8) :
    hexAtonLoop buf bin.length (hexOf bin ++ p) acc =
      .ok (toInt (buf.length - p.length : Nat), acc ++ bin) := by
  induction bin generalizing acc with
  | nil => simp [hexAtonLoop, hexOf]
  | cons b bin ih =>
    have hcons : hexOf (b :: bin) ++ p = hexByte b ++ (hexOf bin ++ p) := by
      simp [hexOf, List.append_assoc]
    have hlt : ¬ 256 ≤ b.toNat := Nat.not_le_of_lt b.toNat_lt
    rw [hcons, List.length_cons, hexAtonLoop, hextobyte_hexByte]
    simp only [bind, Except.bind, if_neg hlt, UInt8.ofNat_toNat]
    change hexAtonLoop buf bin.length (hexOf bin ++ p) (acc ++ [b]) = _
    rw [ih]
    simp [List.append_assoc]

theorem hexCheckBytes_hexOf (bin : List UInt8) (p : Text) :
    hexCheckBytes bin.length (hexOf bin ++ p) = .ok 1 := by
  induction bin with
  | nil => rfl
  | cons b bin ih =>
    have hcons : hexOf (b :: bin) ++ p = hexByte b ++ (hexOf bin ++ p) := by
      simp [hexOf, List.append_assoc]
    have hlt : ¬ 256 ≤ b.toNat := Nat.not_le_of_lt b.toNat_lt
    rw [hcons, List.length_cons, hexCheckBytes, hextobyte_hexByte]
    simp only [bind, Except.bind, if_neg hlt]
    exact ih

theorem hexCheckText_hexOf (bin : List UInt8) (fuel : Nat) (hfuel : bin.length < fuel) :
    hexCheckText fuel (hexOf bin) = .ok 1 := by
  induction bin generalizing fuel with
  | nil =>
    cases fuel with
    | zero => omega
    | succ fuel => rfl
  | cons b bin ih =>
    cases fuel with
    | zero => omega
    | succ fuel =>
      have hlt : ¬ 256 ≤ b.toNat := Nat.not_le_of_lt b.toNat_lt
      have hne : (nibbletohex (b >>> 4) == 0) = false :=
        beq_eq_false_iff_ne.mpr (hexByte_spec b).2.1
      have hcons : hexOf (b :: bin) = hexByte b ++ hexOf bin := rfl
      have hhead : deref (hexByte b ++ hexOf bin) 0 = .ok (nibbletohex (b >>> 4)) := rfl
      rw [List.length_cons] at hfuel
      rw [hcons, hexCheckText, hhead, hextobyte_hexByte]
      simp only [bind, Except.bind, hne, Bool.false_eq_true, if_false, if_neg hlt]
      exact ih fuel (by omega)

theorem hexCheck_hexOf (bin : List UInt8) :
    hexCheck 0 (hexOf bin) = .ok 1 ∧ hexCheck bin.length (hexOf bin) = .ok 1 := by
  have htext : hexCheck 0 (hexOf bin) = .ok 1 := by
    rw [hexCheck, if_pos rfl, length_hexOf]
    exact hexCheckText_hexOf bin _ (by omega)
  refine ⟨htext, ?_⟩
  by_cases hlen : bin.length = 0
  · rw [hlen]
    exact htext
  · have hbytes := hexCheckBytes_hexOf bin []
    rw [List.append_nil] at hbytes
    rw [hexCheck, if_neg hlen, hbytes]

/-! ## §3 Texts that are read whole -/

/-- `toupper` in the C locale. -/
def toupper (c : UInt8) : UInt8 := if ascii 'a' ≤ c ∧ c ≤ ascii 'z' then c - 32 else c

theorem nibbletohex_hexValue {c : UInt8} {v : Nat} (h : hexValue c = some v) :
    hexdigits.getD v 0 = toupper c := by
  have key : ∀ n : Fin 256, ∀ w ∈ hexValue (.ofFin n), hexdigits.getD w 0 = toupper (.ofFin n) := by
    decide +kernel
  exact key c.toFin v h

theorem hexByte_ofNat {v w : Nat} (hv : v < 16) (hw : w < 16) :
    hexByte (UInt8.ofNat (v * 16 + w)) = [hexdigits.getD v 0, hexdigits.getD w 0] := by
  have key : ∀ v w : Fin 16,
      hexByte (UInt8.ofNat (v.val * 16 + w)) = [hexdigits.getD v 0, hexdigits.getD w 0] := by
    decide +kernel
  exact key ⟨v, hv⟩ ⟨w, hw⟩

/-- The byte that two digits make is written as their upper case. -/
theorem hexByte_hextonibble {a b : UInt8} (hab : hextonibble a * 16 + hextonibble b < 256) :
    hexByte (UInt8.ofNat (hextonibble a * 16 + hextonibble b)) = [toupper a, toupper b] := by
  have hpair := (hexPair_iff a b).mpr hab
  simp only [hexPair, Bool.and_eq_true, Option.isSome_iff_exists] at hpair
  obtain ⟨⟨v, hv⟩, w, hw⟩ := hpair
  rw [hextonibble_eq, hextonibble_eq, hv, hw, Option.getD_some, Option.getD_some,
    hexByte_ofNat (hexValue_lt hv) (hexValue_lt hw), nibbletohex_hexValue hv,
    nibbletohex_hexValue hw]

/-- `hex_aton` has read `size` pairs, or it returns less than their length. -/
theorem hexAtonLoop_inv {buf : Text} {size : Nat} {hex : Text} {acc : List UInt8} {r : Int}
    {bin : List UInt8} (h : hexAtonLoop buf size hex acc = .ok (r, bin))
    (hle : hex.length ≤ buf.length) :
    (∃ read, bin = acc ++ read ∧ read.length = size ∧
      hexOf read = (hex.take (2 * size)).map toupper ∧ hexCheckBytes size hex = .ok 1) ∨
    r < (buf.length : Int) - hex.length + 2 * size := by
  induction size generalizing hex acc with
  | zero =>
    obtain ⟨-, rfl⟩ := Prod.mk.inj (Except.ok.inj h)
    exact .inl ⟨[], by simp, rfl, by simp [hexOf], rfl⟩
  | succ size ih =>
    rcases hexAtonLoop_cases buf size hex acc with
      ⟨-, hcode⟩ | ⟨a, b, p, rfl, hgood, hcode⟩ | ⟨-, -, r', hcode, hlow, -⟩
    · simp [hcode] at h
    · rw [hcode] at h
      simp only [List.length_cons] at hle ⊢
      rcases ih h (by omega) with ⟨read, rfl, hlen, htext, hcheck⟩ | hlt
      · left
        have hcons : hexOf (UInt8.ofNat (hextonibble a * 16 + hextonibble b) :: read) =
            hexByte (UInt8.ofNat (hextonibble a * 16 + hextonibble b)) ++ hexOf read := rfl
        refine ⟨UInt8.ofNat (hextonibble a * 16 + hextonibble b) :: read, by simp, by simp [hlen],
          ?_, ?_⟩
        · rw [hcons, hexByte_hextonibble hgood, htext]
          rfl
        · rw [hexCheckBytes, hextobyte_cons, except_ok_bind, if_neg (Nat.not_le_of_lt hgood)]
          exact hcheck
      · right
        omega
    · right
      rw [hcode] at h
      obtain ⟨rfl, -⟩ := Prod.mk.inj (Except.ok.inj h)
      omega

/-- The length is returned as an `int`. -/
theorem hexAtonLoop_lt {buf : Text} {size : Nat} {hex : Text} {acc : List UInt8} {r : Int}
    {bin : List UInt8} (h : hexAtonLoop buf size hex acc = .ok (r, bin)) : r < 2 ^ 31 := by
  induction size generalizing hex acc with
  | zero =>
    obtain ⟨rfl, -⟩ := Prod.mk.inj (Except.ok.inj h)
    exact toInt_lt _
  | succ size ih =>
    rcases hexAtonLoop_cases buf size hex acc with
      ⟨-, hcode⟩ | ⟨a, b, p, -, -, hcode⟩ | ⟨-, -, r', hcode, -, hlt⟩
    · simp [hcode] at h
    · rw [hcode] at h
      exact ih h
    · rw [hcode] at h
      obtain ⟨rfl, -⟩ := Prod.mk.inj (Except.ok.inj h)
      exact hlt

/-- A text that `hex_aton` reads whole. -/
theorem hexAton_inv {k : Nat} {text : Text} {bin : List UInt8}
    (h : hexAton k text = .ok (((2 * k : Nat) : Int), bin)) :
    bin.length = k ∧ 2 * k < 2 ^ 31 ∧ hexOf bin = (text.take (2 * k)).map toupper ∧
      hexCheckBytes k text = .ok 1 := by
  have hlt := hexAtonLoop_lt h
  rcases hexAtonLoop_inv h (Nat.le_refl _) with ⟨read, rfl, hlen, htext, hcheck⟩ | hshort
  · exact ⟨hlen, by omega, htext, hcheck⟩
  · omega

/-- `hex_ntostr` stays inside its buffer, `hex_aton` and `hex_check` take its
text, and a text that `hex_aton` takes is written back in upper case. The
lengths are right as far as an `int` can hold them. -/
theorem hexCodec :
    (∀ (bin : List UInt8) (ssize k : Nat), 1 ≤ ssize → k = min bin.length ((ssize - 1) / 2) →
      (∃ text, hexNtostr ssize bin bin.length = .ok (toInt (2 * k : Nat), text ++ [0]) ∧
        (text ++ [0]).length ≤ ssize ∧ 0 ∉ text ∧ text.length = 2 * k ∧
        hexAton k text = .ok (toInt (2 * k : Nat), bin.take k) ∧
        hexCheck 0 text = .ok 1 ∧ hexCheck k text = .ok 1) ∧
      (2 * k < 2 ^ 31 → toInt (2 * k : Nat) = (2 * k : Nat))) ∧
    (∀ (text : Text) (k : Nat) (bin : List UInt8),
      hexAton k text = .ok (((2 * k : Nat) : Int), bin) →
      bin.length = k ∧
      (∀ ssize, 2 * k + 1 ≤ ssize → hexNtostr ssize bin bin.length =
        .ok (((2 * k : Nat) : Int), (text.take (2 * k)).map toupper ++ [0])) ∧
      (0 < k → hexCheck k text = .ok 1)) := by
  constructor
  · intro bin ssize k hssize hk
    have hle : k ≤ bin.length := by omega
    have hlen : (bin.take k).length = k := by rw [List.length_take, Nat.min_eq_left hle]
    have hwrite : hexNtostr ssize bin bin.length =
        .ok (toInt (2 * k : Nat), hexOf (bin.take k) ++ [0]) := by
      rw [hexNtostr_eq ssize bin (by omega), ← hk]
    have hread := hexAtonLoop_hexOf (hexOf (bin.take k)) (bin.take k) [] []
    have hcheck := hexCheck_hexOf (bin.take k)
    rw [hlen] at hread hcheck
    rw [List.append_nil, length_hexOf, hlen, List.length_nil, Nat.sub_zero,
      List.nil_append] at hread
    refine ⟨⟨hexOf (bin.take k), hwrite, ?_, zero_not_mem_hexOf _, ?_, hread, hcheck⟩,
      fun hint => toInt_of_lt (by omega) (by omega)⟩
    · rw [List.length_append, length_hexOf, hlen, List.length_singleton]
      omega
    · rw [length_hexOf, hlen]
  · intro text k bin h
    obtain ⟨hlen, hint, htext, hcheck⟩ := hexAton_inv h
    refine ⟨hlen, fun ssize hssize => ?_, fun hk => ?_⟩
    · have hmin : min bin.length ((ssize - 1) / 2) = k := by omega
      rw [hexNtostr_eq ssize bin (by omega), hmin, List.take_of_length_le (by omega), htext,
        toInt_of_lt (by omega) (by omega)]
    · rw [hexCheck, if_neg (by omega), hcheck]

/-- Three bytes into six characters' room, and `aBc`. -/
theorem hexCodec_short :
    (∃ text, hexNtostr 6 [0x0F, 0xA0, 0x55] 3 = .ok (4, text ++ [0]) ∧
      hexAton 2 text = .ok (4, [0x0F, 0xA0])) ∧
    hexNtostr 6 [0xAB] 1 = .ok (2, lit ['A', 'B'] ++ [0]) := by
  obtain ⟨⟨text, hwrite, -, -, -, hread, -⟩, hint⟩ :=
    hexCodec.1 [0x0F, 0xA0, 0x55] 6 2 (by omega) (by decide)
  rw [hint (by omega)] at hwrite hread
  have hpair : hexAton 1 (lit ['a', 'B', 'c']) = .ok (((2 * 1 : Nat) : Int), [0xAB]) := by decide
  obtain ⟨-, hback, -⟩ := hexCodec.2 (lit ['a', 'B', 'c']) 1 [0xAB] hpair
  exact ⟨⟨text, hwrite, hread⟩, hback 6 (by omega)⟩

/-- 2 ^ 30 bytes have a text of 2 ^ 31 characters, whose length is negative
as an `int`. -/
theorem hexNtostr_narrowed :
    ¬ ∀ (bin : List UInt8) (ssize k : Nat), 1 ≤ ssize → k = min bin.length ((ssize - 1) / 2) →
      ∃ text, hexNtostr ssize bin bin.length = .ok (((2 * k : Nat) : Int), text ++ [0]) := by
  intro h
  have hlen : (List.replicate (2 ^ 30) (0 : UInt8)).length = 2 ^ 30 := List.length_replicate
  have hk : 2 ^ 30 = min (List.replicate (2 ^ 30) (0 : UInt8)).length ((2 ^ 31 + 1 - 1) / 2) := by
    rw [hlen]
    omega
  obtain ⟨text, hwrite⟩ := h (List.replicate (2 ^ 30) 0) (2 ^ 31 + 1) (2 ^ 30) (by omega) hk
  rw [hexNtostr_eq _ _ (Nat.min_le_left _ _), ← hk] at hwrite
  have hint := (Prod.mk.inj (Except.ok.inj hwrite)).1
  unfold toInt at hint
  omega

end Nanio.Hex
