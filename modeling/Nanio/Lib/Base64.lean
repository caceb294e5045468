/-
Nanio.Lib.Base64 — bytes as characters of six bits, in groups of four.

Three bytes make a group. A group of fewer bytes is filled up with padding,
so a text has padding exactly if its bytes do not come in threes
(`pad_not_mem_base64`, `base64_padded`), and then it is what is left behind
its other characters.
-/
import Nanio.Lib.CString

namespace Nanio.Lib

def base64Alphabet : Text :=
  lit ['A', 'B', 'C', 'D', 'E', 'F', 'G', 'H', 'I', 'J', 'K', 'L', 'M', 'N', 'O', 'P', 'Q', 'R',
    'S', 'T', 'U', 'V', 'W', 'X', 'Y', 'Z', 'a', 'b', 'c', 'd', 'e', 'f', 'g', 'h', 'i', 'j', 'k',
    'l', 'm', 'n', 'o', 'p', 'q', 'r', 's', 't', 'u', 'v', 'w', 'x', 'y', 'z', '0', '1', '2', '3',
    '4', '5', '6', '7', '8', '9', '+', '/']

/-- The character of six bits. -/
def base64Char (n : Nat) : UInt8 := base64Alphabet.getD n 0

/-- The six bits of a character. -/
def base64Bits (c : UInt8) : Nat := base64Alphabet.idxOf c

/-- The padding. -/
def pad : UInt8 := ascii '='

/-! ## §1 A group -/

/-- The four times six bits of three bytes. -/
def firstBits (a : UInt8) : Nat := a.toNat / 4
def secondBits (a b : UInt8) : Nat := a.toNat % 4 * 16 + b.toNat / 16
def thirdBits (b c : UInt8) : Nat := b.toNat % 16 * 4 + c.toNat / 64
def lastBits (c : UInt8) : Nat := c.toNat % 64

/-- The three bytes of four times six bits. -/
def firstByte (p q : Nat) : UInt8 := UInt8.ofNat (p * 4 + q / 16)
def secondByte (q r : Nat) : UInt8 := UInt8.ofNat (q % 16 * 16 + r / 4)
def lastByte (r s : Nat) : UInt8 := UInt8.ofNat (r % 4 * 64 + s)

section

variable (a b c : UInt8)

theorem firstBits_lt : firstBits a < 64 := by
  have ha := a.toNat_lt
  unfold firstBits
  omega

theorem secondBits_lt : secondBits a b < 64 := by
  have hb := b.toNat_lt
  unfold secondBits
  omega

theorem thirdBits_lt : thirdBits b c < 64 := by
  have hc := c.toNat_lt
  unfold thirdBits
  omega

theorem lastBits_lt : lastBits c < 64 := Nat.mod_lt _ (by decide)

theorem firstByte_bits : firstByte (firstBits a) (secondBits a b) = a := by
  have hb := b.toNat_lt
  have hall : firstBits a * 4 + secondBits a b / 16 = a.toNat := by
    unfold firstBits secondBits
    omega
  rw [firstByte, hall, UInt8.ofNat_toNat]

theorem secondByte_bits : secondByte (secondBits a b) (thirdBits b c) = b := by
  have hb := b.toNat_lt
  have hc := c.toNat_lt
  have hall : secondBits a b % 16 * 16 + thirdBits b c / 4 = b.toNat := by
    unfold secondBits thirdBits
    omega
  rw [secondByte, hall, UInt8.ofNat_toNat]

theorem lastByte_bits : lastByte (thirdBits b c) (lastBits c) = c := by
  have hc := c.toNat_lt
  have hall : thirdBits b c % 4 * 64 + lastBits c = c.toNat := by
    unfold thirdBits lastBits
    omega
  rw [lastByte, hall, UInt8.ofNat_toNat]

end

/-! ## §2 A text -/

/-- The text of some bytes. -/
def base64 : List UInt8 → Text
  | a :: b :: c :: bytes =>
    base64Char (firstBits a) :: base64Char (secondBits a b) :: base64Char (thirdBits b c) ::
      base64Char (lastBits c) :: base64 bytes
  | [a, b] =>
    [base64Char (firstBits a), base64Char (secondBits a b), base64Char (thirdBits b 0), pad]
  | [a] => [base64Char (firstBits a), base64Char (secondBits a 0), pad, pad]
  | [] => []

/-- The bytes of a text. -/
def unbase64 : Text → List UInt8
  | p :: q :: r :: s :: text =>
    let first := firstByte (base64Bits p) (base64Bits q)
    let second := secondByte (base64Bits q) (base64Bits r)
    if r = pad then [first]
    else if s = pad then [first, second]
    else first :: second :: lastByte (base64Bits r) (base64Bits s) :: unbase64 text
  | _ => []

theorem base64Bits_base64Char {n : Nat} (h : n < 64) : base64Bits (base64Char n) = n := by
  have key : ∀ n : Fin 64, base64Bits (base64Char n) = n := by decide
  exact key ⟨n, h⟩

theorem base64Char_mem {n : Nat} (h : n < 64) : base64Char n ∈ base64Alphabet := by
  have key : ∀ n : Fin 64, base64Char n ∈ base64Alphabet := by decide
  exact key ⟨n, h⟩

theorem pad_ne_base64Char {n : Nat} (h : n < 64) : pad ≠ base64Char n := by
  have hpad : pad ∉ base64Alphabet := by decide
  exact fun heq => hpad (heq ▸ base64Char_mem h)

/-- The text stands for its bytes. -/
theorem unbase64_base64 (bytes : List UInt8) : unbase64 (base64 bytes) = bytes := by
  induction bytes using base64.induct with
  | case1 a b c bytes ih =>
    have hthird := (pad_ne_base64Char (thirdBits_lt b c)).symm
    have hlast := (pad_ne_base64Char (lastBits_lt c)).symm
    simp only [base64, unbase64, if_neg hthird, if_neg hlast, ih,
      base64Bits_base64Char (firstBits_lt a), base64Bits_base64Char (secondBits_lt a b),
      base64Bits_base64Char (thirdBits_lt b c), base64Bits_base64Char (lastBits_lt c),
      firstByte_bits, secondByte_bits, lastByte_bits]
  | case2 a b =>
    have hthird := (pad_ne_base64Char (thirdBits_lt b 0)).symm
    simp only [base64, unbase64, if_neg hthird, if_true,
      base64Bits_base64Char (firstBits_lt a), base64Bits_base64Char (secondBits_lt a b),
      base64Bits_base64Char (thirdBits_lt b 0), firstByte_bits, secondByte_bits]
  | case3 a =>
    simp only [base64, unbase64, if_true, base64Bits_base64Char (firstBits_lt a),
      base64Bits_base64Char (secondBits_lt a 0), firstByte_bits]
  | case4 => rfl

theorem length_base64 (bytes : List UInt8) :
    (base64 bytes).length = 4 * ((bytes.length + 2) / 3) := by
  induction bytes using base64.induct with
  | case1 a b c bytes ih =>
    simp only [base64, List.length_cons, ih]
    omega
  | case2 a b => simp only [base64, List.length_cons, List.length_nil]
  | case3 a => simp only [base64, List.length_cons, List.length_nil]
  | case4 => rfl

theorem mem_base64 (bytes : List UInt8) : ∀ x ∈ base64 bytes, x ∈ base64Alphabet ∨ x = pad := by
  have hchar : ∀ {n}, n < 64 → base64Char n ∈ base64Alphabet ∨ base64Char n = pad :=
    fun h => .inl (base64Char_mem h)
  induction bytes using base64.induct with
  | case1 a b c bytes ih =>
    simp only [base64, List.forall_mem_cons]
    exact ⟨hchar (firstBits_lt a), hchar (secondBits_lt a b), hchar (thirdBits_lt b c),
      hchar (lastBits_lt c), ih⟩
  | case2 a b =>
    simp only [base64, List.forall_mem_cons]
    exact ⟨hchar (firstBits_lt a), hchar (secondBits_lt a b), hchar (thirdBits_lt b 0),
      .inr trivial, List.forall_mem_nil _⟩
  | case3 a =>
    simp only [base64, List.forall_mem_cons]
    exact ⟨hchar (firstBits_lt a), hchar (secondBits_lt a 0), .inr trivial, .inr trivial,
      List.forall_mem_nil _⟩
  | case4 => exact List.forall_mem_nil _

/-- A character that is neither in the alphabet nor the padding. -/
theorem not_mem_base64 (bytes : List UInt8) {x : UInt8} (hx : x ∉ base64Alphabet ∧ x ≠ pad) :
    x ∉ base64 bytes :=
  fun hmem => (mem_base64 bytes x hmem).elim hx.1 hx.2

/-- Bytes in threes need no padding. -/
theorem pad_not_mem_base64 {bytes : List UInt8} (h : bytes.length % 3 = 0) :
    pad ∉ base64 bytes := by
  induction bytes using base64.induct with
  | case1 a b c bytes ih =>
    have hrest : bytes.length % 3 = 0 := by
      simp only [List.length_cons] at h
      omega
    simp only [base64, List.mem_cons, not_or]
    exact ⟨pad_ne_base64Char (firstBits_lt a), pad_ne_base64Char (secondBits_lt a b),
      pad_ne_base64Char (thirdBits_lt b c), pad_ne_base64Char (lastBits_lt c), ih hrest⟩
  | case2 a b => cases h
  | case3 a => cases h
  | case4 => exact List.not_mem_nil

/-- Other bytes have it at the end. -/
theorem base64_padded {bytes : List UInt8} (h : bytes.length % 3 ≠ 0) :
    ∃ front rest, base64 bytes = front ++ pad :: rest ∧ pad ∉ front ∧
      (rest = [] ∨ rest = [pad]) := by
  induction bytes using base64.induct with
  | case1 a b c bytes ih =>
    have hrest : bytes.length % 3 ≠ 0 := by
      simp only [List.length_cons] at h
      omega
    obtain ⟨front, rest, heq, hfront, hend⟩ := ih hrest
    refine ⟨base64Char (firstBits a) :: base64Char (secondBits a b) :: base64Char (thirdBits b c) ::
      base64Char (lastBits c) :: front, rest, by rw [base64, heq]; rfl, ?_, hend⟩
    simp only [List.mem_cons, not_or]
    exact ⟨pad_ne_base64Char (firstBits_lt a), pad_ne_base64Char (secondBits_lt a b),
      pad_ne_base64Char (thirdBits_lt b c), pad_ne_base64Char (lastBits_lt c), hfront⟩
  | case2 a b =>
    refine ⟨[base64Char (firstBits a), base64Char (secondBits a b), base64Char (thirdBits b 0)], [],
      rfl, ?_, .inl rfl⟩
    simp only [List.mem_cons, List.not_mem_nil, not_or, not_false_iff, and_true]
    exact ⟨pad_ne_base64Char (firstBits_lt a), pad_ne_base64Char (secondBits_lt a b),
      pad_ne_base64Char (thirdBits_lt b 0)⟩
  | case3 a =>
    refine ⟨[base64Char (firstBits a), base64Char (secondBits a 0)], [pad], rfl, ?_, .inr rfl⟩
    simp only [List.mem_cons, List.not_mem_nil, not_or, not_false_iff, and_true]
    exact ⟨pad_ne_base64Char (firstBits_lt a), pad_ne_base64Char (secondBits_lt a 0)⟩
  | case4 => exact absurd rfl h

end Nanio.Lib
