/-
Nanio.Hex.HexReads — where the readers of escapes and of hexadecimal pairs
go past the end of the text.

All of them read the second character of a pair before they have looked at
the first. That is a fault exactly when a pair is tried at the NUL itself:
`hex_aton` with room left at the end of a text of pairs, `mac_aton` at the
end of a text of fewer than six, `io_url_decode` behind a `%` at the very
end. `hex_check` asks for the NUL before each pair when it is given no size.
-/
import Nanio.Hex.HexMac
import Nanio.Http.UrlDecode

namespace Nanio.Hex

open Nanio.Lib Nanio.Http

/-! ## §1 Texts of pairs -/

/-- Hexadecimal pairs and nothing else. -/
def hexText : Text → Bool
  | [] => true
  | a :: b :: p => hexPair a b && hexText p
  | [_] => false

/-- `k` hexadecimal pairs with at most one separator behind each, and
nothing else. -/
inductive MacPairs : Nat → Text → Prop where
  | none : MacPairs 0 []
  | pair {a b : UInt8} {k : Nat} {p : Text} (hab : hexPair a b = true) (hp : MacPairs k p) :
    MacPairs (k + 1) (a :: b :: p)
  | separated {a b c : UInt8} {k : Nat} {p : Text} (hab : hexPair a b = true)
    (hc : isSeparator c = true) (hp : MacPairs k p) : MacPairs (k + 1) (a :: b :: c :: p)

theorem separator_not_hex {a b : UInt8} (ha : isSeparator a = true) : hexPair a b = false := by
  simp only [isSeparator, Bool.or_eq_true, beq_iff_eq] at ha
  have hnone : hexValue a = none := by
    rcases ha with rfl | rfl
    · decide
    · decide
  simp [hexPair, hnone]

/-- A separator opens no pair. -/
theorem not_macPairs_separator {c : UInt8} (hc : isSeparator c = true) (k : Nat) (p : Text) :
    ¬ MacPairs k (c :: p) := by
  intro h
  cases h with
  | pair hab _ => simp [separator_not_hex hc] at hab
  | separated hab _ _ => simp [separator_not_hex hc] at hab

/-! ## §2 The readers -/

theorem hexAtonLoop_returns_iff (buf : Text) (size : Nat) (hex : Text) (bin : List UInt8) :
    (∃ r, hexAtonLoop buf size hex bin = .ok r) ↔
      ¬ (hexText hex = true ∧ hex.length < 2 * size) := by
  induction size generalizing hex bin with
  | zero => simp [hexAtonLoop]
  | succ size ih =>
    rcases hexAtonLoop_cases buf size hex bin with
      ⟨rfl, hcode⟩ | ⟨a, b, p, rfl, hgood, hcode⟩ | ⟨hbad, hne, r, hcode, -⟩
    · simp [hcode, hexText]
    · have hab : hexPair a b = true := (hexPair_iff a b).mpr hgood
      have hlen : (a :: b :: p).length < 2 * (size + 1) ↔ p.length < 2 * size := by
        simp only [List.length_cons]
        omega
      rw [hcode, hlen, hexText, hab, Bool.true_and]
      exact ih p _
    · have htext : hexText hex = false := by
        rcases hex with _ | ⟨a, _ | ⟨b, p⟩⟩
        · exact absurd rfl hne
        · rfl
        · have hab := (hexPair_iff a b).not.mpr (Nat.not_lt_of_le (hbad a b p rfl))
          simp [hexText, hab]
      simp [hcode, htext]

/-- Behind a pair with more to come: what is left when a separator there
has been passed. -/
theorem macPairs_pair_iff {a b : UInt8} (hab : hexPair a b = true) (k : Nat) (p : Text) :
    MacPairs (k + 1) (a :: b :: p) ↔
      MacPairs k (if isSeparator (p.headD 0) then p.drop 1 else p) := by
  have hnul : isSeparator 0 = false := by decide
  cases p with
  | nil =>
    simp only [List.headD_nil, hnul]
    constructor
    · rintro (_ | ⟨-, hp⟩)
      exact hp
    · exact .pair hab
  | cons c p =>
    simp only [List.headD_cons, List.drop_succ_cons, List.drop_zero]
    by_cases hc : isSeparator c = true
    · rw [if_pos hc]
      constructor
      · intro h
        cases h with
        | pair _ hp => exact absurd hp (not_macPairs_separator hc k p)
        | separated _ _ hp => exact hp
      · exact .separated hab hc
    · rw [if_neg hc]
      constructor
      · intro h
        cases h with
        | pair _ hp => exact hp
        | separated _ hsep _ => exact absurd hsep hc
      · exact .pair hab

/-- A text that opens with no pair is none of pairs. -/
theorem not_macPairs_of_bad {a b : UInt8} (hab : ¬ hexPair a b = true) (k : Nat) (p : Text) :
    ¬ MacPairs k (a :: b :: p) := by
  intro h
  cases h with
  | pair h _ => exact hab h
  | separated h _ _ => exact hab h

/-- One pair fewer, and a separator passed. -/
theorem macPairs_below_iff {a b : UInt8} (hab : hexPair a b = true) (size : Nat) (p : Text) :
    (∃ k < size + 1, MacPairs k (a :: b :: p)) ↔
      ∃ k < size, MacPairs k (if isSeparator (p.headD 0) then p.drop 1 else p) := by
  constructor
  · rintro ⟨k, hk, hpairs⟩
    obtain _ | k := k
    · cases hpairs
    · exact ⟨k, by omega, (macPairs_pair_iff hab k p).mp hpairs⟩
  · rintro ⟨k, hk, hpairs⟩
    exact ⟨k + 1, by omega, (macPairs_pair_iff hab k p).mpr hpairs⟩

theorem macAtonLoop_returns_iff (buf : Text) (size : Nat) (str : Text) (mac : List UInt8) :
    (∃ r, macAtonLoop buf size str mac = .ok r) ↔ ¬ ∃ k < size, MacPairs k str := by
  induction size generalizing str mac with
  | zero => simp [macAtonLoop]
  | succ size ih =>
    match str with
    | [] =>
      refine iff_of_false ?_ (not_not.mpr ⟨0, Nat.succ_pos size, .none⟩)
      simp [macAtonLoop, hextobyte_nil, bind, Except.bind]
    | [a] =>
      obtain ⟨abyte, hread, hbad⟩ := hextobyte_single a
      refine iff_of_true ?_ ?_
      · simp [macAtonLoop, hread, hbad, bind, Except.bind, pure, Except.pure]
      · rintro ⟨k, -, hk⟩
        cases hk
    | a :: b :: p =>
      by_cases hab : hexPair a b = true
      · have hgood : ¬ 256 ≤ hextonibble a * 16 + hextonibble b := by
          have := (hexPair_iff a b).mp hab
          omega
        simp only [macAtonLoop, hextobyte_cons, bind, Except.bind, if_neg hgood,
          List.drop_succ_cons, List.drop_zero, deref_zero, macPairs_below_iff hab]
        by_cases hlast : size = 0
        · simp [hlast, pure, Except.pure]
        · rw [if_neg hlast, ← ih _ (mac ++ [UInt8.ofNat (hextonibble a * 16 + hextonibble b)])]
          split <;> rfl
      · have hbad : 256 ≤ hextonibble a * 16 + hextonibble b := by
          have := (hexPair_iff a b).not.mp hab
          omega
        refine iff_of_true ?_ ?_
        · simp [macAtonLoop, hextobyte_cons, hbad, bind, Except.bind, pure, Except.pure]
        · rintro ⟨k, -, hk⟩
          exact not_macPairs_of_bad hab k p hk

/-- The NUL is asked for before each pair. -/
theorem hexCheckText_returns (fuel : Nat) (hex : Text) (hfuel : hex.length < fuel) :
    ∃ r, hexCheckText fuel hex = .ok r := by
  induction fuel generalizing hex with
  | zero => omega
  | succ fuel ih =>
    match hex with
    | [] => exact ⟨1, rfl⟩
    | [a] =>
      obtain ⟨abyte, hread, hbad⟩ := hextobyte_single a
      simp only [hexCheckText, deref_zero_cons, hread, hbad, bind, Except.bind, if_true]
      split <;> exact ⟨_, rfl⟩
    | a :: b :: p =>
      have hp : p.length < fuel := by
        simp only [List.length_cons] at hfuel
        omega
      simp only [hexCheckText, deref_zero_cons, hextobyte_cons, bind, Except.bind,
        List.drop_succ_cons, List.drop_zero]
      split
      · exact ⟨_, rfl⟩
      · split
        · exact ⟨_, rfl⟩
        · exact ih p hp

/-! ## §3 All four -/

theorem decodeOutcome_text_iff (room : Nat) (text : Text) :
    (∀ f, decodeOutcome room text ≠ .error (.text f)) ↔
      (text.getLast? = some percent → room < (looseDecoded text).length) := by
  unfold decodeOutcome
  split
  · rename_i h
    refine iff_of_false (fun hall => hall .outOfText rfl) ?_
    intro hlast
    have := hlast h.1
    omega
  · rename_i h
    refine iff_of_true (by simp) ?_
    intro hlast
    by_contra hroom
    exact h ⟨hlast, by omega⟩

theorem ioUrlDecode_text_iff (size : Nat) (text : Text) :
    (∀ f, ioUrlDecode size text ≠ .error (.text f)) ↔
      (text.getLast? = some percent →
        size ≤ text.length - 2 * escapeCount percent numEscape text) := by
  have hlen : (looseDecoded text).length =
      text.length - 2 * escapeCount percent numEscape text := by
    have := length_looseDecoded text
    omega
  rw [ioUrlDecode, ← hlen]
  by_cases hsize : size = 0
  · simp [hsize]
  · rw [if_neg hsize, urlDecodeLoop_eq, decodeOutcome_text_iff]
    have hiff : size - 1 < (looseDecoded text).length ↔ size ≤ (looseDecoded text).length := by
      omega
    rw [hiff]

/-- `io_url_decode` reads behind the NUL exactly when a `%` ends the text
and there is room for it in the result, `hex_aton` exactly when the text is
pairs only, fewer than it is asked for, `mac_aton` exactly when it is fewer
than six pairs; `hex_check` of the whole text never does. -/
theorem readsInside_iff (size : Nat) (text : Text) :
    ((∀ f, ioUrlDecode size text ≠ .error (.text f)) ↔
      (text.getLast? = some percent →
        size ≤ text.length - 2 * escapeCount percent numEscape text)) ∧
    ((∃ r, hexAton size text = .ok r) ↔ ¬ (hexText text = true ∧ text.length < 2 * size)) ∧
    ((∃ r, macAton text = .ok r) ↔ ¬ ∃ k < 6, MacPairs k text) ∧
    ∃ r, hexCheck 0 text = .ok r :=
  ⟨ioUrlDecode_text_iff size text, hexAtonLoop_returns_iff text size text [],
    macAtonLoop_returns_iff text 6 text [], hexCheckText_returns _ text (Nat.lt_succ_self _)⟩

/-- A lone `%`, one pair where two are asked for, and a MAC address of one
pair and a colon. -/
theorem readsInside_fails :
    ioUrlDecode 100 (lit ['%']) = .error (.text .outOfText) ∧
    hexAton 2 (lit ['a', 'b']) = .error .outOfText ∧
    macAton (lit ['0', '1', ':']) = .error .outOfText :=
  ⟨rfl, rfl, rfl⟩

end Nanio.Hex
