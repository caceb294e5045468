/-
Nanio.Sock.Ipv4List — the comma separated lists of `ipv4_ltoi`.

A list of addresses joined by commas, with spaces on either side of a
comma, is read back address by address (`ipv4Ltoi_joined`): the spaces
before a comma are skipped by the list loop, those behind it by `strtoul`.
The number of addresses is returned as an `int`.
-/
import Nanio.Sock.Ipv4Text

namespace Nanio.Sock

open Nanio.Lib

/-! ## §1 The parser -/

def comma : UInt8 := ascii ','

/-- `while (*p == ' ') ++p;` -/
def skipBlanks (p : Text) : Text := p.dropWhile (· == ascii ' ')

/-- The loop of `ipv4_ltoi`: the addresses it stores. The second loop over
spaces stands before `++p` in the source, on the comma, and skips nothing. -/
def ltoiLoop : Nat → Text → Except TextFault (List UInt32)
  | 0, _ => .ok []
  | _ + 1, [] => .ok []
  | limit + 1, c :: p => do
    let (num, after) ← ipv4Strtoi (c :: p)
    let p := skipBlanks (after.getD (c :: p))
    if (← deref p 0) != comma then pure [num]
    else do
      let rest ← ltoiLoop limit ((skipBlanks p).drop 1)
      pure (num :: rest)

/-- `ipv4_ltoi`: what it returns, and the addresses stored at `ips`. The
null pointer is no list. -/
def ipv4Ltoi (limit : Nat) (list : Option Text) : Except TextFault (Int × List UInt32) :=
  match list with
  | none => .ok (0, [])
  | some list => do
    let ips ← ltoiLoop limit list
    pure (toInt ips.length, ips)

/-! ## §2 Lists -/

/-- A text made of the addresses, joined by commas with any number of
spaces before and after each comma. -/
inductive Joined : List UInt32 → Text → Prop where
  | none : Joined [] []
  | one (ip : UInt32) : Joined [ip] (ipv4Itostr ip)
  | more (ip : UInt32) (before after : Nat) {ips : List UInt32} {text : Text} (hne : ips ≠ [])
      (h : Joined ips text) :
      Joined (ip :: ips) (ipv4Itostr ip ++ (blanks before ++ comma :: (blanks after ++ text)))

theorem skipBlanks_blanks (n : Nat) {p : Text} (hp : p.head? ≠ some (ascii ' ')) :
    skipBlanks (blanks n ++ p) = p := by
  unfold skipBlanks blanks
  rw [List.dropWhile_append_of_pos (by simp)]
  cases p with
  | nil => rfl
  | cons c p =>
    have hc : (c == ascii ' ') = false := by simpa using hp
    rw [List.dropWhile_cons, hc]
    rfl

theorem blanks_comma_head (n : Nat) (p : Text) :
    ∀ c ∈ (blanks n ++ comma :: p).head?, isDigit c = false := by
  intro c hc
  cases n with
  | zero =>
    obtain rfl := Option.some.inj hc
    decide
  | succ n =>
    obtain rfl := Option.some.inj hc
    decide

/-- Spaces before the first address are skipped too. -/
theorem ltoiLoop_joined {ips : List UInt32} {text : Text} (h : Joined ips text) (limit b : Nat)
    (hne : ips ≠ []) : ltoiLoop limit (blanks b ++ text) = .ok (ips.take limit) := by
  induction h generalizing limit b with
  | none => exact absurd rfl hne
  | one ip =>
    cases limit with
    | zero => rfl
    | succ limit =>
      have hread := (quad_ipv4Itostr ip).strtoi b (show ∀ c ∈ ([] : Text).head?, _ from by simp)
      obtain ⟨c, p, hc, -⟩ := (quad_ipv4Itostr ip).blanks_head b []
      rw [List.append_nil] at hc hread
      rw [hc] at hread ⊢
      have hend : ((0 : UInt8) != comma) = true := by decide
      rw [ltoiLoop, hread]
      simp [bind, Except.bind, skipBlanks, hend, pure, Except.pure]
  | @more ip before after ips text hne' h ih =>
    cases limit with
    | zero => rfl
    | succ limit =>
      have hread := (quad_ipv4Itostr ip).strtoi b (blanks_comma_head before (blanks after ++ text))
      obtain ⟨c, p, hc, -⟩ := (quad_ipv4Itostr ip).blanks_head b
        (blanks before ++ comma :: (blanks after ++ text))
      have hhead : (comma :: (blanks after ++ text)).head? ≠ some (ascii ' ') := by
        rw [List.head?_cons]
        decide
      have hskip : skipBlanks (blanks before ++ comma :: (blanks after ++ text)) =
          comma :: (blanks after ++ text) := skipBlanks_blanks before hhead
      have hagain : skipBlanks (comma :: (blanks after ++ text)) =
          comma :: (blanks after ++ text) :=
        skipBlanks_blanks 0 hhead
      rw [hc] at hread ⊢
      rw [ltoiLoop, hread]
      simp only [bind, Except.bind, Option.getD_some, hskip, deref_zero_cons, bne_self_eq_false,
        Bool.false_eq_true, if_false, hagain, List.drop_succ_cons, List.drop_zero,
        ih limit after hne']
      rfl

theorem ltoiLoop_nil (limit : Nat) : ltoiLoop limit [] = .ok [] := by cases limit <;> rfl

/-- The addresses up to the limit, and their number as an `int`. -/
theorem ipv4Ltoi_eq {ips : List UInt32} {text : Text} (h : Joined ips text) (limit : Nat) :
    ipv4Ltoi limit (some text) = .ok (toInt (min limit ips.length : Nat), ips.take limit) := by
  have hloop : ltoiLoop limit text = .ok (ips.take limit) := by
    by_cases hne : ips = []
    · cases h with
      | none => rw [ltoiLoop_nil, List.take_nil]
      | one => cases hne
      | more => cases hne
    · exact ltoiLoop_joined h limit 0 hne
  rw [ipv4Ltoi]
  simp only [hloop, bind, Except.bind, List.length_take]
  rfl

/-- The leading addresses of the list come back, as many as the limit allows.
Their number is returned, as far as an `int` can hold it. -/
theorem ipv4Ltoi_joined (ips : List UInt32) (text : Text) (limit : Nat) (h : Joined ips text) :
    ipv4Ltoi limit (some text) = .ok (toInt (min limit ips.length : Nat), ips.take limit) ∧
      (min limit ips.length < 2 ^ 31 →
        toInt (min limit ips.length : Nat) = (min limit ips.length : Nat)) :=
  ⟨ipv4Ltoi_eq h limit, fun hint => toInt_of_lt (by omega) (by omega)⟩

/-- `0.0.0.0 ,  10.0.0.1`, and a limit of one. -/
theorem ipv4Ltoi_joined_two :
    Joined [0, 0x0a000001] (lit ['0', '.', '0', '.', '0', '.', '0', ' ', ',', ' ', ' ', '1', '0',
      '.', '0', '.', '0', '.', '1']) ∧
    ipv4Ltoi 1 (some (lit ['0', '.', '0', '.', '0', '.', '0', ' ', ',', ' ', ' ', '1', '0', '.',
      '0', '.', '0', '.', '1'])) = .ok (1, ([0, 0x0a000001] : List UInt32).take 1) := by
  have h : Joined [0, 0x0a000001] (lit ['0', '.', '0', '.', '0', '.', '0', ' ', ',', ' ', ' ', '1',
      '0', '.', '0', '.', '0', '.', '1']) := .more 0 1 2 (by simp) (.one 0x0a000001)
  obtain ⟨hread, hnumber⟩ := ipv4Ltoi_joined _ _ 1 h
  rw [hnumber (by decide)] at hread
  exact ⟨h, hread⟩

/-- `n` times `0.0.0.0`, joined by commas. -/
def zeroList : Nat → Text
  | 0 => []
  | 1 => ipv4Itostr 0
  | n + 2 => ipv4Itostr 0 ++ comma :: zeroList (n + 1)

theorem joined_zeroList (n : Nat) : Joined (List.replicate n 0) (zeroList n) := by
  induction n with
  | zero => exact .none
  | succ n ih =>
    cases n with
    | zero => exact .one 0
    | succ n => exact .more 0 0 0 (by simp [List.replicate_succ]) ih

/-- With 2 ^ 31 addresses the number returned is negative. -/
theorem ipv4Ltoi_narrowed :
    Joined (List.replicate (2 ^ 31) 0) (zeroList (2 ^ 31)) ∧
    ipv4Ltoi (2 ^ 31) (some (zeroList (2 ^ 31))) = .ok (-2 ^ 31, List.replicate (2 ^ 31) 0) ∧
    (-2 ^ 31 : Int) ≠ (min (2 ^ 31) (List.replicate (2 ^ 31) (0 : UInt32)).length : Nat) := by
  have hlen : min (2 ^ 31) (List.replicate (2 ^ 31) (0 : UInt32)).length = 2 ^ 31 := by
    rw [List.length_replicate, Nat.min_self]
  have htake : (List.replicate (2 ^ 31) (0 : UInt32)).take (2 ^ 31) =
      List.replicate (2 ^ 31) 0 := by
    rw [List.take_of_length_le (by rw [List.length_replicate])]
  have hint : toInt ((2 ^ 31 : Nat) : Int) = -2 ^ 31 := by decide
  refine ⟨joined_zeroList (2 ^ 31), ?_, by rw [hlen]; decide⟩
  rw [ipv4Ltoi_eq (joined_zeroList (2 ^ 31)), hlen, htake, hint]

end Nanio.Sock
