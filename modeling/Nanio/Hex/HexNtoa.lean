/-
Nanio.Hex.HexNtoa — `hex_ntoa`, which shortens a long array to what a
temporary buffer holds.

The text of 23 bytes fills the buffer. The test for longer ones compares
`size * 2 - 2`, an unsigned number, with the size of the buffer: it lets 24
and 25 bytes pass, which the encoder then cuts off without dots, and it
takes no bytes at all for a long array. For every size from 26 on it is
right, until the doubling wraps.
-/
import Nanio.Hex.HexCodec
import Nanio.Tmp.TmpStr

namespace Nanio.Hex

open Nanio.Lib Nanio.Tmp

def dots : Text := lit ['.', '.', '.']

/-- `hex_ntoa`: the bytes it writes from the start of its buffer on. -/
def hexNtoa (bin : List UInt8) (size : Nat) : Except HexFault (List UInt8) :=
  if TMP_STR_SIZE < toUnsignedLong ((size : Int) * 2 - 2) then do
    let (ret, buf) ← hexNtostr TMP_STR_SIZE bin (TMP_STR_SIZE / 2 - 2)
    pure (overwrite buf ret.toNat (dots ++ [0]))
  else do
    let (_, buf) ← hexNtostr TMP_STR_SIZE bin size
    pure buf

theorem toUnsignedLong_double {size : Nat} (h : 1 ≤ size) :
    toUnsignedLong ((size : Int) * 2 - 2) = 2 * ((size - 1) % 2 ^ 63) := by
  unfold toUnsignedLong
  omega

/-- The branch for a long array: 22 bytes and the dots. -/
theorem hexNtoa_long (bin : List UInt8) {size : Nat}
    (h : TMP_STR_SIZE < toUnsignedLong ((size : Int) * 2 - 2)) (hbin : 22 ≤ bin.length) :
    hexNtoa bin size = .ok (hexOf (bin.take 22) ++ (dots ++ [0])) := by
  have hmin : min 22 ((TMP_STR_SIZE - 1) / 2) = 22 := by decide
  have hlen : (hexOf (bin.take 22)).length = 44 := by
    rw [length_hexOf, List.length_take, Nat.min_eq_left hbin]
  have hwrite : hexNtostr TMP_STR_SIZE bin (TMP_STR_SIZE / 2 - 2) =
      .ok (44, hexOf (bin.take 22) ++ [0]) := by
    have hread : min 22 ((TMP_STR_SIZE - 1) / 2) ≤ bin.length := hmin ▸ hbin
    have heq := hexNtostr_eq TMP_STR_SIZE bin hread
    rw [hmin] at heq
    exact heq
  rw [hexNtoa, if_pos h, hwrite]
  simp only [bind, Except.bind, pure, Except.pure, overwrite]
  change Except.ok ((hexOf (bin.take 22) ++ [0]).take 44 ++ (dots ++ [0] ++
    (hexOf (bin.take 22) ++ [0]).drop 48)) = _
  rw [List.take_append_of_le_length (by omega), List.take_of_length_le (by omega),
    List.drop_eq_nil_of_le (by simp [hlen]), List.append_nil]

/-- The other branch: the encoder and its own limit of 23 bytes. -/
theorem hexNtoa_short (bin : List UInt8) {size : Nat}
    (h : ¬ TMP_STR_SIZE < toUnsignedLong ((size : Int) * 2 - 2)) (hbin : min size 23 ≤ bin.length) :
    hexNtoa bin size = .ok (hexOf (bin.take (min size 23)) ++ [0]) := by
  have hread : min size ((TMP_STR_SIZE - 1) / 2) ≤ bin.length := hbin
  have hwrite := hexNtostr_eq TMP_STR_SIZE bin hread
  rw [hexNtoa, if_neg h, hwrite]
  rfl

/-- The whole array, or a leading part of it and three dots, exactly for
these sizes. -/
theorem hexNtoa_iff (bin : List UInt8) :
    (∃ buf, hexNtoa bin bin.length = .ok buf ∧ (cstr buf = hexOf bin ∨
      ∃ j ≤ bin.length, cstr buf = hexOf (bin.take j) ++ dots)) ↔
    (1 ≤ bin.length ∧ bin.length ≤ 23) ∨ 24 < (bin.length - 1) % 2 ^ 63 := by
  by_cases hnil : bin.length = 0
  · obtain rfl := List.length_eq_zero_iff.mp hnil
    have hfault : hexNtoa [] 0 = .error .outOfBin := by decide
    simp [hfault]
  have htest := toUnsignedLong_double (Nat.one_le_iff_ne_zero.mpr hnil)
  by_cases hlong : 24 < (bin.length - 1) % 2 ^ 63
  · have hmod := Nat.mod_le (bin.length - 1) (2 ^ 63)
    have hpos : TMP_STR_SIZE < toUnsignedLong ((bin.length : Int) * 2 - 2) := by
      rw [htest, TMP_STR_SIZE]
      omega
    have hcstr : cstr (hexOf (bin.take 22) ++ (dots ++ [0])) = hexOf (bin.take 22) ++ dots := by
      have hdots : 0 ∉ hexOf (bin.take 22) ++ dots := by
        rw [List.mem_append, not_or]
        exact ⟨zero_not_mem_hexOf _, by decide⟩
      rw [← List.append_assoc]
      exact cstr_append hdots []
    exact iff_of_true ⟨_, hexNtoa_long bin hpos (by omega), .inr ⟨22, by omega, hcstr⟩⟩ (.inr hlong)
  · have hneg : ¬ TMP_STR_SIZE < toUnsignedLong ((bin.length : Int) * 2 - 2) := by
      rw [htest, TMP_STR_SIZE]
      omega
    have hcode := hexNtoa_short bin hneg (Nat.min_le_left _ _)
    have hcstr := cstr_append (zero_not_mem_hexOf (bin.take (min bin.length 23))) []
    by_cases hfit : bin.length ≤ 23
    · rw [Nat.min_eq_left hfit, List.take_length] at hcode hcstr
      exact iff_of_true ⟨_, hcode, .inl hcstr⟩ (.inl ⟨by omega, hfit⟩)
    · refine iff_of_false ?_ (by omega)
      rintro ⟨buf, hbuf, hshown⟩
      obtain rfl := Except.ok.inj (hcode.symm.trans hbuf)
      -- the lengths differ: 46, and the double of the length, or an odd number
      have hmin : min bin.length 23 = 23 := by omega
      have hlen : (cstr (hexOf (bin.take (min bin.length 23)) ++ [0])).length = 46 := by
        rw [hcstr, length_hexOf, List.length_take, hmin, Nat.min_eq_left (by omega)]
      rcases hshown with h | ⟨j, hj, h⟩
      · rw [h, length_hexOf] at hlen
        omega
      · rw [h, List.length_append, length_hexOf] at hlen
        change _ + 3 = 46 at hlen
        omega

/-- 24 bytes: the last one is left out without dots. -/
theorem hexNtoa_cut :
    ¬ ∀ bin : List UInt8, ∃ buf, hexNtoa bin bin.length = .ok buf ∧ (cstr buf = hexOf bin ∨
      ∃ j ≤ bin.length, cstr buf = hexOf (bin.take j) ++ dots) := by
  intro h
  obtain ⟨buf, hbuf, hshown⟩ := h (List.replicate 24 0)
  rw [List.length_replicate] at hbuf
  have hcode : hexNtoa (List.replicate 24 0) 24 = .ok (hexOf (List.replicate 23 0) ++ [0]) := by
    decide +kernel
  obtain rfl := Except.ok.inj (hcode.symm.trans hbuf)
  have hcstr := cstr_append (zero_not_mem_hexOf (List.replicate 23 0)) []
  have hlen : (cstr (hexOf (List.replicate 23 0) ++ [0])).length = 46 := by
    rw [hcstr, length_hexOf, List.length_replicate]
  rcases hshown with h | ⟨j, -, h⟩
  · rw [h, length_hexOf, List.length_replicate] at hlen
    omega
  · rw [h, List.length_append, length_hexOf] at hlen
    change _ + 3 = 46 at hlen
    omega

end Nanio.Hex
