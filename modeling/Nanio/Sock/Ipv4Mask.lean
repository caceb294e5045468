/-
Nanio.Sock.Ipv4Mask — the netmasks of `io_ipv4.c`.

`ipv4_ismask` asks whether the complement of an address is ones at the low
end, which are the masks that `ipv4_wtoi` makes. `ipv4_isimask` makes the
same test without the complement (§1). `ipv4_itow` counts bits in fields of
four, then of eight (§2). So two of the three notions of a mask are one,
and the third agrees with them on 0, on all ones, and on the words that
are ones at neither end (§3).
-/
import Nanio.Sock.Ipv4Text
import Nanio.Lib.Fields

namespace Nanio.Sock

open Nanio.Lib

/-! ## §1 The code -/

/-- `ipv4_ismask`. -/
def ipv4Ismask (ip : Text) : Except TextFault Bool := do
  if !(← ipv4Isip ip) then pure false
  else do
    let m := ~~~(← ipv4Atoi ip)
    pure (m &&& (m + 1) == 0)

/-- `ipv4_isimask`. -/
def ipv4Isimask (ip : UInt32) : Bool := ip &&& (ip + 1) == 0

/-- `n = (n >> 1) & 0x77777777`. -/
def itowShift (n : UInt32) : UInt32 := (n >>> 1) &&& 0x77777777

/-- `ipv4_itow`. -/
def ipv4Itow (mask : UInt32) : UInt32 :=
  let n := itowShift mask
  let mask := mask - n
  let n := itowShift n
  let mask := mask - n
  let n := itowShift n
  let mask := mask - n
  let mask := (mask + (mask >>> 4)) &&& 0x0F0F0F0F
  (mask * 0x1010101) >>> 24

/-- `ipv4_wtoi`. A shift by a negative count, or by 32 and more, is not
defined. -/
def ipv4Wtoi (width : Int) : Option UInt32 :=
  if width = 0 then some 0
  else if 0 ≤ 32 - width ∧ 32 - width < 32 then
    some (0xFFFFFFFF <<< UInt32.ofNat (32 - width).toNat)
  else none

/-! ## §2 Counting the ones -/

theorem itowShift_mapFields {x : UInt32} {f : Nat → Nat} (hf : ∀ y < 2 ^ 4, f y < 2 ^ 4) {n : Nat}
    (hx : x.toNat = mapFields 4 f 8 n) :
    (itowShift x).toNat = mapFields 4 (fun y => f y / 2) 8 n := by
  have hmask : (0x77777777 : UInt32).toNat = mapFields 4 (fun _ => 2 ^ 3 - 1) 8 0 := by decide
  have hshift : (x >>> 1).toNat = x.toNat / 2 := by
    rw [UInt32.toNat_shiftRight, Nat.shiftRight_eq_div_pow]
    rfl
  have hhalve := halve_mask 3 8 (mapFields 4 f 8 n)
  rw [itowShift, UInt32.toNat_and, hshift, hmask, hx, hhalve, mapFields_mapFields hf]
  rfl

theorem sub_mapFields {x y : UInt32} {f g : Nat → Nat} {n : Nat}
    (hx : x.toNat = mapFields 4 f 8 n) (hy : y.toNat = mapFields 4 g 8 n)
    (h : ∀ z < 2 ^ 4, g z ≤ f z) : (x - y).toNat = mapFields 4 (fun z => f z - g z) 8 n := by
  have hle : y ≤ x := by
    rw [UInt32.le_iff_toNat_le, hx, hy]
    exact mapFields_le h 8 n
  rw [UInt32.toNat_sub_of_le _ _ hle, hx, hy, mapFields_sub h]

/-- Four bytes, none above 8, times 0x1010101: their sum is the top byte. -/
theorem sumBytes {g : Nat → Nat} (hg : ∀ y < 2 ^ 8, g y ≤ 8) (n : Nat) :
    mapFields 8 g 4 n * 0x1010101 % 2 ^ 32 / 2 ^ 24 = sumFields 8 g 4 n := by
  have hlt : ∀ k : Nat, k % 2 ^ 8 < 2 ^ 8 := fun k => Nat.mod_lt k (by omega)
  have h₀ := hg _ (hlt n)
  have h₁ := hg _ (hlt (n / 2 ^ 8))
  have h₂ := hg _ (hlt (n / 2 ^ 8 / 2 ^ 8))
  have h₃ := hg _ (hlt (n / 2 ^ 8 / 2 ^ 8 / 2 ^ 8))
  simp only [mapFields, sumFields]
  generalize g (n % 2 ^ 8) = a at h₀
  generalize g (n / 2 ^ 8 % 2 ^ 8) = b at h₁
  generalize g (n / 2 ^ 8 / 2 ^ 8 % 2 ^ 8) = c at h₂
  generalize g (n / 2 ^ 8 / 2 ^ 8 / 2 ^ 8 % 2 ^ 8) = d at h₃
  have hprod : (a + 2 ^ 8 * (b + 2 ^ 8 * (c + 2 ^ 8 * (d + 2 ^ 8 * 0)))) * 0x1010101 =
      (a + 2 ^ 8 * (a + b) + 2 ^ 16 * (a + b + c) + 2 ^ 24 * (a + b + c + d)) +
        2 ^ 32 * (b + c + d + 2 ^ 8 * (c + d) + 2 ^ 16 * d) := by
    omega
  rw [hprod, Nat.add_mul_mod_self_left, Nat.mod_eq_of_lt (by omega)]
  omega

/-- What is left of a field of four bits after the three rounds. -/
def nibbleCount (x : Nat) : Nat := x - x / 2 - x / 2 / 2 - x / 2 / 2 / 2

theorem nibbleCount_spec {x : Nat} (hx : x < 2 ^ 4) :
    nibbleCount x = bitCount 4 x ∧ nibbleCount x ≤ 4 := by
  have hall : ∀ x : Fin 16, nibbleCount x = bitCount 4 x ∧ nibbleCount x ≤ 4 := by decide
  exact hall ⟨x, hx⟩

theorem bitCount_byte {b : Nat} (hb : b < 2 ^ 8) :
    nibbleCount (b % 2 ^ 4) + nibbleCount (b / 2 ^ 4) = bitCount 8 b := by
  have hlow := Nat.mod_lt b (by omega : 0 < 2 ^ 4)
  have hhigh : b / 2 ^ 4 < 2 ^ 4 := by omega
  have hcount := bitCount_low_high hlow 4 (b / 2 ^ 4)
  rw [Nat.mod_add_div] at hcount
  rw [(nibbleCount_spec hlow).1, (nibbleCount_spec hhigh).1, ← hcount]

/-- The three rounds of shift and subtraction. -/
theorem itow_rounds (m : UInt32) :
    (m - itowShift m - itowShift (itowShift m) - itowShift (itowShift (itowShift m))).toNat =
      mapFields 4 nibbleCount 8 m.toNat := by
  have hid : m.toNat = mapFields 4 (fun y => y) 8 m.toNat := by
    rw [mapFields_id, Nat.mod_eq_of_lt m.toNat_lt]
  have h₁ := itowShift_mapFields (fun _ hy => hy) hid
  have h₂ := itowShift_mapFields (by omega) h₁
  have h₃ := itowShift_mapFields (by omega) h₂
  have s₁ := sub_mapFields hid h₁ (by omega)
  have s₂ := sub_mapFields s₁ h₂ (by omega)
  exact sub_mapFields s₂ h₃ (by omega)

/-- `ipv4_itow` is the number of one bits. -/
theorem ipv4Itow_eq (m : UInt32) : (ipv4Itow m).toNat = bitCount 32 m.toNat := by
  have hrounds := itow_rounds m
  have hle : ∀ x < 2 ^ 4, nibbleCount x ≤ 4 := fun x hx => (nibbleCount_spec hx).2
  have hmask : (0x0F0F0F0F : UInt32).toNat = mapFields (4 + 4) (fun _ => 2 ^ 4 - 1) 4 0 := by decide
  have hfactor : (0x1010101 : UInt32).toNat = 0x1010101 := rfl
  unfold ipv4Itow
  simp only []
  generalize m - itowShift m - itowShift (itowShift m) - itowShift (itowShift (itowShift m)) = n
    at hrounds ⊢
  have hshift : (n >>> 4).toNat = n.toNat / 2 ^ 4 := by
    rw [UInt32.toNat_shiftRight, Nat.shiftRight_eq_div_pow]
    rfl
  have hadd : (n + n >>> 4).toNat = n.toNat + n.toNat / 2 ^ 4 := by
    have hbound := mapFields_le hle 8 m.toNat
    have hconst : mapFields 4 (fun _ => 4) 8 m.toNat = 0x44444444 := by simp [mapFields]
    rw [UInt32.toNat_add, hshift, Nat.mod_eq_of_lt (by omega)]
  have hpairs := add_pairs hle (by omega) 4 m.toNat
  have hbytes : ((n + n >>> 4) &&& 0x0F0F0F0F).toNat = mapFields 8 (bitCount 8) 4 m.toNat := by
    rw [UInt32.toNat_and, hadd, hmask, hrounds]
    exact hpairs.trans (mapFields_congr (fun b hb => bitCount_byte hb) 4 m.toNat)
  have hcount := bitCount_eq_sumFields 8 4 m.toNat
  have hsum := sumBytes (fun y _ => bitCount_le 8 y) m.toNat
  rw [UInt32.toNat_shiftRight, UInt32.toNat_mul, hbytes, hfactor, Nat.shiftRight_eq_div_pow]
  exact hsum.trans hcount.symm

/-! ## §3 The three tests -/

/-- The test by `m & (m + 1)`: ones at the low end and nothing else. -/
theorem and_succ_eq_zero (m : UInt32) :
    (m &&& (m + 1) == 0) = true ↔ ∃ k ≤ 32, m.toNat = 2 ^ k - 1 := by
  have hlt := m.toNat_lt
  have hand : (m &&& (m + 1) == 0) = true ↔ m.toNat &&& (m.toNat + 1) % 2 ^ 32 = 0 := by
    rw [beq_iff_eq, ← UInt32.toNat_inj, UInt32.toNat_and, UInt32.toNat_add]
    rfl
  rw [hand]
  by_cases hmax : m.toNat = 2 ^ 32 - 1
  · have hzero : (m.toNat + 1) % 2 ^ 32 = 0 := by omega
    rw [hzero, Nat.and_zero]
    exact iff_of_true rfl ⟨32, by omega, hmax⟩
  · rw [Nat.mod_eq_of_lt (by omega), Nat.and_comm]
    have hpow := Nat.and_sub_one_eq_zero_iff_isPowerOfTwo (Nat.succ_ne_zero m.toNat)
    rw [Nat.succ_eq_add_one, Nat.add_sub_cancel] at hpow
    rw [hpow]
    constructor
    · rintro ⟨k, hk⟩
      have hle : k ≤ 32 := by
        have hpowlt : 2 ^ k < 2 ^ 33 := by omega
        have hklt := (Nat.pow_lt_pow_iff_right (by omega)).mp hpowlt
        omega
      exact ⟨k, hle, by omega⟩
    · rintro ⟨k, -, hk⟩
      have hpos := Nat.two_pow_pos k
      exact ⟨k, by omega⟩

theorem ipv4Isimask_iff (m : UInt32) : ipv4Isimask m = true ↔ ∃ k ≤ 32, m.toNat = 2 ^ k - 1 :=
  and_succ_eq_zero m

/-- The text of a word is a mask if the word is ones at the high end. -/
theorem ipv4Ismask_iff (m : UInt32) :
    ipv4Ismask (ipv4Itostr m) = .ok true ↔ ∃ k ≤ 32, m.toNat = 2 ^ 32 - 2 ^ k := by
  have hend : ∀ c ∈ ([] : Text).head?, isDigit c = false := by simp
  have hisip := (quad_ipv4Itostr m).isip hend
  have hatoi := (quad_ipv4Itostr m).atoi hend
  rw [List.append_nil] at hisip hatoi
  have hcode : ipv4Ismask (ipv4Itostr m) = .ok (~~~m &&& (~~~m + 1) == 0) := by
    rw [ipv4Ismask]
    simp only [hisip, hatoi, bind, Except.bind]
    rfl
  have hlt := m.toNat_lt
  have hnot : (~~~m).toNat = 2 ^ 32 - 1 - m.toNat := UInt32.toNat_not m
  have hpow : ∀ k ≤ 32, 0 < 2 ^ k ∧ 2 ^ k ≤ 2 ^ 32 := fun k hk =>
    ⟨Nat.two_pow_pos k, Nat.pow_le_pow_right (by omega) hk⟩
  rw [hcode, Except.ok.injEq, and_succ_eq_zero, hnot]
  constructor
  · rintro ⟨k, hk, heq⟩
    have hk' := hpow k hk
    exact ⟨k, hk, by omega⟩
  · rintro ⟨k, hk, heq⟩
    have hk' := hpow k hk
    exact ⟨k, hk, by omega⟩

/-- The mask of a width. -/
theorem ipv4Wtoi_eq {w : Nat} (hw : w ≤ 32) :
    ipv4Wtoi w = some (UInt32.ofNat (2 ^ 32 - 2 ^ (32 - w))) := by
  have hall : ∀ w : Fin 33,
      ipv4Wtoi (w : Nat) = some (UInt32.ofNat (2 ^ 32 - 2 ^ (32 - w.val))) := by
    decide
  exact hall ⟨w, by omega⟩

theorem bitCount_mask {k : Nat} (hk : k ≤ 32) : bitCount 32 (2 ^ 32 - 2 ^ k) = 32 - k := by
  have hall : ∀ k : Fin 33, bitCount 32 (2 ^ 32 - 2 ^ k.val) = 32 - k := by decide +kernel
  exact hall ⟨k, by omega⟩

/-- The words that are the mask of their number of ones. -/
theorem ipv4Wtoi_ipv4Itow_iff (m : UInt32) :
    ipv4Wtoi (toInt (ipv4Itow m).toNat) = some m ↔ ∃ k ≤ 32, m.toNat = 2 ^ 32 - 2 ^ k := by
  have hle := bitCount_le 32 m.toNat
  have hwidth : toInt ((ipv4Itow m).toNat : Nat) = (bitCount 32 m.toNat : Nat) := by
    rw [ipv4Itow_eq, toInt_of_lt (by omega) (by omega)]
  have hpos : ∀ k, 2 ^ 32 - 2 ^ k < 2 ^ 32 := fun k => by
    have := Nat.two_pow_pos k
    omega
  rw [hwidth, ipv4Wtoi_eq hle, Option.some.injEq, ← UInt32.toNat_inj,
    UInt32.toNat_ofNat_of_lt' (hpos _)]
  constructor
  · intro h
    exact ⟨32 - bitCount 32 m.toNat, by omega, h.symm⟩
  · rintro ⟨k, hk, heq⟩
    have hback : 32 - (32 - k) = k := by omega
    rw [heq, bitCount_mask hk, hback]

/-- Ones at both ends and nothing else. -/
theorem low_high_iff (m : UInt32) :
    ((∃ k ≤ 32, m.toNat = 2 ^ k - 1) ∧ ∃ k ≤ 32, m.toNat = 2 ^ 32 - 2 ^ k) ↔
      m = 0 ∨ m = 0xFFFFFFFF := by
  have hzero : (0 : UInt32).toNat = 0 := rfl
  have hmax : (0xFFFFFFFF : UInt32).toNat = 2 ^ 32 - 1 := rfl
  rw [← UInt32.toNat_inj, ← UInt32.toNat_inj, hzero, hmax]
  constructor
  · rintro ⟨⟨a, -, ha⟩, b, -, hb⟩
    cases a with
    | zero => exact .inl ha
    | succ a =>
      cases b with
      | zero => exact .inr hb
      | succ b =>
        -- an odd number against an even one
        have hpos := Nat.two_pow_pos a
        have hlt := m.toNat_lt
        rw [Nat.pow_succ] at ha hb
        omega
  · rintro (h | h)
    · exact ⟨⟨0, by omega, h⟩, 32, by omega, h⟩
    · exact ⟨⟨32, by omega, h⟩, 0, by omega, h⟩

/-- The three notions of a mask agree on a word exactly if it is 0, all
ones, or no block of ones at either end. -/
theorem netmasks_agree (m : UInt32) :
    ((ipv4Ismask (ipv4Itostr m) = .ok true ↔ ipv4Isimask m = true) ∧
      (ipv4Isimask m = true ↔ ipv4Wtoi (toInt (ipv4Itow m).toNat) = some m) ∧
      (ipv4Itow m).toNat = bitCount 32 m.toNat) ↔
    m = 0 ∨ m = 0xFFFFFFFF ∨ ∀ k ≤ 32, m.toNat ≠ 2 ^ k - 1 ∧ m.toNat ≠ 2 ^ 32 - 2 ^ k := by
  have hneither : (∀ k ≤ 32, m.toNat ≠ 2 ^ k - 1 ∧ m.toNat ≠ 2 ^ 32 - 2 ^ k) ↔
      (¬ ∃ k ≤ 32, m.toNat = 2 ^ k - 1) ∧ ¬ ∃ k ≤ 32, m.toNat = 2 ^ 32 - 2 ^ k := by
    constructor
    · intro h
      exact ⟨fun ⟨k, hk, he⟩ => (h k hk).1 he, fun ⟨k, hk, he⟩ => (h k hk).2 he⟩
    · rintro ⟨hlow, hhigh⟩ k hk
      exact ⟨fun he => hlow ⟨k, hk, he⟩, fun he => hhigh ⟨k, hk, he⟩⟩
  rw [ipv4Ismask_iff, ipv4Isimask_iff, ipv4Wtoi_ipv4Itow_iff, ← or_assoc, ← low_high_iff, hneither]
  generalize (∃ k ≤ 32, m.toNat = 2 ^ k - 1) = low
  generalize (∃ k ≤ 32, m.toNat = 2 ^ 32 - 2 ^ k) = high
  by_cases hlow : low
  · by_cases hhigh : high
    · simp [hlow, hhigh, ipv4Itow_eq]
    · simp [hlow, hhigh]
  · by_cases hhigh : high
    · simp [hlow, hhigh]
    · simp [hlow, hhigh, ipv4Itow_eq]

/-- 255.255.255.0 is a mask as a text and as a width, not as a word. -/
theorem netmasks_disagree :
    ¬ ∀ m : UInt32, (ipv4Ismask (ipv4Itostr m) = .ok true ↔ ipv4Isimask m = true) ∧
      (ipv4Isimask m = true ↔ ipv4Wtoi (toInt (ipv4Itow m).toNat) = some m) ∧
      (ipv4Itow m).toNat = bitCount 32 m.toNat := by
  intro h
  have hword : ipv4Isimask 0xFFFFFF00 = false := by decide
  have hwidth : ipv4Wtoi (toInt (ipv4Itow 0xFFFFFF00).toNat) = some 0xFFFFFF00 := by decide
  have hiff := (h 0xFFFFFF00).2.1
  simp [hword, hwidth] at hiff

end Nanio.Sock
