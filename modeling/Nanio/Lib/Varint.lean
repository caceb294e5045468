/-
Nanio.Lib.Varint — numbers as bytes of seven bits, the low ones first.

Every byte but the last has its high bit set. `Varint` are the byte strings
in shortest form: behind a byte with the high bit there is not just a zero.
Each is `varint` of its `value` and the other way round (`varint_value`,
`value_varint`), so a number has one shortest form, and a proper prefix of
it is high bits only (`Varint.cut_high`).
-/
import Mathlib.Algebra.Ring.Nat
import Mathlib.Data.List.Infix

namespace Nanio.Lib

/-- The bytes of a number. -/
def varint (n : Nat) : List UInt8 :=
  if n < 128 then [UInt8.ofNat n] else UInt8.ofNat (n % 128 + 128) :: varint (n / 128)

/-- The number that bytes stand for, their high bits left out. -/
def value : List UInt8 → Nat
  | [] => 0
  | b :: bytes => b.toNat % 128 + 128 * value bytes

/-- The shortest form of a number. -/
inductive Varint : List UInt8 → Prop where
  | last {b : UInt8} (hb : b.toNat < 128) : Varint [b]
  | more {b : UInt8} {bytes : List UInt8} (hb : 128 ≤ b.toNat) (h0 : bytes ≠ [0])
      (h : Varint bytes) : Varint (b :: bytes)

theorem varint_small {n : Nat} (h : n < 128) : varint n = [UInt8.ofNat n] := by
  rw [varint, if_pos h]

theorem varint_large {n : Nat} (h : 128 ≤ n) :
    varint n = UInt8.ofNat (n % 128 + 128) :: varint (n / 128) := by
  rw [varint, if_neg (by omega)]

theorem toNat_ofNat_byte {n : Nat} (h : n < 256) : (UInt8.ofNat n).toNat = n :=
  UInt8.toNat_ofNat_of_lt' h

theorem varint_eq_zero_iff (n : Nat) : varint n = [0] ↔ n = 0 := by
  constructor
  · intro h
    by_cases hn : n < 128
    · rw [varint_small hn, List.singleton_inj, ← UInt8.toNat_inj, toNat_ofNat_byte (by omega)] at h
      exact h
    · rw [varint_large (by omega), List.cons.injEq, ← UInt8.toNat_inj,
        toNat_ofNat_byte (by omega)] at h
      have h0 : (0 : UInt8).toNat = 0 := rfl
      omega
  · rintro rfl
    exact varint_small (by omega)

theorem varint_varint (n : Nat) : Varint (varint n) := by
  induction n using Nat.strong_induction_on with
  | h n ih =>
    by_cases hn : n < 128
    · rw [varint_small hn]
      exact .last (by rwa [toNat_ofNat_byte (by omega)])
    · rw [varint_large (by omega)]
      refine .more ?_ ?_ (ih _ (by omega))
      · rw [toNat_ofNat_byte (by omega)]
        omega
      · rw [ne_eq, varint_eq_zero_iff]
        omega

theorem value_varint (n : Nat) : value (varint n) = n := by
  induction n using Nat.strong_induction_on with
  | h n ih =>
    by_cases hn : n < 128
    · rw [varint_small hn, value, value, toNat_ofNat_byte (by omega)]
      omega
    · rw [varint_large (by omega), value, ih _ (by omega), toNat_ofNat_byte (by omega)]
      omega

/-- Only a zero byte of its own stands for zero. -/
theorem Varint.value_pos {bytes : List UInt8} (h : Varint bytes) (h0 : bytes ≠ [0]) :
    0 < value bytes := by
  induction h with
  | @last b hb =>
    have hne : b.toNat ≠ (0 : UInt8).toNat := by
      rw [ne_eq, UInt8.toNat_inj]
      rintro rfl
      exact h0 rfl
    have hzero : (0 : UInt8).toNat = 0 := rfl
    simp only [value]
    omega
  | more hb hrest h ih =>
    have hpos := ih hrest
    simp only [value]
    omega

theorem varint_value {bytes : List UInt8} (h : Varint bytes) : varint (value bytes) = bytes := by
  induction h with
  | @last b hb =>
    have hvalue : value [b] = b.toNat := by
      simp only [value]
      omega
    rw [hvalue, varint_small hb, UInt8.ofNat_toNat]
  | @more b bytes hb h0 h ih =>
    have hlt := b.toNat_lt
    have hpos := h.value_pos h0
    have hlow : value (b :: bytes) % 128 + 128 = b.toNat := by
      rw [value]
      omega
    have hhigh : value (b :: bytes) / 128 = value bytes := by
      rw [value]
      omega
    have hlarge : 128 ≤ value (b :: bytes) := by
      rw [value]
      omega
    rw [varint_large hlarge, hlow, hhigh, ih, UInt8.ofNat_toNat]

theorem Varint.ne_nil {bytes : List UInt8} (h : Varint bytes) : bytes ≠ [] := by
  cases h <;> simp

/-- A number cut off ends in a byte that has one behind it. -/
theorem Varint.cut_high {bytes pre : List UInt8} (h : Varint bytes) (hpre : pre <+: bytes)
    (hne : pre ≠ bytes) : ∀ b ∈ pre, 128 ≤ b.toNat := by
  induction h generalizing pre with
  | last =>
    cases pre with
    | nil => simp
    | cons c pre =>
      obtain ⟨rfl, hnil⟩ := List.cons_prefix_cons.mp hpre
      rw [List.prefix_nil.mp hnil] at hne
      exact absurd rfl hne
  | more hb h0 h ih =>
    cases pre with
    | nil => simp
    | cons c pre =>
      obtain ⟨rfl, hrest⟩ := List.cons_prefix_cons.mp hpre
      have hrestne : pre ≠ _ := fun he => hne (by rw [he])
      exact List.forall_mem_cons.mpr ⟨hb, ih hrest hrestne⟩

/-- So many bytes for each power of 128. -/
theorem length_varint_le_iff (k n : Nat) : (varint n).length ≤ k + 1 ↔ n < 128 ^ (k + 1) := by
  induction k generalizing n with
  | zero =>
    by_cases hn : n < 128
    · simp [varint_small hn, hn]
    · have hpos : 0 < (varint (n / 128)).length := List.length_pos_iff.mpr (varint_varint _).ne_nil
      rw [varint_large (by omega), List.length_cons]
      omega
  | succ k ih =>
    by_cases hn : n < 128
    · have hle : 128 ≤ 128 ^ (k + 1 + 1) := Nat.le_self_pow (by omega) 128
      rw [varint_small hn, List.length_singleton]
      omega
    · rw [varint_large (by omega), List.length_cons, Nat.add_le_add_iff_right, ih,
        Nat.div_lt_iff_lt_mul (by omega), ← Nat.pow_succ]

end Nanio.Lib
