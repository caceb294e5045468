/-
Nanio.Lib.Fields — arithmetic on the fields of a word, all at once.

A word is cut into `k` fields of `w` bits. `mapFields` applies a function
to each field in place and `sumFields` adds its values up. Shifting,
masking, subtracting and adding whole words are such maps as long as no
field runs over (`halve_mask`, `mapFields_sub`, `add_pairs`), and the bits of a
word are counted field by field (`bitCount_eq_sumFields`).
-/
import Mathlib.Algebra.Ring.Nat
import Mathlib.Data.Nat.Bitwise
import Mathlib.Tactic.Ring

namespace Nanio.Lib

/-! ## Maps over fields -/

/-- `f` of each of the low `k` fields of `w` bits, in their places. -/
def mapFields (w : Nat) (f : Nat → Nat) : Nat → Nat → Nat
  | 0, _ => 0
  | k + 1, n => f (n % 2 ^ w) + 2 ^ w * mapFields w f k (n / 2 ^ w)

/-- The sum of `f` of each of the low `k` fields. -/
def sumFields (w : Nat) (f : Nat → Nat) : Nat → Nat → Nat
  | 0, _ => 0
  | k + 1, n => f (n % 2 ^ w) + sumFields w f k (n / 2 ^ w)

section

variable {w : Nat} {f g : Nat → Nat}

theorem mapFields_id (w k n : Nat) : mapFields w (fun x => x) k n = n % 2 ^ (w * k) := by
  induction k generalizing n with
  | zero => simp [mapFields, Nat.mod_one]
  | succ k ih =>
    rw [mapFields, ih, Nat.mul_succ, Nat.add_comm (w * k) w, Nat.pow_add, Nat.mod_mul]

theorem mapFields_congr (h : ∀ x < 2 ^ w, f x = g x) (k n : Nat) :
    mapFields w f k n = mapFields w g k n := by
  induction k generalizing n with
  | zero => rfl
  | succ k ih => rw [mapFields, mapFields, h _ (Nat.mod_lt n (Nat.two_pow_pos w)), ih]

/-- The low field and the rest of a word of fields. -/
theorem mapFields_succ_div_mod (hf : ∀ x < 2 ^ w, f x < 2 ^ w) (k n : Nat) :
    mapFields w f (k + 1) n % 2 ^ w = f (n % 2 ^ w) ∧
      mapFields w f (k + 1) n / 2 ^ w = mapFields w f k (n / 2 ^ w) := by
  have hlow := hf _ (Nat.mod_lt n (Nat.two_pow_pos w))
  rw [mapFields, Nat.add_mul_mod_self_left, Nat.mod_eq_of_lt hlow,
    Nat.add_mul_div_left _ _ (Nat.two_pow_pos w), Nat.div_eq_of_lt hlow, Nat.zero_add]
  exact ⟨rfl, rfl⟩

theorem mapFields_mapFields (hf : ∀ x < 2 ^ w, f x < 2 ^ w) (k n : Nat) :
    mapFields w g k (mapFields w f k n) = mapFields w (g ∘ f) k n := by
  induction k generalizing n with
  | zero => rfl
  | succ k ih =>
    obtain ⟨hmod, hdiv⟩ := mapFields_succ_div_mod hf k n
    rw [mapFields, hmod, hdiv, ih, mapFields]
    rfl

theorem mapFields_le (h : ∀ x < 2 ^ w, g x ≤ f x) (k n : Nat) :
    mapFields w g k n ≤ mapFields w f k n := by
  induction k generalizing n with
  | zero => exact Nat.le_refl 0
  | succ k ih =>
    have hlow := h _ (Nat.mod_lt n (Nat.two_pow_pos w))
    have hhigh := Nat.mul_le_mul_left (2 ^ w) (ih (n / 2 ^ w))
    rw [mapFields, mapFields]
    omega

/-- Words subtract field by field where no field borrows. -/
theorem mapFields_sub (h : ∀ x < 2 ^ w, g x ≤ f x) (k n : Nat) :
    mapFields w f k n - mapFields w g k n = mapFields w (fun x => f x - g x) k n := by
  induction k generalizing n with
  | zero => rfl
  | succ k ih =>
    have hlow := h _ (Nat.mod_lt n (Nat.two_pow_pos w))
    have hle := mapFields_le h k (n / 2 ^ w)
    have hhigh : 2 ^ w * mapFields w f k (n / 2 ^ w) - 2 ^ w * mapFields w g k (n / 2 ^ w) =
        2 ^ w * mapFields w (fun x => f x - g x) k (n / 2 ^ w) := by
      rw [← Nat.mul_sub, ih]
    have hmul := Nat.mul_le_mul_left (2 ^ w) hle
    rw [mapFields, mapFields, mapFields]
    omega

end

/-! ## Masks -/

/-- The conjunction of two words, low field and rest. -/
theorem and_low_high {w a b : Nat} (ha : a < 2 ^ w) (hb : b < 2 ^ w) (A B : Nat) :
    (a + 2 ^ w * A) &&& (b + 2 ^ w * B) = (a &&& b) + 2 ^ w * (A &&& B) := by
  have hab : a &&& b < 2 ^ w := Nat.and_lt_two_pow a hb
  have hbit : ∀ {x : Nat}, x < 2 ^ w → ∀ X j, (x + 2 ^ w * X).testBit j =
      if j < w then x.testBit j else X.testBit (j - w) := by
    intro x hx X j
    rw [Nat.add_comm, Nat.testBit_two_pow_mul_add X hx]
  apply Nat.eq_of_testBit_eq
  intro j
  rw [Nat.testBit_and, hbit ha, hbit hb, hbit hab, Nat.testBit_and, Nat.testBit_and]
  split <;> rfl

/-- A mask of `w` bits at bit `s` takes a field out. -/
theorem and_field (n w s : Nat) : n &&& (2 ^ w - 1) * 2 ^ s = n / 2 ^ s % 2 ^ w * 2 ^ s := by
  rw [← Nat.shiftLeft_eq, ← Nat.shiftLeft_eq, ← Nat.and_two_pow_sub_one_eq_mod,
    ← Nat.shiftRight_eq_div_pow]
  apply Nat.eq_of_testBit_eq
  intro j
  simp only [Nat.testBit_and, Nat.testBit_shiftLeft, Nat.testBit_shiftRight]
  by_cases hj : s ≤ j
  · have hback : s + (j - s) = j := by omega
    simp [hj, hback]
  · simp [hj]

/-- `n >> 1` under a mask without the top bit of each field halves each field. -/
theorem halve_mask (v k n : Nat) :
    n / 2 &&& mapFields (v + 1) (fun _ => 2 ^ v - 1) k 0 = mapFields (v + 1) (· / 2) k n := by
  induction k generalizing n with
  | zero => simp [mapFields]
  | succ k ih =>
    have hpos := Nat.two_pow_pos v
    have hpow : 2 ^ (v + 1) = 2 ^ v * 2 := Nat.pow_succ 2 v
    have hx := Nat.mod_lt n (Nat.two_pow_pos (v + 1))
    generalize hX : n % 2 ^ (v + 1) = x at hx
    generalize hA : n / 2 ^ (v + 1) = A
    have hn : n = x + 2 ^ (v + 1) * A := by rw [← hX, ← hA, Nat.mod_add_div]
    have hhalf : n / 2 = (x / 2 + 2 ^ v * (A % 2)) + 2 ^ (v + 1) * (A / 2) := by
      have hA2 : A = A % 2 + 2 * (A / 2) := (Nat.mod_add_div A 2).symm
      have hmul : 2 ^ (v + 1) * A = 2 * (2 ^ v * (A % 2) + 2 ^ (v + 1) * (A / 2)) := by
        conv_lhs => rw [hA2]
        rw [hpow]
        ring
      omega
    have hlow : x / 2 + 2 ^ v * (A % 2) < 2 ^ (v + 1) := by
      have hbit := Nat.mod_lt A (by omega : 0 < 2)
      have hmul := Nat.mul_le_mul_left (2 ^ v) (by omega : A % 2 ≤ 1)
      omega
    have hmask : (x / 2 + 2 ^ v * (A % 2)) &&& (2 ^ v - 1) = x / 2 := by
      rw [Nat.and_two_pow_sub_one_eq_mod, Nat.add_mul_mod_self_left, Nat.mod_eq_of_lt (by omega)]
    rw [mapFields, Nat.zero_div, hhalf, and_low_high hlow (by omega), hmask, ih, mapFields, hX, hA]

theorem mapFields_mod_le {w c : Nat} {f : Nat → Nat} (hf : ∀ x < 2 ^ w, f x ≤ c) (hc : c < 2 ^ w)
    (k n : Nat) : mapFields w f k n % 2 ^ w ≤ c := by
  cases k with
  | zero => simp [mapFields]
  | succ k =>
    have hlow := hf _ (Nat.mod_lt n (Nat.two_pow_pos w))
    rw [mapFields, Nat.add_mul_mod_self_left, Nat.mod_eq_of_lt (by omega)]
    exact hlow

/-- Adding the word shifted by one field, under a mask of every other
field, adds the fields in pairs, as long as the sums fit. -/
theorem add_pairs {w c : Nat} {f : Nat → Nat} (hf : ∀ x < 2 ^ w, f x ≤ c) (hc : c + c < 2 ^ w)
    (k n : Nat) :
    (mapFields w f (2 * k) n + mapFields w f (2 * k) n / 2 ^ w) &&&
      mapFields (w + w) (fun _ => 2 ^ w - 1) k 0 =
        mapFields (w + w) (fun b => f (b % 2 ^ w) + f (b / 2 ^ w)) k n := by
  induction k generalizing n with
  | zero => simp [mapFields]
  | succ k ih =>
    have hpos := Nat.two_pow_pos w
    have hw : ∀ x < 2 ^ w, f x < 2 ^ w := fun x hx => by
      have hle := hf x hx
      omega
    have hpow : 2 ^ (w + w) = 2 ^ w * 2 ^ w := Nat.pow_add 2 w w
    have h₀ := hf _ (Nat.mod_lt n hpos)
    have h₁ := hf _ (Nat.mod_lt (n / 2 ^ w) hpos)
    have hA := mapFields_mod_le hf (by omega) (2 * k) (n / 2 ^ w / 2 ^ w)
    have hlowmod : n % 2 ^ (w + w) % 2 ^ w = n % 2 ^ w := by
      rw [hpow, Nat.mod_mul_right_mod]
    have hlowdiv : n % 2 ^ (w + w) / 2 ^ w = n / 2 ^ w % 2 ^ w := by
      rw [hpow, Nat.mod_mul_right_div_self]
    have hdiv : n / 2 ^ (w + w) = n / 2 ^ w / 2 ^ w := by rw [hpow, Nat.div_div_eq_div_mul]
    have hmask : mapFields (w + w) (fun _ => 2 ^ w - 1) (k + 1) 0 =
        (2 ^ w - 1) + 2 ^ (w + w) * mapFields (w + w) (fun _ => 2 ^ w - 1) k 0 := by
      rw [mapFields, Nat.zero_div]
    have hword : mapFields w f (2 * (k + 1)) n = f (n % 2 ^ w) + 2 ^ w *
        (f (n / 2 ^ w % 2 ^ w) + 2 ^ w * mapFields w f (2 * k) (n / 2 ^ w / 2 ^ w)) := rfl
    have hgoal : mapFields (w + w) (fun b => f (b % 2 ^ w) + f (b / 2 ^ w)) (k + 1) n =
        f (n % 2 ^ w) + f (n / 2 ^ w % 2 ^ w) + 2 ^ (w + w) *
          mapFields (w + w) (fun b => f (b % 2 ^ w) + f (b / 2 ^ w)) k (n / 2 ^ w / 2 ^ w) := by
      rw [mapFields, hlowmod, hlowdiv, hdiv]
    rw [hmask, hword, hgoal, ← ih]
    generalize mapFields w f (2 * k) (n / 2 ^ w / 2 ^ w) = A at hA
    generalize f (n % 2 ^ w) = p at h₀
    generalize f (n / 2 ^ w % 2 ^ w) = q at h₁
    -- the shift moves every field down by one place
    have hshift : (p + 2 ^ w * (q + 2 ^ w * A)) / 2 ^ w = q + 2 ^ w * A := by
      rw [Nat.add_mul_div_left _ _ hpos, Nat.div_eq_of_lt (by omega), Nat.zero_add]
    have hsum : p + 2 ^ w * (q + 2 ^ w * A) + (q + 2 ^ w * A) =
        (p + q + 2 ^ w * (q + A % 2 ^ w)) + 2 ^ (w + w) * (A + A / 2 ^ w) := by
      nth_rewrite 2 [← Nat.mod_add_div A (2 ^ w)]
      rw [hpow]
      ring
    have hlow : p + q + 2 ^ w * (q + A % 2 ^ w) < 2 ^ (w + w) := by
      have hmul := Nat.mul_le_mul_left (2 ^ w) (by omega : q + A % 2 ^ w + 1 ≤ 2 ^ w)
      rw [Nat.mul_add, Nat.mul_one] at hmul
      omega
    have hle : 2 ^ w - 1 < 2 ^ (w + w) := by
      have hmul := Nat.mul_le_mul_left (2 ^ w) hpos
      omega
    rw [hshift, hsum, and_low_high hlow hle, Nat.and_two_pow_sub_one_eq_mod,
      Nat.add_mul_mod_self_left, Nat.mod_eq_of_lt (by omega)]

/-! ## Counting bits -/

/-- The number of one bits among the low `w`. -/
def bitCount (w n : Nat) : Nat := (List.range w).countP (n.testBit ·)

theorem bitCount_low_high {w x : Nat} (hx : x < 2 ^ w) (v A : Nat) :
    bitCount (w + v) (x + 2 ^ w * A) = bitCount w x + bitCount v A := by
  have hbit : ∀ j, (x + 2 ^ w * A).testBit j =
      if j < w then x.testBit j else A.testBit (j - w) := by
    intro j
    rw [Nat.add_comm, Nat.testBit_two_pow_mul_add A hx]
  rw [bitCount, List.range_add, List.countP_append, List.countP_map]
  congr 1
  · apply List.countP_congr
    intro j hj
    rw [hbit, if_pos (List.mem_range.mp hj)]
  · apply List.countP_congr
    intro j _
    simp [hbit]

/-- The bits of a word are counted field by field. -/
theorem bitCount_eq_sumFields (w k n : Nat) :
    bitCount (w * k) n = sumFields w (bitCount w) k n := by
  induction k generalizing n with
  | zero => rfl
  | succ k ih =>
    have hn := Nat.mod_add_div n (2 ^ w)
    rw [sumFields, ← ih, ← bitCount_low_high (Nat.mod_lt n (Nat.two_pow_pos w)), hn,
      Nat.mul_succ, Nat.add_comm]

theorem bitCount_le (w n : Nat) : bitCount w n ≤ w := by
  have hle := List.countP_le_length (p := (n.testBit ·)) (l := List.range w)
  rwa [List.length_range] at hle

end Nanio.Lib
