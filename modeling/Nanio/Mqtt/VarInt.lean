/-
Nanio.Mqtt.VarInt — the variable byte integers of `examples/mqtt.c`.

`mqtt_put_var_int` writes a number forwards from a pointer,
`mqtt_rev_put_var_int` backwards from it, both by cases on its size; below
268435456 the bytes are the number's shortest form (`mqttPutVarInt_writes`,
`mqttRevPutVarInt_writes`). `mqtt_get_var_int` reads up to four bytes and
takes the shortest form only (`getVarIntLoop_varint`, `getVarIntLoop_ok`).
-/
import Nanio.Lib.Varint
import Mathlib.Algebra.Ring.Int.Defs
import Mathlib.Data.Int.Order.Basic
import Mathlib.Logic.Function.Basic

namespace Nanio.Mqtt

open Nanio.Lib

/-! ## §1 Reading -/

def MALFORMED : UInt32 := ~~~0
def NOT_COMPLETE : UInt32 := ~~~1
def FAILED : UInt32 := ~~~1

/-- The loop of `mqtt_get_var_int`: the number and `*pp` behind it. Where
it returns early `*pp` is where it was. -/
def getVarIntLoop (pp : List UInt8) : List UInt8 → UInt32 → UInt32 → UInt32 × List UInt8
  | [], _, _ => (NOT_COMPLETE, pp)
  | b :: p, n, bit =>
    if b = 0 then (MALFORMED, pp)
    else
      let n := n ||| (b.toUInt32 &&& 127) <<< bit
      if b &&& 128 = 0 then (n, p)
      else if bit + 7 > 21 then (MALFORMED, pp)
      else getVarIntLoop pp p n (bit + 7)

/-- `mqtt_get_var_int`, on the bytes from `*pp` up to `end`. The first is
read without a look at `end`. -/
def mqttGetVarInt : List UInt8 → Option (UInt32 × List UInt8)
  | [] => none
  | b :: p =>
    if b < 128 then some (b.toUInt32, p)
    else some (getVarIntLoop (b :: p) p (b.toUInt32 &&& 127) 7)

/-- `mqtt_get_var_int_size`. -/
def mqttGetVarIntSize (n : UInt32) : UInt32 :=
  if n < 16384 then if n < 128 then 1 else 2
  else if n < 268435456 then if n < 2097152 then 3 else 4
  else ~~~0

/-! ## §2 Writing -/

/-- `p[k] = v` for each pair in turn; a `uint8_t` takes the low byte. -/
def assign (p : Int) (mem : Int → UInt8) (stores : List (Int × UInt32)) : Int → UInt8 :=
  stores.foldl (fun mem s => Function.update mem (p + s.1) s.2.toUInt8) mem

/-- `mqtt_rev_put_var_int`. -/
def mqttRevPutVarInt (mem : Int → UInt8) (p : Int) (n : UInt32) : Int × (Int → UInt8) :=
  if n < 16384 then
    if n < 128 then (1, assign p mem [(-1, n)])
    else (2, assign p mem [(-1, n >>> 7), (-2, n ||| 128)])
  else if n < 2097152 then
    (3, assign p mem [(-1, n >>> 14), (-2, n >>> 7 ||| 128), (-3, n ||| 128)])
  else
    (4, assign p mem [(-1, n >>> 21), (-2, n >>> 14 ||| 128), (-3, n >>> 7 ||| 128),
      (-4, n ||| 128)])

/-- `mqtt_put_var_int`. -/
def mqttPutVarInt (mem : Int → UInt8) (p : Int) (n : UInt32) : Int × (Int → UInt8) :=
  if n < 16384 then
    if n < 128 then (1, assign p mem [(0, n)])
    else (2, assign p mem [(0, n ||| 128), (1, n >>> 7)])
  else if n < 2097152 then
    (3, assign p mem [(0, n ||| 128), (1, n >>> 7 ||| 128), (2, n >>> 14)])
  else
    (4, assign p mem [(0, n ||| 128), (1, n >>> 7 ||| 128), (2, n >>> 14 ||| 128),
      (3, n >>> 21)])

/-- These bytes stand in memory from `a` on, and the rest is as before. -/
structure Writes (mem mem' : Int → UInt8) (a : Int) (bytes : List UInt8) : Prop where
  written : ∀ (i : Nat) b, bytes[i]? = some b → mem' (a + i) = b
  frame : ∀ x, x < a ∨ a + bytes.length ≤ x → mem' x = mem x

section

variable {mem mem' : Int → UInt8} {a : Int} {bytes : List UInt8}

theorem Writes.nil (mem : Int → UInt8) (a : Int) : Writes mem mem a [] where
  written i b h := by simp at h
  frame _ _ := rfl

/-- A byte more behind. -/
theorem Writes.snoc (h : Writes mem mem' a bytes) {c : Int} (hc : c = a + bytes.length)
    (b : UInt8) : Writes mem (Function.update mem' c b) a (bytes ++ [b]) where
  written i x hx := by
    rcases Nat.lt_trichotomy i bytes.length with hi | rfl | hi
    · rw [List.getElem?_append_left hi] at hx
      have hne : a + i ≠ c := by omega
      rw [Function.update_of_ne hne]
      exact h.written i x hx
    · rw [List.getElem?_concat_length] at hx
      rw [← hc, Function.update_self]
      exact Option.some.inj hx
    · rw [List.getElem?_eq_none (by simp; omega)] at hx
      cases hx
  frame x hx := by
    rw [List.length_append, List.length_singleton] at hx
    have hne : x ≠ c := by omega
    rw [Function.update_of_ne hne]
    exact h.frame x (by omega)

/-- A byte more in front. -/
theorem Writes.cons (h : Writes mem mem' a bytes) {c : Int} (hc : c + 1 = a) (b : UInt8) :
    Writes mem (Function.update mem' c b) c (b :: bytes) where
  written i x hx := by
    cases i with
    | zero =>
      have hback : c + (0 : Nat) = c := by omega
      rw [hback, Function.update_self]
      exact Option.some.inj hx
    | succ i =>
      have hne : c + (i + 1 : Nat) ≠ c := by omega
      have hmove : c + (i + 1 : Nat) = a + i := by omega
      rw [Function.update_of_ne hne, hmove]
      exact h.written i x hx
  frame x hx := by
    rw [List.length_cons] at hx
    have hne : x ≠ c := by omega
    rw [Function.update_of_ne hne]
    exact h.frame x (by omega)

end

/-! ## §3 The forms -/

theorem toNat_shiftRight (n k : UInt32) (hk : k.toNat < 32) :
    (n >>> k).toNat = n.toNat / 2 ^ k.toNat := by
  rw [UInt32.toNat_shiftRight, Nat.shiftRight_eq_div_pow, Nat.mod_eq_of_lt hk]

/-- The low byte of a number below 128. -/
theorem toUInt8_last {n : UInt32} {m : Nat} (hn : n.toNat = m) : n.toUInt8 = UInt8.ofNat m := by
  apply UInt8.toNat_inj.mp
  rw [UInt32.toNat_toUInt8, UInt8.toNat_ofNat', hn]

/-- The low byte of a number, with the high bit set. -/
theorem toUInt8_more {n : UInt32} {m : Nat} (hn : n.toNat = m) :
    (n ||| 128).toUInt8 = UInt8.ofNat (m % 128 + 128) := by
  have hbyte : ∀ y : Fin 256, y.val ||| 128 = y.val % 128 + 128 := by decide +kernel
  have hlt := Nat.mod_lt m (by omega : 0 < 256)
  have h128 : (128 : UInt32).toNat = 128 := rfl
  apply UInt8.toNat_inj.mp
  rw [UInt32.toNat_toUInt8, UInt32.toNat_or, hn, h128, Nat.or_mod_two_pow,
    toNat_ofNat_byte (by omega)]
  have hy := hbyte ⟨m % 256, hlt⟩
  simp only at hy
  show m % 256 ||| 128 = m % 128 + 128
  omega

/-- The bytes of a number, by its size. -/
theorem varint_sizes (n : UInt32) (hn : n < 268435456) :
    varint n.toNat =
      if n < 16384 then
        if n < 128 then [n.toUInt8] else [(n ||| 128).toUInt8, (n >>> 7).toUInt8]
      else if n < 2097152 then
        [(n ||| 128).toUInt8, (n >>> 7 ||| 128).toUInt8, (n >>> 14).toUInt8]
      else
        [(n ||| 128).toUInt8, (n >>> 7 ||| 128).toUInt8, (n >>> 14 ||| 128).toUInt8,
          (n >>> 21).toUInt8] := by
  have h7 : (n >>> 7).toNat = n.toNat / 128 := toNat_shiftRight n 7 (by decide)
  have h14 : (n >>> 14).toNat = n.toNat / 128 / 128 := by
    rw [toNat_shiftRight n 14 (by decide), Nat.div_div_eq_div_mul]
    rfl
  have h21 : (n >>> 21).toNat = n.toNat / 128 / 128 / 128 := by
    rw [toNat_shiftRight n 21 (by decide), Nat.div_div_eq_div_mul, Nat.div_div_eq_div_mul]
    rfl
  have hlt : ∀ k : UInt32, n < k ↔ n.toNat < k.toNat := fun k => UInt32.lt_iff_toNat_lt
  have hsize := (hlt _).mp hn
  rw [toUInt8_more rfl, toUInt8_more h7, toUInt8_more h14, toUInt8_last rfl, toUInt8_last h7,
    toUInt8_last h14, toUInt8_last h21]
  simp only [hlt, UInt32.reduceToNat] at hsize ⊢
  split_ifs with h₂ h₁ h₃
  · exact varint_small h₁
  · rw [varint_large (by omega), varint_small (by omega)]
  · rw [varint_large (by omega), varint_large (by omega), varint_small (by omega)]
  · rw [varint_large (by omega), varint_large (by omega), varint_large (by omega),
      varint_small (by omega)]

theorem length_varint (n : UInt32) (hn : n < 268435456) :
    (varint n.toNat).length = (mqttGetVarIntSize n).toNat := by
  rw [varint_sizes n hn, mqttGetVarIntSize, if_pos hn]
  split_ifs <;> rfl

/-- Forwards from `p`. -/
theorem mqttPutVarInt_writes (mem : Int → UInt8) (p : Int) (n : UInt32) (hn : n < 268435456) :
    (mqttPutVarInt mem p n).1 = (varint n.toNat).length ∧
      Writes mem (mqttPutVarInt mem p n).2 p (varint n.toNat) := by
  have h₁ : ∀ b, Writes mem (Function.update mem (p + 0) b) p [b] := fun b =>
    (Writes.nil mem p).snoc (by simp) b
  rw [varint_sizes n hn, mqttPutVarInt]
  split_ifs
  · exact ⟨rfl, h₁ _⟩
  · exact ⟨rfl, (h₁ _).snoc rfl _⟩
  · exact ⟨rfl, ((h₁ _).snoc rfl _).snoc rfl _⟩
  · exact ⟨rfl, (((h₁ _).snoc rfl _).snoc rfl _).snoc rfl _⟩

/-- Backwards from `p`: the bytes end there. -/
theorem mqttRevPutVarInt_writes (mem : Int → UInt8) (p : Int) (n : UInt32) (hn : n < 268435456) :
    (mqttRevPutVarInt mem p n).1 = (varint n.toNat).length ∧
      Writes mem (mqttRevPutVarInt mem p n).2 (p - (varint n.toNat).length) (varint n.toNat) := by
  have h₁ : ∀ b, Writes mem (Function.update mem (p + -1) b) (p + -1) [b] := fun b =>
    (Writes.nil mem p).cons (by omega) b
  rw [varint_sizes n hn, mqttRevPutVarInt]
  split_ifs
  · exact ⟨rfl, h₁ _⟩
  · exact ⟨rfl, (h₁ _).cons (by omega) _⟩
  · exact ⟨rfl, ((h₁ _).cons (by omega) _).cons (by omega) _⟩
  · exact ⟨rfl, (((h₁ _).cons (by omega) _).cons (by omega) _).cons (by omega) _⟩

/-! ## §4 The reader -/

theorem and_128_eq_zero_iff (b : UInt8) : b &&& 128 = 0 ↔ b.toNat < 128 := by
  have hall : ∀ x : Fin 256, UInt8.ofFin x &&& 128 = 0 ↔ x.val < 128 := by decide +kernel
  exact hall b.toFin

theorem toNat_and_127 (b : UInt8) : (b.toUInt32 &&& 127).toNat = b.toNat % 128 := by
  rw [UInt32.toNat_and, UInt8.toNat_toUInt32]
  exact Nat.and_two_pow_sub_one_eq_mod b.toNat 7

/-- Seven bits more, above those there are. -/
theorem or_shift {acc : UInt32} {k : Nat} (hk : k ≤ 3) (hacc : acc.toNat < 128 ^ k) (b : UInt8) :
    (acc ||| (b.toUInt32 &&& 127) <<< UInt32.ofNat (7 * k)).toNat =
      acc.toNat + 128 ^ k * (b.toNat % 128) := by
  have hpow : 128 ^ k = 2 ^ (7 * k) := by rw [Nat.pow_mul]
  have hshift : (UInt32.ofNat (7 * k)).toNat % 32 = 7 * k := by
    rw [UInt32.toNat_ofNat_of_lt' (by omega : 7 * k < 2 ^ 32), Nat.mod_eq_of_lt (by omega)]
  have hle : 2 ^ (7 * k) ≤ 2 ^ 21 := Nat.pow_le_pow_right (by omega) (by omega)
  have hfits : b.toNat % 128 * 2 ^ (7 * k) < 2 ^ 32 := by
    have hmul := Nat.mul_le_mul (by omega : b.toNat % 128 ≤ 127) hle
    omega
  rw [hpow] at hacc ⊢
  rw [UInt32.toNat_or, UInt32.toNat_shiftLeft, hshift, toNat_and_127, Nat.shiftLeft_eq,
    Nat.mod_eq_of_lt hfits, ← Nat.shiftLeft_eq, Nat.or_comm, ← Nat.shiftLeft_add_eq_or_of_lt hacc,
    Nat.shiftLeft_eq, Nat.add_comm, Nat.mul_comm]

/-- One round of the loop. -/
theorem getVarIntLoop_cons (pp p : List UInt8) {b : UInt8} (hb : b ≠ 0) {acc : UInt32} {k : Nat}
    (hk : k ≤ 3) (hacc : acc.toNat < 128 ^ k) :
    ∃ n : UInt32, n.toNat = acc.toNat + 128 ^ k * (b.toNat % 128) ∧ n.toNat < 128 ^ (k + 1) ∧
      getVarIntLoop pp (b :: p) acc (UInt32.ofNat (7 * k)) =
        if b.toNat < 128 then (n, p) else if k = 3 then (MALFORMED, pp)
        else getVarIntLoop pp p n (UInt32.ofNat (7 * (k + 1))) := by
  have hor := or_shift hk hacc b
  have hlt : acc.toNat + 128 ^ k * (b.toNat % 128) < 128 ^ (k + 1) := by
    have hmul := Nat.mul_le_mul_left (128 ^ k) (by omega : b.toNat % 128 ≤ 127)
    rw [Nat.pow_succ]
    omega
  refine ⟨_, hor, hor ▸ hlt, ?_⟩
  have hbit : UInt32.ofNat (7 * k) + 7 = UInt32.ofNat (7 * (k + 1)) := by
    rw [Nat.mul_succ, UInt32.ofNat_add]
    rfl
  have hlast : UInt32.ofNat (7 * (k + 1)) > 21 ↔ k = 3 := by
    have hof := UInt32.toNat_ofNat_of_lt' (by omega : 7 * (k + 1) < 2 ^ 32)
    rw [gt_iff_lt, UInt32.lt_iff_toNat_lt, hof]
    show 21 < 7 * (k + 1) ↔ k = 3
    omega
  rw [getVarIntLoop, if_neg hb]
  simp only [and_128_eq_zero_iff, hbit, hlast]

/-- The rest of a number is read to its end. -/
theorem getVarIntLoop_varint {bytes : List UInt8} (h : Varint bytes) (h0 : bytes ≠ [0])
    (pp rest : List UInt8) {acc : UInt32} {k : Nat} (hk : k + bytes.length ≤ 4)
    (hacc : acc.toNat < 128 ^ k) :
    getVarIntLoop pp (bytes ++ rest) acc (UInt32.ofNat (7 * k)) =
      (UInt32.ofNat (acc.toNat + 128 ^ k * value bytes), rest) := by
  induction h generalizing acc k with
  | @last b hb =>
    have hne : b ≠ 0 := fun he => h0 (by rw [he])
    rw [List.length_singleton] at hk
    obtain ⟨n, hn, -, hround⟩ := getVarIntLoop_cons pp rest hne (by omega : k ≤ 3) hacc
    rw [List.singleton_append, hround, if_pos hb, value, value, Nat.mul_zero, Nat.add_zero, ← hn,
      UInt32.ofNat_toNat]
  | @more b bytes hb hrest h ih =>
    have hne : b ≠ 0 := by
      rintro rfl
      simp at hb
    have hlen := List.length_pos_iff.mpr h.ne_nil
    rw [List.length_cons] at hk
    obtain ⟨n, hn, hnlt, hround⟩ :=
      getVarIntLoop_cons pp (bytes ++ rest) hne (by omega : k ≤ 3) hacc
    rw [List.cons_append, hround, if_neg (by omega), if_neg (by omega),
      ih hrest (by omega) hnlt, hn, value, Nat.mul_add, ← Nat.mul_assoc, ← Nat.pow_succ,
      Nat.add_assoc]

/-- Where every byte has one behind it, the loop comes to `end`. -/
theorem getVarIntLoop_cut (pp : List UInt8) {bytes : List UInt8} (h : ∀ b ∈ bytes, 128 ≤ b.toNat)
    {acc : UInt32} {k : Nat} (hk : k + bytes.length ≤ 3) (hacc : acc.toNat < 128 ^ k) :
    getVarIntLoop pp bytes acc (UInt32.ofNat (7 * k)) = (NOT_COMPLETE, pp) := by
  induction bytes generalizing acc k with
  | nil => rfl
  | cons b bytes ih =>
    obtain ⟨hb, hrest⟩ := List.forall_mem_cons.mp h
    have hne : b ≠ 0 := by
      rintro rfl
      simp at hb
    rw [List.length_cons] at hk
    obtain ⟨n, -, hnlt, hround⟩ := getVarIntLoop_cons pp bytes hne (by omega : k ≤ 3) hacc
    rw [hround, if_neg (by omega), if_neg (by omega)]
    exact ih hrest (by omega) hnlt

/-- What the loop takes is a number in shortest form. -/
theorem getVarIntLoop_ok {pp p rest : List UInt8} {acc n : UInt32} {k : Nat} (hk : k ≤ 3)
    (hacc : acc.toNat < 128 ^ k)
    (h : getVarIntLoop pp p acc (UInt32.ofNat (7 * k)) = (n, rest)) (hn : n < FAILED) :
    ∃ bytes, p = bytes ++ rest ∧ Varint bytes ∧ bytes ≠ [0] ∧ k + bytes.length ≤ 4 ∧
      n.toNat = acc.toNat + 128 ^ k * value bytes := by
  induction p generalizing acc k with
  | nil =>
    obtain ⟨rfl, -⟩ := Prod.mk.inj h
    exact absurd hn (by decide)
  | cons b p ih =>
    by_cases hb : b = 0
    · rw [getVarIntLoop, if_pos hb] at h
      obtain ⟨rfl, -⟩ := Prod.mk.inj h
      exact absurd hn (by decide)
    · obtain ⟨m, hm, hmlt, hround⟩ := getVarIntLoop_cons pp p hb hk hacc
      rw [hround] at h
      by_cases hlast : b.toNat < 128
      · rw [if_pos hlast] at h
        obtain ⟨rfl, rfl⟩ := Prod.mk.inj h
        refine ⟨[b], rfl, .last hlast, by simpa using hb, ?_, ?_⟩
        · rw [List.length_singleton]
          omega
        · rw [hm, value, value, Nat.mul_zero, Nat.add_zero]
      · rw [if_neg hlast] at h
        by_cases hfour : k = 3
        · rw [if_pos hfour] at h
          obtain ⟨rfl, -⟩ := Prod.mk.inj h
          exact absurd hn (by decide)
        · rw [if_neg hfour] at h
          obtain ⟨bytes, rfl, hbytes, h0, hlen, hvalue⟩ := ih (by omega) hmlt h
          refine ⟨b :: bytes, rfl, .more (by omega) h0 hbytes, ?_, ?_, ?_⟩
          · simp only [ne_eq, List.cons.injEq, not_and]
            exact fun he => absurd he hb
          · rw [List.length_cons]
            omega
          · rw [hvalue, hm, value, Nat.mul_add, ← Nat.mul_assoc, ← Nat.pow_succ, Nat.add_assoc]

/-! ## §5 Both ways -/

theorem mqttGetVarInt_small {b : UInt8} (hb : b.toNat < 128) (p : List UInt8) :
    mqttGetVarInt (b :: p) = some (b.toUInt32, p) := by
  rw [mqttGetVarInt, if_pos (UInt8.lt_iff_toNat_lt.mpr hb)]

/-- Behind a byte with the high bit there are 7 bits already. -/
theorem mqttGetVarInt_large {b : UInt8} (hb : 128 ≤ b.toNat) (p : List UInt8) :
    ∃ acc : UInt32, acc.toNat = b.toNat % 128 ∧ acc.toNat < 128 ^ 1 ∧
      mqttGetVarInt (b :: p) = some (getVarIntLoop (b :: p) p acc (UInt32.ofNat (7 * 1))) := by
  have hacc := toNat_and_127 b
  have hno : ¬ b < 128 := by
    rw [UInt8.lt_iff_toNat_lt]
    exact Nat.not_lt.mpr hb
  refine ⟨b.toUInt32 &&& 127, hacc, by omega, ?_⟩
  rw [mqttGetVarInt, if_neg hno]
  rfl

theorem length_varint_le {n : UInt32} (hn : n < 268435456) : (varint n.toNat).length ≤ 4 :=
  (length_varint_le_iff 3 n.toNat).mpr (UInt32.lt_iff_toNat_lt.mp hn)

theorem mqttGetVarInt_varint (n : UInt32) (hn : n < 268435456) (following : List UInt8) :
    mqttGetVarInt (varint n.toNat ++ following) = some (n, following) := by
  have hform := varint_varint n.toNat
  have hvalue := value_varint n.toNat
  have hlen := length_varint_le hn
  generalize varint n.toNat = bytes at hform hvalue hlen ⊢
  cases hform with
  | @last b hb =>
    have hn' : b.toUInt32 = n := by
      apply UInt32.toNat_inj.mp
      rw [UInt8.toNat_toUInt32, ← hvalue, value, value]
      omega
    rw [List.singleton_append, mqttGetVarInt_small hb, hn']
  | @more b bytes hb h0 h =>
    obtain ⟨acc, hacc, hlt, hread⟩ := mqttGetVarInt_large hb (bytes ++ following)
    rw [List.length_cons] at hlen
    rw [List.cons_append, hread, getVarIntLoop_varint h h0 _ _ (by omega) hlt, hacc, Nat.pow_one,
      ← value.eq_2, hvalue, UInt32.ofNat_toNat]

theorem mqttGetVarInt_cut (n : UInt32) (hn : n < 268435456) {pre : List UInt8}
    (hpre : pre <+: varint n.toNat) (hnil : pre ≠ []) (hne : pre ≠ varint n.toNat) :
    mqttGetVarInt pre = some (NOT_COMPLETE, pre) := by
  have hmore := (varint_varint n.toNat).cut_high hpre hne
  have hlen := length_varint_le hn
  have hlt : pre.length < (varint n.toNat).length := by
    have hle := hpre.length_le
    have hsame : pre.length ≠ (varint n.toNat).length := fun he => hne (hpre.eq_of_length he)
    omega
  cases pre with
  | nil => exact absurd rfl hnil
  | cons b pre =>
    obtain ⟨hb, hrest⟩ := List.forall_mem_cons.mp hmore
    obtain ⟨acc, -, hacc, hread⟩ := mqttGetVarInt_large hb pre
    rw [List.length_cons] at hlt
    rw [hread, getVarIntLoop_cut _ hrest (by omega) hacc]

theorem mqttGetVarInt_ok {bytes rest : List UInt8} {n : UInt32}
    (h : mqttGetVarInt bytes = some (n, rest)) (hn : n < FAILED) :
    n < 268435456 ∧ bytes = varint n.toNat ++ rest := by
  suffices hform : ∃ used, bytes = used ++ rest ∧ Varint used ∧ used.length ≤ 4 ∧
      n.toNat = value used by
    obtain ⟨used, rfl, hvar, hlen, hvalue⟩ := hform
    have hbytes := varint_value hvar
    rw [← hvalue] at hbytes
    rw [hbytes, UInt32.lt_iff_toNat_lt]
    exact ⟨(length_varint_le_iff 3 n.toNat).mp (hbytes ▸ hlen), rfl⟩
  cases bytes with
  | nil => cases h
  | cons b p =>
    by_cases hb : b.toNat < 128
    · rw [mqttGetVarInt_small hb] at h
      obtain ⟨rfl, rfl⟩ := Prod.mk.inj (Option.some.inj h)
      refine ⟨[b], rfl, .last hb, by simp, ?_⟩
      rw [UInt8.toNat_toUInt32, value, value]
      omega
    · obtain ⟨acc, hacc, hlt, hread⟩ := mqttGetVarInt_large (by omega : 128 ≤ b.toNat) p
      rw [hread] at h
      obtain ⟨used, rfl, hused, h0, hlen, hvalue⟩ :=
        getVarIntLoop_ok (by omega) hlt (Option.some.inj h) hn
      refine ⟨b :: used, rfl, .more (by omega) h0 hused, ?_, ?_⟩
      · rw [List.length_cons]
        omega
      · rw [hvalue, hacc, Nat.pow_one, value]

/-- The variable byte integers: the two writers write the same bytes, as
many as they say, the reader takes them back from any bytes that begin with
them and asks for more where they are cut, and it takes nothing else. -/
theorem mqttVarInt :
    (∀ n : UInt32, n < 268435456 → ∃ bytes : List UInt8,
      bytes.length = (mqttGetVarIntSize n).toNat ∧
      (∀ mem p, (mqttPutVarInt mem p n).1 = bytes.length ∧
        Writes mem (mqttPutVarInt mem p n).2 p bytes) ∧
      (∀ mem p, (mqttRevPutVarInt mem p n).1 = bytes.length ∧
        Writes mem (mqttRevPutVarInt mem p n).2 (p - bytes.length) bytes) ∧
      (∀ following, mqttGetVarInt (bytes ++ following) = some (n, following)) ∧
      ∀ pre, pre <+: bytes → pre ≠ [] → pre ≠ bytes →
        mqttGetVarInt pre = some (NOT_COMPLETE, pre)) ∧
    ∀ (bytes rest : List UInt8) (n : UInt32), mqttGetVarInt bytes = some (n, rest) → n < FAILED →
      n < 268435456 ∧ ∃ used, bytes = used ++ rest ∧ ∀ mem p,
        (mqttPutVarInt mem p n).1 = used.length ∧ Writes mem (mqttPutVarInt mem p n).2 p used := by
  constructor
  · intro n hn
    exact ⟨varint n.toNat, length_varint n hn, fun mem p => mqttPutVarInt_writes mem p n hn,
      fun mem p => mqttRevPutVarInt_writes mem p n hn, mqttGetVarInt_varint n hn,
      fun pre hpre hnil hne => mqttGetVarInt_cut n hn hpre hnil hne⟩
  · intro bytes rest n h hn
    obtain ⟨hsmall, hbytes⟩ := mqttGetVarInt_ok h hn
    exact ⟨hsmall, varint n.toNat, hbytes, fun mem p => mqttPutVarInt_writes mem p n hsmall⟩

/-- 300 in two bytes: written, cut in between, and read back. -/
example : (mqttGetVarInt [0xAC, 0x02, 0x07], mqttGetVarInt [0xAC]) =
    (some (300, [0x07]), some (NOT_COMPLETE, [0xAC])) := by decide

end Nanio.Mqtt
