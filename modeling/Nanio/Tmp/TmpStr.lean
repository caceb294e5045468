/-
Nanio.Tmp.TmpStr — `io_tmp.c`: the temporary buffers for short texts.

`_getTmpStr` hands out eight adjacent buffers in turn. The buffers are one
stretch of memory, so that a text too long for its buffer runs into the
next one, and a write behind the last is a fault. What a write leaves of
the other buffers is `store_spec`, and a buffer comes round again after
seven others (`slot_getTmpStr`).
-/
import Nanio.Base
import Nanio.Lib.Bytes

namespace Nanio.Tmp

open Nanio.Lib

/-! ## §1 The buffers -/

def TMP_STR_SIZE : Nat := 48

/-- The static `buf` and `index` of `_getTmpStr`. -/
structure TmpStr where
  buf : Vector UInt8 (8 * TMP_STR_SIZE)
  index : Int

/-- What can go wrong in a formatter: a write behind the buffers, a read
behind the array that is shown. -/
inductive TmpFault where
  | overflow
  | outOfBin
  deriving DecidableEq, Repr

/-- `index & 7`. -/
def slot (s : TmpStr) : Nat := toUnsigned s.index &&& 7

/-- `_getTmpStr`: the index in `buf` of the first byte of the buffer. -/
def getTmpStr (s : TmpStr) : Nat × TmpStr :=
  (slot s * TMP_STR_SIZE, { s with index := toInt (s.index + 1) })

/-- Bytes written from `base` on. -/
def store (s : TmpStr) (base : Nat) (bytes : List UInt8) : Except TmpFault TmpStr :=
  if base + bytes.length ≤ 8 * TMP_STR_SIZE then
    .ok { s with buf := Vector.ofFn fun i =>
      if base ≤ i.val ∧ i.val < base + bytes.length then bytes.getD (i - base) 0 else s.buf[i] }
  else .error .overflow

/-- The text that starts at the first of these bytes. -/
def cstr (buf : List UInt8) : Text := buf.takeWhile (· != 0)

/-- The text at an index of `buf`. -/
def textAt (s : TmpStr) (base : Nat) : Text := cstr (s.buf.toList.drop base)

theorem cstr_append {text : Text} (h0 : 0 ∉ text) (rest : List UInt8) :
    cstr (text ++ 0 :: rest) = text := by
  have hall : ∀ c ∈ text, (c != 0) = true := by
    intro c hc
    have hne : c ≠ 0 := fun he => h0 (he ▸ hc)
    simpa using hne
  rw [cstr, List.takeWhile_append_of_pos hall]
  simp

/-- The text read from the start of a buffer that it was written to. -/
theorem cstr_overwrite {text : Text} (h0 : 0 ∉ text) (buf : List UInt8) :
    cstr (overwrite buf 0 (text ++ [0])) = text := by
  rw [overwrite, List.take_zero, List.nil_append, List.append_assoc]
  exact cstr_append h0 _

/-! ## §2 What the operations keep -/

theorem slot_eq (s : TmpStr) : (slot s : Int) = s.index % 8 := by
  have hand : toUnsigned s.index &&& 7 = toUnsigned s.index % 2 ^ 3 :=
    Nat.and_two_pow_sub_one_eq_mod _ 3
  rw [slot, hand, toUnsigned]
  omega

theorem slot_lt (s : TmpStr) : slot s < 8 := by
  have heq := slot_eq s
  omega

/-- Each call takes the buffer behind that of the call before, also where
`index` goes round. -/
theorem slot_getTmpStr (s : TmpStr) : slot (getTmpStr s).2 = (slot s + 1) % 8 := by
  have hnow := slot_eq s
  have hnext := slot_eq (getTmpStr s).2
  simp only [getTmpStr, toInt] at hnext ⊢
  omega

/-- The same bytes in the buffer that starts at `base`. -/
def SameBuffer (base : Nat) (s s' : TmpStr) : Prop :=
  ∀ i (h : i < 8 * TMP_STR_SIZE), base ≤ i → i < base + TMP_STR_SIZE → s'.buf[i] = s.buf[i]

/-- Bytes that fit in a buffer are stored, and no other byte changes. -/
theorem store_spec (s : TmpStr) {k : Nat} (hk : k < 8) {bytes : List UInt8}
    (hlen : bytes.length ≤ TMP_STR_SIZE) :
    ∃ s', store s (k * TMP_STR_SIZE) bytes = .ok s' ∧ s'.index = s.index ∧
      (∀ i (h : i < 8 * TMP_STR_SIZE),
        i < k * TMP_STR_SIZE ∨ k * TMP_STR_SIZE + bytes.length ≤ i → s'.buf[i] = s.buf[i]) ∧
      ∀ j (h : j < bytes.length) (h' : k * TMP_STR_SIZE + j < 8 * TMP_STR_SIZE),
        s'.buf[k * TMP_STR_SIZE + j] = bytes[j] := by
  have hroom : k * TMP_STR_SIZE + bytes.length ≤ 8 * TMP_STR_SIZE := by
    unfold TMP_STR_SIZE at *
    omega
  rw [store, if_pos hroom]
  refine ⟨_, rfl, rfl, fun i h hi => ?_, fun j h h' => ?_⟩
  · have hout : ¬ (k * TMP_STR_SIZE ≤ i ∧ i < k * TMP_STR_SIZE + bytes.length) := by omega
    simp [hout]
  · simp [h]

/-- Bytes that fit in the buffers are stored, also behind the end of one. -/
theorem store_eq (s : TmpStr) {base : Nat} {bytes : List UInt8}
    (hroom : base + bytes.length ≤ 8 * TMP_STR_SIZE) :
    ∃ s', store s base bytes = .ok s' ∧ s'.index = s.index ∧
      s'.buf.toList = overwrite s.buf.toList base bytes := by
  rw [store, if_pos hroom]
  refine ⟨_, rfl, rfl, List.ext_getElem ?_ fun i hi hi' => ?_⟩
  · rw [length_overwrite _ (by simp; omega), Vector.length_toList, Vector.length_toList]
    omega
  · rw [Vector.length_toList] at hi
    have hlen : (s.buf.toList.take base).length = base := by
      rw [List.length_take, Vector.length_toList]
      omega
    simp only [Vector.getElem_toList, Vector.getElem_ofFn, overwrite]
    by_cases hfront : i < base
    · rw [if_neg (by omega), List.getElem_append_left (by omega), List.getElem_take]
      simp
    · rw [List.getElem_append_right (by omega)]
      simp only [hlen]
      by_cases hin : i < base + bytes.length
      · rw [if_pos ⟨by omega, hin⟩, List.getElem_append_left (by omega), List.getD_eq_getElem?_getD,
          List.getElem?_eq_getElem (by omega), Option.getD_some]
      · rw [if_neg (by omega), List.getElem_append_right (by omega), List.getElem_drop]
        simp only [Vector.getElem_toList, Fin.getElem_fin]
        congr 1
        omega

theorem sameBuffer_store {s s' : TmpStr} {base b : Nat} {bytes : List UInt8}
    (hbase : base ≤ 8 * TMP_STR_SIZE) (h : s'.buf.toList = overwrite s.buf.toList base bytes)
    (hout : b + TMP_STR_SIZE ≤ base ∨ base + bytes.length ≤ b) : SameBuffer b s s' := by
  intro i hi hlow hhigh
  have hget := congrArg (·[i]?) h
  rw [getElem?_overwrite _ (by rwa [Vector.length_toList]) (by omega)] at hget
  simpa [hi] using hget

/-- The text that was stored is read at its start, and its rest from inside it. -/
theorem textAt_store {s s' : TmpStr} {base : Nat} {text : Text} (h0 : 0 ∉ text)
    (hbase : base ≤ 8 * TMP_STR_SIZE)
    (h : s'.buf.toList = overwrite s.buf.toList base (text ++ [0])) {k : Nat}
    (hk : k ≤ text.length) : textAt s' (base + k) = text.drop k := by
  have hrest : 0 ∉ text.drop k := fun hmem => h0 (List.mem_of_mem_drop hmem)
  have hle : base ≤ s.buf.toList.length := by rwa [Vector.length_toList]
  rw [textAt, h, ← List.drop_drop, drop_overwrite _ hle, List.append_assoc, List.drop_append,
    Nat.sub_eq_zero_of_le hk, List.drop_zero]
  exact cstr_append hrest _

/-- A text is read up to its first NUL. -/
theorem cstr_congr {j : Nat} {l l' : List UInt8} (h : ∀ i ≤ j, l'[i]? = l[i]?)
    (hend : l[j]? = some 0) : cstr l' = cstr l := by
  induction j generalizing l l' with
  | zero =>
    have hend' : l'[0]? = some 0 := (h 0 (Nat.le_refl 0)).trans hend
    obtain ⟨t, rfl⟩ := List.head?_eq_some_iff.mp (List.head?_eq_getElem?.trans hend)
    obtain ⟨t', rfl⟩ := List.head?_eq_some_iff.mp (List.head?_eq_getElem?.trans hend')
    simp [cstr]
  | succ j ih =>
    cases l with
    | nil => simp at hend
    | cons c t =>
      cases l' with
      | nil => simpa using h 0 (Nat.zero_le _)
      | cons c' t' =>
        have hc : c' = c := by simpa using h 0 (Nat.zero_le _)
        have htail := @ih t t' (fun i hi => by simpa using h (i + 1) (by omega))
          (by simpa using hend)
        rw [hc]
        simp only [cstr, List.takeWhile_cons] at htail ⊢
        split <;> simp [htail]

/-- A text that ends inside its buffer is read from that buffer only. -/
theorem textAt_congr {base : Nat} {s s' : TmpStr} (h : SameBuffer base s s') {j : Nat}
    (hj : j < TMP_STR_SIZE) (hb : base + j < 8 * TMP_STR_SIZE) (hend : s.buf[base + j] = 0) :
    textAt s' base = textAt s base := by
  have hget : ∀ (t : TmpStr) (i : Nat) (hi : base + i < 8 * TMP_STR_SIZE),
      (t.buf.toList.drop base)[i]? = some t.buf[base + i] := by
    intro t i hi
    rw [List.getElem?_drop, List.getElem?_eq_getElem (by simpa using hi)]
    simp
  refine cstr_congr (j := j) (fun i hi => ?_) ?_
  · rw [hget s i (by omega), hget s' i (by omega), h (base + i) (by omega) (by omega) (by omega)]
  · rw [hget s j hb, hend]

end Nanio.Tmp
