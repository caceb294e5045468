/-
Nanio.Lib.Bytes — lists of bytes that are written over and cut up.

`overwrite` puts bytes in the place of others. A text is cut at a separator
with `List.splitOn`: either it has none, or it is the first piece, a
separator and the rest (`splitOn_cases`). Pieces written with the separator
behind each of them make the text again (`terminated_splitOn`). A needle that
a text ends with and does not hold before (`OnlyAtEnd`) is in its last piece
or in none (`OnlyAtEnd.infix_last_iff`).
-/
import Nanio.Lib.CString
import Mathlib.Data.List.Basic

namespace Nanio.Lib

/-! ## §1 Writing over bytes -/

/-- Bytes written over others from index `i` on. -/
def overwrite (buf : List UInt8) (i : Nat) (bytes : List UInt8) : List UInt8 :=
  buf.take i ++ (bytes ++ buf.drop (i + bytes.length))

theorem length_overwrite (buf : List UInt8) {i : Nat} (hi : i ≤ buf.length) (bytes : List UInt8) :
    (overwrite buf i bytes).length = max buf.length (i + bytes.length) := by
  simp only [overwrite, List.length_append, List.length_take, List.length_drop]
  omega

theorem drop_overwrite (buf : List UInt8) {i : Nat} (hi : i ≤ buf.length) (bytes : List UInt8) :
    (overwrite buf i bytes).drop i = bytes ++ buf.drop (i + bytes.length) := by
  rw [overwrite, List.drop_left' (List.length_take_of_le hi)]

theorem mem_overwrite (buf : List UInt8) (i : Nat) {bytes : List UInt8} {b : UInt8}
    (h : b ∈ bytes) :
    b ∈ overwrite buf i bytes := by
  simp [overwrite, h]

/-- No other byte changes. -/
theorem getElem?_overwrite (buf : List UInt8) {i j : Nat} (hi : i ≤ buf.length) {bytes : List UInt8}
    (hj : j < i ∨ i + bytes.length ≤ j) : (overwrite buf i bytes)[j]? = buf[j]? := by
  have hlen : (buf.take i).length = i := List.length_take_of_le hi
  rcases hj with hj | hj
  · rw [overwrite, List.getElem?_append_left (by omega), List.getElem?_take_of_lt hj]
  · rw [overwrite, List.getElem?_append_right (by omega), List.getElem?_append_right (by omega),
      List.getElem?_drop, hlen]
    congr 1
    omega

/-- The bytes in the middle are the ones that change. -/
theorem overwrite_middle (before after : List UInt8) {old bytes : List UInt8}
    (h : old.length = bytes.length) :
    overwrite (before ++ (old ++ after)) before.length bytes = before ++ (bytes ++ after) := by
  rw [overwrite, List.take_left, ← List.drop_drop, List.drop_left, ← h, List.drop_left]

/-- What is written behind other bytes, over the last of them. -/
theorem overwrite_behind (buf : List UInt8) {i : Nat} (hi : i ≤ buf.length)
    {old last bytes : List UInt8} (hlen : last.length ≤ bytes.length) :
    overwrite (overwrite buf i (old ++ last)) (i + old.length) bytes =
      overwrite buf i (old ++ bytes) := by
  have hfront : (overwrite buf i (old ++ last)).take (i + old.length) = buf.take i ++ old := by
    rw [overwrite, ← List.append_assoc, ← List.append_assoc, List.append_assoc]
    exact List.take_left' (by simp [Nat.min_eq_left hi])
  have hbehind : (overwrite buf i (old ++ last)).drop (i + old.length + bytes.length) =
      buf.drop (i + (old ++ bytes).length) := by
    rw [overwrite, ← List.append_assoc, List.drop_append, List.drop_eq_nil_of_le, List.nil_append,
      List.drop_drop]
    · congr 1
      simp only [List.length_append, List.length_take, Nat.min_eq_left hi]
      omega
    · simp only [List.length_append, List.length_take, Nat.min_eq_left hi]
      omega
  rw [overwrite, hfront, hbehind, overwrite]
  simp only [List.append_assoc]

theorem overwrite_overwrite (buf : List UInt8) {old last bytes : List UInt8}
    (hlen : last.length ≤ bytes.length) :
    overwrite (overwrite buf 0 (old ++ last)) old.length bytes =
      overwrite buf 0 (old ++ bytes) := by
  simpa only [Nat.zero_add] using @overwrite_behind buf 0 (Nat.zero_le _) old last bytes hlen

/-! ## §2 Cutting at a separator -/

/-- The first piece of a text, and the pieces behind its separator. -/
theorem splitOn_cases (sep : UInt8) (text : Text) :
    (sep ∉ text ∧ text.splitOn sep = [text]) ∨
      ∃ e rest, sep ∉ e ∧ text = e ++ sep :: rest ∧ text.splitOn sep = e :: rest.splitOn sep := by
  by_cases h : sep ∈ text
  · obtain ⟨e, rest, rfl, hno⟩ := List.eq_append_cons_of_mem h
    have hsplit := List.splitOn_append_cons_self (a := sep) e rest
    rw [List.splitOn_eq_singleton hno] at hsplit
    exact .inr ⟨e, rest, hno, rfl, hsplit⟩
  · exact .inl ⟨h, List.splitOn_eq_singleton h⟩

/-- The first separator is not before the end of a piece without one. -/
theorem length_le_of_not_mem {sep : UInt8} {a b c d : Text} (h : a ++ sep :: b = c ++ sep :: d)
    (hno : sep ∉ c) : c.length ≤ a.length := by
  by_contra hlt
  have hlt := Nat.lt_of_not_le hlt
  have hleft : (a ++ sep :: b)[a.length]? = some sep := by
    simp
  rw [h, List.getElem?_append_left hlt] at hleft
  exact hno (List.mem_of_getElem? hleft)

/-- Pieces with a separator behind each. -/
def terminated (sep : UInt8) (pieces : List Text) : Text := pieces.flatMap fun e => e ++ [sep]

theorem terminated_splitOn (sep : UInt8) (text : Text) :
    terminated sep (text.splitOn sep) = text ++ [sep] ∧ ∀ e ∈ text.splitOn sep, sep ∉ e := by
  induction hn : text.length using Nat.strong_induction_on generalizing text with
  | h n ih =>
    rcases splitOn_cases sep text with ⟨hno, hone⟩ | ⟨e, rest, hno, htext, hmore⟩
    · rw [hone]
      simpa [terminated] using hno
    · have hlt : rest.length < n := by
        rw [← hn, htext, List.length_append, List.length_cons]
        omega
      obtain ⟨hrest, hpieces⟩ := ih rest.length hlt rest rfl
      have hcons : terminated sep (e :: rest.splitOn sep) =
          e ++ [sep] ++ terminated sep (rest.splitOn sep) := rfl
      rw [hmore]
      constructor
      · rw [hcons, hrest, htext]
        simp [List.append_assoc]
      · intro d hd
        rcases List.mem_cons.mp hd with rfl | hd
        · exact hno
        · exact hpieces d hd

/-! ## §3 What a text ends with -/

/-- The text ends with the needle, which is nowhere else in it. -/
def OnlyAtEnd (needle text : Text) : Prop := needle <:+ text ∧ ¬ needle <:+: text.dropLast

section

variable {needle a b : Text}

/-- The needle is not in a part that more comes behind. -/
theorem OnlyAtEnd.not_infix {c : Text} (h : OnlyAtEnd needle (a ++ (b ++ c))) (hc : c ≠ []) :
    ¬ needle <:+: b := by
  intro hb
  apply h.2
  rw [← List.append_assoc, List.dropLast_append_of_ne_nil hc]
  exact hb.trans ⟨a, c.dropLast, by simp⟩

theorem OnlyAtEnd.suffix_last (h : OnlyAtEnd needle (a ++ b)) (hlen : needle.length ≤ b.length) :
    needle <:+ b :=
  List.suffix_of_suffix_length_le h.1 (List.suffix_append a b) hlen

/-- The last part holds the needle if it is long enough to. -/
theorem OnlyAtEnd.infix_last_iff (h : OnlyAtEnd needle (a ++ b)) :
    needle <:+: b ↔ needle.length ≤ b.length :=
  ⟨List.IsInfix.length_le, fun hlen => (h.suffix_last hlen).isInfix⟩

/-- It is found at the end of the part. -/
theorem OnlyAtEnd.strstr_last (h : OnlyAtEnd needle (a ++ b)) (hn : needle ≠ [])
    (hlen : needle.length ≤ b.length) : strstr needle b = some needle := by
  obtain ⟨v, rfl⟩ := h.suffix_last hlen
  refine (strstr_eq_some_iff hn _ _).mpr ⟨v, rfl, List.prefix_refl needle, fun hin => h.2 ?_⟩
  rw [← List.append_assoc, List.dropLast_append_of_ne_nil hn, List.append_assoc]
  exact hin.trans (List.suffix_append a _).isInfix

end

end Nanio.Lib
