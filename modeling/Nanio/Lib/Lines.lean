/-
Nanio.Lib.Lines — a stream of bytes as pieces that end with a separator.

`cutAt` gives the complete pieces of a text and the rest behind the last
separator. A reader that keeps the rest only if the next chunk has a
separator sees the pieces of what is then left of the stream (`forget_eq`),
which is the whole stream if no chunk without a separator comes while there
is a rest (`kept_eq_iff`).

§1 is about ranges of a buffer and the search in them.
-/
import Nanio.Lib.Bytes

namespace Nanio.Lib

/-! ## §1 Ranges of a buffer -/

/-- The bytes from index `i` up to index `j`. -/
def slice (buf : List UInt8) (i j : Nat) : List UInt8 := (buf.take j).drop i

/-- `memchr(buf + i, c, j - i)`, as an index of `buf`. -/
def memchr (buf : List UInt8) (c : UInt8) (i j : Nat) : Option Nat :=
  ((slice buf i j).idxOf? c).map (i + ·)

section

variable {buf v w : List UInt8} {c : UInt8} {i j k : Nat}

theorem length_slice (hj : j ≤ buf.length) : (slice buf i j).length = j - i := by
  simp [slice, hj]

theorem memchr_eq_none_iff : memchr buf c i j = none ↔ c ∉ slice buf i j := by
  simp [memchr]

theorem memchr_eq_some_iff :
    memchr buf c i j = some k ↔ ∃ v w, slice buf i j = v ++ c :: w ∧ c ∉ v ∧ k = i + v.length := by
  simp only [memchr, Option.map_eq_some_iff, List.idxOf?_eq_some_iff]
  constructor
  · rintro ⟨n, ⟨hn, hc, hbefore⟩, rfl⟩
    have hc : (slice buf i j)[n] = c := hc
    refine ⟨(slice buf i j).take n, (slice buf i j).drop (n + 1), ?_, fun hmem => ?_, ?_⟩
    · rw [← hc, List.getElem_cons_drop, List.take_append_drop]
    · obtain ⟨m, hm, hget⟩ := List.mem_iff_getElem.mp hmem
      rw [List.length_take] at hm
      exact hbefore m (by omega) (by simpa using hget)
    · rw [List.length_take]
      omega
  · rintro ⟨v, w, hs, hno, rfl⟩
    refine ⟨v.length, ⟨by simp [hs], by simp [hs], fun m hm hget => hno ?_⟩, rfl⟩
    have hv : v[m] = c := by simpa [hs, List.getElem_append_left hm] using hget
    exact hv ▸ List.getElem_mem hm

/-- A range in front of a later part of the buffer. -/
theorem slice_append (buf : List UInt8) (hij : i ≤ j) (hjk : j ≤ k) :
    slice buf i k = slice buf i j ++ slice buf j k := by
  have hfront : (slice buf i k).take (j - i) = slice buf i j := by
    rw [slice, List.take_drop, Nat.add_sub_cancel' hij, List.take_take, Nat.min_eq_left hjk, slice]
  have hback : (slice buf i k).drop (j - i) = slice buf j k := by
    rw [slice, List.drop_drop, Nat.add_sub_cancel' hij, slice]
  rw [← hfront, ← hback, List.take_append_drop]

/-- The range is cut at the byte that is found. -/
theorem memchr_split (hj : j ≤ buf.length) (h : memchr buf c i j = some k) :
    i ≤ k ∧ k < j ∧ c ∉ slice buf i k ∧
      slice buf i j = slice buf i k ++ c :: slice buf (k + 1) j := by
  obtain ⟨v, w, hs, hno, rfl⟩ := memchr_eq_some_iff.mp h
  have hlen := length_slice (i := i) hj
  rw [hs, List.length_append, List.length_cons] at hlen
  have hat := slice_append buf (i := i) (j := i + v.length) (k := j) (by omega) (by omega)
  have hbehind := slice_append buf (i := i) (j := i + v.length + 1) (k := j) (by omega) (by omega)
  have hone : v ++ c :: w = (v ++ [c]) ++ w := by simp
  have hv : v = slice buf i (i + v.length) :=
    List.append_inj_left (hs.symm.trans hat) (by rw [length_slice (by omega)]; omega)
  have hw : w = slice buf (i + v.length + 1) j := by
    refine List.append_inj_right ((hs.trans hone).symm.trans hbehind) ?_
    rw [length_slice (by omega), List.length_append, List.length_singleton]
    omega
  refine ⟨by omega, by omega, hv ▸ hno, ?_⟩
  rw [hs, ← hv, ← hw]

/-- Behind a byte that is written nothing changes. -/
theorem slice_set_of_lt (h : k < i) (b : UInt8) : slice (buf.set k b) i j = slice buf i j := by
  rw [slice, slice, List.take_set, List.drop_set_of_lt h]

/-- What is written from index `i` on stands there. -/
theorem slice_overwrite (buf : List UInt8) (hi : i ≤ buf.length) (bytes : List UInt8) :
    slice (overwrite buf i bytes) i (i + bytes.length) = bytes := by
  rw [slice, overwrite, List.take_append, List.take_take, List.drop_append, List.length_take]
  simp [Nat.min_eq_left hi]

/-- What stands before index `i` stays. -/
theorem slice_overwrite_before (buf : List UInt8) (hi : i ≤ buf.length) (bytes : List UInt8) :
    slice (overwrite buf i bytes) k i = slice buf k i := by
  rw [slice, overwrite, List.take_left' (List.length_take_of_le hi), slice]

end

/-! ## §2 Pieces and rest -/

variable {α : Type} [DecidableEq α]

/-- The complete pieces of a text, without their separators, and what is
behind the last separator. -/
def cutAt (sep : α) : List α → List (List α) × List α
  | [] => ([], [])
  | c :: t =>
    if c = sep then ([] :: (cutAt sep t).1, (cutAt sep t).2)
    else
      match (cutAt sep t).1 with
      | [] => ([], c :: (cutAt sep t).2)
      | p :: ps => ((c :: p) :: ps, (cutAt sep t).2)

variable {sep : α} {e held t : List α}

/-- Without a separator everything is rest. -/
theorem cutAt_of_notMem (h : sep ∉ t) : cutAt sep t = ([], t) := by
  induction t with
  | nil => rfl
  | cons c t ih =>
    simp only [List.mem_cons, not_or] at h
    simp [cutAt, ih h.2, Ne.symm h.1]

/-- The first piece, its separator and the text behind. -/
theorem cutAt_append_cons (h : sep ∉ e) (t : List α) :
    cutAt sep (e ++ sep :: t) = (e :: (cutAt sep t).1, (cutAt sep t).2) := by
  induction e with
  | nil => simp [cutAt]
  | cons c e ih =>
    simp only [List.mem_cons, not_or] at h
    simp [cutAt, ih h.2, Ne.symm h.1]

/-- A text has no separator, or a first one. -/
theorem cut_cases (sep : α) (t : List α) :
    sep ∉ t ∨ ∃ e rest, sep ∉ e ∧ t = e ++ sep :: rest := by
  by_cases h : sep ∈ t
  · obtain ⟨e, rest, rfl, hno⟩ := List.eq_append_cons_of_mem h
    exact .inr ⟨e, rest, hno, rfl⟩
  · exact .inl h

theorem notMem_rest (sep : α) (t : List α) : sep ∉ (cutAt sep t).2 := by
  induction hn : t.length using Nat.strong_induction_on generalizing t with
  | h n ih =>
    rcases cut_cases sep t with hno | ⟨e, rest, hno, rfl⟩
    · rwa [cutAt_of_notMem hno]
    · rw [cutAt_append_cons hno]
      exact ih rest.length (by simp [← hn]; omega) rest rfl

/-! ## §3 A reader -/

/-- A chunk for a reader that keeps the rest only if the chunk has a
separator. -/
def forgetStep (sep : α) (held c : List α) : List (List α) × List α :=
  if sep ∈ c then cutAt sep (held ++ c) else ([], c)

/-- For a rest without a separator: the pieces are those of the two together. -/
theorem forgetStep_eq (h : sep ∉ held) (c : List α) :
    forgetStep sep held c =
      ((cutAt sep (held ++ c)).1, if sep ∈ c then (cutAt sep (held ++ c)).2 else c) := by
  unfold forgetStep
  split
  · rfl
  · next hno =>
    have hnone : sep ∉ held ++ c := by
      rw [List.mem_append, not_or]
      exact ⟨h, hno⟩
    rw [cutAt_of_notMem hnone]

/-- Such a reader over chunks. -/
def forget (sep : α) : List α → List (List α) → List (List α) × List α
  | held, [] => ([], held)
  | held, c :: cs =>
    let r := forgetStep sep held c
    let t := forget sep r.2 cs
    (r.1 ++ t.1, t.2)

/-- Pieces with the separator behind each. -/
def joined (sep : α) (pieces : List (List α)) : List α := pieces.flatMap fun e => e ++ [sep]

/-- What such a reader is left with of the stream. -/
def kept (sep : α) : List α → List (List α) → List α
  | held, [] => held
  | held, c :: cs =>
    joined sep (forgetStep sep held c).1 ++ kept sep (forgetStep sep held c).2 cs

/-- No chunk without a separator comes while there is a rest. -/
def NoneLost (sep : α) : List α → List (List α) → Prop
  | _, [] => True
  | held, c :: cs => (sep ∈ c ∨ held = []) ∧ NoneLost sep (forgetStep sep held c).2 cs

/-- The pieces and the rest are the text. -/
theorem joined_cutAt (sep : α) (t : List α) :
    joined sep (cutAt sep t).1 ++ (cutAt sep t).2 = t := by
  induction hn : t.length using Nat.strong_induction_on generalizing t with
  | h n ih =>
    rcases cut_cases sep t with hno | ⟨e, rest, hno, rfl⟩
    · simp [cutAt_of_notMem hno, joined]
    · have hrest := ih rest.length (by simp [← hn]; omega) rest rfl
      rw [joined] at hrest
      simp only [cutAt_append_cons hno, joined, List.flatMap_cons, List.append_assoc, hrest]
      rfl

/-- Pieces without a separator are found again. -/
theorem cutAt_joined {pieces : List (List α)} (h : ∀ e ∈ pieces, sep ∉ e) (t : List α) :
    cutAt sep (joined sep pieces ++ t) = (pieces ++ (cutAt sep t).1, (cutAt sep t).2) := by
  induction pieces with
  | nil => rfl
  | cons e pieces ih =>
    obtain ⟨he, hrest⟩ := List.forall_mem_cons.mp h
    have hcons : joined sep (e :: pieces) ++ t = e ++ sep :: (joined sep pieces ++ t) := by
      simp [joined]
    rw [hcons, cutAt_append_cons he, ih hrest]
    rfl

theorem notMem_pieces (sep : α) (t : List α) : ∀ e ∈ (cutAt sep t).1, sep ∉ e := by
  induction hn : t.length using Nat.strong_induction_on generalizing t with
  | h n ih =>
    rcases cut_cases sep t with hno | ⟨e, rest, hno, rfl⟩
    · simp [cutAt_of_notMem hno]
    · rw [cutAt_append_cons hno]
      exact List.forall_mem_cons.mpr ⟨hno, ih rest.length (by simp [← hn]; omega) rest rfl⟩

theorem notMem_forgetStep (sep : α) (held c : List α) : sep ∉ (forgetStep sep held c).2 := by
  unfold forgetStep
  split
  · exact notMem_rest sep _
  · assumption

theorem notMem_forgetStep_pieces (sep : α) (held c : List α) :
    ∀ e ∈ (forgetStep sep held c).1, sep ∉ e := by
  unfold forgetStep
  split
  · exact notMem_pieces sep _
  · simp

/-- **The pieces are those of what is left of the stream.** -/
theorem forget_eq (hheld : sep ∉ held) (cs : List (List α)) :
    forget sep held cs = cutAt sep (kept sep held cs) := by
  induction cs generalizing held with
  | nil => simp [forget, kept, cutAt_of_notMem hheld]
  | cons c cs ih =>
    rw [forget, ih (notMem_forgetStep sep held c), kept,
      cutAt_joined (notMem_forgetStep_pieces sep held c)]

/-- A chunk loses what was held, or nothing. -/
theorem joined_forgetStep (sep : α) (held c : List α) :
    joined sep (forgetStep sep held c).1 ++ (forgetStep sep held c).2 =
      if sep ∈ c then held ++ c else c := by
  unfold forgetStep
  split
  · exact joined_cutAt sep _
  · rfl

theorem kept_sublist (sep : α) (held : List α) (cs : List (List α)) :
    (kept sep held cs).Sublist (held ++ cs.flatten) := by
  induction cs generalizing held with
  | nil => simp [kept]
  | cons c cs ih =>
    have hrest := (List.append_sublist_append_left (joined sep (forgetStep sep held c).1)).mpr
      (ih (forgetStep sep held c).2)
    rw [← List.append_assoc, joined_forgetStep] at hrest
    refine hrest.trans ?_
    split
    · simp
    · simp

/-- **Nothing is lost** just if no chunk without a separator comes while
there is a rest. -/
theorem kept_eq_iff (sep : α) (held : List α) (cs : List (List α)) :
    kept sep held cs = held ++ cs.flatten ↔ NoneLost sep held cs := by
  induction cs generalizing held with
  | nil => simp [kept, NoneLost]
  | cons c cs ih =>
    have hstep := joined_forgetStep sep held c
    have hrest := kept_sublist sep (forgetStep sep held c).2 cs
    rw [NoneLost, ← ih, kept, List.flatten_cons]
    by_cases hkeep : sep ∈ c ∨ held = []
    · have hall : joined sep (forgetStep sep held c).1 ++ (forgetStep sep held c).2 =
          held ++ c := by
        rw [hstep]
        rcases hkeep with h | h <;> simp [h]
      rw [← List.append_assoc held, ← hall, List.append_assoc, List.append_cancel_left_eq]
      exact (and_iff_right hkeep).symm
    · rw [not_or] at hkeep
      have hlen : 0 < held.length := List.length_pos_iff.mpr hkeep.2
      rw [if_neg hkeep.1] at hstep
      have hshort : (joined sep (forgetStep sep held c).1 ++
          kept sep (forgetStep sep held c).2 cs).length < (held ++ (c ++ cs.flatten)).length := by
        have hle := hrest.length_le
        have heq := congrArg List.length hstep
        simp only [List.length_append] at hle heq ⊢
        omega
      constructor
      · intro heq
        rw [heq] at hshort
        omega
      · rintro ⟨h | h, -⟩
        · exact absurd h hkeep.1
        · exact absurd h hkeep.2

end Nanio.Lib
