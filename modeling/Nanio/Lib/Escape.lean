/-
Nanio.Lib.Escape — texts with three-character escapes.

An escape is a mark and two characters that a partial function `esc` gives
a meaning. `unescape` replaces every escape and sends all other characters
through `plain`; a mark that opens no escape is one of those. As long as no
escape takes the mark for one of its two characters, every mark of the
text is looked at, and the length of the result counts the escapes
(`length_unescape`). So two decoders of which the second knows more escapes
agree on a text only if it has none of the additional ones
(`unescape_eq_iff`).
-/
import Mathlib.Data.List.Infix

namespace Nanio.Lib

variable {α : Type} [DecidableEq α]

/-- The text with its escapes replaced, from the left. -/
def unescape (mark : α) (esc : α → α → Option α) (plain : α → α) : List α → List α
  | c :: a :: b :: p =>
    match (if c = mark then esc a b else none) with
    | some d => d :: unescape mark esc plain p
    | none => plain c :: unescape mark esc plain (a :: b :: p)
  | [c, a] => [plain c, plain a]
  | [c] => [plain c]
  | [] => []

/-- The text starts with an escape. -/
def opensEscape (mark : α) (esc : α → α → Option α) : List α → Bool
  | c :: a :: b :: _ => c = mark && (esc a b).isSome
  | _ => false

/-- The places of the text at which an escape starts. -/
def escapeCount (mark : α) (esc : α → α → Option α) : List α → Nat
  | [] => 0
  | c :: p => escapeCount mark esc p + if opensEscape mark esc (c :: p) then 1 else 0

/-- The mark is not one of the two characters of an escape. -/
def MarkFree (mark : α) (esc : α → α → Option α) : Prop :=
  ∀ a b, (esc a b).isSome → a ≠ mark ∧ b ≠ mark

variable {mark : α} {esc esc' : α → α → Option α} {plain : α → α}

theorem opensEscape_iff (s : List α) :
    opensEscape mark esc s ↔ ∃ a b, [mark, a, b] <+: s ∧ (esc a b).isSome := by
  match s with
  | [] => simp [opensEscape]
  | [c] => simp [opensEscape]
  | [c, a] => simp [opensEscape]
  | c :: a :: b :: p =>
    simp only [opensEscape, Bool.and_eq_true, decide_eq_true_eq, List.cons_prefix_cons,
      List.nil_prefix, and_true]
    constructor
    · rintro ⟨rfl, h⟩
      exact ⟨a, b, ⟨rfl, rfl, rfl⟩, h⟩
    · rintro ⟨x, y, ⟨rfl, rfl, rfl⟩, h⟩
      exact ⟨rfl, h⟩

theorem escapeCount_cons_of_ne {c : α} (hc : c ≠ mark) (p : List α) :
    escapeCount mark esc (c :: p) = escapeCount mark esc p := by
  have hopen : opensEscape mark esc (c :: p) = false := by
    rcases p with _ | ⟨a, _ | ⟨b, p⟩⟩ <;> simp [opensEscape, hc]
  simp [escapeCount, hopen]

/-- Each escape makes the result two characters shorter than the text. -/
theorem length_unescape (hfree : MarkFree mark esc) (s : List α) :
    (unescape mark esc plain s).length + 2 * escapeCount mark esc s = s.length := by
  match s with
  | [] => rfl
  | [c] => simp [unescape, escapeCount, opensEscape]
  | [c, a] => simp [unescape, escapeCount, opensEscape]
  | c :: a :: b :: p =>
    by_cases hopen : opensEscape mark esc (c :: a :: b :: p)
    · -- the two characters of the escape open none themselves
      simp only [opensEscape, Bool.and_eq_true, decide_eq_true_eq,
        Option.isSome_iff_exists] at hopen
      obtain ⟨hc, d, hd⟩ := hopen
      obtain ⟨ha, hb⟩ := hfree a b (by simp [hd])
      have ih := length_unescape hfree p
      rw [escapeCount, escapeCount_cons_of_ne ha, escapeCount_cons_of_ne hb]
      simp [unescape, opensEscape, hc, hd]
      omega
    · have ih := length_unescape hfree (a :: b :: p)
      have hnone : (if c = mark then esc a b else none) = none := by
        by_cases hc : c = mark
        · simpa [opensEscape, hc] using hopen
        · simp [hc]
      rw [escapeCount, if_neg hopen]
      simp only [unescape, hnone, List.length_cons] at ih ⊢
      omega

/-- A decoder reads no more of its escapes than those that occur. -/
theorem unescape_congr {s : List α} (h : ∀ a b, [mark, a, b] <:+: s → esc a b = esc' a b) :
    unescape mark esc plain s = unescape mark esc' plain s := by
  match s with
  | [] => rfl
  | [c] => rfl
  | [c, a] => rfl
  | c :: a :: b :: p =>
    have hp := unescape_congr fun x y (hxy : [mark, x, y] <:+: p) =>
      h x y (hxy.trans ((List.suffix_append [c, a, b] p).isInfix))
    have hab := unescape_congr fun x y (hxy : [mark, x, y] <:+: a :: b :: p) =>
      h x y (List.infix_cons hxy)
    have hhead : (if c = mark then esc a b else none) = if c = mark then esc' a b else none := by
      by_cases hc : c = mark
      · subst hc
        simp [h a b (List.prefix_append [c, a, b] p).isInfix]
      · simp [hc]
    rw [unescape, unescape, hhead, hp, hab]

/-! ## Two decoders -/

theorem opensEscape_mono (hle : ∀ a b, (esc a b).isSome → (esc' a b).isSome) (s : List α)
    (h : opensEscape mark esc s) : opensEscape mark esc' s := by
  rw [opensEscape_iff] at h ⊢
  obtain ⟨a, b, hab, hsome⟩ := h
  exact ⟨a, b, hab, hle a b hsome⟩

theorem escapeCount_mono (hle : ∀ a b, (esc a b).isSome → (esc' a b).isSome) (s : List α) :
    escapeCount mark esc s ≤ escapeCount mark esc' s := by
  induction s with
  | nil => rfl
  | cons c p ih =>
    rw [escapeCount, escapeCount]
    have hopen : opensEscape mark esc (c :: p) → opensEscape mark esc' (c :: p) :=
      opensEscape_mono hle (c :: p)
    split <;> split <;> first | omega | simp_all

/-- An escape that only one of them knows is counted by that one alone. -/
theorem escapeCount_lt (hle : ∀ a b, (esc a b).isSome → (esc' a b).isSome) {s : List α} {a b : α}
    (hin : [mark, a, b] <:+: s) (hnone : esc a b = none) (hsome : (esc' a b).isSome) :
    escapeCount mark esc s < escapeCount mark esc' s := by
  induction s with
  | nil => simp at hin
  | cons c p ih =>
    have hopen : opensEscape mark esc (c :: p) → opensEscape mark esc' (c :: p) :=
      opensEscape_mono hle (c :: p)
    have hmono : escapeCount mark esc p ≤ escapeCount mark esc' p := escapeCount_mono hle p
    rw [escapeCount, escapeCount]
    rw [List.infix_cons_iff] at hin
    rcases hin with hhere | hlater
    · have hyes : opensEscape mark esc' (c :: p) := (opensEscape_iff _).mpr ⟨a, b, hhere, hsome⟩
      have hno : ¬ opensEscape mark esc (c :: p) := by
        rw [opensEscape_iff]
        rintro ⟨x, y, hxy, hx⟩
        obtain ⟨t, ht⟩ := hhere
        rw [← ht] at hxy
        simp only [List.cons_append, List.cons_prefix_cons] at hxy
        obtain ⟨-, rfl, rfl, -⟩ := hxy
        simp [hnone] at hx
      rw [if_neg hno, if_pos hyes]
      omega
    · have := ih hlater
      split <;> split <;> first | omega | simp_all

/-- A decoder that knows more escapes, and the same meaning for those both
know, gives the same result exactly for the texts without an escape that
only it knows. -/
theorem unescape_eq_iff (hfree : MarkFree mark esc')
    (hle : ∀ a b d, esc a b = some d → esc' a b = some d) (s : List α) :
    unescape mark esc' plain s = unescape mark esc plain s ↔
      ∀ a b, [mark, a, b] <:+: s → (esc' a b).isSome → (esc a b).isSome := by
  have hsome : ∀ a b, (esc a b).isSome → (esc' a b).isSome := by
    intro a b h
    obtain ⟨d, hd⟩ := Option.isSome_iff_exists.mp h
    simp [hle a b d hd]
  have hfree₁ : MarkFree mark esc := fun a b h => hfree a b (hsome a b h)
  constructor
  · intro heq a b hin h'
    by_contra h
    have hlt := escapeCount_lt hsome hin (by simpa using h) h'
    have hlen : (unescape mark esc plain s).length + 2 * escapeCount mark esc s = s.length :=
      length_unescape hfree₁ s
    have hlen' : (unescape mark esc' plain s).length + 2 * escapeCount mark esc' s = s.length :=
      length_unescape hfree s
    rw [heq] at hlen'
    omega
  · intro h
    refine unescape_congr fun a b hin => ?_
    cases hb : esc a b with
    | some d => exact hle a b d hb
    | none =>
      cases hb' : esc' a b with
      | none => rfl
      | some d => simpa [hb] using h a b hin (by simp [hb'])

/-! ## Marks -/

/-- Every mark of the text opens an escape. -/
def AllOpen (mark : α) (esc : α → α → Option α) (s : List α) : Prop :=
  ∀ v p, s = v ++ mark :: p → opensEscape mark esc (mark :: p)

theorem allOpen_cons {c : α} {p : List α} :
    AllOpen mark esc (c :: p) ↔
      (c = mark → opensEscape mark esc (c :: p)) ∧ AllOpen mark esc p := by
  constructor
  · intro h
    refine ⟨?_, fun v q hv => h (c :: v) q (by simp [hv])⟩
    rintro rfl
    exact h [] p rfl
  · rintro ⟨hc, hp⟩ v q hv
    cases v with
    | nil =>
      simp only [List.nil_append, List.cons.injEq] at hv
      obtain ⟨rfl, rfl⟩ := hv
      exact hc rfl
    | cons d v =>
      simp only [List.cons_append, List.cons.injEq] at hv
      exact hp v q hv.2

theorem escapeCount_le_count (s : List α) : escapeCount mark esc s ≤ s.count mark := by
  induction s with
  | nil => rfl
  | cons c p ih =>
    by_cases hc : c = mark
    · subst hc
      rw [escapeCount, List.count_cons_self]
      split <;> omega
    · rw [escapeCount_cons_of_ne hc, List.count_cons_of_ne hc]
      exact ih

/-- Counting marks counts escapes exactly when no mark is left over. -/
theorem escapeCount_eq_count_iff (s : List α) :
    escapeCount mark esc s = s.count mark ↔ AllOpen mark esc s := by
  induction s with
  | nil => simp [escapeCount, AllOpen]
  | cons c p ih =>
    rw [allOpen_cons, ← ih]
    have hle : escapeCount mark esc p ≤ p.count mark := escapeCount_le_count p
    by_cases hc : c = mark
    · subst hc
      rw [escapeCount, List.count_cons_self]
      by_cases hopen : opensEscape c esc (c :: p)
      · simp [hopen]
      · simp only [hopen, Bool.false_eq_true, if_false, forall_const, false_and, iff_false]
        omega
    · rw [escapeCount_cons_of_ne hc, List.count_cons_of_ne hc]
      simp [hc]

end Nanio.Lib
