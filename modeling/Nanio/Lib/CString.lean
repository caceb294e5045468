/-
Nanio.Lib.CString — pointers into a NUL-terminated text.

A pointer into a text is the list of the characters from it up to the
terminating NUL, which is not in the list: `p + k` is `p.drop k` and `*p`
is the head, or 0 at the NUL. A read is allowed at every index up to that
of the NUL and is a fault past it (`deref`).

The comparisons C code makes by hand are given their meaning as list
facts: a chain of `p[k] == c && …` is a prefix test that never faults
(`litAt_zero`), a chain of `p[k] != c && …` runs on until a character agrees
and may read past the NUL (`noneAt_eq`), `memcmp` reads all its bytes
(`memEq_eq`), `strstr` finds the first occurrence (`strstr_eq_some_iff`,
`strstr_eq_none_iff`), and `strpbrk` the first of some characters
(`strpbrk_eq_some_iff`, `strpbrk_eq_none_iff`).
-/
import Mathlib.Data.List.Infix

namespace Nanio.Lib

/-- The characters from a pointer up to the terminating NUL. -/
abbrev Text := List UInt8

/-- What can go wrong in code that walks a text: a read past the NUL, a
read through a null pointer, a loop that does not end in its rounds. -/
inductive TextFault where
  | outOfText
  | nullPointer
  | endless
  deriving DecidableEq, Repr

/-- The code of a character. -/
def ascii (c : Char) : UInt8 := UInt8.ofNat c.toNat

/-- A string literal, spelled as its characters. -/
def lit (cs : List Char) : Text := cs.map ascii

/-- `p[k]`. -/
def deref (p : Text) (k : Nat) : Except TextFault UInt8 :=
  match p[k]? with
  | some c => .ok c
  | none => if k = p.length then .ok 0 else .error .outOfText

@[simp] theorem deref_zero_nil : deref [] 0 = .ok 0 := rfl

@[simp] theorem deref_zero_cons (c : UInt8) (p : Text) : deref (c :: p) 0 = .ok c := rfl

/-- The NUL of an empty text is its first character. -/
theorem deref_zero (p : Text) : deref p 0 = .ok (p.headD 0) := by
  cases p <;> rfl

@[simp] theorem deref_succ_nil (k : Nat) : deref [] (k + 1) = .error .outOfText := by
  simp [deref]

@[simp] theorem deref_succ_cons (c : UInt8) (p : Text) (k : Nat) :
    deref (c :: p) (k + 1) = deref p k := by
  simp [deref]

theorem deref_append (p q : Text) (k : Nat) : deref (p ++ q) (p.length + k) = deref q k := by
  induction p with
  | nil => simp
  | cons c p ih => rw [List.length_cons, Nat.succ_add]; simpa using ih

/-! ## Comparisons written out by hand -/

/-- `p[k] == c₀ && p[k + 1] == c₁ && …`. -/
def litAt (p : Text) : Nat → Text → Except TextFault Bool
  | _, [] => .ok true
  | k, c :: cs => do
    if (← deref p k) == c then litAt p (k + 1) cs else pure false

/-- `p[k] != c₀ && p[k + 1] != c₁ && …`. -/
def noneAt (p : Text) : Nat → Text → Except TextFault Bool
  | _, [] => .ok true
  | k, c :: cs => do
    if (← deref p k) == c then pure false else noneAt p (k + 1) cs

/-- `!memcmp(p + k, cs, n)`, `n` being the length of `cs`: all `n` bytes
have to be readable, wherever the first difference is. -/
def memEq (p : Text) (k : Nat) (cs : Text) : Except TextFault Bool :=
  if k + cs.length ≤ p.length + 1 then .ok (cs.isPrefixOf ((p ++ [0]).drop k))
  else .error .outOfText

theorem litAt_cons (c : UInt8) (p : Text) (k : Nat) (cs : Text) :
    litAt (c :: p) (k + 1) cs = litAt p k cs := by
  induction cs generalizing k with
  | nil => rfl
  | cons d cs ih => simp only [litAt, deref_succ_cons, ih]

theorem noneAt_cons (c : UInt8) (p : Text) (k : Nat) (cs : Text) :
    noneAt (c :: p) (k + 1) cs = noneAt p k cs := by
  induction cs generalizing k with
  | nil => rfl
  | cons d cs ih => simp only [noneAt, deref_succ_cons, ih]

theorem memEq_cons (c : UInt8) (p : Text) (k : Nat) (cs : Text) :
    memEq (c :: p) (k + 1) cs = memEq p k cs := by
  have hlen : k + 1 + cs.length ≤ (c :: p).length + 1 ↔ k + cs.length ≤ p.length + 1 := by
    rw [List.length_cons]
    omega
  simp only [memEq, hlen, List.cons_append, List.drop_succ_cons]

/-- A chain of `==` stops at the NUL at the latest, so it is total. -/
theorem litAt_zero {cs : Text} (h0 : 0 ∉ cs) (p : Text) :
    litAt p 0 cs = .ok (cs.isPrefixOf p) := by
  induction cs generalizing p with
  | nil => simp [litAt]
  | cons c cs ih =>
    simp only [List.mem_cons, not_or] at h0
    cases p with
    | nil => simp [litAt, bind, Except.bind, pure, Except.pure, h0.1]
    | cons d p =>
      rw [litAt, deref_zero_cons]
      simp only [bind, Except.bind, pure, Except.pure, litAt_cons, ih h0.2,
        List.isPrefixOf_cons_cons]
      by_cases hcd : d = c
      · simp [hcd]
      · simp [hcd, Ne.symm hcd]

/-- Some character of `cs` stands at its place in `p`. -/
def someAgree (p cs : Text) : Bool := (p.zip cs).any fun x => x.1 == x.2

/-- A chain of `!=` reads on until a character agrees: without one, it
needs a readable place for every character of the literal. -/
theorem noneAt_eq {cs : Text} (h0 : 0 ∉ cs) (p : Text) :
    noneAt p 0 cs =
      if someAgree p cs then .ok false
      else if cs.length ≤ p.length + 1 then .ok true else .error .outOfText := by
  induction cs generalizing p with
  | nil => simp [noneAt, someAgree]
  | cons c cs ih =>
    simp only [List.mem_cons, not_or] at h0
    cases p with
    | nil =>
      cases cs with
      | nil => simp [noneAt, bind, Except.bind, someAgree, h0.1]
      | cons d cs => simp [noneAt, bind, Except.bind, someAgree, h0.1]
    | cons d p =>
      rw [noneAt, deref_zero_cons]
      simp only [bind, Except.bind, pure, Except.pure, noneAt_cons, ih h0.2, someAgree,
        List.zip_cons_cons, List.any_cons, List.length_cons, Nat.add_le_add_iff_right]
      cases d == c <;> rfl

theorem memEq_eq {cs : Text} (h0 : 0 ∉ cs) (p : Text) {k : Nat}
    (hk : k + cs.length ≤ p.length + 1) : memEq p k cs = .ok (cs.isPrefixOf (p.drop k)) := by
  rw [memEq, if_pos hk, List.drop_append]
  congr 1
  rw [Bool.eq_iff_iff, List.isPrefixOf_iff_prefix, List.isPrefixOf_iff_prefix]
  constructor
  · intro h
    have h0' : (0 : UInt8) ∉ cs := h0
    rcases Nat.lt_or_ge (p.drop k).length cs.length with hlt | hge
    · obtain ⟨t, ht⟩ := h
      have hk0 : k - p.length = 0 := by simp at hlt; omega
      rw [hk0, List.drop_zero] at ht
      have hcs : cs <+: p.drop k ++ [0] := ⟨t, ht⟩
      have hpre : p.drop k ++ [0] <+: cs :=
        List.prefix_of_prefix_length_le (List.prefix_refl _) hcs (by simp at hlt ⊢; omega)
      exact absurd (hpre.subset (by simp)) h0'
    · exact List.prefix_of_prefix_length_le h (List.prefix_append _ _) hge
  · exact fun h => h.trans (List.prefix_append _ _)

/-! ## Searching -/

/-- `strstr(p, needle)`: the pointer to the first occurrence. -/
def strstr (needle : Text) : Text → Option Text
  | [] => if needle.isEmpty then some [] else none
  | c :: p => if needle.isPrefixOf (c :: p) then some (c :: p) else strstr needle p

theorem strstr_eq_none_iff {needle : Text} (hn : needle ≠ []) (p : Text) :
    strstr needle p = none ↔ ¬ needle <:+: p := by
  induction p with
  | nil => simp [strstr, hn]
  | cons c p ih =>
    rw [strstr, List.infix_cons_iff]
    by_cases hp : needle <+: c :: p
    · simp [hp]
    · simp [hp, ih]

/-- All of a needle but its last character still fits in front of what
starts with it. -/
theorem dropLast_front {needle s : Text} (hs : needle <+: s) (v : Text) :
    v ++ needle.dropLast <+: v ++ s :=
  (List.prefix_append_right_inj v).mpr ((List.dropLast_prefix needle).trans hs)

/-- An occurrence at the very start lies before a later one. -/
theorem infix_append_dropLast {needle s : Text} (hs : needle <+: s) (c : UInt8) (v : Text)
    (hp : needle <+: c :: v ++ s) : needle <:+: c :: v ++ needle.dropLast := by
  have hle : needle.length ≤ (c :: v ++ needle.dropLast).length := by
    simp only [List.length_append, List.length_cons, List.length_dropLast]
    omega
  exact (List.prefix_of_prefix_length_le hp (dropLast_front hs (c :: v)) hle).isInfix

/-- `s` starts with the needle and no earlier place of the text does: the
needle does not occur in what comes before it, not even with all but its
last character lying in `s`. -/
theorem strstr_eq_some_iff {needle : Text} (hn : needle ≠ []) (p s : Text) :
    strstr needle p = some s ↔
      ∃ v, p = v ++ s ∧ needle <+: s ∧ ¬ needle <:+: v ++ needle.dropLast := by
  have hpos : 0 < needle.length := List.length_pos_iff.mpr hn
  have hself : ¬ needle <:+: needle.dropLast := by
    intro h
    have := h.length_le
    simp at this
    omega
  induction p with
  | nil =>
    simp only [strstr, List.isEmpty_iff, if_neg hn]
    constructor
    · intro h; cases h
    · rintro ⟨v, hv, hs, -⟩
      obtain ⟨-, rfl⟩ := List.append_eq_nil_iff.mp hv.symm
      exact absurd (List.prefix_nil.mp hs) hn
  | cons c p ih =>
    rw [strstr]
    by_cases hp : needle <+: c :: p
    · rw [if_pos (by simpa using hp)]
      constructor
      · intro h
        cases h
        exact ⟨[], rfl, hp, hself⟩
      · rintro ⟨v, hv, hs, hno⟩
        cases v with
        | nil => simp [hv]
        | cons d v => exact absurd (infix_append_dropLast hs d v (hv ▸ hp)) hno
    · rw [if_neg (by simpa using hp)]
      refine ih.trans ⟨?_, ?_⟩
      · rintro ⟨v, rfl, hs, hno⟩
        refine ⟨c :: v, rfl, hs, ?_⟩
        rw [List.cons_append, List.infix_cons_iff]
        rintro (h | h)
        · exact hp (h.trans (dropLast_front hs (c :: v)))
        · exact hno h
      · rintro ⟨v, hv, hs, hno⟩
        cases v with
        | nil => rw [List.nil_append] at hv; exact absurd (hv ▸ hs) hp
        | cons d v =>
          rw [List.cons_append, List.cons.injEq] at hv
          refine ⟨v, hv.2, hs, fun h => hno ?_⟩
          rw [List.cons_append]
          exact List.infix_cons h

/-- `strpbrk`: the text from the first character on that is one of these. -/
def strpbrk (accept : Text) : Text → Option Text
  | [] => none
  | c :: p => if c ∈ accept then some (c :: p) else strpbrk accept p

/-- `strchr`, for a character that is not NUL. -/
def strchr (c : UInt8) (p : Text) : Option Text := strpbrk [c] p

theorem strpbrk_eq_none_iff (accept p : Text) :
    strpbrk accept p = none ↔ ∀ c ∈ p, c ∉ accept := by
  induction p with
  | nil => simp [strpbrk]
  | cons c p ih => by_cases h : c ∈ accept <;> simp [strpbrk, h, ih]

theorem strpbrk_eq_some_iff (accept p s : Text) :
    strpbrk accept p = some s ↔
      ∃ v c rest, p = v ++ c :: rest ∧ s = c :: rest ∧ (∀ x ∈ v, x ∉ accept) ∧ c ∈ accept := by
  induction p with
  | nil => simp [strpbrk]
  | cons d p ih =>
    by_cases h : d ∈ accept
    · rw [strpbrk, if_pos h]
      constructor
      · intro he
        exact ⟨[], d, p, rfl, (Option.some.inj he).symm, by simp, h⟩
      · rintro ⟨v, c, rest, hp, rfl, hv, -⟩
        cases v with
        | nil => rw [hp, List.nil_append]
        | cons x v =>
          obtain ⟨rfl, -⟩ := List.cons.inj hp
          exact absurd h (hv d List.mem_cons_self)
    · rw [strpbrk, if_neg h, ih]
      constructor
      · rintro ⟨v, c, rest, rfl, rfl, hv, hc⟩
        exact ⟨d :: v, c, rest, rfl, rfl, List.forall_mem_cons.mpr ⟨h, hv⟩, hc⟩
      · rintro ⟨v, c, rest, hp, rfl, hv, hc⟩
        cases v with
        | nil =>
          obtain ⟨rfl, -⟩ := List.cons.inj hp
          exact absurd hc h
        | cons x v =>
          obtain ⟨rfl, rfl⟩ := List.cons.inj hp
          exact ⟨v, c, rest, rfl, rfl, (List.forall_mem_cons.mp hv).2, hc⟩

theorem strchr_eq_none_iff (c : UInt8) (p : Text) : strchr c p = none ↔ c ∉ p := by
  rw [strchr, strpbrk_eq_none_iff]
  constructor
  · intro h hc
    exact h c hc (List.mem_singleton_self c)
  · intro h x hx hxc
    exact h (List.mem_singleton.mp hxc ▸ hx)

theorem strchr_eq_some_iff (c : UInt8) (p s : Text) :
    strchr c p = some s ↔ ∃ v rest, p = v ++ c :: rest ∧ s = c :: rest ∧ c ∉ v := by
  rw [strchr, strpbrk_eq_some_iff]
  constructor
  · rintro ⟨v, d, rest, rfl, rfl, hv, hd⟩
    obtain rfl := List.mem_singleton.mp hd
    exact ⟨v, rest, rfl, rfl, fun h => hv d h hd⟩
  · rintro ⟨v, rest, rfl, rfl, hv⟩
    refine ⟨v, c, rest, rfl, rfl, fun x hx hxc => ?_, List.mem_singleton_self c⟩
    exact hv (List.mem_singleton.mp hxc ▸ hx)

/-- The part before the first `c` is cut off in one way. -/
theorem text_cut_inj {c : UInt8} {p p' q q' : Text} (hp : c ∉ p) (hp' : c ∉ p')
    (h : p ++ c :: q = p' ++ c :: q') : p = p' ∧ q = q' := by
  induction p generalizing p' with
  | nil =>
    cases p' with
    | nil => simpa using h
    | cons d p' =>
      rw [List.nil_append, List.cons_append, List.cons.injEq] at h
      exact absurd (h.1 ▸ List.mem_cons_self) hp'
  | cons d p ih =>
    cases p' with
    | nil =>
      rw [List.nil_append, List.cons_append, List.cons.injEq] at h
      exact absurd (h.1 ▸ List.mem_cons_self) hp
    | cons d' p' =>
      simp only [List.cons_append, List.cons.injEq, List.mem_cons, not_or] at h hp hp' ⊢
      obtain ⟨e, e'⟩ := ih hp.2 hp'.2 h.2
      exact ⟨⟨h.1, e⟩, e'⟩

/-! ## Hexadecimal digits -/

/-- The value of a hexadecimal digit, of either case. -/
def hexValue (c : UInt8) : Option Nat :=
  if ascii '0' ≤ c ∧ c ≤ ascii '9' then some (c.toNat - (ascii '0').toNat)
  else if ascii 'A' ≤ c ∧ c ≤ ascii 'F' then some (c.toNat - (ascii 'A').toNat + 10)
  else if ascii 'a' ≤ c ∧ c ≤ ascii 'f' then some (c.toNat - (ascii 'a').toNat + 10)
  else none

theorem hexValue_lt {c : UInt8} {v : Nat} (h : hexValue c = some v) : v < 16 := by
  have key : ∀ n : Fin 256, ∀ w ∈ hexValue (.ofFin n), w < 16 := by decide +kernel
  exact key c.toFin v h

end Nanio.Lib
