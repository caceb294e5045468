/-
Nanio.Http.ReqParseTheorems — what `io_http_req_parse` accepts.
-/
import Nanio.Http.HttpParse

namespace Nanio.Http

open Nanio.Lib

/-! ## §1 Methods -/

/-- The methods whose words `io_http_match_type` tests by `memcmp`. -/
def memcmpMethods : List HttpReqMethod := [.CONNECT, .DELETE, .OPTIONS, .TRACE]

/-- Starting like one of these, in a text that ends before the bytes
`memcmp` is told to read. -/
def methodTooShort : Text → Bool
  | [] => false
  | c :: p => memcmpMethods.any fun m =>
      m.word.head? == some c && decide (p.length + 1 < m.word.tail.length)

/-- A branch of the switch that tests the rest of the word by `memcmp`. -/
theorem memBranch {cs : Text} (h0 : 0 ∉ cs) (p : Text) (n : Nat) :
    (do if ← memEq p 0 cs then pure n else pure 0 : Except TextFault Nat) =
      if cs.length ≤ p.length + 1 then .ok (if cs <+: p then n else 0)
      else .error .outOfText := by
  by_cases hlen : cs.length ≤ p.length + 1
  · have hm : memEq p 0 cs = .ok (cs.isPrefixOf p) := memEq_eq h0 p (by omega)
    rw [hm, if_pos hlen]
    by_cases hp : cs <+: p <;> simp [bind, Except.bind, pure, Except.pure, hp]
  · have hm : memEq p 0 cs = .error .outOfText := if_neg (by omega)
    rw [hm, if_neg hlen]
    rfl

/-- A branch of the switch that tests the rest of the word by hand. -/
theorem litBranch {cs : Text} (h0 : 0 ∉ cs) (p : Text) (n : Nat) :
    (do if ← litAt p 0 cs then pure n else pure 0 : Except TextFault Nat) =
      .ok (if cs <+: p then n else 0) := by
  rw [litAt_zero h0]
  by_cases hp : cs <+: p <;> simp [bind, Except.bind, pure, Except.pure, hp]

/-- What the switch answers for a method it recognises. -/
def HttpReqMethod.offset (m : HttpReqMethod) : Nat := m.code + 16 * m.word.length

theorem typeOffset_memcmp (m : HttpReqMethod) (hm : m ∈ memcmpMethods) {c : UInt8}
    (hc : m.word.head? = some c) (p : Text) :
    typeOffset (c :: p) =
      if m.word.tail.length ≤ p.length + 1 then .ok (if m.word.tail <+: p then m.offset else 0)
      else .error .outOfText := by
  have h0 : 0 ∉ m.word.tail := by cases m <;> decide
  rw [← memBranch h0, ← memEq_cons c]
  simp only [memcmpMethods, List.mem_cons, List.not_mem_nil, or_false] at hm
  rcases hm with rfl | rfl | rfl | rfl <;>
    (obtain rfl := Option.some.inj hc; rfl)

theorem typeOffset_hand (m : HttpReqMethod) (hm : m = .GET ∨ m = .HEAD) {c : UInt8}
    (hc : m.word.head? = some c) (p : Text) :
    typeOffset (c :: p) = .ok (if m.word.tail <+: p then m.offset else 0) := by
  have h0 : 0 ∉ m.word.tail := by cases m <;> decide
  rw [← litBranch h0, ← litAt_cons c]
  rcases hm with rfl | rfl <;> (obtain rfl := Option.some.inj hc; rfl)

theorem typeOffset_P (m : HttpReqMethod) (hm : m = .PATCH ∨ m = .POST ∨ m = .PUT) {d : UInt8}
    (hd : m.word.tail.head? = some d) (p : Text) :
    typeOffset (ascii 'P' :: d :: p) = .ok (if m.word.tail.tail <+: p then m.offset else 0) := by
  have h0 : 0 ∉ m.word.tail.tail := by cases m <;> decide
  rw [← litBranch h0, ← litAt_cons d, ← litAt_cons (ascii 'P')]
  rcases hm with rfl | rfl | rfl <;> (obtain rfl := Option.some.inj hd; rfl)

theorem typeOffset_P_other {p : Text}
    (h : ∀ d ∈ p.head?, d ≠ ascii 'A' ∧ d ≠ ascii 'O' ∧ d ≠ ascii 'U') :
    typeOffset (ascii 'P' :: p) = .ok 0 := by
  cases p with
  | nil => rfl
  | cons d p =>
    obtain ⟨hA, hO, hU⟩ := h d rfl
    change (if d == ascii 'A' then _ else if d == ascii 'O' then _ else
      if d == ascii 'U' then _ else pure 0 : Except TextFault Nat) = _
    rw [beq_false_of_ne hA, beq_false_of_ne hO, beq_false_of_ne hU]
    rfl

theorem typeOffset_other {c : UInt8} (p : Text)
    (h : ∀ a ∈ ['C', 'D', 'G', 'H', 'O', 'P', 'T'], c ≠ ascii a) :
    typeOffset (c :: p) = .ok 0 := by
  unfold typeOffset
  simp only [deref_zero_cons, bind, Except.bind]
  rw [beq_false_of_ne (h 'C' (by simp)), beq_false_of_ne (h 'D' (by simp)),
    beq_false_of_ne (h 'G' (by simp)), beq_false_of_ne (h 'H' (by simp)),
    beq_false_of_ne (h 'O' (by simp)), beq_false_of_ne (h 'P' (by simp)),
    beq_false_of_ne (h 'T' (by simp))]
  rfl

theorem word_prefix_cons (m : HttpReqMethod) (c : UInt8) (p : Text) :
    m.word <+: c :: p ↔ m.word.head? = some c ∧ m.word.tail <+: p := by
  cases h : m.word with
  | nil => cases m <;> simp [HttpReqMethod.word, lit] at h
  | cons d w => simp [List.cons_prefix_cons]

theorem word_prefix_cons₂ (m : HttpReqMethod) (c d : UInt8) (p : Text) :
    m.word <+: c :: d :: p ↔
      m.word.head? = some c ∧ m.word.tail.head? = some d ∧ m.word.tail.tail <+: p := by
  rw [word_prefix_cons]
  cases h : m.word.tail with
  | nil => cases m <;> simp [HttpReqMethod.word, lit] at h
  | cons e w => simp [List.cons_prefix_cons]

/-- The switch recognises each method by its word. -/
theorem typeOffset_word {m : HttpReqMethod} (hm : m ≠ .ERROR) (p : Text) :
    typeOffset (m.word ++ p) = .ok m.offset := by
  have memcmp : m ∈ memcmpMethods → typeOffset (m.word ++ p) = .ok m.offset := by
    intro h
    cases hw : m.word with
    | nil => cases m <;> simp [HttpReqMethod.word, lit] at hw
    | cons c w =>
      rw [List.cons_append, typeOffset_memcmp m h (by rw [hw]; rfl), hw, List.tail_cons,
        if_pos (by rw [List.length_append]; omega), if_pos (List.prefix_append _ _)]
  have found (w : Text) (n : Nat) : (.ok (if w <+: w ++ p then n else 0) : Except TextFault Nat) =
      .ok n := by
    rw [if_pos (List.prefix_append w p)]
  cases m with
  | ERROR => exact absurd rfl hm
  | CONNECT | DELETE | OPTIONS | TRACE => exact memcmp (by decide)
  | GET => exact (typeOffset_hand .GET (by decide) rfl _).trans (found _ _)
  | HEAD => exact (typeOffset_hand .HEAD (by decide) rfl _).trans (found _ _)
  | PATCH => exact (typeOffset_P .PATCH (by decide) rfl _).trans (found _ _)
  | POST => exact (typeOffset_P .POST (by decide) rfl _).trans (found _ _)
  | PUT => exact (typeOffset_P .PUT (by decide) rfl _).trans (found _ _)

/-- A `memcmp` past the end of the text. -/
theorem typeOffset_tooShort {text : Text} (h : methodTooShort text = true) :
    typeOffset text = .error .outOfText := by
  cases text with
  | nil => simp [methodTooShort] at h
  | cons c p =>
    simp only [methodTooShort, List.any_eq_true, Bool.and_eq_true, beq_iff_eq,
      decide_eq_true_eq] at h
    obtain ⟨m, hm, hc, hlen⟩ := h
    rw [typeOffset_memcmp m hm hc, if_neg (by omega)]

/-- Behind a `P` none of the three words goes on. -/
theorem typeOffset_P_none {p : Text}
    (h : ∀ m : HttpReqMethod, m ≠ .ERROR → ¬ m.word <+: ascii 'P' :: p) :
    typeOffset (ascii 'P' :: p) = .ok 0 := by
  cases p with
  | nil => rfl
  | cons d p =>
    have hpat (m : HttpReqMethod) (hm : m = .PATCH ∨ m = .POST ∨ m = .PUT)
        (hd : m.word.tail.head? = some d) : typeOffset (ascii 'P' :: d :: p) = .ok 0 := by
      have hne : ¬ m.word.tail.tail <+: p := by
        intro ht
        refine h m ?_ ((word_prefix_cons₂ m _ d p).mpr ⟨?_, hd, ht⟩)
        · rcases hm with rfl | rfl | rfl <;> decide
        · rcases hm with rfl | rfl | rfl <;> rfl
      rw [typeOffset_P m hm hd, if_neg hne]
    by_cases hA : d = ascii 'A'
    · exact hpat .PATCH (by simp) (hA ▸ rfl)
    by_cases hO : d = ascii 'O'
    · exact hpat .POST (by simp) (hO ▸ rfl)
    by_cases hU : d = ascii 'U'
    · exact hpat .PUT (by simp) (hU ▸ rfl)
    refine typeOffset_P_other fun e he => ?_
    obtain rfl := Option.some.inj he
    exact ⟨hA, hO, hU⟩

/-- Without a method the switch answers 0. -/
theorem typeOffset_none {text : Text} (hs : methodTooShort text = false)
    (h : ∀ m : HttpReqMethod, m ≠ .ERROR → ¬ m.word <+: text) : typeOffset text = .ok 0 := by
  cases text with
  | nil => rfl
  | cons c p =>
    by_cases hmem : ∃ m ∈ memcmpMethods, m.word.head? = some c
    · obtain ⟨m, hm, hc⟩ := hmem
      have hne : ¬ m.word.tail <+: p := fun ht =>
        h m (by rintro rfl; revert hm; decide) ((word_prefix_cons m c p).mpr ⟨hc, ht⟩)
      have hlen : m.word.tail.length ≤ p.length + 1 := by
        simp only [methodTooShort, List.any_eq_false, Bool.and_eq_true, beq_iff_eq,
          decide_eq_true_eq, not_and, Nat.not_lt] at hs
        exact hs m hm hc
      rw [typeOffset_memcmp m hm hc, if_pos hlen, if_neg hne]
    · have hc (m : HttpReqMethod) (hm : m ∈ memcmpMethods) (a : Char)
          (ha : m.word.head? = some (ascii a)) : c ≠ ascii a :=
        fun e => hmem ⟨m, hm, e ▸ ha⟩
      have hand (m : HttpReqMethod) (hm : m = .GET ∨ m = .HEAD)
          (hw : m.word.head? = some c) : typeOffset (c :: p) = .ok 0 := by
        have hne : ¬ m.word.tail <+: p := fun ht =>
          h m (by rcases hm with rfl | rfl <;> decide) ((word_prefix_cons m c p).mpr ⟨hw, ht⟩)
        rw [typeOffset_hand m hm hw, if_neg hne]
      by_cases hG : c = ascii 'G'
      · exact hand .GET (by simp) (hG ▸ rfl)
      by_cases hH : c = ascii 'H'
      · exact hand .HEAD (by simp) (hH ▸ rfl)
      by_cases hP : c = ascii 'P'
      · subst hP
        exact typeOffset_P_none h
      · apply typeOffset_other
        intro a ha
        simp only [List.mem_cons, List.not_mem_nil, or_false] at ha
        rcases ha with rfl | rfl | rfl | rfl | rfl | rfl | rfl
        · exact hc .CONNECT (by decide) _ rfl
        · exact hc .DELETE (by decide) _ rfl
        · exact hG
        · exact hH
        · exact hc .OPTIONS (by decide) _ rfl
        · exact hP
        · exact hc .TRACE (by decide) _ rfl

/-- No word of a method is the start of another's. -/
theorem word_unique {m m' : HttpReqMethod} {text : Text} (hm : m ≠ .ERROR) (hm' : m' ≠ .ERROR)
    (h : m.word <+: text) (h' : m'.word <+: text) : m = m' := by
  have key : ∀ a b : HttpReqMethod, a ≠ .ERROR → b ≠ .ERROR → a.word <+: b.word → a = b := by
    intro a b
    cases a <;> cases b <;> decide
  rcases List.prefix_or_prefix_of_prefix h h' with hp | hp
  · exact key m m' hm hm' hp
  · exact (key m' m hm' hm hp).symm

theorem ioHttpMatchType_eq {text : Text} {off : Nat} {c : UInt8} (ho : typeOffset text = .ok off)
    (hc : deref text (off >>> 4) = .ok c) :
    ioHttpMatchType text =
      .ok (if c = sp then (off &&& 15, text.drop ((off >>> 4) + 1)) else (0, text)) := by
  simp only [ioHttpMatchType, ho, hc, bind, Except.bind, beq_iff_eq]
  split <;> rfl

/-- A method followed by a space is matched, the pointer moves past both. -/
theorem ioHttpMatchType_word {m : HttpReqMethod} (hm : m ≠ .ERROR) (p : Text) :
    ioHttpMatchType (m.word ++ sp :: p) = .ok (m.code, p) := by
  have hlen : m.offset >>> 4 = m.word.length := by cases m <;> rfl
  have hcode : m.offset &&& 15 = m.code := by cases m <;> rfl
  have hd : deref (m.word ++ sp :: p) (m.offset >>> 4) = .ok sp :=
    hlen ▸ deref_append m.word (sp :: p) 0
  rw [ioHttpMatchType_eq (typeOffset_word hm _) hd, if_pos rfl, hcode, hlen, ← List.drop_drop,
    List.drop_left]
  rfl

/-- Every other text is no method: `HTTP_ERROR` comes back. -/
theorem ioHttpMatchType_none {text : Text} (hs : methodTooShort text = false)
    (h : ∀ (m : HttpReqMethod) (p : Text), m ≠ .ERROR → text ≠ m.word ++ sp :: p) :
    ∃ p, ioHttpMatchType text = .ok (0, p) := by
  by_cases hw : ∃ m : HttpReqMethod, m ≠ .ERROR ∧ m.word <+: text
  · obtain ⟨m, hm, p, rfl⟩ := hw
    have hlen : m.offset >>> 4 = m.word.length := by cases m <;> rfl
    have hd : ∃ c, c ≠ sp ∧ deref (m.word ++ p) (m.offset >>> 4) = .ok c := by
      rw [hlen, ← Nat.add_zero m.word.length, deref_append m.word p 0]
      cases p with
      | nil => exact ⟨0, by decide, rfl⟩
      | cons c p => exact ⟨c, fun e => h m p hm (e ▸ rfl), rfl⟩
    obtain ⟨c, hc, hd⟩ := hd
    exact ⟨_, by rw [ioHttpMatchType_eq (typeOffset_word hm p) hd, if_neg hc]⟩
  · have ho := typeOffset_none hs fun m hm hp => hw ⟨m, hm, hp⟩
    have hd : ∃ c, deref text (0 >>> 4) = .ok c := by
      cases text with
      | nil => exact ⟨0, rfl⟩
      | cons c p => exact ⟨c, rfl⟩
    obtain ⟨c, hc⟩ := hd
    rw [ioHttpMatchType_eq ho hc]
    split
    · exact ⟨_, rfl⟩
    · exact ⟨_, rfl⟩

theorem ioHttpMatchType_tooShort {text : Text} (h : methodTooShort text = true) :
    ioHttpMatchType text = .error .outOfText := by
  rw [ioHttpMatchType, typeOffset_tooShort h]
  rfl

/-! ## §2 Version -/

/-- A decimal digit. -/
def isDigit (d : UInt8) : Bool := ascii '0' ≤ d && d ≤ ascii '9'

/-- The number a decimal digit denotes. -/
def digitValue (d : UInt8) : Int := (d.toNat : Int) - (ascii '0').toNat

/-- `digit2num` is below 10 for the digits, and for `@` and the backquote,
which it takes for a 9. -/
theorem digit2num_lt_iff (d : UInt8) :
    digit2num d < 10 ↔ isDigit d = true ∨ d = ascii '@' ∨ d = ascii '`' := by
  have key : ∀ n : Fin 256, digit2num (.ofFin n) < 10 ↔
      isDigit (.ofFin n) = true ∨ UInt8.ofFin n = ascii '@' ∨ UInt8.ofFin n = ascii '`' := by
    decide +kernel
  exact key d.toFin

theorem digit2num_digit {d : UInt8} (h : isDigit d = true) : digit2num d = digitValue d := by
  have key : ∀ n : Fin 256, isDigit (.ofFin n) = true →
      digit2num (.ofFin n) = digitValue (.ofFin n) := by
    decide +kernel
  exact key d.toFin h

theorem digit2num_nonneg (d : UInt8) : 0 ≤ digit2num d := by
  have key : ∀ n : Fin 256, 0 ≤ digit2num (.ofFin n) := by decide +kernel
  exact key d.toFin

/-- `HTTP/`. -/
def httpSlash : Text := lit ['H', 'T', 'T', 'P', '/']

/-- What `io_http_match_version` takes for a version: five characters of
which one is in its place in `HTTP/`, then `d₁ . d₂` that `digit2num`
takes for digits. -/
def LooseVersion (tail : Text) (d₁ d₂ : UInt8) (rest : Text) : Prop :=
  ∃ v, tail = v ++ d₁ :: ascii '.' :: d₂ :: rest ∧ v.length = 5 ∧ someAgree v httpSlash = true ∧
    digit2num d₁ < 10 ∧ digit2num d₂ < 10

/-- The texts in which `io_http_match_version` stays before the NUL or on it. -/
def versionReadable (tail : Text) : Bool :=
  decide (5 ≤ tail.length) || (decide (tail.length = 4) && !someAgree tail httpSlash)

theorem someAgree_append {v : Text} (hv : v.length = 5) (x : Text) :
    someAgree (v ++ x) httpSlash = someAgree v httpSlash := by
  match v, hv with
  | [_, _, _, _, _], _ => simp [someAgree, httpSlash, lit]

/-- With one of the five characters in place, only `d₁ . d₂` decides. -/
theorem ioHttpMatchVersion_agree {v : Text} (hv : v.length = 5)
    (ha : someAgree v httpSlash = true) (p : Text) :
    ioHttpMatchVersion (v ++ p) = .ok (
      match p with
      | d₁ :: c :: d₂ :: rest =>
        if digit2num d₁ < 10 ∧ c = ascii '.' ∧ digit2num d₂ < 10 then
          (digit2num d₁ * 0x100 + digit2num d₂, rest)
        else (-1, v ++ p)
      | _ => (-1, v ++ p)) := by
  have hnone : noneAt (v ++ p) 0 httpSlash = .ok false := by
    rw [noneAt_eq (by decide), someAgree_append hv, if_pos ha]
  have hd (k : Nat) : deref (v ++ p) (5 + k) = deref p k := hv ▸ deref_append v p k
  have hdrop : (v ++ p).drop 8 = p.drop 3 := by
    rw [List.drop_append, hv, List.drop_eq_nil_of_le (by omega), List.nil_append]
  have hnul : ¬ digit2num 0 < 10 := by decide
  unfold ioHttpMatchVersion
  change (noneAt (v ++ p) 0 httpSlash >>= _) = _
  simp only [hnone, bind, Except.bind, hd 0, hd 1, hd 2, hdrop, pure, Except.pure]
  match p with
  | [] => simp [hnul]
  | [d] =>
    have hdot : (0 : UInt8) ≠ ascii '.' := by decide
    simp [hdot]
  | [d, c] =>
    by_cases hc : c = ascii '.'
    · simp [hc, hnul]
    · simp [hc]
  | d₁ :: c :: d₂ :: rest =>
    by_cases h₁ : digit2num d₁ < 10
    · have h₁' : ¬ 10 ≤ digit2num d₁ := by omega
      by_cases hc : c = ascii '.'
      · by_cases h₂ : digit2num d₂ < 10
        · simp [h₁, h₁', hc, h₂]
        · simp [hc, h₂]
      · simp [hc]
    · have h₁' : 10 ≤ digit2num d₁ := by omega
      simp [h₁, h₁']

theorem ioHttpMatchVersion_loose {tail rest : Text} {d₁ d₂ : UInt8}
    (h : LooseVersion tail d₁ d₂ rest) :
    ioHttpMatchVersion tail = .ok (digit2num d₁ * 0x100 + digit2num d₂, rest) := by
  obtain ⟨v, rfl, hv, ha, h₁, h₂⟩ := h
  rw [ioHttpMatchVersion_agree hv ha]
  simp [h₁, h₂]

/-- No version is found, and the pointer stays where it was. -/
theorem ioHttpMatchVersion_none {tail : Text} (hr : versionReadable tail = true)
    (h : ∀ d₁ d₂ rest, ¬ LooseVersion tail d₁ d₂ rest) :
    ioHttpMatchVersion tail = .ok (-1, tail) := by
  by_cases ha : someAgree tail httpSlash = true
  · have hlen : 5 ≤ tail.length := by simpa [versionReadable, ha] using hr
    obtain ⟨v, p, rfl, hv⟩ : ∃ v p, tail = v ++ p ∧ v.length = 5 :=
      ⟨tail.take 5, tail.drop 5, (List.take_append_drop 5 tail).symm, by simp [hlen]⟩
    rw [someAgree_append hv] at ha
    rw [ioHttpMatchVersion_agree hv ha]
    match p with
    | [] | [_] | [_, _] => rfl
    | d₁ :: c :: d₂ :: rest =>
      have hno : ¬ (digit2num d₁ < 10 ∧ c = ascii '.' ∧ digit2num d₂ < 10) := by
        rintro ⟨h₁, rfl, h₂⟩
        exact h d₁ d₂ rest ⟨v, rfl, hv, ha, h₁, h₂⟩
      simp only [if_neg hno]
  · have hlen : httpSlash.length ≤ tail.length + 1 := by
      simp only [versionReadable, Bool.or_eq_true, Bool.and_eq_true, decide_eq_true_eq] at hr
      simp only [httpSlash, lit, List.length_map, List.length_cons, List.length_nil]
      omega
    unfold ioHttpMatchVersion
    change (noneAt tail 0 httpSlash >>= _) = _
    rw [noneAt_eq (by decide), if_neg ha, if_pos hlen]
    rfl

/-- A text that ends too early is read past its NUL. -/
theorem ioHttpMatchVersion_unreadable {tail : Text} (hr : versionReadable tail = false) :
    ioHttpMatchVersion tail = .error .outOfText := by
  simp only [versionReadable, Bool.or_eq_false_iff, Bool.and_eq_false_iff, decide_eq_false_iff_not,
    Bool.not_eq_false'] at hr
  unfold ioHttpMatchVersion
  change (noneAt tail 0 httpSlash >>= _) = _
  by_cases ha : someAgree tail httpSlash = true
  · have hd : deref tail 5 = .error .outOfText := by
      have hnone : tail[5]? = none := List.getElem?_eq_none (by omega)
      rw [deref, hnone]
      exact if_neg (by omega)
    rw [noneAt_eq (by decide), if_pos ha]
    simp only [bind, Except.bind, hd]
    rfl
  · have hlen : ¬ httpSlash.length ≤ tail.length + 1 := by
      have h4 := hr.2.resolve_right ha
      simp only [httpSlash, lit, List.length_map, List.length_cons, List.length_nil]
      omega
    rw [noneAt_eq (by decide), if_neg ha, if_neg hlen]
    rfl

/-! ## §3 The path -/

/-- The copy loop meets a space in time, or it leaves the pointer on
something that is not a space. -/
theorem copyPath_space {path : Text} (hsp : sp ∉ path) {room : Nat} (hroom : path.length ≤ room)
    (q : Text) : copyPath room (path ++ sp :: q) = (path, sp :: q) := by
  induction path generalizing room with
  | nil => cases room <;> simp [copyPath]
  | cons c path ih =>
    simp only [List.mem_cons, not_or] at hsp
    cases room with
    | zero => simp at hroom
    | succ room =>
      have hc : (c == sp) = false := beq_false_of_ne (Ne.symm hsp.1)
      rw [List.cons_append, copyPath, hc, ih hsp.2 (by simpa using hroom)]
      rfl

theorem copyPath_no_space {room : Nat} {p : Text}
    (h : ∀ path q, p = path ++ sp :: q → sp ∉ path → room < path.length) :
    (copyPath room p).2.head? ≠ some sp := by
  induction p generalizing room with
  | nil => cases room <;> simp [copyPath]
  | cons c p ih =>
    have hc : c ≠ sp := by
      rintro rfl
      have := h [] p rfl (by simp)
      simp at this
    cases room with
    | zero => simpa [copyPath] using hc
    | succ room =>
      rw [copyPath, beq_false_of_ne hc]
      apply ih
      intro path q hp hsp
      have := h (c :: path) q (by rw [hp]; rfl) (by simp [hsp, Ne.symm hc])
      simpa using this

/-! ## §4 The shape of a request head -/

/-- `n` spaces. -/
def spaces (n : Nat) : Text := List.replicate n sp

theorem ioAfterSpace_spaces (n : Nat) {p : Text} (hp : p.head? ≠ some sp) :
    ioAfterSpace (spaces n ++ p) = p := by
  induction n with
  | zero =>
    cases p with
    | nil => rfl
    | cons c p =>
      have hc : c ≠ sp := fun e => hp (by rw [e]; rfl)
      simp [ioAfterSpace, spaces, hc]
  | succ n ih =>
    rw [spaces, List.replicate_succ, List.cons_append, ioAfterSpace, List.dropWhile_cons]
    simpa [ioAfterSpace, spaces] using ih

/-- Skipping spaces leaves a pointer that is not on a space. -/
theorem ioAfterSpace_split (p : Text) :
    ∃ n q, p = spaces n ++ q ∧ q.head? ≠ some sp ∧ ioAfterSpace p = q := by
  induction p with
  | nil => exact ⟨0, [], rfl, by simp, rfl⟩
  | cons c p ih =>
    obtain ⟨n, q, hp, hq, he⟩ := ih
    by_cases hc : c = sp
    · refine ⟨n + 1, q, ?_, hq, ?_⟩
      · rw [hp, hc]
        rfl
      · rw [← he, hc]
        rfl
    · refine ⟨0, c :: p, rfl, by simpa using hc, ?_⟩
      simp [ioAfterSpace, hc]

/-- The text up to the version, as `io_http_req_parse` cuts it: a method,
spaces, a path without a space that fits `req->path`, spaces, and `tail`. -/
structure HeadSplit (text : Text) (m : HttpReqMethod) (path tail : Text) : Prop where
  method : m ≠ .ERROR
  text_eq : ∃ a b, text = m.word ++ spaces (a + 1) ++ path ++ spaces (b + 1) ++ tail
  path_ne : path ≠ []
  no_space : sp ∉ path
  fits : path.length < pathSize
  tail_head : tail.head? ≠ some sp

theorem HeadSplit.head_path {text path tail : Text} {m : HttpReqMethod}
    (h : HeadSplit text m path tail) (q : Text) : (path ++ q).head? ≠ some sp := by
  cases path with
  | nil => exact absurd rfl h.path_ne
  | cons c p =>
    intro he
    exact h.no_space (by simp_all)

/-- On such a text only the version is left to decide. -/
theorem HeadSplit.parse {text path tail : Text} {m : HttpReqMethod}
    (h : HeadSplit text m path tail) (req : IoHttpReq) :
    ioHttpReqParse req text = reqVersion (req.setPath path) m.code text tail := by
  obtain ⟨a, b, ht⟩ := h.text_eq
  have hcode : m.code ≠ 0 := by
    have := h.method
    cases m <;> simp_all [HttpReqMethod.code]
  have hs : ∀ n, spaces (n + 1) = sp :: spaces n := fun n => rfl
  have hmatch : ioHttpMatchType text =
      .ok (m.code, spaces a ++ (path ++ sp :: (spaces b ++ tail))) := by
    rw [ht, hs, hs]
    simpa [List.append_assoc] using
      ioHttpMatchType_word h.method (spaces a ++ (path ++ sp :: (spaces b ++ tail)))
  have hskip := ioAfterSpace_spaces a (h.head_path (sp :: (spaces b ++ tail)))
  have hcopy : copyPath (pathSize - 1) (path ++ sp :: (spaces b ++ tail)) =
      (path, sp :: (spaces b ++ tail)) :=
    copyPath_space h.no_space (Nat.le_pred_of_lt h.fits) _
  have htail : ioAfterSpace (sp :: (spaces b ++ tail)) = tail :=
    ioAfterSpace_spaces (b + 1) h.tail_head
  simp only [ioHttpReqParse, hmatch, hskip, hcopy, htail, bind, Except.bind, deref_zero_cons,
    if_neg hcode, bne_self_eq_false, Bool.false_eq_true, if_false]

/-- A text that starts like a method and ends before `memcmp` is done. -/
theorem ioHttpReqParse_tooShort {text : Text} (h : methodTooShort text = true) (req : IoHttpReq) :
    ioHttpReqParse req text = .error .outOfText := by
  rw [ioHttpReqParse, ioHttpMatchType_tooShort h]
  rfl

/-- Every other text is refused, and `*text` is left alone. -/
theorem ioHttpReqParse_refused {text : Text} (hs : methodTooShort text = false)
    (h : ∀ m path tail, ¬ HeadSplit text m path tail) (req : IoHttpReq) :
    ∃ req', ioHttpReqParse req text = .ok (-1, req', text) := by
  by_cases hm : ∃ (m : HttpReqMethod) (p : Text), m ≠ .ERROR ∧ text = m.word ++ sp :: p
  · obtain ⟨m, p, hm, rfl⟩ := hm
    have hcode : m.code ≠ 0 := by cases m <;> simp_all [HttpReqMethod.code]
    obtain ⟨a, q, rfl, hq, hskip⟩ := ioAfterSpace_split p
    have hno : ∀ path r, q = path ++ sp :: r → sp ∉ path → pathSize - 1 < path.length := by
      rintro path r rfl hsp
      by_contra hlen
      have hfits : path.length < pathSize := by
        rw [pathSize] at hlen ⊢
        omega
      obtain ⟨b, tail, rfl, htail, -⟩ := ioAfterSpace_split r
      refine h m path tail ⟨hm, ⟨a, b, ?_⟩, ?_, hsp, hfits, htail⟩
      · simp [spaces, List.replicate_succ]
      · rintro rfl
        exact hq rfl
    have hd : ∃ c, c ≠ sp ∧ deref (copyPath (pathSize - 1) q).2 0 = .ok c := by
      have := copyPath_no_space hno
      cases hc : (copyPath (pathSize - 1) q).2 with
      | nil => exact ⟨0, by decide, rfl⟩
      | cons c r => exact ⟨c, by simpa [hc] using this, rfl⟩
    obtain ⟨c, hc, hd⟩ := hd
    refine ⟨req.overwritePath (copyPath (pathSize - 1) q).1, ?_⟩
    simp only [ioHttpReqParse, ioHttpMatchType_word hm, hskip, bind, Except.bind, hd, if_neg hcode,
      bne_iff_ne, ne_eq, hc, not_false_eq_true, if_true]
    rfl
  · obtain ⟨p, hp⟩ := ioHttpMatchType_none hs fun m p hm' he => hm ⟨m, p, hm', he⟩
    refine ⟨req, ?_⟩
    simp only [ioHttpReqParse, hp, bind, Except.bind, if_true]
    rfl

/-! ## §5 The version decides -/

theorem spaces_append_inj {a b : Nat} {p q : Text} (hp : p.head? ≠ some sp)
    (hq : q.head? ≠ some sp) (h : spaces a ++ p = spaces b ++ q) : p = q := by
  rw [← ioAfterSpace_spaces a hp, h, ioAfterSpace_spaces b hq]

/-- A text is cut in one way at most. -/
theorem HeadSplit.unique {text path tail path' tail' : Text} {m m' : HttpReqMethod}
    (h : HeadSplit text m path tail) (h' : HeadSplit text m' path' tail') :
    m = m' ∧ path = path' ∧ tail = tail' := by
  obtain ⟨a, b, ht⟩ := h.text_eq
  obtain ⟨a', b', ht'⟩ := h'.text_eq
  have hs : ∀ n, spaces (n + 1) = sp :: spaces n := fun n => rfl
  simp only [List.append_assoc] at ht ht'
  obtain rfl : m = m' := word_unique h.method h'.method ⟨_, ht.symm⟩ ⟨_, ht'.symm⟩
  have e₁ : path ++ sp :: (spaces b ++ tail) = path' ++ sp :: (spaces b' ++ tail') := by
    have e := List.append_cancel_left (ht.symm.trans ht')
    rw [hs b, hs b'] at e
    exact spaces_append_inj (h.head_path _) (h'.head_path _) e
  obtain ⟨rfl, e₂⟩ := text_cut_inj h.no_space h'.no_space e₁
  exact ⟨rfl, rfl, spaces_append_inj h.tail_head h'.tail_head e₂⟩

/-- A line end at the pointer is skipped. -/
def skipCrlf (p : Text) : Text := if crlf.isPrefixOf p then p.drop 2 else p

theorem reqVersion_eq {req : IoHttpReq} {method : Nat} {text p q : Text} {version : Int}
    (h : ioHttpMatchVersion p = .ok (version, q)) :
    reqVersion req method text p =
      .ok (if version < 0 then (-1, { req with method, version }, text)
        else (0, { req with method, version }, skipCrlf q)) := by
  simp only [reqVersion, h, litAt_zero (show 0 ∉ crlf by decide) q, bind, Except.bind]
  split <;> rfl

theorem reqVersion_loose {req : IoHttpReq} {method : Nat} {text tail rest : Text}
    {d₁ d₂ : UInt8} (h : LooseVersion tail d₁ d₂ rest) :
    reqVersion req method text tail =
      .ok (0, { req with method, version := digit2num d₁ * 0x100 + digit2num d₂ },
        skipCrlf rest) := by
  have hnn : ¬ digit2num d₁ * 0x100 + digit2num d₂ < 0 := by
    have h₁ := digit2num_nonneg d₁
    have h₂ := digit2num_nonneg d₂
    omega
  rw [reqVersion_eq (ioHttpMatchVersion_loose h), if_neg hnn]

theorem reqVersion_none {req : IoHttpReq} {method : Nat} {text tail : Text}
    (hr : versionReadable tail = true) (h : ∀ d₁ d₂ rest, ¬ LooseVersion tail d₁ d₂ rest) :
    reqVersion req method text tail = .ok (-1, { req with method, version := -1 }, text) := by
  rw [reqVersion_eq (ioHttpMatchVersion_none hr h)]
  rfl

theorem reqVersion_unreadable {req : IoHttpReq} {method : Nat} {text tail : Text}
    (hr : versionReadable tail = false) :
    reqVersion req method text tail = .error .outOfText := by
  rw [reqVersion, ioHttpMatchVersion_unreadable hr]
  rfl

theorem LooseVersion.unique {tail rest rest' : Text} {d₁ d₂ d₁' d₂' : UInt8}
    (h : LooseVersion tail d₁ d₂ rest) (h' : LooseVersion tail d₁' d₂' rest') :
    d₁ = d₁' ∧ d₂ = d₂' ∧ rest = rest' := by
  obtain ⟨v, rfl, hv, -⟩ := h
  obtain ⟨v', ht, hv', -⟩ := h'
  obtain ⟨-, e⟩ := List.append_inj ht (hv.trans hv'.symm)
  simpa using e

/-! ## §6 The request-line grammar -/

/-- The line the parser is meant to accept, and the text after it. -/
structure RequestLine (text : Text) (m : HttpReqMethod) (path : Text) (d₁ d₂ : UInt8)
    (rest : Text) : Prop where
  method : m ≠ .ERROR
  text_eq : ∃ a b, text = m.word ++ spaces (a + 1) ++ path ++ spaces (b + 1) ++
    (httpSlash ++ d₁ :: ascii '.' :: d₂ :: rest)
  path_ne : path ≠ []
  path_chars : sp ∉ path ∧ cr ∉ path ∧ lf ∉ path
  fits : path.length < pathSize
  major : isDigit d₁ = true
  minor : isDigit d₂ = true

/-- The parser does its job on this text, whatever is in `req` before. -/
def ReqParseExact (text : Text) : Prop :=
  ∀ req, ∃ r req' text', ioHttpReqParse req text = .ok (r, req', text') ∧
    (r = 0 ∨ r = -1) ∧
    (r = 0 ↔ ∃ m path d₁ d₂ rest, RequestLine text m path d₁ d₂ rest) ∧
    (∀ m path d₁ d₂ rest, RequestLine text m path d₁ d₂ rest →
      req' = ⟨m.code, digitValue d₁ * 0x100 + digitValue d₂, path,
        req.pathArray.drop (path.length + 1)⟩ ∧ text' = skipCrlf rest) ∧
    (r ≠ 0 → text' = text)

/-- When it does: the method comparison has its bytes, and where the head is
cut, the version has them too and is accepted only when it is spelled out
and the path has no line end. -/
def ReqParseCond (text : Text) : Prop :=
  methodTooShort text = false ∧
  ∀ m path tail, HeadSplit text m path tail → versionReadable tail = true ∧
    ∀ d₁ d₂ rest, LooseVersion tail d₁ d₂ rest →
      cr ∉ path ∧ lf ∉ path ∧ httpSlash <+: tail ∧ isDigit d₁ = true ∧ isDigit d₂ = true

theorem RequestLine.split {text path rest : Text} {m : HttpReqMethod} {d₁ d₂ : UInt8}
    (h : RequestLine text m path d₁ d₂ rest) :
    HeadSplit text m path (httpSlash ++ d₁ :: ascii '.' :: d₂ :: rest) where
  method := h.method
  text_eq := h.text_eq
  path_ne := h.path_ne
  no_space := h.path_chars.1
  fits := h.fits
  tail_head := by simp [httpSlash, lit, ascii, sp]

theorem looseVersion_httpSlash {d₁ d₂ : UInt8} (h₁ : isDigit d₁ = true) (h₂ : isDigit d₂ = true)
    (rest : Text) : LooseVersion (httpSlash ++ d₁ :: ascii '.' :: d₂ :: rest) d₁ d₂ rest :=
  ⟨httpSlash, rfl, rfl, by decide, (digit2num_lt_iff d₁).mpr (.inl h₁),
    (digit2num_lt_iff d₂).mpr (.inl h₂)⟩

/-- A cut head whose version is spelled out is a request line. -/
theorem HeadSplit.requestLine {text path tail rest : Text} {m : HttpReqMethod} {d₁ d₂ : UInt8}
    (h : HeadSplit text m path tail) (hv : LooseVersion tail d₁ d₂ rest)
    (hs : cr ∉ path ∧ lf ∉ path ∧ httpSlash <+: tail ∧ isDigit d₁ = true ∧ isDigit d₂ = true) :
    RequestLine text m path d₁ d₂ rest := by
  obtain ⟨hcr, hlf, ⟨q, hq⟩, h₁, h₂⟩ := hs
  obtain ⟨v, ht, hlen, -⟩ := hv
  obtain ⟨rfl, -⟩ := List.append_inj (ht.symm.trans hq.symm) hlen
  exact ⟨h.method, ht ▸ h.text_eq, h.path_ne, ⟨h.no_space, hcr, hlf⟩, h.fits, h₁, h₂⟩

/-- What the parser returns where the head is cut and the version is taken. -/
theorem HeadSplit.accepted {text path tail rest : Text} {m : HttpReqMethod} {d₁ d₂ : UInt8}
    (h : HeadSplit text m path tail) (hv : LooseVersion tail d₁ d₂ rest) (req : IoHttpReq) :
    ioHttpReqParse req text =
      .ok (0, ⟨m.code, digit2num d₁ * 0x100 + digit2num d₂, path,
        req.pathArray.drop (path.length + 1)⟩, skipCrlf rest) := by
  rw [h.parse req, reqVersion_loose hv]
  rfl

/-- A call that returns has found the bytes it reads of the method and of the
version. -/
theorem bytes_of_returns {req : IoHttpReq} {text : Text} {x : Int × IoHttpReq × Text}
    (hp : ioHttpReqParse req text = .ok x) : methodTooShort text = false ∧
      ∀ m path tail, HeadSplit text m path tail → versionReadable tail = true := by
  constructor
  · by_contra hs
    rw [ioHttpReqParse_tooShort (by simpa using hs)] at hp
    cases hp
  · intro m path tail hc
    by_contra hr
    rw [hc.parse, reqVersion_unreadable (by simpa using hr)] at hp
    cases hp

theorem ReqParseCond.of_exact {text : Text} (h : ReqParseExact text) : ReqParseCond text := by
  obtain ⟨r, req', text', hp, -, hiff, -⟩ := h ⟨0, 0, [], []⟩
  obtain ⟨hmethod, hversion⟩ := bytes_of_returns hp
  refine ⟨hmethod, fun m path tail hc => ⟨hversion m path tail hc, fun d₁ d₂ rest hv => ?_⟩⟩
  rw [hc.accepted hv] at hp
  have hr : r = 0 := by cases hp; rfl
  obtain ⟨m', path', d₁', d₂', rest', hl⟩ := hiff.mp hr
  obtain ⟨-, rfl, rfl⟩ := hc.unique hl.split
  obtain ⟨rfl, rfl, rfl⟩ := hv.unique (looseVersion_httpSlash hl.major hl.minor rest')
  exact ⟨hl.path_chars.2.1, hl.path_chars.2.2, List.prefix_append _ _, hl.major, hl.minor⟩

theorem ReqParseCond.exact {text : Text} (h : ReqParseCond text) : ReqParseExact text := by
  intro req
  obtain ⟨hs, hcut⟩ := h
  by_cases hc : ∃ m path tail, HeadSplit text m path tail
  · obtain ⟨m, path, tail, hc⟩ := hc
    obtain ⟨hr, hstrict⟩ := hcut m path tail hc
    by_cases hv : ∃ d₁ d₂ rest, LooseVersion tail d₁ d₂ rest
    · obtain ⟨d₁, d₂, rest, hv⟩ := hv
      have hl := hc.requestLine hv (hstrict d₁ d₂ rest hv)
      refine ⟨_, _, _, hc.accepted hv req, .inl rfl, ?_, ?_, fun hne => absurd rfl hne⟩
      · exact ⟨fun _ => ⟨m, path, d₁, d₂, rest, hl⟩, fun _ => rfl⟩
      · intro m' path' d₁' d₂' rest' hl'
        obtain ⟨rfl, rfl, rfl⟩ := hc.unique hl'.split
        obtain ⟨rfl, rfl, rfl⟩ := hv.unique (looseVersion_httpSlash hl'.major hl'.minor rest')
        rw [digit2num_digit hl'.major, digit2num_digit hl'.minor]
        exact ⟨rfl, rfl⟩
    · have hno : ∀ d₁ d₂ rest, ¬ LooseVersion tail d₁ d₂ rest :=
        fun d₁ d₂ rest h => hv ⟨d₁, d₂, rest, h⟩
      have hline : ∀ m' path' d₁ d₂ rest, ¬ RequestLine text m' path' d₁ d₂ rest := by
        intro m' path' d₁ d₂ rest hl
        obtain ⟨-, -, rfl⟩ := hc.unique hl.split
        exact hno _ _ _ (looseVersion_httpSlash hl.major hl.minor rest)
      refine ⟨-1, _, text, (hc.parse req).trans (reqVersion_none hr hno), .inr rfl, ?_, ?_,
        fun _ => rfl⟩
      · refine ⟨fun h => (by cases h), ?_⟩
        rintro ⟨m', path', d₁, d₂, rest, hl⟩
        exact absurd hl (hline m' path' d₁ d₂ rest)
      · exact fun _ _ _ _ _ hl => absurd hl (hline _ _ _ _ _)
  · have hno : ∀ m path tail, ¬ HeadSplit text m path tail :=
      fun m path tail h => hc ⟨m, path, tail, h⟩
    have hline : ∀ m path d₁ d₂ rest, ¬ RequestLine text m path d₁ d₂ rest :=
      fun m path d₁ d₂ rest hl => hno _ _ _ hl.split
    obtain ⟨req', hp⟩ := ioHttpReqParse_refused hs hno req
    refine ⟨-1, req', text, hp, .inr rfl, ?_, ?_, fun _ => rfl⟩
    · refine ⟨fun h => (by cases h), ?_⟩
      rintro ⟨m, path, d₁, d₂, rest, hl⟩
      exact absurd hl (hline m path d₁ d₂ rest)
    · exact fun _ _ _ _ _ hl => absurd hl (hline _ _ _ _ _)

/-- `io_http_req_parse` accepts the request-line grammar and nothing else
exactly on the texts that meet the condition. -/
theorem ioHttpReqParse_exact_iff (text : Text) : ReqParseExact text ↔ ReqParseCond text :=
  ⟨ReqParseCond.of_exact, ReqParseCond.exact⟩

/-- `GET / Hxxxx1.0`: one character of `HTTP/` in place is enough. -/
theorem ioHttpReqParse_loose_prefix :
    ¬ ReqParseExact
      (lit ['G', 'E', 'T', ' ', '/', ' ', 'H', 'x', 'x', 'x', 'x', '1', '.', '0']) := by
  intro h
  have hcut : HeadSplit (lit ['G', 'E', 'T', ' ', '/', ' ', 'H', 'x', 'x', 'x', 'x', '1', '.', '0'])
      .GET (lit ['/']) (lit ['H', 'x', 'x', 'x', 'x', '1', '.', '0']) :=
    ⟨by decide, ⟨0, 0, by decide⟩, by decide, by decide, by decide, by decide⟩
  have hv : LooseVersion (lit ['H', 'x', 'x', 'x', 'x', '1', '.', '0']) (ascii '1')
      (ascii '0') [] :=
    ⟨lit ['H', 'x', 'x', 'x', 'x'], by decide, by decide, by decide, by decide, by decide⟩
  obtain ⟨-, -, hslash, -⟩ := ((ReqParseCond.of_exact h).2 _ _ _ hcut).2 _ _ _ hv
  exact absurd hslash (by decide)

end Nanio.Http
