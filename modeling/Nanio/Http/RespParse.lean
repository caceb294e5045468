/-
Nanio.Http.RespParse — the status line: `io_http_resp_parse`.

The line is `HTTP/d.d`, spaces, three digits, a space and a reason up to
the first line end. The code takes more: the version and the digits are
those of the request parser, so one character of `HTTP/` is enough and `@`
is a 9, and there need be no space before the status. It also takes less
care: status and version are stored before the search for the line end, so
a line without one leaves them changed. The texts on which it does what the
grammar says are exactly those of `RespParseCond` (`ioHttpRespParse_exact_iff`).
-/
import Nanio.Http.ReqParseTheorems

namespace Nanio.Http

open Nanio.Lib

/-! ## §1 The parser -/

/-- `io_http_resp_t`. -/
structure IoHttpResp where
  status : Int
  version : Int
  deriving DecidableEq, Repr

/-- The loop of `io_http_match_status_code` with `c` digits to go: the
number and the pointer past it, or nothing at a character that is no digit. -/
def statusDigits : Nat → Int → Text → Except TextFault (Option (Int × Text))
  | 0, code, p => .ok (some (code, p))
  | c + 1, code, p => do
    let dig := digit2num (← deref p 0)
    if 10 ≤ dig then pure none else statusDigits c (dig + 10 * code) (p.drop 1)

/-- `io_http_match_status_code`: the status or -1, and the pointer. It is
left on the space behind the digits. -/
def ioHttpMatchStatusCode (text : Text) : Except TextFault (Int × Text) := do
  match ← statusDigits 3 0 text with
  | none => pure (-1, text)
  | some (code, p) => if (← deref p 0) == sp then pure (code, p) else pure (-1, text)

/-- `io_http_resp_parse`: the status or -1, the response and `*text`
afterwards. -/
def ioHttpRespParse (resp : IoHttpResp) (text : Text) :
    Except TextFault (Int × IoHttpResp × Text) := do
  let (version, p) ← ioHttpMatchVersion text
  if version < 0 then pure (-1, resp, text)
  else do
    let (status, p) ← ioHttpMatchStatusCode (ioAfterSpace p)
    if status < 0 then pure (-1, resp, text)
    else
      match strstr crlf p with
      | some lineEnd => pure (status, { status, version }, lineEnd.drop 2)
      | none => pure (-1, { status, version }, text)

/-! ## §2 The status code -/

/-- Three characters that `digit2num` takes for digits. -/
def LooseDigits (s₁ s₂ s₃ : UInt8) : Prop :=
  digit2num s₁ < 10 ∧ digit2num s₂ < 10 ∧ digit2num s₃ < 10

instance (s₁ s₂ s₃ : UInt8) : Decidable (LooseDigits s₁ s₂ s₃) :=
  inferInstanceAs (Decidable (_ ∧ _))

/-- The number the loop makes of them. -/
def looseStatus (s₁ s₂ s₃ : UInt8) : Int :=
  digit2num s₁ * 100 + digit2num s₂ * 10 + digit2num s₃

theorem statusDigits_nil (c : Nat) (code : Int) : statusDigits (c + 1) code [] = .ok none := rfl

theorem statusDigits_cons (c : Nat) (code : Int) (d : UInt8) (p : Text) :
    statusDigits (c + 1) code (d :: p) =
      if digit2num d < 10 then statusDigits c (digit2num d + 10 * code) p else .ok none := by
  rw [statusDigits, deref_zero_cons]
  by_cases hd : digit2num d < 10
  · have hd' : ¬ 10 ≤ digit2num d := by omega
    simp [bind, Except.bind, hd, hd']
  · have hd' : 10 ≤ digit2num d := by omega
    simp [bind, Except.bind, pure, Except.pure, hd, hd']

theorem statusDigits_zero (code : Int) (p : Text) : statusDigits 0 code p = .ok (some (code, p)) :=
  rfl

/-- The loop takes three digits or nothing. -/
theorem statusDigits_three (q : Text) :
    statusDigits 3 0 q = .ok (
      match q with
      | s₁ :: s₂ :: s₃ :: r =>
        if LooseDigits s₁ s₂ s₃ then some (looseStatus s₁ s₂ s₃, r) else none
      | _ => none) := by
  match q with
  | [] => rfl
  | [s₁] => simp [statusDigits_cons, statusDigits_nil]
  | [s₁, s₂] => simp [statusDigits_cons, statusDigits_nil]
  | s₁ :: s₂ :: s₃ :: r =>
    simp only [statusDigits_cons, statusDigits_zero]
    by_cases hd : LooseDigits s₁ s₂ s₃
    · obtain ⟨h₁, h₂, h₃⟩ := hd
      have hstatus : digit2num s₃ + 10 * (digit2num s₂ + 10 * (digit2num s₁ + 10 * 0)) =
          looseStatus s₁ s₂ s₃ := by
        unfold looseStatus
        omega
      simp only [h₁, h₂, h₃, if_true, LooseDigits, and_self, hstatus]
    · rw [if_neg hd]
      simp only [LooseDigits, not_and_or] at hd
      rcases hd with h | h | h <;> simp [h]

theorem ioHttpMatchStatusCode_digits {s₁ s₂ s₃ : UInt8} (h : LooseDigits s₁ s₂ s₃) (tail : Text) :
    ioHttpMatchStatusCode (s₁ :: s₂ :: s₃ :: sp :: tail) =
      .ok (looseStatus s₁ s₂ s₃, sp :: tail) := by
  simp [ioHttpMatchStatusCode, statusDigits_three, h, bind, Except.bind, pure, Except.pure]

/-- Any other text is left where it is. -/
theorem ioHttpMatchStatusCode_none {q : Text}
    (h : ∀ s₁ s₂ s₃ tail, q = s₁ :: s₂ :: s₃ :: sp :: tail → ¬ LooseDigits s₁ s₂ s₃) :
    ioHttpMatchStatusCode q = .ok (-1, q) := by
  rw [ioHttpMatchStatusCode, statusDigits_three]
  match q with
  | [] | [_] | [_, _] => rfl
  | [s₁, s₂, s₃] =>
    have hnul : (0 : UInt8) ≠ sp := by decide
    by_cases hd : LooseDigits s₁ s₂ s₃ <;> simp [hd, hnul, bind, Except.bind, pure, Except.pure]
  | s₁ :: s₂ :: s₃ :: c :: tail =>
    by_cases hd : LooseDigits s₁ s₂ s₃
    · -- the digits are there, so it is the space that is missing
      have hc : c ≠ sp := by
        rintro rfl
        exact h s₁ s₂ s₃ tail rfl hd
      simp [hd, hc, bind, Except.bind, pure, Except.pure]
    · simp [hd, bind, Except.bind, pure, Except.pure]

/-! ## §3 What the parser does -/

/-- A status line as the code takes it: a loose version, `n` spaces, three
loose digits and a space. -/
structure LooseLine (text : Text) (d₁ d₂ : UInt8) (n : Nat) (s₁ s₂ s₃ : UInt8) (tail : Text) :
    Prop where
  version : LooseVersion text d₁ d₂ (spaces n ++ s₁ :: s₂ :: s₃ :: sp :: tail)
  digits : LooseDigits s₁ s₂ s₃

theorem LooseDigits.head_ne {s₁ s₂ s₃ : UInt8} (h : LooseDigits s₁ s₂ s₃) (tail : Text) :
    (s₁ :: s₂ :: s₃ :: sp :: tail).head? ≠ some sp := by
  have hsp : ¬ digit2num sp < 10 := by decide
  rintro hs
  simp only [List.head?_cons, Option.some.injEq] at hs
  exact hsp (hs ▸ h.1)

theorem LooseLine.unique {text tail tail' : Text} {d₁ d₂ s₁ s₂ s₃ d₁' d₂' s₁' s₂' s₃' : UInt8}
    {n n' : Nat} (h : LooseLine text d₁ d₂ n s₁ s₂ s₃ tail)
    (h' : LooseLine text d₁' d₂' n' s₁' s₂' s₃' tail') :
    (d₁ = d₁' ∧ d₂ = d₂') ∧ n = n' ∧ (s₁ = s₁' ∧ s₂ = s₂' ∧ s₃ = s₃') ∧ tail = tail' := by
  obtain ⟨h₁, h₂, he⟩ := h.version.unique h'.version
  have hq := spaces_append_inj (h.digits.head_ne tail) (h'.digits.head_ne tail') he
  have hn : n = n' := by
    rw [hq] at he
    simpa [spaces] using congrArg List.length he
  simp only [List.cons.injEq, true_and] at hq
  obtain ⟨e₁, e₂, e₃, e₄⟩ := hq
  exact ⟨⟨h₁, h₂⟩, hn, ⟨e₁, e₂, e₃⟩, e₄⟩

/-- The response the parser stores for a loose line. -/
def looseResp (d₁ d₂ s₁ s₂ s₃ : UInt8) : IoHttpResp where
  status := looseStatus s₁ s₂ s₃
  version := digit2num d₁ * 0x100 + digit2num d₂

theorem ioHttpRespParse_loose {text tail : Text} {d₁ d₂ s₁ s₂ s₃ : UInt8} {n : Nat}
    (h : LooseLine text d₁ d₂ n s₁ s₂ s₃ tail) (resp : IoHttpResp) :
    ioHttpRespParse resp text = .ok (
      match strstr crlf tail with
      | some lineEnd => (looseStatus s₁ s₂ s₃, looseResp d₁ d₂ s₁ s₂ s₃, lineEnd.drop 2)
      | none => (-1, looseResp d₁ d₂ s₁ s₂ s₃, text)) := by
  have hversion : ¬ digit2num d₁ * 0x100 + digit2num d₂ < 0 := by
    have h₁ := digit2num_nonneg d₁
    have h₂ := digit2num_nonneg d₂
    omega
  have hstatus : ¬ looseStatus s₁ s₂ s₃ < 0 := by
    have h₁ := digit2num_nonneg s₁
    have h₂ := digit2num_nonneg s₂
    have h₃ := digit2num_nonneg s₃
    unfold looseStatus
    omega
  have hstr : strstr crlf (sp :: tail) = strstr crlf tail := by
    have hfirst : ¬ crlf.isPrefixOf (sp :: tail) = true := by
      simp [crlf, cr, sp, ascii]
    rw [strstr, if_neg hfirst]
  rw [ioHttpRespParse, ioHttpMatchVersion_loose h.version]
  simp only [bind, Except.bind, if_neg hversion, ioAfterSpace_spaces n (h.digits.head_ne tail),
    ioHttpMatchStatusCode_digits h.digits, if_neg hstatus, hstr]
  cases strstr crlf tail <;> rfl

/-- Without a loose line nothing is stored. -/
theorem ioHttpRespParse_none {text : Text} (hr : versionReadable text = true)
    (h : ∀ d₁ d₂ n s₁ s₂ s₃ tail, ¬ LooseLine text d₁ d₂ n s₁ s₂ s₃ tail) (resp : IoHttpResp) :
    ioHttpRespParse resp text = .ok (-1, resp, text) := by
  by_cases hv : ∃ d₁ d₂ rest, LooseVersion text d₁ d₂ rest
  · obtain ⟨d₁, d₂, rest, hv⟩ := hv
    obtain ⟨n, q, rfl, hq, hskip⟩ := ioAfterSpace_split rest
    have hstatus : ioHttpMatchStatusCode q = .ok (-1, q) := by
      refine ioHttpMatchStatusCode_none fun s₁ s₂ s₃ tail he hd => ?_
      subst he
      exact h d₁ d₂ n s₁ s₂ s₃ tail ⟨hv, hd⟩
    rw [ioHttpRespParse, ioHttpMatchVersion_loose hv]
    simp only [bind, Except.bind, hskip, hstatus]
    split <;> rfl
  · rw [ioHttpRespParse, ioHttpMatchVersion_none hr fun d₁ d₂ rest hl => hv ⟨d₁, d₂, rest, hl⟩]
    rfl

theorem ioHttpRespParse_unreadable {text : Text} (hr : versionReadable text = false)
    (resp : IoHttpResp) : ioHttpRespParse resp text = .error .outOfText := by
  rw [ioHttpRespParse, ioHttpMatchVersion_unreadable hr]
  rfl

/-! ## §4 The status-line grammar -/

/-- The line the parser is meant to accept, and the text after it. The
reason ends at the first line end. -/
structure StatusLine (text : Text) (d₁ d₂ s₁ s₂ s₃ : UInt8) (rest : Text) : Prop where
  text_eq : ∃ n reason, text = httpSlash ++ d₁ :: ascii '.' :: d₂ ::
      (spaces (n + 1) ++ s₁ :: s₂ :: s₃ :: sp :: (reason ++ crlf ++ rest)) ∧
    ¬ crlf <:+: reason ++ [cr]
  version : isDigit d₁ = true ∧ isDigit d₂ = true
  status : isDigit s₁ = true ∧ isDigit s₂ = true ∧ isDigit s₃ = true

/-- The response the line denotes. -/
def writtenResp (d₁ d₂ s₁ s₂ s₃ : UInt8) : IoHttpResp where
  status := digitValue s₁ * 100 + digitValue s₂ * 10 + digitValue s₃
  version := digitValue d₁ * 0x100 + digitValue d₂

/-- The parser does its job on this text, whatever is in `resp` before. -/
def RespParseExact (text : Text) : Prop :=
  ∀ resp, ∃ r resp' text', ioHttpRespParse resp text = .ok (r, resp', text') ∧
    (∀ d₁ d₂ s₁ s₂ s₃ rest, StatusLine text d₁ d₂ s₁ s₂ s₃ rest →
      r = (writtenResp d₁ d₂ s₁ s₂ s₃).status ∧ resp' = writtenResp d₁ d₂ s₁ s₂ s₃ ∧ text' = rest) ∧
    ((∀ d₁ d₂ s₁ s₂ s₃ rest, ¬ StatusLine text d₁ d₂ s₁ s₂ s₃ rest) →
      r = -1 ∧ resp' = resp ∧ text' = text)

/-- When it does: the version has its bytes, and a line that the code takes
is spelled out, with a space before the status and a line end. -/
def RespParseCond (text : Text) : Prop :=
  versionReadable text = true ∧
  ∀ d₁ d₂ n s₁ s₂ s₃ tail, LooseLine text d₁ d₂ n s₁ s₂ s₃ tail →
    httpSlash <+: text ∧ (isDigit d₁ = true ∧ isDigit d₂ = true) ∧ 0 < n ∧
    (isDigit s₁ = true ∧ isDigit s₂ = true ∧ isDigit s₃ = true) ∧ crlf <:+: tail

theorem StatusLine.loose {text rest : Text} {d₁ d₂ s₁ s₂ s₃ : UInt8}
    (h : StatusLine text d₁ d₂ s₁ s₂ s₃ rest) :
    ∃ n tail, LooseLine text d₁ d₂ (n + 1) s₁ s₂ s₃ tail ∧
      strstr crlf tail = some (crlf ++ rest) := by
  obtain ⟨n, reason, rfl, hfirst⟩ := h.text_eq
  have loose {s : UInt8} (hs : isDigit s = true) : digit2num s < 10 :=
    (digit2num_lt_iff s).mpr (.inl hs)
  obtain ⟨h₁, h₂, h₃⟩ := h.status
  refine ⟨n, reason ++ crlf ++ rest, ⟨looseVersion_httpSlash h.version.1 h.version.2 _,
    loose h₁, loose h₂, loose h₃⟩, ?_⟩
  rw [strstr_eq_some_iff (by decide)]
  exact ⟨reason, by simp, List.prefix_append _ _, hfirst⟩

/-- A line the code takes, if it is spelled out. -/
theorem LooseLine.statusLine {text tail : Text} {d₁ d₂ s₁ s₂ s₃ : UInt8} {n : Nat}
    (h : LooseLine text d₁ d₂ n s₁ s₂ s₃ tail) (hslash : httpSlash <+: text)
    (hversion : isDigit d₁ = true ∧ isDigit d₂ = true) (hn : 0 < n)
    (hstatus : isDigit s₁ = true ∧ isDigit s₂ = true ∧ isDigit s₃ = true) (hcrlf : crlf <:+: tail) :
    ∃ rest, StatusLine text d₁ d₂ s₁ s₂ s₃ rest ∧ strstr crlf tail = some (crlf ++ rest) := by
  obtain ⟨lineEnd, hend⟩ : ∃ lineEnd, strstr crlf tail = some lineEnd := by
    rw [← Option.isSome_iff_exists, ← Option.ne_none_iff_isSome, Ne,
      strstr_eq_none_iff (by decide), not_not]
    exact hcrlf
  obtain ⟨reason, rfl, ⟨rest, rfl⟩, hfirst⟩ := (strstr_eq_some_iff (by decide) _ _).mp hend
  obtain ⟨v, htext, hlen, -⟩ := h.version
  obtain ⟨q, hq⟩ := hslash
  obtain ⟨rfl, -⟩ := List.append_inj (htext.symm.trans hq.symm) hlen
  refine ⟨rest, ⟨⟨n - 1, reason, ?_, hfirst⟩, hversion, hstatus⟩, hend⟩
  rw [Nat.sub_add_cancel hn, htext, List.append_assoc]

theorem looseResp_digits {d₁ d₂ s₁ s₂ s₃ : UInt8} (hv : isDigit d₁ = true ∧ isDigit d₂ = true)
    (hs : isDigit s₁ = true ∧ isDigit s₂ = true ∧ isDigit s₃ = true) :
    looseResp d₁ d₂ s₁ s₂ s₃ = writtenResp d₁ d₂ s₁ s₂ s₃ := by
  simp only [looseResp, writtenResp, looseStatus, digit2num_digit, hv, hs]

theorem RespParseCond.exact {text : Text} (h : RespParseCond text) : RespParseExact text := by
  intro resp
  obtain ⟨hr, hstrict⟩ := h
  by_cases hl : ∃ d₁ d₂ n s₁ s₂ s₃ tail, LooseLine text d₁ d₂ n s₁ s₂ s₃ tail
  · obtain ⟨d₁, d₂, n, s₁, s₂, s₃, tail, hl⟩ := hl
    obtain ⟨hslash, hversion, hn, hstatus, hcrlf⟩ := hstrict _ _ _ _ _ _ _ hl
    obtain ⟨rest, hline, hend⟩ := hl.statusLine hslash hversion hn hstatus hcrlf
    have hparse := ioHttpRespParse_loose hl resp
    rw [hend, looseResp_digits hversion hstatus] at hparse
    refine ⟨_, _, _, hparse, ?_, fun hno => absurd hline (hno _ _ _ _ _ _)⟩
    intro d₁' d₂' s₁' s₂' s₃' rest' hline'
    obtain ⟨n', tail', hl', hend'⟩ := hline'.loose
    obtain ⟨⟨rfl, rfl⟩, -, ⟨rfl, rfl, rfl⟩, rfl⟩ := hl.unique hl'
    rw [hend, Option.some.injEq, List.append_cancel_left_eq] at hend'
    refine ⟨congrArg IoHttpResp.status (looseResp_digits hversion hstatus), rfl, ?_⟩
    rw [← hend']
    rfl
  · have hno : ∀ d₁ d₂ n s₁ s₂ s₃ tail, ¬ LooseLine text d₁ d₂ n s₁ s₂ s₃ tail :=
      fun d₁ d₂ n s₁ s₂ s₃ tail h => hl ⟨d₁, d₂, n, s₁, s₂, s₃, tail, h⟩
    refine ⟨-1, resp, text, ioHttpRespParse_none hr hno resp, ?_, fun _ => ⟨rfl, rfl, rfl⟩⟩
    intro d₁ d₂ s₁ s₂ s₃ rest hline
    obtain ⟨n, tail, hl, -⟩ := hline.loose
    exact absurd hl (hno _ _ _ _ _ _ _)

theorem RespParseCond.of_exact {text : Text} (h : RespParseExact text) : RespParseCond text := by
  constructor
  · by_contra hr
    obtain ⟨r, resp', text', hp, -⟩ := h ⟨0, 0⟩
    rw [ioHttpRespParse_unreadable (by simpa using hr)] at hp
    cases hp
  · intro d₁ d₂ n s₁ s₂ s₃ tail hl
    -- a response that is not the one the code would store
    obtain ⟨r, resp', text', hp, -, hrefused⟩ := h ⟨looseStatus s₁ s₂ s₃ + 1, 0⟩
    rw [ioHttpRespParse_loose hl, Except.ok.injEq] at hp
    have hline : ∃ d₁ d₂ s₁ s₂ s₃ rest, StatusLine text d₁ d₂ s₁ s₂ s₃ rest := by
      by_contra hno
      obtain ⟨-, hresp, -⟩ := hrefused fun d₁ d₂ s₁ s₂ s₃ rest hs =>
        hno ⟨d₁, d₂, s₁, s₂, s₃, rest, hs⟩
      cases hstr : strstr crlf tail <;> rw [hstr] at hp <;> cases hp <;>
        simp [looseResp] at hresp
    obtain ⟨d₁', d₂', s₁', s₂', s₃', rest, hline⟩ := hline
    obtain ⟨n', tail', hl', hend⟩ := hline.loose
    obtain ⟨⟨rfl, rfl⟩, rfl, ⟨rfl, rfl, rfl⟩, rfl⟩ := hl.unique hl'
    obtain ⟨m, reason, rfl, -⟩ := hline.text_eq
    obtain ⟨v, htail, -⟩ := (strstr_eq_some_iff (by decide) _ _).mp hend
    refine ⟨by simp, hline.version, Nat.succ_pos n', hline.status, ?_⟩
    exact ⟨v, rest, by rw [htail, List.append_assoc]⟩

/-- `io_http_resp_parse` accepts the status-line grammar and nothing else,
and stores nothing when it fails, exactly on the texts that meet the
condition. -/
theorem ioHttpRespParse_exact_iff (text : Text) : RespParseExact text ↔ RespParseCond text :=
  ⟨RespParseCond.of_exact, RespParseCond.exact⟩

/-- `Hxxxx1.0 200 ` and a line end: the prefix is wrong, and the code
returns the status 200 and version 1.0. -/
theorem ioHttpRespParse_loose_prefix :
    ioHttpRespParse ⟨0, 0⟩
        (lit ['H', 'x', 'x', 'x', 'x', '1', '.', '0', ' ', '2', '0', '0', ' ', '\r', '\n']) =
      .ok (200, ⟨200, 0x100⟩, []) ∧
    ¬ RespParseExact
        (lit ['H', 'x', 'x', 'x', 'x', '1', '.', '0', ' ', '2', '0', '0', ' ', '\r', '\n']) := by
  refine ⟨by decide, fun h => ?_⟩
  have hv : LooseLine
      (lit ['H', 'x', 'x', 'x', 'x', '1', '.', '0', ' ', '2', '0', '0', ' ', '\r', '\n'])
      (ascii '1') (ascii '0') 1 (ascii '2') (ascii '0') (ascii '0') crlf :=
    ⟨⟨lit ['H', 'x', 'x', 'x', 'x'], by decide, by decide, by decide, by decide, by decide⟩,
      by decide⟩
  obtain ⟨hslash, -⟩ := (RespParseCond.of_exact h).2 _ _ _ _ _ _ _ hv
  exact absurd hslash (by decide)

end Nanio.Http
