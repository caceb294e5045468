/-
Nanio.Http.RequestSafety — where parsing a request can read what it must
not.

A server looks for CR LF CR LF in what it has received, then runs
`io_http_req_parse` and, from where that stopped, `io_http_header_parse`.
The header parser has a line end ahead of it only if the request parser
has not passed the last one, and the path loop of the request parser does
not stop at line ends. §1 cuts a header line the way the parser does, §2
says what one round of its loop does with the pieces, §3 runs the loop,
§4 puts the two parsers together.
-/
import Nanio.Http.ReqParseTheorems
import Nanio.Map.IoMapTheorems

namespace Nanio.Http

open Nanio.Lib Nanio.Map

/-! ## §1 The shape of a header line -/

/-- A name, a colon, and the text from the value on. -/
structure FieldHead (p name value : Text) : Prop where
  text_eq : ∃ a b c, p = spaces a ++ (name ++ (spaces b ++ ascii ':' :: (spaces c ++ value)))
  name_ne : name ≠ []
  token : ∀ ch ∈ name, isHttpTokenChar ch = true
  value_head : value.head? ≠ some sp

theorem dropWhile_token {name rest : Text} (h : ∀ ch ∈ name, isHttpTokenChar ch = true)
    (hr : ∀ ch ∈ rest.head?, isHttpTokenChar ch = false) :
    (name ++ rest).dropWhile isHttpTokenChar = rest := by
  rw [List.dropWhile_append_of_pos h]
  cases rest with
  | nil => rfl
  | cons ch rest => exact List.dropWhile_cons_of_neg (by simpa using hr ch rfl)

theorem token_head {name : Text} (hne : name ≠ []) (h : ∀ ch ∈ name, isHttpTokenChar ch = true)
    (q : Text) : (name ++ q).head? ≠ some sp := by
  cases name with
  | nil => exact absurd rfl hne
  | cons ch name =>
    intro he
    have hsp : ch = sp := by simpa using he
    have htok := h ch List.mem_cons_self
    rw [hsp] at htok
    exact absurd htok (by decide)

/-- The tail of a round, from the pointer to the value on. -/
def valueRound (o : ArgOrder) (h : IoHmap) (name : Text) (nameLen : Nat) (value : Text) :
    Except TextFault (Round × IoHmap) :=
  match strstr crlf value with
  | none => .error .nullPointer
  | some valueEnd =>
    if valueEnd.length = value.length then pure (.stop (-3), h)
    else do
      let valueLen ← trimSpaces value (value.length - valueEnd.length)
      let (e, h) ← ioHmapAddl o h name nameLen value (valueLen % 2 ^ 32)
      if e.isSome then pure (.stop (-4), h) else pure (.line (valueEnd.drop 2), h)

/-- The places a line is cut at: after the spaces, after the name, after the
colon. -/
theorem FieldHead.cuts {p name value : Text} (hf : FieldHead p name value) :
    ∃ rest tail, ioAfterSpace p = name ++ rest ∧
      (name ++ rest).dropWhile isHttpTokenChar = rest ∧
      ioAfterSpace rest = ascii ':' :: tail ∧ ioAfterSpace tail = value := by
  obtain ⟨a, b, c, rfl⟩ := hf.text_eq
  have hstop : ∀ ch ∈ (spaces b ++ ascii ':' :: (spaces c ++ value)).head?,
      isHttpTokenChar ch = false := by
    intro ch hch
    cases b with
    | zero =>
      obtain rfl : ascii ':' = ch := by simpa [spaces] using hch
      decide
    | succ b =>
      obtain rfl : sp = ch := by simpa [spaces, List.replicate_succ] using hch
      decide
  refine ⟨spaces b ++ ascii ':' :: (spaces c ++ value), spaces c ++ value, ?_, ?_, ?_, ?_⟩
  · exact ioAfterSpace_spaces a (token_head hf.name_ne hf.token _)
  · exact dropWhile_token hf.token hstop
  · exact ioAfterSpace_spaces b (by decide : (some (ascii ':')) ≠ some sp)
  · exact ioAfterSpace_spaces c hf.value_head

/-- The name is where the spaces end. -/
theorem FieldHead.leads {p name value : Text} (hf : FieldHead p name value) :
    name <+: ioAfterSpace p := by
  obtain ⟨rest, tail, hname, -⟩ := hf.cuts
  exact hname ▸ List.prefix_append _ _

/-- On a line with a name and a colon the value decides. -/
theorem FieldHead.round {p name value : Text} (hf : FieldHead p name value) (o : ArgOrder)
    (h : IoHmap) :
    headerRound o h p = valueRound o h (ioAfterSpace p) name.length value := by
  obtain ⟨rest, tail, hname, htok, hcolon, hvalue⟩ := hf.cuts
  have hpos : 0 < name.length := List.length_pos_iff.mpr hf.name_ne
  have hlen : (name ++ rest).length = name.length + rest.length := List.length_append
  have hsub : (name ++ rest).length - rest.length = name.length := by omega
  simp only [headerRound]
  rw [hname, htok, if_neg (by omega), hcolon, deref_zero_cons, List.drop_one, List.tail_cons,
    hvalue, hsub]
  rfl

/-- Any other line ends the loop with a code. -/
theorem headerRound_stop {p : Text} (hno : ∀ name value, ¬ FieldHead p name value) (o : ArgOrder)
    (h : IoHmap) : ∃ code, headerRound o h p = .ok (.stop code, h) ∧ -4 ≤ code ∧ code < 0 := by
  obtain ⟨a, q, rfl, hq, hname⟩ := ioAfterSpace_split p
  simp only [headerRound, hname]
  by_cases hlen : (q.dropWhile isHttpTokenChar).length = q.length
  · rw [if_pos hlen]
    exact ⟨-1, rfl, by decide, by decide⟩
  · rw [if_neg hlen]
    obtain ⟨b, r, hr, hrsp, hrskip⟩ := ioAfterSpace_split (q.dropWhile isHttpTokenChar)
    rw [hrskip]
    have hc : ∃ ch, deref r 0 = .ok ch ∧ ch ≠ ascii ':' := by
      cases r with
      | nil => exact ⟨0, rfl, by decide⟩
      | cons ch r =>
        refine ⟨ch, rfl, ?_⟩
        rintro rfl
        obtain ⟨c, value, hv, hvsp, -⟩ := ioAfterSpace_split r
        refine hno (q.takeWhile isHttpTokenChar) value ⟨⟨a, b, c, ?_⟩, ?_, ?_, hvsp⟩
        · rw [← hv, ← hr, List.takeWhile_append_dropWhile]
        · intro hnil
          apply hlen
          have hsplit : q.takeWhile isHttpTokenChar ++ q.dropWhile isHttpTokenChar = q :=
            List.takeWhile_append_dropWhile
          rw [hnil, List.nil_append] at hsplit
          rw [hsplit]
        · exact fun ch hch => List.all_eq_true.mp List.all_takeWhile ch hch
    obtain ⟨ch, hch, hne⟩ := hc
    refine ⟨-2, ?_, by decide, by decide⟩
    simp only [hch, bind, Except.bind, bne_iff_ne, ne_eq, hne, not_false_eq_true, if_true]
    rfl

/-! ## §2 One round -/

theorem trimSpaces_spaces {w : Text} (hw : w ≠ []) (hlast : w.getLast? ≠ some sp) (k : Nat)
    (q : Text) : trimSpaces (w ++ (spaces k ++ q)) (w.length + k) = .ok w.length := by
  induction k generalizing q with
  | zero =>
    obtain ⟨v, c, rfl⟩ : ∃ v c, w = v ++ [c] :=
      ⟨w.dropLast, w.getLast hw, (List.dropLast_append_getLast hw).symm⟩
    have hc : c ≠ sp := by simpa using hlast
    have hd : deref ((v ++ [c]) ++ (spaces 0 ++ q)) v.length = .ok c := by
      simpa [spaces] using deref_append v (c :: q) 0
    rw [Nat.add_zero, List.length_append, List.length_singleton, trimSpaces, hd]
    simp [bind, Except.bind, pure, Except.pure, hc]
  | succ k ih =>
    have hs : spaces (k + 1) ++ q = spaces k ++ (sp :: q) := by
      rw [spaces, List.replicate_succ', List.append_assoc]
      rfl
    have hd : deref (w ++ (spaces k ++ (sp :: q))) (w.length + k) = .ok sp := by
      rw [deref_append]
      simpa [spaces] using deref_append (spaces k) (sp :: q) 0
    rw [hs, ← Nat.add_assoc, trimSpaces, hd]
    exact ih (sp :: q)

/-- A complete line: the value `w` runs up to `k` spaces and the first line
end. -/
structure HeaderField (p name w : Text) (k : Nat) (next : Text) : Prop where
  head : FieldHead p name (w ++ (spaces k ++ (crlf ++ next)))
  value_ne : w ≠ []
  value_last : w.getLast? ≠ some sp
  first_end : ¬ crlf <:+: w ++ (spaces k ++ [cr])

/-- `io_hmap_addl` as it is called for a complete line. -/
def addField (o : ArgOrder) (h : IoHmap) (p name w : Text) (k : Nat) (next : Text) :
    Except TextFault (Option Errno × IoHmap) :=
  ioHmapAddl o h (ioAfterSpace p) name.length (w ++ (spaces k ++ (crlf ++ next)))
    (w.length % 2 ^ 32)

theorem strstr_crlf_first {v next : Text} (h : ¬ crlf <:+: v ++ [cr]) :
    strstr crlf (v ++ (crlf ++ next)) = some (crlf ++ next) :=
  (strstr_eq_some_iff (by decide) _ _).mpr ⟨v, rfl, List.prefix_append _ _, h⟩

theorem FieldHead.unterminated {p name value : Text} (hf : FieldHead p name value)
    (hno : ¬ crlf <:+: value) (o : ArgOrder) (h : IoHmap) :
    headerRound o h p = .error .nullPointer := by
  rw [hf.round o h, valueRound, (strstr_eq_none_iff (by decide) value).mpr hno]

theorem FieldHead.emptyValue {p name next : Text} (hf : FieldHead p name (crlf ++ next))
    (o : ArgOrder) (h : IoHmap) : headerRound o h p = .ok (.stop (-3), h) := by
  have hstr : strstr crlf (crlf ++ next) = some (crlf ++ next) :=
    strstr_crlf_first (show ¬ crlf <:+: [] ++ [cr] by decide)
  rw [hf.round o h, valueRound, hstr]
  exact if_pos rfl

theorem HeaderField.round {p name w next : Text} {k : Nat} (hf : HeaderField p name w k next)
    (o : ArgOrder) (h : IoHmap) :
    headerRound o h p = (do
      let (e, h) ← addField o h p name w k next
      if e.isSome then pure (.stop (-4), h) else pure (.line next, h)) := by
  have hstr : strstr crlf (w ++ (spaces k ++ (crlf ++ next))) = some (crlf ++ next) := by
    have hfirst := hf.first_end
    rw [← List.append_assoc] at hfirst ⊢
    exact strstr_crlf_first hfirst
  have hpos : 0 < w.length := List.length_pos_iff.mpr hf.value_ne
  have hlen : (w ++ (spaces k ++ (crlf ++ next))).length =
      w.length + k + (crlf ++ next).length := by
    simp only [spaces, List.length_append, List.length_replicate]
    omega
  have hsub : (w ++ (spaces k ++ (crlf ++ next))).length - (crlf ++ next).length =
      w.length + k := by
    omega
  rw [hf.head.round o h, valueRound, hstr]
  simp only [if_neg (show ¬ (crlf ++ next).length = (w ++ (spaces k ++ (crlf ++ next))).length by
    omega), hsub]
  rw [trimSpaces_spaces hf.value_ne hf.value_last]
  rfl

theorem HeaderField.addField_blocked {p name w next : Text} {k : Nat}
    (hf : HeaderField p name w k next) {o : ArgOrder} {h : IoHmap} (hb : h.blocked name = true) :
    addField o h p name w k next = .error .nullPointer := by
  obtain ⟨q, hq⟩ := hf.head.leads
  have htake : (ioAfterSpace p).take name.length = name := by rw [← hq, List.take_left]
  have hle : name.length ≤ (ioAfterSpace p).length := by simp [← hq]
  exact ioHmapAddl_nullKey o hle (htake.symm ▸ hb) _ _

theorem HeaderField.addField_ok {p name w next : Text} {k : Nat}
    (hf : HeaderField p name w k next) (o : ArgOrder) {h : IoHmap} (hb : h.blocked name = false) :
    ∃ r, addField o h p name w k next = .ok r := by
  obtain ⟨q, hq⟩ := hf.head.leads
  have htake : (ioAfterSpace p).take name.length = name := by rw [← hq, List.take_left]
  have hle : name.length ≤ (ioAfterSpace p).length := by simp [← hq]
  apply ioHmapAddl_ok o hle (htake.symm ▸ hb)
  have hmod := Nat.mod_le w.length (2 ^ 32)
  simp only [List.length_append]
  omega

/-- A value that has a line end is empty or makes the line complete. -/
theorem FieldHead.complete {p name value : Text} (hf : FieldHead p name value)
    (hin : crlf <:+: value) :
    (∃ next, value = crlf ++ next) ∨ ∃ w k next, HeaderField p name w k next := by
  cases hstr : strstr crlf value with
  | none => exact absurd hin ((strstr_eq_none_iff (by decide) value).mp hstr)
  | some s =>
    obtain ⟨v, rfl, ⟨next, rfl⟩, hfirst⟩ := (strstr_eq_some_iff (by decide) value s).mp hstr
    by_cases hv : v = []
    · left
      exact ⟨next, by rw [hv]; rfl⟩
    · right
      -- the spaces before the line end are those after it in the reversed text
      obtain ⟨k, u, hrev, hu, -⟩ := ioAfterSpace_split v.reverse
      have hsplit : v = u.reverse ++ spaces k := by
        rw [← List.reverse_reverse v, hrev, List.reverse_append, spaces, List.reverse_replicate]
      have hune : u.reverse ≠ [] := by
        intro hnil
        rw [hnil, List.nil_append] at hsplit
        cases k with
        | zero => exact hv hsplit
        | succ k => exact hf.value_head (by rw [hsplit]; rfl)
      refine ⟨u.reverse, k, next, ?_, hune, ?_, ?_⟩
      · rwa [← List.append_assoc, ← hsplit]
      · rwa [List.getLast?_reverse]
      · rwa [← List.append_assoc, ← hsplit]

/-! ## §3 The loop -/

/-- From `p`, with the table as it is there, the loop gets to a value that
no line end follows, or to a name the table cannot be searched for. -/
inductive RunsOff (o : ArgOrder) : IoHmap → Text → Prop
  | unterminated {h : IoHmap} {p name value : Text} (hf : FieldHead p name value)
      (hno : ¬ crlf <:+: value) : RunsOff o h p
  | nullKey {h : IoHmap} {p name w next : Text} {k : Nat} (hf : HeaderField p name w k next)
      (hb : h.blocked name = true) : RunsOff o h p
  | line {h h' : IoHmap} {p name w next : Text} {k : Nat} (hf : HeaderField p name w k next)
      (ha : addField o h p name w k next = .ok (none, h')) (hcr : next.head? ≠ some cr)
      (hr : RunsOff o h' next) : RunsOff o h p

theorem headerLoop_round {o : ArgOrder} {header p : Text} {fuel : Nat} {h : IoHmap} :
    headerLoop o header (fuel + 1) h p = (do
      match ← headerRound o h p with
      | (.stop code, h) => pure (code, h, header)
      | (.line p, h) =>
        if (← deref p 0) != cr then headerLoop o header fuel h p
        else if (← deref p 1) != lf then pure (-5, h, header)
        else pure (0, h, p)) := rfl

/-- A line that does not start with CR is taken for the next field. -/
theorem headerLoop_line {o : ArgOrder} {header p next : Text} {fuel : Nat} {h h' : IoHmap}
    (hround : headerRound o h p = .ok (.line next, h')) (hcr : next.head? ≠ some cr) :
    headerLoop o header (fuel + 1) h p = headerLoop o header fuel h' next := by
  have hd : ∃ c, deref next 0 = .ok c ∧ c ≠ cr := by
    cases next with
    | nil => exact ⟨0, rfl, by decide⟩
    | cons c next => exact ⟨c, rfl, by simpa using hcr⟩
  obtain ⟨c, hc, hne⟩ := hd
  rw [headerLoop_round, hround]
  simp only [hc, bind, Except.bind, bne_iff_ne, ne_eq, hne, not_false_eq_true, if_true]

/-- A line that does start with CR ends the loop. -/
theorem headerLoop_last {o : ArgOrder} {header p next : Text} {fuel : Nat} {h h' : IoHmap}
    (hround : headerRound o h p = .ok (.line next, h')) (hcr : next.head? = some cr) :
    ∃ code q, headerLoop o header (fuel + 1) h p = .ok (code, h', q) ∧ (code = 0 ∨ code = -5) := by
  cases next with
  | nil => simp at hcr
  | cons c next =>
    obtain rfl : c = cr := by simpa using hcr
    have hd : ∃ c, deref (cr :: next) 1 = .ok c := by
      rw [deref_succ_cons]
      cases next with
      | nil => exact ⟨0, rfl⟩
      | cons c next => exact ⟨c, rfl⟩
    obtain ⟨c, hc⟩ := hd
    rw [headerLoop_round, hround]
    simp only [bind, Except.bind, deref_zero_cons, bne_self_eq_false, Bool.false_eq_true, if_false,
      hc]
    by_cases hlf : c = lf
    · exact ⟨0, cr :: next, by rw [hlf, bne_self_eq_false]; rfl, .inl rfl⟩
    · exact ⟨-5, header, by rw [if_pos (by simpa using hlf)]; rfl, .inr rfl⟩

theorem HeaderField.next_length {p name w next : Text} {k : Nat}
    (hf : HeaderField p name w k next) : next.length < p.length := by
  obtain ⟨a, b, c, rfl⟩ := hf.head.text_eq
  simp only [List.length_append, List.length_cons]
  omega

theorem RunsOff.fails {o : ArgOrder} {h : IoHmap} {p : Text} (hr : RunsOff o h p) (header : Text)
    (fuel : Nat) : ∃ f, headerLoop o header fuel h p = .error f := by
  induction hr generalizing fuel with
  | unterminated hf hno =>
    cases fuel with
    | zero => exact ⟨_, rfl⟩
    | succ fuel =>
      rw [headerLoop_round, hf.unterminated hno]
      exact ⟨_, rfl⟩
  | nullKey hf hb =>
    cases fuel with
    | zero => exact ⟨_, rfl⟩
    | succ fuel =>
      rw [headerLoop_round, hf.round, hf.addField_blocked hb]
      exact ⟨_, rfl⟩
  | @line h h' p name w next k hf ha hcr _ ih =>
    cases fuel with
    | zero => exact ⟨_, rfl⟩
    | succ fuel =>
      have hround := hf.round o h
      rw [ha] at hround
      rw [headerLoop_line hround hcr]
      exact ih fuel

/-- Otherwise the loop returns, in fewer rounds than there are characters. -/
theorem headerLoop_returns {o : ArgOrder} {header : Text} {fuel : Nat} {h : IoHmap} {p : Text}
    (hfuel : p.length < fuel) (hr : ¬ RunsOff o h p) :
    ∃ code h' q, headerLoop o header fuel h p = .ok (code, h', q) ∧ -5 ≤ code ∧ code ≤ 0 := by
  induction fuel generalizing h p with
  | zero => omega
  | succ fuel ih =>
    by_cases hf : ∃ name value, FieldHead p name value
    · obtain ⟨name, value, hf⟩ := hf
      have hin : crlf <:+: value := by
        by_contra hno
        exact hr (.unterminated hf hno)
      rcases hf.complete hin with ⟨next, rfl⟩ | ⟨w, k, next, hfield⟩
      · rw [headerLoop_round, hf.emptyValue]
        exact ⟨-3, h, header, rfl, by decide, by decide⟩
      · have hb : h.blocked name = false := by
          by_contra hb
          exact hr (.nullKey hfield (by simpa using hb))
        obtain ⟨⟨e, h'⟩, ha⟩ := hfield.addField_ok o hb
        have hround := hfield.round o h
        rw [ha] at hround
        cases e with
        | some e =>
          have hstop : headerRound o h p = .ok (.stop (-4), h') := hround
          rw [headerLoop_round, hstop]
          exact ⟨-4, h', header, rfl, by decide, by decide⟩
        | none =>
          by_cases hcr : next.head? = some cr
          · have hlast : ∃ code q, headerLoop o header (fuel + 1) h p = .ok (code, h', q) ∧
                (code = 0 ∨ code = -5) := headerLoop_last hround hcr
            obtain ⟨code, q, hl, hcode⟩ := hlast
            exact ⟨code, h', q, hl, by omega, by omega⟩
          · rw [headerLoop_line hround hcr]
            have hlen := hfield.next_length
            exact ih (by omega) fun h'' => hr (.line hfield ha hcr h'')
    · obtain ⟨code, hc, hlo, hhi⟩ :=
        headerRound_stop (fun name value h => hf ⟨name, value, h⟩) o h
      rw [headerLoop_round, hc]
      exact ⟨code, h, header, rfl, by omega, by omega⟩

theorem ioHttpHeaderParse_returns {o : ArgOrder} {h : IoHmap} {header : Text}
    (hr : ¬ RunsOff o h header) :
    ∃ code h' q, ioHttpHeaderParse o h header = .ok (code, h', q) ∧ -5 ≤ code ∧ code ≤ 0 :=
  headerLoop_returns (Nat.lt_succ_self _) hr

/-! ## §4 A request -/

/-- Both calls return, with 0 or an error code. -/
def ParseReturns (o : ArgOrder) (h : IoHmap) (text : Text) : Prop :=
  ∀ req, ∃ r req' p, ioHttpReqParse req text = .ok (r, req', p) ∧ (r = 0 ∨ r = -1) ∧
    (r = 0 → ∃ code h' q, ioHttpHeaderParse o h p = .ok (code, h', q) ∧ -5 ≤ code ∧ code ≤ 0)

/-- When they do: the method comparison and the version have their bytes,
and after an accepted line the header loop does not run off. -/
def ParseReturnsCond (o : ArgOrder) (h : IoHmap) (text : Text) : Prop :=
  methodTooShort text = false ∧
  ∀ m path tail, HeadSplit text m path tail → versionReadable tail = true ∧
    ∀ d₁ d₂ rest, LooseVersion tail d₁ d₂ rest → ¬ RunsOff o h (skipCrlf rest)

theorem ParseReturnsCond.of_returns {o : ArgOrder} {h : IoHmap} {text : Text}
    (hret : ParseReturns o h text) : ParseReturnsCond o h text := by
  obtain ⟨r, req', p, hp, -, hhdr⟩ := hret ⟨0, 0, [], []⟩
  obtain ⟨hmethod, hversion⟩ := bytes_of_returns hp
  refine ⟨hmethod, fun m path tail hc => ⟨hversion m path tail hc, fun d₁ d₂ rest hv hoff => ?_⟩⟩
  rw [hc.accepted hv] at hp
  have hr : r = 0 := by cases hp; rfl
  have hpe : p = skipCrlf rest := by cases hp; rfl
  obtain ⟨code, h', q, hok, -⟩ := hhdr hr
  obtain ⟨f, hf⟩ := hoff.fails (skipCrlf rest) ((skipCrlf rest).length + 1)
  rw [hpe, ioHttpHeaderParse, hf] at hok
  cases hok

theorem ParseReturnsCond.returns {o : ArgOrder} {h : IoHmap} {text : Text}
    (hcond : ParseReturnsCond o h text) : ParseReturns o h text := by
  intro req
  obtain ⟨hs, hcut⟩ := hcond
  by_cases hc : ∃ m path tail, HeadSplit text m path tail
  · obtain ⟨m, path, tail, hc⟩ := hc
    obtain ⟨hr, hoff⟩ := hcut m path tail hc
    by_cases hv : ∃ d₁ d₂ rest, LooseVersion tail d₁ d₂ rest
    · obtain ⟨d₁, d₂, rest, hv⟩ := hv
      exact ⟨_, _, _, hc.accepted hv req, .inl rfl,
        fun _ => ioHttpHeaderParse_returns (hoff d₁ d₂ rest hv)⟩
    · have hno : ∀ d₁ d₂ rest, ¬ LooseVersion tail d₁ d₂ rest :=
        fun d₁ d₂ rest h => hv ⟨d₁, d₂, rest, h⟩
      exact ⟨-1, _, _, (hc.parse req).trans (reqVersion_none hr hno), .inr rfl,
        fun h0 => by cases h0⟩
  · obtain ⟨req', hp⟩ := ioHttpReqParse_refused hs (fun m path tail h => hc ⟨m, path, tail, h⟩) req
    exact ⟨-1, req', text, hp, .inr rfl, fun h0 => by cases h0⟩

/-- Parsing a request stays inside the text, and off null pointers, exactly
under the condition; the blank line a server has seen is not part of it. -/
theorem parse_returns_iff (o : ArgOrder) (h : IoHmap) (text : Text) :
    ParseReturns o h text ↔ ParseReturnsCond o h text :=
  ⟨ParseReturnsCond.of_returns, ParseReturnsCond.returns⟩

/-- A request whose path runs over the blank line: no line end is left for
the value of the header. -/
def swallowed : Text :=
  lit ['G', 'E', 'T', ' ', '/', '\r', '\n', '\r', '\n', ' ', 'H', 'T', 'T', 'P', '/', '1', '.', '1',
    ' ', 'a', ':', 'b']

theorem parse_swallowed :
    0 ∉ swallowed ∧ crlf ++ crlf <:+: swallowed ∧
      ¬ ParseReturns .leftFirst (ioHmapCreate 48 8192) swallowed := by
  refine ⟨by decide, ⟨lit ['G', 'E', 'T', ' ', '/'], swallowed.drop 9, by decide⟩, ?_⟩
  intro hret
  have hcut : HeadSplit swallowed .GET (lit ['/', '\r', '\n', '\r', '\n']) (swallowed.drop 10) :=
    ⟨by decide, ⟨0, 0, by decide⟩, by decide, by decide, by decide, by decide⟩
  have hv : LooseVersion (swallowed.drop 10) (ascii '1') (ascii '1') (lit [' ', 'a', ':', 'b']) :=
    ⟨httpSlash, by decide, by decide, by decide, by decide, by decide⟩
  have htoken : ∀ ch ∈ lit ['a'], isHttpTokenChar ch = true := by
    intro ch hch
    obtain rfl := List.mem_singleton.mp hch
    decide
  have hhead : FieldHead (skipCrlf (lit [' ', 'a', ':', 'b'])) (lit ['a']) (lit ['b']) :=
    ⟨⟨1, 0, 0, by decide⟩, by decide, htoken, by decide⟩
  exact ((ParseReturnsCond.of_returns hret).2 _ _ _ hcut).2 _ _ _ hv
    (.unterminated hhead (by decide))

end Nanio.Http
