/-
Nanio.Http.Session — the requests of a connection, one after the other.

A client writes a request, in pieces of any size whose last has the empty
line, and goes on with the next. `multi_server_http` answers each of them by
itself: nothing of a request is left for the next but the connection. It
keeps the connection only for a `Connection` field that is not
"keep-alive", and closes it behind any other request; the proxy always
does. What comes behind that is not looked at (`sessions_answered`). A
request without any field is refused.
-/
import Nanio.Http.Response

namespace Nanio.Http

open Nanio.Lib Nanio.Map

/-! ## §1 Requests -/

/-- A request as a client writes it. -/
structure Request where
  method : HttpReqMethod
  path : Text
  major : Fin 10
  minor : Fin 10
  fields : List Field

def Request.line (r : Request) : Text :=
  r.method.word ++ spaces 1 ++ r.path ++ spaces 1 ++
    (httpSlash ++ [Sock.digit r.major, ascii '.', Sock.digit r.minor])

def Request.text (r : Request) : Text := r.line ++ (crlf ++ headerText r.fields)

structure Request.Valid (r : Request) : Prop where
  method : r.method ≠ .ERROR
  path_ne : r.path ≠ []
  path_chars : sp ∉ r.path ∧ cr ∉ r.path ∧ lf ∉ r.path ∧ 0 ∉ r.path
  path_fits : r.path.length < pathSize
  fields : Fits (ioHmapCreate 48 8192) [] r.fields
  values : ∀ f ∈ r.fields, trimmed f.value ≠ []
  room : r.text.length ≤ reqHdrSize - 1

def Request.version (r : Request) : Int := r.major.val * 0x100 + r.minor.val

theorem digit_fin (d : Fin 10) :
    isDigit (Sock.digit d) = true ∧ digit2num (Sock.digit d) = d.val ∧ Sock.digit d ≠ cr ∧
      Sock.digit d ≠ 0 := by
  revert d
  decide +kernel

theorem Request.Valid.requestLine {r : Request} (h : r.Valid) :
    RequestLine r.text r.method r.path (Sock.digit r.major) (Sock.digit r.minor)
      (crlf ++ headerText r.fields) where
  method := h.method
  text_eq := ⟨0, 0, by simp [Request.text, Request.line]⟩
  path_ne := h.path_ne
  path_chars := ⟨h.path_chars.1, h.path_chars.2.1, h.path_chars.2.2.1⟩
  fits := h.path_fits
  major := (digit_fin r.major).1
  minor := (digit_fin r.minor).1

/-- The parser is at the first field then, whatever it had in `req`. -/
theorem Request.Valid.reqParse {r : Request} (h : r.Valid) (req : IoHttpReq) :
    ioHttpReqParse req r.text =
      .ok (0, ⟨r.method.code, r.version, r.path, req.pathArray.drop (r.path.length + 1)⟩,
        headerText r.fields) := by
  have hline := h.requestLine
  have hversion := looseVersion_httpSlash hline.major hline.minor (crlf ++ headerText r.fields)
  have hskip : skipCrlf (crlf ++ headerText r.fields) = headerText r.fields := rfl
  rw [hline.split.accepted hversion req, (digit_fin r.major).2.1, (digit_fin r.minor).2.1, hskip]
  rfl

/-! ## §2 The empty line -/

/-- A line without CR has no part in an empty line, but for its end. -/
theorem crlfcrlf_line {l rest : Text} (hcr : cr ∉ l) (h : crlfcrlf <:+: l ++ (crlf ++ rest)) :
    crlf <+: rest ∨ crlfcrlf <:+: rest := by
  induction l with
  | nil =>
    have htext : crlf ++ rest = cr :: lf :: rest := rfl
    rw [List.nil_append, htext] at h
    rcases List.infix_cons_iff.mp h with hpre | h
    · exact .inl ((List.prefix_append_right_inj crlf).mp (hpre : crlf ++ crlf <+: crlf ++ rest))
    · rcases List.infix_cons_iff.mp h with hpre | h
      · exact absurd (List.cons_prefix_cons.mp (hpre : cr :: _ <+: lf :: rest)).1 (by decide)
      · exact .inr h
  | cons c l ih =>
    rw [List.mem_cons, not_or] at hcr
    rcases List.infix_cons_iff.mp h with hpre | h
    · exact absurd (List.cons_prefix_cons.mp (hpre : cr :: _ <+: c :: _)).1 hcr.1
    · exact ih hcr.2 h

/-- The name and the value of a field, in one line. -/
def Field.text (f : Field) : Text := f.name ++ ascii ':' :: (spaces f.pad ++ f.value)

theorem headerText_cons (f : Field) (fields : List Field) :
    headerText (f :: fields) = f.text ++ (crlf ++ headerText fields) := by
  simp [headerText, Field.text]

theorem Field.Valid.no_cr_text {f : Field} (h : f.Valid) : cr ∉ f.text := by
  have hname : cr ∉ f.name := fun hm => absurd (h.token cr hm) (by decide)
  have hpad : cr ∉ spaces f.pad := fun hm => absurd (List.eq_of_mem_replicate hm) (by decide)
  have hcolon : cr ≠ ascii ':' := by decide
  simp [Field.text, hname, hpad, hcolon, h.no_cr]

theorem headerText_ne_nil (fields : List Field) : headerText fields ≠ [] := by
  cases fields <;> simp [headerText, crlf]

/-- Before the last character of the fields there is no empty line, and they
do not start with one. -/
theorem headerText_open {fields : List Field} (h : ∀ f ∈ fields, f.Valid) :
    ¬ crlf <+: (headerText fields).dropLast ∧ ¬ crlfcrlf <:+: (headerText fields).dropLast := by
  induction fields with
  | nil => decide
  | cons f fields ih =>
    obtain ⟨hf, hrest⟩ := List.forall_mem_cons.mp h
    obtain ⟨hstart, hlater⟩ := ih hrest
    have hdrop : (headerText (f :: fields)).dropLast =
        f.text ++ (crlf ++ (headerText fields).dropLast) := by
      rw [headerText_cons, ← List.append_assoc, ← List.append_assoc,
        List.dropLast_append_of_ne_nil (headerText_ne_nil fields)]
    refine ⟨fun hpre => ?_, fun hin => ?_⟩
    · have hhead := headerText_head hf fields
      obtain ⟨rest, hrest⟩ := hpre.trans (List.dropLast_prefix _)
      rw [← hrest] at hhead
      exact hhead rfl
    · rw [hdrop] at hin
      exact (crlfcrlf_line hf.no_cr_text hin).elim hstart hlater

theorem headerText_ends (fields : List Field) : crlfcrlf <:+ crlf ++ headerText fields := by
  induction fields with
  | nil => exact List.suffix_refl crlfcrlf
  | cons f fields ih =>
    rw [headerText_cons, ← List.append_assoc]
    exact ih.trans (List.suffix_append _ _)

theorem Request.Valid.no_cr_line {r : Request} (h : r.Valid) : cr ∉ r.line ∧ 0 ∉ r.line := by
  have hword : cr ∉ r.method.word ∧ 0 ∉ r.method.word := by cases r.method <;> decide
  have hspace : cr ∉ spaces 1 ∧ 0 ∉ spaces 1 := by decide
  have hslash : cr ∉ httpSlash ∧ 0 ∉ httpSlash := by decide
  have hdot : cr ≠ ascii '.' ∧ 0 ≠ ascii '.' := by decide
  obtain ⟨-, -, hmajor, hmajor0⟩ := digit_fin r.major
  obtain ⟨-, -, hminor, hminor0⟩ := digit_fin r.minor
  constructor
  · simp [Request.line, hword.1, hspace.1, h.path_chars.2.1, hslash.1, hdot.1, hmajor.symm,
      hminor.symm]
  · simp [Request.line, hword.2, hspace.2, h.path_chars.2.2.2, hslash.2, hdot.2, hmajor0.symm,
      hminor0.symm]

/-- The one empty line of a request is at its end. -/
theorem Request.Valid.head {r : Request} (h : r.Valid) : Head r.text := by
  obtain ⟨hcr, hline⟩ := h.no_cr_line
  obtain ⟨hstart, hlater⟩ := headerText_open h.fields.valid
  have hcrlf : 0 ∉ crlf := by decide
  have hdrop : r.text.dropLast = r.line ++ (crlf ++ (headerText r.fields).dropLast) := by
    rw [Request.text, ← List.append_assoc, ← List.append_assoc,
      List.dropLast_append_of_ne_nil (headerText_ne_nil r.fields)]
  refine ⟨?_, ⟨(headerText_ends r.fields).trans (List.suffix_append _ _), fun hin => ?_⟩, h.room⟩
  · simp [Request.text, hline, hcrlf, zero_notMem_headerText h.fields.valid]
  · rw [hdrop] at hin
    exact (crlfcrlf_line hcr hin).elim hstart hlater

/-! ## §3 One request -/

/-- The value of the field `Connection`, if there is one. -/
def Request.connection (r : Request) : Option Text :=
  fieldValue (r.fields.map fun f => (f.name, trimmed f.value)) Http.connection

/-- The connection is kept. -/
def Request.kept (r : Request) : Bool := r.connection.any fun v => v ≠ keepAlive

def Request.answer (r : Request) : Response :=
  if r.fields = [] then ⟨r.version, HTTP_BAD_REQUEST, none⟩
  else if r.path = favicon then ⟨r.version, HTTP_PAGE_NOT_FOUND, none⟩
  else ⟨r.version, HTTP_DATA_FOLLOWS, some helloText⟩

def Request.proxyAnswer (r : Request) : Response :=
  ⟨r.version, if r.fields = [] then HTTP_BAD_REQUEST else HTTP_NO_CONTENT, none⟩

/-- What the header parser makes of the fields. -/
theorem Request.Valid.headerParse {r : Request} (h : r.Valid) (o : ArgOrder) :
    ∃ n h' q, ioHttpHeaderParse o (ioHmapCreate 48 8192) (headerText r.fields) = .ok (n, h', q) ∧
      (n < 0 ↔ r.fields = []) ∧
      ∃ connType, ioHmapGetc h' Http.connection = .ok connType ∧
        connType.map h'.heap.text = r.connection := by
  by_cases hnil : r.fields = []
  · refine ⟨-1, ioHmapCreate 48 8192, crlf, ?_, by simp [hnil], none, rfl, ?_⟩
    · rw [hnil]
      rfl
    · rw [Request.connection, hnil]
      rfl
  · obtain ⟨h', haccepts, hholds⟩ := h.fields.accepts hnil h.values o
    obtain ⟨connType, hget, htext⟩ := hholds.getc Http.connection
    exact ⟨0, h', crlf, ioHttpHeaderParse_zero_iff.mpr haccepts, by simp [hnil], connType,
      hget, htext⟩

/-- A kept connection waits for the next request, another is to be closed. -/
def After {S : Type} (waiting closing : S) (kept : Bool) (c : HttpCon S) : Prop :=
  bif kept then Waiting waiting c else c.state = closing

/-- A handler answers a request by itself. -/
structure Serves {S : Type} (waiting closing : S)
    (serve : HttpCon S → Text → Text → Except TextFault (Int × HttpCon S))
    (answer : Request → Response) (kept : Request → Bool) : Prop where
  ne : closing ≠ waiting
  step : ∀ c r, Waiting waiting c → r.Valid →
    ∃ c', serve (c.holding r.text) crlfcrlf r.text = .ok (0, c') ∧
      c'.written = c.written ++ [answer r] ∧ After waiting closing (kept r) c'

theorem holding_written {S : Type} (c : HttpCon S) (sent : Text) :
    (c.holding sent).written = c.written := by
  unfold HttpCon.holding
  split <;> rfl

/-- The connection when the request is parsed, from what it was before. -/
structure Parsed (r : Request) (c c₁ : HttpCon HttpState) : Prop where
  size : c₁.reqHdr.length = reqHdrSize
  written : c₁.written = c.written
  version : c₁.req.version = r.version
  params : ∃ h' connType, c₁.params = some h' ∧ ioHmapGetc h' Http.connection = .ok connType ∧
    connType.map h'.heap.text = r.connection

/-- Behind an answer the connection waits again, or is to be closed. -/
def Continues (r : Request) (answer : Response) (c c' : HttpCon HttpState) : Prop :=
  c'.written = c.written ++ [answer] ∧ After .ST_RECV_HEADER .ST_CLOSE r.kept c'

theorem Parsed.end {r : Request} {c c₁ : HttpCon HttpState} (h : Parsed r c c₁) (status : Int)
    (text : Option Text) : ∃ c', httpEnd (c₁.write status text) = .ok c' ∧
      Continues r ⟨r.version, status, text⟩ c c' := by
  obtain ⟨h', connType, hparams, hget, htext⟩ := h.params
  have hkept : (connType.any fun v => h'.heap.text v ≠ keepAlive) = r.kept := by
    rw [Request.kept, ← htext, Option.any_map]
  have hwritten : (c₁.write status text).written = c.written ++ [⟨r.version, status, text⟩] := by
    simp [HttpCon.write, h.written, h.version]
  have hparams' : (c₁.write status text).params = some h' := hparams
  unfold httpEnd Continues
  simp only [hparams', hget, bind, Except.bind, hkept]
  cases r.kept with
  | true => exact ⟨_, rfl, hwritten, rfl, rfl, h.size⟩
  | false => exact ⟨_, rfl, hwritten, rfl⟩

theorem Parsed.empty {r : Request} {c c₁ : HttpCon HttpState} (h : Parsed r c c₁) (status : Int) :
    ∃ c', httpEmptyResponse c₁ status = .ok (0, c') ∧
      Continues r ⟨r.version, status, none⟩ c c' := by
  obtain ⟨c', hend, hc'⟩ := h.end status none
  exact ⟨c', by rw [httpEmptyResponse, hend]; rfl, hc'⟩

theorem Parsed.process {r : Request} {c c₁ : HttpCon HttpState} (h : Parsed r c c₁)
    (hpath : c₁.req.path = r.path) (hfields : r.fields ≠ []) :
    ∃ c', httpConProcessRequest c₁ = .ok (0, c') ∧ Continues r r.answer c c' := by
  have hput : Parsed r c (if c₁.req.method = HttpReqMethod.PUT.code then
      { c₁ with state := .ST_RECV_BODY } else c₁) := by
    split
    · exact ⟨h.size, h.written, h.version, h.params⟩
    · exact h
  have hsame : (if c₁.req.method = HttpReqMethod.PUT.code then
      { c₁ with state := .ST_RECV_BODY } else c₁).req.path = r.path := by
    split <;> exact hpath
  rw [Request.answer, if_neg hfields]
  unfold httpConProcessRequest
  simp only [hsame]
  split
  · exact hput.empty HTTP_PAGE_NOT_FOUND
  · obtain ⟨c', hend, hc'⟩ := hput.end HTTP_DATA_FOLLOWS (some helloText)
    exact ⟨c', by rw [httpTextResponse, hend]; rfl, hc'⟩

theorem http_serves (o : ArgOrder) :
    Serves .ST_RECV_HEADER .ST_CLOSE (httpConServe o) Request.answer Request.kept where
  ne := by decide
  step c r hc hr := by
    obtain ⟨n, h', q, hparse, hneg, connType, hget, htext⟩ := hr.headerParse o
    have hparsed : Parsed r c { c.holding r.text with
        body := some []
        req := ⟨r.method.code, r.version, r.path,
          (c.holding r.text).req.pathArray.drop (r.path.length + 1)⟩
        header := some (headerText r.fields), params := some h' } :=
      ⟨length_holding hc (Nat.lt_of_le_of_lt hr.room (by decide)), holding_written c r.text, rfl,
        h', connType, rfl, hget, htext⟩
    unfold httpConServe
    simp only [hr.reqParse, bind, Except.bind, hparse, Int.lt_irrefl, if_false]
    by_cases hnil : r.fields = []
    · rw [if_pos (hneg.mpr hnil), Request.answer, if_pos hnil]
      exact hparsed.empty HTTP_BAD_REQUEST
    · rw [if_neg (fun hn => hnil (hneg.mp hn))]
      obtain ⟨c', hprocess, hc'⟩ := hparsed.process rfl hnil
      exact ⟨c', by rw [show crlfcrlf.drop 4 = [] from rfl, hprocess]; rfl, hc'⟩

theorem proxy_serves (o : ArgOrder) :
    Serves .ST_RECV_HEADER .ST_CLOSE (proxyServe o) Request.proxyAnswer fun _ => false where
  ne := by decide
  step c r hc hr := by
    obtain ⟨n, h', q, hparse, hneg, -⟩ := hr.headerParse o
    have hwritten := holding_written c r.text
    unfold proxyServe
    simp only [hr.reqParse, bind, Except.bind, hparse, Int.lt_irrefl, if_false]
    by_cases hnil : r.fields = []
    · rw [if_pos (hneg.mpr hnil), Request.proxyAnswer, if_pos hnil]
      exact ⟨_, rfl, by simp [HttpCon.write, hwritten], rfl⟩
    · rw [if_neg (fun hn => hnil (hneg.mp hn)), Request.proxyAnswer, if_neg hnil]
      exact ⟨_, rfl,
        by simp [proxyProcessRequest, proxyEmptyResponse, HttpCon.write, hwritten], rfl⟩

/-! ## §4 A session -/

/-- A request, and the pieces that it comes in. -/
structure Sent (x : Request × List Text) : Prop where
  valid : x.1.Valid
  whole : x.2.flatten = x.1.text
  nonempty : ∀ piece ∈ x.2, piece ≠ []
  last : 4 ≤ (x.2.getLastD []).length

/-- The answers up to the first behind which the connection is closed. -/
def answers (answer : Request → Response) (kept : Request → Bool) : List Request → List Response
  | [] => []
  | r :: rs => answer r :: if kept r then answers answer kept rs else []

section

variable {S : Type} [DecidableEq S] {waiting closing : S} {c : HttpCon S}
  {serve : HttpCon S → Text → Text → Except TextFault (Int × HttpCon S)}
  {answer : Request → Response} {kept : Request → Bool}

omit [DecidableEq S] in
theorem run_cons_ok {handler : Recv → HttpCon S → Served S} {piece : List UInt8}
    {res : Int × HttpCon S} (h : (handler (delivered piece) c).result = .ok res)
    (pieces : List (List UInt8)) :
    (run handler c (piece :: pieces)).2 = (run handler res.2 pieces).2 := by
  simp [run, h]

omit [DecidableEq S] in
theorem run_cons_error {handler : Recv → HttpCon S → Served S} {piece : List UInt8} {e : TextFault}
    (h : (handler (delivered piece) c).result = .error e) (pieces : List (List UInt8)) :
    (run handler c (piece :: pieces)).2 = .error e := by
  simp [run, h]

omit [DecidableEq S] in
theorem run_more (handler : Recv → HttpCon S → Served S) {c c' : HttpCon S} {xs : List Text}
    (h : (run handler c xs).2 = .ok c') (ys : List Text) :
    (run handler c (xs ++ ys)).2 = (run handler c' ys).2 := by
  induction xs generalizing c with
  | nil =>
    obtain rfl := Except.ok.inj h
    rfl
  | cons piece xs ih =>
    rw [List.cons_append]
    cases hcall : (handler (delivered piece) c).result with
    | ok res =>
      rw [run_cons_ok hcall] at h ⊢
      exact ih h
    | error e =>
      rw [run_cons_error hcall] at h
      cases h

/-- A connection that is to be closed looks at nothing any more. -/
theorem run_closing (hc : c.state ≠ waiting) (pieces : List Text) :
    (run (conRecv waiting serve) c pieces).2 = .ok c := by
  induction pieces with
  | nil => rfl
  | cons piece pieces ih =>
    have hcall : conRecv waiting serve (delivered piece) c = ⟨none, .ok (0, c)⟩ := if_neg hc
    rw [run, hcall]
    exact ih

theorem Serves.request (h : Serves waiting closing serve answer kept) (hc : Waiting waiting c)
    {x : Request × List Text} (hx : Sent x) :
    ∃ c', (run (conRecv waiting serve) c x.2).2 = .ok c' ∧
      c'.written = c.written ++ [answer x.1] ∧ After waiting closing (kept x.1) c' := by
  obtain ⟨c', hserve, hc'⟩ := h.step c x.1 hc hx.valid
  have hhead : Head x.2.flatten := hx.whole ▸ hx.valid.head
  have hwhole := ((asWhole_iff serve hc hx.nonempty hhead).mpr hx.last).1
  rw [hx.whole, run_whole serve hc hx.valid.head, hserve] at hwhole
  exact ⟨c', by rw [hwhole]; rfl, hc'⟩

/-- By induction on the requests. -/
theorem Serves.session (h : Serves waiting closing serve answer kept) (hc : Waiting waiting c)
    {xs : List (Request × List Text)} (hxs : ∀ x ∈ xs, Sent x) :
    ∃ c', (run (conRecv waiting serve) c (xs.flatMap Prod.snd)).2 = .ok c' ∧
      c'.written = c.written ++ answers answer kept (xs.map Prod.fst) ∧
      After waiting closing (xs.all fun x => kept x.1) c' := by
  induction xs generalizing c with
  | nil => exact ⟨c, rfl, by simp [answers], hc⟩
  | cons x xs ih =>
    obtain ⟨hx, hrest⟩ := List.forall_mem_cons.mp hxs
    obtain ⟨c₁, hrun, hwritten, hafter⟩ := h.request hc hx
    rw [List.flatMap_cons, run_more _ hrun, List.map_cons, answers, List.all_cons]
    cases hkept : kept x.1 with
    | true =>
      rw [hkept] at hafter
      obtain ⟨c', hmore, hlater, hend⟩ := ih hafter hrest
      exact ⟨c', hmore, by simp [hlater, hwritten], hend⟩
    | false =>
      rw [hkept] at hafter
      have hclosing : c₁.state ≠ waiting := fun heq => h.ne (hafter.symm.trans heq)
      exact ⟨c₁, run_closing hclosing _, by simpa using hwritten, hafter⟩

end

/-- **A session.** `multi_server_http` answers the requests in order, up to
the first without a `Connection` field or with "keep-alive" in it, and is to
close the connection then; without such a request it waits for the next. The
proxy answers the first only. -/
theorem sessions_answered (o : ArgOrder) {c : HttpCon HttpState} (hc : Waiting .ST_RECV_HEADER c)
    {p : HttpCon ProxyState} (hp : Waiting .ST_RECV_HEADER p) {xs : List (Request × List Text)}
    (hxs : ∀ x ∈ xs, Sent x) :
    (∃ c', (run (vHttpConRecv o) c (xs.flatMap Prod.snd)).2 = .ok c' ∧
      c'.written = c.written ++ answers Request.answer Request.kept (xs.map Prod.fst) ∧
      c'.state = if xs.all (fun x => x.1.kept) then .ST_RECV_HEADER else .ST_CLOSE) ∧
    ∃ p', (run (proxyStreamRecv o) p (xs.flatMap Prod.snd)).2 = .ok p' ∧
      p'.written = p.written ++ ((xs.map Prod.fst).take 1).map Request.proxyAnswer ∧
      p'.state = if xs = [] then .ST_RECV_HEADER else .ST_CLOSE := by
  obtain ⟨c', hrun, hwritten, hstate⟩ := (http_serves o).session hc hxs
  obtain ⟨p', hrun', hwritten', hstate'⟩ := (proxy_serves o).session hp hxs
  refine ⟨⟨c', hrun, hwritten, ?_⟩, p', hrun', ?_⟩
  · cases hall : xs.all fun x => x.1.kept with
    | true =>
      rw [hall] at hstate
      exact hstate.state
    | false =>
      rw [hall] at hstate
      exact hstate
  · cases xs with
    | nil => exact ⟨hwritten', hstate'.state⟩
    | cons x xs => exact ⟨hwritten', hstate'⟩

def getClose : Request := ⟨.GET, [ascii '/'], 1, 1, [connectionClose]⟩

def getFavicon : Request := ⟨.GET, favicon, 1, 1, [⟨connection, 1, keepAlive⟩]⟩

def threeSent : List (Request × List Text) :=
  [(getClose, [getClose.text.take 9, getClose.text.drop 9]), (getFavicon, [getFavicon.text]),
    (getClose, [getClose.text])]

theorem valid_getClose : getClose.Valid where
  method := by decide
  path_ne := by decide
  path_chars := by decide
  path_fits := by decide
  fields := ⟨hmapHolds_create _ _, by decide, fun _ _ => rfl, by decide, by decide, by decide,
    by decide⟩
  values := by decide
  room := by decide

theorem valid_getFavicon : getFavicon.Valid where
  method := by decide
  path_ne := by decide
  path_chars := by decide
  path_fits := by decide
  fields := ⟨hmapHolds_create _ _, by decide, fun _ _ => rfl, by decide, by decide, by decide,
    by decide⟩
  values := by decide
  room := by decide

theorem sent_three : ∀ x ∈ threeSent, Sent x := by
  rw [threeSent, List.forall_mem_cons, List.forall_mem_cons, List.forall_mem_singleton]
  exact ⟨⟨valid_getClose, by decide, by decide, by decide⟩,
    ⟨valid_getFavicon, by decide, by decide, by decide⟩, valid_getClose, by decide, by decide,
    by decide⟩

/-- The first is kept, the second is not, and nobody looks at the third. -/
theorem sessions_answered_three :
    (∃ c', (run (vHttpConRecv .leftFirst) (accepted 3 .ST_RECV_HEADER)
        (threeSent.flatMap Prod.snd)).2 = .ok c' ∧
      c'.written = [⟨0x101, HTTP_DATA_FOLLOWS, some helloText⟩,
        ⟨0x101, HTTP_PAGE_NOT_FOUND, none⟩] ∧ c'.state = .ST_CLOSE) ∧
    ∃ p', (run (proxyStreamRecv .leftFirst) (accepted 3 .ST_RECV_HEADER)
        (threeSent.flatMap Prod.snd)).2 = .ok p' ∧
      p'.written = [⟨0x101, HTTP_NO_CONTENT, none⟩] ∧ p'.state = .ST_CLOSE :=
  sessions_answered .leftFirst (waiting_accepted 3 _) (waiting_accepted 3 _) sent_three

end Nanio.Http
