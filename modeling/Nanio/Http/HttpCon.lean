/-
Nanio.Http.HttpCon — the connections of `multi_server_http.i` and
`rpxys.c`, from the bytes of a request head to the answer.

Both receive into `req_hdr` until they find the empty line that ends the
head, then parse what there is and answer. They look for the empty line in
the bytes that have just come, so it has to come in one piece: with the
last piece of a head the parser is called on the whole of it, as if it had
come in one, exactly if that piece has the four bytes (`httpCon_pieces_iff`).
Otherwise it is never called (`run_broken`).
-/
import Nanio.Http.HttpParse
import Nanio.Tmp.TmpStr

namespace Nanio.Http

open Nanio.Lib Nanio.Map Nanio.Tmp

/-! ## §1 Receiving -/

/-- What the server writes: the status line's version and status, and a
text behind the header, if there is one. -/
structure Response where
  version : Int
  status : Int
  text : Option Text
  deriving DecidableEq, Repr

/-- `http_con_t`: `end` as an index of `req_hdr`, and what was written to
the stream. Each server has its own states. -/
structure HttpCon (S : Type) where
  fd : Int
  state : S
  «end» : Nat
  header : Option Text
  body : Option Text
  req : IoHttpReq
  params : Option IoHmap
  reqHdr : List UInt8
  written : List Response
  deriving DecidableEq, Repr

variable {S : Type}

/-- `sizeof c->req_hdr`. -/
def reqHdrSize : Nat := 8000

def crlfcrlf : Text := crlf ++ crlf

/-- `recv`, for so many bytes at most. -/
abbrev Recv := Nat → SysResult (List UInt8)

/-- `io_stream_close`. -/
def HttpCon.close (c : HttpCon S) : HttpCon S := if 0 ≤ c.fd then { c with fd := -1 } else c

/-- What comes of receiving: nothing, the end of the connection, a part of
the head, or the head with the place of its empty line. -/
inductive Received (S : Type) where
  | failed
  | closed (c : HttpCon S)
  | part (c : HttpCon S)
  | head (c : HttpCon S) (hdrEnd : Text)

/-- The receiving half of the handlers: the empty line is looked for from
the old `end` on. -/
def recvHead (recv : Recv) (c : HttpCon S) : Received S :=
  let toRecv := toUnsigned (reqHdrSize - 1 - toUnsigned c.end)
  match recv toRecv with
  | .err _ => .failed
  | .ok [] => .closed c.close
  | .ok bytes =>
    let reqHdr := overwrite c.reqHdr c.end (bytes ++ [0])
    let hdrEnd := strstr crlfcrlf (cstr (reqHdr.drop c.end))
    let c := { c with reqHdr, «end» := c.end + bytes.length }
    match hdrEnd with
    | none => .part c
    | some hdrEnd => .head c hdrEnd

/-- A call of a handler: the text that `io_http_req_parse` is called on, if
it is, and what the call comes to. -/
structure Served (S : Type) where
  parsed : Option Text
  result : Except TextFault (Int × HttpCon S)

/-- A handler that receives while the state is `waiting` and passes a head
on, with the place of its empty line. -/
def conRecv [DecidableEq S] (waiting : S)
    (serve : HttpCon S → Text → Text → Except TextFault (Int × HttpCon S)) (recv : Recv)
    (c : HttpCon S) : Served S :=
  if c.state = waiting then
    match recvHead recv c with
    | .failed => ⟨none, .ok (-1, c)⟩
    | .closed c => ⟨none, .ok (0, c)⟩
    | .part c => ⟨none, .ok (0, c)⟩
    | .head c hdrEnd => ⟨some (cstr c.reqHdr), serve c hdrEnd (cstr c.reqHdr)⟩
  else ⟨none, .ok (0, c)⟩

def HTTP_DATA_FOLLOWS : Int := 200
def HTTP_NO_CONTENT : Int := 204
def HTTP_BAD_REQUEST : Int := 400
def HTTP_PAGE_NOT_FOUND : Int := 404

def HttpCon.write (c : HttpCon S) (status : Int) (text : Option Text) : HttpCon S :=
  { c with written := c.written ++ [⟨c.req.version, status, text⟩] }

/-! ## §2 multi_server_http.i -/

/-- `enum http_state`. -/
inductive HttpState where
  | ST_RECV_HEADER | ST_RECV_BODY | ST_CLOSE
  deriving DecidableEq, Repr

def connection : Text := lit ['C', 'o', 'n', 'n', 'e', 'c', 't', 'i', 'o', 'n']
def keepAlive : Text := lit ['k', 'e', 'e', 'p', '-', 'a', 'l', 'i', 'v', 'e']
def favicon : Text := lit ['/', 'f', 'a', 'v', 'i', 'c', 'o', 'n', '.', 'i', 'c', 'o']

/-- `http_end`. `keep_alive` is 1 for a `Connection` that is not
"keep-alive". -/
def httpEnd (c : HttpCon HttpState) : Except TextFault (HttpCon HttpState) := do
  match c.params with
  | none => .error .nullPointer
  | some params =>
    let connType ← ioHmapGetc params connection
    if connType.any fun v => params.heap.text v ≠ keepAlive then
      pure { c with state := .ST_RECV_HEADER, «end» := 0, header := none, body := none }
    else pure { c with state := .ST_CLOSE }

/-- `http_empty_response`. -/
def httpEmptyResponse (c : HttpCon HttpState) (status : Int) :
    Except TextFault (Int × HttpCon HttpState) := do
  let c ← httpEnd (c.write status none)
  pure (0, c)

/-- `http_text_response`. -/
def httpTextResponse (c : HttpCon HttpState) (status : Int) (text : Text) :
    Except TextFault (Int × HttpCon HttpState) := do
  let c ← httpEnd (c.write status (some text))
  pure (0, c)

def helloText : Text :=
  lit ("<html>\n<head><title>Hello!</title></head>\n<body>Hello!</body>\n</html>\n".toList)

/-- `http_con_process_request`. -/
def httpConProcessRequest (c : HttpCon HttpState) : Except TextFault (Int × HttpCon HttpState) :=
  let c := if c.req.method = HttpReqMethod.PUT.code then { c with state := .ST_RECV_BODY } else c
  if c.req.path = favicon then httpEmptyResponse c HTTP_PAGE_NOT_FOUND
  else httpTextResponse c HTTP_DATA_FOLLOWS helloText

/-- `v_http_con_recv`, from the head on. -/
def httpConServe (o : ArgOrder) (c : HttpCon HttpState) (hdrEnd s : Text) :
    Except TextFault (Int × HttpCon HttpState) := do
  let c := { c with body := some (hdrEnd.drop 4) }
  let (parseResult, req, s) ← ioHttpReqParse c.req s
  let c := { c with req }
  if parseResult < 0 then httpEmptyResponse c HTTP_BAD_REQUEST
  else do
    let c := { c with header := some s }
    let (parseResult, params, _) ← ioHttpHeaderParse o (ioHmapCreate 48 8192) s
    let c := { c with params := some params }
    if parseResult < 0 then httpEmptyResponse c HTTP_BAD_REQUEST
    else do
      let (_, c) ← httpConProcessRequest c
      pure (0, c)

/-- `v_http_con_recv`. -/
def vHttpConRecv (o : ArgOrder) : Recv → HttpCon HttpState → Served HttpState :=
  conRecv .ST_RECV_HEADER (httpConServe o)

/-! ## §3 rpxys.c -/

inductive ProxyState where
  | ST_RECV_HEADER | ST_PIPE | ST_FORWARDING | ST_CLOSE
  deriving DecidableEq, Repr

/-- `http_empty_response` of the proxy. -/
def proxyEmptyResponse (c : HttpCon ProxyState) (status : Int) : Int × HttpCon ProxyState :=
  (0, { c.write status none with state := .ST_CLOSE })

/-- `proxy_process_request`. -/
def proxyProcessRequest (c : HttpCon ProxyState) : Int × HttpCon ProxyState :=
  proxyEmptyResponse c HTTP_NO_CONTENT

/-- `proxy_stream_recv`, from the head on. -/
def proxyServe (o : ArgOrder) (c : HttpCon ProxyState) (_hdrEnd s : Text) :
    Except TextFault (Int × HttpCon ProxyState) := do
  let (parseResult, req, s) ← ioHttpReqParse c.req s
  let c := { c with req }
  if parseResult < 0 then pure (proxyEmptyResponse c HTTP_BAD_REQUEST)
  else do
    let c := { c with header := some s }
    let (parseResult, params, s) ← ioHttpHeaderParse o (ioHmapCreate 48 8192) s
    let c := { c with params := some params }
    if parseResult < 0 then pure (proxyEmptyResponse c HTTP_BAD_REQUEST)
    else
      let c := { c with body := some s }
      pure (0, (proxyProcessRequest c).2)

/-- `proxy_stream_recv`. -/
def proxyStreamRecv (o : ArgOrder) : Recv → HttpCon ProxyState → Served ProxyState :=
  conRecv .ST_RECV_HEADER (proxyServe o)

/-! ## §4 A head in pieces -/

/-- A piece has come in, and is taken as far as there is room. -/
def delivered (piece : Text) : Recv := fun len => .ok (piece.take len)

/-- Pieces that come in one after the other: the text the request parser is
called on with each of them, if it is, and the connection afterwards. -/
def run (handler : Recv → HttpCon S → Served S) :
    HttpCon S → List Text → List (Option Text) × Except TextFault (HttpCon S)
  | c, [] => ([], .ok c)
  | c, piece :: pieces =>
    let call := handler (delivered piece) c
    match call.result with
    | .ok (_, c) => (call.parsed :: (run handler c pieces).1, (run handler c pieces).2)
    | .error e => (call.parsed :: pieces.map fun _ => none, .error e)

/-- A connection that waits for the first byte of a head. -/
structure Waiting (waiting : S) (c : HttpCon S) : Prop where
  state : c.state = waiting
  start : c.end = 0
  size : c.reqHdr.length = reqHdrSize

/-- A request head: one empty line, at the end, and room for it. -/
structure Head (head : Text) : Prop where
  noNul : 0 ∉ head
  ends : OnlyAtEnd crlfcrlf head
  fits : head.length ≤ reqHdrSize - 1

/-- The parser is called once, with the last piece and on the whole head,
and the connection is as if the head had come in one piece. -/
def AsWhole (handler : Recv → HttpCon S → Served S) (c : HttpCon S) (pieces : List Text) : Prop :=
  run handler c pieces =
    (List.replicate (pieces.length - 1) none ++ [some pieces.flatten],
      (run handler c [pieces.flatten]).2) ∧
  (run handler c [pieces.flatten]).1 = [some pieces.flatten]

section

variable {waiting : S} {c : HttpCon S}

/-- The connection with a part of the head received. -/
def HttpCon.holding (c : HttpCon S) (sent : Text) : HttpCon S :=
  if sent = [] then c
  else { c with reqHdr := overwrite c.reqHdr 0 (sent ++ [0]), «end» := sent.length }

theorem holding_nil : c.holding [] = c := if_pos rfl

theorem holding_end (hc : Waiting waiting c) (sent : Text) :
    (c.holding sent).end = sent.length := by
  unfold HttpCon.holding
  split
  · next h => rw [h, hc.start, List.length_nil]
  · rfl

theorem holding_state (hc : Waiting waiting c) (sent : Text) :
    (c.holding sent).state = waiting := by
  unfold HttpCon.holding
  split <;> exact hc.state

/-- A piece behind what is there. -/
theorem holding_append (hc : Waiting waiting c) (sent : Text) {piece : Text} (hne : piece ≠ []) :
    { c.holding sent with
      reqHdr := overwrite (c.holding sent).reqHdr (c.holding sent).end (piece ++ [0])
      «end» := (c.holding sent).end + piece.length } = c.holding (sent ++ piece) := by
  have hwhole : sent ++ piece ≠ [] := by simp [hne]
  rw [holding_end hc, HttpCon.holding, HttpCon.holding, if_neg hwhole]
  split
  · next h => simp [h]
  · rw [overwrite_overwrite _ (by simp), List.append_assoc, List.length_append]

theorem length_holding (hc : Waiting waiting c) {sent : Text} (hfit : sent.length < reqHdrSize) :
    (c.holding sent).reqHdr.length = reqHdrSize := by
  unfold HttpCon.holding
  split
  · exact hc.size
  · rw [length_overwrite _ (Nat.zero_le _), hc.size, List.length_append, List.length_singleton]
    omega

theorem cstr_holding {sent : Text} (h0 : 0 ∉ sent) (hne : sent ≠ []) :
    cstr (c.holding sent).reqHdr = sent := by
  rw [HttpCon.holding, if_neg hne]
  exact cstr_overwrite h0 _

theorem recvHead_piece (hc : Waiting waiting c) {sent piece : Text} (hne : piece ≠ [])
    (h0 : 0 ∉ piece) (hfit : (sent ++ piece).length ≤ reqHdrSize - 1) :
    recvHead (delivered piece) (c.holding sent) =
      match strstr crlfcrlf piece with
      | none => .part (c.holding (sent ++ piece))
      | some hdrEnd => .head (c.holding (sent ++ piece)) hdrEnd := by
  have hsize : reqHdrSize = 8000 := rfl
  rw [List.length_append] at hfit
  have hroom : piece.length ≤
      toUnsigned (reqHdrSize - 1 - toUnsigned (c.holding sent).end) := by
    rw [holding_end hc]
    unfold toUnsigned
    omega
  have hnew : cstr ((overwrite (c.holding sent).reqHdr (c.holding sent).end (piece ++ [0])).drop
      (c.holding sent).end) = piece := by
    have hle : (c.holding sent).end ≤ (c.holding sent).reqHdr.length := by
      rw [holding_end hc, length_holding hc (by omega)]
      omega
    rw [drop_overwrite _ hle, List.append_assoc]
    exact cstr_append h0 _
  obtain ⟨b, rest, rfl⟩ := List.exists_cons_of_ne_nil hne
  simp only [recvHead, delivered, List.take_of_length_le hroom, hnew]
  rw [holding_append hc sent hne]

section

variable [DecidableEq S] (serve : HttpCon S → Text → Text → Except TextFault (Int × HttpCon S))

/-- A piece that the empty line is not in. -/
theorem conRecv_part (hc : Waiting waiting c) {sent piece : Text} (hne : piece ≠ [])
    (h0 : 0 ∉ piece) (hfit : (sent ++ piece).length ≤ reqHdrSize - 1)
    (hno : ¬ crlfcrlf <:+: piece) :
    conRecv waiting serve (delivered piece) (c.holding sent) =
      ⟨none, .ok (0, c.holding (sent ++ piece))⟩ := by
  have hfind := (strstr_eq_none_iff (by decide : crlfcrlf ≠ []) piece).mpr hno
  rw [conRecv, if_pos (holding_state hc sent), recvHead_piece hc hne h0 hfit, hfind]

/-- The last piece of a head, with the empty line in it. -/
theorem conRecv_head (hc : Waiting waiting c) {sent piece : Text} (hhead : Head (sent ++ piece))
    (hlen : crlfcrlf.length ≤ piece.length) :
    conRecv waiting serve (delivered piece) (c.holding sent) =
      ⟨some (sent ++ piece), serve (c.holding (sent ++ piece)) crlfcrlf (sent ++ piece)⟩ := by
  have hne : piece ≠ [] := by
    rintro rfl
    exact absurd hlen (by decide)
  have h0 : 0 ∉ piece := fun h => hhead.noNul (List.mem_append_right sent h)
  have hfind := hhead.ends.strstr_last (by decide) hlen
  have hwhole : sent ++ piece ≠ [] := by simp [hne]
  rw [conRecv, if_pos (holding_state hc sent), recvHead_piece hc hne h0 hhead.fits, hfind]
  simp only [cstr_holding hhead.noNul hwhole]

/-- The pieces before the last. -/
theorem run_parts (hc : Waiting waiting c) (pieces : List Text) (sent : Text) {last : Text}
    (hne : ∀ piece ∈ pieces, piece ≠ []) (hlast : last ≠ [])
    (hhead : Head (sent ++ (pieces.flatten ++ last))) :
    run (conRecv waiting serve) (c.holding sent) (pieces ++ [last]) =
      (List.replicate pieces.length none ++
        (run (conRecv waiting serve) (c.holding (sent ++ pieces.flatten)) [last]).1,
        (run (conRecv waiting serve) (c.holding (sent ++ pieces.flatten)) [last]).2) := by
  induction pieces generalizing sent with
  | nil => simp
  | cons piece pieces ih =>
    obtain ⟨hpiece, hrest⟩ := List.forall_mem_cons.mp hne
    have hbehind : pieces.flatten ++ last ≠ [] := by simp [hlast]
    rw [List.flatten_cons, List.append_assoc] at hhead
    have h0 : 0 ∉ piece := fun h =>
      hhead.noNul (List.mem_append_right sent (List.mem_append_left _ h))
    have hfit : (sent ++ piece).length ≤ reqHdrSize - 1 := by
      have hle := hhead.fits
      simp only [List.length_append] at hle ⊢
      omega
    have hno := hhead.ends.not_infix hbehind
    have hnext : Head ((sent ++ piece) ++ (pieces.flatten ++ last)) := by
      rwa [List.append_assoc sent]
    rw [List.cons_append, run, conRecv_part serve hc hpiece h0 hfit hno]
    simp only [ih (sent ++ piece) hrest hnext, List.flatten_cons, List.append_assoc,
      List.length_cons, List.replicate_succ, List.cons_append]

/-- The last piece: either it has the empty line, or the parser waits for
one that will not come. -/
theorem run_last (hc : Waiting waiting c) (sent : Text) {last : Text} (hlast : last ≠ [])
    (hhead : Head (sent ++ last)) :
    run (conRecv waiting serve) (c.holding sent) [last] =
      if crlfcrlf.length ≤ last.length then
        ([some (sent ++ last)],
          (serve (c.holding (sent ++ last)) crlfcrlf (sent ++ last)).map Prod.snd)
      else ([none], .ok (c.holding (sent ++ last))) := by
  split
  · next hlen =>
    rw [run, conRecv_head serve hc hhead hlen]
    cases serve (c.holding (sent ++ last)) crlfcrlf (sent ++ last) <;> rfl
  · next hlen =>
    have h0 : 0 ∉ last := fun h => hhead.noNul (List.mem_append_right sent h)
    have hno : ¬ crlfcrlf <:+: last := fun h => hlen (hhead.ends.infix_last_iff.mp h)
    rw [run, conRecv_part serve hc hlast h0 hhead.fits hno]
    rfl

/-- A head that comes in one piece. -/
theorem run_whole (hc : Waiting waiting c) {head : Text} (hhead : Head head) :
    run (conRecv waiting serve) c [head] =
      ([some head], (serve (c.holding head) crlfcrlf head).map Prod.snd) := by
  have hlen : crlfcrlf.length ≤ head.length := hhead.ends.1.length_le
  have hne : head ≠ [] := by
    rintro rfl
    exact absurd hlen (by decide)
  have hwhole := run_last serve hc [] hne hhead
  rwa [if_pos hlen] at hwhole

theorem asWhole_iff (hc : Waiting waiting c) {pieces : List Text}
    (hne : ∀ piece ∈ pieces, piece ≠ []) (hhead : Head pieces.flatten) :
    AsWhole (conRecv waiting serve) c pieces ↔ crlfcrlf.length ≤ (pieces.getLastD []).length := by
  rcases List.eq_nil_or_concat' pieces with rfl | ⟨parts, last, rfl⟩
  · exact absurd hhead.ends.1.length_le (by decide)
  · have hlast : last ≠ [] := hne last (by simp)
    have hparts : ∀ piece ∈ parts, piece ≠ [] := fun piece h => hne piece (by simp [h])
    have hflat : (parts ++ [last]).flatten = parts.flatten ++ last := by simp
    have hcount : (parts ++ [last]).length - 1 = parts.length := by simp
    have hlen : (parts ++ [last]).getLastD [] = last := by simp
    rw [hflat] at hhead
    have hrun := run_parts serve hc parts [] hparts hlast hhead
    rw [List.nil_append, run_last serve hc _ hlast hhead, holding_nil] at hrun
    rw [AsWhole, hflat, hcount, hlen, hrun, run_whole serve hc hhead]
    constructor
    · rintro ⟨hsame, -⟩
      by_contra hshort
      simp [if_neg hshort] at hsame
    · intro hlong
      rw [if_pos hlong]
      exact ⟨rfl, rfl⟩

/-- Where the last piece is shorter the parser is not called at all. -/
theorem run_broken (hc : Waiting waiting c) {pieces : List Text}
    (hne : ∀ piece ∈ pieces, piece ≠ []) (hhead : Head pieces.flatten)
    (hshort : (pieces.getLastD []).length < crlfcrlf.length) :
    run (conRecv waiting serve) c pieces =
      (List.replicate pieces.length none, .ok (c.holding pieces.flatten)) := by
  rcases List.eq_nil_or_concat' pieces with rfl | ⟨parts, last, rfl⟩
  · exact absurd hhead.ends.1.length_le (by decide)
  · have hlast : last ≠ [] := hne last (by simp)
    have hparts : ∀ piece ∈ parts, piece ≠ [] := fun piece h => hne piece (by simp [h])
    have hflat : (parts ++ [last]).flatten = parts.flatten ++ last := by simp
    have hlen : (parts ++ [last]).getLastD [] = last := by simp
    rw [hflat] at hhead ⊢
    rw [hlen] at hshort
    have hrun := run_parts serve hc parts [] hparts hlast hhead
    rw [List.nil_append, run_last serve hc _ hlast hhead, holding_nil, if_neg (by omega)] at hrun
    rw [hrun, List.length_append, List.length_singleton, List.replicate_succ']

end

end

/-! ## §5 The servers -/

/-- `calloc`, and `end = req_hdr`: a connection that has just been accepted. -/
def accepted (fd : Int) (waiting : S) : HttpCon S where
  fd := fd
  state := waiting
  «end» := 0
  header := none
  body := none
  req := ⟨0, 0, [], List.replicate (pathSize - 1) 0⟩
  params := none
  reqHdr := List.replicate reqHdrSize 0
  written := []

theorem waiting_accepted (fd : Int) (waiting : S) : Waiting waiting (accepted fd waiting) where
  state := rfl
  start := rfl
  size := List.length_replicate

/-- Both handlers take a head in pieces as they take it whole exactly if the
last piece has the empty line. -/
theorem httpCon_pieces_iff (o : ArgOrder) {c : HttpCon HttpState} (hc : Waiting .ST_RECV_HEADER c)
    {p : HttpCon ProxyState} (hp : Waiting .ST_RECV_HEADER p) {pieces : List Text}
    (hne : ∀ piece ∈ pieces, piece ≠ []) (hhead : Head pieces.flatten) :
    (AsWhole (vHttpConRecv o) c pieces ↔ 4 ≤ (pieces.getLastD []).length) ∧
      (AsWhole (proxyStreamRecv o) p pieces ↔ 4 ≤ (pieces.getLastD []).length) :=
  ⟨asWhole_iff (httpConServe o) hc hne hhead, asWhole_iff (proxyServe o) hp hne hhead⟩

def getLine : Text := lit ['G', 'E', 'T', ' ', '/', ' ', 'H', 'T', 'T', 'P', '/', '1', '.', '1']

theorem head_getLine : Head (getLine ++ crlfcrlf) where
  noNul := by decide
  ends := ⟨List.suffix_append _ _, by decide⟩
  fits := by decide

theorem httpCon_pieces_two :
    (AsWhole (vHttpConRecv .leftFirst) (accepted 3 .ST_RECV_HEADER) [getLine, crlfcrlf] ↔
        4 ≤ ([getLine, crlfcrlf].getLastD []).length) ∧
      (AsWhole (proxyStreamRecv .leftFirst) (accepted 3 .ST_RECV_HEADER) [getLine, crlfcrlf] ↔
        4 ≤ ([getLine, crlfcrlf].getLastD []).length) :=
  httpCon_pieces_iff .leftFirst (waiting_accepted 3 _) (waiting_accepted 3 _) (by decide)
    head_getLine

/-- A request line in one piece, and the empty line in the next. -/
theorem httpCon_pieces_cut :
    ¬ ∀ (o : ArgOrder) (c : HttpCon HttpState) (p : HttpCon ProxyState) (pieces : List Text),
      Waiting .ST_RECV_HEADER c → Waiting .ST_RECV_HEADER p → (∀ piece ∈ pieces, piece ≠ []) →
      Head pieces.flatten →
        AsWhole (vHttpConRecv o) c pieces ∧ AsWhole (proxyStreamRecv o) p pieces := by
  intro h
  have hne : ∀ piece ∈ [getLine ++ crlf, crlf], piece ≠ [] := by decide
  have hhead : Head [getLine ++ crlf, crlf].flatten := head_getLine
  have hwhole := (h .leftFirst (accepted 3 _) (accepted 3 _) _ (waiting_accepted 3 _)
    (waiting_accepted 3 _) hne hhead).1
  rw [vHttpConRecv, asWhole_iff _ (waiting_accepted 3 _) hne hhead] at hwhole
  exact absurd hwhole (by decide)

end Nanio.Http
