/-
Nanio.Http.HttpParse — the request half of `io_http.c`: the request line
(`io_http_req_parse`) and the header block (`io_http_header_parse`).

Every pointer into the text is the rest of the text from it, and every
read goes through `deref`, so a call that would read past the NUL, or
through the null pointer of a failed `strstr`, ends in a fault instead of
a result. The functions keep the reads of the source in their order,
including the ones a reader would expect to be guarded.
-/
import Nanio.Map.IoMap

namespace Nanio.Http

open Nanio.Lib Nanio.Map

def sp : UInt8 := ascii ' '
def cr : UInt8 := ascii '\r'
def lf : UInt8 := ascii '\n'
def crlf : Text := [cr, lf]

/-- `io_after_space`: the pointer past the spaces; the function's own
result is the character there. -/
def ioAfterSpace (p : Text) : Text := p.dropWhile (· == sp)

/-! ## Methods -/

/-- `http_req_method_t`. -/
inductive HttpReqMethod where
  | ERROR | CONNECT | DELETE | GET | HEAD | OPTIONS | PATCH | POST | PUT | TRACE
  deriving DecidableEq, Repr

/-- The value of the enumerator. -/
def HttpReqMethod.code : HttpReqMethod → Nat
  | ERROR => 0 | CONNECT => 1 | DELETE => 2 | GET => 3 | HEAD => 4
  | OPTIONS => 5 | PATCH => 6 | POST => 7 | PUT => 8 | TRACE => 9

/-- `io_http_req_method`: the word of a method. -/
def HttpReqMethod.word : HttpReqMethod → Text
  | ERROR => lit ['E', 'R', 'R', 'O', 'R']
  | CONNECT => lit ['C', 'O', 'N', 'N', 'E', 'C', 'T']
  | DELETE => lit ['D', 'E', 'L', 'E', 'T', 'E']
  | GET => lit ['G', 'E', 'T']
  | HEAD => lit ['H', 'E', 'A', 'D']
  | OPTIONS => lit ['O', 'P', 'T', 'I', 'O', 'N', 'S']
  | PATCH => lit ['P', 'A', 'T', 'C', 'H']
  | POST => lit ['P', 'O', 'S', 'T']
  | PUT => lit ['P', 'U', 'T']
  | TRACE => lit ['T', 'R', 'A', 'C', 'E']

/-- The switch of `io_http_match_type`: the length of the method in the
high half of the byte and its number in the low half, or 0. -/
def typeOffset (text : Text) : Except TextFault Nat := do
  let c ← deref text 0
  if c == ascii 'C' then
    if ← memEq text 1 (lit ['O', 'N', 'N', 'E', 'C', 'T']) then
      pure (HttpReqMethod.CONNECT.code + 0x70) else pure 0
  else if c == ascii 'D' then
    if ← memEq text 1 (lit ['E', 'L', 'E', 'T', 'E']) then
      pure (HttpReqMethod.DELETE.code + 0x60) else pure 0
  else if c == ascii 'G' then
    if ← litAt text 1 (lit ['E', 'T']) then
      pure (HttpReqMethod.GET.code + 0x30) else pure 0
  else if c == ascii 'H' then
    if ← litAt text 1 (lit ['E', 'A', 'D']) then
      pure (HttpReqMethod.HEAD.code + 0x40) else pure 0
  else if c == ascii 'O' then
    if ← memEq text 1 (lit ['P', 'T', 'I', 'O', 'N', 'S']) then
      pure (HttpReqMethod.OPTIONS.code + 0x70) else pure 0
  else if c == ascii 'P' then do
    let d ← deref text 1
    if d == ascii 'A' then
      if ← litAt text 2 (lit ['T', 'C', 'H']) then
        pure (HttpReqMethod.PATCH.code + 0x50) else pure 0
    else if d == ascii 'O' then
      if ← litAt text 2 (lit ['S', 'T']) then
        pure (HttpReqMethod.POST.code + 0x40) else pure 0
    else if d == ascii 'U' then
      if ← litAt text 2 (lit ['T']) then
        pure (HttpReqMethod.PUT.code + 0x30) else pure 0
    else pure 0
  else if c == ascii 'T' then
    if ← memEq text 1 (lit ['R', 'A', 'C', 'E']) then
      pure (HttpReqMethod.TRACE.code + 0x50) else pure 0
  else pure 0

/-- `io_http_match_type`: the method number, `HTTP_ERROR` when there is
none, and the pointer past the space that ends the method. -/
def ioHttpMatchType (text : Text) : Except TextFault (Nat × Text) := do
  let off ← typeOffset text
  if (← deref text (off >>> 4)) == sp then pure (off &&& 15, text.drop ((off >>> 4) + 1))
  else pure (HttpReqMethod.ERROR.code, text)

/-! ## Version -/

/-- `digit2num`. The two low quarters of the signed `char` are the cases
0 and 1; the negative ones, here the high half, are not a digit. -/
def digit2num (digit : UInt8) : Int :=
  match (digit >>> 6).toNat with
  | 1 => ((digit &&& ~~~32).toNat : Int) - (ascii 'A').toNat + 10
  | 0 =>
    let d : Int := (digit.toNat : Int) - (ascii '0').toNat
    if 0 ≤ d ∧ d < 10 then d else 256
  | _ => 256

/-- `io_http_match_version`: the version or -1, and the pointer past it. -/
def ioHttpMatchVersion (text : Text) : Except TextFault (Int × Text) := do
  if ← noneAt text 0 (lit ['H', 'T', 'T', 'P', '/']) then pure (-1, text)
  else do
    let major := digit2num (← deref text 5)
    if 10 ≤ major then pure (-1, text)
    else if (← deref text 6) != ascii '.' then pure (-1, text)
    else do
      let minor := digit2num (← deref text 7)
      if minor < 10 then pure (major * 0x100 + minor, text.drop 8) else pure (-1, text)

/-! ## The request line -/

/-- `io_http_req_t`: the array `path` as the string in it and the bytes behind
the NUL of that. -/
structure IoHttpReq where
  method : Nat
  version : Int
  path : Text
  behind : List UInt8
  deriving DecidableEq, Repr

/-- `sizeof req->path`. -/
def pathSize : Nat := 248

def IoHttpReq.pathArray (req : IoHttpReq) : List UInt8 := req.path ++ 0 :: req.behind

/-- These characters are stored in `path`, and a NUL behind them. -/
def IoHttpReq.setPath (req : IoHttpReq) (path : Text) : IoHttpReq :=
  { req with path, behind := req.pathArray.drop (path.length + 1) }

/-- These characters are stored in `path`; what stood behind them stays. -/
def IoHttpReq.overwritePath (req : IoHttpReq) (copied : Text) : IoHttpReq :=
  let array := copied ++ req.pathArray.drop copied.length
  { req with
    path := array.takeWhile (· != 0)
    behind := (array.dropWhile (· != 0)).drop 1 }

/-- `while (*in && *in != ' ' && out < end) *out++ = *in++;` with `room`
places left: the characters copied and the pointer after them. -/
def copyPath : Nat → Text → Text × Text
  | _, [] => ([], [])
  | 0, c :: p => ([], c :: p)
  | room + 1, c :: p =>
    if c == sp then ([], c :: p)
    else ((c :: (copyPath room p).1), (copyPath room p).2)

/-- The end of `io_http_req_parse`, from the pointer `p` past the spaces
that follow the path: the version and a line end. -/
def reqVersion (req : IoHttpReq) (method : Nat) (text p : Text) :
    Except TextFault (Int × IoHttpReq × Text) := do
  let (version, p) ← ioHttpMatchVersion p
  let p := if ← litAt p 0 crlf then p.drop 2 else p
  if version < 0 then pure (-1, { req with method, version }, text)
  else pure (0, { req with method, version }, p)

/-- `io_http_req_parse`: 0 or -1, the request and `*text` afterwards. -/
def ioHttpReqParse (req : IoHttpReq) (text : Text) :
    Except TextFault (Int × IoHttpReq × Text) := do
  let (method, p) ← ioHttpMatchType text
  if method = 0 then pure (-1, req, text)
  else do
    let p := ioAfterSpace p
    let (path, p) := copyPath (pathSize - 1) p
    if (← deref p 0) != sp then pure (-1, req.overwritePath path, text)
    else reqVersion (req.setPath path) method text (ioAfterSpace p)

/-! ## The header block -/

/-- The characters that end a token. -/
def tokenEnds : Text :=
  lit ['(', ')', '<', '>', '@', ',', ';', ':', '\\', '"', '/', '[', ']', '?', '=', '{', '}',
    ' ', '\t']

/-- `is_http_token_char`. -/
def isHttpTokenChar (ch : UInt8) : Bool := ch &&& 0xE0 != 0 && !tokenEnds.contains ch

/-- The loop that drops trailing spaces from the `n` characters at `value`.
At the end it also looks at the character before `value`, which the header
parser has already passed. -/
def trimSpaces (value : Text) : Nat → Except TextFault Nat
  | 0 => .ok 0
  | n + 1 => do
    if (← deref value n) == sp then trimSpaces value n else pure (n + 1)

/-- What is left to do after one round: return a code, or look at the next
line. -/
inductive Round where
  | stop (code : Int)
  | line (next : Text)
  deriving DecidableEq, Repr

/-- One header field, the body of the loop of `io_http_header_parse`. The
comparison of `value_end` with `p` comes before any use of it, the result
of a failed `strstr` is used right after. -/
def headerRound (o : ArgOrder) (h : IoHmap) (p : Text) : Except TextFault (Round × IoHmap) := do
  let name := ioAfterSpace p
  let p := name.dropWhile isHttpTokenChar
  if p.length = name.length then pure (.stop (-1), h)
  else do
    let nameLen := name.length - p.length
    let p := ioAfterSpace p
    if (← deref p 0) != ascii ':' then pure (.stop (-2), h)
    else do
      let value := ioAfterSpace (p.drop 1)
      match strstr crlf value with
      | none => .error .nullPointer
      | some valueEnd =>
        if valueEnd.length = value.length then pure (.stop (-3), h)
        else do
          let valueLen ← trimSpaces value (value.length - valueEnd.length)
          let (e, h) ← ioHmapAddl o h name nameLen value (valueLen % 2 ^ 32)
          if e.isSome then pure (.stop (-4), h) else pure (.line (valueEnd.drop 2), h)

/-- The loop: the result, the table and `*header`. -/
def headerLoop (o : ArgOrder) (header : Text) : Nat → IoHmap → Text →
    Except TextFault (Int × IoHmap × Text)
  | 0, _, _ => .error .endless
  | fuel + 1, h, p => do
    match ← headerRound o h p with
    | (.stop code, h) => pure (code, h, header)
    | (.line p, h) =>
      if (← deref p 0) != cr then headerLoop o header fuel h p
      else if (← deref p 1) != lf then pure (-5, h, header)
      else pure (0, h, p)

/-- `io_http_header_parse`. -/
def ioHttpHeaderParse (o : ArgOrder) (h : IoHmap) (header : Text) :
    Except TextFault (Int × IoHmap × Text) :=
  headerLoop o header (header.length + 1) h header

end Nanio.Http
