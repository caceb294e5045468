/-
Nanio.Auth.HttpAuth — `http_auth_t` and `http_auth_parse` of
`oi_http_auth.c`.

The fields are arrays of characters, and whatever is written to one ends
before it does (`Field`). A header value is read parameter by parameter
(`parseRound`), each into the field of its name or, for the names that are
no field, into a local array that is looked at afterwards. That array is
not written where a quote is not closed, and then its old contents are
looked at: they are part of `Outside`, like the random numbers and the
base64 decoder, which is not in the library.
-/
import Nanio.Base
import Nanio.Http.UrlCode
import Nanio.Map.IoMap
import Nanio.Sock.SockAddr
import Mathlib.Data.Nat.Digits.Defs

namespace Nanio.Auth

open Nanio.Lib

/-! ## §1 The state -/

/-- `char name[size]`: a text that ends in it. -/
structure Field (size : Nat) where
  text : Text
  lt : text.length < size
  deriving DecidableEq, Repr

section

variable {size : Nat} [NeZero size]

instance : Inhabited (Field size) := ⟨⟨[], Nat.pos_of_neZero size⟩⟩

/-- As much of a text as fits, which is what `snprintf` writes. -/
def Field.cut (s : Text) : Field size where
  text := s.take (size - 1)
  lt := by
    have hpos := Nat.pos_of_neZero size
    rw [List.length_take]
    omega

/-- `stract`. -/
def stract (start : Text) (len : Int) : Field size :=
  let len := if len < 0 then start.length else len.toNat
  Field.cut (start.take len)

end

inductive AuthType where
  | HTTP_AUTH_NONE | HTTP_AUTH_BASIC | HTTP_AUTH_DIGEST
  deriving DecidableEq, Repr, Inhabited

inductive Algorithm where
  | ALG_MD5 | ALG_MD5_SESS | ALG_MD5_ELSE
  deriving DecidableEq, Repr, Inhabited

inductive Stale where
  | STALE_FALSE | STALE_TRUE
  deriving DecidableEq, Repr, Inhabited

def AUTH_QOP_NONE : UInt32 := 0
def AUTH_QOP_AUTH : UInt32 := 1
def AUTH_QOP_AUTH_INT : UInt32 := 2
def AUTH_QOP_ELSE : UInt32 := 4

-- The sizes of the arrays.
instance neZero_16 : NeZero 16 := ⟨by decide⟩
instance neZero_32 : NeZero 32 := ⟨by decide⟩
instance neZero_40 : NeZero 40 := ⟨by decide⟩
instance neZero_64 : NeZero 64 := ⟨by decide⟩
instance neZero_128 : NeZero 128 := ⟨by decide⟩

/-- `http_auth_t` without `method`, which the parser leaves alone. `opaque`
is a word of Lean. -/
structure HttpAuth where
  type : AuthType
  realm : Field 64
  domain : Field 128
  nonce : Field 64
  sessNonce : Field 64
  nextnonce : Field 64
  opaque_ : Field 64
  qop : UInt32
  algorithm : Algorithm
  stale : Stale
  username : Field 64
  password : Field 64
  uri : Field 128
  cnonce : Field 64
  nc : Field 16
  response : Field 40
  entity : Option Text
  deriving DecidableEq, Repr, Inhabited

/-- What the parser does not find in its arguments: the contents of the
array `qop` before it is written, in the round that starts at a place of
the header (nothing if there is no NUL in it), the text `b64_decode` leaves
in a buffer of a size, the number in `nc` before it is read, and what
`rand` returns. -/
structure Outside where
  qop : Text → Option Text
  b64Decode : Nat → Text → Text
  nc : UInt32
  rand : Nat × Nat × Nat

/-- `http_auth_empty`. -/
def httpAuthEmpty (d : HttpAuth) : HttpAuth :=
  { d with
    type := .HTTP_AUTH_NONE
    qop := AUTH_QOP_NONE
    algorithm := .ALG_MD5
    stale := .STALE_FALSE
    realm := default, domain := default, nonce := default, nextnonce := default
    sessNonce := default, opaque_ := default, username := default, password := default
    uri := default, cnonce := default, nc := default, response := default
    entity := none }

/-! ## §2 Parameters -/

/-- The fields that a parameter can name. -/
inductive Opt where
  | realm | domain | nonce | nextnonce | opaque_ | username | uri | cnonce | nc | response
  deriving DecidableEq, Repr

def ids : List (Text × Opt) :=
  [(lit ['r', 'e', 'a', 'l', 'm'], .realm),
   (lit ['d', 'o', 'm', 'a', 'i', 'n'], .domain),
   (lit ['n', 'o', 'n', 'c', 'e'], .nonce),
   (lit ['n', 'e', 'x', 't', 'n', 'o', 'n', 'c', 'e'], .nextnonce),
   (lit ['o', 'p', 'a', 'q', 'u', 'e'], .opaque_),
   (lit ['u', 's', 'e', 'r', 'n', 'a', 'm', 'e'], .username),
   (lit ['u', 'r', 'i'], .uri),
   (lit ['c', 'n', 'o', 'n', 'c', 'e'], .cnonce),
   (lit ['n', 'c'], .nc),
   (lit ['r', 'e', 's', 'p', 'o', 'n', 's', 'e'], .response)]

/-- The option an id names. -/
def findOption (id : Text) : Option Opt := (ids.find? fun opt => opt.1 = id).map Prod.snd

/-- `stract` into the field of an option. -/
def HttpAuth.store (d : HttpAuth) (start : Text) (len : Int) : Opt → HttpAuth
  | .realm => { d with realm := stract start len }
  | .domain => { d with domain := stract start len }
  | .nonce => { d with nonce := stract start len }
  | .nextnonce => { d with nextnonce := stract start len }
  | .opaque_ => { d with opaque_ := stract start len }
  | .username => { d with username := stract start len }
  | .uri => { d with uri := stract start len }
  | .cnonce => { d with cnonce := stract start len }
  | .nc => { d with nc := stract start len }
  | .response => { d with response := stract start len }

def comma : UInt8 := ascii ','
def space : UInt8 := ascii ' '
def quote : UInt8 := ascii '"'
def equals : UInt8 := ascii '='

/-- The value behind `eq`: the text to copy and its length, and `eq`
afterwards. A quote that is not closed copies nothing. -/
def paramValue (eq : Text) : Option (Text × Int) × Option Text :=
  if eq.head? = some quote then
    let v := eq.drop 1
    match strchr quote v with
    | some eq => (some (v, v.length - eq.length), some (eq.drop 1))
    | none => (none, none)
  else
    match strpbrk [comma, space] eq with
    | some next => (some (eq, eq.length - next.length), some next)
    | none => (some (eq, -1), none)

/-- One word of a `qop`: its flag, and `c` behind it. -/
def qopWord (c : Text) : UInt32 × Text :=
  let other := (AUTH_QOP_ELSE, c.dropWhile fun x => x ≠ comma)
  if lit ['a', 'u', 't', 'h'] <+: c then
    let c := c.drop 4
    if lit ['-', 'i', 'n', 't'] <+: c ∧ (c.drop 4 = [] ∨ (c.drop 4).head? = some comma) then
      (AUTH_QOP_AUTH_INT, c.drop 4)
    else if c = [] ∨ c.head? = some comma then (AUTH_QOP_AUTH, c)
    else other
  else other

theorem length_qopWord (c : Text) : (qopWord c).2.length ≤ c.length := by
  have hother := (List.dropWhile_suffix (l := c) fun x => decide (x ≠ comma)).length_le
  simp only [qopWord]
  split
  · split
    · simp only [List.length_drop]
      omega
    · split
      · simp only [List.length_drop]
        omega
      · exact hother
  · exact hother

/-- The words of a `qop`, with a comma between them. -/
def qopWords (c : Text) (qop : UInt32) : UInt32 :=
  match _h : (qopWord c).2 with
  | sep :: next =>
    if sep = comma then qopWords next (qop ||| (qopWord c).1) else qop ||| (qopWord c).1
  | [] => qop ||| (qopWord c).1
termination_by c.length
decreasing_by
  have hle := length_qopWord c
  rw [_h, List.length_cons] at hle
  omega

/-- The `switch` on the first character of an id that is no option. -/
def otherParam (d : HttpAuth) (id : Text) (value : Option Text) : Except TextFault HttpAuth :=
  if id.head? = some (ascii 'q') then
    if lit ['q', 'o', 'p'] <+: id then
      match value with
      | some c => .ok { d with qop := qopWords c AUTH_QOP_NONE }
      | none => .error .outOfText
    else .ok d
  else if id.head? = some (ascii 'a') then
    if id = lit ['a', 'l', 'g', 'o', 'r', 'i', 't', 'h', 'm'] then
      if value = some (lit ['M', 'D', '5']) then .ok { d with algorithm := .ALG_MD5 }
      else if value = some (lit ['M', 'D', '5', '-', 's', 'e', 's', 's']) then
        .ok { d with algorithm := .ALG_MD5_SESS }
      else .ok { d with algorithm := .ALG_MD5_ELSE }
    else .ok d
  else if id.head? = some (ascii 's') then
    if id = lit ['s', 't', 'a', 'l', 'e'] then
      if value.any (Map.strcaseEq · (lit ['f', 'a', 'l', 's', 'e'])) then
        .ok { d with stale := .STALE_FALSE }
      else if value = some (lit ['t', 'r', 'u', 'e']) then .ok { d with stale := .STALE_TRUE }
      else .ok d
    else .ok d
  else .ok d

/-! ## §3 http_auth_parse -/

/-- What a round of the loop comes to: it returns from the function, or
goes on with `auth`, which may be a null pointer. -/
inductive Round where
  | returned (r : Int) (d : HttpAuth)
  | goesOn (d : HttpAuth) (auth : Option Text)

/-- `userpass`, taken apart at the colon. -/
def basicCredentials (o : Outside) (d : HttpAuth) (auth : Text) : Int × HttpAuth :=
  let userpass := o.b64Decode 128 auth
  match strchr (ascii ':') userpass with
  | some pass =>
    (0, { d with
      username := stract userpass (userpass.length - pass.length)
      password := stract (pass.drop 1) (-1) })
  | none => (-1, d)

def skipSpaces (auth : Text) : Text := auth.dropWhile fun c => c = space

/-- `while (*eq == ',' || *eq == ' ') ++eq` -/
def skipSeparators (eq : Text) : Text := eq.dropWhile fun c => c = comma ∨ c = space

/-- A value, copied to where its name says; the local array is looked at in
any case. -/
def storeParam (o : Outside) (start : Text) (d : HttpAuth) (id : Text) :
    Option (Text × Int) → Except TextFault HttpAuth
  | some (v, len) =>
    match findOption id with
    | some opt => .ok (d.store v len opt)
    | none => otherParam d id (some (stract v len : Field 32).text)
  | none =>
    match findOption id with
    | some _ => .ok d
    | none => otherParam d id (o.qop start)

/-- A round of the loop. -/
def parseRound (o : Outside) (d : HttpAuth) (auth : Text) : Except TextFault Round := do
  let start := auth
  let auth := skipSpaces auth
  match strchr equals auth with
  | some eq =>
    let id : Field 16 := stract auth (auth.length - eq.length)
    let (written, eq) := paramValue (eq.drop 1)
    let d ← storeParam o start d id.text written
    pure (.goesOn d (eq.map skipSeparators))
  | none =>
    if d.type = .HTTP_AUTH_BASIC then
      let (r, d) := basicCredentials o d auth
      pure (.returned r d)
    else pure (.goesOn d (some auth))

/-- `%0wx` with these digits. -/
def hexNumber (digits : Text) (width n : Nat) : Text :=
  let ds := (Nat.digits 16 n).reverse.map fun k => digits.getD k 0
  List.replicate (width - ds.length) (ascii '0') ++ ds

def lowerHexDigits : Text :=
  lit ['0', '1', '2', '3', '4', '5', '6', '7', '8', '9', 'a', 'b', 'c', 'd', 'e', 'f']

/-- `sscanf(p, "%x", &nc)`: the number in `nc` afterwards, which stays where
no number is read. At most 15 digits fit `d->nc`. -/
def sscanfHex (p : Text) (nc : UInt32) : UInt32 :=
  let (minus, p) := Sock.signOf p
  let p := if Map.strncaseEq p (lit ['0', 'x']) 2 then p.drop 2 else p
  let ds := p.takeWhile fun c => (hexValue c).isSome
  let n : Nat := ds.foldl (fun n c => n * 16 + (hexValue c).getD 0) 0
  if ds = [] then nc else UInt32.ofNat (toUnsigned (if minus then -n else n))

/-- Behind the loop: the nonce count, and a nonce of the client. -/
def parseEnd (o : Outside) (d : HttpAuth) : HttpAuth :=
  let d :=
    if d.nc.text = [] ∨ d.nonce ≠ d.sessNonce then
      { d with
        nc := Field.cut (lit ['0', '0', '0', '0', '0', '0', '0', '1'])
        sessNonce := d.nonce }
    else
      { d with nc := Field.cut (hexNumber Http.hexDigits 8 (sscanfHex d.nc.text o.nc + 1).toNat) }
  if d.cnonce.text = [] then
    { d with
      cnonce := Field.cut (hexNumber Http.hexDigits 4 o.rand.1 ++
        hexNumber lowerHexDigits 4 o.rand.2.1 ++ hexNumber lowerHexDigits 4 o.rand.2.2) }
  else d

/-- `while (auth && *auth)`, in so many rounds. -/
def paramsLoop (o : Outside) : Nat → HttpAuth → Option Text → Except TextFault (Int × HttpAuth)
  | 0, _, _ => .error .endless
  | fuel + 1, d, some (c :: auth) => do
    match ← parseRound o d (c :: auth) with
    | .returned r d => pure (r, d)
    | .goesOn d auth => paramsLoop o fuel d auth
  | _ + 1, d, _ => .ok (0, parseEnd o d)

def digest : Text := lit ['d', 'i', 'g', 'e', 's', 't', ' ']
def basic : Text := lit ['b', 'a', 's', 'i', 'c', ' ']

/-- The scheme, and `auth` behind it. -/
def scheme (d : HttpAuth) (auth : Text) : Option (HttpAuth × Text) :=
  let auth := skipSpaces auth
  if Map.strncaseEq auth digest 7 then some ({ d with type := .HTTP_AUTH_DIGEST }, auth.drop 7)
  else if Map.strncaseEq auth basic 6 then some ({ d with type := .HTTP_AUTH_BASIC }, auth.drop 6)
  else none

/-- `http_auth_parse`. -/
def httpAuthParse (o : Outside) (fuel : Nat) (d : HttpAuth) (auth : Text) :
    Except TextFault (Int × HttpAuth) :=
  match scheme (httpAuthEmpty d) auth with
  | some (d, auth) => paramsLoop o fuel d (some auth)
  | none => .ok (-1, httpAuthEmpty d)

end Nanio.Auth
