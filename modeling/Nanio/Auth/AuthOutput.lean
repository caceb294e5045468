/-
Nanio.Auth.AuthOutput — `http_auth_response` and `http_auth_request` of
`oi_http_auth.c`: what they write to `out`, step by step.

Each formatting step is told how much room is left and the position moves
on by the length of the whole text. So the steps up to the first that does
not fit are right, and one behind it is told a huge number. The functions
keep to the buffer exactly if the text without its last field fits
(`formatted_inBounds_iff`), and for the basic scheme, where the credentials
are encoded without a look at the room but for one test, if that test turns
the call down or the encoding fits (`httpAuth_inBounds_iff`).

`b64_encode` and `b64_encoded_len` are not in the library (`Base64Writer`).
-/
import Nanio.Auth.HttpAuth
import Nanio.Tmp.TmpStr

namespace Nanio.Auth

open Nanio.Lib Nanio.Tmp

/-! ## §1 Writing to out -/

/-- A step that writes: where, the room it is told if it is a formatting
step, and the bytes that it writes there. -/
structure Step where
  pos : Nat
  room : Option Nat
  bytes : List UInt8
  deriving DecidableEq, Repr

/-- The position `n` in `out`, and the steps up to it. -/
structure Out where
  size : UInt64
  pos : Nat
  steps : List Step

def Out.start (size : UInt64) : Out := ⟨size, 0, []⟩

/-- `n += snprintf(n, (size_t)(e - n), …)`: a NUL behind the text or behind
as much of it as fits. -/
def Out.snprintf (n : Out) (text : Text) : Out :=
  let room := toUnsignedLong (n.size.toNat - n.pos)
  { n with
    pos := n.pos + text.length
    steps := n.steps ++
      [⟨n.pos, some room, if room = 0 then [] else text.take (room - 1) ++ [0]⟩] }

/-- The same under an `if`. -/
def Out.snprintfIf (n : Out) (c : Prop) [Decidable c] (text : Text) : Out :=
  if c then n.snprintf text else n

/-- A text in quotes. -/
def quoted (text : Text) : Text := quote :: text ++ [quote]

/-- `, name=value`. -/
def field (name value : Text) : Text := [comma, space] ++ name ++ equals :: value

def qopText (qop : UInt32) : Text :=
  (if qop &&& AUTH_QOP_AUTH ≠ 0 then lit ['a', 'u', 't', 'h'] else []) ++
  (if qop = AUTH_QOP_AUTH ||| AUTH_QOP_AUTH_INT then lit ['|'] else []) ++
  (if qop &&& AUTH_QOP_AUTH_INT ≠ 0 then lit ['a', 'u', 't', 'h', '-', 'i', 'n', 't'] else [])

def staleText : Stale → Text
  | .STALE_TRUE => lit ['t', 'r', 'u', 'e']
  | .STALE_FALSE => lit ['f', 'a', 'l', 's', 'e']

def basicWord : Text := lit ['B', 'a', 's', 'i', 'c']
def digestWord : Text := lit ['D', 'i', 'g', 'e', 's', 't']
def realmName : Text := lit ['r', 'e', 'a', 'l', 'm']
def domainName : Text := lit ['d', 'o', 'm', 'a', 'i', 'n']
def nonceName : Text := lit ['n', 'o', 'n', 'c', 'e']
def opaqueName : Text := lit ['o', 'p', 'a', 'q', 'u', 'e']
def staleName : Text := lit ['s', 't', 'a', 'l', 'e']
def algorithmName : Text := lit ['a', 'l', 'g', 'o', 'r', 'i', 't', 'h', 'm']
def qopName : Text := lit ['q', 'o', 'p']
def usernameName : Text := lit ['u', 's', 'e', 'r', 'n', 'a', 'm', 'e']
def uriName : Text := lit ['u', 'r', 'i']
def responseName : Text := lit ['r', 'e', 's', 'p', 'o', 'n', 's', 'e']
def cnonceName : Text := lit ['c', 'n', 'o', 'n', 'c', 'e']
def ncName : Text := lit ['n', 'c']
def md5Sess : Text := lit ['M', 'D', '5', '-', 's', 'e', 's', 's']

/-! ## §2 The functions -/

/-- `http_auth_response`: the result, and the steps. -/
def httpAuthResponse (d : HttpAuth) (size : UInt64) : Int × List Step :=
  match d.type with
  | .HTTP_AUTH_BASIC =>
    let rlm := (Out.start size).snprintf basicWord
    let rlm := rlm.snprintfIf (d.realm.text ≠ [])
      (space :: realmName ++ equals :: quoted d.realm.text)
    (0, rlm.steps)
  | .HTTP_AUTH_DIGEST =>
    let n := (Out.start size).snprintf
      (digestWord ++ space :: realmName ++ equals :: quoted d.realm.text)
    let n := n.snprintfIf (d.domain.text ≠ []) (field domainName (quoted d.domain.text))
    let n := n.snprintf (field nonceName d.nonce.text)
    let n := n.snprintfIf (d.opaque_.text ≠ []) (field opaqueName (quoted d.opaque_.text))
    let n := n.snprintf (field staleName (staleText d.stale))
    let n := n.snprintfIf (d.algorithm = .ALG_MD5_SESS) (field algorithmName md5Sess)
    let n := n.snprintfIf (d.qop ≠ AUTH_QOP_NONE) (field qopName (quoted (qopText d.qop)))
    (0, n.steps)
  | .HTTP_AUTH_NONE => (0, [])

/-- The encoder: the bytes that `b64_encode` writes for these, and what
`b64_encoded_len` says. -/
structure Base64Writer where
  encode : List UInt8 → List UInt8
  encodedLen : Nat → Nat

/-- `userpass`, which any user name and password fit together. -/
def userpass (d : HttpAuth) : Field 128 where
  text := d.username.text ++ ascii ':' :: d.password.text
  lt := by
    have hu := d.username.lt
    have hp := d.password.lt
    rw [List.length_append, List.length_cons]
    omega

/-- `size + 2 - (rlm - out) < b64_encoded_len(len)`. -/
def tooSmall (b : Base64Writer) (size : UInt64) (pos len : Nat) : Prop :=
  toUnsignedLong (size.toNat + 2 - pos) < b.encodedLen len

instance (b : Base64Writer) (size : UInt64) (pos len : Nat) : Decidable (tooSmall b size pos len) :=
  inferInstanceAs (Decidable (_ < _))

/-- `strcpy(d->nonce, d->nextnonce)`, and `nextnonce` is empty. -/
def useNextnonce (d : HttpAuth) : HttpAuth :=
  if d.nextnonce.text ≠ [] then { d with nonce := d.nextnonce, nextnonce := default } else d

/-- `http_auth_request`: the result, the structure afterwards, and the
steps. -/
def httpAuthRequest (b : Base64Writer) (d : HttpAuth) (size : UInt64) :
    Int × HttpAuth × List Step :=
  match d.type with
  | .HTTP_AUTH_BASIC =>
    let rlm := (Out.start size).snprintf basicWord
    if d.username.text = [] ∨ d.password.text = [] then (-1, d, rlm.steps)
    else if tooSmall b size rlm.pos (userpass d).text.length then (-1, d, rlm.steps)
    else
      (0, d, rlm.steps ++
        [⟨rlm.pos, none, [space]⟩, ⟨rlm.pos + 1, none, b.encode (userpass d).text⟩])
  | .HTTP_AUTH_DIGEST =>
    let d := useNextnonce d
    let n := (Out.start size).snprintf
      (digestWord ++ space :: usernameName ++ equals :: quoted d.username.text ++
        field realmName (quoted d.realm.text) ++ field nonceName d.nonce.text ++
        field uriName d.uri.text ++ field responseName d.response.text)
    let n := n.snprintfIf (d.algorithm = .ALG_MD5_SESS) (field algorithmName md5Sess)
    let n := n.snprintfIf (d.cnonce.text ≠ []) (field cnonceName d.cnonce.text)
    let n := n.snprintfIf (d.opaque_.text ≠ []) (field opaqueName (quoted d.opaque_.text))
    let n := n.snprintfIf (d.qop ≠ AUTH_QOP_NONE) (field qopName (quoted (qopText d.qop)))
    let n := n.snprintfIf (d.nc.text ≠ []) (field ncName d.nc.text)
    (0, d, n.steps)
  | .HTTP_AUTH_NONE => (0, d, [])

/-! ## §3 Steps one after the other -/

/-- Texts formatted in turn. -/
def formatted (size : UInt64) (texts : List Text) : Out :=
  texts.foldl Out.snprintf (Out.start size)

/-- A text under an `if`. -/
def textIf (c : Prop) [Decidable c] (text : Text) : List Text := if c then [text] else []

theorem formatted_snprintf (size : UInt64) (texts : List Text) (text : Text) :
    (formatted size texts).snprintf text = formatted size (texts ++ [text]) := by
  simp [formatted]

theorem formatted_snprintfIf (size : UInt64) (texts : List Text) (c : Prop) [Decidable c]
    (text : Text) :
    (formatted size texts).snprintfIf c text = formatted size (texts ++ textIf c text) := by
  unfold Out.snprintfIf textIf
  split
  · exact formatted_snprintf size texts text
  · rw [List.append_nil]

theorem start_snprintf (size : UInt64) (text : Text) :
    (Out.start size).snprintf text = formatted size [text] := rfl

/-- The text of a challenge, cut where a step ends. -/
def responseTexts (d : HttpAuth) : List Text :=
  match d.type with
  | .HTTP_AUTH_BASIC =>
    [basicWord] ++ textIf (d.realm.text ≠ []) (space :: realmName ++ equals :: quoted d.realm.text)
  | .HTTP_AUTH_DIGEST =>
    [digestWord ++ space :: realmName ++ equals :: quoted d.realm.text] ++
      textIf (d.domain.text ≠ []) (field domainName (quoted d.domain.text)) ++
      [field nonceName d.nonce.text] ++
      textIf (d.opaque_.text ≠ []) (field opaqueName (quoted d.opaque_.text)) ++
      [field staleName (staleText d.stale)] ++
      textIf (d.algorithm = .ALG_MD5_SESS) (field algorithmName md5Sess) ++
      textIf (d.qop ≠ AUTH_QOP_NONE) (field qopName (quoted (qopText d.qop)))
  | .HTTP_AUTH_NONE => []

/-- The same for credentials of the digest scheme. -/
def requestTexts (d : HttpAuth) : List Text :=
  [digestWord ++ space :: usernameName ++ equals :: quoted d.username.text ++
      field realmName (quoted d.realm.text) ++ field nonceName d.nonce.text ++
      field uriName d.uri.text ++ field responseName d.response.text] ++
    textIf (d.algorithm = .ALG_MD5_SESS) (field algorithmName md5Sess) ++
    textIf (d.cnonce.text ≠ []) (field cnonceName d.cnonce.text) ++
    textIf (d.opaque_.text ≠ []) (field opaqueName (quoted d.opaque_.text)) ++
    textIf (d.qop ≠ AUTH_QOP_NONE) (field qopName (quoted (qopText d.qop))) ++
    textIf (d.nc.text ≠ []) (field ncName d.nc.text)

theorem httpAuthResponse_eq (d : HttpAuth) (size : UInt64) :
    httpAuthResponse d size = (0, (formatted size (responseTexts d)).steps) := by
  unfold httpAuthResponse responseTexts
  cases d.type with
  | HTTP_AUTH_NONE => rfl
  | HTTP_AUTH_BASIC => simp only [start_snprintf, formatted_snprintfIf]
  | HTTP_AUTH_DIGEST =>
    simp only [start_snprintf, formatted_snprintfIf, formatted_snprintf]

theorem httpAuthRequest_digest (b : Base64Writer) {d : HttpAuth} (hd : d.type = .HTTP_AUTH_DIGEST)
    (size : UInt64) : httpAuthRequest b d size =
      (0, useNextnonce d, (formatted size (requestTexts (useNextnonce d))).steps) := by
  unfold httpAuthRequest requestTexts
  rw [hd]
  simp only [start_snprintf, formatted_snprintfIf]

theorem formatted_concat (size : UInt64) (texts : List Text) (text : Text) :
    formatted size (texts ++ [text]) = (formatted size texts).snprintf text :=
  (formatted_snprintf size texts text).symm

theorem formatted_size (size : UInt64) (texts : List Text) :
    (formatted size texts).size = size := by
  induction texts using List.reverseRecOn with
  | nil => rfl
  | append_singleton texts text ih => rwa [formatted_concat]

theorem formatted_pos (size : UInt64) (texts : List Text) :
    (formatted size texts).pos = texts.flatten.length := by
  induction texts using List.reverseRecOn with
  | nil => rfl
  | append_singleton texts text ih =>
    rw [formatted_concat, List.flatten_append, List.flatten_singleton, List.length_append, ← ih]
    rfl

/-! ## §4 Inside the buffer -/

/-- The bytes are in `out`, and the room told is what is left of it. -/
structure Step.InBounds (size : UInt64) (s : Step) : Prop where
  bytes : s.bytes = [] ∨ s.pos + s.bytes.length ≤ size.toNat
  room : ∀ room ∈ s.room, s.pos + room = size.toNat

def InBounds (size : UInt64) (steps : List Step) : Prop := ∀ s ∈ steps, s.InBounds size

theorem inBounds_append (size : UInt64) (steps more : List Step) :
    InBounds size (steps ++ more) ↔ InBounds size steps ∧ InBounds size more :=
  List.forall_mem_append

theorem told_inBounds_iff (size : UInt64) (pos room : Nat) (bytes : List UInt8) :
    (⟨pos, some room, bytes⟩ : Step).InBounds size ↔
      (bytes = [] ∨ pos + bytes.length ≤ size.toNat) ∧ pos + room = size.toNat := by
  constructor
  · exact fun h => ⟨h.bytes, h.room room rfl⟩
  · rintro ⟨hbytes, hroom⟩
    exact ⟨hbytes, fun r hr => Option.some.inj hr ▸ hroom⟩

/-- A step that is told nothing. -/
theorem plain_inBounds_iff (size : UInt64) (pos : Nat) (bytes : List UInt8) :
    (⟨pos, none, bytes⟩ : Step).InBounds size ↔ bytes = [] ∨ pos + bytes.length ≤ size.toNat :=
  ⟨Step.InBounds.bytes, fun h => ⟨h, fun _ hno => by cases hno⟩⟩

/-- What a step is told is right exactly if it starts in the buffer or at
its end, and then it stays in it. -/
theorem snprintf_inBounds_iff (n : Out) (text : Text) :
    InBounds n.size (n.snprintf text).steps ↔ InBounds n.size n.steps ∧ n.pos ≤ n.size.toNat := by
  have hsize := n.size.toNat_lt
  rw [Out.snprintf, inBounds_append]
  refine and_congr_right fun _ => ?_
  rw [InBounds, List.forall_mem_singleton, told_inBounds_iff]
  constructor
  · rintro ⟨-, hroom⟩
    omega
  · intro hpos
    have hroom : toUnsignedLong (n.size.toNat - n.pos) = n.size.toNat - n.pos := by
      unfold toUnsignedLong
      omega
    rw [hroom]
    by_cases hfull : n.size.toNat - n.pos = 0
    · exact ⟨.inl (if_pos hfull), by omega⟩
    · rw [if_neg hfull, List.length_append, List.length_take, List.length_singleton]
      exact ⟨.inr (by omega), by omega⟩

theorem length_dropLast_flatten_le (texts : List Text) :
    texts.dropLast.flatten.length ≤ texts.flatten.length := by
  rcases List.eq_nil_or_concat' texts with rfl | ⟨front, last, rfl⟩
  · exact Nat.le_refl _
  · rw [List.dropLast_concat, List.flatten_append, List.length_append]
    omega

/-- The steps keep to the buffer exactly if all but the last text fits. -/
theorem formatted_inBounds_iff (size : UInt64) (texts : List Text) :
    InBounds size (formatted size texts).steps ↔ texts.dropLast.flatten.length ≤ size.toNat := by
  induction texts using List.reverseRecOn with
  | nil => simp [formatted, Out.start, InBounds]
  | append_singleton texts text ih =>
    have hiff := snprintf_inBounds_iff (formatted size texts) text
    have hfront := length_dropLast_flatten_le texts
    rw [formatted_size, formatted_pos, ih] at hiff
    rw [formatted_concat, hiff, List.dropLast_concat]
    omega

/-- One step is always told what there is. -/
theorem formatted_single_inBounds (size : UInt64) (text : Text) :
    InBounds size (formatted size [text]).steps :=
  (formatted_inBounds_iff size [text]).mpr (Nat.zero_le _)

/-- The credentials that `http_auth_request` keeps to the buffer with. -/
def RequestFits (b : Base64Writer) (d : HttpAuth) (size : UInt64) : Prop :=
  match d.type with
  | .HTTP_AUTH_BASIC =>
    d.username.text = [] ∨ d.password.text = [] ∨
      tooSmall b size basicWord.length (userpass d).text.length ∨
      basicWord.length + 1 + (b.encode (userpass d).text).length ≤ size.toNat
  | .HTTP_AUTH_DIGEST =>
    (requestTexts (useNextnonce d)).dropLast.flatten.length ≤ size.toNat
  | .HTTP_AUTH_NONE => True

theorem httpAuthRequest_inBounds_iff (b : Base64Writer) (d : HttpAuth) (size : UInt64) :
    InBounds size (httpAuthRequest b d size).2.2 ↔ RequestFits b d size := by
  cases htype : d.type with
  | HTTP_AUTH_NONE =>
    simp [httpAuthRequest, RequestFits, htype, InBounds]
  | HTTP_AUTH_DIGEST =>
    rw [httpAuthRequest_digest b htype, formatted_inBounds_iff, RequestFits, htype]
  | HTTP_AUTH_BASIC =>
    have hword := formatted_single_inBounds size basicWord
    have hpos : (formatted size [basicWord]).pos = basicWord.length := formatted_pos size _
    simp only [httpAuthRequest, RequestFits, htype, start_snprintf, hpos]
    by_cases hempty : d.username.text = [] ∨ d.password.text = []
    · rw [if_pos hempty, ← or_assoc]
      exact iff_of_true hword (.inl hempty)
    · by_cases htest : tooSmall b size basicWord.length (userpass d).text.length
      · rw [if_neg hempty, if_pos htest]
        exact iff_of_true hword (.inr (.inr (.inl htest)))
      · rw [if_neg hempty, if_neg htest, inBounds_append]
        have hplain : InBounds size [⟨basicWord.length, none, [space]⟩,
            ⟨basicWord.length + 1, none, b.encode (userpass d).text⟩] ↔
            basicWord.length + 1 + (b.encode (userpass d).text).length ≤ size.toNat := by
          rw [InBounds, List.forall_mem_cons, List.forall_mem_singleton, plain_inBounds_iff,
            plain_inBounds_iff, List.length_singleton]
          cases b.encode (userpass d).text with
          | nil => simp
          | cons c cs =>
            simp only [List.cons_ne_nil, false_or, List.length_cons]
            omega
        rw [← or_assoc, or_iff_right hempty, or_iff_right htest, hplain]
        exact and_iff_right hword

/-- Both functions write to their buffer only, and each formatting step is
told what is left of it, exactly if the text without its last field fits,
and with credentials of the basic scheme if the call is turned down or the
encoding fits. -/
theorem httpAuth_inBounds_iff (b : Base64Writer) (d : HttpAuth) (size : UInt64) :
    (InBounds size (httpAuthResponse d size).2 ↔
      (responseTexts d).dropLast.flatten.length ≤ size.toNat) ∧
    (InBounds size (httpAuthRequest b d size).2.2 ↔ RequestFits b d size) := by
  rw [httpAuthResponse_eq]
  exact ⟨formatted_inBounds_iff size (responseTexts d), httpAuthRequest_inBounds_iff b d size⟩

/-- A challenge in a buffer of one byte. -/
theorem httpAuth_out_of_bounds :
    ¬ ∀ (b : Base64Writer) (d : HttpAuth) (size : UInt64), 1 ≤ size →
      InBounds size (httpAuthResponse d size).2 ∧ InBounds size (httpAuthRequest b d size).2.2 := by
  intro h
  have hbounds := (h ⟨id, id⟩ { (default : HttpAuth) with type := .HTTP_AUTH_DIGEST } 1
    (by decide)).1
  rw [httpAuthResponse_eq, formatted_inBounds_iff] at hbounds
  exact absurd hbounds (by decide)

/-! ## §5 The text in the buffer -/

/-- The buffer after these steps. -/
def written (buf : List UInt8) (steps : List Step) : List UInt8 :=
  steps.foldl (fun buf s => overwrite buf s.pos s.bytes) buf

theorem written_append (buf : List UInt8) (steps more : List Step) :
    written buf (steps ++ more) = written (written buf steps) more :=
  List.foldl_append

/-- Texts that fit together stand one behind the other, with a NUL at the end. -/
theorem written_formatted (buf : List UInt8) (size : UInt64) {texts : List Text}
    (hne : texts ≠ []) (hroom : texts.flatten.length < size.toNat) :
    written buf (formatted size texts).steps = overwrite buf 0 (texts.flatten ++ [0]) := by
  have hsize := size.toNat_lt
  induction texts using List.reverseRecOn with
  | nil => exact absurd rfl hne
  | append_singleton texts text ih =>
    rw [List.flatten_append, List.flatten_singleton, List.length_append] at hroom
    have htold : toUnsignedLong (size.toNat - texts.flatten.length) =
        size.toNat - texts.flatten.length := by
      unfold toUnsignedLong
      omega
    have hall : text.take (size.toNat - texts.flatten.length - 1) = text :=
      List.take_of_length_le (by omega)
    rw [formatted_concat, Out.snprintf, formatted_size, formatted_pos, htold, if_neg (by omega),
      hall, written_append, List.flatten_append, List.flatten_singleton]
    by_cases hnil : texts = []
    · subst hnil
      rfl
    · rw [ih hnil (by omega)]
      show overwrite (overwrite buf 0 (texts.flatten ++ [0])) texts.flatten.length (text ++ [0]) = _
      rw [overwrite_overwrite _ (by simp), List.append_assoc]

end Nanio.Auth
