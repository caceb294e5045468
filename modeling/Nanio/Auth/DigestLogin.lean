/-
Nanio.Auth.DigestLogin — `http_auth_response_calc` of `oi_http_auth.c`, and
logins with it.

Each text that is hashed fits the array `str`, because the fields it is made
of do, so a response is always the hash it should be
(`httpAuthResponseCalc_eq`). A server that reads a request has what the
client had, but for the nonce count: the parser has emptied the structure,
and leaves 00000001. It accepts the response exactly if it is the one for
this count (`digest_accepted_iff`). With the messages of the two functions
on both sides a user is let in, whatever `qop` the challenge asks for
(`digest_login`).

The hash is a parameter, MD5 is not in the library. `method` is no field of
the model: the parser leaves it alone.
-/
import Nanio.Auth.NonceCount

namespace Nanio.Auth

open Nanio.Lib Nanio.Tmp

/-! ## §1 The response -/

abbrev Md5 := List UInt8 → Vector UInt8 16

/-- `md5_to_hex`. -/
def md5ToHex (h : Vector UInt8 16) : Text :=
  h.toList.flatMap fun (b : UInt8) =>
    [lowerHexDigits.getD (b >>> 4).toNat 0, lowerHexDigits.getD (b &&& 15).toNat 0]

def md5StrSize : Nat := 768

/-- `md5_printf`, after the formatting: of a text that does not fit `str`,
what is behind `str` is hashed. -/
def md5Printf (md5 : Md5) (text : Text) : Except TextFault Text :=
  if text.length < md5StrSize then .ok (md5ToHex (md5 text)) else .error .outOfText

/-- `md5_calc`. -/
def md5Calc (md5 : Md5) (str : Option Text) : Text := md5ToHex (md5 (str.getD []))

/-- `%s:%s`, with so many texts. -/
def colons (texts : List Text) : Text := (texts.intersperse [ascii ':']).flatten

/-- One word of a `qop`. -/
def chosenQop (qop : UInt32) : UInt32 :=
  if qop &&& AUTH_QOP_AUTH_INT ≠ 0 then AUTH_QOP_AUTH_INT
  else if qop &&& AUTH_QOP_AUTH ≠ 0 then AUTH_QOP_AUTH
  else qop

/-- `auth%s`. -/
def authWord (qop : UInt32) : Text :=
  lit ['a', 'u', 't', 'h'] ++ if qop = AUTH_QOP_AUTH_INT then lit ['-', 'i', 'n', 't'] else []

/-- `A1`. -/
def calcA1 (md5 : Md5) (d : HttpAuth) : Except TextFault Text := do
  let a1 ← md5Printf md5 (colons [d.username.text, d.realm.text, d.password.text])
  if d.algorithm = .ALG_MD5_SESS then md5Printf md5 (colons [a1, d.nonce.text, d.cnonce.text])
  else pure a1

/-- `A2`. -/
def calcA2 (md5 : Md5) (method : Field 16) (d : HttpAuth) : Except TextFault Text :=
  if d.qop &&& AUTH_QOP_AUTH_INT ≠ 0 then
    md5Printf md5 (colons [method.text, d.uri.text, md5Calc md5 d.entity])
  else md5Printf md5 (colons [method.text, d.uri.text])

/-- `response`, with one word in `qop`. -/
def calcResponse (md5 : Md5) (d : HttpAuth) (a1 a2 : Text) : Except TextFault Text :=
  if d.qop &&& (AUTH_QOP_AUTH ||| AUTH_QOP_AUTH_INT) ≠ 0 then
    md5Printf md5 (colons [a1, d.nonce.text, d.nc.text, d.cnonce.text, authWord d.qop, a2])
  else md5Printf md5 (colons [a1, d.nonce.text, a2])

/-- `http_auth_response_calc`: the structure afterwards, and `response`. -/
def httpAuthResponseCalc (md5 : Md5) (method : Field 16) (d : HttpAuth) :
    Except TextFault (HttpAuth × Text) := do
  let a1 ← calcA1 md5 d
  let a2 ← calcA2 md5 method d
  let d := { d with qop := chosenQop d.qop }
  let response ← calcResponse md5 d a1 a2
  pure (d, response)

/-! ## §2 What is hashed -/

def userHash (md5 : Md5) (d : HttpAuth) : Text :=
  md5ToHex (md5 (colons [d.username.text, d.realm.text, d.password.text]))

def sessionHash (md5 : Md5) (d : HttpAuth) : Text :=
  if d.algorithm = .ALG_MD5_SESS then
    md5ToHex (md5 (colons [userHash md5 d, d.nonce.text, d.cnonce.text]))
  else userHash md5 d

def requestHash (md5 : Md5) (method : Field 16) (d : HttpAuth) : Text :=
  md5ToHex (md5 (colons ([method.text, d.uri.text] ++
    if d.qop &&& AUTH_QOP_AUTH_INT ≠ 0 then [md5Calc md5 d.entity] else [])))

/-- The response for what is in the structure. -/
def digestResponse (md5 : Md5) (method : Field 16) (d : HttpAuth) : Text :=
  md5ToHex (md5 (colons ([sessionHash md5 d, d.nonce.text] ++
    (if chosenQop d.qop &&& (AUTH_QOP_AUTH ||| AUTH_QOP_AUTH_INT) ≠ 0 then
      [d.nc.text, d.cnonce.text, authWord (chosenQop d.qop)] else []) ++
    [requestHash md5 method d])))

theorem length_md5ToHex (h : Vector UInt8 16) : (md5ToHex h).length = 32 := by
  simp [md5ToHex, List.length_flatMap]

theorem length_sessionHash (md5 : Md5) (d : HttpAuth) : (sessionHash md5 d).length = 32 := by
  unfold sessionHash userHash
  split <;> exact length_md5ToHex _

theorem length_colons_le {texts : List Text} {n : Nat} (h : ∀ t ∈ texts, t.length ≤ n) :
    (colons texts).length ≤ texts.length * (n + 1) := by
  unfold colons
  induction texts with
  | nil => exact Nat.zero_le _
  | cons t texts ih =>
    obtain ⟨ht, hrest⟩ := List.forall_mem_cons.mp h
    have hmore := ih hrest
    cases texts with
    | nil => simpa using Nat.le_succ_of_le ht
    | cons u texts =>
      simp only [List.intersperse, List.flatten_cons, List.length_append, List.length_cons,
        List.length_nil] at hmore ⊢
      rw [Nat.add_mul]
      omega

/-- Texts of some size, and `str` is large enough for them. -/
theorem md5Printf_colons (md5 : Md5) {texts : List Text} {n : Nat}
    (hfit : texts.length * (n + 1) < md5StrSize) (h : ∀ t ∈ texts, t.length ≤ n) :
    md5Printf md5 (colons texts) = .ok (md5ToHex (md5 (colons texts))) :=
  if_pos (Nat.lt_of_le_of_lt (length_colons_le h) hfit)

theorem Field.length_le {n : Nat} (f : Field (n + 1)) : f.text.length ≤ n :=
  Nat.le_of_lt_succ f.lt

theorem length_authWord (qop : UInt32) : (authWord qop).length ≤ 63 := by
  unfold authWord
  split <;> decide

/-- Whether a `qop` has this bit does not change. -/
theorem chosenQop_int (qop : UInt32) :
    chosenQop qop &&& AUTH_QOP_AUTH_INT ≠ 0 ↔ qop &&& AUTH_QOP_AUTH_INT ≠ 0 := by
  unfold chosenQop
  split
  · next h => exact iff_of_true (by decide) h
  · next h =>
    split
    · exact iff_of_false (by decide) h
    · exact iff_of_false h h

theorem chosenQop_idem (qop : UInt32) : chosenQop (chosenQop qop) = chosenQop qop := by
  by_cases hint : qop &&& AUTH_QOP_AUTH_INT ≠ 0
  · have hchosen : chosenQop qop = AUTH_QOP_AUTH_INT := if_pos hint
    rw [hchosen]
    rfl
  · by_cases hauth : qop &&& AUTH_QOP_AUTH ≠ 0
    · have hchosen : chosenQop qop = AUTH_QOP_AUTH := by rw [chosenQop, if_neg hint, if_pos hauth]
      rw [hchosen]
      rfl
    · have hchosen : chosenQop qop = qop := by rw [chosenQop, if_neg hint, if_neg hauth]
      rw [hchosen, hchosen]

section

variable (md5 : Md5) (method : Field 16) (d : HttpAuth)

theorem length_hash (text : Text) : (md5ToHex (md5 text)).length ≤ 63 := by
  rw [length_md5ToHex]
  decide

theorem calcA1_eq : calcA1 md5 d = .ok (sessionHash md5 d) := by
  have huser : md5Printf md5 (colons [d.username.text, d.realm.text, d.password.text]) =
      .ok (userHash md5 d) :=
    md5Printf_colons md5 (n := 63) (by simp [md5StrSize])
      (by simp [d.username.length_le, d.realm.length_le, d.password.length_le])
  have hlen : (userHash md5 d).length ≤ 63 := length_hash md5 _
  unfold calcA1 sessionHash
  simp only [huser, bind, Except.bind]
  split
  · exact md5Printf_colons md5 (n := 63) (by simp [md5StrSize])
      (by simp [hlen, d.nonce.length_le, d.cnonce.length_le])
  · rfl

theorem calcA2_eq : calcA2 md5 method d = .ok (requestHash md5 method d) := by
  have hmethod : method.text.length ≤ 127 := method.length_le.trans (by decide)
  have hentity : (md5Calc md5 d.entity).length ≤ 127 := (length_hash md5 _).trans (by decide)
  unfold calcA2 requestHash
  split
  · exact md5Printf_colons md5 (n := 127) (by simp [md5StrSize])
      (by simp [hmethod, hentity, d.uri.length_le])
  · exact md5Printf_colons md5 (n := 127) (by simp [md5StrSize])
      (by simp [hmethod, d.uri.length_le])

theorem calcResponse_eq :
    calcResponse md5 { d with qop := chosenQop d.qop } (sessionHash md5 d)
      (requestHash md5 method d) = .ok (digestResponse md5 method d) := by
  have hsession : (sessionHash md5 d).length ≤ 63 := by
    rw [length_sessionHash]
    decide
  have hrequest : (requestHash md5 method d).length ≤ 63 := length_hash md5 _
  have hnc : d.nc.text.length ≤ 63 := d.nc.length_le.trans (by decide)
  unfold calcResponse digestResponse
  simp only []
  split
  · exact md5Printf_colons md5 (n := 63) (by simp [md5StrSize])
      (by simp [hsession, hrequest, hnc, d.nonce.length_le, d.cnonce.length_le, length_authWord])
  · exact md5Printf_colons md5 (n := 63) (by simp [md5StrSize])
      (by simp [hsession, hrequest, d.nonce.length_le])

/-- The response is the hash it should be: no text is cut, and none is read
past its end. -/
theorem httpAuthResponseCalc_eq :
    httpAuthResponseCalc md5 method d =
      .ok ({ d with qop := chosenQop d.qop }, digestResponse md5 method d) := by
  unfold httpAuthResponseCalc
  simp only [calcA1_eq, calcA2_eq, calcResponse_eq, bind, Except.bind]
  rfl

end

/-- A response for a `qop` is that for the word that is chosen of it. -/
theorem digestResponse_chosen (md5 : Md5) (method : Field 16) (d : HttpAuth) :
    digestResponse md5 method { d with qop := chosenQop d.qop } = digestResponse md5 method d := by
  have hrequest : requestHash md5 method { d with qop := chosenQop d.qop } =
      requestHash md5 method d := by
    simp only [requestHash, chosenQop_int]
  simp only [digestResponse, hrequest, chosenQop_idem]
  rfl

/-! ## §3 A request -/

/-- Digest credentials whose texts can be told apart from what is around
them, with one word in `qop`. -/
structure Credentials (d : HttpAuth) : Prop where
  type : d.type = .HTTP_AUTH_DIGEST
  texts : ∀ t ∈ [d.username.text, d.realm.text, d.nonce.text, d.uri.text, d.response.text,
    d.cnonce.text, d.opaque_.text, d.nc.text], 0 ∉ t
  quoted : ∀ t ∈ [d.username.text, d.realm.text, d.opaque_.text], quote ∉ t
  bare : ∀ t ∈ [d.nonce.text, d.uri.text, d.response.text, d.cnonce.text, d.nc.text],
    ∀ c ∈ t, c ≠ quote ∧ c ≠ comma ∧ c ≠ space
  qop : d.qop ∈ [AUTH_QOP_NONE, AUTH_QOP_AUTH, AUTH_QOP_AUTH_INT, AUTH_QOP_ELSE]

theorem forall_qop {P : UInt32 → Prop}
    (h : P AUTH_QOP_NONE ∧ P AUTH_QOP_AUTH ∧ P AUTH_QOP_AUTH_INT ∧ P AUTH_QOP_ELSE) {qop : UInt32}
    (hqop : qop ∈ [AUTH_QOP_NONE, AUTH_QOP_AUTH, AUTH_QOP_AUTH_INT, AUTH_QOP_ELSE]) : P qop := by
  simp only [List.mem_cons, List.not_mem_nil, or_false] at hqop
  obtain rfl | rfl | rfl | rfl := hqop
  exacts [h.1, h.2.1, h.2.2.1, h.2.2.2]

def usernameParam (d : HttpAuth) : Param := ⟨usernameName, d.username.text, true⟩

/-- The parameters behind the user name. -/
def requestParams (d : HttpAuth) : List Param :=
  [realmParam d, ⟨nonceName, d.nonce.text, false⟩, ⟨uriName, d.uri.text, false⟩,
    ⟨responseName, d.response.text, false⟩] ++
    paramIf (d.algorithm = .ALG_MD5_SESS) ⟨algorithmName, md5Sess, false⟩ ++
    paramIf (d.cnonce.text ≠ []) ⟨cnonceName, d.cnonce.text, false⟩ ++
    paramIf (d.opaque_.text ≠ []) ⟨opaqueName, d.opaque_.text, true⟩ ++
    paramIf (d.qop ≠ AUTH_QOP_NONE) ⟨qopName, qopText d.qop, true⟩ ++
    paramIf (d.nc.text ≠ []) ⟨ncName, d.nc.text, false⟩

theorem flatten_requestTexts (d : HttpAuth) : (requestTexts d).flatten =
    digestWord ++ space :: ((usernameParam d).text ++ behind (requestParams d)) := by
  have halgorithm := flatten_textIf (d.algorithm = .ALG_MD5_SESS) ⟨algorithmName, md5Sess, false⟩
  have hcnonce := flatten_textIf (d.cnonce.text ≠ []) ⟨cnonceName, d.cnonce.text, false⟩
  have hopaqueText := flatten_textIf (d.opaque_.text ≠ []) ⟨opaqueName, d.opaque_.text, true⟩
  have hqop := flatten_textIf (d.qop ≠ AUTH_QOP_NONE) ⟨qopName, qopText d.qop, true⟩
  have hnc := flatten_textIf (d.nc.text ≠ []) ⟨ncName, d.nc.text, false⟩
  have hfour : behind [realmParam d, ⟨nonceName, d.nonce.text, false⟩, ⟨uriName, d.uri.text, false⟩,
      ⟨responseName, d.response.text, false⟩] = field realmName (quoted d.realm.text) ++
        field nonceName d.nonce.text ++ field uriName d.uri.text ++
        field responseName d.response.text := by
    simp [behind, field, Param.text, realmParam]
  simp only [if_true, Bool.false_eq_true, if_false] at halgorithm hcnonce hopaqueText hqop hnc
  unfold requestTexts requestParams
  simp only [List.flatten_append, behind_append, List.flatten_singleton, halgorithm, hcnonce,
    hopaqueText, hqop, hnc, hfour, usernameParam, Param.text, if_true]
  simp only [List.append_assoc, List.cons_append]

theorem plain_request {d : HttpAuth} (hd : Credentials d) :
    ∀ p ∈ usernameParam d :: requestParams d, p.Plain := by
  obtain ⟨husername, hrealm, hopaqueText⟩ : quote ∉ d.username.text ∧ quote ∉ d.realm.text ∧
      quote ∉ d.opaque_.text := by simpa using hd.quoted
  have hbare := hd.bare
  simp only [List.forall_mem_cons] at hbare
  obtain ⟨hnonce, huri, hresponse, hcnonce, hnc, -⟩ := hbare
  have hqop : quote ∉ qopText d.qop :=
    forall_qop (P := fun qop => quote ∉ qopText qop) (by decide) hd.qop
  rw [requestParams, List.forall_mem_cons]
  simp only [List.forall_mem_append, List.forall_mem_cons]
  refine ⟨plain_quoted (by decide) (by decide) husername,
    ⟨⟨⟨⟨⟨?_, ?_, ?_, ?_, List.forall_mem_nil _⟩, ?_⟩, ?_⟩, ?_⟩, ?_⟩, ?_⟩
  · exact plain_quoted (by decide) (by decide) hrealm
  · exact plain_bare (by decide) (by decide) hnonce
  · exact plain_bare (by decide) (by decide) huri
  · exact plain_bare (by decide) (by decide) hresponse
  · exact forall_paramIf _ (plain_bare (by decide) (by decide) (ne_three (by decide)))
  · exact forall_paramIf _ (plain_bare (by decide) (by decide) hcnonce)
  · exact forall_paramIf _ (plain_quoted (by decide) (by decide) hopaqueText)
  · exact forall_paramIf _ (plain_quoted (by decide) (by decide) hqop)
  · exact forall_paramIf _ (plain_bare (by decide) (by decide) hnc)

theorem noNul_request {d : HttpAuth} (hd : Credentials d) : 0 ∉ (requestTexts d).flatten := by
  have htexts := hd.texts
  simp only [List.forall_mem_cons] at htexts
  obtain ⟨husername, hrealm, hnonce, huri, hresponse, hcnonce, hopaqueText, hnc, -⟩ := htexts
  have hqop : 0 ∉ qopText d.qop :=
    forall_qop (P := fun qop => 0 ∉ qopText qop) (by decide) hd.qop
  have hparams : ∀ p ∈ usernameParam d :: requestParams d, 0 ∉ p.name ∧ 0 ∉ p.value := by
    rw [requestParams, List.forall_mem_cons]
    simp only [List.forall_mem_append, List.forall_mem_cons]
    refine ⟨⟨(by decide : 0 ∉ usernameName), husername⟩,
      ⟨⟨⟨⟨⟨?_, ?_, ?_, ?_, List.forall_mem_nil _⟩, ?_⟩, ?_⟩, ?_⟩, ?_⟩, ?_⟩
    · exact ⟨(by decide : 0 ∉ realmName), hrealm⟩
    · exact ⟨by decide, hnonce⟩
    · exact ⟨by decide, huri⟩
    · exact ⟨by decide, hresponse⟩
    · exact forall_paramIf _ ⟨by decide, by decide⟩
    · exact forall_paramIf _ ⟨(by decide : 0 ∉ cnonceName), hcnonce⟩
    · exact forall_paramIf _ ⟨(by decide : 0 ∉ opaqueName), hopaqueText⟩
    · exact forall_paramIf _ ⟨(by decide : 0 ∉ qopName), hqop⟩
    · exact forall_paramIf _ ⟨(by decide : 0 ∉ ncName), hnc⟩
  have hbehind := noNul_behind hparams
  rw [behind_cons] at hbehind
  rw [flatten_requestTexts]
  simp only [List.mem_cons, List.mem_append, not_or] at hbehind ⊢
  exact ⟨by decide, hbehind.2⟩

/-! ## §4 What the server reads -/

/-- The structure before the parameters of a digest header. -/
def emptied (d₀ : HttpAuth) : HttpAuth := { httpAuthEmpty d₀ with type := .HTTP_AUTH_DIGEST }

/-- An algorithm as the parser reads it. -/
def readAlgorithm (algorithm : Algorithm) : Algorithm :=
  if algorithm = .ALG_MD5_SESS then .ALG_MD5_SESS else .ALG_MD5

section

variable {e : HttpAuth}

theorem take_username (d e : HttpAuth) :
    e.take (usernameParam d) = .ok { e with username := d.username } := by
  rw [take_field e (by decide : findOption usernameName = some .username)]
  simp only [HttpAuth.store, usernameParam, stract_whole, cut_text]

theorem take_uri (d e : HttpAuth) :
    e.take ⟨uriName, d.uri.text, false⟩ = .ok { e with uri := d.uri } := by
  rw [take_field e (by decide : findOption uriName = some .uri)]
  simp only [HttpAuth.store, stract_whole, cut_text]

theorem take_response (d e : HttpAuth) :
    e.take ⟨responseName, d.response.text, false⟩ = .ok { e with response := d.response } := by
  rw [take_field e (by decide : findOption responseName = some .response)]
  simp only [HttpAuth.store, stract_whole, cut_text]

theorem take_cnonce (d : HttpAuth) (he : e.cnonce = default) :
    (paramIf (d.cnonce.text ≠ []) ⟨cnonceName, d.cnonce.text, false⟩).foldlM HttpAuth.take e =
      .ok { e with cnonce := d.cnonce } := by
  apply foldlM_paramIf
  · intro _
    rw [take_field e (by decide : findOption cnonceName = some .cnonce)]
    simp only [HttpAuth.store, stract_whole, cut_text]
  · intro h
    rw [empty_field (not_not.mp h), ← he]

theorem take_nc (d : HttpAuth) (he : e.nc = default) :
    (paramIf (d.nc.text ≠ []) ⟨ncName, d.nc.text, false⟩).foldlM HttpAuth.take e =
      .ok { e with nc := d.nc } := by
  apply foldlM_paramIf
  · intro _
    rw [take_field e (by decide : findOption ncName = some .nc)]
    simp only [HttpAuth.store, stract_whole, cut_text]
  · intro h
    rw [empty_field (not_not.mp h), ← he]

theorem take_sess (algorithm : Algorithm) (he : e.algorithm = .ALG_MD5) :
    (paramIf (algorithm = .ALG_MD5_SESS) ⟨algorithmName, md5Sess, false⟩).foldlM HttpAuth.take e =
      .ok { e with algorithm := readAlgorithm algorithm } := by
  apply foldlM_paramIf
  · intro h
    rw [h]
    rfl
  · intro h
    rw [readAlgorithm, if_neg h, ← he]

theorem take_word {qop : UInt32}
    (hqop : qop ∈ [AUTH_QOP_NONE, AUTH_QOP_AUTH, AUTH_QOP_AUTH_INT, AUTH_QOP_ELSE])
    (he : e.qop = AUTH_QOP_NONE) :
    (paramIf (qop ≠ AUTH_QOP_NONE) ⟨qopName, qopText qop, true⟩).foldlM HttpAuth.take e =
      .ok { e with qop } := by
  obtain ⟨hlast, hlen, hsame⟩ := forall_qop
    (P := fun qop => (qopWord (qopText qop)).2 = [] ∧ (qopText qop).length < 32 ∧
      (qop ≠ AUTH_QOP_NONE → AUTH_QOP_NONE ||| (qopWord (qopText qop)).1 = qop)) (by decide) hqop
  apply foldlM_paramIf
  · intro hne
    have hcut : (Field.cut (qopText qop) : Field 32).text = qopText qop :=
      List.take_of_length_le (by omega)
    have hno : findOption qopName = none := by decide
    have hread : qopWords (qopText qop) AUTH_QOP_NONE = qop :=
      (qopWords_last hlast AUTH_QOP_NONE).trans (hsame hne)
    simp only [HttpAuth.take, hno, hcut]
    show Except.ok { e with qop := qopWords (qopText qop) AUTH_QOP_NONE } = _
    rw [hread]
  · intro h
    rw [not_not.mp h, ← he]

end

/-- What is taken of a request. -/
def readRequest (d₀ d : HttpAuth) : HttpAuth :=
  { emptied d₀ with
    username := d.username, realm := d.realm, nonce := d.nonce, uri := d.uri
    response := d.response, algorithm := readAlgorithm d.algorithm, cnonce := d.cnonce
    opaque_ := d.opaque_, qop := d.qop, nc := d.nc }

theorem take_request (d₀ : HttpAuth) {d : HttpAuth} (hd : Credentials d) :
    (usernameParam d :: requestParams d).foldlM HttpAuth.take (emptied d₀) =
      .ok (readRequest d₀ d) := by
  have h₁ := foldlM_both (foldlM_single (take_username d (emptied d₀)))
    (foldlM_single (take_realm d _))
  have h₂ := foldlM_both (foldlM_both (foldlM_both h₁ (foldlM_single (take_nonce d _)))
    (foldlM_single (take_uri d _))) (foldlM_single (take_response d _))
  have h₃ := foldlM_both (foldlM_both h₂ (take_sess d.algorithm rfl)) (take_cnonce d rfl)
  have h₄ := foldlM_both (foldlM_both h₃ (take_opaqueParam d rfl)) (take_word hd.qop rfl)
  have hall := foldlM_both h₄ (take_nc d rfl)
  exact hall

/-- The parser takes the parameters of a digest header. -/
theorem httpAuthParse_params (o : Outside) (d₀ : HttpAuth) {p : Param} {ps : List Param}
    (hplain : ∀ q ∈ p :: ps, q.Plain) {d : HttpAuth}
    (htake : (p :: ps).foldlM HttpAuth.take (emptied d₀) = .ok d) :
    ∃ fuel, httpAuthParse o fuel d₀ (digestWord ++ space :: (p.text ++ behind ps)) =
      .ok (0, parseEnd o d) := by
  obtain ⟨fuel, hloop⟩ := paramsLoop_behind o _ hplain htake
  rw [skipSeparators_behind (hplain p List.mem_cons_self)] at hloop
  refine ⟨fuel, ?_⟩
  rw [httpAuthParse, scheme_digest]
  exact hloop

/-- A nonce of the client, if it has none. -/
def clientNonce (o : Outside) (cnonce : Field 64) : Field 64 :=
  if cnonce.text = [] then
    Field.cut (hexNumber Http.hexDigits 4 o.rand.1 ++
      hexNumber lowerHexDigits 4 o.rand.2.1 ++ hexNumber lowerHexDigits 4 o.rand.2.2)
  else cnonce

/-- With a nonce, the count is that of the first request. -/
theorem parseEnd_first (o : Outside) {d : HttpAuth} (hsess : d.sessNonce = default)
    (hnonce : d.nonce.text ≠ []) :
    parseEnd o d =
      { d with
        nc := Field.cut firstCount, sessNonce := d.nonce, cnonce := clientNonce o d.cnonce } := by
  have hne : d.nonce ≠ d.sessNonce := by
    intro heq
    exact hnonce (congrArg Field.text (heq.trans hsess))
  unfold parseEnd clientNonce
  simp only [hne, ne_eq, not_false_eq_true, or_true, if_true]
  split <;> rfl

/-- The structure of a server that has read a request. -/
def served (o : Outside) (d₀ d : HttpAuth) : HttpAuth :=
  { readRequest d₀ d with
    nc := Field.cut firstCount, sessNonce := d.nonce, cnonce := clientNonce o d.cnonce }

theorem httpAuthParse_request (b : Base64Writer) (o : Outside) (d₀ : HttpAuth) {d : HttpAuth}
    (hd : Credentials (useNextnonce d)) (hnonce : (useNextnonce d).nonce.text ≠ [])
    (buf : List UInt8) {size : UInt64}
    (hroom : (requestTexts (useNextnonce d)).flatten.length < size.toNat) :
    ∃ fuel, httpAuthParse o fuel d₀ (cstr (written buf (httpAuthRequest b d size).2.2)) =
      .ok (0, served o d₀ (useNextnonce d)) := by
  have htype : d.type = .HTTP_AUTH_DIGEST := by
    have hsame : (useNextnonce d).type = d.type := by
      unfold useNextnonce
      split <;> rfl
    exact hsame ▸ hd.type
  have hne : requestTexts (useNextnonce d) ≠ [] := by simp [requestTexts]
  have htext : cstr (written buf (httpAuthRequest b d size).2.2) =
      (requestTexts (useNextnonce d)).flatten := by
    rw [httpAuthRequest_digest b htype, written_formatted buf size hne hroom,
      cstr_overwrite (noNul_request hd)]
  obtain ⟨fuel, hparse⟩ := httpAuthParse_params o d₀ (plain_request hd) (take_request d₀ hd)
  rw [parseEnd_first (d := readRequest d₀ (useNextnonce d)) o rfl hnonce] at hparse
  rw [htext, flatten_requestTexts]
  exact ⟨fuel, hparse⟩

/-! ## §5 Logins -/

/-- The server calculates the response that it has read. -/
def Accepts (md5 : Md5) (method : Field 16) (password : Field 64) (entity : Option Text)
    (s : HttpAuth) : Prop :=
  ∃ s', httpAuthResponseCalc md5 method { s with password, entity } = .ok (s', s.response.text)

theorem accepts_iff (md5 : Md5) (method : Field 16) (password : Field 64) (entity : Option Text)
    (s : HttpAuth) : Accepts md5 method password entity s ↔
      s.response.text = digestResponse md5 method { s with password, entity } := by
  unfold Accepts
  rw [httpAuthResponseCalc_eq]
  constructor
  · rintro ⟨s', h⟩
    exact (Prod.mk.inj (Except.ok.inj h)).2.symm
  · intro h
    exact ⟨_, by rw [h]⟩

/-- Of the algorithms only the one with sessions makes a difference. -/
theorem digestResponse_readAlgorithm (md5 : Md5) (method : Field 16) (d : HttpAuth) :
    digestResponse md5 method { d with algorithm := readAlgorithm d.algorithm } =
      digestResponse md5 method d := by
  have hiff : readAlgorithm d.algorithm = .ALG_MD5_SESS ↔ d.algorithm = .ALG_MD5_SESS := by
    cases d.algorithm <;> decide
  have hsession : sessionHash md5 { d with algorithm := readAlgorithm d.algorithm } =
      sessionHash md5 d := by
    simp only [sessionHash, hiff]
    rfl
  simp only [digestResponse, hsession]
  rfl

/-- What a server expects of a client, on top of what the client sends. -/
def expected (o : Outside) (password : Field 64) (entity : Option Text) (d : HttpAuth) :
    HttpAuth :=
  { d with nc := Field.cut firstCount, cnonce := clientNonce o d.cnonce, password, entity }

theorem accepts_served_iff (md5 : Md5) (method : Field 16) (password : Field 64)
    (entity : Option Text) (o : Outside) (d₀ d : HttpAuth) :
    Accepts md5 method password entity (served o d₀ d) ↔
      d.response.text = digestResponse md5 method (expected o password entity d) := by
  have hsame := digestResponse_readAlgorithm md5 method (expected o password entity d)
  rw [accepts_iff, ← hsame]
  exact Iff.rfl

/-- The texts of a user, who can be named in a request. -/
structure Identity (username : Field 64) (uri : Field 128) : Prop where
  noNul : 0 ∉ username.text ∧ 0 ∉ uri.text
  username : quote ∉ username.text
  uri : ∀ c ∈ uri.text, c ≠ quote ∧ c ≠ comma ∧ c ≠ space

/-- What a number is written with. -/
def isDigit (c : UInt8) : Prop := c ∈ Http.hexDigits ++ lowerHexDigits

theorem isDigit_plain {c : UInt8} (h : isDigit c) :
    c ≠ 0 ∧ c ≠ quote ∧ c ≠ comma ∧ c ≠ space := by
  have hall : ∀ c ∈ Http.hexDigits ++ lowerHexDigits,
      c ≠ 0 ∧ c ≠ quote ∧ c ≠ comma ∧ c ≠ space := by decide +kernel
  exact hall c h

theorem isDigit_getD {digits : Text} (hsub : digits ⊆ Http.hexDigits ++ lowerHexDigits)
    (hlen : digits.length = 16) {k : Nat} (hk : k < 16) : isDigit (digits.getD k 0) := by
  rw [List.getD_eq_getElem?_getD, List.getElem?_eq_getElem (hlen ▸ hk), Option.getD_some]
  exact hsub (List.getElem_mem _)

theorem isDigit_hexNumber {digits : Text} (hsub : digits ⊆ Http.hexDigits ++ lowerHexDigits)
    (hlen : digits.length = 16) (width n : Nat) : ∀ c ∈ hexNumber digits width n, isDigit c := by
  intro c hc
  rcases List.mem_append.mp hc with hzero | hdigit
  · obtain rfl := List.eq_of_mem_replicate hzero
    exact (by decide +kernel : ascii '0' ∈ Http.hexDigits ++ lowerHexDigits)
  · obtain ⟨k, hk, rfl⟩ := List.mem_map.mp hdigit
    exact isDigit_getD hsub hlen (Nat.digits_lt_base (by decide) (List.mem_reverse.mp hk))

theorem isDigit_md5ToHex (h : Vector UInt8 16) : ∀ c ∈ md5ToHex h, isDigit c := by
  intro c hc
  obtain ⟨x, -, hx⟩ := List.mem_flatMap.mp hc
  have hlower : lowerHexDigits ⊆ Http.hexDigits ++ lowerHexDigits := List.subset_append_right _ _
  have hhigh : (x >>> 4).toNat < 16 := by
    have hlt := x.toNat_lt
    simp only [UInt8.toNat_shiftRight]
    have : x.toNat >>> 4 = x.toNat / 16 := Nat.shiftRight_eq_div_pow _ 4
    show x.toNat >>> 4 < 16
    omega
  have hlow : (x &&& 15).toNat < 16 := by
    have hle : x.toNat &&& 15 ≤ 15 := Nat.and_le_right
    show x.toNat &&& 15 < 16
    omega
  rcases List.mem_cons.mp hx with rfl | hx
  · exact isDigit_getD hlower rfl hhigh
  · obtain rfl := List.mem_singleton.mp hx
    exact isDigit_getD hlower rfl hlow

theorem isDigit_clientNonce (o : Outside) :
    (clientNonce o default).text ≠ [] ∧ ∀ c ∈ (clientNonce o default).text, isDigit c := by
  have hlower : lowerHexDigits ⊆ Http.hexDigits ++ lowerHexDigits := List.subset_append_right _ _
  have hupper : Http.hexDigits ⊆ Http.hexDigits ++ lowerHexDigits := List.subset_append_left _ _
  have hsome : (hexNumber Http.hexDigits 4 o.rand.1).length ≠ 0 := by
    simp only [hexNumber, List.length_append, List.length_replicate]
    omega
  have htext : (clientNonce o default).text = (hexNumber Http.hexDigits 4 o.rand.1 ++
      hexNumber lowerHexDigits 4 o.rand.2.1 ++ hexNumber lowerHexDigits 4 o.rand.2.2).take 63 := rfl
  rw [htext]
  constructor
  · intro hnil
    have hlen := congrArg List.length hnil
    simp only [List.length_take, List.length_append, List.length_nil] at hlen
    omega
  · intro c hc
    have hmem := List.mem_of_mem_take hc
    rw [List.mem_append, List.mem_append] at hmem
    rcases hmem with (h | h) | h
    · exact isDigit_hexNumber hupper rfl _ _ c h
    · exact isDigit_hexNumber hlower rfl _ _ c h
    · exact isDigit_hexNumber hlower rfl _ _ c h

theorem length_textIf_le (c : Prop) [Decidable c] (text : Text) :
    (textIf c text).flatten.length ≤ text.length := by
  unfold textIf
  split
  · simp
  · exact Nat.zero_le _

theorem length_challenge_le {d : HttpAuth} (hd : Challenge d) :
    (responseTexts d).flatten.length < 448 := by
  have hqop : (qopText d.qop).length ≤ 13 := by
    rcases hd.qop with h | h | h | h <;> rw [h] <;> decide
  have hstale : (staleText d.stale).length ≤ 5 := by cases d.stale <;> decide
  have h₁ := length_textIf_le (d.domain.text ≠ []) (field domainName (quoted d.domain.text))
  have h₂ := length_textIf_le (d.opaque_.text ≠ []) (field opaqueName (quoted d.opaque_.text))
  have h₃ := length_textIf_le (d.algorithm = .ALG_MD5_SESS) (field algorithmName md5Sess)
  have h₄ := length_textIf_le (d.qop ≠ AUTH_QOP_NONE) (field qopName (quoted (qopText d.qop)))
  have hrealm := d.realm.lt
  have hdomain := d.domain.lt
  have hnonce := d.nonce.lt
  have hopaqueText := d.opaque_.lt
  unfold responseTexts
  rw [hd.type]
  simp only [List.flatten_append, List.length_append, List.flatten_singleton, field, quoted,
    List.length_cons, List.length_nil] at h₁ h₂ h₃ h₄ ⊢
  have hnames : digestWord.length = 6 ∧ realmName.length = 5 ∧ domainName.length = 6 ∧
      nonceName.length = 5 ∧ opaqueName.length = 6 ∧ staleName.length = 5 ∧
      algorithmName.length = 9 ∧ md5Sess.length = 8 ∧ qopName.length = 3 := by decide
  omega

theorem length_request_le {d : HttpAuth} (hd : Credentials d) :
    (requestTexts d).flatten.length < 640 := by
  have hqop : (qopText d.qop).length ≤ 8 :=
    forall_qop (P := fun qop => (qopText qop).length ≤ 8) (by decide) hd.qop
  have h₁ := length_textIf_le (d.algorithm = .ALG_MD5_SESS) (field algorithmName md5Sess)
  have h₂ := length_textIf_le (d.cnonce.text ≠ []) (field cnonceName d.cnonce.text)
  have h₃ := length_textIf_le (d.opaque_.text ≠ []) (field opaqueName (quoted d.opaque_.text))
  have h₄ := length_textIf_le (d.qop ≠ AUTH_QOP_NONE) (field qopName (quoted (qopText d.qop)))
  have h₅ := length_textIf_le (d.nc.text ≠ []) (field ncName d.nc.text)
  have husername := d.username.lt
  have hrealm := d.realm.lt
  have hnonce := d.nonce.lt
  have huri := d.uri.lt
  have hresponse := d.response.lt
  have hcnonce := d.cnonce.lt
  have hopaqueText := d.opaque_.lt
  have hnc := d.nc.lt
  unfold requestTexts
  simp only [List.flatten_append, List.length_append, List.flatten_singleton, field, quoted,
    List.length_cons, List.length_nil] at h₁ h₂ h₃ h₄ h₅ ⊢
  have hnames : digestWord.length = 6 ∧ usernameName.length = 8 ∧ realmName.length = 5 ∧
      nonceName.length = 5 ∧ uriName.length = 3 ∧ responseName.length = 8 ∧
      algorithmName.length = 9 ∧ md5Sess.length = 8 ∧ cnonceName.length = 6 ∧
      opaqueName.length = 6 ∧ qopName.length = 3 ∧ ncName.length = 2 := by decide
  omega

/-- What is taken of a challenge. -/
def readChallenge (d₀ c : HttpAuth) : HttpAuth :=
  { emptied d₀ with
    realm := c.realm, domain := c.domain, nonce := c.nonce, opaque_ := c.opaque_
    stale := c.stale, algorithm := c.algorithm, qop := readQop c.qop }

/-- The structure of a client that has read a challenge. -/
def challenged (o : Outside) (d₀ c : HttpAuth) : HttpAuth :=
  { readChallenge d₀ c with
    nc := Field.cut firstCount, sessNonce := c.nonce, cnonce := clientNonce o default }

theorem httpAuthParse_challenged (o : Outside) (d₀ : HttpAuth) {c : HttpAuth} (hc : Challenge c)
    (hnonce : c.nonce.text ≠ []) (buf : List UInt8) {size : UInt64} (hsize : 448 ≤ size.toNat) :
    ∃ fuel, httpAuthParse o fuel d₀ (cstr (written buf (httpAuthResponse c size).2)) =
      .ok (0, challenged o d₀ c) := by
  have htake : (realmParam c :: challengeParams c).foldlM HttpAuth.take (emptied d₀) =
      .ok (readChallenge d₀ c) := take_challenge hc rfl rfl rfl rfl
  obtain ⟨fuel, hparse⟩ := httpAuthParse_params o d₀ (plain_challenge hc) htake
  rw [parseEnd_first (d := readChallenge d₀ c) o rfl hnonce] at hparse
  have hroom := Nat.lt_of_lt_of_le (length_challenge_le hc) hsize
  rw [cstr_challenge hc buf hroom, flatten_responseTexts hc.type]
  exact ⟨fuel, hparse⟩

/-- The structure of a client that answers. -/
def answering (md5 : Md5) (method : Field 16) (username password : Field 64) (uri : Field 128)
    (entity : Option Text) (d : HttpAuth) : HttpAuth :=
  let d := { d with username, password, uri, entity }
  { d with qop := chosenQop d.qop, response := Field.cut (digestResponse md5 method d) }

theorem digestResponse_hex (md5 : Md5) (method : Field 16) (d : HttpAuth) :
    (Field.cut (digestResponse md5 method d) : Field 40).text = digestResponse md5 method d :=
  List.take_of_length_le (by rw [digestResponse, length_md5ToHex]; decide)

theorem credentials_answering (md5 : Md5) (method : Field 16) {username : Field 64}
    (password : Field 64) {uri : Field 128} (hlogin : Identity username uri) (entity : Option Text)
    (o : Outside) (d₀ : HttpAuth) {c : HttpAuth} (hc : Challenge c) :
    Credentials (answering md5 method username password uri entity (challenged o d₀ c)) := by
  obtain ⟨hrealm, -, hnonce, hopaqueText⟩ : 0 ∉ c.realm.text ∧ 0 ∉ c.domain.text ∧
      0 ∉ c.nonce.text ∧ 0 ∉ c.opaque_.text := by simpa using hc.texts
  obtain ⟨hrealmQuote, -, hopaqueQuote⟩ : quote ∉ c.realm.text ∧ quote ∉ c.domain.text ∧
      quote ∉ c.opaque_.text := by simpa using hc.quoted
  -- the texts that the client makes up are written with digits
  have hcnonce := (isDigit_clientNonce o).2
  have hcount : ∀ x ∈ firstCount, isDigit x := by
    have hall : firstCount ⊆ Http.hexDigits ++ lowerHexDigits := by decide +kernel
    exact fun x hx => hall hx
  have hresponse : ∀ x ∈ digestResponse md5 method
      { challenged o d₀ c with username, password, uri, entity }, isDigit x :=
    isDigit_md5ToHex _
  rw [← digestResponse_hex] at hresponse
  have hnoNul {t : Text} (h : ∀ x ∈ t, isDigit x) : 0 ∉ t :=
    fun h0 => (isDigit_plain (h 0 h0)).1 rfl
  have hplain {t : Text} (h : ∀ x ∈ t, isDigit x) : ∀ x ∈ t, x ≠ quote ∧ x ≠ comma ∧ x ≠ space :=
    fun x hx => (isDigit_plain (h x hx)).2
  refine ⟨rfl, ?_, ?_, ?_, ?_⟩
  · simp only [List.forall_mem_cons]
    exact ⟨hlogin.noNul.1, hrealm, hnonce, hlogin.noNul.2, hnoNul hresponse, hnoNul hcnonce,
      hopaqueText, hnoNul hcount, List.forall_mem_nil _⟩
  · simp only [List.forall_mem_cons]
    exact ⟨hlogin.username, hrealmQuote, hopaqueQuote, List.forall_mem_nil _⟩
  · simp only [List.forall_mem_cons]
    exact ⟨hc.nonce, hlogin.uri, hplain hresponse, hplain hcnonce, hplain hcount,
      List.forall_mem_nil _⟩
  · show chosenQop (readQop c.qop) ∈ _
    rcases hc.qop with h | h | h | h <;> rw [h] <;> decide

/-- **What the server reads, and what it accepts.** A request that fits its
buffer is read as it was written, but the count is 00000001, whatever the
client has counted, and a client without a nonce of its own gets one. The
response is accepted exactly if it is the one for that. -/
theorem digest_accepted_iff (b : Base64Writer) (o : Outside) (d₀ : HttpAuth) {d : HttpAuth}
    (hd : Credentials (useNextnonce d)) (hnonce : (useNextnonce d).nonce.text ≠ [])
    (buf : List UInt8) {size : UInt64}
    (hroom : (requestTexts (useNextnonce d)).flatten.length < size.toNat) :
    ∃ fuel s, httpAuthParse o fuel d₀ (cstr (written buf (httpAuthRequest b d size).2.2)) =
        .ok (0, s) ∧
      s = served o d₀ (useNextnonce d) ∧
      ∀ md5 method password entity, Accepts md5 method password entity s ↔
        (useNextnonce d).response.text =
          digestResponse md5 method (expected o password entity (useNextnonce d)) := by
  obtain ⟨fuel, hparse⟩ := httpAuthParse_request b o d₀ hd hnonce buf hroom
  exact ⟨fuel, _, hparse, rfl, fun md5 method password entity =>
    accepts_served_iff md5 method password entity o d₀ _⟩

/-- MD5 on the texts of user "u" with password "p" in the realm "home", for the
first two counts. -/
def homeMd5 : Md5 := fun text =>
  let a1 : Vector UInt8 16 :=
    #v[101, 230, 232, 24, 101, 98, 12, 250, 12, 241, 242, 169, 89, 123, 52, 122]
  let a2 : Vector UInt8 16 :=
    #v[113, 153, 140, 100, 174, 163, 122, 231, 112, 32, 196, 156, 0, 247, 63, 168]
  let counted (count : Text) : Text :=
    colons [md5ToHex a1, lit ['7', 'f'], count,
      lit ['0', '0', '0', 'A', '0', '0', '0', 'b', '0', '0', '0', 'c'],
      lit ['a', 'u', 't', 'h'], md5ToHex a2]
  if text = lit ['u', ':', 'h', 'o', 'm', 'e', ':', 'p'] then a1
  else if text = lit ['G', 'E', 'T', ':', '/'] then a2
  else if text = counted firstCount then
    #v[77, 80, 7, 70, 83, 235, 93, 99, 21, 240, 154, 247, 246, 211, 115, 107]
  else if text = counted (hexNumber Http.hexDigits 8 2) then
    #v[45, 86, 88, 201, 170, 163, 8, 75, 157, 62, 157, 11, 106, 44, 179, 220]
  else Vector.replicate 16 0

def homeOutside : Outside := ⟨fun _ => some [], fun _ _ => [], 0, 10, 11, 12⟩

theorem login_home : Identity (Field.cut (lit ['u'])) (Field.cut (lit ['/'])) where
  noNul := by decide
  username := by decide
  uri := (by decide +kernel : ∀ c ∈ lit ['/'], c ≠ quote ∧ c ≠ comma ∧ c ≠ space)

/-- A client that has sent a request before, and counts. -/
def countingClient : HttpAuth :=
  let d := { challenged homeOutside default (homeChallenge AUTH_QOP_AUTH) with
    nc := Field.cut (hexNumber Http.hexDigits 8 2) }
  answering homeMd5 (Field.cut (lit ['G', 'E', 'T'])) (Field.cut (lit ['u']))
    (Field.cut (lit ['p'])) (Field.cut (lit ['/'])) none d

theorem digest_accepted_iff_counting :
    ∃ fuel s, httpAuthParse noOutside fuel default
        (cstr (written [] (httpAuthRequest ⟨id, id⟩ countingClient 640).2.2)) = .ok (0, s) ∧
      ¬ Accepts homeMd5 (Field.cut (lit ['G', 'E', 'T'])) (Field.cut (lit ['p'])) none s := by
  have hcred : Credentials (useNextnonce countingClient) :=
    { type := rfl
      texts := by decide +kernel
      quoted := by decide +kernel
      bare := by decide +kernel
      qop := by decide +kernel }
  obtain ⟨fuel, s, hparse, -, hiff⟩ := digest_accepted_iff ⟨id, id⟩ noOutside default hcred
    (by decide +kernel) [] (by decide +kernel : _ < (640 : UInt64).toNat)
  refine ⟨fuel, s, hparse, fun haccepts => ?_⟩
  have hresponse := (hiff _ _ _ _).mp haccepts
  revert hresponse
  decide +kernel

/-- **A user who answers a challenge is let in.** The challenge is written by
the server and read by the client, who calculates the response and writes the
request, and the server reads it and calculates the same, whatever `qop` it
has asked for. -/
theorem digest_login (md5 : Md5) (b : Base64Writer) (o o' : Outside) (method : Field 16)
    (entity : Option Text) {username : Field 64} (password : Field 64) {uri : Field 128}
    (hlogin : Identity username uri) {c : HttpAuth} (hc : Challenge c) (hnonce : c.nonce.text ≠ [])
    (d₀ s₀ : HttpAuth) (buf buf' : List UInt8) {size size' : UInt64} (hsize : 448 ≤ size.toNat)
    (hsize' : 640 ≤ size'.toNat) :
    ∃ fuel d d' response fuel' s,
      httpAuthParse o fuel d₀ (cstr (written buf (httpAuthResponse c size).2)) = .ok (0, d) ∧
      httpAuthResponseCalc md5 method { d with username, password, uri, entity } =
        .ok (d', response) ∧
      httpAuthParse o' fuel' s₀ (cstr (written buf' (httpAuthRequest b
        { d' with response := Field.cut response } size').2.2)) = .ok (0, s) ∧
      Accepts md5 method password entity s := by
  obtain ⟨fuel, hchallenge⟩ := httpAuthParse_challenged o d₀ hc hnonce buf hsize
  have hcred := credentials_answering md5 method password hlogin entity o d₀ hc
  have hnext : useNextnonce (answering md5 method username password uri entity
      (challenged o d₀ c)) = answering md5 method username password uri entity
      (challenged o d₀ c) := rfl
  have hroom := Nat.lt_of_lt_of_le (length_request_le hcred) hsize'
  obtain ⟨fuel', hrequest⟩ := httpAuthParse_request b o' s₀ (hnext.symm ▸ hcred)
    (hnext.symm ▸ hnonce) buf' (hnext.symm ▸ hroom)
  refine ⟨fuel, _, _, _, fuel', _, hchallenge, httpAuthResponseCalc_eq md5 method _, hrequest, ?_⟩
  rw [hnext, accepts_served_iff]
  have hcnonce : clientNonce o' (clientNonce o default) = clientNonce o default :=
    if_neg (isDigit_clientNonce o).1
  have hchosen := digestResponse_chosen md5 method
    { challenged o d₀ c with username, password, uri, entity }
  have hsame : expected o' password entity (answering md5 method username password uri entity
      (challenged o d₀ c)) = answering md5 method username password uri entity
      (challenged o d₀ c) := by
    unfold expected answering challenged
    simp only [hcnonce]
  rw [hsame]
  exact (digestResponse_hex md5 method _).trans hchosen.symm

theorem digest_login_home :
    ∃ fuel d d' response fuel' s,
      httpAuthParse homeOutside fuel default
        (cstr (written [] (httpAuthResponse (homeChallenge AUTH_QOP_AUTH) 448).2)) = .ok (0, d) ∧
      httpAuthResponseCalc homeMd5 (Field.cut (lit ['G', 'E', 'T']))
        { d with
          username := Field.cut (lit ['u']), password := Field.cut (lit ['p'])
          uri := Field.cut (lit ['/']), entity := none } = .ok (d', response) ∧
      httpAuthParse noOutside fuel' default (cstr (written [] (httpAuthRequest ⟨id, id⟩
        { d' with response := Field.cut response } 640).2.2)) = .ok (0, s) ∧
      Accepts homeMd5 (Field.cut (lit ['G', 'E', 'T'])) (Field.cut (lit ['p'])) none s :=
  digest_login homeMd5 ⟨id, id⟩ homeOutside noOutside (Field.cut (lit ['G', 'E', 'T'])) none
    (Field.cut (lit ['p'])) login_home (challenge_homeChallenge (.inr (.inl rfl))) (by decide)
    default default [] [] (by decide) (by decide)

end Nanio.Auth
