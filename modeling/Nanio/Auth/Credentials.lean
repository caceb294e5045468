/-
Nanio.Auth.Credentials — credentials of the basic scheme, written by
`http_auth_request` and read by `http_auth_parse`.

The parser looks for an equals sign first, and takes what it finds for a
parameter. In credentials it finds the padding: what is in front of it
counts as a name, and the user name and the password are left empty. So the
credentials are read as they were written exactly if their encoding has no
padding (`credentials_recovered_iff`).

`b64_encode`, `b64_encoded_len` and `b64_decode` are not in the library. They
are taken to be base64 with padding (`StandardBase64`).
-/
import Nanio.Auth.ChallengeRoundTrip
import Nanio.Lib.Base64

namespace Nanio.Auth

open Nanio.Lib Nanio.Tmp

/-! ## §1 What is written -/

/-- The encoder writes base64 and a NUL, and asks for no more room than
that. The decoder leaves the bytes that the text stands for, if they are a
text that fits. -/
structure StandardBase64 (b : Base64Writer) (o : Outside) : Prop where
  encode : ∀ bytes, b.encode bytes = base64 bytes ++ [0]
  encodedLen : ∀ len, b.encodedLen len ≤ 4 * ((len + 2) / 3) + 1
  decode : ∀ size text, 0 ∉ text → text.length < size → o.b64Decode size (base64 text) = text

/-- A user name and a password that can be told apart. -/
structure Login (d : HttpAuth) : Prop where
  type : d.type = .HTTP_AUTH_BASIC
  username : d.username.text ≠ []
  password : d.password.text ≠ []
  texts : ∀ t ∈ [d.username.text, d.password.text], 0 ∉ t
  colon : ascii ':' ∉ d.username.text

theorem Login.noNul {d : HttpAuth} (hd : Login d) : 0 ∉ (userpass d).text := by
  obtain ⟨husername, hpassword, -⟩ : 0 ∉ d.username.text ∧ 0 ∉ d.password.text ∧ True := by
    simpa using hd.texts
  simp only [userpass, List.mem_append, List.mem_cons, not_or]
  exact ⟨husername, by decide, hpassword⟩

/-- What is written for a login. -/
def loginText (d : HttpAuth) : Text := basicWord ++ space :: base64 (userpass d).text

theorem length_loginText (d : HttpAuth) :
    (loginText d).length = basicWord.length + 1 + (base64 (userpass d).text).length := by
  simp only [loginText, List.length_append, List.length_cons]
  omega

/-- A buffer that takes the text passes the test for its size. -/
theorem not_tooSmall {b : Base64Writer} {o : Outside} (hb : StandardBase64 b o) {d : HttpAuth}
    {size : UInt64} (hroom : (loginText d).length < size.toNat) :
    ¬ tooSmall b size basicWord.length (userpass d).text.length := by
  have hsize := size.toNat_lt
  have hword : basicWord.length = 5 := rfl
  have hasks := hb.encodedLen (userpass d).text.length
  have hlong := length_base64 (userpass d).text
  rw [length_loginText] at hroom
  unfold tooSmall toUnsignedLong
  omega

theorem httpAuthRequest_login {b : Base64Writer} {o : Outside} (hb : StandardBase64 b o)
    {d : HttpAuth} (hd : Login d) {size : UInt64} (hroom : (loginText d).length < size.toNat) :
    httpAuthRequest b d size =
      (0, d, (formatted size [basicWord]).steps ++
        [⟨basicWord.length, none, [space]⟩,
          ⟨basicWord.length + 1, none, base64 (userpass d).text ++ [0]⟩]) := by
  have hboth : ¬ (d.username.text = [] ∨ d.password.text = []) :=
    not_or.mpr ⟨hd.username, hd.password⟩
  have hpos : (formatted size [basicWord]).pos = basicWord.length := formatted_pos size _
  simp only [httpAuthRequest, hd.type, start_snprintf, hpos, if_neg hboth,
    if_neg (not_tooSmall hb hroom), hb.encode]

/-- The text in the buffer that a login is written to. -/
theorem cstr_login {b : Base64Writer} {o : Outside} (hb : StandardBase64 b o) {d : HttpAuth}
    (hd : Login d) (buf : List UInt8) {size : UInt64} (hroom : (loginText d).length < size.toNat) :
    cstr (written buf (httpAuthRequest b d size).2.2) = loginText d := by
  have hword : [basicWord].flatten.length < size.toNat := by
    rw [List.flatten_singleton]
    rw [length_loginText] at hroom
    omega
  have hspace : overwrite (overwrite buf 0 (basicWord ++ [0])) basicWord.length [space] =
      overwrite buf 0 (basicWord ++ [space]) := overwrite_overwrite buf (Nat.le_refl 1)
  have hcode :
      overwrite (overwrite buf 0 (basicWord ++ [space] ++ [])) (basicWord ++ [space]).length
        (base64 (userpass d).text ++ [0]) =
      overwrite buf 0 (basicWord ++ [space] ++ (base64 (userpass d).text ++ [0])) :=
    overwrite_overwrite buf (Nat.zero_le _)
  rw [List.append_nil, List.length_append, List.length_singleton] at hcode
  have hnoNul : 0 ∉ loginText d := by
    simp only [loginText, List.mem_append, List.mem_cons, not_or]
    exact ⟨by decide, by decide, not_mem_base64 _ (by decide)⟩
  have htext : basicWord ++ [space] ++ (base64 (userpass d).text ++ [0]) = loginText d ++ [0] := by
    simp only [loginText, List.append_assoc, List.cons_append, List.nil_append]
  rw [httpAuthRequest_login hb hd hroom, written_append,
    written_formatted buf size (List.cons_ne_nil _ _) hword, List.flatten_singleton]
  show cstr (overwrite (overwrite (overwrite buf 0 (basicWord ++ [0])) basicWord.length [space])
    (basicWord.length + 1) (base64 (userpass d).text ++ [0])) = _
  rw [hspace, hcode, htext, cstr_overwrite hnoNul]

/-! ## §2 What is read -/

/-- The parser returns 0 and has the user name and the password. -/
def RecoversLogin (o : Outside) (d₀ : HttpAuth) (text : Text) (d : HttpAuth) : Prop :=
  ∃ fuel d', httpAuthParse o fuel d₀ text = .ok (0, d') ∧ d'.username = d.username ∧
    d'.password = d.password

/-- The structure where the loop starts with credentials. -/
def basicStart (d₀ : HttpAuth) : HttpAuth := { httpAuthEmpty d₀ with type := .HTTP_AUTH_BASIC }

theorem httpAuthParse_basic (o : Outside) (fuel : Nat) (d₀ : HttpAuth) (rest : Text) :
    httpAuthParse o fuel d₀ (basicWord ++ space :: rest) =
      paramsLoop o fuel (basicStart d₀) (some rest) := by
  have hskip : skipSpaces (basicWord ++ space :: rest) = basicWord ++ space :: rest := rfl
  have hdigest : Map.strncaseEq (basicWord ++ space :: rest) digest 7 = false := rfl
  have hbasic : Map.strncaseEq (basicWord ++ space :: rest) basic 6 = true := rfl
  rw [httpAuthParse, scheme, hskip]
  simp only [hdigest, hbasic, Bool.false_eq_true, if_false, if_true]
  rfl

/-- The decoded text is taken apart where the writer put it together. -/
theorem basicCredentials_login {b : Base64Writer} {o : Outside} (hb : StandardBase64 b o)
    {d : HttpAuth} (hd : Login d) (e : HttpAuth) :
    basicCredentials o e (base64 (userpass d).text) =
      (0, { e with username := d.username, password := d.password }) := by
  have hcolon := (strchr_eq_some_iff (ascii ':') (userpass d).text _).mpr
    ⟨d.username.text, d.password.text, rfl, rfl, hd.colon⟩
  have hlen : ((userpass d).text.length : Int) - (ascii ':' :: d.password.text).length =
      d.username.text.length := by
    simp only [userpass, List.length_append]
    omega
  rw [basicCredentials]
  simp only [hb.decode 128 _ hd.noNul (userpass d).lt, hcolon, hlen]
  simp only [userpass, stract_front, stract_whole, cut_text, List.drop_one, List.tail_cons]

theorem skipSpaces_base64 (bytes : List UInt8) : skipSpaces (base64 bytes) = base64 bytes := by
  have hno : space ∉ base64 bytes := not_mem_base64 bytes (by decide)
  cases htext : base64 bytes with
  | nil => rfl
  | cons c text =>
    rw [htext, List.mem_cons, not_or] at hno
    simp [skipSpaces, Ne.symm hno.1]

/-- Without padding there is no equals sign, and the credentials are read. -/
theorem recoversLogin_whole {b : Base64Writer} {o : Outside} (hb : StandardBase64 b o)
    {d : HttpAuth} (hd : Login d) (d₀ : HttpAuth) (h : (userpass d).text.length % 3 = 0) :
    RecoversLogin o d₀ (loginText d) d := by
  have hfind := (strchr_eq_none_iff equals _).mpr (pad_not_mem_base64 h)
  have hround : parseRound o (basicStart d₀) (base64 (userpass d).text) =
      .ok (.returned 0 { basicStart d₀ with username := d.username, password := d.password }) := by
    simp only [parseRound, skipSpaces_base64, hfind, basicCredentials_login hb hd]
    rfl
  have hne : base64 (userpass d).text ≠ [] := by
    rw [← List.length_pos_iff, length_base64]
    simp only [userpass, List.length_append, List.length_cons]
    omega
  refine ⟨1, { basicStart d₀ with username := d.username, password := d.password }, ?_, rfl, rfl⟩
  rw [loginText, httpAuthParse_basic]
  exact paramsLoop_returned hne hround 0

/-- No parameter is the password. -/
theorem storeParam_password {o : Outside} {start : Text} {d d' : HttpAuth} {id : Text}
    {value : Option (Text × Int)} (h : storeParam o start d id value = .ok d') :
    d'.password = d.password := by
  rcases storeParam_ok h with ⟨opt, v, len, -, -, rfl⟩ | ⟨-, rfl⟩ | ⟨-, qop, algorithm, stale, rfl⟩
  · cases opt <;> rfl
  · rfl
  · rfl

/-- The padding is taken for an equals sign, with nothing behind it. -/
theorem parseRound_padded (o : Outside) (d : HttpAuth) {front rest : Text} (hfront : pad ∉ front)
    (hrest : rest = [] ∨ rest = [pad]) :
    ∃ e, parseRound o d (front ++ pad :: rest) = .ok (.goesOn e none) ∧
      e.password = d.password := by
  have hfront' : equals ∉ skipSpaces front := fun h => hfront ((List.dropWhile_suffix _).mem h)
  have hfind := (strchr_eq_some_iff equals _ _).mpr ⟨skipSpaces front, rest, rfl, rfl, hfront'⟩
  have hskip : skipSpaces (front ++ pad :: rest) = skipSpaces front ++ equals :: rest :=
    skipSpaces_param front rest
  obtain ⟨w, hvalue⟩ : ∃ w, paramValue rest = (some w, none) := by
    rcases hrest with rfl | rfl <;> exact ⟨_, rfl⟩
  simp only [parseRound, hskip, hfind, List.drop_one, List.tail_cons, hvalue]
  rcases storeParam_cases o (front ++ pad :: rest) d _ (some w) with ⟨e, he, -⟩ | ⟨hno, -⟩
  · rw [he]
    exact ⟨e, rfl, storeParam_password he⟩
  · cases hno

/-- With padding the call returns 0 and leaves no password. -/
theorem httpAuthParse_padded (o : Outside) (d₀ d : HttpAuth)
    (h : (userpass d).text.length % 3 ≠ 0) :
    ∃ e, httpAuthParse o 2 d₀ (loginText d) = .ok (0, e) ∧ e.password.text = [] := by
  obtain ⟨front, rest, htext, hfront, hrest⟩ := base64_padded h
  obtain ⟨e, hround, hpassword⟩ := parseRound_padded o (basicStart d₀) hfront hrest
  obtain ⟨nc, sessNonce, cnonce, hend⟩ := parseEnd_keeps o e
  refine ⟨parseEnd o e, ?_, ?_⟩
  · rw [loginText, httpAuthParse_basic, htext, paramsLoop_goesOn (by simp) hround]
    rfl
  · rw [hend]
    exact congrArg Field.text hpassword

theorem recoversLogin_iff {b : Base64Writer} {o : Outside} (hb : StandardBase64 b o)
    {d : HttpAuth} (hd : Login d) (d₀ : HttpAuth) :
    RecoversLogin o d₀ (loginText d) d ↔ (userpass d).text.length % 3 = 0 := by
  constructor
  · rintro ⟨fuel, d', hparse, -, hpassword⟩
    by_contra hpadded
    obtain ⟨e, hparse', hempty⟩ := httpAuthParse_padded o d₀ d hpadded
    obtain ⟨-, rfl⟩ := Prod.mk.inj (httpAuthParse_unique o hparse hparse')
    exact hd.password (hpassword ▸ hempty)
  · exact recoversLogin_whole hb hd d₀

/-- Credentials that fit the buffer are read as they were written exactly if
user name, colon and password come in threes. -/
theorem credentials_recovered_iff {b : Base64Writer} {o : Outside} (hb : StandardBase64 b o)
    (d₀ : HttpAuth) {d : HttpAuth} (hd : Login d) (buf : List UInt8) {size : UInt64}
    (hroom : (loginText d).length < size.toNat) :
    RecoversLogin o d₀ (cstr (written buf (httpAuthRequest b d size).2.2)) d ↔
      (d.username.text.length + 1 + d.password.text.length) % 3 = 0 := by
  have hlen : (userpass d).text.length = d.username.text.length + 1 + d.password.text.length := by
    simp only [userpass, List.length_append, List.length_cons]
    omega
  rw [cstr_login hb hd buf hroom, recoversLogin_iff hb hd, hlen]

/-- An encoder that asks for the room that it uses. -/
def base64Writer : Base64Writer :=
  ⟨fun bytes => base64 bytes ++ [0], fun len => 4 * ((len + 2) / 3) + 1⟩

/-- A decoder that leaves as many bytes as fit in front of a NUL. -/
def withDecoder : Outside :=
  { noOutside with b64Decode := fun size text => (unbase64 text).take (size - 1) }

theorem standardBase64_base64Writer : StandardBase64 base64Writer withDecoder where
  encode _ := rfl
  encodedLen _ := Nat.le_refl _
  decode size text _ hfits := by
    show (unbase64 (base64 text)).take (size - 1) = text
    rw [unbase64_base64, List.take_of_length_le (by omega)]

/-- The user `me` with a password. -/
def loginOf (password : List Char) : HttpAuth :=
  { (default : HttpAuth) with
    type := .HTTP_AUTH_BASIC
    username := Field.cut (lit ['m', 'e'])
    password := Field.cut (lit password) }

theorem login_loginOf {password : List Char}
    (h : password = ['f', 'o', 'o'] ∨ password = ['p', 'w']) : Login (loginOf password) := by
  rcases h with rfl | rfl
  · exact ⟨rfl, by decide, by decide, by decide, by decide⟩
  · exact ⟨rfl, by decide, by decide, by decide, by decide⟩

theorem credentials_recovered_foo :
    RecoversLogin withDecoder default
      (cstr (written [] (httpAuthRequest base64Writer (loginOf ['f', 'o', 'o']) 64).2.2))
      (loginOf ['f', 'o', 'o']) :=
  (credentials_recovered_iff standardBase64_base64Writer default (login_loginOf (.inl rfl)) []
    (by decide)).mpr (by decide)

/-- The user `me` with the password `pw`. -/
theorem credentials_not_recovered :
    ¬ ∀ (b : Base64Writer) (o : Outside) (d₀ d : HttpAuth) (buf : List UInt8) (size : UInt64),
      StandardBase64 b o → Login d → (loginText d).length < size.toNat →
        RecoversLogin o d₀ (cstr (written buf (httpAuthRequest b d size).2.2)) d := by
  intro h
  have hd : Login (loginOf ['p', 'w']) := login_loginOf (.inr rfl)
  have hroom : (loginText (loginOf ['p', 'w'])).length < (64 : UInt64).toNat := by decide
  have hread := h base64Writer withDecoder default _ [] 64 standardBase64_base64Writer hd hroom
  rw [cstr_login standardBase64_base64Writer hd [] hroom,
    recoversLogin_iff standardBase64_base64Writer hd] at hread
  exact absurd hread (by decide)

end Nanio.Auth
