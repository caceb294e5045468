/-
Nanio.Http.Response — the answers of the two HTTP servers as text, and what
the library's own parsers make of them.

`io_http_resp_status` looks the reason up by halving its table
(`io_http_resp_status_eq`). What the servers write is read back by
`io_http_resp_parse` and `io_http_header_parse` (`readBack_responseHead`),
but for one kind of answer: a request whose version could not be read leaves
-1 in `req.version`, which the answer to it shows as -1 and 255
(`responses_read_back`). A call that ends in a fault, as after the refusal of
a first request line in `multi_server_http`, leaves nothing to speak of.
-/
import Nanio.Http.HeaderComplete
import Nanio.Http.HttpCon
import Nanio.Http.RespParse
import Nanio.Lib.SearchRange
import Nanio.Sock.Ipv4Text
import Nanio.Tmp.TmpFormat
import Mathlib.Data.Int.Order.Basic

namespace Nanio.Http

open Nanio.Lib Nanio.Map

/-! ## §1 The reasons -/

/-- `statuses`. -/
def statuses : List (Int × Text) := [
  (101, lit "Switching Protocols".toList),
  (200, lit "Data follows".toList),
  (204, lit "No Content".toList),
  (301, lit "Redirect".toList),
  (302, lit "Redirect".toList),
  (304, lit "User local copy".toList),
  (307, lit "Temporary Redirect".toList),
  (400, lit "Bad request".toList),
  (401, lit "Unauthorized".toList),
  (403, lit "Forbidden".toList),
  (404, lit "Page Not Found".toList),
  (405, lit "Access Denied".toList),
  (413, lit "Request Entity Too Large".toList),
  (415, lit "Unsupported Media Type".toList),
  (420, lit "Process Failed".toList),
  (426, lit "Upgrade Required".toList),
  (500, lit "Web Error".toList),
  (501, lit "Not Implemented".toList),
  (503, lit "Service Unavailable".toList)]

/-- `statuses[i]`. -/
def statusAt (i : Nat) : Int × Text := statuses.getD i (0, [])

/-- `io_http_resp_status`: `left` is the first entry and `right` is behind
the last. -/
def ioHttpRespStatus (status : Int) : Text :=
  match searchRange (fun i => (statusAt i).1) status 0 statuses.length with
  | some i => (statusAt i).2
  | none => []

/-- `http_resp_status_t`. -/
def httpRespStatusCodes : List Int :=
  [101, 200, 204, 301, 307, 400, 401, 403, 404, 405, 415, 420, 426, 500, 501, 503]

theorem statuses_increasing : Increasing (fun i => (statusAt i).1) 0 statuses.length := by
  have hsorted : (statuses.map (·.1)).Pairwise (· < ·) := by decide
  intro i j _ hij hj
  have hi : i < statuses.length := Nat.lt_trans hij hj
  have hlt := List.pairwise_iff_getElem.mp hsorted i j (by simpa using hi) (by simpa using hj) hij
  simpa [statusAt, List.getD_eq_getElem?_getD, hi, hj] using hlt

/-- An entry of the table by its index. -/
theorem statusAt_mem {e : Int × Text} (he : e ∈ statuses) :
    ∃ i, i < statuses.length ∧ statusAt i = e := by
  obtain ⟨i, hi, rfl⟩ := List.mem_iff_getElem.mp he
  exact ⟨i, hi, by simp [statusAt, List.getD_eq_getElem?_getD, hi]⟩

theorem statusAt_getElem {i : Nat} (hi : i < statuses.length) : statusAt i ∈ statuses := by
  simp [statusAt, List.getD_eq_getElem?_getD, hi]

/-- **The search is a look-up in the table**, for every `int`, and each code
the library names has a reason. -/
theorem io_http_resp_status_eq (status : Int) :
    ioHttpRespStatus status = (statuses.lookup status).getD [] ∧
      ∀ code ∈ httpRespStatusCodes, ioHttpRespStatus code ≠ [] := by
  have hlookup : ∀ status, ioHttpRespStatus status = (statuses.lookup status).getD [] := by
    intro status
    cases hl : statuses.lookup status with
    | none =>
      have hno := List.lookup_eq_none_iff.mp hl
      have hsearch : searchRange (fun i => (statusAt i).1) status 0 statuses.length = none := by
        refine (searchRange_eq_none_iff (by decide) statuses_increasing).mpr fun i _ hi hx => ?_
        have hne := hno (statusAt i) (statusAt_getElem hi)
        rw [hx] at hne
        simp at hne
      simp only [ioHttpRespStatus, hsearch, Option.getD_none]
    | some reason =>
      obtain ⟨l₁, l₂, heq, -⟩ := List.lookup_eq_some_iff.mp hl
      obtain ⟨i, hi, he⟩ := statusAt_mem (e := (status, reason)) (by simp [heq])
      have hsearch := searchRange_complete statuses_increasing (Nat.zero_le i) hi
        (congrArg Prod.fst he)
      simp only [ioHttpRespStatus, hsearch, he, Option.getD_some]
  refine ⟨hlookup status, fun code hcode => ?_⟩
  have hnamed : ∀ code ∈ httpRespStatusCodes, (statuses.lookup code).getD [] ≠ [] := by decide
  rw [hlookup code]
  exact hnamed code hcode

/-! ## §2 The answers as text -/

/-- `%d`. -/
def decimalInt (n : Int) : Text :=
  if n < 0 then ascii '-' :: Sock.decimal n.natAbs else Sock.decimal n.toNat

/-- `%03d` of a number that is not negative. -/
def decimal3 (n : Nat) : Text :=
  List.replicate (3 - (Sock.decimal n).length) (ascii '0') ++ Sock.decimal n

/-- `HTTP/%d.%d %03d %s` and a line end, with the two halves of the version. -/
def statusLine (version : Int) (status : Nat) : Text :=
  httpSlash ++ decimalInt (version / 256) ++ ascii '.' :: decimalInt (version % 256) ++
    sp :: decimal3 status ++ sp :: ioHttpRespStatus status ++ crlf

def contentLength (n : Nat) : Field :=
  ⟨lit "Content-Length".toList, 1, Sock.decimal n⟩

def contentType : Field :=
  ⟨lit "Content-Type".toList, 1, lit "text/html; charset=UTF-8".toList⟩

def connectionClose : Field := ⟨connection, 1, lit ['c', 'l', 'o', 's', 'e']⟩

/-- The header fields that `multi_server_http.i` writes: `http_empty_response`
and `http_text_response`. -/
def httpFields : Option Text → List Field
  | none => [contentLength 0]
  | some text => [contentLength text.length, contentType]

/-- The header fields that `rpxys.c` writes. -/
def proxyFields : List Field := [connectionClose, contentLength 0, contentType]

/-- What is passed to `io_stream_writef`. -/
def responseHead (version : Int) (status : Nat) (fields : List Field) : Text :=
  statusLine version status ++ headerText fields

/-! ## §3 Reading an answer back -/

/-- A version that is two digits. -/
def TwoDigits (version : Int) : Prop := ∃ a b : Nat, a < 10 ∧ b < 10 ∧ version = a * 256 + b

theorem decimal_digit {d : Nat} (h : d < 10) : Sock.decimal d = [Sock.digit d] := by
  simp [Sock.decimal, Sock.decimalLoop, h]

theorem digit2num_digit_lt {d : Nat} (h : d < 10) : digit2num (Sock.digit d) = d := by
  have key : ∀ d : Fin 10, digit2num (Sock.digit d) = d := by decide
  exact key ⟨d, h⟩

/-- Three digits, with zeros in front. -/
theorem decimal3_eq {n : Nat} (h : n < 1000) :
    decimal3 n = [Sock.digit (n / 100), Sock.digit (n / 10 % 10), Sock.digit (n % 10)] := by
  have hzero : Sock.digit 0 = ascii '0' := by decide
  unfold decimal3 Sock.decimal
  by_cases h10 : n < 10
  · have h1 : n / 100 = 0 := by omega
    have h2 : n / 10 % 10 = 0 := by omega
    have h3 : n % 10 = n := by omega
    simp [Sock.decimalLoop, h10, h1, h2, h3, hzero]
  · have hq : n / 10 < n := by omega
    by_cases h100 : n < 100
    · have h1 : n / 100 = 0 := by omega
      have h2 : n / 10 < 10 := by omega
      have h3 : n / 10 % 10 = n / 10 := by omega
      obtain ⟨m, rfl⟩ : ∃ m, n = m + 1 := ⟨n - 1, by omega⟩
      simp [Sock.decimalLoop, h10, h1, h2, h3, hzero]
    · have h2 : ¬ n / 10 < 10 := by omega
      have h3 : n / 100 < 10 := by omega
      have h4 : n / 10 / 10 = n / 100 := by omega
      obtain ⟨m, rfl⟩ : ∃ m, n = m + 2 := ⟨n - 2, by omega⟩
      simp only [Sock.decimalLoop, if_neg h10, if_neg h2, h4, if_pos h3]
      rfl

/-- No reason has a line end in it, nor a CR at its end. -/
theorem reason_one_line (status : Int) : ¬ crlf <:+: ioHttpRespStatus status ++ [cr] := by
  have hall : ∀ e ∈ statuses, ¬ crlf <:+: e.2 ++ [cr] := by decide
  unfold ioHttpRespStatus
  split
  · next i hi =>
    obtain ⟨-, hlt, -⟩ := searchRange_sound (by decide) hi
    exact hall _ (statusAt_getElem hlt)
  · decide

/-- The status line of a version of two digits. -/
theorem respParse_statusLine {version : Int} (hv : TwoDigits version) {status : Nat}
    (hs : status < 1000) (resp : IoHttpResp) (rest : Text) :
    ioHttpRespParse resp (statusLine version status ++ rest) =
      .ok (status, ⟨status, version⟩, rest) := by
  obtain ⟨a, b, ha, hb, rfl⟩ := hv
  have hmajor : ((a : Int) * 256 + b) / 256 = a := by omega
  have hminor : ((a : Int) * 256 + b) % 256 = b := by omega
  have hdec : ∀ d : Nat, d < 10 → decimalInt d = [Sock.digit d] := by
    intro d hd
    have hneg : ¬ (d : Int) < 0 := by omega
    rw [decimalInt, if_neg hneg, Int.toNat_natCast, decimal_digit hd]
  have hloose : LooseLine (statusLine (a * 256 + b) status ++ rest) (Sock.digit a) (Sock.digit b) 1
      (Sock.digit (status / 100)) (Sock.digit (status / 10 % 10)) (Sock.digit (status % 10))
      (ioHttpRespStatus status ++ crlf ++ rest) := by
    refine ⟨⟨httpSlash, ?_, by decide, by decide, ?_, ?_⟩, ?_, ?_, ?_⟩
    · rw [statusLine, hmajor, hminor, hdec a ha, hdec b hb, decimal3_eq hs]
      simp [spaces]
    · rw [digit2num_digit_lt ha]; omega
    · rw [digit2num_digit_lt hb]; omega
    · rw [digit2num_digit_lt (by omega)]; omega
    · rw [digit2num_digit_lt (by omega)]; omega
    · rw [digit2num_digit_lt (by omega)]; omega
  have hend : strstr crlf (ioHttpRespStatus status ++ crlf ++ rest) = some (crlf ++ rest) := by
    rw [strstr_eq_some_iff (by decide)]
    exact ⟨_, by rw [List.append_assoc], List.prefix_append _ _, reason_one_line status⟩
  rw [ioHttpRespParse_loose hloose, hend]
  have hstatus : looseStatus (Sock.digit (status / 100)) (Sock.digit (status / 10 % 10))
      (Sock.digit (status % 10)) = status := by
    unfold looseStatus
    rw [digit2num_digit_lt (by omega), digit2num_digit_lt (by omega), digit2num_digit_lt (by omega)]
    omega
  simp only [looseResp, hstatus, digit2num_digit_lt ha, digit2num_digit_lt hb]
  rfl

/-- The parser gives up on the minus sign. -/
theorem respParse_noVersion (status : Nat) (resp : IoHttpResp) (rest : Text) :
    ioHttpRespParse resp (statusLine (-1) status ++ rest) =
      .ok (-1, resp, statusLine (-1) status ++ rest) := by
  have hminus : ¬ digit2num (ascii '-') < 10 := by decide
  have hline : statusLine (-1) status ++ rest = httpSlash ++ (ascii '-' :: ascii '1' :: ascii '.' ::
      (decimalInt (-1 % 256) ++ sp :: decimal3 status ++ sp :: ioHttpRespStatus status ++ crlf ++
        rest)) := by
    have hmajor : decimalInt (-1 / 256) = [ascii '-', ascii '1'] := by decide
    rw [statusLine, hmajor]
    simp
  have hversion : ioHttpMatchVersion (statusLine (-1) status ++ rest) =
      .ok (-1, statusLine (-1) status ++ rest) := by
    rw [hline, ioHttpMatchVersion_agree (by decide) (by decide)]
    simp [hminus]
  rw [ioHttpRespParse, hversion]
  rfl

theorem decimal_chars {n : Nat} {c : UInt8} (hc : c ∈ Sock.decimal n) :
    ∃ d < 10, c = Sock.digit d :=
  (Sock.decimal_numeral n).digits c hc

theorem notMem_decimal {c : UInt8} (h : ∀ d : Fin 10, Sock.digit d ≠ c) (n : Nat) :
    c ∉ Sock.decimal n := by
  intro hc
  obtain ⟨d, hd, heq⟩ := decimal_chars hc
  exact h ⟨d, hd⟩ heq.symm

/-- A text without a space is not trimmed. -/
theorem trimmed_of_notMem {v : Text} (h : sp ∉ v) : trimmed v = v := by
  have hself : ∀ t : Text, sp ∉ t → ioAfterSpace t = t := by
    intro t ht
    cases t with
    | nil => rfl
    | cons c t =>
      have hc : c ≠ sp := fun heq => ht (by simp [heq])
      simp [ioAfterSpace, hc]
  rw [trimmed, hself v h, hself v.reverse (by simpa using h), List.reverse_reverse]

theorem trimmed_decimal (n : Nat) : trimmed (Sock.decimal n) = Sock.decimal n :=
  trimmed_of_notMem (notMem_decimal (by decide +kernel) n)

theorem valid_contentLength (n : Nat) : (contentLength n).Valid where
  name_ne := by simp [contentLength, lit]
  token := by
    have h : ∀ ch ∈ (contentLength 0).name, isHttpTokenChar ch = true := by decide +kernel
    exact h
  no_cr := notMem_decimal (by decide +kernel) n
  no_lf := notMem_decimal (by decide +kernel) n
  text := notMem_decimal (by decide +kernel) n

theorem length_decimal_le {n : Nat} (h : n < 2 ^ 64) : (Sock.decimal n).length ≤ 20 :=
  Tmp.length_decimalLoop_le (k := 19) _ (by omega) []

/-- Fields that fit an empty table are found in it. -/
theorem Fits.found {h : IoHmap} {fields : List Field} (hfits : Fits h [] fields) (hne : fields ≠ [])
    (hvalues : ∀ f ∈ fields, trimmed f.value ≠ []) (o : ArgOrder) :
    ∃ h', ioHttpHeaderParse o h (headerText fields) = .ok (0, h', crlf) ∧
      ∀ f ∈ fields, ∃ p, ioHmapGetc h' f.name = .ok (some p) ∧
        h'.heap.text p = trimmed f.value := by
  obtain ⟨h', haccepts, hholds⟩ := hfits.accepts hne hvalues o
  refine ⟨h', ioHttpHeaderParse_zero_iff.mpr haccepts, fun f hf => ?_⟩
  have hd : Distinct ([] ++ fields.map fun f => (f.name, trimmed f.value)) :=
    List.pairwise_map.mpr hfits.distinct
  have hmem : (f.name, trimmed f.value) ∈ [] ++ fields.map fun f => (f.name, trimmed f.value) :=
    List.mem_map_of_mem hf
  obtain ⟨found, hget, htext⟩ := hholds.getc f.name
  rw [fieldValue_of_mem hd hmem (strcaseEq_eq.mpr rfl)] at htext
  obtain ⟨p, rfl, hp⟩ := Option.map_eq_some_iff.mp htext
  exact ⟨p, hget, hp⟩

theorem fits_empty : Fits (ioHmapCreate 48 8192) [] (httpFields none) where
  holds := hmapHolds_create _ _
  valid := by decide
  new _ _ := rfl
  distinct := by decide
  short := by decide
  room := by decide
  heap := by decide

theorem fits_proxy : Fits (ioHmapCreate 48 8192) [] proxyFields where
  holds := hmapHolds_create _ _
  valid := by decide
  new _ _ := rfl
  distinct := by decide
  short := by decide
  room := by decide
  heap := by decide

theorem fits_text {text : Text} (hlen : text.length < 2 ^ 64) :
    Fits (ioHmapCreate 48 8192) [] (httpFields (some text)) where
  holds := hmapHolds_create _ _
  valid := List.forall_mem_cons.mpr ⟨valid_contentLength _, by decide⟩
  new _ _ := rfl
  distinct := by
    have h : strcaseEq contentType.name (contentLength 0).name = false := by decide
    have hname : (contentLength text.length).name = (contentLength 0).name := rfl
    simp [httpFields, hname, h]
  short := by
    have hle := length_decimal_le hlen
    have h : (trimmed contentType.value).length < 2 ^ 32 := by decide
    have hvalue : (contentLength text.length).value = Sock.decimal text.length := rfl
    simp only [httpFields, List.forall_mem_cons, hvalue, trimmed_decimal, h, List.not_mem_nil,
      false_implies, implies_true, and_true]
    omega
  room := by
    show 0 + 2 ≤ 48
    omega
  heap := by
    have hle := length_decimal_le hlen
    have hn : (contentLength text.length).bytes = 14 + (Sock.decimal text.length).length + 2 := by
      rw [Field.bytes]
      show 14 + (trimmed (Sock.decimal text.length)).length + 2 = _
      rw [trimmed_decimal]
    have ht : contentType.bytes = 38 := by decide
    have hfree : (ioHmapCreate 48 8192).heap.free = 8192 := rfl
    simp only [httpFields, List.map_cons, List.map_nil, List.sum_cons, List.sum_nil, hn, ht, hfree]
    omega

/-- The library's parsers find the status and the version in an answer, and
in its header the length of what comes behind it. -/
structure ReadBack (o : ArgOrder) (version : Int) (status : Nat) (fields : List Field) (n : Nat) :
    Prop where
  line : ∀ resp, ioHttpRespParse resp (responseHead version status fields) =
    .ok (status, ⟨status, version⟩, headerText fields)
  header : ∃ h',
    ioHttpHeaderParse o (ioHmapCreate 48 8192) (headerText fields) = .ok (0, h', crlf) ∧
    ∃ p, ioHmapGetc h' (contentLength n).name = .ok (some p) ∧ h'.heap.text p = Sock.decimal n

/-- The parser refuses the answer. -/
def Refused (version : Int) (status : Nat) (fields : List Field) : Prop :=
  ∀ resp, ioHttpRespParse resp (responseHead version status fields) =
    .ok (-1, resp, responseHead version status fields)

theorem Fits.readBack {fields : List Field} (hfits : Fits (ioHmapCreate 48 8192) [] fields)
    {n : Nat} (hmem : contentLength n ∈ fields) (hvalues : ∀ f ∈ fields, trimmed f.value ≠ [])
    (o : ArgOrder) {version : Int} (hv : TwoDigits version) {status : Nat} (hs : status < 1000) :
    ReadBack o version status fields n where
  line resp := respParse_statusLine hv hs resp (headerText fields)
  header := by
    obtain ⟨h', hparse, hfound⟩ := hfits.found (List.ne_nil_of_mem hmem) hvalues o
    obtain ⟨p, hget, htext⟩ := hfound _ hmem
    exact ⟨h', hparse, p, hget, htext.trans (trimmed_decimal n)⟩

theorem readBack_empty (o : ArgOrder) {version : Int} (hv : TwoDigits version) {status : Nat}
    (hs : status < 1000) : ReadBack o version status (httpFields none) 0 :=
  fits_empty.readBack (by decide) (by decide) o hv hs

theorem readBack_proxy (o : ArgOrder) {version : Int} (hv : TwoDigits version) {status : Nat}
    (hs : status < 1000) : ReadBack o version status proxyFields 0 :=
  fits_proxy.readBack (by decide) (by decide) o hv hs

theorem readBack_text (o : ArgOrder) {text : Text} (hlen : text.length < 2 ^ 64) {version : Int}
    (hv : TwoDigits version) {status : Nat} (hs : status < 1000) :
    ReadBack o version status (httpFields (some text)) text.length := by
  refine (fits_text hlen).readBack List.mem_cons_self ?_ o hv hs
  have hnum : trimmed (contentLength text.length).value ≠ [] := by
    show trimmed (Sock.decimal text.length) ≠ []
    rw [trimmed_decimal]
    exact (Sock.decimal_numeral _).ne_nil
  exact List.forall_mem_cons.mpr ⟨hnum, by decide⟩

/-! ## §4 The answers of a connection -/

/-- A version that the request parser can leave. -/
def VersionLeft (version : Int) : Prop := TwoDigits version ∨ version = -1

theorem matchVersion_left {text q : Text} {v : Int} (h : ioHttpMatchVersion text = .ok (v, q)) :
    VersionLeft v := by
  cases hr : versionReadable text with
  | false =>
    rw [ioHttpMatchVersion_unreadable hr] at h
    cases h
  | true =>
    by_cases hl : ∃ d₁ d₂ rest, LooseVersion text d₁ d₂ rest
    · obtain ⟨d₁, d₂, rest, hl⟩ := hl
      rw [ioHttpMatchVersion_loose hl] at h
      obtain ⟨rfl, rfl⟩ := Prod.mk.inj (Except.ok.inj h)
      obtain ⟨v, -, -, -, h₁, h₂⟩ := hl
      have hn₁ := digit2num_nonneg d₁
      have hn₂ := digit2num_nonneg d₂
      exact .inl ⟨(digit2num d₁).toNat, (digit2num d₂).toNat, by omega, by omega, by omega⟩
    · rw [ioHttpMatchVersion_none hr fun d₁ d₂ rest h => hl ⟨d₁, d₂, rest, h⟩] at h
      obtain ⟨rfl, rfl⟩ := Prod.mk.inj (Except.ok.inj h)
      exact .inr rfl

/-- A request that is accepted has a version. -/
theorem reqParse_version {req req' : IoHttpReq} {text q : Text} {r : Int}
    (h : ioHttpReqParse req text = .ok (r, req', q)) (hreq : VersionLeft req.version) :
    VersionLeft req'.version ∧ (¬ r < 0 → TwoDigits req'.version) := by
  simp only [ioHttpReqParse, except_bind_eq_ok] at h
  obtain ⟨⟨method, p⟩, -, h⟩ := h
  dsimp only at h
  split at h
  · obtain ⟨rfl, rfl, rfl⟩ : -1 = r ∧ req = req' ∧ text = q := by simpa using Except.ok.inj h
    exact ⟨hreq, fun hneg => absurd (by decide) hneg⟩
  · simp only [except_bind_eq_ok] at h
    obtain ⟨c, -, h⟩ := h
    split at h
    · obtain ⟨rfl, rfl, rfl⟩ : -1 = r ∧ _ = req' ∧ text = q := by simpa using Except.ok.inj h
      exact ⟨hreq, fun hneg => absurd (by decide) hneg⟩
    · simp only [reqVersion, except_bind_eq_ok] at h
      obtain ⟨⟨version, p'⟩, hmatch, b, -, h⟩ := h
      have hleft := matchVersion_left hmatch
      split at h
      · obtain ⟨rfl, rfl, rfl⟩ : -1 = r ∧ _ = req' ∧ text = q := by simpa using Except.ok.inj h
        exact ⟨hleft, fun hneg => absurd (by decide) hneg⟩
      · next hversion =>
        obtain ⟨rfl, rfl, rfl⟩ : 0 = r ∧ _ = req' ∧ _ = q := by simpa using Except.ok.inj h
        refine ⟨hleft, fun _ => hleft.resolve_right ?_⟩
        rintro rfl
        exact hversion (by omega)

/-- The answer is read back, or it is the one to a request whose version
could not be read, and is refused. -/
def AnswerRead (o : ArgOrder) (fields : Option Text → List Field) (r : Response) : Prop :=
  (TwoDigits r.version ∧
      ReadBack o r.version r.status.toNat (fields r.text) ((r.text.map List.length).getD 0)) ∨
    (r.version = -1 ∧ r.status = HTTP_BAD_REQUEST ∧
      Refused r.version r.status.toNat (fields r.text))

/-- What is known of a connection whatever it has received. -/
structure Answered (good : Response → Prop) {S : Type} (c : HttpCon S) : Prop where
  version : VersionLeft c.req.version
  written : ∀ r ∈ c.written, good r

section

variable {S : Type} {good : Response → Prop} {c c' : HttpCon S}

theorem Answered.write (h : Answered good c) {status : Int} {text : Option Text}
    (hr : good ⟨c.req.version, status, text⟩) : Answered good (c.write status text) where
  version := h.version
  written r hmem := by
    rcases List.mem_append.mp hmem with hmem | hmem
    · exact h.written r hmem
    · obtain rfl := List.mem_singleton.mp hmem
      exact hr

/-- Receiving writes nothing. -/
theorem recvHead_answered (h : Answered good c) (recv : Recv) :
    match recvHead recv c with
    | .failed => True
    | .closed c' | .part c' | .head c' _ => Answered good c' := by
  simp only [recvHead]
  generalize recv _ = answer
  rcases answer with ⟨- | ⟨b, bytes⟩⟩ | e
  · show Answered good c.close
    unfold HttpCon.close
    split
    · exact ⟨h.version, h.written⟩
    · exact h
  · dsimp only
    generalize strstr crlfcrlf _ = hdrEnd
    cases hdrEnd <;> exact ⟨h.version, h.written⟩
  · trivial

variable [DecidableEq S] {waiting : S}
  {serve : HttpCon S → Text → Text → Except TextFault (Int × HttpCon S)}

theorem conRecv_answered
    (hserve : ∀ c hdrEnd s r c', Answered good c → serve c hdrEnd s = .ok (r, c') →
      Answered good c')
    (h : Answered good c) (recv : Recv) {r : Int}
    (hcall : (conRecv waiting serve recv c).result = .ok (r, c')) : Answered good c' := by
  have hrecv := recvHead_answered h recv
  unfold conRecv at hcall
  split at hcall
  · cases hhead : recvHead recv c with
    | failed =>
      rw [hhead] at hcall
      obtain ⟨-, rfl⟩ := Prod.mk.inj (Except.ok.inj hcall)
      exact h
    | closed c₁ | part c₁ =>
      rw [hhead] at hcall hrecv
      obtain ⟨-, rfl⟩ := Prod.mk.inj (Except.ok.inj hcall)
      exact hrecv
    | head c₁ hdrEnd =>
      rw [hhead] at hcall hrecv
      exact hserve c₁ hdrEnd _ r c' hrecv hcall
  · obtain ⟨-, rfl⟩ := Prod.mk.inj (Except.ok.inj hcall)
    exact h

/-- By induction on the pieces. -/
theorem run_answered
    (hserve : ∀ c hdrEnd s r c', Answered good c → serve c hdrEnd s = .ok (r, c') →
      Answered good c')
    (h : Answered good c) {pieces : List Text}
    (hrun : (run (conRecv waiting serve) c pieces).2 = .ok c') : Answered good c' := by
  induction pieces generalizing c with
  | nil =>
    obtain rfl := Except.ok.inj hrun
    exact h
  | cons piece pieces ih =>
    rw [run] at hrun
    cases hcall : (conRecv waiting serve (delivered piece) c).result with
    | error e => simp [hcall] at hrun
    | ok rc =>
      obtain ⟨r, c₁⟩ := rc
      rw [hcall] at hrun
      exact ih (conRecv_answered hserve h _ hcall) hrun

end

/-! ## §5 The two servers -/

/-- The answers of `multi_server_http.i`. Only a request that is refused may
have no version. -/
inductive HttpAnswer : Response → Prop
  | badRequest {version : Int} (hv : VersionLeft version) :
    HttpAnswer ⟨version, HTTP_BAD_REQUEST, none⟩
  | notFound {version : Int} (hv : TwoDigits version) :
    HttpAnswer ⟨version, HTTP_PAGE_NOT_FOUND, none⟩
  | hello {version : Int} (hv : TwoDigits version) :
    HttpAnswer ⟨version, HTTP_DATA_FOLLOWS, some helloText⟩

/-- Those of `rpxys.c`. -/
inductive ProxyAnswer : Response → Prop
  | badRequest {version : Int} (hv : VersionLeft version) :
    ProxyAnswer ⟨version, HTTP_BAD_REQUEST, none⟩
  | noContent {version : Int} (hv : TwoDigits version) :
    ProxyAnswer ⟨version, HTTP_NO_CONTENT, none⟩

theorem httpEnd_answered {good : Response → Prop} {c c' : HttpCon HttpState} (h : Answered good c)
    (hend : httpEnd c = .ok c') : Answered good c' := by
  unfold httpEnd at hend
  split at hend
  · cases hend
  · obtain ⟨v, -, hend⟩ := except_bind_eq_ok.mp hend
    split at hend <;> obtain rfl := Except.ok.inj hend <;> exact ⟨h.version, h.written⟩

theorem httpEmptyResponse_answered {good : Response → Prop} {c c' : HttpCon HttpState}
    {status r : Int} (h : Answered good c) (hr : good ⟨c.req.version, status, none⟩)
    (hcall : httpEmptyResponse c status = .ok (r, c')) : Answered good c' := by
  obtain ⟨c₁, hend, hpure⟩ := except_bind_eq_ok.mp hcall
  obtain ⟨-, rfl⟩ := Prod.mk.inj (Except.ok.inj hpure)
  exact httpEnd_answered (h.write hr) hend

theorem httpTextResponse_answered {good : Response → Prop} {c c' : HttpCon HttpState}
    {status r : Int} {text : Text} (h : Answered good c)
    (hr : good ⟨c.req.version, status, some text⟩)
    (hcall : httpTextResponse c status text = .ok (r, c')) : Answered good c' := by
  obtain ⟨c₁, hend, hpure⟩ := except_bind_eq_ok.mp hcall
  obtain ⟨-, rfl⟩ := Prod.mk.inj (Except.ok.inj hpure)
  exact httpEnd_answered (h.write hr) hend

theorem processRequest_answered {c c' : HttpCon HttpState} {r : Int} (h : Answered HttpAnswer c)
    (hv : TwoDigits c.req.version) (hcall : httpConProcessRequest c = .ok (r, c')) :
    Answered HttpAnswer c' := by
  unfold httpConProcessRequest at hcall
  have hput : ∀ c₁ : HttpCon HttpState, c₁ = (if c.req.method = HttpReqMethod.PUT.code then
      { c with state := .ST_RECV_BODY } else c) → c₁.req = c.req ∧ c₁.written = c.written := by
    rintro c₁ rfl
    split <;> exact ⟨rfl, rfl⟩
  generalize hc₁ : (if c.req.method = HttpReqMethod.PUT.code then
      { c with state := .ST_RECV_BODY } else c) = c₁ at hcall
  obtain ⟨hreq, hwritten⟩ := hput c₁ hc₁.symm
  have h₁ : Answered HttpAnswer c₁ := ⟨hreq ▸ h.version, hwritten ▸ h.written⟩
  have hv₁ : TwoDigits c₁.req.version := hreq ▸ hv
  dsimp only at hcall
  split at hcall
  · exact httpEmptyResponse_answered h₁ (.notFound hv₁) hcall
  · exact httpTextResponse_answered h₁ (.hello hv₁) hcall

section

variable (o : ArgOrder)

theorem httpConServe_answered (c : HttpCon HttpState) (hdrEnd s : Text) (r : Int)
    (c' : HttpCon HttpState) (h : Answered HttpAnswer c)
    (hcall : httpConServe o c hdrEnd s = .ok (r, c')) : Answered HttpAnswer c' := by
  obtain ⟨⟨pr, req, q⟩, hparse, hcall⟩ := except_bind_eq_ok.mp hcall
  obtain ⟨hleft, haccepted⟩ := reqParse_version hparse h.version
  have h₁ : ∀ c₁ : HttpCon HttpState, c₁.req = req → c₁.written = c.written →
      Answered HttpAnswer c₁ :=
    fun c₁ hr hw => ⟨hr ▸ hleft, hw ▸ h.written⟩
  dsimp only at hcall
  split at hcall
  · refine httpEmptyResponse_answered ?_ ?_ hcall
    · exact h₁ _ rfl rfl
    · exact .badRequest hleft
  · next hneg =>
    obtain ⟨⟨pr', params, q'⟩, -, hcall⟩ := except_bind_eq_ok.mp hcall
    dsimp only at hcall
    split at hcall
    · refine httpEmptyResponse_answered ?_ ?_ hcall
      · exact h₁ _ rfl rfl
      · exact .badRequest hleft
    · obtain ⟨⟨r', c₂⟩, hprocess, hpure⟩ := except_bind_eq_ok.mp hcall
      obtain ⟨-, rfl⟩ := Prod.mk.inj (Except.ok.inj hpure)
      refine processRequest_answered ?_ ?_ hprocess
      · exact h₁ _ rfl rfl
      · exact haccepted hneg

theorem proxyServe_answered (c : HttpCon ProxyState) (hdrEnd s : Text) (r : Int)
    (c' : HttpCon ProxyState) (h : Answered ProxyAnswer c)
    (hcall : proxyServe o c hdrEnd s = .ok (r, c')) : Answered ProxyAnswer c' := by
  obtain ⟨⟨pr, req, q⟩, hparse, hcall⟩ := except_bind_eq_ok.mp hcall
  obtain ⟨hleft, haccepted⟩ := reqParse_version hparse h.version
  have hanswer : ∀ (c₁ : HttpCon ProxyState) (status : Int), c₁.req = req → c₁.written = c.written →
      ProxyAnswer ⟨req.version, status, none⟩ →
      Answered ProxyAnswer (proxyEmptyResponse c₁ status).2 := by
    intro c₁ status hr hw hgood
    have h₁ : Answered ProxyAnswer c₁ := ⟨hr ▸ hleft, hw ▸ h.written⟩
    have h₂ : Answered ProxyAnswer (c₁.write status none) := h₁.write (hr ▸ hgood)
    exact ⟨h₂.version, h₂.written⟩
  dsimp only at hcall
  split at hcall
  · obtain ⟨-, rfl⟩ := Prod.mk.inj (Except.ok.inj hcall)
    exact hanswer _ _ rfl rfl (.badRequest hleft)
  · next hneg =>
    obtain ⟨⟨pr', params, q'⟩, -, hcall⟩ := except_bind_eq_ok.mp hcall
    dsimp only at hcall
    split at hcall
    · obtain ⟨-, rfl⟩ := Prod.mk.inj (Except.ok.inj hcall)
      exact hanswer _ _ rfl rfl (.badRequest hleft)
    · obtain ⟨-, rfl⟩ := Prod.mk.inj (Except.ok.inj hcall)
      exact hanswer _ _ rfl rfl (.noContent (haccepted hneg))

end

theorem answered_accepted {S : Type} (good : Response → Prop) (fd : Int) (waiting : S) :
    Answered good (accepted fd waiting) where
  version := .inl ⟨0, 0, by decide, by decide, rfl⟩
  written r hr := absurd hr (by simp [accepted])

/-- The answer to a request without a version is refused. -/
theorem answerRead_badRequest (o : ArgOrder) {version : Int} (hv : VersionLeft version)
    {fields : Option Text → List Field}
    (hread : TwoDigits version → ReadBack o version HTTP_BAD_REQUEST.toNat (fields none) 0) :
    AnswerRead o fields ⟨version, HTTP_BAD_REQUEST, none⟩ := by
  rcases hv with hv | rfl
  · exact .inl ⟨hv, hread hv⟩
  · exact .inr ⟨rfl, rfl, fun resp => respParse_noVersion _ resp _⟩

theorem status_lt : HTTP_PAGE_NOT_FOUND.toNat < 1000 ∧ HTTP_DATA_FOLLOWS.toNat < 1000 ∧
    HTTP_NO_CONTENT.toNat < 1000 := by
  decide

theorem HttpAnswer.read (o : ArgOrder) {r : Response} (h : HttpAnswer r) :
    AnswerRead o httpFields r := by
  cases h with
  | badRequest hv => exact answerRead_badRequest o hv fun hv => readBack_empty o hv (by decide)
  | notFound hv => exact .inl ⟨hv, readBack_empty o hv status_lt.1⟩
  | hello hv => exact .inl ⟨hv, readBack_text o (by decide) hv status_lt.2.1⟩

theorem ProxyAnswer.read (o : ArgOrder) {r : Response} (h : ProxyAnswer r) :
    AnswerRead o (fun _ => proxyFields) r := by
  cases h with
  | badRequest hv => exact answerRead_badRequest o hv fun hv => readBack_proxy o hv (by decide)
  | noContent hv => exact .inl ⟨hv, readBack_proxy o hv status_lt.2.2⟩

/-- **What the servers write, the library reads.** In every run of a
connection that returns, of either server and with any input, each answer is
read back by `io_http_resp_parse` and `io_http_header_parse` with its version,
its status and the length of its text; the parser refuses it only where it
answers a request whose version could not be read. -/
theorem responses_read_back (o : ArgOrder) (fd : Int) (pieces : List Text) :
    (∀ c, (run (vHttpConRecv o) (accepted fd .ST_RECV_HEADER) pieces).2 = .ok c →
      ∀ r ∈ c.written, AnswerRead o httpFields r) ∧
    (∀ c, (run (proxyStreamRecv o) (accepted fd .ST_RECV_HEADER) pieces).2 = .ok c →
      ∀ r ∈ c.written, AnswerRead o (fun _ => proxyFields) r) :=
  ⟨fun _ hrun r hr => HttpAnswer.read o
      ((run_answered (httpConServe_answered o) (answered_accepted _ fd _) hrun).written r hr),
    fun _ hrun r hr => ProxyAnswer.read o
      ((run_answered (proxyServe_answered o) (answered_accepted _ fd _) hrun).written r hr)⟩

end Nanio.Http
