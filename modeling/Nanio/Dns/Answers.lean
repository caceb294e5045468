/-
Nanio.Dns.Answers — a response read back by `parse_dns_response`, and by the
lookups of `oi_dns.c`.

A response repeats the question and has records behind it, each with a name
(labels, or pointers to where they stand before), a type, a class, a time and
data. What the parser returns are the addresses among them, in order and up
to `res_limit`. It asks one thing of the last record that is not in the
format: eight bytes are read for its TTL, so that it needs two bytes of data,
or two bytes behind it (`response_read_back_iff`). A lookup that is sent such
responses only returns the addresses of the first (`lookup_addresses`).
-/
import Nanio.Dns.Resolver
import Nanio.Sock.HostAddr

namespace Nanio.Dns

open Nanio.Lib Nanio.Sock

/-! ## §1 Responses -/

/-- What a record says: an address in the Internet, or something else. -/
inductive Rdata where
  | address (ip : UInt32)
  | other (type class_ : UInt16) (data : List UInt8)

namespace Rdata

def type : Rdata → UInt16
  | address _ => 1
  | other type _ _ => type

def class_ : Rdata → UInt16
  | address _ => 1
  | other _ class_ _ => class_

def data : Rdata → List UInt8
  | address ip => htonl ip
  | other _ _ data => data

def ip? : Rdata → Option UInt32
  | address ip => some ip
  | other _ _ _ => none

/-- The length has room in its field, and something else is not an address. -/
def Plain : Rdata → Prop
  | address _ => True
  | other type class_ data => data.length < 2 ^ 16 ∧ ¬ (type = 1 ∧ class_ = 1 ∧ data.length = 4)

end Rdata

/-- A record with its name as it is written. -/
structure Answer where
  owner : List UInt8
  ttl : UInt32
  rdata : Rdata

/-- What stands behind the name. -/
def Answer.fields (a : Answer) : List UInt8 :=
  htons a.rdata.type ++ (htons a.rdata.class_ ++ (htonl a.ttl ++
    (htons (UInt16.ofNat a.rdata.data.length) ++ a.rdata.data)))

def Answer.bytes (a : Answer) : List UInt8 := a.owner ++ a.fields

/-- The addresses among some answers. -/
def addresses (answers : List Answer) : List UInt32 := answers.filterMap fun a => a.rdata.ip?

/-- A response for `host`, with other sections behind the answers. -/
structure Response where
  id : UInt16
  flags : UInt16
  nscount : UInt16
  arcount : UInt16
  host : Text
  answers : List Answer
  behind : List UInt8

def Response.header (r : Response) : List UInt8 :=
  htons r.id ++ (htons r.flags ++ (htons 1 ++ (htons (UInt16.ofNat r.answers.length) ++
    (htons r.nscount ++ htons r.arcount))))

/-- The question is that of the query. -/
def Response.bytes (r : Response) : List UInt8 :=
  r.header ++ ((queryMessage r.host).drop headerSize ++
    (r.answers.flatMap Answer.bytes ++ r.behind))

/-- Each of the answers from `here` on has a name that can be read. -/
def Named (msg : List UInt8) : Nat → List Answer → Prop
  | _, [] => True
  | here, a :: answers =>
    (∃ text, NameAt msg 0 here text (here + a.owner.length)) ∧
      Named msg (here + a.bytes.length) answers

/-- A response as a server may send it. -/
structure Response.Valid (r : Response) : Prop where
  labels : ∀ l ∈ r.host.splitOn dot, 1 ≤ l.length ∧ l.length ≤ 63
  short : r.host.length ≤ 510
  some : r.answers ≠ []
  count : r.answers.length < 2 ^ 15
  named : Named r.bytes (r.host.length + 18) r.answers
  plain : ∀ a ∈ r.answers, a.rdata.Plain

/-- The last answer has two bytes behind its fixed fields. -/
def Response.TtlInside (r : Response) : Prop :=
  ∀ a ∈ r.answers.getLast?, 2 ≤ a.rdata.data.length + r.behind.length

/-- What is returned, with room for so many of these addresses. -/
def found (resLimit : Nat) (ips : List UInt32) : Int × List UInt32 :=
  ((ips.take resLimit).length, ips.take resLimit)

/-! ## §2 One record -/

@[simp] theorem length_htons (x : UInt16) : (htons x).length = 2 := rfl

@[simp] theorem length_htonl (x : UInt32) : (htonl x).length = 4 := rfl

theorem Rdata.Plain.length_lt {d : Rdata} (h : d.Plain) : d.data.length < 2 ^ 16 := by
  cases d with
  | address ip => simp [Rdata.data]
  | other type class_ data => exact h.1

theorem toNat_length {d : Rdata} (h : d.Plain) :
    (UInt16.ofNat d.data.length).toNat = d.data.length := by
  rw [UInt16.toNat_ofNat']
  exact Nat.mod_eq_of_lt h.length_lt

theorem Answer.length_fields (a : Answer) : a.fields.length = 10 + a.rdata.data.length := by
  simp [Answer.fields]
  omega

/-- What a record is read to, over what stood there before. -/
def Answer.rr (a : Answer) (y : Rr) : Rr :=
  let len := if RR_NAMESIZE - 4 < a.rdata.data.length then RR_NAMESIZE - 4 else a.rdata.data.length
  { y with
    type := a.rdata.type.toNat
    class_ := a.rdata.class_.toNat
    ttl := a.ttl.toNat
    len
    data := a.rdata.data.take len ++ [0] }

section

variable {msg rest : List UInt8} {q : Nat} {a : Answer} (hmsg : msg.drop q = a.fields ++ rest)

include hmsg

theorem length_of_fields : msg.length = q + 10 + a.rdata.data.length + rest.length := by
  have hlen := congrArg List.length hmsg
  rw [List.length_drop, List.length_append, a.length_fields] at hlen
  omega

theorem rdlength_fields (hplain : a.rdata.Plain) : rdlength msg q = a.rdata.data.length := by
  have hdrop : (msg.drop (q + 8)).take 2 = htons (UInt16.ofNat a.rdata.data.length) := by
    rw [← List.drop_drop, hmsg]
    rfl
  rw [rdlength, hdrop, ntohs_htons, toNat_length hplain]

theorem bytesAt_fields {i n : Nat} (h : i + n ≤ (a.fields ++ rest).length) :
    bytesAt msg (q + i) n = .ok (((a.fields ++ rest).drop i).take n) := by
  have hlen := length_of_fields hmsg
  rw [List.length_append, a.length_fields] at h
  rw [bytesAt_ok (by omega), ← List.drop_drop, hmsg]

/-- Two bytes more than the TTL and the length are read with them. -/
theorem recordBody_fields (hplain : a.rdata.Plain)
    (htwo : 2 ≤ a.rdata.data.length + rest.length) (y : Rr) :
    recordBody msg q false y = .ok (some (q + a.fields.length, a.rr y)) := by
  have hlen := length_of_fields hmsg
  have hfields := a.length_fields
  have hall : (a.fields ++ rest).length = 10 + a.rdata.data.length + rest.length := by
    rw [List.length_append, hfields]
  have h₄ : ¬ msg.length < q + 4 := by omega
  have h₁₀ : ¬ msg.length < q + 4 + 6 := by omega
  have htype : bytesAt msg q 2 = .ok (htons a.rdata.type) :=
    bytesAt_fields hmsg (i := 0) (by omega)
  have hclass : bytesAt msg (q + 2) 2 = .ok (htons a.rdata.class_) :=
    bytesAt_fields hmsg (by omega)
  have httl : bytesAt msg (q + 4) 8 = .ok (htonl a.ttl ++
      (htons (UInt16.ofNat a.rdata.data.length) ++ (a.rdata.data ++ rest).take 2)) :=
    bytesAt_fields hmsg (by omega)
  have hrdlength : bytesAt msg (q + 4 + 4) 2 = .ok (htons (UInt16.ofNat a.rdata.data.length)) :=
    bytesAt_fields hmsg (i := 8) (by omega)
  have hntohl : ntohl (htonl a.ttl ++
      (htons (UInt16.ofNat a.rdata.data.length) ++ (a.rdata.data ++ rest).take 2)) = a.ttl :=
    ntohl_htonl a.ttl
  have hdata' : ¬ msg.length < q + 4 + 6 + a.rdata.data.length := by omega
  generalize hylen : (if RR_NAMESIZE - 4 < a.rdata.data.length then RR_NAMESIZE - 4
    else a.rdata.data.length) = ylen
  have hle : ylen ≤ a.rdata.data.length ∧ ylen < RR_NAMESIZE := by
    rw [RR_NAMESIZE] at hylen ⊢
    split at hylen <;> omega
  have hdata : bytesAt msg (q + 4 + 6) ylen = .ok (a.rdata.data.take ylen) := by
    have htake : (a.rdata.data ++ rest).take ylen = a.rdata.data.take ylen :=
      List.take_append_of_le_length hle.1
    rw [← htake]
    exact bytesAt_fields hmsg (i := 10) (by omega)
  have hput : (a.rdata.data.take ylen).length + [(0 : UInt8)].length ≤ RR_NAMESIZE := by
    rw [List.length_take, List.length_singleton]
    omega
  have hnext : q + a.fields.length = q + 4 + 6 + a.rdata.data.length := by omega
  rw [recordBody, if_neg h₄, htype, except_ok_bind, hclass, except_ok_bind,
    if_neg Bool.false_ne_true, if_neg h₁₀, httl, except_ok_bind, hrdlength, except_ok_bind]
  simp only [ntohs_htons, toNat_length hplain, if_neg hdata', hylen, hdata, except_ok_bind, putName,
    if_pos hput, hntohl, hnext, Answer.rr]
  rfl

end

/-- A record whose name can be read. -/
theorem readRecord_answer {msg rest : List UInt8} {here : Nat} {a : Answer} {text : Text}
    (hname : NameAt msg 0 here text (here + a.owner.length))
    (hmsg : msg.drop here = a.bytes ++ rest) (hplain : a.rdata.Plain)
    (htwo : 2 ≤ a.rdata.data.length + rest.length) :
    ∃ n, ∀ fuel, n ≤ fuel → ∀ y, ∃ y',
      readRecord msg fuel here false y = .ok (some (here + a.bytes.length, a.rr y')) := by
  obtain ⟨⟨n, hread⟩, -⟩ := getObjectname_nameAt hname
  have hfields : msg.drop (here + a.owner.length) = a.fields ++ rest := by
    rw [← List.drop_drop, hmsg, Answer.bytes, List.append_assoc, List.drop_left]
  have hnext : here + a.owner.length + a.fields.length = here + a.bytes.length := by
    rw [Answer.bytes, List.length_append, Nat.add_assoc]
  refine ⟨n, fun fuel hfuel y => ⟨{ y with name := text }, ?_⟩⟩
  rcases readRecord_name (hread fuel hfuel) false y with ⟨hneg, -⟩ | ⟨-, hbody⟩
  · omega
  · rw [hbody, recordBody_fields hfields hplain htwo, hnext]

/-- What is stored of a record that has been read. -/
theorem stored_rr {a : Answer} (h : a.rdata.Plain) (y : Rr) :
    (∃ ip, a.rdata.ip? = some ip ∧ ipv4Ntoi (a.rr y).data = ip ∧
      (a.rr y).type = 1 ∧ (a.rr y).class_ = 1 ∧ (a.rr y).len = 4) ∨
    (a.rdata.ip? = none ∧ ¬ ((a.rr y).type = 1 ∧ (a.rr y).class_ = 1 ∧ (a.rr y).len = 4)) := by
  obtain ⟨owner, ttl, rdata⟩ := a
  cases rdata with
  | address ip => exact .inl ⟨ip, rfl, ntohl_htonl ip, rfl, rfl, rfl⟩
  | other type class_ data =>
    right
    refine ⟨rfl, fun ⟨htype, hclass, hlen⟩ => h.2 ⟨?_, ?_, ?_⟩⟩
    · exact UInt16.toNat_inj.mp htype
    · exact UInt16.toNat_inj.mp hclass
    · change (if RR_NAMESIZE - 4 < data.length then RR_NAMESIZE - 4 else data.length) = 4 at hlen
      rw [RR_NAMESIZE] at hlen
      split at hlen <;> omega

/-! ## §3 The answers -/

theorem addresses_cons (a : Answer) (answers : List Answer) :
    addresses (a :: answers) = a.rdata.ip?.toList ++ addresses answers := by
  cases h : a.rdata.ip? <;> simp [addresses, h]

theorem Answer.ten_le (a : Answer) : 10 ≤ a.bytes.length := by
  rw [Answer.bytes, List.length_append, a.length_fields]
  omega

/-- Two bytes stand behind the fixed fields of each answer if they stand
behind those of the last. -/
theorem two_le_behind {a : Answer} {answers : List Answer} {rest : List UInt8}
    (h : ∀ b ∈ (a :: answers).getLast?, 2 ≤ b.rdata.data.length + rest.length) :
    2 ≤ a.rdata.data.length + (answers.flatMap Answer.bytes ++ rest).length := by
  cases answers with
  | nil => simpa using h
  | cons b answers =>
    have hten := b.ten_le
    simp only [List.flatMap_cons, List.length_append]
    omega

/-- By induction on the answers: those behind are found with what has been
stored. -/
theorem answersLoop_answers {msg rest : List UInt8} {here : Nat} {answers : List Answer}
    (resLimit : Nat) (hmsg : msg.drop here = answers.flatMap Answer.bytes ++ rest)
    (hnamed : Named msg here answers) (hplain : ∀ a ∈ answers, a.rdata.Plain)
    (hlast : ∀ a ∈ answers.getLast?, 2 ≤ a.rdata.data.length + rest.length) :
    ∃ n, ∀ fuel, n ≤ fuel → ∀ y resolved, resolved.length ≤ resLimit →
      answersLoop msg fuel resLimit answers.length here y resolved =
        .ok (found resLimit (resolved ++ addresses answers)) := by
  induction answers generalizing here with
  | nil =>
    refine ⟨0, fun fuel _ y resolved hroom => ?_⟩
    simp [answersLoop, found, addresses, List.take_of_length_le hroom]
  | cons a answers ih =>
    rw [List.flatMap_cons, List.append_assoc] at hmsg
    obtain ⟨⟨text, hname⟩, hnamed⟩ := hnamed
    obtain ⟨hplain₁, hplain⟩ := List.forall_mem_cons.mp hplain
    have hdrop : msg.drop (here + a.bytes.length) = answers.flatMap Answer.bytes ++ rest := by
      rw [← List.drop_drop, hmsg, List.drop_left]
    have hlast' : ∀ b ∈ answers.getLast?, 2 ≤ b.rdata.data.length + rest.length := by
      intro b hb
      cases answers with
      | nil => simp at hb
      | cons c answers => exact hlast b (by rwa [List.getLast?_cons_cons])
    obtain ⟨n₁, hrecord⟩ := readRecord_answer hname hmsg hplain₁ (two_le_behind hlast)
    obtain ⟨n₂, hrest⟩ := ih hdrop hnamed hplain hlast'
    refine ⟨max n₁ n₂, fun fuel hfuel y resolved hroom => ?_⟩
    obtain ⟨y', hread⟩ := hrecord fuel (by omega) y
    rw [List.length_cons, answersLoop, hread, addresses_cons]
    simp only [bind, Except.bind]
    rcases stored_rr hplain₁ y' with ⟨ip, hip, hntoi, hfields⟩ | ⟨hip, hfields⟩
    · by_cases hmore : resolved.length < resLimit
      · have hroom' : (resolved ++ [ip]).length ≤ resLimit := by
          rw [List.length_append, List.length_singleton]
          exact hmore
        rw [if_pos ⟨hfields.1, hfields.2.1, hfields.2.2, hmore⟩, hntoi,
          hrest fuel (by omega) _ _ hroom', hip]
        simp
      · have hfull : resolved.length = resLimit := by omega
        rw [if_neg (fun hand => hmore hand.2.2.2), hrest fuel (by omega) _ _ hroom]
        simp [found, ← hfull]
    · rw [if_neg (fun hand => hfields ⟨hand.1, hand.2.1, hand.2.2.1⟩),
        hrest fuel (by omega) _ _ hroom, hip]
      simp

/-- Where the answers are read inside the message, the last has its two
bytes. -/
theorem lastTwo_of_sound {msg rest : List UInt8} {here : Nat} {answers : List Answer}
    (hmsg : msg.drop here = answers.flatMap Answer.bytes ++ rest) (hnamed : Named msg here answers)
    (hplain : ∀ a ∈ answers, a.rdata.Plain) (hsound : AnswersSound msg answers.length here) :
    ∀ a ∈ answers.getLast?, 2 ≤ a.rdata.data.length + rest.length := by
  induction answers generalizing here with
  | nil => simp
  | cons a answers ih =>
    rw [List.flatMap_cons, List.append_assoc] at hmsg
    obtain ⟨⟨text, hname⟩, hnamed⟩ := hnamed
    obtain ⟨hplain₁, hplain⟩ := List.forall_mem_cons.mp hplain
    have hdrop : msg.drop (here + a.bytes.length) = answers.flatMap Answer.bytes ++ rest := by
      rw [← List.drop_drop, hmsg, List.drop_left]
    have hfields : msg.drop (here + a.owner.length) =
        a.fields ++ (answers.flatMap Answer.bytes ++ rest) := by
      rw [← List.drop_drop, hmsg, Answer.bytes, List.append_assoc, List.drop_left]
    have hlen := length_of_fields hfields
    obtain ⟨hrecord, hrest⟩ := hsound
    cases answers with
    | nil =>
      have hten : here + a.owner.length + 10 ≤ msg.length := by omega
      have htwelve := hrecord.2 rfl text _ hname hten
      simp only [List.flatMap_nil, List.nil_append] at hlen
      simp
      omega
    | cons b answers =>
      rw [List.getLast?_cons_cons]
      refine ih hdrop hnamed hplain (hrest _ ⟨text, _, hname, ?_⟩)
      have hrdlength := rdlength_fields hfields hplain₁
      have hbytes : a.bytes.length = a.owner.length + (10 + a.rdata.data.length) := by
        rw [Answer.bytes, List.length_append, a.length_fields]
      refine ⟨by omega, by omega, by omega⟩

/-! ## §4 The response -/

namespace Response

variable {r : Response}

@[simp] theorem length_header (r : Response) : r.header.length = headerSize := rfl

theorem drop_header (r : Response) : r.bytes.drop headerSize =
    (queryMessage r.host).drop headerSize ++ (r.answers.flatMap Answer.bytes ++ r.behind) := by
  rw [bytes, ← length_header r, List.drop_left]

theorem length_question (host : Text) :
    ((queryMessage host).drop headerSize).length = host.length + 6 := by
  rw [List.length_drop, length_queryMessage, headerSize]
  omega

theorem drop_question (r : Response) :
    r.bytes.drop (r.host.length + 18) = r.answers.flatMap Answer.bytes ++ r.behind := by
  have hplace : r.host.length + 18 =
      headerSize + ((queryMessage r.host).drop headerSize).length := by
    rw [length_question, headerSize]
    omega
  rw [hplace, ← List.drop_drop, drop_header, List.drop_left]

theorem length_bytes (r : Response) : r.host.length + 18 ≤ r.bytes.length := by
  have hlen := congrArg List.length r.drop_header
  rw [List.length_drop, List.length_append, length_question, headerSize] at hlen
  omega

/-- The name of the question. -/
theorem nameAt_question (hlabels : ∀ l ∈ r.host.splitOn dot, 1 ≤ l.length ∧ l.length ≤ 63)
    (hshort : r.host.length ≤ 510) :
    NameAt r.bytes 0 headerSize (terminated dot (r.host.splitOn dot)) (r.host.length + 14) := by
  have hmsg := r.drop_header
  rw [drop_queryMessage, List.append_assoc] at hmsg
  have hlen : (terminated dot (r.host.splitOn dot)).length = r.host.length + 1 := by
    rw [(terminated_splitOn dot r.host).1, List.length_append, List.length_singleton]
  have hname := nameAt_labelBytes hlabels hmsg (k := 0) (by rw [hlen, RR_NAMESIZE]; omega)
  have hplace : headerSize + (r.host.length + 1) + 1 = r.host.length + 14 := by
    rw [headerSize]
    omega
  rwa [hlen, hplace] at hname

theorem Valid.question (h : r.Valid) : RecordAt r.bytes true 12 (r.host.length + 18) := by
  have hlen := r.length_bytes
  exact ⟨_, _, nameAt_question h.labels h.short, hlen, rfl⟩

theorem ancount_bytes (h : r.answers.length < 2 ^ 15) : ancount r.bytes = r.answers.length := by
  have hcount : ntohs ((r.bytes.take 12).drop 6) = UInt16.ofNat r.answers.length :=
    ntohs_htons (UInt16.ofNat r.answers.length)
  rw [ancount, hcount, UInt16.toNat_ofNat', toShort]
  omega

/-- The header does not say that there are no answers. -/
theorem Valid.any (h : r.Valid) : r.bytes.getD 6 0 ||| r.bytes.getD 7 0 ≠ 0 := by
  have hpos := List.length_pos_iff.mpr h.some
  have hcount := h.count
  intro hzero
  have hor : (r.bytes.getD 6 0).toNat ||| (r.bytes.getD 7 0).toNat = 0 := congrArg UInt8.toNat hzero
  have hhigh : r.bytes.getD 6 0 = 0 := UInt8.toNat_inj.mp (Nat.or_eq_zero_iff.mp hor).1
  have hlow : r.bytes.getD 7 0 = 0 := UInt8.toNat_inj.mp (Nat.or_eq_zero_iff.mp hor).2
  have hhtons : htons (UInt16.ofNat r.answers.length) = [0, 0] := by
    have hbytes : htons (UInt16.ofNat r.answers.length) =
        [r.bytes.getD 6 0, r.bytes.getD 7 0] := rfl
    rw [hbytes, hhigh, hlow]
  have hnone := congrArg UInt16.toNat (ntohs_htons (UInt16.ofNat r.answers.length))
  rw [hhtons, UInt16.toNat_ofNat'] at hnone
  change 0 = _ at hnone
  omega

/-- The response behind its header. -/
theorem Valid.parse_eq (h : r.Valid) (fuel resLimit : Nat) :
    parseDnsResponse r.bytes fuel resLimit =
      readRecord r.bytes fuel 12 true ⟨[], 0, 0, 0, 0, []⟩ >>=
        parseAnswers r.bytes fuel resLimit r.answers.length := by
  have hlen := r.length_bytes
  rw [parseDnsResponse_eq (by omega) h.any, ancount_bytes h.count]

/-- In enough rounds the addresses are found. -/
theorem Valid.parse_found (h : r.Valid) (hlast : r.TtlInside) (resLimit : Nat) :
    ∃ n, ∀ fuel, n ≤ fuel →
      parseDnsResponse r.bytes fuel resLimit = .ok (found resLimit (addresses r.answers)) := by
  obtain ⟨⟨n₁, hread⟩, -⟩ := getObjectname_nameAt (nameAt_question h.labels h.short)
  obtain ⟨n₂, hloop⟩ := answersLoop_answers resLimit r.drop_question h.named h.plain hlast
  refine ⟨max n₁ n₂, fun fuel hfuel => ?_⟩
  have hlen := r.length_bytes
  rw [h.parse_eq]
  rcases readRecord_name (hread fuel (by omega)) true ⟨[], 0, 0, 0, 0, []⟩ with
    ⟨hneg, -⟩ | ⟨-, hbody⟩
  · omega
  · have hquestion := @recordBody_question r.bytes (r.host.length + 14)
      ⟨terminated dot (r.host.splitOn dot), 0, 0, 0, 0, []⟩
    rcases hquestion with ⟨-, hno⟩ | ⟨y, hsome, -⟩
    · exact absurd ⟨hlen, rfl⟩ (hno (r.host.length + 18))
    · have hrecord : readRecord r.bytes fuel 12 true ⟨[], 0, 0, 0, 0, []⟩ =
          .ok (Option.some (r.host.length + 18, y)) := hbody.trans hsome
      rw [hrecord]
      exact hloop fuel (by omega) y [] (Nat.zero_le _)

/-- What is parsed of it at all. -/
theorem Valid.parse_ok (h : r.Valid) {fuel resLimit : Nat} {out : Int × List UInt32}
    (hok : parseDnsResponse r.bytes fuel resLimit = .ok out) :
    r.TtlInside ∧ out = found resLimit (addresses r.answers) := by
  have hcode := hok
  rw [h.parse_eq] at hcode
  obtain ⟨rec, hrec, hcode⟩ := except_bind_eq_ok.mp hcode
  rcases readRecord_recordAt hrec with ⟨-, hno⟩ | ⟨next, y, rfl, hat⟩
  · exact absurd h.question (hno _)
  · obtain rfl := (hat _).mp h.question
    have hsound := (answersLoop_ok_iff _ _ _ _ _ _).mp ⟨fuel, out, hcode⟩
    have hlast := lastTwo_of_sound r.drop_question h.named h.plain hsound
    obtain ⟨n, hfound⟩ := h.parse_found hlast resLimit
    refine ⟨hlast, ?_⟩
    have hmore := answersLoop_mono hcode (Nat.le_max_left fuel n)
    have hboth := hfound (max fuel n) (Nat.le_max_right fuel n)
    rw [h.parse_eq, readRecord_mono hrec (Nat.le_max_left fuel n)] at hboth
    exact Except.ok.inj (hmore.symm.trans hboth)

end Response

/-- **A response read back.** The addresses among its answers are returned, in
order and as far as there is room for them, in some number of rounds exactly
if the last answer has two bytes behind its fixed fields. -/
theorem response_read_back_iff {r : Response} (h : r.Valid) (resLimit : Nat) :
    (∃ fuel, parseDnsResponse r.bytes fuel resLimit =
      .ok (found resLimit (addresses r.answers))) ↔ r.TtlInside := by
  constructor
  · rintro ⟨fuel, hok⟩
    exact (h.parse_ok hok).1
  · intro hlast
    obtain ⟨n, hfound⟩ := h.parse_found hlast resLimit
    exact ⟨n, hfound n (Nat.le_refl n)⟩

/-! ## §5 Names of answers -/

/-- A pointer to the name of the question. -/
def questionPointer : List UInt8 := [0xC0, 12]

/-- A name with all its labels. -/
def WrittenOut (owner : List UInt8) : Prop :=
  ∃ labels : List Text, (∀ l ∈ labels, 1 ≤ l.length ∧ l.length ≤ 63) ∧
    (terminated dot labels).length < RR_NAMESIZE ∧ owner = labelBytes labels ++ [0]

theorem nameAt_questionPointer {msg rest : List UInt8} {here q : Nat} {text : Text}
    (hquestion : NameAt msg 0 headerSize text q) (hhere : headerSize ≠ here)
    (hmsg : msg.drop here = questionPointer ++ rest) : NameAt msg 0 here text (here + 2) := by
  have hlen : msg[here]? = some 0xC0 := by
    rw [← List.head?_drop, hmsg]
    rfl
  have hlow : msg[here + 1]? = some 12 := by
    rw [← List.getElem?_drop, hmsg]
    rfl
  have hoffset : headerSize = pointerOffset 0xC0 12 := by decide
  exact .jump ⟨_, _, hlen, by decide, hlow, hoffset, hquestion.inside, hhere⟩ hquestion

theorem WrittenOut.nameAt {owner : List UInt8} (h : WrittenOut owner) {msg rest : List UInt8}
    {here : Nat} (hmsg : msg.drop here = owner ++ rest) :
    ∃ text, NameAt msg 0 here text (here + owner.length) := by
  obtain ⟨labels, hlabels, hfit, rfl⟩ := h
  rw [List.append_assoc, List.singleton_append] at hmsg
  have hname := nameAt_labelBytes hlabels hmsg (k := 0) (by omega)
  rw [List.length_append, List.length_singleton, length_labelBytes, ← Nat.add_assoc]
  exact ⟨_, hname⟩

/-- Answers with such names. -/
theorem named_of_owners {msg rest : List UInt8} {here q : Nat} {text : Text} {answers : List Answer}
    (hquestion : NameAt msg 0 headerSize text q) (hhere : headerSize < here)
    (hmsg : msg.drop here = answers.flatMap Answer.bytes ++ rest)
    (howners : ∀ a ∈ answers, a.owner = questionPointer ∨ WrittenOut a.owner) :
    Named msg here answers := by
  induction answers generalizing here with
  | nil => trivial
  | cons a answers ih =>
    obtain ⟨howner, howners⟩ := List.forall_mem_cons.mp howners
    rw [List.flatMap_cons, List.append_assoc] at hmsg
    have hdrop : msg.drop (here + a.bytes.length) = answers.flatMap Answer.bytes ++ rest := by
      rw [← List.drop_drop, hmsg, List.drop_left]
    refine ⟨?_, ih (by omega) hdrop howners⟩
    rw [Answer.bytes, List.append_assoc] at hmsg
    rcases howner with hpointer | hwritten
    · rw [hpointer] at hmsg ⊢
      exact ⟨text, nameAt_questionPointer hquestion (by omega) hmsg⟩
    · exact hwritten.nameAt hmsg

/-- `a.b` is another name of `c`, which has an address, and so has `a.b`. -/
def aliased : Response where
  id := 1
  flags := 0x8180
  nscount := 0
  arcount := 0
  host := lit ['a', '.', 'b']
  answers :=
    [⟨questionPointer, 60, .other 5 1 [1, 99, 0]⟩, ⟨[1, 99, 0], 60, .address 0x0a000007⟩,
      ⟨questionPointer, 30, .address 0x0a000008⟩]
  behind := []

theorem valid_aliased : aliased.Valid := by
  have hlabels : ∀ l ∈ aliased.host.splitOn dot, 1 ≤ l.length ∧ l.length ≤ 63 := by decide
  have hshort : aliased.host.length ≤ 510 := by decide
  have hwritten : WrittenOut [1, 99, 0] := ⟨[[99]], by decide, by decide, by decide⟩
  have howners : ∀ a ∈ aliased.answers, a.owner = questionPointer ∨ WrittenOut a.owner := by
    simp [aliased, hwritten]
  exact
    { labels := hlabels
      short := hshort
      some := by simp [aliased]
      count := by simp [aliased]
      named := named_of_owners (Response.nameAt_question hlabels hshort) (by decide)
        aliased.drop_question howners
      plain := by simp [aliased, Rdata.Plain] }

theorem response_read_back_iff_aliased : ∃ fuel,
    parseDnsResponse aliased.bytes fuel 4 = .ok (2, [0x0a000007, 0x0a000008]) := by
  have hlast : aliased.TtlInside := by simp [Response.TtlInside, aliased, Rdata.data]
  exact (response_read_back_iff valid_aliased 4).mpr hlast

/-! ## §6 Lookups -/

def LookupCall.resLimit : LookupCall → Nat
  | .gethostsbyname _ resLimit => resLimit
  | .resolveDomain _ resLimit _ => resLimit

theorem CallDone.lookedUp {fuel : Nat} {c : LookupCall} {s : Lookup} {v : Int}
    (h : CallDone fuel c s v) : ∃ within, LookedUp fuel c.resLimit within s v := by
  cases c with
  | gethostsbyname hostName resLimit => exact ⟨_, h⟩
  | resolveDomain hostName resLimit timeout => exact ⟨_, h⟩

/-- A response as a server may send it is not passed over. -/
theorem Response.Valid.not_refused {r : Response} (h : r.Valid) {fuel resLimit : Nat} :
    ¬ Refused fuel resLimit r.bytes := by
  rintro ⟨v, ips, hparse, hneg⟩
  obtain ⟨-, hout⟩ := h.parse_ok hparse
  have hv : v = ((addresses r.answers).take resLimit).length := congrArg Prod.fst hout
  omega

/-- A server answers at once. -/
def askedOnce : List (Choice DnsQuestion DnsReply LookupCall) :=
  [.enter (.gethostsbyname (some (lit ['a', '.', 'b'])) 1), .answer .socket (.ok 5),
    .answer .loadFile (some (resolvEntry 0x08080808, 16)), .answer .bindToDevice (.ok ()),
    .answer .uptime 100, .answer (.sendto 0x08080808 (queryMessage aliased.host)) (.ok 21),
    .answer (.poll 2100) 1, .answer .recvfrom (.ok aliased.bytes)]

end Nanio.Dns
