/-
Nanio.Dns.DnsResponse — `read_record` and `parse_dns_response` of
`oi_dns.c`.

A datagram is a list of bytes, and a read behind them is a fault. The
fields behind a name are tested before they are read, but for the TTL, of
which eight bytes are read where six are known to be there, and the header
is not tested at all (§1). So one record is read safely if the walk of its
name is and the TTL is not cut off (§2), and the whole datagram if each
record that is come to is (§3).
-/
import Nanio.Dns.GetObjectname
import Nanio.Sock.SockAddr

namespace Nanio.Dns

open Nanio.Lib Nanio.Sock

/-! ## §1 The code -/

/-- `rr_t`; `data` with the NUL behind it. -/
structure Rr where
  name : Text
  type : Nat
  class_ : Nat
  ttl : Nat
  len : Nat
  data : List UInt8

/-- `read_record` behind the name. -/
def recordBody (msg : List UInt8) (here : Nat) (question : Bool) (y : Rr) :
    Except DnsFault (Option (Nat × Rr)) :=
  if msg.length < here + 4 then .ok none
  else do
    let type ← bytesAt msg here 2
    let class_ ← bytesAt msg (here + 2) 2
    let y := { y with type := (ntohs type).toNat, class_ := (ntohs class_).toNat }
    let here := here + 4
    if question then pure (some (here, y))
    else if msg.length < here + 6 then pure none
    else do
      -- `sizeof(unsigned long int)` bytes, of which `ntohl` takes the first four
      let ttl ← bytesAt msg here 8
      let checkLen ← bytesAt msg (here + 4) 2
      let len := (ntohs checkLen).toNat
      let here := here + 6
      if msg.length < here + len then pure none
      else do
        let ylen := if RR_NAMESIZE - 4 < len then RR_NAMESIZE - 4 else len
        let data ← bytesAt msg here ylen
        let data ← putName data [0]
        pure (some (here + len, { y with ttl := (ntohl ttl).toNat, len := ylen, data }))

/-- `read_record`: null, or the place behind the record. -/
def readRecord (msg : List UInt8) (fuel here : Nat) (question : Bool) (y : Rr) :
    Except DnsFault (Option (Nat × Rr)) := do
  let (k, here, name) ← getObjectname msg fuel RR_NAMESIZE here []
  if k < 0 then pure none
  else do
    let _ ← putName name [0]
    recordBody msg here question { y with name }

/-- `ipv4_ntoi`. -/
def ipv4Ntoi (ip : List UInt8) : UInt32 :=
  (ip.getD 0 0).toUInt32 <<< 24 ||| (ip.getD 1 0).toUInt32 <<< 16 |||
    (ip.getD 2 0).toUInt32 <<< 8 ||| (ip.getD 3 0).toUInt32

/-- The loop over the answers, `n` of them to come: what is returned, and
the addresses stored at `resolved`. -/
def answersLoop (msg : List UInt8) (fuel resLimit : Nat) :
    Nat → Nat → Rr → List UInt32 → Except DnsFault (Int × List UInt32)
  | 0, _, _, resolved => .ok (resolved.length, resolved)
  | n + 1, here, y, resolved => do
    match ← readRecord msg fuel here false y with
    | none => pure (if resolved.length ≠ 0 then resolved.length else -1, resolved)
    | some (here, y) =>
      if y.type = 1 ∧ y.class_ = 1 ∧ y.len = 4 ∧ resolved.length < resLimit then
        answersLoop msg fuel resLimit n here y (resolved ++ [ipv4Ntoi y.data])
      else answersLoop msg fuel resLimit n here y resolved

/-- The value of an integer expression once it is stored in a `short`. -/
def toShort (n : Nat) : Int := ((n : Int) + 2 ^ 15) % 2 ^ 16 - 2 ^ 15

/-- `parse_dns_response` behind the question. -/
def parseAnswers (recvBuf : List UInt8) (fuel resLimit : Nat) (ancount : Int) :
    Option (Nat × Rr) → Except DnsFault (Int × List UInt32)
  | none => .ok (-1, [])
  | some (here, y) => answersLoop recvBuf fuel resLimit ancount.toNat here y []

/-- `parse_dns_response`. -/
def parseDnsResponse (recvBuf : List UInt8) (fuel resLimit : Nat) :
    Except DnsFault (Int × List UInt32) := do
  let high ← byteAt recvBuf 6
  let low ← byteAt recvBuf 7
  if high ||| low = 0 then pure (-1, [])
  else do
    let header ← bytesAt recvBuf 0 12
    let ancount := toShort (ntohs (header.drop 6)).toNat
    if ancount = 0 then pure (-1, [])
    else do
      -- `y` is not read before it is written
      let question ← readRecord recvBuf fuel 12 true ⟨[], 0, 0, 0, 0, []⟩
      parseAnswers recvBuf fuel resLimit ancount question

/-! ## §2 One record -/

/-- The length of the data behind a name that ends at `q`. -/
def rdlength (msg : List UInt8) (q : Nat) : Nat := (ntohs ((msg.drop (q + 8)).take 2)).toNat

/-- What stands behind a name that ends at `q`: type and class of a
question, ten bytes and the data of an answer, up to `next`. -/
def RecordEnd (msg : List UInt8) (question : Bool) (q next : Nat) : Prop :=
  if question then q + 4 ≤ msg.length ∧ next = q + 4
  else q + 10 ≤ msg.length ∧ q + 10 + rdlength msg q ≤ msg.length ∧ next = q + 10 + rdlength msg q

/-- The record at `here`, up to `next`. -/
def RecordAt (msg : List UInt8) (question : Bool) (here next : Nat) : Prop :=
  ∃ text q, NameAt msg 0 here text q ∧ RecordEnd msg question q next

/-- The record at `here` is read inside the message: the walk of its name
is sound, and the eight bytes read for the TTL of an answer are there
unless the fixed fields are cut off before. -/
def RecordSound (msg : List UInt8) (question : Bool) (here : Nat) : Prop :=
  (here < msg.length → Sound msg here) ∧
    (question = false → ∀ text q, NameAt msg 0 here text q →
      q + 10 ≤ msg.length → q + 12 ≤ msg.length)

theorem bytesAt_ok {msg : List UInt8} {i n : Nat} (h : i + n ≤ msg.length) :
    bytesAt msg i n = .ok ((msg.drop i).take n) := if_pos h

section

variable {msg : List UInt8} {q : Nat} (y : Rr)

theorem recordBody_question :
    (recordBody msg q true y = .ok none ∧ ∀ next, ¬ RecordEnd msg true q next) ∨
      ∃ y', recordBody msg q true y = .ok (some (q + 4, y')) ∧ RecordEnd msg true q (q + 4) := by
  by_cases h : msg.length < q + 4
  · left
    refine ⟨by rw [recordBody, if_pos h], fun next hend => ?_⟩
    exact Nat.not_le_of_lt h hend.1
  · right
    rw [recordBody, if_neg h, bytesAt_ok (by omega), bytesAt_ok (by omega)]
    exact ⟨_, rfl, by omega, rfl⟩

theorem recordBody_short (h : msg.length < q + 10) : recordBody msg q false y = .ok none := by
  by_cases h₄ : msg.length < q + 4
  · rw [recordBody, if_pos h₄]
  · have h₁₀ : msg.length < q + 4 + 6 := by omega
    rw [recordBody, if_neg h₄, bytesAt_ok (by omega), except_ok_bind, bytesAt_ok (by omega),
      except_ok_bind, if_neg Bool.false_ne_true, if_pos h₁₀]
    rfl

/-- The TTL is read with the length of the data and two bytes more. -/
theorem recordBody_ttl_cut (h : q + 10 ≤ msg.length) (hcut : msg.length < q + 12) :
    recordBody msg q false y = .error .outOfMessage := by
  have h₄ : ¬ msg.length < q + 4 := by omega
  have h₁₀ : ¬ msg.length < q + 4 + 6 := by omega
  have httl : ¬ q + 4 + 8 ≤ msg.length := by omega
  rw [recordBody, if_neg h₄, bytesAt_ok (by omega), except_ok_bind, bytesAt_ok (by omega),
    except_ok_bind, if_neg Bool.false_ne_true, if_neg h₁₀, bytesAt, if_neg httl]
  rfl

theorem recordBody_data_cut (h : q + 12 ≤ msg.length)
    (hdata : msg.length < q + 10 + rdlength msg q) : recordBody msg q false y = .ok none := by
  have h₄ : ¬ msg.length < q + 4 := by omega
  have h₁₀ : ¬ msg.length < q + 4 + 6 := by omega
  have hdata' : msg.length < q + 4 + 6 + rdlength msg q := by omega
  rw [recordBody, if_neg h₄, bytesAt_ok (by omega), except_ok_bind, bytesAt_ok (by omega),
    except_ok_bind, if_neg Bool.false_ne_true, if_neg h₁₀, bytesAt_ok (by omega), except_ok_bind,
    bytesAt_ok (by omega), except_ok_bind]
  exact if_pos hdata'

theorem recordBody_full (h : q + 12 ≤ msg.length) (hdata : q + 10 + rdlength msg q ≤ msg.length) :
    ∃ y', recordBody msg q false y = .ok (some (q + 10 + rdlength msg q, y')) := by
  have h₄ : ¬ msg.length < q + 4 := by omega
  have h₁₀ : ¬ msg.length < q + 4 + 6 := by omega
  have hdata' : ¬ msg.length < q + 4 + 6 + rdlength msg q := by omega
  have hrdlength : (ntohs ((msg.drop (q + 4 + 4)).take 2)).toNat = rdlength msg q := rfl
  have hylen : q + 4 + 6 + (if RR_NAMESIZE - 4 < rdlength msg q then RR_NAMESIZE - 4
      else rdlength msg q) ≤ msg.length := by
    split <;> omega
  have hput : ((msg.drop (q + 4 + 6)).take (if RR_NAMESIZE - 4 < rdlength msg q then RR_NAMESIZE - 4
      else rdlength msg q)).length + [(0 : UInt8)].length ≤ RR_NAMESIZE := by
    rw [List.length_take, List.length_singleton, RR_NAMESIZE]
    split <;> omega
  rw [recordBody, if_neg h₄, bytesAt_ok (by omega), except_ok_bind, bytesAt_ok (by omega),
    except_ok_bind, if_neg Bool.false_ne_true, if_neg h₁₀, bytesAt_ok (by omega), except_ok_bind,
    bytesAt_ok (by omega), except_ok_bind, hrdlength, if_neg hdata']
  simp only [bytesAt_ok hylen, except_ok_bind, putName, if_pos hput]
  exact ⟨_, rfl⟩

theorem recordBody_answer :
    (recordBody msg q false y = .error .outOfMessage ∧ q + 10 ≤ msg.length ∧ msg.length < q + 12) ∨
    ((q + 10 ≤ msg.length → q + 12 ≤ msg.length) ∧
      ((recordBody msg q false y = .ok none ∧ ∀ next, ¬ RecordEnd msg false q next) ∨
      ∃ next y', recordBody msg q false y = .ok (some (next, y')) ∧
        RecordEnd msg false q next)) := by
  by_cases h₁₀ : msg.length < q + 10
  · refine .inr ⟨by omega, .inl ⟨recordBody_short y h₁₀, fun next hend => ?_⟩⟩
    exact Nat.not_le_of_lt h₁₀ hend.1
  by_cases h₁₂ : msg.length < q + 12
  · have hten : q + 10 ≤ msg.length := by omega
    exact .inl ⟨recordBody_ttl_cut y hten h₁₂, hten, h₁₂⟩
  have hroom : q + 12 ≤ msg.length := by omega
  refine .inr ⟨fun _ => hroom, ?_⟩
  by_cases hdata : msg.length < q + 10 + rdlength msg q
  · exact .inl ⟨recordBody_data_cut y hroom hdata, fun next hend => Nat.not_le_of_lt hdata hend.2.1⟩
  · have hin : q + 10 + rdlength msg q ≤ msg.length := by omega
    obtain ⟨y', hcode⟩ := recordBody_full y hroom hin
    exact .inr ⟨_, y', hcode, by omega, hin, rfl⟩

end

/-- Behind the name of a record. -/
theorem recordBody_cases (msg : List UInt8) (question : Bool) (q : Nat) (y : Rr) :
    (recordBody msg q question y = .error .outOfMessage ∧ question = false ∧
      q + 10 ≤ msg.length ∧ msg.length < q + 12) ∨
    ((question = false → q + 10 ≤ msg.length → q + 12 ≤ msg.length) ∧
      ((recordBody msg q question y = .ok none ∧ ∀ next, ¬ RecordEnd msg question q next) ∨
      ∃ next y', recordBody msg q question y = .ok (some (next, y')) ∧
        RecordEnd msg question q next)) := by
  cases question with
  | true =>
    refine .inr ⟨by simp, ?_⟩
    rcases recordBody_question y with hnone | ⟨y', hsome⟩
    · exact .inl hnone
    · exact .inr ⟨_, y', hsome⟩
  | false =>
    rcases recordBody_answer y with ⟨hcode, hten, hcut⟩ | ⟨hten, hok⟩
    · exact .inl ⟨hcode, rfl, hten, hcut⟩
    · exact .inr ⟨fun _ => hten, hok⟩

theorem recordEnd_unique {msg : List UInt8} {question : Bool} {q next next' : Nat}
    (h : RecordEnd msg question q next) (h' : RecordEnd msg question q next') : next = next' := by
  cases question with
  | true => exact h.2.trans h'.2.symm
  | false => exact h.2.2.trans h'.2.2.symm

/-- A record that is read: the name first, then the body. -/
theorem readRecord_name {msg : List UInt8} {fuel here q : Nat} {k : Int} {name : Text}
    (hname : getObjectname msg fuel RR_NAMESIZE here [] = .ok (k, q, name)) (question : Bool)
    (y : Rr) :
    (k < 0 ∧ readRecord msg fuel here question y = .ok none) ∨
      (NameAt msg 0 here name q ∧
        readRecord msg fuel here question y = recordBody msg q question { y with name }) := by
  rcases getObjectname_ok hname with hneg | ⟨rfl, hlt, hat⟩
  · left
    refine ⟨hneg, ?_⟩
    rw [readRecord, hname]
    simp only [bind, Except.bind, if_pos hneg]
    rfl
  · right
    have hneg : ¬ ((name.length : Nat) : Int) < 0 := by omega
    have hput : name.length + [(0 : UInt8)].length ≤ RR_NAMESIZE := hlt
    refine ⟨hat, ?_⟩
    rw [readRecord, hname]
    simp only [bind, Except.bind, if_neg hneg, putName, if_pos hput]

/-- A record is read, in any number of rounds that lets its name end,
exactly if it is sound. -/
theorem readRecord_ok_iff (msg : List UInt8) (here : Nat) (question : Bool) (y : Rr) :
    (∃ fuel r, readRecord msg fuel here question y = .ok r) ↔ RecordSound msg question here := by
  constructor
  · rintro ⟨fuel, r, hok⟩
    cases hname : getObjectname msg fuel RR_NAMESIZE here [] with
    | error f =>
      rw [readRecord, hname] at hok
      cases hok
    | ok n =>
      refine ⟨(getObjectname_ok_iff msg here).mp ⟨fuel, n, hname⟩, fun hq text q hat hten => ?_⟩
      obtain rfl := (getObjectname_nameAt hat).2 fuel n hname
      rcases readRecord_name hname question y with ⟨hneg, -⟩ | ⟨-, hbody⟩
      · omega
      · rcases recordBody_cases msg question q { y with name := text } with ⟨hfault, -⟩ | ⟨hroom, -⟩
        · rw [hbody, hfault] at hok
          cases hok
        · exact hroom hq hten
  · rintro ⟨hsound, hroom⟩
    obtain ⟨fuel, ⟨k, q, name⟩, hname⟩ := (getObjectname_ok_iff msg here).mpr hsound
    refine ⟨fuel, ?_⟩
    rcases readRecord_name hname question y with ⟨-, hnone⟩ | ⟨hat, hbody⟩
    · exact ⟨none, hnone⟩
    · rw [hbody]
      rcases recordBody_cases msg question q { y with name } with ⟨-, hq, hten, hcut⟩ | ⟨-, hok⟩
      · have := hroom hq name q hat hten
        omega
      · rcases hok with ⟨hnone, -⟩ | ⟨next, y', hsome, -⟩
        · exact ⟨none, hnone⟩
        · exact ⟨some (next, y'), hsome⟩

/-- Where a record stands, the place behind it is returned. -/
theorem readRecord_recordAt {msg : List UInt8} {fuel here : Nat} {question : Bool} {y : Rr}
    {r : Option (Nat × Rr)} (h : readRecord msg fuel here question y = .ok r) :
    (r = none ∧ ∀ next, ¬ RecordAt msg question here next) ∨
      ∃ next y', r = some (next, y') ∧
        ∀ next', RecordAt msg question here next' ↔ next' = next := by
  cases hname : getObjectname msg fuel RR_NAMESIZE here [] with
  | error f =>
    rw [readRecord, hname] at h
    cases h
  | ok n =>
    obtain ⟨k, q, name⟩ := n
    have hunique : ∀ text q', NameAt msg 0 here text q' → 0 ≤ k ∧ q' = q := by
      intro text q' hat
      have heq := (getObjectname_nameAt hat).2 fuel _ hname
      obtain ⟨rfl, hrest⟩ := Prod.mk.inj heq
      exact ⟨by omega, (Prod.mk.inj hrest).1.symm⟩
    rcases readRecord_name hname question y with ⟨hneg, hnone⟩ | ⟨hat, hbody⟩
    · rw [hnone] at h
      refine .inl ⟨(Except.ok.inj h).symm, fun next ⟨text, q', hat, _⟩ => ?_⟩
      have := (hunique text q' hat).1
      omega
    · rw [hbody] at h
      rcases recordBody_cases msg question q { y with name } with ⟨hfault, -⟩ | ⟨-, hok⟩
      · rw [hfault] at h
        cases h
      · rcases hok with ⟨hnone, hend⟩ | ⟨next, y', hsome, hend⟩
        · rw [hnone] at h
          refine .inl ⟨(Except.ok.inj h).symm, fun next ⟨text, q', hat', hend'⟩ => ?_⟩
          obtain ⟨-, rfl⟩ := hunique text q' hat'
          exact hend next hend'
        · rw [hsome] at h
          refine .inr ⟨next, y', (Except.ok.inj h).symm, fun next' => ⟨?_, ?_⟩⟩
          · rintro ⟨text, q', hat', hend'⟩
            obtain ⟨-, rfl⟩ := hunique text q' hat'
            exact recordEnd_unique hend' hend
          · rintro rfl
            exact ⟨name, q, hat, hend⟩

theorem readRecord_mono {msg : List UInt8} {fuel here : Nat} {question : Bool} {y : Rr}
    {r : Option (Nat × Rr)} (h : readRecord msg fuel here question y = .ok r) {fuel' : Nat}
    (hle : fuel ≤ fuel') : readRecord msg fuel' here question y = .ok r := by
  have hends : getObjectname msg fuel RR_NAMESIZE here [] ≠ .error .endless := by
    intro he
    rw [readRecord, he] at h
    cases h
  rw [readRecord, getObjectname_mono hends hle]
  exact h

/-! ## §3 The datagram -/

/-- Each of the next `n` answers, as far as they are come to, is read
inside the message. -/
def AnswersSound (msg : List UInt8) : Nat → Nat → Prop
  | 0, _ => True
  | n + 1, here =>
    RecordSound msg false here ∧ ∀ next, RecordAt msg false here next → AnswersSound msg n next

theorem answersLoop_mono {msg : List UInt8} {fuel resLimit n here : Nat} {y : Rr}
    {resolved : List UInt32} {r : Int × List UInt32}
    (h : answersLoop msg fuel resLimit n here y resolved = .ok r) {fuel' : Nat}
    (hle : fuel ≤ fuel') :
    answersLoop msg fuel' resLimit n here y resolved = .ok r := by
  induction n generalizing here y resolved with
  | zero => exact h
  | succ n ih =>
    rw [answersLoop] at h ⊢
    obtain ⟨rec, hrec, h⟩ := except_bind_eq_ok.mp h
    rw [readRecord_mono hrec hle]
    cases rec with
    | none => exact h
    | some x =>
      obtain ⟨next, y'⟩ := x
      simp only [bind, Except.bind] at h ⊢
      split at h
      · rename_i htake
        rw [if_pos htake]
        exact ih h
      · rename_i htake
        rw [if_neg htake]
        exact ih h

theorem answersLoop_ok_iff (msg : List UInt8) (resLimit n here : Nat) (y : Rr)
    (resolved : List UInt32) :
    (∃ fuel r, answersLoop msg fuel resLimit n here y resolved = .ok r) ↔
      AnswersSound msg n here := by
  induction n generalizing here y resolved with
  | zero => exact iff_of_true ⟨0, _, rfl⟩ trivial
  | succ n ih =>
    rw [AnswersSound]
    constructor
    · rintro ⟨fuel, r, h⟩
      rw [answersLoop] at h
      obtain ⟨rec, hrec, h⟩ := except_bind_eq_ok.mp h
      refine ⟨(readRecord_ok_iff msg here false y).mp ⟨fuel, rec, hrec⟩, fun next hnext => ?_⟩
      rcases readRecord_recordAt hrec with ⟨-, hno⟩ | ⟨next', y', rfl, hat⟩
      · exact absurd hnext (hno next)
      · obtain rfl := (hat next).mp hnext
        simp only [] at h
        split at h
        · exact (ih next y' _).mp ⟨fuel, r, h⟩
        · exact (ih next y' _).mp ⟨fuel, r, h⟩
    · rintro ⟨hsound, hrest⟩
      obtain ⟨fuel, rec, hrec⟩ := (readRecord_ok_iff msg here false y).mpr hsound
      rcases readRecord_recordAt hrec with ⟨rfl, -⟩ | ⟨next, y', rfl, hat⟩
      · refine ⟨fuel, (if resolved.length ≠ 0 then resolved.length else -1, resolved), ?_⟩
        rw [answersLoop, hrec]
        rfl
      · have hnext := hrest next ((hat next).mpr rfl)
        obtain ⟨fuel', r, h⟩ := (ih next y' (if y'.type = 1 ∧ y'.class_ = 1 ∧ y'.len = 4 ∧
          resolved.length < resLimit then resolved ++ [ipv4Ntoi y'.data] else resolved)).mpr hnext
        refine ⟨max fuel fuel', r, ?_⟩
        rw [answersLoop, readRecord_mono hrec (Nat.le_max_left fuel fuel')]
        have hmore := answersLoop_mono h (Nat.le_max_right fuel fuel')
        simp only [bind, Except.bind]
        split at hmore
        · rename_i htake
          rw [if_pos htake]
          exact hmore
        · rename_i htake
          rw [if_neg htake]
          exact hmore

/-- No more addresses than there is room for, and their number, or -1. -/
theorem answersLoop_spec {msg : List UInt8} {fuel resLimit n here : Nat} {y : Rr}
    {resolved : List UInt32} (hroom : resolved.length ≤ resLimit) {r : Int}
    {resolved' : List UInt32}
    (h : answersLoop msg fuel resLimit n here y resolved = .ok (r, resolved')) :
    resolved'.length ≤ resLimit ∧ (r = -1 ∨ r = resolved'.length) := by
  induction n generalizing here y resolved with
  | zero =>
    obtain ⟨rfl, rfl⟩ := Prod.mk.inj (Except.ok.inj h)
    exact ⟨hroom, .inr rfl⟩
  | succ n ih =>
    rw [answersLoop] at h
    obtain ⟨rec, -, h⟩ := except_bind_eq_ok.mp h
    cases rec with
    | none =>
      obtain ⟨rfl, rfl⟩ := Prod.mk.inj (Except.ok.inj h)
      refine ⟨hroom, ?_⟩
      split
      · exact .inr rfl
      · exact .inl rfl
    | some x =>
      obtain ⟨next, y'⟩ := x
      simp only [] at h
      split at h
      · rename_i htake
        refine ih ?_ h
        rw [List.length_append, List.length_singleton]
        omega
      · exact ih hroom h

/-- The number of answers the header names. -/
def ancount (msg : List UInt8) : Int := toShort (ntohs ((msg.take 12).drop 6)).toNat

/-- The header is there as far as it is looked at, and so is each record
that is come to. -/
def DatagramSound (msg : List UInt8) : Prop :=
  8 ≤ msg.length ∧ (msg.getD 6 0 ||| msg.getD 7 0 ≠ 0 →
    12 ≤ msg.length ∧ RecordSound msg true 12 ∧
      ∀ next, RecordAt msg true 12 next → AnswersSound msg (ancount msg).toNat next)

theorem ancount_ne_zero {msg : List UInt8} (h : msg.getD 6 0 ||| msg.getD 7 0 ≠ 0) :
    ancount msg ≠ 0 := by
  have hget : ∀ i < 2, ((msg.take 12).drop 6).getD i 0 = msg.getD (6 + i) 0 := by
    intro i hi
    rw [List.getD_eq_getElem?_getD, List.getElem?_drop, List.getElem?_take_of_lt (by omega),
      List.getD_eq_getElem?_getD]
  have hhigh := hget 0 (by omega)
  have hlow := hget 1 (by omega)
  rw [ancount, ntohs, hhigh, hlow]
  generalize msg.getD 6 0 = b₆ at h
  generalize msg.getD 7 0 = b₇ at h
  have hlt₆ := b₆.toNat_lt
  have hlt₇ := b₇.toNat_lt
  intro hzero
  have hnat : (b₆.toUInt16 <<< 8 ||| b₇.toUInt16).toNat = 0 := by
    have hlt := (b₆.toUInt16 <<< 8 ||| b₇.toUInt16).toNat_lt
    unfold toShort at hzero
    omega
  rw [UInt16.toNat_or, Nat.or_eq_zero_iff, UInt16.toNat_shiftLeft] at hnat
  obtain ⟨h₆, h₇⟩ := hnat
  have hb₇ : b₇ = 0 := UInt8.toNat_inj.mp h₇
  have hb₆ : b₆ = 0 := by
    apply UInt8.toNat_inj.mp
    change b₆.toNat <<< 8 % 2 ^ 16 = 0 at h₆
    rw [Nat.shiftLeft_eq] at h₆
    change b₆.toNat = 0
    omega
  rw [hb₆, hb₇] at h
  exact h rfl

theorem byteAt_ok {msg : List UInt8} {i : Nat} (h : i < msg.length) :
    byteAt msg i = .ok (msg.getD i 0) := by
  rw [byteAt, List.getD_eq_getElem?_getD, List.getElem?_eq_getElem h]
  rfl

theorem byteAt_inv {msg : List UInt8} {i : Nat} {b : UInt8} (h : byteAt msg i = .ok b) :
    i < msg.length ∧ b = msg.getD i 0 := by
  by_cases hin : i < msg.length
  · exact ⟨hin, (Except.ok.inj ((byteAt_ok hin).symm.trans h)).symm⟩
  · rw [byteAt, List.getElem?_eq_none (Nat.le_of_not_lt hin)] at h
    cases h

/-- The datagram behind its header, if that names answers. -/
theorem parseDnsResponse_eq {recvBuf : List UInt8} (hlen : 12 ≤ recvBuf.length)
    (hany : recvBuf.getD 6 0 ||| recvBuf.getD 7 0 ≠ 0) (fuel resLimit : Nat) :
    parseDnsResponse recvBuf fuel resLimit =
      readRecord recvBuf fuel 12 true ⟨[], 0, 0, 0, 0, []⟩ >>=
        parseAnswers recvBuf fuel resLimit (ancount recvBuf) := by
  have hcount : toShort (ntohs (((recvBuf.drop 0).take 12).drop 6)).toNat = ancount recvBuf := by
    rw [ancount, List.drop_zero]
  rw [parseDnsResponse, byteAt_ok (by omega), except_ok_bind, byteAt_ok (by omega), except_ok_bind,
    if_neg hany, bytesAt_ok (by omega), except_ok_bind, hcount, if_neg (ancount_ne_zero hany)]

/-- The datagram is parsed inside its bytes, with at most `resLimit`
addresses stored and -1 or their number returned, exactly if it is sound. -/
theorem parseDnsResponse_safe_iff (recvBuf : List UInt8) (resLimit : Nat) :
    (∃ fuel r resolved, parseDnsResponse recvBuf fuel resLimit = .ok (r, resolved) ∧
      resolved.length ≤ resLimit ∧ (r = -1 ∨ r = resolved.length)) ↔ DatagramSound recvBuf := by
  constructor
  · rintro ⟨fuel, r, resolved, hok, -⟩
    have hcode := hok
    rw [parseDnsResponse] at hcode
    obtain ⟨high, hhigh, hcode⟩ := except_bind_eq_ok.mp hcode
    obtain ⟨low, hlow, hcode⟩ := except_bind_eq_ok.mp hcode
    obtain ⟨-, rfl⟩ := byteAt_inv hhigh
    obtain ⟨hlen, rfl⟩ := byteAt_inv hlow
    refine ⟨hlen, fun hany => ?_⟩
    rw [if_neg hany] at hcode
    obtain ⟨header, hheader, -⟩ := except_bind_eq_ok.mp hcode
    have htwelve : 12 ≤ recvBuf.length := by
      by_contra hcut
      rw [bytesAt, if_neg (by omega)] at hheader
      cases hheader
    rw [parseDnsResponse_eq htwelve hany] at hok
    obtain ⟨rec, hrec, hok⟩ := except_bind_eq_ok.mp hok
    refine ⟨htwelve, (readRecord_ok_iff recvBuf 12 true _).mp ⟨fuel, rec, hrec⟩,
      fun next hnext => ?_⟩
    generalize ancount recvBuf = count at hok ⊢
    rcases readRecord_recordAt hrec with ⟨-, hno⟩ | ⟨next', y', rfl, hat⟩
    · exact absurd hnext (hno next)
    · obtain rfl := (hat next).mp hnext
      exact (answersLoop_ok_iff recvBuf resLimit _ next y' []).mp ⟨fuel, _, hok⟩
  · rintro ⟨hlen, hrest⟩
    by_cases hany : recvBuf.getD 6 0 ||| recvBuf.getD 7 0 = 0
    · refine ⟨0, -1, [], ?_, Nat.zero_le _, .inl rfl⟩
      rw [parseDnsResponse, byteAt_ok (by omega), except_ok_bind, byteAt_ok (by omega),
        except_ok_bind, if_pos hany]
      rfl
    · obtain ⟨htwelve, hsound, hanswers⟩ := hrest hany
      have hparse := fun fuel => parseDnsResponse_eq htwelve hany fuel resLimit
      generalize ancount recvBuf = count at hanswers hparse
      obtain ⟨fuel, rec, hrec⟩ :=
        (readRecord_ok_iff recvBuf 12 true ⟨[], 0, 0, 0, 0, []⟩).mpr hsound
      rcases readRecord_recordAt hrec with ⟨rfl, -⟩ | ⟨next, y', rfl, hat⟩
      · refine ⟨fuel, -1, [], ?_, Nat.zero_le _, .inl rfl⟩
        rw [hparse, hrec]
        rfl
      · obtain ⟨fuel', ⟨r, resolved⟩, hloop⟩ :=
          (answersLoop_ok_iff recvBuf resLimit _ next y' []).mpr
          (hanswers next ((hat next).mpr rfl))
        obtain ⟨hroom, hret⟩ := answersLoop_spec (Nat.zero_le _) hloop
        refine ⟨max fuel fuel', r, resolved, ?_, hroom, hret⟩
        rw [hparse, readRecord_mono hrec (Nat.le_max_left fuel fuel')]
        exact answersLoop_mono hloop (Nat.le_max_right fuel fuel')

/-- An empty datagram: the number of answers is read all the same. -/
theorem parseDnsResponse_empty :
    ¬ ∀ (recvBuf : List UInt8) (resLimit : Nat), ∃ fuel r resolved,
      parseDnsResponse recvBuf fuel resLimit = .ok (r, resolved) ∧
      resolved.length ≤ resLimit ∧ (r = -1 ∨ r = resolved.length) := by
  intro h
  obtain ⟨fuel, r, resolved, hok, -⟩ := h [] 1
  cases hok

end Nanio.Dns
