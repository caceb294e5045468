/-
Nanio.Dns.ResolvConf — `dns_readResolvConf` and `dns_writeResolvConf` of
`oi_dns.c`.

The writer makes a line for each address that is not zero. The reader
compares eleven bytes at the start of each line, however few are left, and a
file that ends in a line feed has a last line with none. So what was written
is read back where the limit is reached before, or where the block of the
file goes on behind its NUL (`resolv_conf_read_back`). The addresses are
counted in an `int`.

`loadFile` and `writeStrToFile` are not in the repository. The reader is
given the text of the file, with the number of bytes the block has behind
the NUL, and the writer comes to the text that is passed on.
-/
import Nanio.Dns.GetObjectname
import Nanio.Sock.Ipv4List
import Nanio.Tmp.TmpFormat

namespace Nanio.Dns

open Nanio.Lib Nanio.Sock

/-! ## §1 The code -/

def nameserver : Text := lit ['n', 'a', 'm', 'e', 's', 'e', 'r', 'v', 'e', 'r', ' ']
def newline : UInt8 := ascii '\n'

/-- What can go wrong: a read behind the text, or `i++` of the greatest `int`. -/
inductive ResolvFault where
  | text (f : TextFault)
  | intOverflow
  deriving DecidableEq, Repr

/-- `!memcmp(line, "nameserver ", 11)`, with `pad` bytes behind the NUL: they
have to be there, but they cannot make the comparison come out equal. -/
def isNameserver (pad : Nat) (line : Text) : Except ResolvFault Bool :=
  if nameserver.length ≤ line.length + 1 + pad then .ok (nameserver.isPrefixOf line)
  else .error (.text .outOfText)

/-- What a line adds to `dns_ip`, behind `i` addresses. -/
def resolvLine (pad i : Nat) (line : Text) : Except ResolvFault (List UInt32) := do
  if ← isNameserver pad line then
    let ip ← (ipv4Atoi (skipBlanks (line.drop nameserver.length))).mapError .text
    if 2 ^ 31 ≤ i + 1 then .error .intOverflow else pure [ip]
  else pure []

/-- The loop of `dns_readResolvConf`. -/
def resolvLoop (pad limit i : Nat) (line : Text) : Except ResolvFault (List UInt32) :=
  if limit ≤ i then .ok []
  else do
    let found ← resolvLine pad i line
    match _h : strchr newline line with
    | none => pure found
    | some next => do
      let more ← resolvLoop pad limit (i + found.length) (next.drop 1)
      pure (found ++ more)
termination_by line.length
decreasing_by
  obtain ⟨v, rest, rfl, rfl, -⟩ := (strchr_eq_some_iff _ _ _).mp _h
  simp only [List.drop_succ_cons, List.drop_zero, List.length_append, List.length_cons]
  omega

/-- `dns_readResolvConf`: what it returns, and the addresses stored. -/
def dnsReadResolvConf (file : Option (Text × Nat)) (limit : Nat) :
    Except ResolvFault (Int × List UInt32) :=
  match file with
  | none => .ok (-1, [])
  | some (text, pad) => do
    let ips ← resolvLoop pad limit 0 text
    pure (ips.length, ips)

/-- `"nameserver %s\n"`. -/
def resolvEntry (ip : UInt32) : Text := nameserver ++ ipv4Itostr ip ++ [newline]

/-- The loop of `dns_writeResolvConf`, with so much room behind `p`: a line
that `snprintf` would cut is a fault. -/
def writeResolvLoop : Nat → List UInt32 → Except DnsFault Text
  | _, [] => .ok []
  | room, ip :: ips =>
    if ip ≠ 0 then
      if (resolvEntry ip).length < room then do
        let text ← writeResolvLoop (room - (resolvEntry ip).length) ips
        pure (resolvEntry ip ++ text)
      else .error .overflow
    else writeResolvLoop room ips

/-- `sizeof "nameserver 123.123.123.123\n"`. -/
def resolvEntrySize : Nat := 28

/-- `dns_writeResolvConf`: the text that is passed to `writeStrToFile`. -/
def dnsWriteResolvConf (ips : List UInt32) : Except DnsFault Text :=
  writeResolvLoop (ips.length * resolvEntrySize + 1) ips

/-- A line is one address at most. -/
theorem length_resolvLine {pad i : Nat} {line : Text} {ips : List UInt32}
    (h : resolvLine pad i line = .ok ips) : ips.length ≤ 1 := by
  obtain ⟨found, -, h⟩ := except_bind_eq_ok.mp h
  cases found with
  | false =>
    obtain rfl := Except.ok.inj h
    exact Nat.zero_le 1
  | true =>
    obtain ⟨ip, -, h⟩ := except_bind_eq_ok.mp h
    split at h
    · cases h
    · obtain rfl := Except.ok.inj h
      exact Nat.le_refl 1

/-- As many addresses are stored as there is room for, at most. -/
theorem length_resolvLoop {pad limit i : Nat} {line : Text} {ips : List UInt32}
    (h : resolvLoop pad limit i line = .ok ips) : ips.length ≤ limit - i := by
  fun_induction resolvLoop pad limit i line generalizing ips with
  | case1 i line =>
    obtain rfl := Except.ok.inj h
    exact Nat.zero_le _
  | case2 i line hleft ih =>
    obtain ⟨found, hfound, h⟩ := except_bind_eq_ok.mp h
    have hone := length_resolvLine hfound
    split at h
    · obtain rfl := Except.ok.inj h
      omega
    · next next_ hnext =>
      obtain ⟨more, hmore, h⟩ := except_bind_eq_ok.mp h
      obtain rfl := Except.ok.inj h
      have := ih found next_ hnext hmore
      rw [List.length_append]
      omega

theorem length_dnsReadResolvConf {file : Option (Text × Nat)} {limit : Nat} {n : Int}
    {ips : List UInt32} (h : dnsReadResolvConf file limit = .ok (n, ips)) : ips.length ≤ limit := by
  cases file with
  | none =>
    obtain ⟨-, rfl⟩ := Prod.mk.inj (Except.ok.inj h)
    exact Nat.zero_le _
  | some file =>
    obtain ⟨found, hfound, hpure⟩ := except_bind_eq_ok.mp h
    obtain ⟨-, rfl⟩ := Prod.mk.inj (Except.ok.inj hpure)
    exact length_resolvLoop hfound

/-! ## §2 What is written -/

theorem length_resolvEntry (ip : UInt32) : (resolvEntry ip).length < resolvEntrySize := by
  have hlen := Tmp.length_ipv4Itostr_le ip
  have hname : nameserver.length = 11 := rfl
  have hsize : resolvEntrySize = 28 := rfl
  simp only [resolvEntry, List.length_append, List.length_singleton]
  omega

/-- The addresses that get a line. -/
def given (ips : List UInt32) : List UInt32 := ips.filter (· ≠ 0)

/-- There is room for all of it. -/
theorem writeResolvLoop_eq (ips : List UInt32) {room : Nat}
    (h : ips.length * resolvEntrySize + 1 ≤ room) :
    writeResolvLoop room ips = .ok ((given ips).flatMap resolvEntry) := by
  induction ips generalizing room with
  | nil => rfl
  | cons ip ips ih =>
    have hentry := length_resolvEntry ip
    have hmul : (ips.length + 1) * resolvEntrySize =
        ips.length * resolvEntrySize + resolvEntrySize :=
      Nat.succ_mul _ _
    rw [List.length_cons, hmul] at h
    rw [writeResolvLoop]
    by_cases hip : ip ≠ 0
    · have hroom : (resolvEntry ip).length < room := by omega
      have hrest : ips.length * resolvEntrySize + 1 ≤ room - (resolvEntry ip).length := by omega
      have hgiven : given (ip :: ips) = ip :: given ips := by simp [given, hip]
      rw [if_pos hip, if_pos hroom, ih hrest, hgiven, List.flatMap_cons]
      rfl
    · have hgiven : given (ip :: ips) = given ips := by simp [given, hip]
      rw [if_neg hip, ih (by omega), hgiven]

theorem dnsWriteResolvConf_eq (ips : List UInt32) :
    dnsWriteResolvConf ips = .ok ((given ips).flatMap resolvEntry) :=
  writeResolvLoop_eq ips (Nat.le_refl _)

/-! ## §3 Reading it back -/

/-- An address is digits and dots. -/
theorem newline_notMem_ipv4Itostr (ip : UInt32) : newline ∉ ipv4Itostr ip := by
  obtain ⟨d₁, d₂, d₃, d₄, n₁, n₂, n₃, n₄, htext, ⟨h₁, -⟩, ⟨h₂, -⟩, ⟨h₃, -⟩, ⟨h₄, -⟩, -⟩ :=
    quad_ipv4Itostr ip
  have hnum : ∀ {ds : Text} {n : Nat}, Numeral ds n → newline ∉ ds := by
    intro ds n hds hmem
    have hdigit := hds.isDigit newline hmem
    have hnot : isDigit newline = false := by decide
    cases hnot.symm.trans hdigit
  have hdot : newline ≠ dot := by decide
  simp [htext, hnum h₁, hnum h₂, hnum h₃, hnum h₄, show newline ≠ Sock.dot from hdot]

section

variable (pad : Nat) (ip : UInt32) (rest : Text)

theorem isNameserver_entry : isNameserver pad (resolvEntry ip ++ rest) = .ok true := by
  have hlen : nameserver.length ≤ (resolvEntry ip ++ rest).length + 1 + pad := by
    simp only [resolvEntry, List.length_append]
    omega
  have hprefix : nameserver <+: resolvEntry ip ++ rest := by
    simp [resolvEntry, List.append_assoc]
  rw [isNameserver, if_pos hlen, List.isPrefixOf_iff_prefix.mpr hprefix]

theorem resolvLine_entry (i : Nat) : resolvLine pad i (resolvEntry ip ++ rest) =
    if 2 ^ 31 ≤ i + 1 then .error .intOverflow else .ok [ip] := by
  have hquad := quad_ipv4Itostr ip
  have hdrop : (resolvEntry ip ++ rest).drop nameserver.length =
      ipv4Itostr ip ++ newline :: rest := by
    simp [resolvEntry, List.append_assoc]
  have hskip : skipBlanks (ipv4Itostr ip ++ newline :: rest) =
      ipv4Itostr ip ++ newline :: rest := by
    obtain ⟨d, hd, more, htext⟩ := hquad.head
    refine skipBlanks_blanks 0 ?_
    have hblank : ∀ d : Fin 10, digit d ≠ ascii ' ' := by decide +kernel
    show (ipv4Itostr ip ++ newline :: rest).head? ≠ some (ascii ' ')
    simpa [htext] using hblank ⟨d, hd⟩
  have hend : ∀ c ∈ (newline :: rest).head?, isDigit c = false := by
    simp only [List.head?_cons, Option.mem_def, Option.some.injEq]
    rintro c rfl
    decide
  rw [resolvLine, isNameserver_entry]
  simp only [bind, Except.bind, if_true, hdrop, hskip, hquad.atoi hend]
  rfl

theorem strchr_entry : strchr newline (resolvEntry ip ++ rest) = some (newline :: rest) := by
  refine (strchr_eq_some_iff _ _ _).mpr ⟨nameserver ++ ipv4Itostr ip, rest, ?_, rfl, ?_⟩
  · simp [resolvEntry, List.append_assoc]
  · have hname : newline ∉ nameserver := by decide
    simp [hname, newline_notMem_ipv4Itostr]

end

/-- By induction on the lines; behind the last there is the end of the file. -/
theorem resolvLoop_entries (pad limit : Nat) {i : Nat} (hi : i < 2 ^ 31) (ips : List UInt32) :
    resolvLoop pad limit i (ips.flatMap resolvEntry) =
      if 2 ^ 31 ≤ min limit (i + ips.length) then .error .intOverflow
      else if limit ≤ i + ips.length ∨ 10 ≤ pad then .ok (ips.take (limit - i))
      else .error (.text .outOfText) := by
  induction ips generalizing i with
  | nil =>
    have hcount : ¬ 2 ^ 31 ≤ min limit (i + ([] : List UInt32).length) := by
      rw [List.length_nil]
      omega
    rw [resolvLoop, if_neg hcount]
    by_cases hleft : limit ≤ i
    · simp [hleft]
    · have hname : nameserver.length = 11 := rfl
      have hread : isNameserver pad [] =
          if 10 ≤ pad then .ok false else .error (.text .outOfText) := by
        have hlen : nameserver.length ≤ ([] : Text).length + 1 + pad ↔ 10 ≤ pad := by
          simp only [hname, List.length_nil]
          omega
        simp only [isNameserver, hlen]
        rfl
      have hcond : limit ≤ i + ([] : List UInt32).length ∨ 10 ≤ pad ↔ 10 ≤ pad := by
        simp [hleft]
      rw [if_neg hleft, List.flatMap_nil, resolvLine, hread]
      simp only [hcond]
      by_cases hpad : 10 ≤ pad
      · simp [hpad, bind, Except.bind, pure, Except.pure, strchr, strpbrk]
      · simp [hpad, bind, Except.bind]
  | cons ip ips ih =>
    rw [resolvLoop, List.flatMap_cons]
    by_cases hleft : limit ≤ i
    · have hcount : ¬ 2 ^ 31 ≤ min limit (i + (ip :: ips).length) := by omega
      have hread : limit ≤ i + (ip :: ips).length ∨ 10 ≤ pad := by omega
      rw [if_pos hleft, if_neg hcount, if_pos hread, Nat.sub_eq_zero_of_le hleft, List.take_zero]
    rw [if_neg hleft, resolvLine_entry]
    by_cases hover : 2 ^ 31 ≤ i + 1
    · -- the counter is at the greatest `int`
      have hcount : 2 ^ 31 ≤ min limit (i + (ip :: ips).length) := by
        rw [List.length_cons]
        omega
      rw [if_pos hover, if_pos hcount]
      rfl
    · have hlen : i + [ip].length + ips.length = i + (ip :: ips).length := by
        simp only [List.length_cons, List.length_nil]
        omega
      have htake : (ip :: ips).take (limit - i) = ip :: ips.take (limit - (i + [ip].length)) := by
        obtain ⟨n, hn⟩ := Nat.exists_eq_succ_of_ne_zero (by omega : limit - i ≠ 0)
        have hn' : limit - (i + [ip].length) = n := by
          rw [List.length_singleton]
          omega
        rw [hn, hn']
        rfl
      rw [if_neg hover]
      simp only [bind, Except.bind]
      split
      · next hnone => cases (strchr_entry ip _).symm.trans hnone
      · next next_ hsome =>
        obtain rfl := Option.some.inj ((strchr_entry ip _).symm.trans hsome)
        rw [List.drop_succ_cons, List.drop_zero, ih (by rw [List.length_singleton]; omega), hlen,
          htake]
        by_cases hcount : 2 ^ 31 ≤ min limit (i + (ip :: ips).length)
        · rw [if_pos hcount, if_pos hcount]
        · rw [if_neg hcount, if_neg hcount]
          by_cases hread : limit ≤ i + (ip :: ips).length ∨ 10 ≤ pad
          · rw [if_pos hread, if_pos hread]
            rfl
          · rw [if_neg hread, if_neg hread]

/-- **What is written is read back**, all but the zero addresses and up to
the limit, as long as an `int` can count them. With fewer addresses than the
limit asks for the reader goes on at the end of the file, and past the NUL. -/
theorem resolv_conf_read_back (ips : List UInt32) (limit pad : Nat) :
    ∃ text, dnsWriteResolvConf ips = .ok text ∧
      dnsReadResolvConf (some (text, pad)) limit =
        if 2 ^ 31 ≤ min limit (given ips).length then .error .intOverflow
        else if limit ≤ (given ips).length ∨ 10 ≤ pad then
          .ok (((given ips).take limit).length, (given ips).take limit)
        else .error (.text .outOfText) := by
  refine ⟨_, dnsWriteResolvConf_eq ips, ?_⟩
  rw [dnsReadResolvConf, resolvLoop_entries pad limit (by decide), Nat.zero_add, Nat.sub_zero]
  split
  · rfl
  · split <;> rfl

example : dnsReadResolvConf ((dnsWriteResolvConf [0x08080808, 0]).toOption.map (·, 0)) 3 =
    .error (.text .outOfText) := by
  decide +kernel

end Nanio.Dns
