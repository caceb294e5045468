/-
Nanio.Tmp.TmpFormat — the functions that return a temporary text.

Each formatter of addresses and bytes takes one buffer and writes a text
and its NUL from its start on. None writes more than the buffer holds
(`Call.output_spec`): the longest are an IPv6 address with port, which fits
to the byte, and the hexadecimal texts that are cut to fit. So a text
stays until its buffer is taken again, which the next seven calls do not do
(`run_kept`).
-/
import Nanio.Hex.HexNtoa
import Nanio.Sock.SockAddrRoundTrip

namespace Nanio.Tmp

open Nanio.Lib Nanio.Sock Nanio.Hex

/-! ## §1 The formatters -/

/-- An `io_sock_addr_t`, and what each member of its union reads as. -/
structure SockMembers where
  port : UInt16
  family : Family
  ipv4 : UInt32
  path : Text
  ipv6 : Vector UInt16 8

/-- `ipv4_itoa`. -/
def ipv4ItoaBytes (num : UInt32) : List UInt8 := ipv4Itostr num ++ [0]

/-- `ipv4_stoa`. -/
def ipv4StoaBytes (num : UInt32) (port : UInt16) : List UInt8 :=
  overwrite (ipv4Itostr num ++ [0]) (ipv4Itostr num).length (colon :: decimal port.toNat ++ [0])

/-- `ipv6_htoa`. -/
def ipv6HtoaBytes (net : Inet) (ip : Vector UInt16 8) : List UInt8 :=
  net.ntop (ipv6Hton ip) ++ [0]

/-- `ipv6_stoa`: the port is printed at the NUL of the address. -/
def ipv6StoaBytes (net : Inet) (ip : Vector UInt16 8) (port : UInt16) : List UInt8 :=
  let n := net.ntop (ipv6Hton ip) ++ [0]
  overwrite (ascii '[' :: n) (1 + (cstr n).length)
    (ascii '/' :: decimal port.toNat ++ [ascii ']', 0])

/-- `strf`: `vsnprintf` writes at most the size it is given. -/
def strfBytes (text : Text) : List UInt8 := text.take (TMP_STR_SIZE - 1) ++ [0]

def badAddressFamily (n : Nat) : Text :=
  lit ['[', 'B', 'A', 'D', '_', 'A', 'D', 'D', 'R', 'E', 'S', 'S', '_', 'F', 'A', 'M', 'I', 'L',
    'Y', ':'] ++ decimal n ++ [ascii ']']

/-- `mac_ntostr`: a colon behind each byte, and the NUL over the last. -/
def macNtostrBytes (mac : Vector UInt8 6) : List UInt8 :=
  let str := mac.toList.flatMap fun b => hexByte b ++ [colon]
  overwrite str (str.length - 1) [0]

/-- A call that returns a text. -/
inductive Call where
  | ioSockStoa (sc : SockMembers)
  | ioSockHostoa (sc : SockMembers)
  | ipv4Itoa (num : UInt32)
  | hexNtoa (bin : List UInt8) (size : Nat)
  | macNtoa (mac : Vector UInt8 6)

/-- What a call makes: the bytes it writes to a temporary buffer, or a text
of its argument, without taking a buffer. -/
inductive Output where
  | bytes (b : List UInt8)
  | own (path : Text)
  deriving DecidableEq

def Call.output (net : Inet) : Call → Except TmpFault Output
  | .ioSockStoa sc =>
    match sc.family with
    | .AF_INET => .ok (.bytes (ipv4StoaBytes sc.ipv4 sc.port))
    | .AF_UNIX => .ok (.own sc.path)
    | .AF_INET6 => .ok (.bytes (ipv6StoaBytes net sc.ipv6 sc.port))
    | .other n => .ok (.bytes (strfBytes (badAddressFamily n)))
  | .ioSockHostoa sc =>
    match sc.family with
    | .AF_INET => .ok (.bytes (ipv4ItoaBytes sc.ipv4))
    | .AF_UNIX => .ok (.own sc.path)
    | .AF_INET6 => .ok (.bytes (ipv6HtoaBytes net sc.ipv6))
    | .other n => .ok (.bytes (strfBytes (badAddressFamily n)))
  | .ipv4Itoa num => .ok (.bytes (ipv4ItoaBytes num))
  | .hexNtoa bin size => ((Hex.hexNtoa bin size).map .bytes).mapError fun _ => .outOfBin
  | .macNtoa mac => .ok (.bytes (macNtostrBytes mac))

/-- The pointer a call returns: a buffer, or its argument's own text. -/
inductive Shown where
  | buffer (base : Nat)
  | own (path : Text)
  deriving DecidableEq

def Shown.isBuffer : Shown → Bool
  | .buffer _ => true
  | .own _ => false

def call (net : Inet) (s : TmpStr) (c : Call) : Except TmpFault (Shown × TmpStr) := do
  match ← c.output net with
  | .own path => pure (.own path, s)
  | .bytes b => do
    let (base, s) := getTmpStr s
    let s ← store s base b
    pure (.buffer base, s)

/-- Calls one after the other. -/
def run (net : Inet) : TmpStr → List Call → Except TmpFault (List Shown × TmpStr)
  | s, [] => .ok ([], s)
  | s, c :: calls => do
    let (r, s) ← call net s c
    let (rs, s) ← run net s calls
    pure (r :: rs, s)

/-! ## §2 Each fits its buffer -/

theorem length_bput_le (byte : Nat) : (bput byte).length ≤ 3 := by
  unfold bput
  simp only []
  split
  · simp
  · split <;> simp

theorem length_ipv4Itostr_le (ip : UInt32) : (ipv4Itostr ip).length ≤ 15 := by
  have h₁ := length_bput_le (ip >>> 24).toNat
  have h₂ := length_bput_le (ip >>> 16).toNat
  have h₃ := length_bput_le (ip >>> 8).toNat
  have h₄ := length_bput_le ip.toNat
  simp only [ipv4Itostr, List.length_append, List.length_cons]
  omega

/-- Digits of a number below a power of ten. -/
theorem length_decimalLoop_le (fuel : Nat) {k n : Nat} (hn : n < 10 ^ (k + 1)) (acc : Text) :
    (decimalLoop fuel n acc).length ≤ k + 1 + acc.length := by
  induction fuel generalizing k n acc with
  | zero => simp [decimalLoop]
  | succ fuel ih =>
    rw [decimalLoop]
    split
    · rw [List.length_cons]
      omega
    · rename_i hlarge
      cases k with
      | zero => omega
      | succ k =>
        have hdiv : n / 10 < 10 ^ (k + 1) := by
          rw [Nat.pow_succ] at hn
          omega
        have hlen := ih hdiv (digit (n % 10) :: acc)
        rw [List.length_cons] at hlen
        omega

theorem length_decimal_port_le (port : UInt16) : (decimal port.toNat).length ≤ 5 := by
  have hlt := port.toNat_lt
  exact length_decimalLoop_le (k := 4) _ (by omega) []

theorem overwrite_nul (text more : Text) :
    overwrite (text ++ [0]) text.length (more ++ [0]) = text ++ more ++ [0] := by
  simp [overwrite, List.append_assoc]

/-- What is in the buffer is the text with its NUL. -/
theorem ipv4StoaBytes_eq (num : UInt32) (port : UInt16) :
    ipv4StoaBytes num port = ipv4Stoa num port ++ [0] := by
  have hport := overwrite_nul (ipv4Itostr num) (colon :: decimal port.toNat)
  rwa [ipv4StoaBytes, ipv4Stoa]

theorem ipv6StoaBytes_eq {net : Inet} {ip : Vector UInt16 8} (h0 : 0 ∉ net.ntop (ipv6Hton ip))
    (port : UInt16) : ipv6StoaBytes net ip port = ipv6Stoa net ip port ++ [0] := by
  have hport := overwrite_nul (ascii '[' :: net.ntop (ipv6Hton ip))
    (ascii '/' :: decimal port.toNat ++ [ascii ']'])
  simp only [ipv6StoaBytes, cstr_append h0, ipv6Stoa]
  simp only [List.length_cons, List.cons_append, List.append_assoc, List.nil_append] at hport ⊢
  rw [Nat.add_comm]
  exact hport

/-- A text of at most 48 bytes with its NUL. -/
def Fits (b : List UInt8) : Prop := b.length ≤ TMP_STR_SIZE ∧ 0 ∈ b

theorem fits_ipv4Itoa (num : UInt32) : Fits (ipv4ItoaBytes num) := by
  have hlen := length_ipv4Itostr_le num
  refine ⟨?_, by simp [ipv4ItoaBytes]⟩
  rw [ipv4ItoaBytes, List.length_append, List.length_singleton, TMP_STR_SIZE]
  omega

theorem fits_ipv4Stoa (num : UInt32) (port : UInt16) : Fits (ipv4StoaBytes num port) := by
  have hlen := length_ipv4Itostr_le num
  have hport := length_decimal_port_le port
  refine ⟨?_, mem_overwrite _ _ (by simp)⟩
  rw [ipv4StoaBytes, length_overwrite _ (by simp)]
  simp only [List.length_append, List.length_cons, List.length_nil, TMP_STR_SIZE]
  omega

theorem length_cstr_le (n : Text) : (cstr (n ++ [0])).length ≤ n.length := by
  induction n with
  | nil => simp [cstr]
  | cons c n ih =>
    simp only [cstr, List.cons_append, List.takeWhile_cons] at ih ⊢
    split
    · simpa using ih
    · simp

section

variable {net : Inet} (hntop : ∀ n, (net.ntop n).length ≤ 39)

include hntop

theorem fits_ipv6Htoa (ip : Vector UInt16 8) : Fits (ipv6HtoaBytes net ip) := by
  have hlen := hntop (ipv6Hton ip)
  refine ⟨?_, by simp [ipv6HtoaBytes]⟩
  rw [ipv6HtoaBytes, List.length_append, List.length_singleton, TMP_STR_SIZE]
  omega

/-- A bracket, 39 characters, a slash, five digits, a bracket and the NUL. -/
theorem fits_ipv6Stoa (ip : Vector UInt16 8) (port : UInt16) :
    Fits (ipv6StoaBytes net ip port) := by
  have hlen := hntop (ipv6Hton ip)
  have hport := length_decimal_port_le port
  have hcstr := length_cstr_le (net.ntop (ipv6Hton ip))
  refine ⟨?_, mem_overwrite _ _ (by simp)⟩
  rw [ipv6StoaBytes, length_overwrite _ (by simp; omega)]
  simp only [List.length_append, List.length_cons, List.length_nil, TMP_STR_SIZE]
  omega

end

theorem fits_strf (text : Text) : Fits (strfBytes text) := by
  refine ⟨?_, by simp [strfBytes]⟩
  simp only [strfBytes, List.length_append, List.length_take, List.length_singleton, TMP_STR_SIZE]
  omega

theorem fits_macNtostr (mac : Vector UInt8 6) : Fits (macNtostrBytes mac) := by
  have hlen : (mac.toList.flatMap fun b => hexByte b ++ [colon]).length = 18 := by
    simp [List.length_flatMap, hexByte, List.map_const']
  refine ⟨?_, mem_overwrite _ _ (by simp)⟩
  rw [macNtostrBytes, length_overwrite _ (Nat.sub_le _ 1), hlen]
  decide

/-- The hexadecimal text of a long array and of a short one. -/
theorem fits_hexNtoa {bin : List UInt8} {size : Nat} {b : List UInt8}
    (h : Hex.hexNtoa bin size = .ok b) : Fits b := by
  by_cases hlong : TMP_STR_SIZE < toUnsignedLong ((size : Int) * 2 - 2)
  · have hbin : 22 ≤ bin.length := by
      rw [Hex.hexNtoa, if_pos hlong] at h
      obtain ⟨r, hwrite, -⟩ := except_bind_eq_ok.mp h
      exact hexNtostr_readable hwrite
    obtain rfl := Except.ok.inj ((hexNtoa_long bin hlong hbin).symm.trans h)
    have hlen : (hexOf (bin.take 22)).length = 44 := by
      rw [length_hexOf, List.length_take, Nat.min_eq_left hbin]
    exact ⟨by simp [hlen, dots, lit, TMP_STR_SIZE], by simp⟩
  · have hbin : min size 23 ≤ bin.length := by
      rw [Hex.hexNtoa, if_neg hlong] at h
      obtain ⟨r, hwrite, -⟩ := except_bind_eq_ok.mp h
      exact hexNtostr_readable hwrite
    obtain rfl := Except.ok.inj ((hexNtoa_short bin hlong hbin).symm.trans h)
    refine ⟨?_, by simp⟩
    simp only [List.length_append, length_hexOf, List.length_take, List.length_singleton,
      TMP_STR_SIZE]
    omega

/-- Whatever a call writes fits in its buffer, and no call fails but by
reading behind an array. -/
theorem Call.output_spec {net : Inet} (hntop : ∀ n, (net.ntop n).length ≤ 39) (c : Call) :
    c.output net ≠ .error .overflow ∧ ∀ b, c.output net = .ok (.bytes b) → Fits b := by
  have hsock : ∀ {b b' : List UInt8}, Fits b → (.ok (.bytes b) : Except TmpFault Output) =
      .ok (.bytes b') → Fits b' := by
    intro b b' hb h
    cases h
    exact hb
  cases c with
  | ioSockStoa sc =>
    simp only [output]
    cases sc.family with
    | AF_INET => exact ⟨by simp, fun b => hsock (fits_ipv4Stoa _ _)⟩
    | AF_UNIX => exact ⟨by simp, by simp⟩
    | AF_INET6 => exact ⟨by simp, fun b => hsock (fits_ipv6Stoa hntop _ _)⟩
    | other n => exact ⟨by simp, fun b => hsock (fits_strf _)⟩
  | ioSockHostoa sc =>
    simp only [output]
    cases sc.family with
    | AF_INET => exact ⟨by simp, fun b => hsock (fits_ipv4Itoa _)⟩
    | AF_UNIX => exact ⟨by simp, by simp⟩
    | AF_INET6 => exact ⟨by simp, fun b => hsock (fits_ipv6Htoa hntop _)⟩
    | other n => exact ⟨by simp, fun b => hsock (fits_strf _)⟩
  | ipv4Itoa num => exact ⟨by simp [output], fun b => hsock (fits_ipv4Itoa _)⟩
  | hexNtoa bin size =>
    simp only [output]
    cases hcode : Hex.hexNtoa bin size with
    | error f =>
      exact ⟨by simp [Except.map, Except.mapError], by simp [Except.map, Except.mapError]⟩
    | ok b => exact ⟨by simp [Except.map, Except.mapError], fun b' => hsock (fits_hexNtoa hcode)⟩
  | macNtoa mac => exact ⟨by simp [output], fun b => hsock (fits_macNtostr _)⟩

/-! ## §3 Sequences of calls -/

section

variable {net : Inet} (hntop : ∀ n, (net.ntop n).length ≤ 39)

include hntop

/-- What a call leaves: the buffer it takes holds a text, no byte outside
it changes, and the next call takes the buffer behind it; or it takes none. -/
theorem call_spec (s : TmpStr) (c : Call) :
    call net s c ≠ .error .overflow ∧
    (∀ base s', call net s c = .ok (.buffer base, s') →
      base = slot s * TMP_STR_SIZE ∧ slot s' = (slot s + 1) % 8 ∧
      (∀ i (h : i < 8 * TMP_STR_SIZE), i < base ∨ base + TMP_STR_SIZE ≤ i → s'.buf[i] = s.buf[i]) ∧
      ∃ j < TMP_STR_SIZE, ∃ h : base + j < 8 * TMP_STR_SIZE, s'.buf[base + j] = 0) ∧
    ∀ path s', call net s c = .ok (.own path, s') → s' = s := by
  obtain ⟨hfault, hfits⟩ := c.output_spec hntop
  cases hout : c.output net with
  | error f =>
    have hne : f ≠ .overflow := fun he => hfault (he ▸ hout)
    simp [call, hout, bind, Except.bind, hne]
  | ok out =>
    cases out with
    | own path => simp [call, hout, bind, Except.bind, pure, Except.pure]
    | bytes b =>
      obtain ⟨hlen, hzero⟩ := hfits b hout
      have hslot := slot_lt s
      obtain ⟨s₁, hstore, hindex, hkeep, hput⟩ := store_spec (getTmpStr s).2 hslot hlen
      have hcall : call net s c = .ok (.buffer (slot s * TMP_STR_SIZE), s₁) := by
        simp only [getTmpStr] at hstore
        simp only [call, hout, bind, Except.bind, getTmpStr, hstore]
        rfl
      have hnext : slot s₁ = (slot s + 1) % 8 := by
        rw [← slot_getTmpStr s, slot, slot, hindex]
      refine ⟨by simp [hcall], ?_, by simp [hcall]⟩
      intro base s' h
      obtain ⟨hbase, rfl⟩ := Prod.mk.inj (Except.ok.inj (hcall.symm.trans h))
      obtain rfl := Shown.buffer.inj hbase
      refine ⟨rfl, hnext, fun i hi hout => hkeep i hi (by omega), ?_⟩
      obtain ⟨j, hj, hnul⟩ := List.getElem_of_mem hzero
      have hin : slot s * TMP_STR_SIZE + j < 8 * TMP_STR_SIZE := by
        have hle := Nat.mul_le_mul_right TMP_STR_SIZE (by omega : slot s ≤ 7)
        unfold TMP_STR_SIZE at *
        omega
      exact ⟨j, by omega, hin, by rw [hput j hj hin, hnul]⟩

theorem run_not_overflow (s : TmpStr) (calls : List Call) : run net s calls ≠ .error .overflow := by
  induction calls generalizing s with
  | nil => simp [run]
  | cons c calls ih =>
    rw [run]
    intro h
    cases hc : call net s c with
    | error f =>
      simp only [hc, bind, Except.bind] at h
      obtain rfl := Except.error.inj h
      exact (call_spec hntop s c).1 hc
    | ok r =>
      cases hr : run net r.2 calls with
      | error f =>
        simp only [hc, hr, bind, Except.bind] at h
        obtain rfl := Except.error.inj h
        exact ih r.2 hr
      | ok rs => simp [hc, hr, bind, Except.bind, pure, Except.pure] at h

/-- A buffer `d` turns behind the next to be taken stays as it is while
fewer than `8 - d` more are taken. -/
theorem run_kept {k d : Nat} (hd : 1 ≤ d) {s : TmpStr} (hslot : slot s = (k + d) % 8)
    {calls : List Call} {rs : List Shown} {s' : TmpStr} (h : run net s calls = .ok (rs, s'))
    (hcount : d + rs.countP Shown.isBuffer ≤ 8) : SameBuffer (k * TMP_STR_SIZE) s s' := by
  induction calls generalizing s d rs with
  | nil =>
    obtain ⟨-, rfl⟩ := Prod.mk.inj (Except.ok.inj h)
    exact fun _ _ _ _ => rfl
  | cons c calls ih =>
    obtain ⟨-, hbuffer, hown⟩ := call_spec hntop s c
    obtain ⟨⟨r, s₁⟩, hcall, h⟩ := except_bind_eq_ok.mp h
    obtain ⟨⟨rs₁, s₂⟩, hrun, h⟩ := except_bind_eq_ok.mp h
    obtain ⟨rfl, rfl⟩ := Prod.mk.inj (Except.ok.inj h)
    cases r with
    | own path =>
      obtain rfl := hown path s₁ hcall
      have hsame : (Shown.own path :: rs₁).countP Shown.isBuffer = rs₁.countP Shown.isBuffer :=
        List.countP_cons_of_neg (by simp [Shown.isBuffer])
      exact ih hd hslot hrun (by omega)
    | buffer base =>
      obtain ⟨rfl, hnext, hkeep, -⟩ := hbuffer base s₁ hcall
      have hmore : (Shown.buffer (slot s * TMP_STR_SIZE) :: rs₁).countP Shown.isBuffer =
          rs₁.countP Shown.isBuffer + 1 := List.countP_cons_of_pos rfl
      have hrest := ih (by omega : 1 ≤ d + 1) (by omega) hrun (by omega)
      -- the buffer that is taken is another one
      have hother : slot s ≠ k := by omega
      intro i hi hlow hhigh
      rw [hrest i hi hlow hhigh]
      refine hkeep i hi ?_
      unfold TMP_STR_SIZE at *
      omega

/-- No sequence of calls writes behind the buffers, each call writes only
inside the buffer it takes, and the text it returns stays during the next
seven calls that take one. -/
theorem tmpStr_kept :
    (∀ s calls, run net s calls ≠ .error .overflow) ∧
    (∀ s c base s', call net s c = .ok (.buffer base, s') → base = slot s * TMP_STR_SIZE ∧
      ∀ i (h : i < 8 * TMP_STR_SIZE), i < base ∨ base + TMP_STR_SIZE ≤ i → s'.buf[i] = s.buf[i]) ∧
    (∀ s c path s', call net s c = .ok (.own path, s') → s' = s) ∧
    (∀ s c base s₁ calls rs s₂, call net s c = .ok (.buffer base, s₁) →
      run net s₁ calls = .ok (rs, s₂) → rs.countP Shown.isBuffer ≤ 7 →
      textAt s₂ base = textAt s₁ base) := by
  refine ⟨run_not_overflow hntop, ?_, fun s c => (call_spec hntop s c).2.2, ?_⟩
  · intro s c base s' h
    obtain ⟨hbase, -, hkeep, -⟩ := (call_spec hntop s c).2.1 base s' h
    exact ⟨hbase, hkeep⟩
  · intro s c base s₁ calls rs s₂ hcall hrun hcount
    obtain ⟨rfl, hnext, -, j, hj, hin, hnul⟩ := (call_spec hntop s c).2.1 base s₁ hcall
    have hsame := run_kept hntop (Nat.le_refl 1) hnext hrun (by omega)
    exact textAt_congr hsame hj hin hnul

end

/-- `buf` and `index` at the start of the program. -/
def noTmpStr : TmpStr := ⟨Vector.replicate _ 0, 0⟩

/-- `[::1/80]` is still there after `0.0.0.0`. -/
theorem tmpStr_kept_two :
    ∃ s₁ s₂, call loopbackInet noTmpStr (.ioSockStoa ⟨80, .AF_INET6, 0, [], loopback⟩) =
        .ok (.buffer 0, s₁) ∧
      run loopbackInet s₁ [.ipv4Itoa 0] = .ok ([.buffer 48], s₂) ∧ textAt s₂ 0 = textAt s₁ 0 := by
  have hntop : ∀ n, (loopbackInet.ntop n).length ≤ 39 := by
    intro n
    show (if n = ipv6Hton loopback then lit [':', ':', '1'] else lit [':', ':']).length ≤ 39
    split <;> decide
  obtain ⟨s₁, s₂, hcall, hrun⟩ : ∃ s₁ s₂, call loopbackInet noTmpStr
      (.ioSockStoa ⟨80, .AF_INET6, 0, [], loopback⟩) = .ok (.buffer 0, s₁) ∧
      run loopbackInet s₁ [.ipv4Itoa 0] = .ok ([.buffer 48], s₂) := ⟨_, _, rfl, rfl⟩
  exact ⟨s₁, s₂, hcall, hrun, (tmpStr_kept hntop).2.2.2 _ _ _ _ _ _ _ hcall hrun (by decide)⟩

end Nanio.Tmp
