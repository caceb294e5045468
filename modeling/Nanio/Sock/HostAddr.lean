/-
Nanio.Sock.HostAddr — an address as text, in an `io_sock_addr_t` and in a
`struct sockaddr`.

Without a port an address comes back from its text, also an IPv6 address:
its text is tried as an IPv4 address first, but has a colon where that would
have its first dot. From a `struct sockaddr` an address with its port comes
back, but not a path: `io_sock_get_addr` has the empty path for all of them.
-/
import Nanio.Sock.Ipv4Numbers
import Nanio.Sock.SockAddrRoundTrip

namespace Nanio.Sock

open Nanio.Lib

/-! ## §1 The functions -/

/-- `ipv6_htoa`. -/
def ipv6Htoa (net : Inet) (ip : Vector UInt16 8) : Text := net.ntop (ipv6Hton ip)

/-- `ipv6_isip`. -/
def ipv6Isip (net : Inet) (str : Text) : Bool := (net.pton str).isSome

/-- `io_sock_hostoa`. -/
def ioSockHostoa (net : Inet) (sc : IoSockAddr) : Except SockFault Text :=
  match sc.family, sc.addr with
  | .AF_INET, .ipv4 n => .ok (ipv4Itostr n)
  | .AF_UNIX, .path p => .ok p
  | .AF_INET6, .ipv6 h => .ok (ipv6Htoa net h)
  | .other n, _ =>
    .ok (lit ['[', 'B', 'A', 'D', '_', 'A', 'D', 'D', 'R', 'E', 'S', 'S', '_', 'F', 'A', 'M', 'I',
      'L', 'Y', ':'] ++ decimal n ++ [ascii ']'])
  | _, _ => .error .wrongMember

/-- `io_sock_atohost`: whether it returns a family, which is that of `*host`
then. -/
def ioSockAtohost (net : Inet) (host : IoSockAddr) (a : Text) :
    Except TextFault (Bool × IoSockAddr) := do
  if a.head? = some (ascii '/') then pure (true, { host with addr := .path a, family := .AF_UNIX })
  else if ← ipv4Isip a then do
    let n ← ipv4Atoi a
    pure (true, { host with addr := .ipv4 n, family := .AF_INET })
  else if ipv6Isip net a then
    pure (true, { host with addr := .ipv6 (ipv6Atoh net a).2, family := .AF_INET6 })
  else pure (false, host)

/-- `io_sock_any`: none for success, or errno. -/
def ioSockAny (host : IoSockAddr) (family : Family) (port : Int) : Option Errno × IoSockAddr :=
  let host := { host with port := UInt16.ofInt port, family }
  match family with
  | .AF_INET => (none, { host with addr := .ipv4 0 })
  | .AF_INET6 => (none, { host with addr := .ipv6 (Vector.replicate 8 0) })
  | _ => (some .EINVAL, host)

/-! ## §2 The text -/

theorem Number.chars {t : Text} {n : Nat} (h : Number t n) : colon ∉ t ∧ dot ∉ t := by
  have hsigns : colon ≠ ascii '+' ∧ colon ≠ ascii '-' ∧ dot ≠ ascii '+' ∧ dot ≠ ascii '-' := by
    decide
  have hspaces : isSpace colon = false ∧ isSpace dot = false := by decide
  have hdigits : isDigit colon = false ∧ isDigit dot = false := by decide
  cases h with
  | @mk space ds sign n hspace h =>
    have hsign : colon ∉ sign.text ∧ dot ∉ sign.text := by
      cases sign <;> simp [Sign.text, hsigns]
    constructor
    · simp only [List.mem_append, not_or]
      exact ⟨fun hm => by simp [hspace _ hm] at hspaces, hsign.1,
        fun hm => by simp [h.isDigit _ hm] at hdigits⟩
    · simp only [List.mem_append, not_or]
      exact ⟨fun hm => by simp [hspace _ hm] at hspaces, hsign.2,
        fun hm => by simp [h.isDigit _ hm] at hdigits⟩

/-- A number ends before a colon, so it has no dot behind it. -/
theorem ipv4Isip_colon {front : Text} (hdot : dot ∉ front) (rest : Text) :
    ipv4Isip (front ++ colon :: rest) = .ok false := by
  by_cases hbad : (strtoul (front ++ colon :: rest)).2.length = (front ++ colon :: rest).length ∨
      256 ≤ (strtoul (front ++ colon :: rest)).1
  · exact (loops_bad 3 0 hbad).1
  · obtain ⟨t, ht, hp, -⟩ := strtoul_number (not_or.mp hbad).1
    refine (loops_no_dot 2 0 hbad fun hhead => ?_).1
    obtain ⟨q, hq⟩ : ∃ q, (strtoul (front ++ colon :: rest)).2 = dot :: q :=
      List.head?_eq_some_iff.mp hhead
    rw [hq] at hp
    obtain ⟨hcolon, hdot'⟩ := ht.chars
    have hne : colon ≠ dot := by decide
    rcases List.append_eq_append_iff.mp hp with ⟨more, rfl, hmore⟩ | ⟨more, rfl, hmore⟩
    · cases more with
      | nil => exact hne (List.cons.inj hmore).1
      | cons c more =>
        obtain rfl : colon = c := (List.cons.inj hmore).1
        simp at hcolon
    · cases more with
      | nil => exact hne (List.cons.inj hmore).1.symm
      | cons c more =>
        obtain rfl : dot = c := (List.cons.inj hmore).1
        simp at hdot

/-! ## §3 The bytes -/

theorem ntohs_htons (x : UInt16) : ntohs (htons x) = x := by
  apply UInt16.eq_of_toBitVec_eq
  simp only [ntohs, htons, List.getD_cons_zero, List.getD_cons_succ, UInt16.toBitVec_or,
    UInt16.toBitVec_shiftLeft, UInt8.toBitVec_toUInt16, UInt16.toBitVec_toUInt8,
    UInt16.toBitVec_shiftRight]
  ext i hi
  simp only [BitVec.getElem_or, BitVec.getElem_setWidth]
  by_cases h : i < 8
  · simp [h, BitVec.getLsbD_eq_getElem hi]
  · have hlow : i - 8 < 8 := by omega
    have hsum : 8 + (i - 8) = i := by omega
    simp [h, hlow, hsum, BitVec.getLsbD_eq_getElem hi]

/-- The bytes of a number do not overlap. -/
theorem toNat_ntohl (b₃ b₂ b₁ b₀ : UInt8) : (ntohl [b₃, b₂, b₁, b₀]).toNat =
    2 ^ 24 * b₃.toNat + 2 ^ 16 * b₂.toNat + 2 ^ 8 * b₁.toNat + b₀.toNat := by
  have h₃ := b₃.toNat_lt
  have h₂ := b₂.toNat_lt
  have h₁ := b₁.toNat_lt
  have h₀ := b₀.toNat_lt
  have hshift : ∀ (b : UInt8) (k : Nat), k ≤ 24 → b.toNat <<< k % 2 ^ 32 = 2 ^ k * b.toNat := by
    intro b k hk
    have hb := b.toNat_lt
    have hpow : 2 ^ k ≤ 2 ^ 24 := Nat.pow_le_pow_right (by omega) hk
    have hmul : 2 ^ k * b.toNat ≤ 2 ^ 24 * 255 := Nat.mul_le_mul hpow (by omega)
    rw [Nat.shiftLeft_eq, Nat.mul_comm, Nat.mod_eq_of_lt (by omega)]
  have e₃ : (b₃.toUInt32 <<< 24).toNat = 2 ^ 24 * b₃.toNat := hshift b₃ 24 (by omega)
  have e₂ : (b₂.toUInt32 <<< 16).toNat = 2 ^ 16 * b₂.toNat := hshift b₂ 16 (by omega)
  have e₁ : (b₁.toUInt32 <<< 8).toNat = 2 ^ 8 * b₁.toNat := hshift b₁ 8 (by omega)
  simp only [ntohl, List.getD_cons_zero, List.getD_cons_succ, UInt32.toNat_or, e₃, e₂, e₁,
    UInt8.toNat_toUInt32]
  have s₂ : 2 ^ 24 * b₃.toNat ||| 2 ^ 16 * b₂.toNat = 2 ^ 16 * (2 ^ 8 * b₃.toNat + b₂.toNat) := by
    rw [← Nat.two_pow_add_eq_or_of_lt (by omega)]
    omega
  have s₁ : 2 ^ 16 * (2 ^ 8 * b₃.toNat + b₂.toNat) ||| 2 ^ 8 * b₁.toNat =
      2 ^ 8 * (2 ^ 16 * b₃.toNat + 2 ^ 8 * b₂.toNat + b₁.toNat) := by
    rw [← Nat.two_pow_add_eq_or_of_lt (by omega)]
    omega
  rw [s₂, s₁, ← Nat.two_pow_add_eq_or_of_lt (by omega)]
  omega

theorem ntohl_htonl (x : UInt32) : ntohl (htonl x) = x := by
  have hlt := x.toNat_lt
  have hshift : ∀ k : UInt32, (x >>> k).toUInt8.toNat = x.toNat / 2 ^ (k.toNat % 32) % 2 ^ 8 := by
    intro k
    rw [UInt32.toNat_toUInt8, UInt32.toNat_shiftRight, Nat.shiftRight_eq_div_pow]
  have h₂₄ : (x >>> 24).toUInt8.toNat = x.toNat / 2 ^ 24 % 2 ^ 8 := hshift 24
  have h₁₆ : (x >>> 16).toUInt8.toNat = x.toNat / 2 ^ 16 % 2 ^ 8 := hshift 16
  have h₈ : (x >>> 8).toUInt8.toNat = x.toNat / 2 ^ 8 % 2 ^ 8 := hshift 8
  apply UInt32.toNat_inj.mp
  rw [htonl, toNat_ntohl, h₂₄, h₁₆, h₈, UInt32.toNat_toUInt8]
  omega

/-- The two bytes of each of the eight numbers. -/
theorem getD_flatMap_htons (xs : List UInt16) (i : Nat) :
    (xs.flatMap htons).getD (2 * i) 0 = ((xs.getD i 0) >>> 8).toUInt8 ∧
      (xs.flatMap htons).getD (2 * i + 1) 0 = (xs.getD i 0).toUInt8 := by
  induction xs generalizing i with
  | nil => simp
  | cons x xs ih =>
    cases i with
    | zero => simp [htons]
    | succ i =>
      have hnext := ih i
      simpa [htons, Nat.mul_succ] using hnext

theorem ipv6Ntoh_ipv6Hton (h : Vector UInt16 8) : ipv6Ntoh (ipv6Hton h) = h := by
  apply Vector.ext
  intro i hi
  obtain ⟨hhigh, hlow⟩ := getD_flatMap_htons h.toList i
  have hget : h.toList.getD i 0 = h[i] := by simp [List.getD_eq_getElem?_getD, hi]
  have hpair := ntohs_htons h[i]
  simp only [ipv6Ntoh, ipv6Hton, Vector.getElem_ofFn, hhigh, hlow, hget]
  exact hpair

/-- An address with a port comes back from the `struct sockaddr`, whatever
was in `*sa` before. -/
theorem ioSockGetAddr_ioSockSetAddr {sc : IoSockAddr} {usa : Unisa}
    (h : ioSockSetAddr sc = .ok usa) (hf : sc.family = .AF_INET ∨ sc.family = .AF_INET6)
    (sa : IoSockAddr) : ioSockGetAddr sa usa = sc := by
  obtain ⟨port, family, addr⟩ := sc
  rcases hf with hf | hf
  · obtain rfl : family = .AF_INET := hf
    cases addr with
    | ipv4 n =>
      obtain rfl := Except.ok.inj h
      simp only [ioSockGetAddr, ntohs_htons, ntohl_htonl]
    | path p => simp [ioSockSetAddr] at h
    | ipv6 n => simp [ioSockSetAddr] at h
  · obtain rfl : family = .AF_INET6 := hf
    cases addr with
    | ipv6 n =>
      obtain rfl := Except.ok.inj h
      simp only [ioSockGetAddr, ntohs_htons, ipv6Ntoh_ipv6Hton]
    | path p => simp [ioSockSetAddr] at h
    | ipv4 n => simp [ioSockSetAddr] at h

/-! ## §4 There and back -/

/-- What the manuals of `inet_ntop` and `inet_pton` say of the text of an
IPv6 address: it is read back, has a colon before its first dot, and no
slash. -/
structure Inet.Ipv6Text (net : Inet) (h : Vector UInt16 8) : Prop where
  back : net.pton (net.ntop (ipv6Hton h)) = some (ipv6Hton h)
  colon : ∃ front rest, net.ntop (ipv6Hton h) = front ++ colon :: rest ∧ dot ∉ front
  noSlash : ascii '/' ∉ net.ntop (ipv6Hton h)

/-- The text without a port is parsed to the same family and address,
whatever was in `*host` before; the port stays. -/
def HostBack (net : Inet) (sc : IoSockAddr) : Prop :=
  ∀ host, ∃ a, ioSockHostoa net sc = .ok a ∧
    ioSockAtohost net host a = .ok (true, { host with family := sc.family, addr := sc.addr })

theorem atohost_ipv4 (net : Inet) (host : IoSockAddr) (n : UInt32) :
    ioSockAtohost net host (ipv4Itostr n) =
      .ok (true, { host with addr := .ipv4 n, family := .AF_INET }) := by
  obtain ⟨d, hd, rest, hq⟩ := (quad_ipv4Itostr n).head
  have hslash : digit d ≠ ascii '/' := (digit_spec d hd).2.2.2.2.2.2.2.1
  have hhead : (ipv4Itostr n).head? ≠ some (ascii '/') := by simp [hq, hslash]
  have hisip : ipv4Isip (ipv4Itostr n ++ []) = .ok true := (quad_ipv4Itostr n).isip (by simp)
  have hatoi : ipv4Atoi (ipv4Itostr n ++ []) = .ok n := (quad_ipv4Itostr n).atoi (by simp)
  rw [List.append_nil] at hisip hatoi
  rw [ioSockAtohost, if_neg hhead, hisip]
  simp only [bind, Except.bind, if_true, hatoi]
  rfl

theorem atohost_ipv6 {net : Inet} {h : Vector UInt16 8} (hnet : net.Ipv6Text h)
    (host : IoSockAddr) : ioSockAtohost net host (ipv6Htoa net h) =
      .ok (true, { host with addr := .ipv6 h, family := .AF_INET6 }) := by
  obtain ⟨front, rest, htext, hdot⟩ := hnet.colon
  have hhead : (ipv6Htoa net h).head? ≠ some (ascii '/') :=
    fun hs => hnet.noSlash (List.mem_of_mem_head? hs)
  have hisip : ipv4Isip (ipv6Htoa net h) = .ok false := by
    rw [ipv6Htoa, htext]
    exact ipv4Isip_colon hdot rest
  have hback : net.pton (ipv6Htoa net h) = some (ipv6Hton h) := hnet.back
  have hisip6 : ipv6Isip net (ipv6Htoa net h) = true := by rw [ipv6Isip, hback]; rfl
  have hatoh : (ipv6Atoh net (ipv6Htoa net h)).2 = h := by
    rw [ipv6Atoh, hback]
    exact ipv6Ntoh_ipv6Hton h
  rw [ioSockAtohost, if_neg hhead, hisip]
  simp only [bind, Except.bind, Bool.false_eq_true, if_false, hisip6, if_true, hatoh]
  rfl

/-- Whatever is accepted is an IPv4 or an IPv6 address, or a path that starts
with a slash. -/
theorem atohost_printable {net : Inet} {host host' : IoSockAddr} {a : Text}
    (h : ioSockAtohost net host a = .ok (true, host')) : host'.Printable := by
  unfold ioSockAtohost at h
  by_cases hslash : a.head? = some (ascii '/')
  · obtain ⟨p, rfl⟩ := List.head?_eq_some_iff.mp hslash
    rw [if_pos hslash] at h
    cases h
    exact .inr (.inr ⟨rfl, p, rfl⟩)
  · rw [if_neg hslash] at h
    obtain ⟨isIp, -, h⟩ := except_bind_eq_ok.mp h
    cases isIp with
    | true =>
      obtain ⟨n, -, h⟩ := except_bind_eq_ok.mp h
      cases h
      exact .inl ⟨rfl, n, rfl⟩
    | false =>
      rw [if_neg Bool.false_ne_true] at h
      split at h
      · cases h
        exact .inr (.inl ⟨rfl, _, rfl⟩)
      · cases h

/-- The address comes back from its `struct sockaddr`, whatever was in `*sa`
before. -/
def KernelBack (sc : IoSockAddr) : Prop :=
  ∃ usa, ioSockSetAddr sc = .ok usa ∧ ∀ sa, ioSockGetAddr sa usa = sc

/-- A path is lost, and an unknown family says nothing of the port. -/
theorem KernelBack.printable {sc : IoSockAddr} (h : KernelBack sc) :
    sc.Printable ∧ sc.family ≠ .AF_UNIX := by
  obtain ⟨usa, -, hback⟩ := h
  have hport : ∀ port, (ioSockGetAddr ⟨port, .other 0, .ipv4 0⟩ usa).port = sc.port := fun port =>
    congrArg IoSockAddr.port (hback _)
  cases usa with
  | in_ port addr =>
    obtain rfl := hback ⟨0, .other 0, .ipv4 0⟩
    exact ⟨.inl ⟨rfl, _, rfl⟩, by simp [ioSockGetAddr]⟩
  | in6 port addr =>
    obtain rfl := hback ⟨0, .other 0, .ipv4 0⟩
    exact ⟨.inr (.inl ⟨rfl, _, rfl⟩), by simp [ioSockGetAddr]⟩
  | un path => exact absurd ((hport 0).trans (hport 1).symm) (by simp [ioSockGetAddr])
  | other n => exact absurd ((hport 0).trans (hport 1).symm) (by simp [ioSockGetAddr])

/-- **There and back.** An address comes back from its text without a port
exactly if it is an IPv4 or an IPv6 address or a path that starts with a
slash, and with its port from its `struct sockaddr` exactly if it is one of
these and no path. -/
theorem host_addr_back_iff {net : Inet} {sc : IoSockAddr}
    (hnet : ∀ h, sc.addr = .ipv6 h → net.Ipv6Text h) :
    (HostBack net sc ↔ sc.Printable) ∧ (KernelBack sc ↔ sc.Printable ∧ sc.family ≠ .AF_UNIX) := by
  refine ⟨⟨fun hback => ?_, fun hsc => ?_⟩, KernelBack.printable, fun ⟨hsc, hne⟩ => ?_⟩
  · obtain ⟨a, -, hparse⟩ := hback sc
    exact atohost_printable hparse
  · obtain ⟨port, family, addr⟩ := sc
    rcases hsc with ⟨hf, n, ha⟩ | ⟨hf, h, ha⟩ | ⟨hf, p, ha⟩
    · obtain rfl : family = .AF_INET := hf
      obtain rfl : addr = .ipv4 n := ha
      exact fun host => ⟨_, rfl, atohost_ipv4 net host n⟩
    · obtain rfl : family = .AF_INET6 := hf
      obtain rfl : addr = .ipv6 h := ha
      exact fun host => ⟨_, rfl, atohost_ipv6 (hnet h rfl) host⟩
    · obtain rfl : family = .AF_UNIX := hf
      obtain rfl : addr = .path (ascii '/' :: p) := ha
      exact fun host => ⟨_, rfl, rfl⟩
  · obtain ⟨port, family, addr⟩ := sc
    rcases hsc with ⟨hf, n, ha⟩ | ⟨hf, h, ha⟩ | ⟨hf, p, ha⟩
    · obtain rfl : family = .AF_INET := hf
      obtain rfl : addr = .ipv4 n := ha
      exact ⟨_, rfl, ioSockGetAddr_ioSockSetAddr rfl (.inl rfl)⟩
    · obtain rfl : family = .AF_INET6 := hf
      obtain rfl : addr = .ipv6 h := ha
      exact ⟨_, rfl, ioSockGetAddr_ioSockSetAddr rfl (.inr rfl)⟩
    · exact absurd hf hne

theorem host_addr_back_iff_loopback :
    (HostBack loopbackInet ⟨80, .AF_INET6, .ipv6 loopback⟩ ↔
      IoSockAddr.Printable ⟨80, .AF_INET6, .ipv6 loopback⟩) ∧
    (KernelBack ⟨80, .AF_INET6, .ipv6 loopback⟩ ↔
      IoSockAddr.Printable ⟨80, .AF_INET6, .ipv6 loopback⟩ ∧ Family.AF_INET6 ≠ .AF_UNIX) := by
  refine host_addr_back_iff fun h hh => ?_
  obtain rfl : loopback = h := Addr.ipv6.inj hh
  exact ⟨by decide, ⟨[], lit [':', '1'], rfl, by decide⟩, by decide⟩

/-- The addresses `io_sock_any` makes are among these. -/
theorem ioSockAny_printable {host : IoSockAddr} {family : Family} {port : Int}
    (h : (ioSockAny host family port).1 = none) : (ioSockAny host family port).2.Printable := by
  cases family with
  | AF_INET => exact .inl ⟨rfl, 0, rfl⟩
  | AF_INET6 => exact .inr (.inl ⟨rfl, _, rfl⟩)
  | AF_UNIX => cases h
  | other n => cases h

end Nanio.Sock
