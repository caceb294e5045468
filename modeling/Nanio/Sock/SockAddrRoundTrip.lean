/-
Nanio.Sock.SockAddrRoundTrip — which addresses come back from their text.

A dotted IPv4 text with a port parses to itself (§1), and a path is copied.
The IPv6 printer puts the port inside the brackets, behind a slash, and the
parser wants a colon behind them, so no IPv6 text is accepted (§2).
-/
import Nanio.Sock.Ipv4Text

namespace Nanio.Sock

open Nanio.Lib

/-! ## §1 IPv4 -/

section Ipv4

variable (num : UInt32) (port : UInt16)

theorem ipv4Isip_ipv4Stoa : ipv4Isip (ipv4Stoa num port) = .ok true :=
  (quad_ipv4Itostr num).isip colon_head

theorem ipv4Atoi_ipv4Stoa : ipv4Atoi (ipv4Stoa num port) = .ok num :=
  (quad_ipv4Itostr num).atoi colon_head

/-- The first colon is the one before the port. -/
theorem dropWhile_ipv4Stoa :
    (ipv4Stoa num port).dropWhile (· != colon) = colon :: decimal port.toNat := by
  rw [ipv4Stoa, List.dropWhile_append_of_pos (quad_ipv4Itostr num).not_colon,
    List.dropWhile_cons_of_neg (by simp)]

theorem atoi_decimal_port : UInt16.ofInt (atoi (decimal port.toNat)) = port := by
  have hlt := port.toNat_lt
  have hatoi : atoi (decimal port.toNat ++ []) = port.toNat :=
    (decimal_numeral port.toNat).atoi (by simp) (by omega)
  rw [List.append_nil] at hatoi
  rw [hatoi, UInt16.ofInt, Int.emod_eq_of_lt (by omega) (by omega), Int.toNat_natCast,
    UInt16.ofNat_toNat]

theorem ioSockAtos_ipv4Stoa (net : Inet) (host : IoSockAddr) :
    ioSockAtos net host (ipv4Stoa num port) = .ok (none, ⟨port, .AF_INET, .ipv4 num⟩) := by
  obtain ⟨d, hd, rest, hq⟩ := (quad_ipv4Itostr num).head
  obtain ⟨-, -, -, -, -, -, -, hslash, hbracket, -⟩ := digit_spec d hd
  have he : ipv4Stoa num port = digit d :: (rest ++ colon :: decimal port.toNat) := by
    rw [ipv4Stoa, hq, List.cons_append]
  have hparse : atosIpv4 host (ipv4Stoa num port) = .ok (none, ⟨port, .AF_INET, .ipv4 num⟩) := by
    simp only [atosIpv4, ipv4Isip_ipv4Stoa, ipv4Atoi_ipv4Stoa, dropWhile_ipv4Stoa, bind,
      Except.bind, if_true, List.isEmpty_cons, Bool.false_eq_true, if_false, List.drop_succ_cons,
      List.drop_zero, atoi_decimal_port]
    rfl
  rw [he] at hparse
  rw [he, ioSockAtos]
  simp only [beq_eq_false_iff_ne.mpr hslash, beq_eq_false_iff_ne.mpr hbracket, Bool.false_eq_true,
    if_false, hparse]
  rfl

end Ipv4

/-! ## §2 The round trip -/

/-- An IPv4 or IPv6 address, or a path that starts with a slash. -/
def IoSockAddr.Printable (sc : IoSockAddr) : Prop :=
  (sc.family = .AF_INET ∧ ∃ n, sc.addr = .ipv4 n) ∨
  (sc.family = .AF_INET6 ∧ ∃ h, sc.addr = .ipv6 h) ∨
  (sc.family = .AF_UNIX ∧ ∃ p, sc.addr = .path (ascii '/' :: p))

/-- The text of the address is parsed, whatever was in `*host` before, to
the same family and address and, but for a path, the same port. -/
def RoundTrips (net : Inet) (sc : IoSockAddr) : Prop :=
  ∀ host, ∃ a host', ioSockStoa net sc = .ok a ∧ ioSockAtos net host a = .ok (none, host') ∧
    host'.family = sc.family ∧ host'.addr = sc.addr ∧
    (sc.family ≠ .AF_UNIX → host'.port = sc.port)

/-- The closing bracket is the last character, so no colon follows it. -/
theorem atosIpv6_ipv6Stoa {net : Inet} (hchars : ∀ n, ascii ']' ∉ net.ntop n)
    (host : IoSockAddr) (h : Vector UInt16 8) (port : UInt16) :
    ioSockAtos net host (ipv6Stoa net h port) = .ok (some .EINVAL, host) := by
  have hport : ∀ c ∈ decimal port.toNat, (c != ascii ']') = true := by
    intro c hc
    obtain ⟨d, hd, rfl⟩ := (decimal_numeral port.toNat).digits c hc
    simpa using (digit_spec d hd).2.2.2.2.2.2.2.2.2
  have hntop : ∀ c ∈ net.ntop (ipv6Hton h), (c != ascii ']') = true := by
    intro c hc
    have hne : c ≠ ascii ']' := fun e => hchars _ (e ▸ hc)
    simpa using hne
  have hslash : (ascii '/' != ascii ']') = true := by decide
  have hclose : (net.ntop (ipv6Hton h) ++ ascii '/' :: decimal port.toNat ++
      [ascii ']']).dropWhile (· != ascii ']') = [ascii ']'] := by
    rw [List.append_assoc, List.dropWhile_append_of_pos hntop, List.cons_append,
      List.dropWhile_cons_of_pos (p := (· != ascii ']')) hslash, List.dropWhile_append_of_pos hport,
      List.dropWhile_cons_of_neg (by simp)]
  have hhead : ascii '[' ≠ ascii '/' := by decide
  simp only [ipv6Stoa, List.cons_append, ioSockAtos, beq_eq_false_iff_ne.mpr hhead,
    Bool.false_eq_true, if_false, beq_self_eq_true, if_true, atosIpv6, hclose]
  simp [colon]

/-- `inet_ntop` writes no closing bracket; then an address comes back from
its text if and only if it is not an IPv6 address. -/
theorem ioSockAtos_ioSockStoa_iff (net : Inet) (hchars : ∀ n, ascii ']' ∉ net.ntop n)
    (sc : IoSockAddr) (hsc : sc.Printable) : RoundTrips net sc ↔ sc.family ≠ .AF_INET6 := by
  obtain ⟨port, family, addr⟩ := sc
  rcases hsc with ⟨hf, n, ha⟩ | ⟨hf, h, ha⟩ | ⟨hf, p, ha⟩
  · obtain rfl : family = .AF_INET := hf
    obtain rfl : addr = .ipv4 n := ha
    refine iff_of_true (fun host => ?_) (by simp)
    exact ⟨_, _, rfl, ioSockAtos_ipv4Stoa n port net host, rfl, rfl, fun _ => rfl⟩
  · obtain rfl : family = .AF_INET6 := hf
    obtain rfl : addr = .ipv6 h := ha
    refine iff_of_false (fun hrt => ?_) (by simp)
    obtain ⟨a, host', hprint, hparse, -⟩ := hrt ⟨0, .AF_INET, .ipv4 0⟩
    obtain rfl : ipv6Stoa net h port = a := Except.ok.inj hprint
    rw [atosIpv6_ipv6Stoa hchars] at hparse
    simp at hparse
  · obtain rfl : family = .AF_UNIX := hf
    obtain rfl : addr = .path (ascii '/' :: p) := ha
    refine iff_of_true (fun host => ?_) (by simp)
    refine ⟨ascii '/' :: p, { host with addr := .path (ascii '/' :: p), family := .AF_UNIX },
      rfl, ?_, rfl, rfl, fun h => absurd rfl h⟩
    simp [ioSockAtos]

/-- `::1`. -/
def loopback : Vector UInt16 8 := #v[0, 0, 0, 0, 0, 0, 0, 1]

/-- The two functions on `::1` and `::`. -/
def loopbackInet : Inet where
  ntop n := if n = ipv6Hton loopback then lit [':', ':', '1'] else lit [':', ':']
  pton a :=
    if a = lit [':', ':', '1'] then some (ipv6Hton loopback)
    else if a = lit [':', ':'] then some (List.replicate 16 0) else none
  garbage := []

theorem loopbackInet_chars : ∀ n, ascii ']' ∉ loopbackInet.ntop n := by
  intro n
  show ascii ']' ∉ (if n = ipv6Hton loopback then lit [':', ':', '1'] else lit [':', ':'])
  split <;> decide

theorem ioSockAtos_ioSockStoa_iff_loopback :
    (∀ n, ascii ']' ∉ loopbackInet.ntop n) ∧
    IoSockAddr.Printable ⟨80, .AF_INET6, .ipv6 loopback⟩ ∧
    (RoundTrips loopbackInet ⟨80, .AF_INET6, .ipv6 loopback⟩ ↔ Family.AF_INET6 ≠ .AF_INET6) := by
  have hsc : IoSockAddr.Printable ⟨80, .AF_INET6, .ipv6 loopback⟩ := .inr (.inl ⟨rfl, _, rfl⟩)
  exact ⟨loopbackInet_chars, hsc,
    ioSockAtos_ioSockStoa_iff loopbackInet loopbackInet_chars _ hsc⟩

/-- `[::1/80]` is what is printed for port 80 of `::1`, and it is refused. -/
theorem ioSockAtos_bracketSlash :
    ioSockStoa loopbackInet ⟨80, .AF_INET6, .ipv6 loopback⟩ =
      .ok (lit ['[', ':', ':', '1', '/', '8', '0', ']']) ∧
    loopbackInet.pton (loopbackInet.ntop (ipv6Hton loopback)) = some (ipv6Hton loopback) ∧
    (∀ host, ioSockAtos loopbackInet host (lit ['[', ':', ':', '1', '/', '8', '0', ']']) =
      .ok (some .EINVAL, host)) ∧
    ¬ RoundTrips loopbackInet ⟨80, .AF_INET6, .ipv6 loopback⟩ := by
  have hprint : ipv6Stoa loopbackInet loopback 80 =
      lit ['[', ':', ':', '1', '/', '8', '0', ']'] := by rfl
  have hrefused : ∀ host, ioSockAtos loopbackInet host
      (lit ['[', ':', ':', '1', '/', '8', '0', ']']) = .ok (some .EINVAL, host) := by
    intro host
    rw [← hprint]
    exact atosIpv6_ipv6Stoa loopbackInet_chars host loopback 80
  refine ⟨congrArg Except.ok hprint, by decide, hrefused, fun hrt => ?_⟩
  obtain ⟨a, host', hstoa, hatos, -⟩ := hrt ⟨0, .AF_INET, .ipv4 0⟩
  obtain rfl : lit ['[', ':', ':', '1', '/', '8', '0', ']'] = a :=
    Except.ok.inj ((congrArg Except.ok hprint).symm.trans hstoa)
  rw [hrefused] at hatos
  simp at hatos

end Nanio.Sock
