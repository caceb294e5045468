/-
Nanio.Sock.SockAddr — `io_sock_addr.c`, `io_ipv4.c` and `io_ipv6.c`: socket
addresses, their text form, and the `sockaddr` handed to the kernel.

A union is the member that was written last, and reading another one is a
fault. `inet_ntop` and `inet_pton` are parameters. The library is built
with all three families, as its options have it by default.
-/
import Nanio.Base
import Nanio.Lib.CString

namespace Nanio.Sock

open Nanio.Lib

inductive Family where
  | AF_INET | AF_UNIX | AF_INET6
  | other (n : Nat)
  deriving DecidableEq, Repr

/-- The union `addr`, by the member written last. -/
inductive Addr where
  | path (p : Text)
  | ipv4 (n : UInt32)
  | ipv6 (h : Vector UInt16 8)
  deriving DecidableEq

/-- `io_sock_addr_t`. -/
structure IoSockAddr where
  port : UInt16
  family : Family
  addr : Addr
  deriving DecidableEq

/-- `inet_ntop` and `inet_pton` for `AF_INET6`, and what a local array
holds that was not written. -/
structure Inet where
  ntop : List UInt8 → Text
  pton : Text → Option (List UInt8)
  garbage : List UInt8

inductive SockFault where
  | text (f : TextFault)
  | overflow
  | wrongMember
  deriving DecidableEq, Repr

/-! ## Numbers as text -/

def digit (d : Nat) : UInt8 := UInt8.ofNat (48 + d)

/-- The digits of `n`, in front of `acc`. -/
def decimalLoop : Nat → Nat → Text → Text
  | 0, _, acc => acc
  | fuel + 1, n, acc =>
    if n < 10 then digit n :: acc else decimalLoop fuel (n / 10) (digit (n % 10) :: acc)

/-- `%d` of a number that is not negative. -/
def decimal (n : Nat) : Text := decimalLoop (n + 1) n []

/-- `isspace` in the C locale. -/
def isSpace (c : UInt8) : Bool := c == ascii ' ' || (9 ≤ c && c ≤ 13)

def isDigit (c : UInt8) : Bool := ascii '0' ≤ c && c ≤ ascii '9'

def digitValue (c : UInt8) : Nat := c.toNat - 48

/-- The number that digits make. -/
def digitsValue (ds : Text) : Nat := ds.foldl (fun n c => n * 10 + digitValue c) 0

/-- White space, then a sign if there is one: whether it is a minus, and
the pointer after it. -/
def signOf (p : Text) : Bool × Text :=
  let p := p.dropWhile isSpace
  match p with
  | c :: rest =>
    if c == ascii '-' then (true, rest) else if c == ascii '+' then (false, rest) else (false, p)
  | [] => (false, [])

/-- `strtoul(p, &next, 10)`: the value and `next`, which is `p` where there
is no digit. A minus negates the unsigned value. -/
def strtoul (p : Text) : Nat × Text :=
  let (minus, q) := signOf p
  let ds := q.takeWhile isDigit
  if ds = [] then (0, p)
  else if 2 ^ 64 ≤ digitsValue ds then (2 ^ 64 - 1, q.drop ds.length)
  else (if minus then toUnsignedLong (-digitsValue ds) else digitsValue ds, q.drop ds.length)

/-- `atoi`: `strtol`, cut to an `int`. -/
def atoi (p : Text) : Int :=
  let (minus, q) := signOf p
  let n : Int := digitsValue (q.takeWhile isDigit)
  toInt (if minus then max (-n) (-2 ^ 63) else min n (2 ^ 63 - 1))

/-! ## io_ipv4.c -/

/-- `bput`: the digits it writes. -/
def bput (byte : Nat) : Text :=
  let byte := byte % 256
  if 100 ≤ byte then [digit (byte / 100), digit (byte % 100 / 10), digit (byte % 100 % 10)]
  else if 10 ≤ byte then [digit (byte / 10), digit (byte % 10)]
  else [digit byte]

def dot : UInt8 := ascii '.'
def colon : UInt8 := ascii ':'

/-- `ipv4_itostr`. -/
def ipv4Itostr (ip : UInt32) : Text :=
  bput (ip >>> 24).toNat ++ dot :: bput (ip >>> 16).toNat ++ dot :: bput (ip >>> 8).toNat ++
    dot :: bput ip.toNat

/-- `ipv4_stoa`. -/
def ipv4Stoa (num : UInt32) (port : UInt16) : Text :=
  ipv4Itostr num ++ colon :: decimal port.toNat

/-- The loop of `ipv4_isip` from `_start` on, with `c` numbers to come. -/
def isipLoop : Nat → Text → Except TextFault Bool
  | 0, _ => .ok true
  | c + 1, ip => do
    let (n, next) := strtoul ip
    if next.length = ip.length ∨ 256 ≤ n then pure false
    else if c = 0 then pure true
    else if (← deref next 0) != dot then pure false
    else isipLoop c (next.drop 1)

/-- `ipv4_isip`. -/
def ipv4Isip (ip : Text) : Except TextFault Bool := isipLoop 4 ip

/-- The loop of `ipv4_strtoi` from `_start` on, with `c` numbers to come. -/
def strtoiLoop (sub : Bool) : Nat → UInt32 → Text → Except TextFault UInt32
  | 0, num, _ => .ok num
  | c + 1, num, ip => do
    let (n, next) := strtoul ip
    if next.length = ip.length ∨ 256 ≤ n then pure 0
    else
      let num := num <<< 8 ||| UInt32.ofNat n
      if c = 0 then pure num
      else if (← deref next 0) != dot then pure (if sub then num else 0)
      else strtoiLoop sub c num (next.drop 1)

/-- `ipv4_atoi`, which is `ipv4_strtoi` without an end pointer. A text that
starts with a dot has three numbers. -/
def ipv4Atoi (ip : Text) : Except TextFault UInt32 := do
  if (← deref ip 0) == dot then strtoiLoop true 3 0 (ip.drop 1) else strtoiLoop false 4 0 ip

/-! ## io_ipv6.c -/

/-- `htons`, as the two bytes in memory. -/
def htons (x : UInt16) : List UInt8 := [(x >>> 8).toUInt8, x.toUInt8]

/-- `htonl`, as the four bytes in memory. -/
def htonl (x : UInt32) : List UInt8 :=
  [(x >>> 24).toUInt8, (x >>> 16).toUInt8, (x >>> 8).toUInt8, x.toUInt8]

/-- `ipv6_hton`. -/
def ipv6Hton (u16 : Vector UInt16 8) : List UInt8 := u16.toList.flatMap htons

/-- `ipv6_ntoh`. -/
def ipv6Ntoh (u8 : List UInt8) : Vector UInt16 8 :=
  Vector.ofFn fun i =>
    (u8.getD (2 * i) 0).toUInt16 <<< 8 ||| (u8.getD (2 * i + 1) 0).toUInt16

/-- `ipv6_stoa`. -/
def ipv6Stoa (net : Inet) (ip : Vector UInt16 8) (port : UInt16) : Text :=
  ascii '[' :: net.ntop (ipv6Hton ip) ++ ascii '/' :: decimal port.toNat ++ [ascii ']']

/-- `ipv6_atoh`: 0, or -1 with errno. `n` is converted whether or not
`inet_pton` has written it; an empty text counts as an error. -/
def ipv6Atoh (net : Inet) (a : Text) : Int × Vector UInt16 8 :=
  match net.pton a with
  | some n => (if a.isEmpty then -1 else 0, ipv6Ntoh n)
  | none => (-1, ipv6Ntoh net.garbage)

/-! ## io_sock_addr.c -/

/-- `io_sock_stoa`. -/
def ioSockStoa (net : Inet) (sc : IoSockAddr) : Except SockFault Text :=
  match sc.family, sc.addr with
  | .AF_INET, .ipv4 n => .ok (ipv4Stoa n sc.port)
  | .AF_UNIX, .path p => .ok p
  | .AF_INET6, .ipv6 h => .ok (ipv6Stoa net h sc.port)
  | .other n, _ =>
    .ok (lit ['[', 'B', 'A', 'D', '_', 'A', 'D', 'D', 'R', 'E', 'S', 'S', '_', 'F', 'A', 'M', 'I',
      'L', 'Y', ':'] ++ decimal n ++ [ascii ']'])
  | _, _ => .error .wrongMember

/-- `sizeof addr` of the local array of `io_sock_atos`. -/
def addrSize : Nat := 48

/-- The part of `io_sock_atos` for a text that starts with a bracket, `a`
being the pointer after it: none for success, or errno. The copy of the
address runs up to `b`, which is past the `]:` by then. -/
def atosIpv6 (net : Inet) (host : IoSockAddr) (a : Text) :
    Except SockFault (Option Errno × IoSockAddr) :=
  let addr := a.takeWhile (· != ascii ']')
  let b := a.dropWhile (· != ascii ']')
  -- `!b || b[1] != ':'`
  if b.isEmpty ∨ b[1]? ≠ some colon then .ok (some .EINVAL, host)
  else
    let len := (addr.length + 2) % 2 ^ 32
    if addrSize ≤ len then .error .overflow
    else
      let (r, h) := ipv6Atoh net (a.take len)
      let host := { host with addr := .ipv6 h }
      if r = 0 then .ok (some .EINVAL, host)
      else .ok (none, { host with port := UInt16.ofInt (atoi (b.drop 2)), family := .AF_INET6 })

/-- The part of `io_sock_atos` for an IPv4 text. -/
def atosIpv4 (host : IoSockAddr) (a : Text) : Except TextFault (Option Errno × IoSockAddr) := do
  if ← ipv4Isip a then do
    let n ← ipv4Atoi a
    let rest := a.dropWhile (· != colon)
    pure (none, {
      port := if rest.isEmpty then host.port else UInt16.ofInt (atoi (rest.drop 1))
      family := .AF_INET
      addr := .ipv4 n })
  else pure (some .EINVAL, host)

/-- `io_sock_atos`: none for success, when the family is returned, or -1
with errno; and `*host`. -/
def ioSockAtos (net : Inet) (host : IoSockAddr) (a : Text) :
    Except SockFault (Option Errno × IoSockAddr) :=
  match a with
  | [] => (atosIpv4 host []).mapError .text
  | c :: rest =>
    if c == ascii '/' then .ok (none, { host with addr := .path (c :: rest), family := .AF_UNIX })
    else if c == ascii '[' then atosIpv6 net host rest
    else (atosIpv4 host (c :: rest)).mapError .text

/-- `unisa_t`, by the member that `sa_family` says is in use; ports and
addresses are bytes in memory. -/
inductive Unisa where
  | in_ (port addr : List UInt8)
  | un (path : Text)
  | in6 (port addr : List UInt8)
  | other (family : Nat)
  deriving DecidableEq, Repr

/-- `sizeof un.sun_path`. -/
def sunPathSize : Nat := 108

/-- `io_sock_set_addr`. The size it returns is that of the member. -/
def ioSockSetAddr (sa : IoSockAddr) : Except SockFault Unisa :=
  match sa.family, sa.addr with
  | .AF_INET, .ipv4 n => .ok (.in_ (htons sa.port) (htonl n))
  | .AF_UNIX, .path p => if p.length < sunPathSize then .ok (.un p) else .error .overflow
  | .AF_INET6, .ipv6 h => .ok (.in6 (htons sa.port) (ipv6Hton h))
  | .other n, _ => .ok (.other n)
  | _, _ => .error .wrongMember

/-- `ntohs` of the two bytes in memory. -/
def ntohs (b : List UInt8) : UInt16 := (b.getD 0 0).toUInt16 <<< 8 ||| (b.getD 1 0).toUInt16

/-- `ntohl` of the four bytes in memory. -/
def ntohl (b : List UInt8) : UInt32 :=
  (b.getD 0 0).toUInt32 <<< 24 ||| (b.getD 1 0).toUInt32 <<< 16 ||| (b.getD 2 0).toUInt32 <<< 8 |||
    (b.getD 3 0).toUInt32

/-- `io_sock_get_addr`. -/
def ioSockGetAddr (sa : IoSockAddr) (usa : Unisa) : IoSockAddr :=
  match usa with
  | .in_ port addr => ⟨ntohs port, .AF_INET, .ipv4 (ntohl addr)⟩
  | .un _ => { sa with family := .AF_UNIX, addr := .path [] }
  | .in6 port addr => ⟨ntohs port, .AF_INET6, .ipv6 (ipv6Ntoh addr)⟩
  | .other n => { sa with family := .other n }

end Nanio.Sock
