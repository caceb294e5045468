/-
Nanio.Sock.SockAddrParse — when `io_sock_atos` reads an address or leaves
`*host` alone.

`Denotes` is the grammar: a path, four decimal numbers joined by dots with
a port behind a colon, and a bracketed IPv6 address with a port. A path is
always right. The bracketed form with a port is always wrong: the copy of
the address takes the `]:` with it, which `inet_pton` refuses, `ipv6_atoh`
then converts what the stack holds, and its error is taken for success. The
IPv4 form is right unless `ipv4_isip`, which looks at a leading part of the
text, lets something through that is no address or has no port behind the
colon (`atosExact_iff`).
-/
import Nanio.Sock.SockAddrRoundTrip

namespace Nanio.Sock

open Nanio.Lib

/-! ## §1 What a text denotes -/

/-- A port as it is written: nothing, or a colon and a number from 0 to 65535. -/
inductive Port : Text → Option Nat → Prop where
  | absent : Port [] none
  | written {ds : Text} {n : Nat} (h : Numeral ds n) (hn : n < 2 ^ 16) : Port (colon :: ds) (some n)

/-- The family, the address and, if it is written, the port. -/
inductive Denotes (net : Inet) : Text → Family → Addr → Option Nat → Prop where
  | path (p : Text) : Denotes net (ascii '/' :: p) .AF_UNIX (.path (ascii '/' :: p)) none
  | ipv4 {a rest : Text} {ip : UInt32} {port : Option Nat} (ha : Quad a ip) (hp : Port rest port) :
    Denotes net (a ++ rest) .AF_INET (.ipv4 ip) port
  | ipv6 {a rest : Text} {n : List UInt8} {port : Option Nat} (ha : net.pton a = some n)
    (hp : Port rest port) :
    Denotes net (ascii '[' :: (a ++ ascii ']' :: rest)) .AF_INET6 (.ipv6 (ipv6Ntoh n)) port

/-- For any `*host` and any content of the local arrays, the call stays in
its arrays and either sets what the text denotes or leaves `*host` alone. -/
def AtosExact (net : Inet) (text : Text) : Prop :=
  ∀ host garbage, ∃ r host', ioSockAtos { net with garbage := garbage } host text = .ok (r, host') ∧
    ((r = none ∧ ∃ port, Denotes net text host'.family host'.addr port ∧
        ∀ n, port = some n → host'.port = UInt16.ofNat n) ∨
      (r ≠ none ∧ host' = host))

/-! ## §2 Brackets -/

section Bracket

variable {net : Inet} {a rest : Text}

theorem atosIpv6_cut (ha : ascii ']' ∉ a) (rest : Text) :
    (a ++ ascii ']' :: rest).takeWhile (· != ascii ']') = a ∧
      (a ++ ascii ']' :: rest).dropWhile (· != ascii ']') = ascii ']' :: rest := by
  have hall : ∀ c ∈ a, (c != ascii ']') = true := by
    intro c hc
    have hne : c ≠ ascii ']' := fun e => ha (e ▸ hc)
    simpa using hne
  rw [List.takeWhile_append_of_pos hall, List.dropWhile_append_of_pos hall]
  simp

/-- What a bracketed text with a colon behind it does. -/
theorem atosIpv6_eq (ha : ascii ']' ∉ a) (net : Inet) (host : IoSockAddr) (rest : Text) :
    atosIpv6 net host (a ++ ascii ']' :: colon :: rest) =
      let len := (a.length + 2) % 2 ^ 32
      let r := ipv6Atoh net ((a ++ ascii ']' :: colon :: rest).take len)
      if addrSize ≤ len then .error .overflow
      else if r.1 = 0 then .ok (some .EINVAL, { host with addr := .ipv6 r.2 })
      else .ok (none, ⟨UInt16.ofInt (atoi rest), .AF_INET6, .ipv6 r.2⟩) := by
  obtain ⟨htake, hdrop⟩ := atosIpv6_cut ha (colon :: rest)
  simp only [atosIpv6, htake, hdrop]
  simp

/-- A bracketed text denotes one address. -/
theorem Denotes.bracket (hpton : ∀ b, ascii ']' ∈ b → net.pton b = none) (ha : ascii ']' ∉ a)
    {family : Family} {addr : Addr} {port : Option Nat}
    (h : Denotes net (ascii '[' :: (a ++ ascii ']' :: rest)) family addr port) :
    ∃ n, net.pton a = some n ∧ addr = .ipv6 (ipv6Ntoh n) := by
  generalize htext : ascii '[' :: (a ++ ascii ']' :: rest) = text at h
  cases h with
  | path p => exact absurd (List.cons.inj htext).1 (by decide)
  | ipv4 hq _ =>
    obtain ⟨d, hd, q, rfl⟩ := hq.head
    exact absurd (List.cons.inj htext).1.symm (digit_spec d hd).2.2.2.2.2.2.2.2.1
  | @ipv6 a' rest' n _ hn hp =>
    have ha' : ascii ']' ∉ a' := by
      intro hmem
      rw [hpton a' hmem] at hn
      cases hn
    obtain ⟨rfl, -⟩ := text_cut_inj ha ha' (List.cons.inj htext).2
    exact ⟨n, hn, rfl⟩

/-- A bracketed text with a colon behind it is never read right: the copy
does not fit, or its content is no address and the garbage is taken for one,
or, cut to a few characters, it is one and is stored by a call that fails. -/
theorem not_atosExact_bracket (hempty : net.pton [] = none)
    (hpton : ∀ b, ascii ']' ∈ b → net.pton b = none) (ha : ascii ']' ∉ a) (rest : Text) :
    ¬ AtosExact net (ascii '[' :: (a ++ ascii ']' :: colon :: rest)) := by
  intro h
  have hslash : (ascii '[' == ascii '/') = false := by decide
  have hcode : ∀ net host, ioSockAtos net host (ascii '[' :: (a ++ ascii ']' :: colon :: rest)) =
      atosIpv6 net host (a ++ ascii ']' :: colon :: rest) := by
    intro net host
    simp [ioSockAtos, hslash]
  simp only [AtosExact, hcode, atosIpv6_eq ha] at h
  generalize (a.length + 2) % 2 ^ 32 = len at h
  by_cases hlen : addrSize ≤ len
  · obtain ⟨r, host', hret, -⟩ := h ⟨0, .AF_UNIX, .path []⟩ []
    rw [if_pos hlen] at hret
    cases hret
  simp only [if_neg hlen] at h
  cases hread : net.pton ((a ++ ascii ']' :: colon :: rest).take len) with
  | none =>
    -- the address stored is that of the garbage, whatever it is
    have hgarbage : ∀ garbage, ∃ n, net.pton a = some n ∧ ipv6Ntoh garbage = ipv6Ntoh n := by
      intro garbage
      obtain ⟨r, host', hret, hdone⟩ := h ⟨0, .AF_UNIX, .path []⟩ garbage
      simp only [ipv6Atoh, hread] at hret
      cases hret
      obtain ⟨-, port, hden, -⟩ | ⟨hne, -⟩ := hdone
      · obtain ⟨n, hn, haddr⟩ := hden.bracket hpton ha
        exact ⟨n, hn, Addr.ipv6.inj haddr⟩
      · exact absurd rfl hne
    obtain ⟨n, hn, h₀⟩ := hgarbage []
    obtain ⟨n', hn', h₁⟩ := hgarbage [1]
    obtain rfl : n = n' := Option.some.inj (hn.symm.trans hn')
    have hsame : ipv6Ntoh [] = ipv6Ntoh [1] := h₀.trans h₁.symm
    exact absurd hsame (by decide)
  | some n =>
    have hne : ((a ++ ascii ']' :: colon :: rest).take len).isEmpty = false := by
      by_contra hnil
      rw [Bool.not_eq_false, List.isEmpty_iff] at hnil
      rw [hnil, hempty] at hread
      cases hread
    obtain ⟨r, host', hret, hdone⟩ := h ⟨0, .AF_UNIX, .path []⟩ []
    simp only [ipv6Atoh, hread, hne, Bool.false_eq_true, if_false, if_true] at hret
    cases hret
    obtain ⟨hr, -⟩ | ⟨-, hhost⟩ := hdone
    · cases hr
    · cases hhost

/-- Without the colon the call fails at once. -/
theorem atosExact_noColon {p : Text}
    (h : ∀ a rest, p = a ++ ascii ']' :: colon :: rest → ascii ']' ∈ a) :
    AtosExact net (ascii '[' :: p) := by
  intro host garbage
  refine ⟨some .EINVAL, host, ?_, .inr ⟨by simp, rfl⟩⟩
  have hslash : (ascii '[' == ascii '/') = false := by decide
  have hnone : (p.dropWhile (· != ascii ']')).isEmpty ∨
      (p.dropWhile (· != ascii ']'))[1]? ≠ some colon := by
    by_contra hboth
    rw [not_or, not_not] at hboth
    obtain ⟨hne, hcolon⟩ := hboth
    have hsplit := List.takeWhile_append_dropWhile (p := (· != ascii ']')) (l := p)
    match hb : p.dropWhile (· != ascii ']') with
    | [] => simp [hb] at hne
    | [c] => simp [hb] at hcolon
    | c :: d :: rest =>
      have hd : d = colon := by simpa [hb] using hcolon
      have hc : c = ascii ']' := by
        have := List.head?_dropWhile_not (· != ascii ']') p
        rw [hb] at this
        simpa using this
      rw [hb, hc, hd] at hsplit
      have hmem := h _ rest hsplit.symm
      have hall := List.all_takeWhile (p := (· != ascii ']')) (l := p)
      rw [List.all_eq_true] at hall
      have := hall _ hmem
      simp at this
  have hcode : atosIpv6 { net with garbage := garbage } host p = .ok (some .EINVAL, host) := by
    simp only [atosIpv6]
    rw [if_pos hnone]
  simp [ioSockAtos, hslash, hcode]

end Bracket

/-! ## §3 Dots -/

theorem strtoiLoop_returns (sub : Bool) (c : Nat) (num : UInt32) (ip : Text) :
    ∃ n, strtoiLoop sub c num ip = .ok n := by
  induction c generalizing num ip with
  | zero => exact ⟨num, rfl⟩
  | succ c ih =>
    have hd := deref_zero (strtoul ip).2
    rw [strtoiLoop]
    simp only [hd, bind, Except.bind, pure, Except.pure]
    split
    · exact ⟨_, rfl⟩
    · split
      · exact ⟨_, rfl⟩
      · split
        · exact ⟨_, rfl⟩
        · exact ih _ _

theorem ipv4Atoi_returns (ip : Text) : ∃ n, ipv4Atoi ip = .ok n := by
  have hd := deref_zero ip
  rw [ipv4Atoi, hd]
  simp only [bind, Except.bind]
  split
  · exact strtoiLoop_returns ..
  · exact strtoiLoop_returns ..

theorem isipLoop_returns (c : Nat) (ip : Text) : ∃ b, isipLoop c ip = .ok b := by
  induction c generalizing ip with
  | zero => exact ⟨true, rfl⟩
  | succ c ih =>
    have hd := deref_zero (strtoul ip).2
    rw [isipLoop]
    simp only [hd, bind, Except.bind, pure, Except.pure]
    split
    · exact ⟨_, rfl⟩
    · split
      · exact ⟨_, rfl⟩
      · split
        · exact ⟨_, rfl⟩
        · exact ih _

/-- A number is needed at the start. -/
theorem ipv4Isip_bad {c : UInt8} (hspace : isSpace c = false) (hminus : c ≠ ascii '-')
    (hplus : c ≠ ascii '+') (hdigit : isDigit c = false) (p : Text) :
    ipv4Isip (c :: p) = .ok false := by
  have hread : strtoul (c :: p) = (0, c :: p) := by
    simp [strtoul, signOf, hspace, hminus, hplus, hdigit]
  simp [ipv4Isip, isipLoop, hread, pure, Except.pure]

section Quad

variable {a rest : Text} {ip : UInt32} {port : Option Nat}

theorem Port.head (h : Port rest port) : ∀ c ∈ rest.head?, isDigit c = false := by
  cases h with
  | absent => simp
  | written => exact colon_head

/-- The port the code reads behind an address. -/
theorem Port.atoi (h : Port rest port) (host : IoSockAddr) :
    ∃ p, (if rest.isEmpty then host.port else UInt16.ofInt (Sock.atoi (rest.drop 1))) = p ∧
      ∀ n, port = some n → p = UInt16.ofNat n := by
  refine ⟨_, rfl, ?_⟩
  cases h with
  | absent => simp
  | @written ds n hds hn =>
    rintro m hm
    obtain rfl : n = m := Option.some.inj hm
    have hatoi : Sock.atoi (ds ++ []) = n := hds.atoi (by simp) (by omega)
    rw [List.append_nil] at hatoi
    have hint : UInt16.ofInt (n : Int) = UInt16.ofNat n := by
      rw [UInt16.ofInt, Int.emod_eq_of_lt (by omega) (by omega), Int.toNat_natCast]
    simp [hatoi, hint]

/-- An address with a port, or without, is read as what it denotes. -/
theorem Quad.atosIpv4 (h : Quad a ip) (hp : Port rest port) (host : IoSockAddr) :
    ∃ p, Sock.atosIpv4 host (a ++ rest) = .ok (none, ⟨p, .AF_INET, .ipv4 ip⟩) ∧
      ∀ n, port = some n → p = UInt16.ofNat n := by
  obtain ⟨p, hread, hport⟩ := hp.atoi host
  have hrest : (a ++ rest).dropWhile (· != Sock.colon) = rest := by
    rw [List.dropWhile_append_of_pos h.not_colon]
    cases hp with
    | absent => rfl
    | written => simp
  refine ⟨p, ?_, hport⟩
  simp only [Sock.atosIpv4, h.isip hp.head, h.atoi hp.head, hrest, bind, Except.bind,
    if_true, hread]
  rfl

end Quad

/-! ## §4 The condition -/

/-- No colon stands behind the bracket that closes an address, and what
`ipv4_isip` accepts is four numbers with a port or without. -/
def AtosCond (text : Text) : Prop :=
  (∀ a rest, text = ascii '[' :: (a ++ ascii ']' :: colon :: rest) → ascii ']' ∈ a) ∧
  (ipv4Isip text = .ok true → ∃ a rest ip port, text = a ++ rest ∧ Quad a ip ∧ Port rest port)

/-- Texts that are neither a path nor in brackets go to the IPv4 parser. -/
theorem ioSockAtos_ipv4 {text : Text} (hslash : text.head? ≠ some (ascii '/'))
    (hbracket : text.head? ≠ some (ascii '[')) (net : Inet) (host : IoSockAddr) :
    ioSockAtos net host text = (atosIpv4 host text).mapError .text := by
  cases text with
  | nil => rfl
  | cons c rest =>
    have h₁ : (c == ascii '/') = false := by simpa using hslash
    have h₂ : (c == ascii '[') = false := by simpa using hbracket
    simp [ioSockAtos, h₁, h₂]

theorem atosExact_path (net : Inet) (p : Text) : AtosExact net (ascii '/' :: p) := by
  intro host garbage
  refine ⟨none, { host with addr := .path (ascii '/' :: p), family := .AF_UNIX }, ?_,
    .inl ⟨rfl, ?_⟩⟩
  · simp [ioSockAtos]
  · exact ⟨none, .path p, by simp⟩

theorem AtosCond.exact {net : Inet} {text : Text} (h : AtosCond text) : AtosExact net text := by
  obtain ⟨hbracket, hquad⟩ := h
  by_cases hslash : text.head? = some (ascii '/')
  · obtain ⟨p, rfl⟩ := List.head?_eq_some_iff.mp hslash
    exact atosExact_path net p
  by_cases hopen : text.head? = some (ascii '[')
  · obtain ⟨p, rfl⟩ := List.head?_eq_some_iff.mp hopen
    exact atosExact_noColon fun a rest hp => hbracket a rest (by rw [hp])
  intro host garbage
  rw [ioSockAtos_ipv4 hslash hopen]
  obtain ⟨b, hisip⟩ := isipLoop_returns 4 text
  cases b with
  | false =>
    refine ⟨some .EINVAL, host, ?_, .inr ⟨by simp, rfl⟩⟩
    have hisip' : ipv4Isip text = .ok false := hisip
    simp [atosIpv4, hisip', bind, Except.bind, pure, Except.pure, Except.mapError]
  | true =>
    obtain ⟨a, rest, ip, port, rfl, ha, hp⟩ := hquad hisip
    obtain ⟨p, hread, hport⟩ := ha.atosIpv4 hp host
    rw [hread]
    exact ⟨none, _, rfl, .inl ⟨rfl, port, .ipv4 ha hp, hport⟩⟩

theorem AtosCond.of_exact {net : Inet} {text : Text} (hempty : net.pton [] = none)
    (hpton : ∀ b, ascii ']' ∈ b → net.pton b = none) (h : AtosExact net text) : AtosCond text := by
  constructor
  · rintro a rest rfl
    by_contra ha
    exact not_atosExact_bracket hempty hpton ha rest h
  · intro hisip
    have hhead : ∀ c ∈ [ascii '/', ascii '['], text.head? ≠ some c := by
      intro c hc hhead
      obtain ⟨p, rfl⟩ := List.head?_eq_some_iff.mp hhead
      have hbad : ipv4Isip (c :: p) = .ok false := by
        simp only [List.mem_cons, List.not_mem_nil, or_false] at hc
        rcases hc with rfl | rfl
        · exact ipv4Isip_bad (by decide) (by decide) (by decide) (by decide) p
        · exact ipv4Isip_bad (by decide) (by decide) (by decide) (by decide) p
      rw [hbad] at hisip
      cases hisip
    obtain ⟨n, hatoi⟩ := ipv4Atoi_returns text
    obtain ⟨r, host', hread, hdone⟩ := h ⟨0, .AF_UNIX, .path []⟩ []
    rw [ioSockAtos_ipv4 (hhead _ (by simp)) (hhead _ (by simp))] at hread
    simp only [atosIpv4, hisip, hatoi, bind, Except.bind, if_true, pure, Except.pure,
      Except.mapError] at hread
    cases hread
    obtain ⟨-, port, hden, -⟩ | ⟨hne, -⟩ := hdone
    · cases hden with
      | @ipv4 a rest ip _ ha hp => exact ⟨a, rest, n, port, rfl, ha, hp⟩
    · exact absurd rfl hne

/-- `inet_pton` takes no empty text and none with a closing bracket; then
`io_sock_atos` reads what the text denotes or leaves `*host` alone exactly
on the texts that meet the condition. -/
theorem atosExact_iff (net : Inet) (text : Text) (hempty : net.pton [] = none)
    (hpton : ∀ b, ascii ']' ∈ b → net.pton b = none) : AtosExact net text ↔ AtosCond text :=
  ⟨.of_exact hempty hpton, AtosCond.exact⟩

theorem loopbackInet_pton : ∀ b, ascii ']' ∈ b → loopbackInet.pton b = none := by
  intro b hb
  have h₁ : b ≠ lit [':', ':', '1'] := fun e => absurd (e ▸ hb) (by decide)
  have h₂ : b ≠ lit [':', ':'] := fun e => absurd (e ▸ hb) (by decide)
  simp [loopbackInet, h₁, h₂]

theorem atosExact_iff_loopback :
    loopbackInet.pton [] = none ∧ (∀ b, ascii ']' ∈ b → loopbackInet.pton b = none) ∧
    (AtosExact loopbackInet (lit ['1', '0', '.', '0', '.', '0', '.', '1', ':', '8', '0']) ↔
      AtosCond (lit ['1', '0', '.', '0', '.', '0', '.', '1', ':', '8', '0'])) :=
  ⟨by decide, loopbackInet_pton, atosExact_iff loopbackInet _ (by decide) loopbackInet_pton⟩

/-- `[::1]:80` is read as the address that the stack happens to hold. -/
theorem ioSockAtos_garbage :
    (∀ host garbage, ioSockAtos { loopbackInet with garbage := garbage } host
      (lit ['[', ':', ':', '1', ']', ':', '8', '0']) =
        .ok (none, ⟨80, .AF_INET6, .ipv6 (ipv6Ntoh garbage)⟩)) ∧
    ¬ AtosExact loopbackInet (lit ['[', ':', ':', '1', ']', ':', '8', '0']) := by
  have hempty : loopbackInet.pton [] = none := by decide
  refine ⟨fun _ _ => rfl, ?_⟩
  exact not_atosExact_bracket (a := lit [':', ':', '1']) hempty loopbackInet_pton (by decide)
    (lit ['8', '0'])

end Nanio.Sock
