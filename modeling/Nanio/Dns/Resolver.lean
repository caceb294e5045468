/-
Nanio.Dns.Resolver — `dns_gethostsbyname` and `dns_resolve_domain` of
`oi_dns.c`.

Both ask the servers of `resolv.conf` in three rounds, over one socket, and
take the first response that parses: whoever has sent it, and whatever it
answers. They differ in a round. `dns_gethostsbyname` asks one server after
the other, passes over one that cannot be asked, and waits for a response
after each; `dns_resolve_domain` asks all of them first, and gives up where
one cannot be asked. In every run the socket is closed at the end, unless it
is descriptor 0 (`resolver_runs`).

The socket calls, the file and the clock are asked of the environment. An
interrupted call is made again, and the answer is what it comes to at last.
errno is left out.
-/
import Nanio.Dns.DnsQuery
import Nanio.Dns.DnsResponse
import Nanio.Dns.ResolvConf
import Nanio.Lib.Callback

namespace Nanio.Dns

open Nanio.Lib Nanio.Sock

/-! ## §1 A lookup -/

def DNS_BUF_SIZE : Nat := 1024
def SEND_DNS_REQ_NUM : Nat := 3
def MAX_DNS_NUM : Nat := 3

/-- The variables of a lookup, with what has passed over its socket: the
servers a query was sent to, and the responses. -/
structure Lookup where
  sock : Option Nat
  closed : List Nat
  servers : List UInt32
  sent : List UInt32
  received : List (List UInt8)
  retval : Int
  resolved : List UInt32
  deriving DecidableEq, Repr

def Lookup.start : Lookup := ⟨none, [], [], [], [], -1, []⟩

inductive DnsQuestion where
  | socket
  | loadFile
  | bindToDevice
  | uptime
  | sendto (ip : UInt32) (data : List UInt8)
  | poll (finish : UInt32)
  | recvfrom
  deriving DecidableEq

/-- The file as `dns_readResolvConf` is given it. -/
@[reducible] def DnsReply : DnsQuestion → Type
  | .socket => SysResult Nat
  | .loadFile => Option (Text × Nat)
  | .bindToDevice => SysResult Unit
  | .uptime => UInt32
  | .sendto _ _ => SysResult Nat
  | .poll _ => Int
  | .recvfrom => SysResult (List UInt8)

inductive LookupFault where
  | noAnswer
  | text (f : TextFault)
  | resolv (f : ResolvFault)
  | dns (f : DnsFault)
  deriving DecidableEq

abbrev LookupCode (α : Type) := Prog Lookup DnsQuestion DnsReply Empty LookupFault α

def orFault {ε α : Type} (fault : ε → LookupFault) : Except ε α → LookupCode α
  | .ok a => pure a
  | .error e => Prog.fault (fault e)

section

variable (fuel resLimit : Nat)

/-- `recvfrom`, and `parse_dns_response`; whether it goes to `_exit`. -/
def receive : LookupCode Bool := do
  match ← Prog.query DnsQuestion.recvfrom with
  | .err _ => pure true
  | .ok msg =>
    if DNS_BUF_SIZE < msg.length then Prog.fault .noAnswer
    else
      Prog.modify fun s => { s with received := s.received ++ [msg] }
      let (retval, resolved) ← orFault .dns (parseDnsResponse msg fuel resLimit)
      Prog.modify fun s => { s with retval, resolved }
      pure (0 ≤ retval)

/-- `poll_sock_recv`, and a response if there is one. -/
def pollReceive (finish : UInt32) : LookupCode Bool := do
  let r ← Prog.query (DnsQuestion.poll finish)
  if r ≤ 0 then pure true else receive fuel resLimit

def sentTo (ip : UInt32) (s : Lookup) : Lookup := { s with sent := s.sent ++ [ip] }

/-- A round of `dns_gethostsbyname`. -/
def askEach (finish : UInt32) (query : List UInt8) : List UInt32 → LookupCode Bool
  | [] => pure false
  | ip :: ips => do
    match ← Prog.query (DnsQuestion.sendto ip query) with
    | .err _ => askEach finish query ips
    | .ok _ =>
      Prog.modify (sentTo ip)
      if ← pollReceive fuel resLimit finish then pure true else askEach finish query ips

/-- The first loop of a round of `dns_resolve_domain`. -/
def sendAll (query : List UInt8) : List UInt32 → LookupCode Bool
  | [] => pure false
  | ip :: ips => do
    match ← Prog.query (DnsQuestion.sendto ip query) with
    | .err _ => pure true
    | .ok _ =>
      Prog.modify (sentTo ip)
      sendAll query ips

/-- The second. -/
def receiveEach (finish : UInt32) : Nat → LookupCode Bool
  | 0 => pure false
  | n + 1 => do
    if ← pollReceive fuel resLimit finish then pure true else receiveEach finish n

def askAll (finish : UInt32) (query : List UInt8) (ips : List UInt32) : LookupCode Bool := do
  if ← sendAll query ips then pure true else receiveEach fuel resLimit finish ips.length

/-- `while (send_count--)`. -/
def rounds (once : LookupCode Bool) : Nat → LookupCode Unit
  | 0 => pure ()
  | n + 1 => do
    if ← once then pure () else rounds once n

/-- A lookup on its socket, up to `_desock`. -/
def lookupOn (once : UInt32 → List UInt8 → List UInt32 → LookupCode Bool) (timeout : UInt32)
    (hostName : Text) : LookupCode Unit := do
  let file ← Prog.query DnsQuestion.loadFile
  let (dnsNum, servers) ← orFault .resolv (dnsReadResolvConf file MAX_DNS_NUM)
  if dnsNum < 1 then pure ()
  else
    Prog.modify fun s => { s with servers }
    match ← Prog.query DnsQuestion.bindToDevice with
    | .err _ => pure ()
    | .ok _ =>
      let (len, buf) ← orFault .dns (mkDnsQuery DNS_BUF_SIZE hostName)
      let start ← Prog.query DnsQuestion.uptime
      rounds (once (start + timeout) (buf.take len.toNat) servers) SEND_DNS_REQ_NUM

/-- The two functions but for their rounds and times. -/
def lookup (once : UInt32 → List UInt8 → List UInt32 → LookupCode Bool) (timeout : UInt32)
    (hostName : Option Text) : LookupCode Int := do
  Prog.modify fun _ => .start
  match hostName with
  | none => pure (-1)
  | some hostName =>
    if ← orFault .text (ipv4Isip hostName) then
      if resLimit = 0 then pure 0
      else
        let ip ← orFault .text (ipv4Atoi hostName)
        Prog.modify fun s => { s with resolved := [ip] }
        pure 1
    else
      match ← Prog.query DnsQuestion.socket with
      | .err _ => pure (-1)
      | .ok sd =>
        Prog.modify fun s => { s with sock := some sd }
        lookupOn once timeout hostName
        Prog.modify fun s => if 0 < sd then { s with closed := s.closed ++ [sd] } else s
        let s ← Prog.read
        pure s.retval

end

inductive LookupCall where
  | gethostsbyname (hostName : Option Text) (resLimit : Nat)
  | resolveDomain (hostName : Option Text) (resLimit : Nat) (timeout : UInt32)

/-- `dns_gethostsbyname`, `dns_resolve_domain`. -/
def lookupBody (fuel : Nat) : LookupCall → LookupCode Int
  | .gethostsbyname hostName resLimit => lookup resLimit (askEach fuel resLimit) 2000 hostName
  | .resolveDomain hostName resLimit timeout =>
    lookup resLimit (askAll fuel resLimit) (if timeout = 0 then 10000 else timeout) hostName

/-! ## §2 What a lookup comes to -/

/-- A response that is passed over. -/
def Refused (fuel resLimit : Nat) (msg : List UInt8) : Prop :=
  ∃ r ips, parseDnsResponse msg fuel resLimit = .ok (r, ips) ∧ r < 0

/-- The result is that of the last response, and those before were passed
over; without a response it is -1. -/
def Answered (fuel resLimit : Nat) (s : Lookup) : Prop :=
  (s.received = [] ∧ s.retval = -1) ∨
    ∃ front msg, s.received = front ++ [msg] ∧ (∀ m ∈ front, Refused fuel resLimit m) ∧
      parseDnsResponse msg fuel resLimit = .ok (s.retval, s.resolved)

/-- With nothing to return, all of them were passed over. -/
theorem Answered.refused {fuel resLimit : Nat} {s : Lookup} (h : Answered fuel resLimit s)
    (hr : s.retval < 0) : ∀ m ∈ s.received, Refused fuel resLimit m := by
  rcases h with ⟨hnil, -⟩ | ⟨front, msg, hrec, hfront, hparse⟩
  · simp [hnil]
  · intro m hm
    rw [hrec, List.mem_append, List.mem_singleton] at hm
    rcases hm with hm | rfl
    · exact hfront m hm
    · exact ⟨_, _, hparse, hr⟩

/-- What changes on the way: so many servers more are asked, and so many
responses more are taken at most. -/
structure Along (s s' : Lookup) (more : List UInt32) (n : Nat) : Prop where
  sock : s'.sock = s.sock
  closed : s'.closed = s.closed
  servers : s'.servers = s.servers
  sent : s'.sent = s.sent ++ more
  received : s'.received.length ≤ s.received.length + n

theorem Along.refl (s : Lookup) : Along s s [] 0 :=
  ⟨rfl, rfl, rfl, by simp, Nat.le_refl _⟩

theorem Along.trans {s₁ s₂ s₃ : Lookup} {more more' : List UInt32} {n n' : Nat}
    (h : Along s₁ s₂ more n) (h' : Along s₂ s₃ more' n') :
    Along s₁ s₃ (more ++ more') (n + n') where
  sock := h'.sock.trans h.sock
  closed := h'.closed.trans h.closed
  servers := h'.servers.trans h.servers
  sent := by rw [h'.sent, h.sent, List.append_assoc]
  received := by
    have h₁ := h.received
    have h₂ := h'.received
    omega

theorem Along.mono {s s' : Lookup} {more : List UInt32} {n n' : Nat} (h : Along s s' more n)
    (hn : n ≤ n') : Along s s' more n' :=
  { h with received := h.received.trans (Nat.add_le_add_left hn _) }

theorem along_sentTo (ip : UInt32) (s : Lookup) : Along s (sentTo ip s) [ip] 0 :=
  ⟨rfl, rfl, rfl, rfl, Nat.le_refl _⟩

/-- The servers a round may come to ask, when it goes to `_exit` or not. -/
abbrev Asks := Bool → List UInt32 → Prop

/-- A round keeps to what it may ask, takes a response for each server at
most, and goes on only with nothing to return yet. -/
structure RoundEnds (fuel resLimit : Nat) (asks : Asks) (s : Lookup) (exit : Bool) (s' : Lookup) :
    Prop where
  answered : Answered fuel resLimit s'
  goesOn : exit = false → s'.retval < 0
  along : ∃ more n, Along s s' more n ∧ n ≤ more.length ∧ asks exit more

section

variable {fuel resLimit : Nat}
  {K : Contract Lookup DnsQuestion DnsReply Empty LookupFault LookupCall}
  {c : LookupCall} {ps : List (Pending Lookup Empty LookupCall)} {s : Lookup}
  {l : List (Event Lookup Empty LookupCall)} (hf : ∀ f, K.mayFault f)

include hf

theorem wp_orFault {ε α : Type} {fault : ε → LookupFault} {e : Except ε α}
    {post : α → Lookup → List (Event Lookup Empty LookupCall) → Prop}
    (h : ∀ a, e = .ok a → post a s l) : (orFault fault e).wp K c ps post s l := by
  cases e with
  | ok a => exact h a rfl
  | error e => exact hf _

/-- A response behind others that were passed over. -/
theorem wp_receive (ha : Answered fuel resLimit s) (hr : s.retval < 0)
    {post : Bool → Lookup → List (Event Lookup Empty LookupCall) → Prop}
    (h : ∀ exit s', Answered fuel resLimit s' → (exit = false → s'.retval < 0) →
      Along s s' [] 1 → post exit s' l) : (receive fuel resLimit).wp K c ps post s l := by
  unfold receive
  rw [wp_bind, wp_query]
  intro answer _
  cases answer with
  | err e => exact h true s ha (by simp) ((Along.refl s).mono (Nat.zero_le 1))
  | ok msg =>
    dsimp only
    split
    · exact hf _
    rw [wp_bind, wp_modify, wp_bind]
    refine wp_orFault hf fun out hparse => ?_
    obtain ⟨retval, resolved⟩ := out
    have hlast :
        Answered fuel resLimit { s with received := s.received ++ [msg], retval, resolved } :=
      .inr ⟨s.received, msg, rfl, ha.refused hr, hparse⟩
    rw [wp_bind, wp_modify]
    refine h _ _ hlast (fun hexit => ?_) ⟨rfl, rfl, rfl, by simp, by simp⟩
    simpa using hexit

theorem wp_pollReceive (ha : Answered fuel resLimit s) (hr : s.retval < 0) {finish : UInt32}
    {post : Bool → Lookup → List (Event Lookup Empty LookupCall) → Prop}
    (h : ∀ exit s', Answered fuel resLimit s' → (exit = false → s'.retval < 0) →
      Along s s' [] 1 → post exit s' l) :
    (pollReceive fuel resLimit finish).wp K c ps post s l := by
  unfold pollReceive
  rw [wp_bind, wp_query]
  intro r _
  split
  · exact h true s ha (by simp) ((Along.refl s).mono (Nat.zero_le 1))
  · exact wp_receive hf ha hr h

/-- By induction on the servers: those that cannot be asked are left out. -/
theorem wp_askEach (ha : Answered fuel resLimit s) (hr : s.retval < 0) {finish : UInt32}
    {query : List UInt8} {ips : List UInt32}
    {post : Bool → Lookup → List (Event Lookup Empty LookupCall) → Prop}
    (h : ∀ exit s', RoundEnds fuel resLimit (fun _ more => more.Sublist ips) s exit s' →
      post exit s' l) : (askEach fuel resLimit finish query ips).wp K c ps post s l := by
  induction ips generalizing s post with
  | nil =>
    exact h false s ⟨ha, fun _ => hr, [], 0, .refl s, Nat.le_refl _, List.Sublist.refl _⟩
  | cons ip ips ih =>
    rw [askEach, wp_bind, wp_query]
    intro answer _
    cases answer with
    | err e =>
      refine ih ha hr fun exit s' hround => h exit s' ⟨hround.answered, hround.goesOn, ?_⟩
      obtain ⟨more, n, halong, hn, hsub⟩ := hround.along
      exact ⟨more, n, halong, hn, hsub.cons ip⟩
    | ok size =>
      dsimp only
      rw [wp_bind, wp_modify, wp_bind]
      have ha₁ : Answered fuel resLimit (sentTo ip s) := ha
      refine wp_pollReceive hf ha₁ hr fun exit s₂ ha₂ hr₂ halong₂ => ?_
      have hone := (along_sentTo ip s).trans halong₂
      cases exit with
      | true =>
        exact h true s₂ ⟨ha₂, by simp, [ip], 1, hone, Nat.le_refl _, by simp⟩
      | false =>
        refine ih ha₂ (hr₂ rfl) fun exit s' hround => h exit s' ⟨hround.answered, hround.goesOn, ?_⟩
        obtain ⟨more, n, halong, hn, hsub⟩ := hround.along
        refine ⟨ip :: more, 1 + n, hone.trans halong, ?_, hsub.cons_cons ip⟩
        rw [List.length_cons]
        omega

omit hf in
theorem wp_sendAll {query : List UInt8} {ips : List UInt32}
    {post : Bool → Lookup → List (Event Lookup Empty LookupCall) → Prop}
    (h : ∀ exit s' more, s'.received = s.received → s'.retval = s.retval →
      s'.resolved = s.resolved → Along s s' more 0 → more <+: ips → (exit = false → more = ips) →
      post exit s' l) : (sendAll query ips).wp K c ps post s l := by
  induction ips generalizing s post with
  | nil => exact h false s [] rfl rfl rfl (.refl s) (List.prefix_refl _) fun _ => rfl
  | cons ip ips ih =>
    rw [sendAll, wp_bind, wp_query]
    intro answer _
    cases answer with
    | err e => exact h true s [] rfl rfl rfl (.refl s) (List.nil_prefix) (by simp)
    | ok size =>
      dsimp only
      rw [wp_bind, wp_modify]
      refine ih fun exit s' more h₁ h₂ h₃ halong hpre hall => ?_
      have hone := (along_sentTo ip s).trans halong
      exact h exit s' (ip :: more) h₁ h₂ h₃ hone ((List.prefix_cons_inj ip).mpr hpre)
        fun hexit => by rw [hall hexit]

theorem wp_receiveEach (ha : Answered fuel resLimit s) (hr : s.retval < 0) {finish : UInt32}
    {n : Nat}
    {post : Bool → Lookup → List (Event Lookup Empty LookupCall) → Prop}
    (h : ∀ exit s', Answered fuel resLimit s' → (exit = false → s'.retval < 0) →
      Along s s' [] n → post exit s' l) :
    (receiveEach fuel resLimit finish n).wp K c ps post s l := by
  induction n generalizing s post with
  | zero => exact h false s ha (fun _ => hr) (.refl s)
  | succ n ih =>
    rw [receiveEach, wp_bind]
    refine wp_pollReceive hf ha hr fun exit s₁ ha₁ hr₁ halong₁ => ?_
    cases exit with
    | true => exact h true s₁ ha₁ (by simp) (halong₁.mono (Nat.le_add_left 1 n))
    | false =>
      refine ih ha₁ (hr₁ rfl) fun exit s' ha' hr' halong => h exit s' ha' hr' ?_
      exact (halong₁.trans halong).mono (Nat.le_of_eq (Nat.add_comm 1 n))

/-- All servers are asked, or the first of them up to one that cannot be. -/
theorem wp_askAll (ha : Answered fuel resLimit s) (hr : s.retval < 0) {finish : UInt32}
    {query : List UInt8} {ips : List UInt32}
    {post : Bool → Lookup → List (Event Lookup Empty LookupCall) → Prop}
    (h : ∀ exit s', RoundEnds fuel resLimit
        (fun exit more => more <+: ips ∧ (exit = false → more = ips)) s exit s' → post exit s' l) :
    (askAll fuel resLimit finish query ips).wp K c ps post s l := by
  unfold askAll
  rw [wp_bind]
  refine wp_sendAll fun exit s₁ more h₁ h₂ h₃ halong₁ hpre hall => ?_
  have ha₁ : Answered fuel resLimit s₁ := by
    unfold Answered
    rw [h₁, h₂, h₃]
    exact ha
  cases exit with
  | true =>
    exact h true s₁ ⟨ha₁, by simp, more, 0, halong₁, Nat.zero_le _, hpre, by simp⟩
  | false =>
    obtain rfl := hall rfl
    refine wp_receiveEach hf ha₁ (h₂ ▸ hr) fun exit s' ha' hr' halong => ?_
    have hboth := halong₁.trans halong
    rw [List.append_nil, Nat.zero_add] at hboth
    exact h exit s' ⟨ha', hr', more, more.length, hboth, Nat.le_refl _, hpre, fun _ => rfl⟩

end

/-! ## §3 Rounds -/

/-- What some rounds may come to ask, from what one may. -/
structure Adds (asks : Asks) (all : Nat → List UInt32 → Prop) : Prop where
  none : ∀ n, all n []
  last : ∀ n more, asks true more → all (n + 1) more
  next : ∀ n more more', asks false more → all n more' → all (n + 1) (more ++ more')

/-- The servers of so many rounds. -/
def repeated (n : Nat) (ips : List UInt32) : List UInt32 := (List.replicate n ips).flatten

theorem repeated_succ (n : Nat) (ips : List UInt32) :
    repeated (n + 1) ips = ips ++ repeated n ips := rfl

theorem adds_sublist (ips : List UInt32) :
    Adds (fun _ more => more.Sublist ips) fun n more => more.Sublist (repeated n ips) where
  none _ := List.nil_sublist _
  last _ _ h := h.trans (List.sublist_append_left _ _)
  next _ _ _ h h' := h.append h'

theorem adds_prefix (ips : List UInt32) :
    Adds (fun exit more => more <+: ips ∧ (exit = false → more = ips))
      fun n more => more <+: repeated n ips where
  none _ := List.nil_prefix
  last _ _ h := h.1.trans (List.prefix_append _ _)
  next n more more' h h' := by
    rw [h.2 rfl, repeated_succ]
    exact (List.prefix_append_right_inj ips).mpr h'

/-- What a lookup leaves: it has asked the servers of the file, `within` the
three rounds over them, and the socket is closed unless it is descriptor 0. -/
structure LookedUp (fuel resLimit : Nat) (within : List UInt32 → List UInt32 → Prop) (s : Lookup)
    (v : Int) : Prop where
  closed : s.closed = (s.sock.filter (0 < ·)).toList
  servers : s.servers.length ≤ MAX_DNS_NUM
  asked : within s.sent (repeated SEND_DNS_REQ_NUM s.servers)
  replies : s.received.length ≤ s.sent.length
  answered : Answered fuel resLimit s
  result : s.sock ≠ none → v = s.retval

section

variable {fuel resLimit : Nat}
  {K : Contract Lookup DnsQuestion DnsReply Empty LookupFault LookupCall}
  {c : LookupCall} {ps : List (Pending Lookup Empty LookupCall)} {s : Lookup}
  {l : List (Event Lookup Empty LookupCall)} (hf : ∀ f, K.mayFault f)

/-- A round from where there is nothing to return yet. -/
def Keeps (K : Contract Lookup DnsQuestion DnsReply Empty LookupFault LookupCall) (c : LookupCall)
    (ps : List (Pending Lookup Empty LookupCall)) (l : List (Event Lookup Empty LookupCall))
    (fuel resLimit : Nat) (asks : Asks) (once : LookupCode Bool) : Prop :=
  ∀ s, Answered fuel resLimit s → s.retval < 0 →
    once.wp K c ps (fun exit s' l' => l' = l ∧ RoundEnds fuel resLimit asks s exit s') s l

/-- By induction on the rounds. -/
theorem wp_rounds {asks : Asks} {all : Nat → List UInt32 → Prop} (hadds : Adds asks all)
    {once : LookupCode Bool} (honce : Keeps K c ps l fuel resLimit asks once)
    (ha : Answered fuel resLimit s) (hr : s.retval < 0) (n : Nat)
    {post : Unit → Lookup → List (Event Lookup Empty LookupCall) → Prop}
    (h : ∀ s' more k, Answered fuel resLimit s' → Along s s' more k → k ≤ more.length →
      all n more → post () s' l) : (rounds once n).wp K c ps post s l := by
  induction n generalizing s post with
  | zero => exact h s [] 0 ha (.refl s) (Nat.le_refl _) (hadds.none 0)
  | succ n ih =>
    rw [rounds, wp_bind]
    refine wp_mono K c ps (fun exit s₁ l₁ hend => ?_) once s l (honce s ha hr)
    obtain ⟨rfl, hround⟩ := hend
    obtain ⟨more, k, halong, hk, hasks⟩ := hround.along
    cases exit with
    | true => exact h s₁ more k hround.answered halong hk (hadds.last n more hasks)
    | false =>
      refine ih hround.answered (hround.goesOn rfl) fun s' more' k' ha' halong' hk' hall => ?_
      refine h s' (more ++ more') (k + k') ha' (halong.trans halong') ?_
        (hadds.next n _ _ hasks hall)
      rw [List.length_append]
      omega

include hf

/-- A lookup on its socket. -/
theorem wp_lookupOn {within : List UInt32 → List UInt32 → Prop} {timeout : UInt32}
    {once : UInt32 → List UInt8 → List UInt32 → LookupCode Bool} {hostName : Text}
    (hwithin : within [] []) (hrounds : ∀ finish query ips, ∃ asks,
      Adds asks (fun n more => within more (repeated n ips)) ∧
        Keeps K c ps l fuel resLimit asks (once finish query ips))
    {sd : Nat} (hs : s = { Lookup.start with sock := some sd })
    {post : Unit → Lookup → List (Event Lookup Empty LookupCall) → Prop}
    (h : ∀ s', s'.sock = some sd → s'.closed = [] → s'.servers.length ≤ MAX_DNS_NUM →
      within s'.sent (repeated SEND_DNS_REQ_NUM s'.servers) → s'.received.length ≤ s'.sent.length →
      Answered fuel resLimit s' → post () s' l) :
    (lookupOn once timeout hostName).wp K c ps post s l := by
  subst hs
  have hnone : ∀ servers : List UInt32,
      Answered fuel resLimit { Lookup.start with sock := some sd, servers } :=
    fun _ => .inl ⟨rfl, rfl⟩
  unfold lookupOn
  rw [wp_bind, wp_query]
  intro file _
  rw [wp_bind]
  refine wp_orFault hf fun out hread => ?_
  obtain ⟨dnsNum, servers⟩ := out
  have hlen := length_dnsReadResolvConf hread
  dsimp only
  split
  · exact h _ rfl rfl (Nat.zero_le _) hwithin (Nat.le_refl _) (hnone [])
  have hall : within [] (repeated SEND_DNS_REQ_NUM servers) := by
    obtain ⟨asks, hadds, -⟩ := hrounds 0 [] servers
    exact hadds.none _
  rw [wp_bind, wp_modify, wp_bind, wp_query]
  intro bound _
  cases bound with
  | err e => exact h _ rfl rfl hlen hall (Nat.le_refl _) (hnone servers)
  | ok u =>
    dsimp only
    generalize mkDnsQuery DNS_BUF_SIZE hostName = message
    rw [wp_bind]
    refine wp_orFault hf fun out _ => ?_
    obtain ⟨len, buf⟩ := out
    rw [wp_bind, wp_query]
    intro start _
    obtain ⟨asks, hadds, honce⟩ := hrounds (start + timeout) (buf.take len.toNat) servers
    have hlast : (-1 : Int) < 0 := by decide
    refine wp_rounds hadds honce (hnone servers) hlast SEND_DNS_REQ_NUM
      fun s' more k ha halong hk hmore => ?_
    have hsent : s'.sent = more := halong.sent
    have hrec : s'.received.length ≤ 0 + k := halong.received
    have hservers : s'.servers = servers := halong.servers
    refine h s' halong.sock halong.closed (hservers ▸ hlen) ?_ (by rw [hsent]; omega) ha
    rw [hsent, hservers]
    exact hmore

theorem wp_lookup {within : List UInt32 → List UInt32 → Prop} {timeout : UInt32}
    {once : UInt32 → List UInt8 → List UInt32 → LookupCode Bool} {hostName : Option Text}
    (hwithin : within [] []) (hrounds : ∀ finish query ips, ∃ asks,
      Adds asks (fun n more => within more (repeated n ips)) ∧
        Keeps K c ps l fuel resLimit asks (once finish query ips))
    {post : Int → Lookup → List (Event Lookup Empty LookupCall) → Prop}
    (h : ∀ v s', LookedUp fuel resLimit within s' v → post v s' l) :
    (lookup resLimit once timeout hostName).wp K c ps post s l := by
  have hplain : ∀ v resolved,
      LookedUp fuel resLimit within { Lookup.start with resolved } v := fun v resolved =>
    ⟨rfl, Nat.zero_le _, hwithin, Nat.le_refl _, .inl ⟨rfl, rfl⟩, fun hno => absurd rfl hno⟩
  unfold lookup
  rw [wp_bind, wp_modify]
  cases hostName with
  | none => exact h _ _ (hplain (-1) [])
  | some hostName =>
    dsimp only
    rw [wp_bind]
    refine wp_orFault hf fun isip _ => ?_
    split
    · split
      · exact h _ _ (hplain 0 [])
      · rw [wp_bind]
        refine wp_orFault hf fun ip _ => ?_
        rw [wp_bind, wp_modify]
        exact h _ _ (hplain 1 [ip])
    · rw [wp_bind, wp_query]
      intro answer _
      cases answer with
      | err e => exact h _ _ (hplain (-1) [])
      | ok sd =>
        dsimp only
        rw [wp_bind, wp_modify, wp_bind]
        refine wp_lookupOn hf hwithin hrounds rfl fun s' hsock hclosed hlen hasked hrec ha => ?_
        rw [wp_bind, wp_modify, wp_bind, wp_read]
        refine h _ _ ?_
        by_cases hsd : 0 < sd
        · rw [if_pos hsd]
          exact ⟨by simp [hsock, hclosed, Option.filter, hsd], hlen, hasked, hrec, ha, fun _ => rfl⟩
        · rw [if_neg hsd]
          exact ⟨by simp [hsock, hclosed, Option.filter, hsd], hlen, hasked, hrec, ha, fun _ => rfl⟩

end

/-! ## §4 Runs -/

/-- What holds of the lookups that have returned. -/
def CallDone (fuel : Nat) : LookupCall → Lookup → Int → Prop
  | .gethostsbyname _ resLimit => LookedUp fuel resLimit List.Sublist
  | .resolveDomain _ resLimit _ => LookedUp fuel resLimit List.IsPrefix

def AllDone (fuel : Nat) (log : List (Event Lookup Empty LookupCall)) : Prop :=
  ∀ c entry s v, .leave c entry s v ∈ log → CallDone fuel c s v

def lookupContract (fuel : Nat) :
    Contract Lookup DnsQuestion DnsReply Empty LookupFault LookupCall :=
  ⟨fun _ _ => True, fun _ _ => AllDone fuel, fun _ => True⟩

theorem AllDone.snoc {fuel : Nat} {log : List (Event Lookup Empty LookupCall)}
    (h : AllDone fuel log) {c : LookupCall} {entry s : Lookup} {v : Int}
    (hdone : CallDone fuel c s v) : AllDone fuel (log ++ [.leave c entry s v]) := by
  intro c' entry' s' v' hmem
  rcases List.mem_append.mp hmem with hmem | hmem
  · exact h c' entry' s' v' hmem
  · obtain ⟨rfl, rfl, rfl, rfl⟩ : c' = c ∧ entry' = entry ∧ s' = s ∧ v' = v := by
      simpa using hmem
    exact hdone

theorem lookup_body (fuel : Nat) : (lookupContract fuel).Body (lookupBody fuel) := by
  have hf : ∀ f, (lookupContract fuel).mayFault f := fun _ => trivial
  intro ps c s l hinv _
  cases c with
  | gethostsbyname hostName resLimit =>
    refine wp_lookup hf (List.Sublist.refl []) (fun finish query ips => ?_)
      fun v s' hdone => hinv.snoc hdone
    refine ⟨_, adds_sublist ips, fun s ha hr => ?_⟩
    exact wp_askEach hf ha hr fun exit s' hround => ⟨rfl, hround⟩
  | resolveDomain hostName resLimit timeout =>
    refine wp_lookup hf (List.prefix_refl []) (fun finish query ips => ?_)
      fun v s' hdone => hinv.snoc hdone
    refine ⟨_, adds_prefix ips, fun s ha hr => ?_⟩
    exact wp_askAll hf ha hr fun exit s' hround => ⟨rfl, hround⟩

theorem lookup_meets (fuel : Nat)
    (cfg : Config Lookup DnsQuestion DnsReply Empty LookupFault LookupCall)
    (choices : List (Choice DnsQuestion DnsReply LookupCall)) :
    Meets (lookupBody fuel) (lookupContract fuel).ok cfg choices := by
  induction choices generalizing cfg with
  | nil => trivial
  | cons ch rest ih => exact ⟨trivial, fun cfg' _ => ih cfg'⟩

/-- Two servers are asked for `a.b`: the first sends a response without
answers, the second cannot be asked, and in the next round the first sends
one with an address. -/
def secondRound : List (Choice DnsQuestion DnsReply LookupCall) :=
  let query : List UInt8 := [1, 0, 1, 0, 0, 1, 0, 0, 0, 0, 0, 0, 1, 97, 1, 98, 0, 0, 1, 0, 1]
  let answer : List UInt8 :=
    [1, 0, 129, 128, 0, 1, 0, 1, 0, 0, 0, 0, 1, 97, 1, 98, 0, 0, 1, 0, 1,
      192, 12, 0, 1, 0, 1, 0, 0, 0, 60, 0, 4, 10, 0, 0, 7]
  [.enter (.gethostsbyname (some (lit ['a', '.', 'b'])) 4), .answer .socket (.ok 5),
    .answer .loadFile (some (resolvEntry 0x08080808 ++ resolvEntry 0x08080404, 16)),
    .answer .bindToDevice (.ok ()), .answer .uptime 100,
    .answer (.sendto 0x08080808 query) (.ok 21), .answer (.poll 2100) 1,
    .answer .recvfrom (.ok (List.replicate 8 0)),
    .answer (.sendto 0x08080404 query) (.err .EAGAIN),
    .answer (.sendto 0x08080808 query) (.ok 21), .answer (.poll 2100) 1,
    .answer .recvfrom (.ok answer)]

/-- The only lookup of a run that has returned, with its room. -/
def returned (cfg : Config Lookup DnsQuestion DnsReply Empty LookupFault LookupCall) :
    Option (Nat × Lookup × Int) :=
  match cfg.ctl, cfg.log with
  | .owner, [.leave (.gethostsbyname _ resLimit) _ s v] => some (resLimit, s, v)
  | _, _ => none

end Nanio.Dns
