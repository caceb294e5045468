/-
Nanio.Stream.Accept — `io_stream_accept`: a stream for a connection that
waits at a listening socket.

The function is compiled in two ways. With `BSD` it takes the connection
from the descriptor of the listener; without, it reads the family and the
descriptor of the stream it was given, which has none yet, and the listener
is not used. Both builds then ask `errno` whether the accept is in progress,
also when it has succeeded, and a call that succeeds leaves `errno` alone.

The method `connected` belongs to the stream's owner and is a parameter:
what a method does to the world. `calloc` does not fail, and logging is left
out.
-/
import Nanio.Ds.IoVmt
import Nanio.Sock.SockAddr
import Nanio.Stream.IoStream

namespace Nanio.Accept

open Nanio.Lib Nanio.Sock
open Nanio.Ds (DId VId MId IoD Tables ioDInit)
open Nanio.Buf (IoBuf)
open Nanio.Stream (POLLIN POLLOUT)

/-! ## §1 The kernel -/

/-- A connection that waits to be accepted. `gone`: its peer has reset it, and
`getpeername` fails on it. -/
structure Conn where
  addr : Unisa
  gone : Bool

/-- `queue` are the listening sockets. `refuse`: why no connection can be
accepted, such as a full table of descriptors. -/
structure Kernel where
  queue : Int → Option (List Conn)
  peer : Int → Option Unisa
  nextFd : Nat
  refuse : Option Errno

/-- The connection at the head of a queue becomes a descriptor. -/
def Kernel.take (k : Kernel) (fd : Int) (c : Conn) (rest : List Conn) : Kernel where
  queue := Function.update k.queue fd (some rest)
  peer := Function.update k.peer k.nextFd (if c.gone then none else some c.addr)
  nextFd := k.nextFd + 1
  refuse := k.refuse

/-- `accept` and `accept4`: the descriptor and the address. -/
def Kernel.accept (k : Kernel) (fd : Int) : SysResult ((Nat × Unisa) × Kernel) :=
  match k.refuse, k.queue fd with
  | some e, _ => .err e
  | none, none => .err .EINVAL
  | none, some [] => .err .EAGAIN
  | none, some (c :: rest) => .ok ((k.nextFd, c.addr), k.take fd c rest)

/-! ## §2 The streams -/

/-- `io_stream_t` without the fields of `d` that `Nanio.Ds` has. -/
structure IoStream where
  vmt : Option VId
  sa : IoSockAddr
  out : IoBuf
  connecting : Bool

/-- An `io_stream_t` of zeros. -/
def IoStream.zeroed : IoStream := ⟨none, ⟨0, .other 0, .ipv4 0⟩, ⟨none, none⟩, false⟩

/-- An `io_d_t` of zeros. -/
def zeroD : IoD := ⟨⟨false, false⟩, 0, 0⟩

/-- The descriptors, the streams among them, `errno`, and the address that
`calloc` answers next. -/
structure World where
  tables : Tables
  stream : DId → IoStream
  fresh : DId
  kernel : Kernel
  errno : Errno

/-- `nullPointer`: a field read through it. `notAllocated`: a field of a
descriptor that is not there. `uninitialised`: an address that was not asked
for. -/
inductive Fault where
  | nullPointer
  | notAllocated
  | uninitialised
  deriving DecidableEq, Repr

/-- What the methods of the owner do to the world. -/
abbrev Owner := MId → DId → World → World

/-- Whether the library is compiled with `BSD`. -/
inductive Build where
  | bsd
  | other
  deriving DecidableEq, Repr

/-- The address of `io_stream_vmt`. -/
def ioStreamVmt : VId := 0

def World.readD (w : World) (d : DId) : Except Fault IoD :=
  match w.tables.ds.mem d with
  | some v => .ok v
  | none => .error .notAllocated

def World.withErrno (w : World) (e : Errno) : World := { w with errno := e }

def World.setStream (w : World) (s : DId) (f : IoStream → IoStream) : World :=
  { w with stream := Function.update w.stream s (f (w.stream s)) }

/-- `s->d.events &= ~POLLOUT`, on a descriptor that holds `v`. -/
def World.dropOut (w : World) (s : DId) (v : IoD) : World :=
  { w with tables := { w.tables with ds := { w.tables.ds with
      mem := Function.update w.tables.ds.mem s
        (some { v with events := v.events &&& ~~~POLLOUT }) } } }

/-- `io_sock_get_addr(&s->sa, &usa)`. -/
def World.getAddr (w : World) (s : DId) (usa : Unisa) : World :=
  w.setStream s fun st => { st with sa := ioSockGetAddr st.sa usa }

/-- `usa->sa.sa_family == AF_UNIX`. -/
def isUnix : Unisa → Bool
  | .un _ => true
  | _ => false

/-! ## §3 Accepting -/

/-- `if (s->d.vmt->u.stream.connected) s->d.vmt->u.stream.connected(&s->d)`. -/
def callConnected (owner : Owner) (w : World) (s : DId) : Except Fault World :=
  match (w.stream s).vmt with
  | none => .error .nullPointer
  | some vmt =>
    match (w.tables.vmts vmt).slot .connected with
    | none => .ok w
    | some m => .ok (owner m s w)

/-- `io_stream_connected`. -/
def ioStreamConnected (owner : Owner) (w : World) (s : DId) : Except Fault World := do
  let v ← w.readD s
  match w.kernel.peer v.fd with
  | none => pure (w.withErrno .ENOTCONN)
  | some usa =>
    let w ← callConnected owner (if isUnix usa then w else w.getAddr s usa) s
    let v ← w.readD s
    pure (if (w.stream s).out.first.isNone then w.dropOut s v else w)

/-- `accept` on that descriptor; a failure sets `errno`. -/
def World.accept (w : World) (fd : Int) : Option (Nat × Unisa) × World :=
  match w.kernel.accept fd with
  | .err e => (none, w.withErrno e)
  | .ok (r, k) => (some r, { w with kernel := k })

/-- The call of `accept` or `accept4`: the descriptor, and what it has put
into `usa` where the address is asked for. -/
def acceptCall (build : Build) (w : World) (s : Option DId) (ls : DId) :
    Except Fault (Option (Nat × Option Unisa) × World) :=
  match build, s with
  | .bsd, _ => do
    let v ← w.readD ls
    let (r, w) := w.accept v.fd
    pure (r.map fun (sd, usa) => (sd, some usa), w)
  | .other, none => .error .nullPointer
  | .other, some s => do
    let v ← w.readD s
    let (r, w') := w.accept v.fd
    pure (r.map fun (sd, usa) => (sd, if (w.stream s).sa.family = .AF_UNIX then none else some usa),
      w')

/-- `if (!s) s = calloc(1, sizeof *s)`. -/
def World.orCalloc (w : World) : Option DId → DId × World
  | some s => (s, w)
  | none => (w.fresh, {
      tables := { w.tables with ds := { w.tables.ds with
        mem := Function.update w.tables.ds.mem w.fresh (some zeroD) } }
      stream := Function.update w.stream w.fresh .zeroed
      fresh := w.fresh + 1
      kernel := w.kernel
      errno := w.errno })

/-- `io_d_init` and `io_buf_init`. -/
def World.initStream (w : World) (s : DId) (sd : Nat) (inProgress : Bool) (vmt : VId) : World where
  tables := ioDInit w.tables ⟨s, sd, POLLIN ||| (if inProgress then POLLOUT else 0), vmt⟩
  stream := Function.update w.stream s { w.stream s with vmt := some vmt, out := ⟨none, none⟩ }
  fresh := w.fresh
  kernel := w.kernel
  errno := w.errno

/-- `if (!in_progress && s->sa.family != AF_UNIX) io_sock_get_addr(&s->sa, &usa)`. -/
def World.storeAddr (w : World) (s : DId) (inProgress : Bool) (usa : Option Unisa) :
    Except Fault World :=
  if inProgress = false ∧ (w.stream s).sa.family ≠ .AF_UNIX then
    match usa with
    | some usa => .ok (w.getAddr s usa)
    | none => .error .uninitialised
  else .ok w

/-- `io_stream_accept` from `io_d_init` on, when the accept has returned
`sd`. -/
def acceptedAs (owner : Owner) (w : World) (s : DId) (sd : Nat) (usa : Option Unisa) (vmt : VId)
    (inProgress : Bool) : Except Fault World := do
  let w ← (w.initStream s sd inProgress vmt).storeAddr s inProgress usa
  let w := w.setStream s ({ · with connecting := inProgress })
  if inProgress then pure w else ioStreamConnected owner w s

/-- `io_stream_accept`. -/
def ioStreamAccept (build : Build) (owner : Owner) (w : World) (s : Option DId) (ls : DId)
    (vmt : Option VId) : Except Fault (Option DId × World) := do
  let (r, w) ← acceptCall build w s ls
  match r with
  | none => pure (none, w)
  | some (sd, usa) =>
    let inProgress := w.errno == .EINPROGRESS
    let (s, w) := w.orCalloc s
    let w ← acceptedAs owner w s sd usa (vmt.getD ioStreamVmt) inProgress
    pure (some s, w)

/-! ## §4 What the owner leaves alone -/

/-- The stream is in `io_ds`, once. -/
def Once (w : World) (s : DId) : Prop :=
  ∃ list, Chain w.tables.ds.next w.tables.ds.ioDs list ∧ list.count s = 1

def fdOf (w : World) (s : DId) : Option Int := (w.tables.ds.mem s).map (·.fd)

/-- From `w` to `w'` no connection was taken, and the stream has kept its
descriptor, its peer and its place in `io_ds`. -/
structure Leaves (s : DId) (w w' : World) : Prop where
  queue : w'.kernel.queue = w.kernel.queue
  once : Once w s → Once w' s
  fd : fdOf w' s = fdOf w s
  sa : (w'.stream s).sa = (w.stream s).sa
  connecting : (w'.stream s).connecting = (w.stream s).connecting

/-- `connected` may write to the stream and register others. It does not
accept, close or free, and does not look at `errno`. -/
structure Mild (owner : Owner) : Prop where
  leaves : ∀ m s w, Leaves s w (owner m s w)
  errno : ∀ m s w e, ∃ e', owner m s (w.withErrno e) = (owner m s w).withErrno e'

section Steps

variable {owner : Owner} {w : World} {s : DId} {v : IoD} {vmt : VId}

theorem leaves_refl : Leaves s w w := ⟨rfl, id, rfl, rfl, rfl⟩

theorem Leaves.trans {w' w'' : World} (h : Leaves s w w') (h' : Leaves s w' w'') :
    Leaves s w w'' where
  queue := h'.queue.trans h.queue
  once hs := h'.once (h.once hs)
  fd := h'.fd.trans h.fd
  sa := h'.sa.trans h.sa
  connecting := h'.connecting.trans h.connecting

theorem readD_eq_ok : w.readD s = .ok v ↔ w.tables.ds.mem s = some v := by
  unfold World.readD
  cases w.tables.ds.mem s <;> simp

theorem leaves_dropOut (hv : w.tables.ds.mem s = some v) : Leaves s w (w.dropOut s v) where
  queue := rfl
  once := id
  fd := by simp [fdOf, World.dropOut, hv]
  sa := rfl
  connecting := rfl

/-- `getpeername` gives the address that `accept` gave. -/
theorem ioSockGetAddr_again (sa : IoSockAddr) (usa : Unisa) :
    ioSockGetAddr (ioSockGetAddr sa usa) usa = ioSockGetAddr sa usa := by cases usa <;> rfl

theorem leaves_getAddr {sa : IoSockAddr} {usa : Unisa}
    (hsa : (w.stream s).sa = ioSockGetAddr sa usa) : Leaves s w (w.getAddr s usa) where
  queue := rfl
  once := id
  fd := rfl
  sa := by simp [World.getAddr, World.setStream, hsa, ioSockGetAddr_again]
  connecting := by simp [World.getAddr, World.setStream]

theorem callConnected_leaves (hm : Mild owner) (ht : (w.stream s).vmt = some vmt) :
    ∃ w', callConnected owner w s = .ok w' ∧ Leaves s w w' := by
  cases hslot : (w.tables.vmts vmt).slot .connected with
  | none => exact ⟨w, by simp [callConnected, ht, hslot], leaves_refl⟩
  | some m => exact ⟨owner m s w, by simp [callConnected, ht, hslot], hm.leaves m s w⟩

theorem ioStreamConnected_leaves (hm : Mild owner) (hv : w.tables.ds.mem s = some v)
    (ht : (w.stream s).vmt = some vmt) {usa : Unisa}
    (hpeer : ∀ a, w.kernel.peer v.fd = some a → a = usa) {sa : IoSockAddr}
    (hsa : (w.stream s).sa = ioSockGetAddr sa usa) :
    ∃ w', ioStreamConnected owner w s = .ok w' ∧ Leaves s w w' := by
  cases hp : w.kernel.peer v.fd with
  | none =>
    refine ⟨w.withErrno .ENOTCONN, ?_, ⟨rfl, id, rfl, rfl, rfl⟩⟩
    simp [ioStreamConnected, except_bind_eq_ok, readD_eq_ok, hv, hp, pure, Except.pure]
  | some a =>
    obtain rfl := hpeer a hp
    have hset : Leaves s w (if isUnix a then w else w.getAddr s a) := by
      split
      · exact leaves_refl
      · exact leaves_getAddr hsa
    have ht' : ((if isUnix a then w else w.getAddr s a).stream s).vmt = some vmt := by
      split
      · exact ht
      · simpa [World.getAddr, World.setStream] using ht
    obtain ⟨w₁, hcall, hleft⟩ := callConnected_leaves hm ht'
    have h₁ := hset.trans hleft
    obtain ⟨v₁, hv₁, -⟩ : ∃ v₁, w₁.tables.ds.mem s = some v₁ ∧ v₁.fd = v.fd := by
      simpa [fdOf, hv] using h₁.fd
    refine ⟨if (w₁.stream s).out.first.isNone then w₁.dropOut s v₁ else w₁, ?_, ?_⟩
    · simp [ioStreamConnected, except_bind_eq_ok, readD_eq_ok, hv, hp, hcall, hv₁, pure,
        Except.pure]
    · split
      · exact h₁.trans (leaves_dropOut hv₁)
      · exact h₁

/-! ## §5 One call -/

/-- The stream of an accept that has returned `sd` and `usa`. -/
structure Opened (s : DId) (sd : Nat) (usa : Unisa) (inProgress : Bool) (w w' : World) : Prop where
  queue : w'.kernel.queue = w.kernel.queue
  once : Once w' s
  fd : fdOf w' s = some (sd : Int)
  connecting : (w'.stream s).connecting = inProgress
  sa : inProgress = false → (w'.stream s).sa = ioSockGetAddr IoStream.zeroed.sa usa

theorem once_initStream {list : List DId} (hchain : Chain w.tables.ds.next w.tables.ds.ioDs list)
    (hnew : s ∉ list) (sd : Nat) (inProgress : Bool) :
    Once (w.initStream s sd inProgress vmt) s := by
  refine ⟨s :: list, hchain.push hnew, ?_⟩
  rw [List.count_cons_self, List.count_eq_zero_of_not_mem hnew]

theorem Opened.leaves {sd : Nat} {usa : Unisa} {inProgress : Bool} {w' w'' : World}
    (h : Opened s sd usa inProgress w w') (h' : Leaves s w' w'') :
    Opened s sd usa inProgress w w'' where
  queue := h'.queue.trans h.queue
  once := h'.once h.once
  fd := h'.fd.trans h.fd
  connecting := h'.connecting.trans h.connecting
  sa hp := h'.sa.trans (h.sa hp)

variable (vmt) in
/-- The call from `io_d_init` on, for a stream of zeros. -/
theorem acceptedAs_opened (hm : Mild owner) {list : List DId}
    (hchain : Chain w.tables.ds.next w.tables.ds.ioDs list) (hnew : s ∉ list)
    (hzero : w.stream s = .zeroed) {sd : Nat} {usa : Unisa}
    (hpeer : ∀ a, w.kernel.peer sd = some a → a = usa) (inProgress : Bool) :
    ∃ w', acceptedAs owner w s sd (some usa) vmt inProgress = .ok w' ∧
      Opened s sd usa inProgress w w' := by
  have hfamily : ((w.initStream s sd inProgress vmt).stream s).sa.family ≠ .AF_UNIX := by
    simp [World.initStream, hzero, IoStream.zeroed]
  have honce : Once (w.initStream s sd inProgress vmt) s :=
    once_initStream hchain hnew sd inProgress
  cases inProgress with
  | true =>
    refine ⟨(w.initStream s sd true vmt).setStream s ({ · with connecting := true }), rfl,
      ⟨rfl, honce, ?_, ?_, by simp⟩⟩
    · simp [fdOf, World.initStream, World.setStream, ioDInit, Ds.World.init]
    · simp [World.setStream]
  | false =>
    -- the state in which `io_stream_connected` finds the stream
    let w₁ :=
        ((w.initStream s sd false vmt).getAddr s usa).setStream s ({ · with connecting := false })
    have hrun : acceptedAs owner w s sd (some usa) vmt false = ioStreamConnected owner w₁ s := by
      simp [acceptedAs, World.storeAddr, hfamily, w₁, Bind.bind, Except.bind]
    have hsa : (w₁.stream s).sa = ioSockGetAddr IoStream.zeroed.sa usa := by
      simp [w₁, World.setStream, World.getAddr, World.initStream, hzero]
    have hopen : Opened s sd usa false w w₁ := by
      refine ⟨rfl, honce, ?_, ?_, fun _ => hsa⟩
      · simp [w₁, fdOf, World.initStream, World.setStream, World.getAddr, ioDInit, Ds.World.init]
      · simp [w₁, World.setStream]
    obtain ⟨v, hv, hfd⟩ : ∃ v, w₁.tables.ds.mem s = some v ∧ v.fd = (sd : Int) := by
      simpa [fdOf] using hopen.fd
    have hvmt : (w₁.stream s).vmt = some vmt := by
      simp [w₁, World.setStream, World.getAddr, World.initStream]
    have hpeer' : ∀ a, w₁.kernel.peer v.fd = some a → a = usa := by
      rw [hfd]
      exact hpeer
    obtain ⟨w', hconn, hleft⟩ := ioStreamConnected_leaves hm hv hvmt hpeer' hsa
    exact ⟨w', hrun.trans hconn, hopen.leaves hleft⟩

end Steps

/-! ## §6 From which queue -/

section Calls

variable {build : Build} {owner : Owner} {w : World} {s : Option DId} {ls : DId}
  {vmt : Option VId} {list : List DId} {fd : Int} {c : Conn} {rest : List Conn}

/-- What the call is given: `list` is `io_ds`, and `s` is null or a zeroed
object that is not registered, as is what `calloc` answers. -/
structure Given (w : World) (s : Option DId) (list : List DId) : Prop where
  chain : Chain w.tables.ds.next w.tables.ds.ioDs list
  zeroed : ∀ t, s = some t → t ∉ list ∧ w.tables.ds.mem t = some zeroD ∧ w.stream t = .zeroed
  fresh : w.fresh ∉ list

/-- The world once the kernel has handed over a connection. -/
def World.took (w : World) (fd : Int) (c : Conn) (rest : List Conn) : World :=
  { w with kernel := w.kernel.take fd c rest }

/-- What the call should do with the connection `c` at the head of the queue
of `fd`. -/
structure Accepted (fd : Int) (c : Conn) (rest : List Conn) (w : World) (ret : Option DId)
    (w' : World) : Prop where
  queue : w'.kernel.queue fd = some rest
  stream : ∃ s, ret = some s ∧ Once w' s ∧ fdOf w' s = some (w.kernel.nextFd : Int) ∧
    (w'.stream s).connecting = false ∧
    (w'.stream s).sa = ioSockGetAddr IoStream.zeroed.sa c.addr

/-- One call: accepted, or null and `io_ds` as it was if the kernel refuses. -/
def Accepts (build : Build) (owner : Owner) (w : World) (s : Option DId) (ls : DId)
    (vmt : Option VId) (fd : Int) (c : Conn) (rest : List Conn) : Prop :=
  ∃ ret w', ioStreamAccept build owner w s ls vmt = .ok (ret, w') ∧
    if w.kernel.refuse = none then Accepted fd c rest w ret w'
    else ret = none ∧ w'.tables.ds = w.tables.ds

theorem accept_refused {e : Errno} (h : w.kernel.refuse = some e) (fd : Int) :
    w.accept fd = (none, w.withErrno e) := by
  simp [World.accept, Kernel.accept, h]

theorem accept_took (h : w.kernel.refuse = none) (hq : w.kernel.queue fd = some (c :: rest)) :
    w.accept fd = (some (w.kernel.nextFd, c.addr), w.took fd c rest) := by
  simp [World.accept, Kernel.accept, h, hq, World.took]

/-- A socket at which nothing waits. -/
theorem accept_nothing (h : w.kernel.refuse = none)
    (hq : ∀ c rest, w.kernel.queue fd ≠ some (c :: rest)) :
    ∃ e, w.accept fd = (none, w.withErrno e) := by
  rcases hcase : w.kernel.queue fd with - | - | ⟨c, rest⟩
  · exact ⟨.EINVAL, by simp [World.accept, Kernel.accept, h, hcase]⟩
  · exact ⟨.EAGAIN, by simp [World.accept, Kernel.accept, h, hcase]⟩
  · exact absurd hcase (hq c rest)

/-- The object of the new stream, whoever allocated it. -/
theorem Given.orCalloc (h : Given w s list) :
    Chain (w.orCalloc s).2.tables.ds.next (w.orCalloc s).2.tables.ds.ioDs list ∧
      (w.orCalloc s).1 ∉ list ∧ (w.orCalloc s).2.stream (w.orCalloc s).1 = .zeroed ∧
      (w.orCalloc s).2.kernel = w.kernel := by
  cases s with
  | none => exact ⟨h.chain, h.fresh, by simp [World.orCalloc], rfl⟩
  | some t =>
    obtain ⟨hnew, -, hzero⟩ := h.zeroed t rfl
    exact ⟨h.chain, hnew, hzero, rfl⟩

variable (vmt) in
/-- The call, when the kernel has handed over a connection of `fd`. -/
theorem ioStreamAccept_took (hm : Mild owner) (hg : Given w s list)
    (hcall : acceptCall build w s ls =
      .ok (some (w.kernel.nextFd, some c.addr), w.took fd c rest)) :
    ∃ s' w', ioStreamAccept build owner w s ls vmt = .ok (some s', w') ∧
      Opened s' w.kernel.nextFd c.addr (w.errno == .EINPROGRESS) (w.took fd c rest) w' := by
  have hpeer : ∀ a, (w.took fd c rest).kernel.peer w.kernel.nextFd = some a → a = c.addr := by
    intro a ha
    by_cases hgone : c.gone <;> simp_all [World.took, Kernel.take]
  have hg' : Given (w.took fd c rest) s list := ⟨hg.chain, hg.zeroed, hg.fresh⟩
  obtain ⟨hchain, hnew, hzero, hkernel⟩ := hg'.orCalloc
  obtain ⟨w', hrun, hopen⟩ := acceptedAs_opened (vmt.getD ioStreamVmt) hm hchain hnew hzero
    (by rw [hkernel]; exact hpeer) ((w.took fd c rest).errno == .EINPROGRESS)
  refine ⟨((w.took fd c rest).orCalloc s).1, w', ?_, ?_⟩
  · rw [ioStreamAccept, hcall]
    simpa [except_bind_eq_ok, pure, Except.pure] using hrun
  · exact ⟨hopen.queue.trans (by rw [hkernel]), hopen.once, hopen.fd, hopen.connecting, hopen.sa⟩

theorem ioStreamAccept_failed {w' : World} (hcall : acceptCall build w s ls = .ok (none, w')) :
    ioStreamAccept build owner w s ls vmt = .ok (none, w') := by
  rw [ioStreamAccept, hcall]
  rfl

/-- A call that takes its connection from `from_`. -/
def TakesFrom (build : Build) (w : World) (s : Option DId) (ls : DId) (from_ : Int) : Prop :=
  acceptCall build w s ls =
    .ok ((w.accept from_).1.map fun r => (r.1, some r.2), (w.accept from_).2)

variable (vmt) in
theorem accepts_refused {from_ : Int} {e : Errno} (hfrom : TakesFrom build w s ls from_)
    (hr : w.kernel.refuse = some e) : Accepts build owner w s ls vmt fd c rest := by
  rw [TakesFrom, accept_refused hr] at hfrom
  exact ⟨none, w.withErrno e, ioStreamAccept_failed hfrom, by simp [hr, World.withErrno]⟩

variable (vmt) in
/-- Nothing waits where the call looks. -/
theorem not_accepts_nothing {from_ : Int} (hfrom : TakesFrom build w s ls from_)
    (hr : w.kernel.refuse = none) (hnothing : ∀ c rest, w.kernel.queue from_ ≠ some (c :: rest)) :
    ¬Accepts build owner w s ls vmt fd c rest := by
  rintro ⟨ret, w', hrun, hacc⟩
  obtain ⟨e, hnone⟩ := accept_nothing hr hnothing
  rw [TakesFrom, hnone] at hfrom
  have hnull : ioStreamAccept build owner w s ls vmt = .ok (none, w.withErrno e) :=
    ioStreamAccept_failed hfrom
  obtain ⟨rfl, -⟩ : none = ret ∧ w.withErrno e = w' := by simpa using hnull.symm.trans hrun
  rw [if_pos hr] at hacc
  obtain ⟨t, ht, -⟩ := hacc.stream
  cases ht

variable (vmt) in
/-- The connection `c'` is taken, where it should be `c`. -/
theorem accepts_took_iff (hm : Mild owner) (hg : Given w s list) {from_ : Int} {c' : Conn}
    {rest' : List Conn} (hfrom : TakesFrom build w s ls from_) (hr : w.kernel.refuse = none)
    (hq' : w.kernel.queue from_ = some (c' :: rest')) (hq : w.kernel.queue fd = some (c :: rest)) :
    Accepts build owner w s ls vmt fd c rest ↔ from_ = fd ∧ w.errno ≠ .EINPROGRESS := by
  rw [TakesFrom, accept_took hr hq'] at hfrom
  obtain ⟨s', w', hrun, hopen⟩ := ioStreamAccept_took vmt hm hg hfrom
  have hqueue : w'.kernel.queue = Function.update w.kernel.queue from_ (some rest') := hopen.queue
  constructor
  · rintro ⟨ret, w'', hrun', hacc⟩
    obtain ⟨rfl, rfl⟩ : some s' = ret ∧ w' = w'' := by simpa using hrun.symm.trans hrun'
    rw [if_pos hr] at hacc
    obtain ⟨t, ht, -, -, hconn, -⟩ := hacc.stream
    obtain rfl : s' = t := Option.some.inj ht
    refine ⟨by_contra fun hne => ?_, by simpa [hopen.connecting] using hconn⟩
    -- the queue of `fd` is as it was
    have hsame : w'.kernel.queue fd = some (c :: rest) := by
      rw [hqueue, Function.update_of_ne (Ne.symm hne), hq]
    exact List.cons_ne_self c rest (Option.some.inj (hsame.symm.trans hacc.queue))
  · rintro ⟨rfl, hne⟩
    obtain ⟨rfl, rfl⟩ : c' = c ∧ rest' = rest := by simpa using hq'.symm.trans hq
    have hno : (w.errno == .EINPROGRESS) = false := by simpa using hne
    refine ⟨some s', w', hrun, ?_⟩
    rw [if_pos hr]
    exact ⟨by simp [hqueue],
      s', rfl, hopen.once, hopen.fd, hopen.connecting.trans hno, hopen.sa hno⟩

variable (vmt) in
/-- One call does what it should if it takes the connection from the right
queue, and `errno` was not `EINPROGRESS`. -/
theorem accepts_iff_from (hm : Mild owner) (hg : Given w s list) {from_ : Int}
    (hfrom : TakesFrom build w s ls from_) (hq : w.kernel.queue fd = some (c :: rest)) :
    Accepts build owner w s ls vmt fd c rest ↔
      (w.kernel.refuse = none → from_ = fd ∧ w.errno ≠ .EINPROGRESS) := by
  cases hr : w.kernel.refuse with
  | some e => simp [accepts_refused vmt hfrom hr]
  | none =>
    rw [forall_prop_of_true rfl]
    by_cases hnothing : ∀ c rest, w.kernel.queue from_ ≠ some (c :: rest)
    · refine iff_of_false (not_accepts_nothing vmt hfrom hr hnothing) ?_
      rintro ⟨rfl, -⟩
      exact hnothing c rest hq
    · push Not at hnothing
      obtain ⟨c', rest', hq'⟩ := hnothing
      exact accepts_took_iff vmt hm hg hfrom hr hq' hq

/-- A zeroed stream has descriptor 0. -/
theorem takesFrom_other (hg : Given w s list) (hs : s ≠ none) :
    TakesFrom .other w s ls 0 := by
  obtain ⟨t, rfl⟩ := Option.ne_none_iff_exists'.mp hs
  obtain ⟨-, hmem, hzero⟩ := hg.zeroed t rfl
  simp [TakesFrom, acceptCall, except_bind_eq_ok, readD_eq_ok, hmem, hzero, zeroD,
    IoStream.zeroed, pure, Except.pure]

theorem takesFrom_bsd {v : IoD} (hls : w.tables.ds.mem ls = some v) :
    TakesFrom .bsd w s ls v.fd := by
  simp [TakesFrom, acceptCall, except_bind_eq_ok, readD_eq_ok, hls, pure, Except.pure]

end Calls

/-! ## §7 Two calls -/

/-- A step that does not look at `errno`. -/
def Blind (f : World → Except Fault World) : Prop :=
  ∀ w e, ∃ e', f (w.withErrno e) = (f w).map (·.withErrno e')

section Blind

variable {owner : Owner} {f g : World → Except Fault World}

theorem blind_pure {f : World → World}
    (hf : ∀ w e, ∃ e', f (w.withErrno e) = (f w).withErrno e') : Blind fun w => pure (f w) := by
  intro w e
  obtain ⟨e', he⟩ := hf w e
  exact ⟨e', by simp [he, pure, Except.pure, Except.map]⟩

theorem Blind.bind (hf : Blind f) (hg : Blind g) : Blind fun w => f w >>= g := by
  intro w e
  obtain ⟨e₁, h₁⟩ := hf w e
  cases hw : f w with
  | error x => exact ⟨e, by simp [h₁, hw, Bind.bind, Except.bind, Except.map]⟩
  | ok w₁ =>
    obtain ⟨e₂, h₂⟩ := hg w₁ e₁
    exact ⟨e₂, by simp [h₁, hw, h₂, Bind.bind, Except.bind, Except.map]⟩

/-- A step that first reads a descriptor. -/
theorem blind_readD (t : DId) {f : IoD → World → Except Fault World} (hf : ∀ v, Blind (f v)) :
    Blind fun w => w.readD t >>= fun v => f v w := by
  intro w e
  have hread : (w.withErrno e).readD t = w.readD t := rfl
  cases hw : w.readD t with
  | error x => exact ⟨e, by simp [hread, hw, Bind.bind, Except.bind, Except.map]⟩
  | ok v =>
    obtain ⟨e', he⟩ := hf v w e
    exact ⟨e', by simp [hread, hw, he, Bind.bind, Except.bind]⟩

theorem blind_callConnected (hm : Mild owner) (t : DId) :
    Blind fun w => callConnected owner w t := by
  intro w e
  cases hvmt : (w.stream t).vmt with
  | none => exact ⟨e, by simp [callConnected, World.withErrno, hvmt, Except.map]⟩
  | some vmt =>
    cases hslot : (w.tables.vmts vmt).slot .connected with
    | none => exact ⟨e, by simp [callConnected, World.withErrno, hvmt, hslot, Except.map]⟩
    | some m =>
      obtain ⟨e', he⟩ := hm.errno m t w e
      refine ⟨e', ?_⟩
      rw [World.withErrno] at he ⊢
      simp [callConnected, hvmt, hslot, Except.map, he]

theorem blind_ioStreamConnected (hm : Mild owner) (t : DId) :
    Blind fun w => ioStreamConnected owner w t := by
  have hset : ∀ usa, Blind fun w => pure (if isUnix usa then w else w.getAddr t usa) :=
    fun usa => blind_pure fun w e => ⟨e, by split <;> rfl⟩
  have hdrop : ∀ v, Blind fun w =>
      pure (if (w.stream t).out.first.isNone then w.dropOut t v else w) :=
    fun v => blind_pure fun w e => ⟨e, by
      show (if (w.stream t).out.first.isNone then _ else _) = _
      split <;> rfl⟩
  have hrest := fun usa => (hset usa).bind ((blind_callConnected hm t).bind (blind_readD t hdrop))
  refine blind_readD t fun v w e => ?_
  cases hpeer : w.kernel.peer v.fd with
  | none => exact ⟨.ENOTCONN, by simp [World.withErrno, hpeer, Except.map, pure, Except.pure]⟩
  | some usa =>
    have hpeer' : (w.withErrno e).kernel.peer v.fd = some usa := hpeer
    simpa only [hpeer, hpeer', pure_bind] using hrest usa w e

theorem blind_storeAddr (t : DId) (inProgress : Bool) (usa : Option Unisa) :
    Blind fun w => w.storeAddr t inProgress usa := by
  intro w e
  refine ⟨e, ?_⟩
  by_cases hfamily : inProgress = false ∧ (w.stream t).sa.family ≠ .AF_UNIX
  · have hfamily' : inProgress = false ∧ ((w.withErrno e).stream t).sa.family ≠ .AF_UNIX := hfamily
    simp only [World.storeAddr, if_pos hfamily, if_pos hfamily']
    cases usa <;> rfl
  · have hfamily' : ¬(inProgress = false ∧ ((w.withErrno e).stream t).sa.family ≠ .AF_UNIX) :=
      hfamily
    simp only [World.storeAddr, if_neg hfamily, if_neg hfamily']
    rfl

theorem blind_acceptedAs (hm : Mild owner) (t : DId) (sd : Nat) (usa : Option Unisa) (vmt : VId)
    (inProgress : Bool) : Blind fun w => acceptedAs owner w t sd usa vmt inProgress := by
  have hinit : Blind fun w => pure (w.initStream t sd inProgress vmt) :=
    blind_pure fun w e => ⟨e, rfl⟩
  have hset : Blind fun w => pure (w.setStream t ({ · with connecting := inProgress })) :=
    blind_pure fun w e => ⟨e, rfl⟩
  have hstore := hinit.bind (blind_storeAddr t inProgress usa)
  cases inProgress with
  | true => simpa [acceptedAs] using hstore.bind hset
  | false => simpa [acceptedAs] using hstore.bind (hset.bind (blind_ioStreamConnected hm t))

end Blind

section Pairs

variable {build : Build} {owner : Owner} {w : World} {s : Option DId} {ls : DId}
  {vmt : Option VId} {list : List DId} {fd : Int} {c : Conn} {rest : List Conn} {e e' : Errno}

/-- The result and the state of a call, apart from `errno`, are those of
another. -/
def SameResult (r r' : Except Fault (Option DId × World)) : Prop :=
  ∃ ret w' e, r = .ok (ret, w') ∧ r' = .ok (ret, w'.withErrno e)

/-- The two calls do what they should, and the same, whatever `errno` was. -/
structure AcceptsAs (build : Build) (owner : Owner) (w : World) (s : Option DId) (ls : DId)
    (vmt : Option VId) (fd : Int) (c : Conn) (rest : List Conn) (e e' : Errno) : Prop where
  one : Accepts build owner (w.withErrno e) s ls vmt fd c rest
  two : Accepts build owner (w.withErrno e') s ls vmt fd c rest
  same : SameResult (ioStreamAccept build owner (w.withErrno e) s ls vmt)
    (ioStreamAccept build owner (w.withErrno e') s ls vmt)

theorem Given.withErrno (h : Given w s list) (e : Errno) : Given (w.withErrno e) s list :=
  ⟨h.chain, h.zeroed, h.fresh⟩

theorem orCalloc_withErrno (w : World) (s : Option DId) (e : Errno) :
    (w.withErrno e).orCalloc s = ((w.orCalloc s).1, (w.orCalloc s).2.withErrno e) := by
  cases s <;> rfl

/-- A call with an `errno` that says nothing. -/
theorem ioStreamAccept_calm {w₁ : World} {sd : Nat} {usa : Option Unisa}
    (hcall : acceptCall build (w.withErrno e) s ls = .ok (some (sd, usa), w₁.withErrno e))
    (he : e ≠ .EINPROGRESS) :
    ioStreamAccept build owner (w.withErrno e) s ls vmt =
      (acceptedAs owner ((w₁.orCalloc s).2.withErrno e) (w₁.orCalloc s).1 sd usa
        (vmt.getD ioStreamVmt) false).map fun w' => (some (w₁.orCalloc s).1, w') := by
  have hno : ((w₁.withErrno e).errno == .EINPROGRESS) = false := beq_eq_false_iff_ne.mpr he
  rw [ioStreamAccept, hcall]
  simp only [Bind.bind, Except.bind, hno, orCalloc_withErrno]
  cases acceptedAs owner ((w₁.orCalloc s).2.withErrno e) (w₁.orCalloc s).1 sd usa
    (vmt.getD ioStreamVmt) false <;> rfl

/-- The same connection taken, with an `errno` that says nothing. -/
theorem ioStreamAccept_same (hm : Mild owner) (hg : Given w s list)
    (hcall : ∀ e, acceptCall build (w.withErrno e) s ls =
      .ok (some (w.kernel.nextFd, some c.addr), (w.took fd c rest).withErrno e))
    (he : e ≠ .EINPROGRESS) (he' : e' ≠ .EINPROGRESS) :
    SameResult (ioStreamAccept build owner (w.withErrno e) s ls vmt)
      (ioStreamAccept build owner (w.withErrno e') s ls vmt) := by
  obtain ⟨s₁, w₁, hrun, -⟩ := ioStreamAccept_took vmt hm (hg.withErrno e) (hcall e)
  have hblind := blind_acceptedAs hm ((w.took fd c rest).orCalloc s).1 w.kernel.nextFd
    (some c.addr) (vmt.getD ioStreamVmt) false ((w.took fd c rest).orCalloc s).2
  obtain ⟨e₁, h₁⟩ := hblind e
  obtain ⟨e₂, h₂⟩ := hblind e'
  beta_reduce at h₁ h₂
  rw [ioStreamAccept_calm (hcall e) he, h₁] at hrun ⊢
  rw [ioStreamAccept_calm (hcall e') he', h₂]
  cases hmid : acceptedAs owner ((w.took fd c rest).orCalloc s).2
      ((w.took fd c rest).orCalloc s).1 w.kernel.nextFd (some c.addr) (vmt.getD ioStreamVmt)
      false with
  | error f => simp [hmid, Except.map] at hrun
  | ok w₀ => exact ⟨_, w₀.withErrno e₁, e₂, rfl, rfl⟩

/-- Both calls take their connection from `from_`. -/
theorem acceptsAs_iff_from (hm : Mild owner) (hg : Given w s list) {from_ : Int}
    (hfrom : ∀ e, TakesFrom build (w.withErrno e) s ls from_)
    (hq : w.kernel.queue fd = some (c :: rest)) :
    AcceptsAs build owner w s ls vmt fd c rest e e' ↔
      (w.kernel.refuse = none → from_ = fd ∧ e ≠ .EINPROGRESS ∧ e' ≠ .EINPROGRESS) := by
  have hiff := fun e => accepts_iff_from vmt hm (hg.withErrno e) (hfrom e) hq
  constructor
  · rintro h hr
    obtain ⟨hfd, he⟩ := (hiff e).mp h.one hr
    exact ⟨hfd, he, ((hiff e').mp h.two hr).2⟩
  · intro h
    refine ⟨(hiff e).mpr fun hr => ⟨(h hr).1, (h hr).2.1⟩,
      (hiff e').mpr fun hr => ⟨(h hr).1, (h hr).2.2⟩, ?_⟩
    cases hr : w.kernel.refuse with
    | none =>
      obtain ⟨rfl, he, he'⟩ := h hr
      have htook : ∀ e, acceptCall build (w.withErrno e) s ls =
          .ok (some (w.kernel.nextFd, some c.addr), (w.took from_ c rest).withErrno e) := by
        intro e
        have htakes := hfrom e
        rw [TakesFrom, accept_took (w := w.withErrno e) hr hq] at htakes
        exact htakes
      exact ioStreamAccept_same hm hg htook he he'
    | some x =>
      have hnull : ∀ e, ioStreamAccept build owner (w.withErrno e) s ls vmt =
          .ok (none, w.withErrno x) := by
        intro e
        have htakes := hfrom e
        rw [TakesFrom, accept_refused (w := w.withErrno e) hr] at htakes
        exact ioStreamAccept_failed htakes
      exact ⟨none, w.withErrno x, x, hnull e, hnull e'⟩

/-- **One stream a connection.** With a connection waiting at `ls`, the
build without `BSD` does what it should just when it is given a stream, and,
unless the kernel refuses, `ls` has descriptor 0 and `errno` was not
`EINPROGRESS`. -/
theorem stream_accept_iff (hm : Mild owner) (hg : Given w s list) {v : IoD}
    (_hls : w.tables.ds.mem ls = some v) (hq : w.kernel.queue v.fd = some (c :: rest)) :
    AcceptsAs .other owner w s ls vmt v.fd c rest e e' ↔
      s ≠ none ∧
        (w.kernel.refuse = none → v.fd = 0 ∧ e ≠ .EINPROGRESS ∧ e' ≠ .EINPROGRESS) := by
  by_cases hs : s = none
  · subst hs
    refine iff_of_false (fun h => ?_) (fun h => h.1 rfl)
    obtain ⟨ret, w', hrun, -⟩ := h.one
    exact absurd hrun (by simp [ioStreamAccept, acceptCall, Bind.bind, Except.bind])
  · rw [acceptsAs_iff_from hm hg (fun e => takesFrom_other (hg.withErrno e) hs) hq,
      eq_comm (a := (0 : Int))]
    exact (and_iff_right hs).symm

/-- Connections wait at the descriptor of the listener 0; the object 1 is
all zeros. -/
def listening (fd : Int) (waiting : List Conn) : World where
  tables := ⟨fun _ => ⟨none, false, fun _ => none⟩, some 0, 1, fun _ => none,
    fun d => if d = 0 then some ⟨⟨false, false⟩, fd, POLLIN⟩
      else if d = 1 then some zeroD else none⟩
  stream _ := .zeroed
  fresh := 2
  kernel := ⟨fun n => if n = fd then some waiting else none, fun _ => none, 6, none⟩
  errno := .other 0

theorem given_listening (fd : Int) (waiting : List Conn) {s : Option DId}
    (hs : s = none ∨ s = some 1) : Given (listening fd waiting) s [0] where
  chain := ⟨rfl, rfl⟩
  zeroed t ht := by
    rcases hs with rfl | rfl
    · cases ht
    · obtain rfl : 1 = t := Option.some.inj ht
      exact ⟨by decide, rfl, rfl⟩
  fresh := show 2 ∉ [0] by decide

/-- Methods that do nothing. -/
theorem mild_id : Mild fun _ _ w => w := ⟨fun _ _ _ => leaves_refl, fun _ _ _ e => ⟨e, rfl⟩⟩

/-- A peer at port 1234 of the same host. -/
def localPeer : Conn := ⟨.in_ [4, 210] [127, 0, 0, 1], false⟩

/-- A listener that has descriptor 0, as after a `close(0)`. -/
theorem stream_accept_iff_stdin :
    AcceptsAs .other (fun _ _ w => w) (listening 0 [localPeer]) (some 1) 0 none 0 localPeer []
        (.other 0) .EAGAIN ↔
      some 1 ≠ (none : Option DId) ∧ ((listening 0 [localPeer]).kernel.refuse = none →
        (0 : Int) = 0 ∧ Errno.other 0 ≠ .EINPROGRESS ∧ Errno.EAGAIN ≠ .EINPROGRESS) :=
  stream_accept_iff (v := ⟨⟨false, false⟩, 0, POLLIN⟩) mild_id
    (given_listening 0 [localPeer] (.inr rfl)) rfl rfl

/-- A listener at descriptor 5: a null stream is read through, and with a
zeroed one the connection stays in the queue. At descriptor 0, what an
earlier `connect` has left in `errno` leaves the stream connecting. -/
theorem accept_misses :
    ¬AcceptsAs .other (fun _ _ w => w) (listening 5 [localPeer]) none 0 none 5 localPeer []
        (.other 0) (.other 0) ∧
      ¬AcceptsAs .other (fun _ _ w => w) (listening 5 [localPeer]) (some 1) 0 none 5 localPeer []
        (.other 0) (.other 0) ∧
      ¬AcceptsAs .other (fun _ _ w => w) (listening 0 [localPeer]) (some 1) 0 none 0 localPeer []
        .EINPROGRESS (.other 0) := by
  have hfrom : ∀ fd e, TakesFrom .other ((listening fd [localPeer]).withErrno e) (some 1) 0 0 :=
    fun fd e => takesFrom_other ((given_listening fd [localPeer] (.inr rfl)).withErrno e) (by simp)
  refine ⟨fun h => ?_, fun h => ?_, fun h => ?_⟩
  · obtain ⟨ret, w', hrun, -⟩ := h.one
    cases hrun
  · have hfd := (accepts_iff_from none mild_id (given_listening 5 [localPeer] (.inr rfl))
      (hfrom 5 (.other 0)) rfl).mp h.one rfl
    exact absurd hfd.1 (by decide)
  · have hcalm := (accepts_iff_from none mild_id
      ((given_listening 0 [localPeer] (.inr rfl)).withErrno .EINPROGRESS)
      (hfrom 0 .EINPROGRESS) rfl).mp h.one rfl
    exact hcalm.2 rfl

/-- With `BSD` it does so also without a stream, and at any descriptor. -/
theorem bsd_accept_iff (hm : Mild owner) (hg : Given w s list) {v : IoD}
    (hls : w.tables.ds.mem ls = some v) (hq : w.kernel.queue v.fd = some (c :: rest)) :
    AcceptsAs .bsd owner w s ls vmt v.fd c rest e e' ↔
      (w.kernel.refuse = none → e ≠ .EINPROGRESS ∧ e' ≠ .EINPROGRESS) := by
  rw [acceptsAs_iff_from hm hg (fun e => takesFrom_bsd hls) hq]
  simp

end Pairs

end Nanio.Accept
