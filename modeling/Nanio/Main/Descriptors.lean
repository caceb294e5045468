/-
Nanio.Main.Descriptors — the file descriptors of a program, from `socket`
and `accept` to `close`.

The functions that open one (`io_stream_listen_create`,
`io_dgram_client_create`, `io_stream_connect`, `io_stream_accept`) give it to
an object, which is registered in `io_ds`, or close it again. The functions
that close one are `io_d_close`, `io_d_free` and, when the program ends,
`io_ds_free`. Methods of the owner run inside of them, and may call any of
them; the poll loop is a caller like others here, as it opens nothing and
closes nothing but by `io_d_free`.

`table` is the kernel's, and it answers as it likes, but for a new
descriptor, which is one that is not open. Nothing is open that is not
accounted for, in any run, and nothing is closed twice
(`descriptors_accounted`). Logging is left out.
-/
import Nanio.Ds.DsRules
import Nanio.Lib.Ledger
import Nanio.Sock.HostAddr
import Nanio.Stream.Accept

namespace Nanio.Descriptors

open Nanio.Lib Nanio.Sock
open Nanio.Ds (DId DVmt IoD)
open Nanio.Stream (POLLIN POLLOUT)
open Nanio.Accept (Build isUnix)

/-! ## §1 The world -/

inductive SockType where
  | SOCK_STREAM | SOCK_DGRAM
  deriving DecidableEq, Repr

/-- A socket in the kernel. -/
structure Socket where
  type : SockType
  family : Family
  device : Option Text
  reuse : Bool
  bound : Option Unisa
  backlog : Option Int
  peer : Option Unisa

def Socket.new (type : SockType) (family : Family) : Socket :=
  ⟨type, family, none, false, none, none, none⟩

/-- Which methods there are, of those that are tested for. -/
structure Vmt where
  d : DVmt
  connected : Bool
  deriving DecidableEq, Repr

def ioStreamVmt : Vmt := ⟨⟨false, true⟩, false⟩

/-- `sa` is the field of the listeners and the streams. -/
structure World where
  ds : Ds.World
  table : Nat → Option Socket
  sa : DId → IoSockAddr
  connected : DId → Bool

/-- `io_ds_init`, with what the process has inherited open. -/
def World.init (inherited : Nat → Option Socket) (sa : DId → IoSockAddr) : World :=
  ⟨.empty, inherited, sa, fun _ => false⟩

def World.opened (w : World) (n : Nat) (s : Socket) : World :=
  { w with table := Function.update w.table n (some s) }

def World.closed (w : World) (n : Nat) : World :=
  { w with table := Function.update w.table n none }

/-- A socket option, or a name, for an open socket. -/
def World.setSocket (w : World) (sd : Int) (f : Socket → Socket) : World :=
  if 0 ≤ sd then { w with table := Function.update w.table sd.toNat ((w.table sd.toNat).map f) }
  else w

def World.setSa (w : World) (d : DId) (sa : IoSockAddr) : World :=
  { w with sa := Function.update w.sa d sa }

def World.setFields (w : World) (d : DId) (v : IoD) : World :=
  { w with ds := { w.ds with mem := Function.update w.ds.mem d (some v) } }

inductive Query where
  | calloc
  | socket (family : Family) (type : SockType)
  | bindToDevice (sd : Int) (iface : Text)
  /-- What the variable `on` holds, which nobody has set. -/
  | garbage
  | reuseAddr (sd on : Int)
  | bind (sd : Int) (usa : Unisa)
  | listen (sd queueSize : Int)
  | connect (sd : Int) (usa : Unisa)
  /-- On the descriptor in the field `fd` of `d`. -/
  | accept (d : DId)
  | getpeername (fd : Int)
  | outIsEmpty (s : DId)
  deriving DecidableEq

@[reducible] def Answer : Query → Type
  | .calloc => DId
  | .socket _ _ => SysResult Nat
  | .bindToDevice _ _ => SysResult Unit
  | .garbage => Int
  | .reuseAddr _ _ => SysResult Unit
  | .bind _ _ => SysResult Unit
  | .listen _ _ => SysResult Unit
  | .connect _ _ => SysResult Unit
  | .accept _ => SysResult (Nat × Family × Unisa)
  | .getpeername _ => SysResult Unisa
  | .outIsEmpty _ => Bool

/-- `free` is recorded with whether it is `io_ds_free` that calls it. -/
inductive Method where
  | free (d : DId) (atExit : Bool)
  | connected (d : DId)
  deriving DecidableEq

/-- `notOpen`: a descriptor closed that is not open. `nullPointer`: the
stream that `io_stream_accept` was not given. -/
inductive Fault where
  | notRegistered
  | notOpen
  | offEnd
  | endless
  | nullPointer
  | sock (f : SockFault)
  deriving DecidableEq

/-- `io_stream_listen_conf_t`. -/
structure ListenConf where
  queueSize : Int
  sa : IoSockAddr
  iface : Text

/-- An object is given or, for the null pointer, allocated. `errno` is what
the call finds there. -/
inductive Call where
  | listenCreate (self : Option DId) (conf : ListenConf) (vmt : Vmt)
  | dgramCreate (self : Option DId) (family : Family) (iface : Text) (vmt : Vmt)
  | connect (s : Option DId) (sa : IoSockAddr) (vmt : Option Vmt) (errno : Errno)
  | accept (build : Build) (s : Option DId) (ls : DId) (vmt : Option Vmt) (errno : Errno)
  | close (d : DId)
  | free (d : DId)
  | dsFree

abbrev Code (α : Type) := Prog World Query Answer Method Fault α

def readD (d : DId) : Code IoD := do
  let w ← Prog.read
  match w.ds.mem d with
  | some v => pure v
  | none => Prog.fault .notRegistered

/-- `close`, which minds -1 as little as the functions below do. -/
def close (fd : Int) : Code Unit := do
  let w ← Prog.read
  if fd < 0 then pure ()
  else if (w.table fd.toNat).isSome then Prog.modify (·.closed fd.toNat)
  else Prog.fault .notOpen

/-- The address of an object. -/
def ptr (d : DId) : Int := d + 1

/-! ## §2 Opening -/

/-- `socket`, the descriptor or -1. -/
def socket (family : Family) (type : SockType) : Code Int := do
  match ← Prog.query (Query.socket family type) with
  | .err _ => pure (-1)
  | .ok n =>
    Prog.modify (·.opened n (.new type family))
    pure n

/-- A system call on `sd`, which is closed where it fails. -/
def orClose (sd : Int) (r : SysResult Unit) (f : Socket → Socket) : Code Int :=
  match r with
  | .err _ => do
    close sd
    pure (-1)
  | .ok _ => do
    Prog.modify (·.setSocket sd f)
    pure sd

/-- `io_socket`. -/
def ioSocket (type : SockType) (family : Family) (iface : Text) : Code Int := do
  let sd ← socket family type
  if iface ≠ [] ∧ (family = .AF_INET ∨ family = .AF_INET6) then
    let r ← Prog.query (Query.bindToDevice sd iface)
    orClose sd r ({ · with device := some iface })
  else pure sd

def setAddr (sa : IoSockAddr) : Code Unisa :=
  match ioSockSetAddr sa with
  | .ok usa => pure usa
  | .error f => Prog.fault (.sock f)

/-- `io_binded_socket` behind `SO_REUSEADDR`. -/
def bindTo (sd : Int) (sa : IoSockAddr) : Code Int := do
  let usa ← setAddr sa
  let r ← Prog.query (Query.bind sd usa)
  orClose sd r ({ · with bound := some usa })

/-- `io_binded_socket`. -/
def ioBindedSocket (type : SockType) (sa : IoSockAddr) (iface : Text) : Code Int := do
  let sd ← ioSocket type sa.family iface
  let on ← Prog.query Query.garbage
  match ← Prog.query (Query.reuseAddr sd on) with
  | .err _ =>
    close sd
    pure (-1)
  | .ok _ =>
    Prog.modify (·.setSocket sd ({ · with reuse := on ≠ 0 }))
    bindTo sd sa

/-- `if (!self) self = calloc(1, sizeof *self)`. -/
def orCalloc : Option DId → Code DId
  | some d => pure d
  | none => do
    let d ← Prog.query Query.calloc
    Prog.modify (·.setSa d ⟨0, .other 0, .ipv4 0⟩)
    pure d

/-- `io_d_init`. -/
def ioDInit (d : DId) (fd : Int) (events : BitVec 32) (vmt : Vmt) : Code Unit :=
  Prog.modify fun w =>
    { w with
      ds := w.ds.init d fd events vmt.d
      connected := Function.update w.connected d vmt.connected }

/-- `io_stream_listen_create` behind `listen`. -/
def listenWith (self : Option DId) (sd : Int) (conf : ListenConf) (vmt : Vmt) : Code Int := do
  let self ← orCalloc self
  Prog.modify (·.setSa self conf.sa)
  ioDInit self sd POLLIN vmt
  pure (ptr self)

/-- `io_stream_listen_create`. -/
def ioStreamListenCreate (self : Option DId) (conf : ListenConf) (vmt : Vmt) : Code Int := do
  let sd ← ioBindedSocket .SOCK_STREAM conf.sa conf.iface
  if sd < 0 then pure 0
  else
    let r ← Prog.query (Query.listen sd conf.queueSize)
    let sd ← orClose sd r ({ · with backlog := some conf.queueSize })
    if sd < 0 then pure 0 else listenWith self sd conf vmt

/-- `io_dgram_client_create`. -/
def ioDgramClientCreate (self : Option DId) (family : Family) (iface : Text) (vmt : Vmt) :
    Code Int := do
  let sd ← ioSocket .SOCK_DGRAM family iface
  if sd < 0 then pure 0
  else
    let self ← orCalloc self
    ioDInit self sd POLLIN vmt
    pure (ptr self)

/-- `if (s->d.vmt->u.stream.connected) ..`, and what follows it. -/
def callConnected (s : DId) : Code Unit := do
  let w ← Prog.read
  if w.connected s then
    let _ ← Prog.invoke (.connected s)
    pure ()
  else pure ()

/-- `io_stream_connected` behind the call of the method. -/
def connectedRest (s : DId) : Code Unit := do
  let v ← readD s
  if ← Prog.query (Query.outIsEmpty s) then
    Prog.modify (·.setFields s { v with events := v.events &&& ~~~POLLOUT })
  else pure ()

/-- `io_stream_connected`. -/
def ioStreamConnected (s : DId) : Code Unit := do
  let v ← readD s
  match ← Prog.query (Query.getpeername v.fd) with
  | .err _ => pure ()
  | .ok usa =>
    Prog.modify fun w => if isUnix usa then w else w.setSa s (ioSockGetAddr (w.sa s) usa)
    callConnected s
    connectedRest s

/-- `POLLIN|(in_progress ? POLLOUT : 0)`. -/
def streamEvents (inProgress : Bool) : BitVec 32 := POLLIN ||| if inProgress then POLLOUT else 0

/-- `s->connecting = in_progress`, and the end of `io_stream_connect` and
`io_stream_accept`. -/
def connectedUnless (inProgress : Bool) (s : DId) : Code Int := do
  if inProgress then pure (ptr s)
  else
    ioStreamConnected s
    pure (ptr s)

/-- `_io_stream_connect`: the descriptor or -1, and errno. -/
def ioStreamConnectFd (sa : IoSockAddr) (errno : Errno) : Code (Int × Errno) := do
  let usa ← setAddr sa
  let sd ← socket .AF_INET .SOCK_STREAM
  match ← Prog.query (Query.connect sd usa) with
  | .ok _ =>
    Prog.modify (·.setSocket sd ({ · with peer := some usa }))
    pure (sd, errno)
  | .err e =>
    if e = .EINPROGRESS then pure (sd, e)
    else
      close sd
      pure (-1, e)

/-- `io_stream_connect`. -/
def ioStreamConnect (s : Option DId) (sa : IoSockAddr) (vmt : Option Vmt) (errno : Errno) :
    Code Int := do
  let (fd, errno) ← ioStreamConnectFd sa errno
  if fd < 0 then pure 0
  else
    let s ← orCalloc s
    ioDInit s fd (streamEvents (errno = .EINPROGRESS)) (vmt.getD ioStreamVmt)
    Prog.modify (·.setSa s sa)
    connectedUnless (errno = .EINPROGRESS) s

/-- The object whose descriptor a connection is accepted from. -/
def acceptFrom (build : Build) (s : Option DId) (ls : DId) : Code DId :=
  match build, s with
  | .bsd, _ => pure ls
  | .other, some s => pure s
  | .other, none => Prog.fault .nullPointer

/-- `io_stream_accept` once there is a connection. -/
def acceptedAs (s : Option DId) (sd : Nat) (usa : Unisa) (vmt : Option Vmt) (inProgress : Bool) :
    Code Int := do
  let s ← orCalloc s
  ioDInit s sd (streamEvents inProgress) (vmt.getD ioStreamVmt)
  Prog.modify fun w =>
    if inProgress ∨ (w.sa s).family = .AF_UNIX then w else w.setSa s (ioSockGetAddr (w.sa s) usa)
  connectedUnless inProgress s

/-- `io_stream_accept`. -/
def ioStreamAccept (build : Build) (s : Option DId) (ls : DId) (vmt : Option Vmt) (errno : Errno) :
    Code Int := do
  let from_ ← acceptFrom build s ls
  match ← Prog.query (Query.accept from_) with
  | .err _ => pure 0
  | .ok (n, family, usa) =>
    Prog.modify (·.opened n { Socket.new .SOCK_STREAM family with peer := some usa })
    acceptedAs s n usa vmt (errno = .EINPROGRESS)

/-! ## §3 Closing -/

/-- `io_d_close`. -/
def ioDClose (d : DId) : Code Unit := do
  let v ← readD d
  if 0 ≤ v.fd then
    close v.fd
    Prog.modify (·.setFields d { v with fd := -1 })
  else pure ()

/-- `if (self->vmt->free) self->vmt->free(self)`. -/
def callFree (d : DId) (atExit : Bool) : Code Unit := do
  let v ← readD d
  if v.vmt.free then
    let _ ← Prog.invoke (.free d atExit)
    pure ()
  else pure ()

/-- The end of `io_d_free`. -/
def closeAndFree (d : DId) : Code Unit := do
  let v ← readD d
  close v.fd
  Prog.modify fun w => { w with ds := w.ds.release d }

/-- `io_d_free`. -/
def ioDFree (d : DId) (atExit : Bool) : Code Unit := do
  let w ← Prog.read
  match findLink w.ds.ioDs w.ds.next d (w.ds.length + 1) .head with
  | .offEnd => Prog.fault .offEnd
  | .outOfFuel => Prog.fault .endless
  | .found t =>
    Prog.modify fun w => { w with ds := w.ds.unlink d t }
    callFree d atExit
    closeAndFree d

/-- The loop of `io_ds_free`; `endless` is one that goes round more often
than the list was long. -/
def ioDsFreeLoop : Nat → Code Unit
  | 0 => do
    let w ← Prog.read
    if w.ds.ioDs = none then pure () else Prog.fault .endless
  | fuel + 1 => do
    let w ← Prog.read
    match w.ds.ioDs with
    | none => pure ()
    | some d =>
      ioDFree d true
      ioDsFreeLoop fuel

/-- `io_ds_free`. -/
def ioDsFree : Code Unit := do
  let w ← Prog.read
  ioDsFreeLoop w.ds.length

def body : Call → Code Int
  | .listenCreate self conf vmt => ioStreamListenCreate self conf vmt
  | .dgramCreate self family iface vmt => ioDgramClientCreate self family iface vmt
  | .connect s sa vmt errno => ioStreamConnect s sa vmt errno
  | .accept build s ls vmt errno => ioStreamAccept build s ls vmt errno
  | .close d => do
    ioDClose d
    pure 0
  | .free d => do
    ioDFree d false
    pure 0
  | .dsFree => do
    ioDsFree
    pure 0

/-! ## §4 The books -/

def World.isOpen (w : World) (n : Nat) : Prop := (w.table n).isSome

def held (v : IoD) : Option Nat := if 0 ≤ v.fd then some v.fd.toNat else none

/-- The descriptor that an object holds. -/
def World.holds (w : World) (d : DId) : Option Nat := (w.ds.mem d).bind held

/-- An object whose `free` method runs is not in the list any more, but still
there. -/
structure Tidy (before : Nat → Prop) (freeing : List DId) (w : World) (list : List DId) :
    Prop where
  chain : Chain w.ds.next w.ds.ioDs list
  length : w.ds.length = list.length
  live : ∀ d, (w.ds.mem d).isSome ↔ d ∈ list ∨ d ∈ freeing
  apart : ∀ d ∈ list, d ∉ freeing
  nodup : freeing.Nodup
  ledger : Ledger w.isOpen before w.holds

section Tidy

variable {before : Nat → Prop} {freeing list : List DId} {w w' : World} {d : DId} {v : IoD}

theorem holds_update {v : Option IoD} (h : w'.ds.mem = Function.update w.ds.mem d v) :
    w'.holds = Function.update w.holds d (v.bind held) := by
  funext x
  by_cases hx : x = d
  · simp [World.holds, h, hx]
  · simp [World.holds, h, hx]

theorem isOpen_opened (n : Nat) (s : Socket) (x : Nat) :
    (w.opened n s).isOpen x ↔ w.isOpen x ∨ x = n := by
  by_cases hx : x = n
  · simp [World.isOpen, World.opened, hx]
  · simp [World.isOpen, World.opened, hx]

theorem isOpen_closed (n x : Nat) : (w.closed n).isOpen x ↔ w.isOpen x ∧ x ≠ n := by
  by_cases hx : x = n
  · simp [World.isOpen, World.closed, hx]
  · simp [World.isOpen, World.closed, hx]

theorem Tidy.get (h : Tidy before freeing w list) (hd : d ∈ list ∨ d ∈ freeing) :
    ∃ v, w.ds.mem d = some v := Option.isSome_iff_exists.mp ((h.live d).mpr hd)

theorem Tidy.notMem (h : Tidy before freeing w list) (hd : w.ds.mem d = none) :
    d ∉ list ∧ d ∉ freeing := by
  simpa [hd] using h.live d

/-- Of a world only the objects and the descriptors are looked at. -/
theorem Tidy.congr (h : Tidy before freeing w list) (hds : w'.ds = w.ds)
    (htable : w'.table = w.table) : Tidy before freeing w' list := by
  have hopen : ∀ r, w'.isOpen r ↔ w.isOpen r := by simp [World.isOpen, htable]
  have hholds : w'.holds = w.holds := by
    funext x
    simp [World.holds, hds]
  exact ⟨hds ▸ h.chain, hds ▸ h.length, hds ▸ h.live, h.apart, h.nodup,
    h.ledger.congr hopen hholds⟩

theorem held_some (hfd : 0 ≤ v.fd) : held v = some v.fd.toNat := if_pos hfd

theorem Tidy.open (h : Tidy before freeing w list) (hv : w.ds.mem d = some v) (hfd : 0 ≤ v.fd) :
    (w.table v.fd.toNat).isSome :=
  h.ledger.isOpen_of_holds (o := d) (by simp [World.holds, hv, held_some hfd])

/-- A new descriptor and the object that is registered with it. -/
theorem Tidy.register (h : Tidy before freeing w list) (hd : w.ds.mem d = none) {n : Nat}
    (hn : w.table n = none) {s : Socket} (events : BitVec 32) (vmt : DVmt)
    (hds : w'.ds = w.ds.init d n events vmt) (htable : w'.table = (w.opened n s).table) :
    Tidy before freeing w' (d :: list) := by
  obtain ⟨hlist, hfreeing⟩ := h.notMem hd
  have hnone : w.holds d = none := by simp [World.holds, hd]
  have hclosed : ¬w.isOpen n := by simp [World.isOpen, hn]
  have hholds : w'.holds = Function.update w.holds d (some n) := by
    rw [holds_update (w := w) (d := d) (v := some ⟨vmt, n, events⟩) (by rw [hds]; rfl)]
    simp [held]
  have hopen : ∀ x, w'.isOpen x ↔ w.isOpen x ∨ x = n := by
    intro x
    rw [← isOpen_opened n s x, World.isOpen, htable]
    rfl
  constructor
  · rw [hds]
    exact h.chain.push hlist
  · rw [hds]
    exact congrArg (· + 1) h.length
  · intro x
    rw [hds]
    show (Function.update w.ds.mem d (some ⟨vmt, n, events⟩) x).isSome ↔ _
    by_cases hx : x = d
    · simp [hx]
    · simp [hx, h.live x]
  · exact List.forall_mem_cons.mpr ⟨hfreeing, h.apart⟩
  · exact h.nodup
  · exact (h.ledger.acquire hnone hclosed).congr hopen hholds

/-- The fields of an object rewritten, but for `fd`. -/
theorem Tidy.setFields (h : Tidy before freeing w list) (hv : w.ds.mem d = some v) {v' : IoD}
    (hfd : v'.fd = v.fd) : Tidy before freeing (w.setFields d v') list := by
  refine ⟨h.chain, h.length, fun x => ?_, h.apart, h.nodup, h.ledger.congr (fun _ => Iff.rfl) ?_⟩
  · show (Function.update w.ds.mem d (some v') x).isSome ↔ _
    rw [← h.live x]
    by_cases hx : x = d
    · simp [hx, hv]
    · simp [hx]
  · rw [holds_update (w := w) (d := d) (v := some v') rfl]
    funext x
    by_cases hx : x = d
    · simp [hx, World.holds, hv, held, hfd]
    · simp [hx]

theorem Tidy.close (h : Tidy before freeing w list) (hv : w.ds.mem d = some v) (hfd : 0 ≤ v.fd) :
    Tidy before freeing ((w.closed v.fd.toNat).setFields d { v with fd := -1 }) list := by
  have hholds : w.holds d = some v.fd.toNat := by simp [World.holds, hv, held_some hfd]
  refine ⟨h.chain, h.length, fun x => ?_, h.apart, h.nodup,
    (h.ledger.release hholds).congr (isOpen_closed _) ?_⟩
  · show (Function.update w.ds.mem d (some { v with fd := -1 }) x).isSome ↔ _
    rw [← h.live x]
    by_cases hx : x = d
    · simp [hx, hv]
    · simp [hx]
  · rw [holds_update (w := w) (d := d) (v := some { v with fd := -1 }) rfl]
    rfl

/-- Taken out of the list, a descriptor is on its way to be freed. -/
theorem Tidy.unlink (h : Tidy before freeing w list) (hd : d ∈ list) :
    ∃ t, findLink w.ds.ioDs w.ds.next d (w.ds.length + 1) .head = .found t ∧
      Tidy before (d :: freeing) { w with ds := w.ds.unlink d t } (list.erase d) := by
  have hfuel : list.length ≤ w.ds.length + 1 := by simp [h.length]
  obtain ⟨t, hfind, hchain, -⟩ := unlink_chain h.chain hd hfuel
  have hnot : d ∉ list.erase d := h.chain.nodup.not_mem_erase
  refine ⟨t, hfind, (chain_update _ d none _ _ hnot).mpr hchain, ?_, fun x => ?_, fun x hx => ?_,
    List.nodup_cons.mpr ⟨h.apart d hd, h.nodup⟩, h.ledger⟩
  · show w.ds.length - 1 = (list.erase d).length
    rw [h.length, List.length_erase_of_mem hd]
  · show (w.ds.mem x).isSome ↔ _
    rw [h.live x, List.mem_cons]
    by_cases hx : x = d
    · simp [hx, hd]
    · simp [hx, List.mem_erase_of_ne hx]
  · have hne : x ≠ d := fun heq => hnot (heq ▸ hx)
    simpa [hne] using h.apart x (List.mem_of_mem_erase hx)

/-- `closeAndFree` of an object that is in no list. -/
theorem Tidy.release (h : Tidy before (d :: freeing) w list) (hv : w.ds.mem d = some v)
    (hds : w'.ds = w.ds.release d)
    (htable : w'.table = if v.fd < 0 then w.table else (w.closed v.fd.toNat).table) :
    Tidy before freeing w' list := by
  obtain ⟨hfreeing, hnodup⟩ := List.nodup_cons.mp h.nodup
  have hholds : w'.holds = Function.update w.holds d none :=
    holds_update (d := d) (v := none) (by rw [hds]; rfl)
  refine ⟨hds ▸ h.chain, hds ▸ h.length, fun x => ?_, fun x hx hm => ?_, hnodup, ?_⟩
  · rw [hds]
    show (Function.update w.ds.mem d none x).isSome ↔ _
    by_cases hx : x = d
    · have hlist : d ∉ list := fun hm => h.apart d hm List.mem_cons_self
      simp [hx, hlist, hfreeing]
    · simp [hx, h.live x]
  · exact h.apart x hx (List.mem_cons_of_mem d hm)
  · by_cases hfd : v.fd < 0
    · have hnone : w.holds d = none := by simp [World.holds, hv, held, Int.not_le.mpr hfd]
      rw [if_pos hfd] at htable
      refine h.ledger.congr (by simp [World.isOpen, htable]) ?_
      rw [hholds, ← hnone, Function.update_eq_self]
    · have hsome : w.holds d = some v.fd.toNat := by
        simp [World.holds, hv, held_some (Int.not_lt.mp hfd)]
      rw [if_neg hfd] at htable
      refine (h.ledger.release hsome).congr (fun x => ?_) hholds
      rw [← isOpen_closed, World.isOpen, htable]
      rfl

end Tidy

/-! ## §5 The contract -/

abbrev Callback := Pending World Method Call
abbrev Log := List (Event World Method Call)

/-- An object for a new descriptor is not in use, and while the program ends
there are no new ones. -/
def Opening (v : View World Method Call) (self : Option DId) : Prop :=
  (∀ d, self = some d → v.st.ds.mem d = none) ∧ ∀ p ∈ v.pending, ∀ d, p.method ≠ .free d true

/-- What the kernel and `calloc` answer is new. -/
def Fresh (w : World) : (q : Query) → Answer q → Prop
  | .calloc, d => w.ds.mem d = none
  | .socket _ _, .ok n => w.table n = none
  | .accept _, .ok (n, _) => w.table n = none
  | _, _ => True

/-- The condition. An object is closed and freed when it is there; it is not
freed again, nor while it is told of its connection. -/
def descriptorsOk (v : View World Method Call) : Choice Query Answer Call → Prop
  | .enter (.listenCreate self conf _) => Opening v self ∧ ∃ usa, ioSockSetAddr conf.sa = .ok usa
  | .enter (.dgramCreate self _ _ _) => Opening v self
  | .enter (.connect s sa _ _) => Opening v s ∧ ∃ usa, ioSockSetAddr sa = .ok usa
  | .enter (.accept build s _ _ _) => Opening v s ∧ (build = .bsd ∨ s ≠ none)
  | .enter (.close d) => (v.st.ds.mem d).isSome
  | .enter (.free d) => (v.st.ds.mem d).isSome ∧
      ∀ p ∈ v.pending, p.method ≠ .connected d ∧ ∀ atExit, p.method ≠ .free d atExit
  | .enter .dsFree => v.pending = []
  | .answer q a => Fresh v.st q a
  | .back _ => True

/-- The device a socket of the family is bound to. -/
def onDevice (family : Family) (iface : Text) : Option Text :=
  if iface ≠ [] ∧ (family = .AF_INET ∨ family = .AF_INET6) then some iface else none

/-- An object that holds a socket, and waits for input. -/
def Waits (w : World) (d : DId) (s : Socket) : Prop :=
  ∃ v : IoD, w.ds.mem d = some v ∧ v.events = POLLIN ∧ ∃ n : Nat, v.fd = n ∧ w.table n = some s

/-- The name of a socket is that of the address, and is read back as it. -/
def Names (usa : Unisa) (sa : IoSockAddr) : Prop :=
  ioSockSetAddr sa = .ok usa ∧
    (sa.family = .AF_INET ∨ sa.family = .AF_INET6 → ∀ sa', ioSockGetAddr sa' usa = sa)

/-- A call that has failed has left nothing behind. -/
def Untouched (entry exit : World) : Prop := exit.table = entry.table ∧ exit.ds = entry.ds

/-- What a call has done when it returns. -/
def Returned (before : Nat → Prop) : Call → World → World → Int → Prop
  | .listenCreate _ conf _, entry, exit, v =>
    (v = 0 ∧ Untouched entry exit) ∨ ∃ d usa reuse, v = ptr d ∧ Names usa conf.sa ∧
      Waits exit d ⟨.SOCK_STREAM, conf.sa.family, onDevice conf.sa.family conf.iface, reuse,
        some usa, some conf.queueSize, none⟩
  | .dgramCreate _ family iface _, entry, exit, v =>
    (v = 0 ∧ Untouched entry exit) ∨ ∃ d, v = ptr d ∧
      Waits exit d { Socket.new .SOCK_DGRAM family with device := onDevice family iface }
  | .connect _ _ _ _, entry, exit, v => v = 0 → Untouched entry exit
  | .accept _ _ _ _ _, entry, exit, v => v = 0 → Untouched entry exit
  | .close _, _, _, _ => True
  | .free _, _, _, _ => True
  | .dsFree, _, exit, _ => ∀ n, exit.isOpen n ↔ before n

/-- The objects whose `free` method runs. -/
def freeing (ps : List Callback) : List DId :=
  ps.filterMap fun p =>
    match p.method with
    | .free d _ => some d
    | .connected _ => none

/-- An object that is told of its connection is registered, and while the
program ends the list does not grow. -/
def Bound (list : List DId) (p : Callback) : Prop :=
  match p.method with
  | .connected d => d ∈ list
  | .free _ true => list.length ≤ p.st.ds.length
  | .free _ false => True

def InOrder (before : Nat → Prop) (ps : List Callback) (w : World) : Prop :=
  ∃ list, Tidy before (freeing ps) w list ∧ ∀ p ∈ ps, Bound list p

def Record (before : Nat → Prop) (l : Log) : Prop :=
  ∀ c entry exit v, .leave c entry exit v ∈ l → Returned before c entry exit v

def descriptorsContract (before : Nat → Prop) :
    Contract World Query Answer Method Fault Call where
  ok := descriptorsOk
  Inv ps w l := InOrder before ps w ∧ Record before l
  mayFault _ := False

theorem Record.called {before : Nat → Prop} {l : Log} (h : Record before l) (m : Method)
    (w : World) : Record before (l ++ [.call m w]) := by
  intro c entry exit v hm
  simp only [List.mem_append, List.mem_singleton, reduceCtorEq, or_false] at hm
  exact h c entry exit v hm

theorem Record.left {before : Nat → Prop} {l : Log} (h : Record before l) {c : Call}
    {entry exit : World} {v : Int} (hc : Returned before c entry exit v) :
    Record before (l ++ [.leave c entry exit v]) := by
  intro c' entry' exit' v' hm
  rcases List.mem_append.mp hm with hm | hm
  · exact h c' entry' exit' v' hm
  · cases List.mem_singleton.mp hm
    exact hc

section Rules

variable {before : Nat → Prop} {ps : List Callback} {c : Call} {w w' : World} {l : Log}
  {list : List DId} {d : DId}

/-! ### Opening -/

/-- The descriptor that is open for `s` beside those of `w`, if there is one. -/
inductive Got (w : World) (s : Socket) : Int → World → Prop where
  | nothing : Got w s (-1) w
  | new (n : Nat) (h : w.table n = none) : Got w s n (w.opened n s)

theorem closed_opened {n : Nat} (h : w.table n = none) (s : Socket) :
    (w.opened n s).closed n = w := by
  obtain ⟨ds, table, sa, connected⟩ := w
  have hn : table n = none := h
  simp only [World.closed, World.opened, Function.update_idem, World.mk.injEq, true_and, and_true]
  rw [← hn, Function.update_eq_self]

theorem setSocket_opened (n : Nat) (s : Socket) (f : Socket → Socket) :
    (w.opened n s).setSocket n f = w.opened n (f s) := by
  simp [World.setSocket, World.opened]

theorem wp_close {fd : Int} {post : Unit → World → Log → Prop}
    (hnone : fd < 0 → post () w l)
    (hopen : 0 ≤ fd → (w.table fd.toNat).isSome ∧ post () (w.closed fd.toNat) l) :
    (close fd).wp (descriptorsContract before) c ps post w l := by
  unfold close
  rw [wp_bind, wp_read]
  by_cases hfd : fd < 0
  · rw [if_pos hfd]
    exact hnone hfd
  · obtain ⟨hsome, hpost⟩ := hopen (Int.not_lt.mp hfd)
    rw [if_neg hfd, if_pos hsome]
    exact hpost

theorem wp_socket {family : Family} {type : SockType} {post : Int → World → Log → Prop}
    (h : ∀ sd w', Got w (.new type family) sd w' → post sd w' l) :
    (socket family type).wp (descriptorsContract before) c ps post w l := by
  unfold socket
  rw [wp_bind, wp_query]
  intro a ha
  cases a with
  | err e => exact h _ _ .nothing
  | ok n => exact h _ _ (.new n ha)

/-- A failed step closes the descriptor: nothing is left of it. -/
theorem Got.wp_close {s : Socket} {sd : Int} (hgot : Got w s sd w')
    {post : Unit → World → Log → Prop} (h : post () w l) :
    (close sd).wp (descriptorsContract before) c ps post w' l := by
  cases hgot with
  | nothing => exact Descriptors.wp_close (fun _ => h) fun hfd => absurd hfd (by decide)
  | new n hn =>
    refine Descriptors.wp_close (fun hfd => absurd hfd (by omega)) fun _ => ⟨?_, ?_⟩
    · simp [World.opened]
    · simpa [closed_opened hn s] using h

theorem Got.setSocket {s : Socket} {sd : Int} (hgot : Got w s sd w') (f : Socket → Socket) :
    Got w (f s) sd (w'.setSocket sd f) := by
  cases hgot with
  | nothing => exact .nothing
  | new n hn =>
    rw [setSocket_opened]
    exact .new n hn

theorem Got.wp_orClose {s : Socket} {sd : Int} (hgot : Got w s sd w') {r : SysResult Unit}
    {f : Socket → Socket} {post : Int → World → Log → Prop}
    (h : ∀ sd w', Got w (f s) sd w' → post sd w' l) :
    (orClose sd r f).wp (descriptorsContract before) c ps post w' l := by
  cases r with
  | err e =>
    rw [orClose, wp_bind]
    exact hgot.wp_close (h _ _ .nothing)
  | ok u =>
    rw [orClose, wp_bind, wp_modify]
    exact h _ _ (hgot.setSocket f)

theorem wp_ioSocket {type : SockType} {family : Family} {iface : Text}
    {post : Int → World → Log → Prop}
    (h : ∀ sd w', Got w { Socket.new type family with device := onDevice family iface } sd w' →
      post sd w' l) :
    (ioSocket type family iface).wp (descriptorsContract before) c ps post w l := by
  unfold ioSocket
  rw [wp_bind]
  refine wp_socket fun sd w' hgot => ?_
  by_cases hdev : iface ≠ [] ∧ (family = .AF_INET ∨ family = .AF_INET6)
  · rw [onDevice, if_pos hdev] at h
    rw [if_pos hdev, wp_bind, wp_query]
    exact fun r _ => hgot.wp_orClose h
  · rw [onDevice, if_neg hdev] at h
    rw [if_neg hdev]
    exact h _ _ hgot

theorem wp_setAddr {sa : IoSockAddr} {usa : Unisa} (hsa : ioSockSetAddr sa = .ok usa)
    {post : Unisa → World → Log → Prop} (h : post usa w l) :
    (setAddr sa).wp (descriptorsContract before) c ps post w l := by
  rw [setAddr, hsa]
  exact h

theorem wp_ioBindedSocket {type : SockType} {sa : IoSockAddr} {usa : Unisa}
    (hsa : ioSockSetAddr sa = .ok usa) {iface : Text} {post : Int → World → Log → Prop}
    (h : ∀ reuse sd w', Got w ⟨type, sa.family, onDevice sa.family iface, reuse, some usa, none,
      none⟩ sd w' → post sd w' l) :
    (ioBindedSocket type sa iface).wp (descriptorsContract before) c ps post w l := by
  unfold ioBindedSocket
  rw [wp_bind]
  refine wp_ioSocket fun sd w₁ hgot => ?_
  rw [wp_bind, wp_query]
  intro on _
  rw [wp_bind, wp_query]
  intro r _
  cases r with
  | err e =>
    rw [wp_bind]
    exact hgot.wp_close (h false _ _ .nothing)
  | ok u =>
    rw [wp_bind, wp_modify, bindTo, wp_bind]
    refine wp_setAddr hsa ?_
    rw [wp_bind, wp_query]
    exact fun r _ => (hgot.setSocket _).wp_orClose (h _)

/-- The object, which is not registered yet; only `sa` may have changed. -/
theorem wp_orCalloc {self : Option DId} (hself : ∀ d, self = some d → w.ds.mem d = none)
    {n : Nat} {s : Socket} {post : DId → World → Log → Prop}
    (h : ∀ d w', w.ds.mem d = none → w'.ds = w.ds → w'.table = (w.opened n s).table →
      post d w' l) :
    (orCalloc self).wp (descriptorsContract before) c ps post (w.opened n s) l := by
  cases self with
  | some d => exact h d _ (hself d rfl) rfl rfl
  | none =>
    rw [orCalloc, wp_bind, wp_query]
    intro d hd
    exact h d _ hd rfl rfl

/-- An object more: it is not the program's end, so the list may grow. -/
theorem Bound.push {p : Callback} (hp : Bound list p) (hend : ∀ d, p.method ≠ .free d true)
    (d : DId) : Bound (d :: list) p := by
  unfold Bound at hp ⊢
  split at hp
  · exact List.mem_cons_of_mem d hp
  · next x hm => exact absurd hm (hend x)
  · trivial

theorem Bound.erase {p : Callback} (hp : Bound list p) (hd : p.method ≠ .connected d) :
    Bound (list.erase d) p := by
  unfold Bound at hp ⊢
  split at hp
  · next x hm =>
    have hne : x ≠ d := fun heq => hd (heq ▸ hm)
    exact (List.mem_erase_of_ne hne).mpr hp
  · exact List.length_erase_le.trans hp
  · trivial

/-! ### A stream that is connected -/

/-- What holds on the way through `io_stream_connected`. -/
structure Connecting (before : Nat → Prop) (ps : List Callback) (d : DId) (w : World) (l : Log) :
    Prop where
  order : ∃ list, Tidy before (freeing ps) w list ∧ (∀ p ∈ ps, Bound list p) ∧ d ∈ list
  record : Record before l

theorem Connecting.get (h : Connecting before ps d w l) : ∃ v, w.ds.mem d = some v := by
  obtain ⟨list, htidy, -, hd⟩ := h.order
  exact htidy.get (.inl hd)

theorem Connecting.congr (h : Connecting before ps d w l) (hds : w'.ds = w.ds)
    (htable : w'.table = w.table) : Connecting before ps d w' l := by
  obtain ⟨list, htidy, hbound, hd⟩ := h.order
  exact ⟨⟨list, htidy.congr hds htable, hbound, hd⟩, h.record⟩

theorem wp_readD (hv : ∃ v, w.ds.mem d = some v) {post : IoD → World → Log → Prop}
    (h : ∀ v, w.ds.mem d = some v → post v w l) :
    (readD d).wp (descriptorsContract before) c ps post w l := by
  obtain ⟨v, hv⟩ := hv
  unfold readD
  rw [wp_bind, wp_read, hv]
  exact h v hv

theorem Connecting.wp_rest (h : Connecting before ps d w l) {post : Unit → World → Log → Prop}
    (hpost : ∀ w', Connecting before ps d w' l → post () w' l) :
    (connectedRest d).wp (descriptorsContract before) c ps post w l := by
  unfold connectedRest
  rw [wp_bind]
  refine wp_readD h.get fun v hv => ?_
  rw [wp_bind, wp_query]
  intro isEmpty _
  cases isEmpty with
  | false => exact hpost w h
  | true =>
    obtain ⟨list, htidy, hbound, hd⟩ := h.order
    exact hpost _ ⟨⟨list, htidy.setFields hv rfl, hbound, hd⟩, h.record⟩

/-- The owner is told, and may do what it likes but free the stream. -/
theorem Connecting.wp_call (h : Connecting before ps d w l) {post : Unit → World → Log → Prop}
    (hpost : ∀ w' l', Connecting before ps d w' l' → post () w' l') :
    (callConnected d).wp (descriptorsContract before) c ps post w l := by
  obtain ⟨list, htidy, hbound, hd⟩ := h.order
  unfold callConnected
  rw [wp_bind, wp_read]
  split
  · rw [wp_bind, wp_invoke]
    refine ⟨⟨⟨list, htidy, List.forall_mem_cons.mpr ⟨hd, hbound⟩⟩, h.record.called _ _⟩, ?_⟩
    rintro r w' l' ⟨⟨list', htidy', hbound'⟩, hrecord'⟩ _
    obtain ⟨hd', hbound''⟩ := List.forall_mem_cons.mp hbound'
    exact hpost w' l' ⟨⟨list', htidy', hbound'', hd'⟩, hrecord'⟩
  · exact hpost w l h

theorem Connecting.wp_connectedUnless (h : Connecting before ps d w l) {inProgress : Bool}
    {post : Int → World → Log → Prop}
    (hpost : ∀ w' l', Connecting before ps d w' l' → post (ptr d) w' l') :
    (connectedUnless inProgress d).wp (descriptorsContract before) c ps post w l := by
  unfold connectedUnless
  cases inProgress with
  | true => exact hpost w l h
  | false =>
    rw [if_neg Bool.false_ne_true, wp_bind, ioStreamConnected, wp_bind]
    refine wp_readD h.get fun v hv => ?_
    rw [wp_bind, wp_query]
    intro r _
    cases r with
    | err e => exact hpost w l h
    | ok usa =>
      rw [wp_bind, wp_modify, wp_bind]
      have h' : Connecting before ps d
          (if isUnix usa then w else w.setSa d (ioSockGetAddr (w.sa d) usa)) l := by
        split
        · exact h
        · exact h.congr rfl rfl
      refine h'.wp_call fun w₁ l₁ h₁ => ?_
      exact h₁.wp_rest fun w₂ h₂ => hpost w₂ l₁ h₂

/-! ### Closing -/

/-- An object that can be freed. -/
structure Freeable (ps : List Callback) (w : World) (d : DId) : Prop where
  there : (w.ds.mem d).isSome
  connected : ∀ p ∈ ps, p.method ≠ .connected d
  free : ∀ p ∈ ps, ∀ atExit, p.method ≠ .free d atExit

theorem Freeable.notMem (h : Freeable ps w d) : d ∉ freeing ps := by
  intro hm
  obtain ⟨p, hp, hpd⟩ := List.mem_filterMap.mp hm
  split at hpd
  · next x atExit hmethod => exact h.free p hp atExit (Option.some.inj hpd ▸ hmethod)
  · cases hpd

theorem wp_closeAndFree (h : Tidy before (d :: freeing ps) w list)
    {post : Unit → World → Log → Prop}
    (hpost : ∀ w', Tidy before (freeing ps) w' list → post () w' l) :
    (closeAndFree d).wp (descriptorsContract before) c ps post w l := by
  unfold closeAndFree
  rw [wp_bind]
  refine wp_readD (h.get (.inr List.mem_cons_self)) fun v hv => ?_
  rw [wp_bind]
  refine wp_close (fun hfd => ?_) fun hfd => ⟨h.open hv hfd, ?_⟩
  · exact hpost _ (h.release hv rfl (by rw [if_pos hfd]))
  · exact hpost _ (h.release hv rfl (by rw [if_neg (Int.not_lt.mpr hfd)]))

/-- The list is shorter behind it, in any case where the program ends. -/
theorem wp_ioDFree {atExit : Bool} (horder : InOrder before ps w) (hrecord : Record before l)
    (hd : Freeable ps w d) {post : Unit → World → Log → Prop}
    (hpost : ∀ w' l', InOrder before ps w' → Record before l' →
      (atExit = true → w'.ds.length < w.ds.length) → post () w' l') :
    (ioDFree d atExit).wp (descriptorsContract before) c ps post w l := by
  obtain ⟨list, htidy, hbound⟩ := horder
  have hlist : d ∈ list := ((htidy.live d).mp hd.there).resolve_right hd.notMem
  have hshort : (list.erase d).length < w.ds.length := by
    rw [htidy.length, List.length_erase_of_mem hlist]
    exact Nat.pred_lt (Nat.pos_iff_ne_zero.mp (List.length_pos_of_mem hlist))
  obtain ⟨t, hfind, hgone⟩ := htidy.unlink hlist
  have hrest : ∀ p ∈ ps, Bound (list.erase d) p := fun p hp =>
    (hbound p hp).erase (hd.connected p hp)
  unfold ioDFree
  rw [wp_bind, wp_read, hfind]
  simp only []
  rw [wp_bind, wp_modify, wp_bind, callFree, wp_bind]
  refine wp_readD (hgone.get (.inr List.mem_cons_self)) fun v hv => ?_
  split
  · rw [wp_bind, wp_invoke]
    have hself : ∀ l', Bound (list.erase d)
        ⟨.free d atExit, { w with ds := w.ds.unlink d t }, l'⟩ := by
      intro l'
      cases atExit with
      | true => exact hgone.length.ge
      | false => trivial
    refine ⟨⟨⟨_, hgone, List.forall_mem_cons.mpr ⟨hself _, hrest⟩⟩, hrecord.called _ _⟩, ?_⟩
    rintro r w₁ l₁ ⟨⟨list₁, htidy₁, hbound₁⟩, hrecord₁⟩ _
    obtain ⟨hself₁, hrest₁⟩ := List.forall_mem_cons.mp hbound₁
    refine wp_closeAndFree htidy₁ fun w' h' =>
      hpost w' l₁ ⟨list₁, h', hrest₁⟩ hrecord₁ fun hexit => ?_
    subst hexit
    have hself₁ : list₁.length ≤ (w.ds.unlink d t).length := hself₁
    have hlen : (w.ds.unlink d t).length = (list.erase d).length := hgone.length
    rw [h'.length]
    omega
  · refine wp_closeAndFree hgone fun w' h' =>
      hpost w' l ⟨_, h', hrest⟩ hrecord fun _ => ?_
    rw [h'.length]
    exact hshort

/-- By induction on the number of rounds that are left. -/
theorem wp_ioDsFreeLoop {fuel : Nat} (horder : InOrder before [] w) (hrecord : Record before l)
    (hfuel : w.ds.length ≤ fuel) {post : Unit → World → Log → Prop}
    (hpost : ∀ w' l', Tidy before [] w' [] → Record before l' → post () w' l') :
    (ioDsFreeLoop fuel).wp (descriptorsContract before) c [] post w l := by
  induction fuel generalizing w l with
  | zero =>
    obtain ⟨list, htidy, -⟩ := horder
    obtain rfl : list = [] := List.length_eq_zero_iff.mp (by rw [← htidy.length]; omega)
    have hnone : w.ds.ioDs = none := htidy.chain
    rw [ioDsFreeLoop, wp_bind, wp_read, if_pos hnone]
    exact hpost w l htidy hrecord
  | succ fuel ih =>
    obtain ⟨list, htidy, -⟩ := horder
    rw [ioDsFreeLoop, wp_bind, wp_read]
    cases list with
    | nil =>
      have hnone : w.ds.ioDs = none := htidy.chain
      rw [hnone]
      exact hpost w l htidy hrecord
    | cons d list =>
      have hhead : w.ds.ioDs = some d := htidy.chain.1
      have hthere : (w.ds.mem d).isSome := (htidy.live d).mpr (.inl List.mem_cons_self)
      rw [hhead]
      simp only []
      rw [wp_bind]
      refine wp_ioDFree ⟨_, htidy, List.forall_mem_nil _⟩ hrecord
        ⟨hthere, List.forall_mem_nil _, List.forall_mem_nil _⟩
        fun w' l' horder' hrecord' hless => ?_
      have hless' := hless rfl
      exact ih horder' hrecord' (by omega)

/-! ## §6 Every run -/

theorem Connecting.inOrder (h : Connecting before ps d w l) : InOrder before ps w := by
  obtain ⟨list, htidy, hbound, -⟩ := h.order
  exact ⟨list, htidy, hbound⟩

/-- A new object with the new descriptor; `w` is what was there before both. -/
theorem wp_ioDInit (horder : InOrder before ps w) (hrecord : Record before l)
    (hend : ∀ p ∈ ps, ∀ d, p.method ≠ .free d true) (hd : w.ds.mem d = none) {n : Nat}
    (hn : w.table n = none) {s : Socket} {events : BitVec 32} {vmt : Vmt} (hds : w'.ds = w.ds)
    (htable : w'.table = (w.opened n s).table) {post : Unit → World → Log → Prop}
    (hpost : ∀ w₁, Connecting before ps d w₁ l → (events = POLLIN → Waits w₁ d s) →
      post () w₁ l) : (ioDInit d n events vmt).wp (descriptorsContract before) c ps post w' l := by
  obtain ⟨list, htidy, hbound⟩ := horder
  have hds' : w'.ds.init d n events vmt.d = w.ds.init d n events vmt.d := by rw [hds]
  rw [ioDInit, wp_modify]
  refine hpost _ ⟨⟨d :: list, htidy.register hd hn events vmt.d hds' htable,
    fun p hp => (hbound p hp).push (hend p hp) d, List.mem_cons_self⟩, hrecord⟩ fun hevents => ?_
  exact ⟨⟨vmt.d, n, events⟩, by simp [Ds.World.init], hevents, n, rfl,
    by simp [htable, World.opened]⟩

theorem ptr_ne_zero (d : DId) : ptr d ≠ 0 := by
  unfold ptr
  omega

theorem wp_listenCreate {self : Option DId} {conf : ListenConf} {vmt : Vmt}
    (horder : InOrder before ps w) (hrecord : Record before l)
    (hok : descriptorsOk ⟨ps, none, w, l⟩ (.enter (.listenCreate self conf vmt))) :
    (ioStreamListenCreate self conf vmt).wp (descriptorsContract before)
      (.listenCreate self conf vmt) ps
      ((descriptorsContract before).Post (.listenCreate self conf vmt) w ps) w l := by
  obtain ⟨⟨hself, hend⟩, usa, hsa⟩ := hok
  have hnothing : (descriptorsContract before).Post (.listenCreate self conf vmt) w ps 0 w l :=
    ⟨horder, hrecord.left (.inl ⟨rfl, rfl, rfl⟩)⟩
  unfold ioStreamListenCreate
  rw [wp_bind]
  refine wp_ioBindedSocket hsa fun reuse sd w₁ hgot => ?_
  cases hgot with
  | nothing => exact hnothing
  | new n hn =>
    rw [if_neg (by omega), wp_bind, wp_query]
    intro r _
    rw [wp_bind]
    refine (Got.new n hn).wp_orClose fun sd w₂ hgot => ?_
    cases hgot with
    | nothing => exact hnothing
    | new n hn =>
      rw [if_neg (by omega), listenWith, wp_bind]
      refine wp_orCalloc hself fun d w₃ hd hds htable => ?_
      have hds' : (w₃.setSa d conf.sa).ds = w.ds := hds
      rw [wp_bind, wp_modify, wp_bind]
      exact wp_ioDInit horder hrecord hend hd hn hds' htable fun w₄ hw₄ hwaits =>
        ⟨hw₄.inOrder, hrecord.left <|
          .inr ⟨d, usa, reuse, rfl, ⟨hsa, ioSockGetAddr_ioSockSetAddr hsa⟩, hwaits rfl⟩⟩

theorem wp_dgramCreate {self : Option DId} {family : Family} {iface : Text} {vmt : Vmt}
    (horder : InOrder before ps w) (hrecord : Record before l)
    (hok : Opening ⟨ps, none, w, l⟩ self) :
    (ioDgramClientCreate self family iface vmt).wp (descriptorsContract before)
      (.dgramCreate self family iface vmt) ps
      ((descriptorsContract before).Post (.dgramCreate self family iface vmt) w ps) w l := by
  obtain ⟨hself, hend⟩ := hok
  unfold ioDgramClientCreate
  rw [wp_bind]
  refine wp_ioSocket fun sd w₁ hgot => ?_
  cases hgot with
  | nothing => exact ⟨horder, hrecord.left (.inl ⟨rfl, rfl, rfl⟩)⟩
  | new n hn =>
    rw [if_neg (by omega), wp_bind]
    refine wp_orCalloc hself fun d w₂ hd hds htable => ?_
    rw [wp_bind]
    exact wp_ioDInit horder hrecord hend hd hn hds htable fun w₃ hw₃ hwaits =>
      ⟨hw₃.inOrder, hrecord.left (.inr ⟨d, rfl, hwaits rfl⟩)⟩

theorem wp_ioStreamConnectFd {sa : IoSockAddr} {usa : Unisa} (hsa : ioSockSetAddr sa = .ok usa)
    {errno : Errno} {post : Int × Errno → World → Log → Prop}
    (h : ∀ sd e s w', Got w s sd w' → post (sd, e) w' l) :
    (ioStreamConnectFd sa errno).wp (descriptorsContract before) c ps post w l := by
  unfold ioStreamConnectFd
  rw [wp_bind]
  refine wp_setAddr hsa ?_
  rw [wp_bind]
  refine wp_socket fun sd w₁ hgot => ?_
  rw [wp_bind, wp_query]
  intro r _
  cases r with
  | ok u => exact h _ _ _ _ (hgot.setSocket _)
  | err e =>
    by_cases hprogress : e = .EINPROGRESS
    · simp only [hprogress, if_true]
      exact h _ _ _ _ hgot
    · simp only [hprogress, if_false]
      rw [wp_bind]
      exact hgot.wp_close (h _ _ (.new .SOCK_STREAM .AF_INET) _ .nothing)

theorem wp_connect {s : Option DId} {sa : IoSockAddr} {vmt : Option Vmt} {errno : Errno}
    (horder : InOrder before ps w) (hrecord : Record before l)
    (hok : descriptorsOk ⟨ps, none, w, l⟩ (.enter (.connect s sa vmt errno))) :
    (ioStreamConnect s sa vmt errno).wp (descriptorsContract before) (.connect s sa vmt errno) ps
      ((descriptorsContract before).Post (.connect s sa vmt errno) w ps) w l := by
  obtain ⟨⟨hself, hend⟩, usa, hsa⟩ := hok
  unfold ioStreamConnect
  rw [wp_bind]
  refine wp_ioStreamConnectFd hsa fun sd e sock w₁ hgot => ?_
  cases hgot with
  | nothing => exact ⟨horder, hrecord.left fun _ => ⟨rfl, rfl⟩⟩
  | new n hn =>
    simp only [if_neg (Int.not_lt.mpr (Int.natCast_nonneg n))]
    rw [wp_bind]
    refine wp_orCalloc hself fun d w₂ hd hds htable => ?_
    rw [wp_bind]
    refine wp_ioDInit horder hrecord hend hd hn hds htable fun w₃ hw₃ _ => ?_
    have hset : Connecting before ps d (w₃.setSa d sa) l := hw₃.congr rfl rfl
    rw [wp_bind, wp_modify]
    exact hset.wp_connectedUnless fun w' l' h' =>
      ⟨h'.inOrder, h'.record.left fun hv => absurd hv (ptr_ne_zero d)⟩

theorem wp_accept {build : Build} {s : Option DId} {ls : DId} {vmt : Option Vmt} {errno : Errno}
    (horder : InOrder before ps w) (hrecord : Record before l)
    (hok : descriptorsOk ⟨ps, none, w, l⟩ (.enter (.accept build s ls vmt errno))) :
    (ioStreamAccept build s ls vmt errno).wp (descriptorsContract before)
      (.accept build s ls vmt errno) ps
      ((descriptorsContract before).Post (.accept build s ls vmt errno) w ps) w l := by
  obtain ⟨⟨hself, hend⟩, hbuild⟩ := hok
  have hfrom : ∃ from_, acceptFrom build s ls = pure from_ := by
    cases build with
    | bsd => exact ⟨ls, rfl⟩
    | other =>
      cases s with
      | some d => exact ⟨d, rfl⟩
      | none => simp at hbuild
  obtain ⟨from_, hfrom⟩ := hfrom
  unfold ioStreamAccept
  rw [hfrom, wp_bind, wp_pure, wp_bind, wp_query]
  intro a ha
  cases a with
  | err e => exact ⟨horder, hrecord.left fun _ => ⟨rfl, rfl⟩⟩
  | ok r =>
    obtain ⟨n, family, usa⟩ := r
    have hn : w.table n = none := ha
    simp only []
    rw [wp_bind, wp_modify, acceptedAs, wp_bind]
    refine wp_orCalloc hself fun d w₂ hd hds htable => ?_
    rw [wp_bind]
    refine wp_ioDInit horder hrecord hend hd hn hds htable fun w₃ hw₃ _ => ?_
    rw [wp_bind, wp_modify]
    refine Connecting.wp_connectedUnless (d := d) ?_
      fun w' l' h' => ⟨h'.inOrder, h'.record.left fun hv => absurd hv (ptr_ne_zero d)⟩
    split
    · exact hw₃
    · exact hw₃.congr rfl rfl

theorem wp_ioDClose (horder : InOrder before ps w) (hd : (w.ds.mem d).isSome)
    {post : Unit → World → Log → Prop} (hpost : ∀ w', InOrder before ps w' → post () w' l) :
    (ioDClose d).wp (descriptorsContract before) c ps post w l := by
  obtain ⟨list, htidy, hbound⟩ := horder
  unfold ioDClose
  rw [wp_bind]
  refine wp_readD (Option.isSome_iff_exists.mp hd) fun v hv => ?_
  by_cases hfd : 0 ≤ v.fd
  · rw [if_pos hfd, wp_bind]
    refine wp_close (fun hneg => absurd hneg (Int.not_lt.mpr hfd)) fun _ => ⟨htidy.open hv hfd, ?_⟩
    exact hpost _ ⟨list, htidy.close hv hfd, hbound⟩
  · rw [if_neg hfd]
    exact hpost w ⟨list, htidy, hbound⟩

theorem Tidy.settled (h : Tidy before [] w []) (n : Nat) : w.isOpen n ↔ before n := by
  refine h.ledger.settled (fun d => ?_) n
  have hnone : w.ds.mem d = none := by simpa using h.live d
  simp [World.holds, hnone]

theorem descriptors_body : (descriptorsContract before).Body body := by
  rintro ps c w l ⟨horder, hrecord⟩ hok
  cases c with
  | listenCreate self conf vmt => exact wp_listenCreate horder hrecord hok
  | dgramCreate self family iface vmt => exact wp_dgramCreate horder hrecord hok
  | connect s sa vmt errno => exact wp_connect horder hrecord hok
  | accept build s ls vmt errno => exact wp_accept horder hrecord hok
  | close d =>
    rw [body, wp_bind]
    exact wp_ioDClose horder hok fun w' h' => ⟨h', hrecord.left trivial⟩
  | free d =>
    obtain ⟨hthere, hpending⟩ := hok
    rw [body, wp_bind]
    refine wp_ioDFree horder hrecord ⟨hthere, fun p hp => (hpending p hp).1,
      fun p hp => (hpending p hp).2⟩ fun w' l' h' hrecord' _ => ?_
    exact ⟨h', hrecord'.left trivial⟩
  | dsFree =>
    obtain rfl : ps = [] := hok
    obtain ⟨list, htidy, hbound⟩ := horder
    rw [body, wp_bind, ioDsFree, wp_bind, wp_read]
    refine wp_ioDsFreeLoop ⟨list, htidy, hbound⟩ hrecord (Nat.le_refl _)
      fun w' l' h' hrecord' => ?_
    exact ⟨⟨[], h', List.forall_mem_nil _⟩, hrecord'.left h'.settled⟩

end Rules

theorem tidy_init (inherited : Nat → Option Socket) (sa : DId → IoSockAddr) :
    Tidy (fun n => (inherited n).isSome) [] (.init inherited sa) [] where
  chain := rfl
  length := rfl
  live d := by simp [World.init, Ds.World.empty]
  apart d hd := by cases hd
  nodup := List.nodup_nil
  ledger := Ledger.start _

/-- **The descriptors are accounted for.** In every run no fault is met:
nothing is closed that is not open, and nothing freed is looked at. Whenever
the owner is in control, what is open is what the process has inherited and
what the objects hold, each descriptor held by one; a call that has failed
has left nothing open; a listener waits at the address and on the device it
was created for; and when `io_ds_free` has returned, only what was inherited
is open. -/
theorem descriptors_accounted {inherited : Nat → Option Socket} {sa : DId → IoSockAddr}
    {choices : List (Choice Query Answer Call)}
    (hm : Meets body descriptorsOk (.start (.init inherited sa)) choices)
    {cfg : Config World Query Answer Method Fault Call}
    (hrun : run body (.start (.init inherited sa)) choices = some cfg) :
    (∀ f, cfg.ctl ≠ .faulted f) ∧
      (cfg.ctl = .owner →
        Ledger cfg.st.isOpen (fun n => (inherited n).isSome) cfg.st.holds ∧
        ∀ c entry exit v, .leave c entry exit v ∈ cfg.log →
          Returned (fun n => (inherited n).isSome) c entry exit v) := by
  have h0 : (descriptorsContract fun n => (inherited n).isSome).Inv [] (.init inherited sa) [] :=
    ⟨⟨[], tidy_init inherited sa, List.forall_mem_nil _⟩, fun _ _ _ _ hm => by cases hm⟩
  refine ⟨fun f hf => run_fault _ descriptors_body h0 hm hrun hf, fun ho => ?_⟩
  obtain ⟨⟨list, htidy, -⟩, hrecord⟩ := run_inv _ descriptors_body h0 hm hrun ho
  exact ⟨htidy.ledger, hrecord⟩

/-- Descriptor 0 is inherited. -/
def onlyStdin : Nat → Option Socket := fun n =>
  if n = 0 then some (.new .SOCK_STREAM .AF_UNIX) else none

def anyPort80 : ListenConf := ⟨5, ⟨80, .AF_INET, .ipv4 0⟩, []⟩

/-- The first listener finds its port in use. The second takes a connection,
which closes the listener when it is told that it is connected, and is freed
with 4 open; the rest is left to `io_ds_free`. -/
def listenTwice : List (Choice Query Answer Call) :=
  let sa : Unisa := .in_ [0, 80] [0, 0, 0, 0]
  let peer : Unisa := .in_ [4, 210] [127, 0, 0, 1]
  [.enter (.listenCreate none anyPort80 ⟨⟨false, false⟩, false⟩),
    .answer (.socket .AF_INET .SOCK_STREAM) (.ok 3), .answer .garbage 7,
    .answer (.reuseAddr 3 7) (.ok ()), .answer (.bind 3 sa) (.err (.other 98)),
    .enter (.listenCreate none anyPort80 ⟨⟨false, false⟩, false⟩),
    .answer (.socket .AF_INET .SOCK_STREAM) (.ok 3), .answer .garbage 0,
    .answer (.reuseAddr 3 0) (.ok ()), .answer (.bind 3 sa) (.ok ()),
    .answer (.listen 3 5) (.ok ()), .answer .calloc 10,
    .enter (.accept .bsd none 10 (some ⟨⟨false, true⟩, true⟩) (.other 0)),
    .answer (.accept 10) (.ok (4, .AF_INET, peer)), .answer .calloc 11,
    .answer (.getpeername 4) (.ok peer), .enter (.close 10), .back 0, .answer (.outIsEmpty 11) true,
    .enter (.free 11), .back 0, .enter .dsFree]

theorem descriptors_accounted_listenTwice :
    ∃ cfg, run body (.start (.init onlyStdin fun _ => ⟨0, .other 0, .ipv4 0⟩)) listenTwice =
        some cfg ∧ (∀ f, cfg.ctl ≠ .faulted f) ∧
      (cfg.ctl = .owner →
        Ledger cfg.st.isOpen (fun n => (onlyStdin n).isSome) cfg.st.holds ∧
        ∀ c entry exit v, .leave c entry exit v ∈ cfg.log →
          Returned (fun n => (onlyStdin n).isSome) c entry exit v) := by
  have hconf : ∃ usa, ioSockSetAddr anyPort80.sa = .ok usa := ⟨_, rfl⟩
  have hopening : ∀ w l, Opening ⟨[], none, w, l⟩ none := fun _ _ =>
    ⟨fun _ h => (by cases h), List.forall_mem_nil _⟩
  have hm : Meets body descriptorsOk
      (.start (.init onlyStdin fun _ => ⟨0, .other 0, .ipv4 0⟩)) listenTwice :=
    meets_cons ⟨hopening _ _, hconf⟩ rfl <| meets_cons rfl rfl <| meets_cons trivial rfl <|
    meets_cons trivial rfl <| meets_cons trivial rfl <|
    meets_cons ⟨hopening _ _, hconf⟩ rfl <| meets_cons rfl rfl <| meets_cons trivial rfl <|
    meets_cons trivial rfl <| meets_cons trivial rfl <| meets_cons trivial rfl <|
    meets_cons rfl rfl <|
    meets_cons ⟨hopening _ _, .inl rfl⟩ rfl <| meets_cons rfl rfl <| meets_cons rfl rfl <|
    meets_cons trivial rfl <| meets_cons rfl rfl <| meets_cons trivial rfl <|
    meets_cons trivial rfl <|
    meets_cons ⟨rfl, List.forall_mem_nil _⟩ rfl <| meets_cons trivial rfl <|
    meets_cons rfl rfl meets_nil
  exact ⟨_, rfl, descriptors_accounted hm rfl⟩

end Nanio.Descriptors
