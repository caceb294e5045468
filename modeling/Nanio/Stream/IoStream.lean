/-
Nanio.Stream.IoStream — `io_stream.c`: connecting, writing, and the event
handler of a stream.

The library functions are code that asks the kernel and calls the methods
of the stream's owner (`Nanio.Lib.Callback`), so a method may call the
library again before it returns. `World` is the stream together with what
the kernel has taken from it (`wire`). A method is recorded with the place
it is called from. Logging is left out, and so is `io_stream_free`, which
the event loop runs once the stream is closed.

The answer to `drain` is the list of answers to the `send` calls of one
`io_buf_send`. An answer that counts more than was asked, or a list that is
too short or too long, is no answer a kernel can give: it stops the run
(`noAnswer`).
-/
import Nanio.Lib.Callback
import Nanio.Buf.IoBuf

namespace Nanio.Stream

open Nanio.Lib Nanio.Buf

/-! ## Poll flags -/

def POLLIN : BitVec 32 := 1
def POLLOUT : BitVec 32 := 4

/-- `events & flag`, as a condition. -/
def has (events flag : BitVec 32) : Bool := events &&& flag != 0

/-! ## The stream -/

/-- `sa_family_t`, as far as the streams tell them apart. -/
inductive Family where
  | unix
  | inet
  deriving DecidableEq, Repr

/-- `io_sock_addr_t`. -/
structure IoSockAddr where
  family : Family
  port : UInt16
  addr : List UInt8
  deriving DecidableEq, Repr

/-- Which methods of `vmt->u.stream` are there, once `io_vmt_finish` has
filled in those of the ancestors. -/
structure StreamVmt where
  connected : Bool
  recv : Bool
  sent : Bool
  allSent : Bool
  deriving DecidableEq, Repr

/-- `io_stream_vmt` has none of them. -/
def ioStreamVmt : StreamVmt := ⟨false, false, false, false⟩

/-- `io_stream_t`. -/
structure IoStream where
  fd : Int
  events : BitVec 32
  vmt : StreamVmt
  sa : IoSockAddr
  out : BufMem
  connecting : Bool

/-- The stream, and the bytes the kernel has accepted for it. -/
structure World where
  s : IoStream
  wire : List UInt8

def World.setEvents (w : World) (events : BitVec 32) : World := { w with s := { w.s with events } }

/-- `d->events |= POLLOUT`. -/
def World.wantOut (w : World) : World := w.setEvents (w.s.events ||| POLLOUT)

/-- `d->events &= ~POLLOUT`. -/
def World.dropOut (w : World) : World := w.setEvents (w.s.events &&& ~~~POLLOUT)

def World.setOut (w : World) (out : BufMem) : World := { w with s := { w.s with out } }

/-- `if (usa.sa.sa_family != AF_UNIX) io_sock_get_addr(&s->sa, &usa)`. -/
def World.setPeer (w : World) (sa : IoSockAddr) : World :=
  if sa.family ≠ .unix then { w with s := { w.s with sa } } else w

/-- `s->connecting = 0`. -/
def World.setConnected (w : World) : World := { w with s := { w.s with connecting := false } }

/-- The kernel has taken these bytes. -/
def World.taken (w : World) (bytes : List UInt8) : World := { w with wire := w.wire ++ bytes }

/-- `io_d_close` on the stream. -/
def World.close (w : World) : World :=
  if 0 ≤ w.s.fd then { w with s := { w.s with fd := -1 } } else w

/-! ## Kernel and owner -/

/-- What a call asks the kernel. -/
inductive Query where
  | socket
  | connect
  | send (data : List UInt8)
  | drain
  | soError
  | peerName
  deriving DecidableEq

@[reducible] def Answer : Query → Type
  | .socket => SysResult Nat
  | .connect => SysResult Unit
  | .send _ => SysResult Nat
  | .drain => List (SysResult Nat)
  | .soError => SysResult Int
  | .peerName => SysResult IoSockAddr

/-- Where `sent` and `all_sent` are called from: a write that has `left`
bytes to go, or a drain in the handling of `events`. -/
inductive Site where
  | write (left : Nat)
  | drain (events : BitVec 32)
  deriving DecidableEq

/-- The methods of the owner. -/
inductive Method where
  | connected
  | recv
  | sent (size : Nat) (site : Site)
  | allSent (site : Site)
  deriving DecidableEq

inductive Fault where
  | noAnswer
  | buf (stop : BufStop)
  deriving DecidableEq

/-- The library calls. `errno` is what errno holds when the call is made. -/
inductive Call where
  | connect (sa : IoSockAddr) (vmt : Option StreamVmt) (errno : Errno)
  | write (data : List UInt8)
  | event (events : BitVec 32) (errno : Errno)
  | close

abbrev Code (α : Type) := Prog World Query Answer Method Fault α

/-! The system calls, with the types of their answers. -/

def socket : Code (SysResult Nat) := Prog.query Query.socket
def connect : Code (SysResult Unit) := Prog.query Query.connect
def send (data : List UInt8) : Code (SysResult Nat) := Prog.query (Query.send data)
def drain : Code (List (SysResult Nat)) := Prog.query Query.drain
def getsockopt : Code (SysResult Int) := Prog.query Query.soError
def getpeername : Code (SysResult IoSockAddr) := Prog.query Query.peerName

/-- `if (d->vmt->u.stream.m) d->vmt->u.stream.m(d)`, for a method whose
result is not used. -/
def callIf (present : StreamVmt → Bool) (m : Method) : Code Unit := do
  let w ← Prog.read
  if present w.s.vmt then
    let _ ← Prog.invoke m
  pure ()

/-! ## Writing -/

/-- `io_stream_write` after the direct `send`: `dt` is left, `sent` bytes
are gone. -/
def writeRest (dt : List UInt8) (sent : Nat) : Code Int := do
  if dt.length = 0 then
    Prog.modify World.dropOut
    callIf (·.allSent) (.allSent (.write 0))
    pure 0
  else
    Prog.modify World.wantOut
    let w ← Prog.read
    match ioBufWrite w.s.out dt with
    | .error stop => Prog.fault (.buf stop)
    | .ok (n, out) =>
      Prog.modify (·.setOut out)
      pure (toInt (n + sent))

/-- `io_stream_write`. -/
def ioStreamWrite (data : List UInt8) : Code Int := do
  let w ← Prog.read
  if w.s.fd = -1 then pure 0
  else if !w.s.connecting && ioBufIsEmpty w.s.out then
    match ← send data with
    | .err _ => pure (-1)
    | .ok n =>
      if data.length < n then Prog.fault .noAnswer
      else
        Prog.modify (·.taken (data.take n))
        if n ≠ 0 then
          callIf (·.sent) (.sent (toUnsigned n) (.write (data.length - n)))
        writeRest (data.drop n) n
  else writeRest data 0

/-! ## Connecting -/

/-- The end of `io_stream_connected`. -/
def connectedRest : Code Int := do
  let w ← Prog.read
  if ioBufIsEmpty w.s.out then
    Prog.modify World.dropOut
    pure 0
  else pure 0

/-- `io_stream_connected`. -/
def ioStreamConnected : Code Int := do
  match ← getpeername with
  | .err _ => pure 0
  | .ok sa =>
    Prog.modify (·.setPeer sa)
    callIf (·.connected) .connected
    connectedRest

/-- `io_stream_connecting`. -/
def ioStreamConnecting : Code Int := do
  match ← getsockopt with
  | .err _ =>
    Prog.modify World.close
    pure (-1)
  | .ok err =>
    if err ≠ 0 then
      Prog.modify World.close
      pure (-1)
    else
      Prog.modify World.setConnected
      ioStreamConnected

/-- The stream as `io_stream_connect` leaves it before it reports. -/
def World.connect (w : World) (fd : Int) (sa : IoSockAddr) (vmt : StreamVmt)
    (inProgress : Bool) : World where
  s :=
    { fd
      events := POLLIN ||| if inProgress then POLLOUT else 0
      vmt
      sa
      out := ioBufInit w.s.out
      connecting := inProgress }
  wire := []

/-- The descriptor that `socket` returned. -/
def fdOf : SysResult Nat → Int
  | .ok n => n
  | .err _ => -1

/-- errno after `connect`, which does not set it when it succeeds at once. -/
def errnoAfter (errno : Errno) : SysResult Unit → Errno
  | .ok _ => errno
  | .err e => e

/-- `_io_stream_connect`: the descriptor or -1, and errno. -/
def ioStreamConnectFd (errno : Errno) : Code (Int × Errno) := do
  let sd ← socket
  let r ← connect
  if r ≠ .ok () ∧ errnoAfter errno r ≠ .EINPROGRESS then pure (-1, errnoAfter errno r)
  else pure (fdOf sd, errnoAfter errno r)

/-- `io_stream_connect` once there is a descriptor; the result is 1. -/
def ioStreamConnectWith (fd : Int) (sa : IoSockAddr) (vmt : StreamVmt) (inProgress : Bool) :
    Code Int := do
  Prog.modify (·.connect fd sa vmt inProgress)
  if inProgress then pure 1
  else
    let _ ← ioStreamConnected
    pure 1

/-- `io_stream_connect`; the result is 0 for the null pointer. -/
def ioStreamConnect (sa : IoSockAddr) (vmt : Option StreamVmt) (errno : Errno) : Code Int := do
  let r ← ioStreamConnectFd errno
  if r.1 < 0 then pure 0
  else ioStreamConnectWith r.1 sa (vmt.getD ioStreamVmt) (r.2 = .EINPROGRESS)

/-! ## Events -/

/-- The `POLLIN` part of the event handler. -/
def recvPart (events : BitVec 32) : Code Int := do
  let w ← Prog.read
  if has events POLLIN && w.s.vmt.recv then
    let r ← Prog.invoke .recv
    if r < 0 then
      Prog.modify World.close
      pure (-1)
    else pure 0
  else pure 0

/-- The event handler after a drain has been reported. -/
def drainedRest (events : BitVec 32) : Code Int := do
  let w ← Prog.read
  if ioBufIsEmpty w.s.out then
    Prog.modify World.dropOut
    callIf (·.allSent) (.allSent (.drain events))
    pure 0
  else recvPart events

/-- The event handler after `io_buf_send` has returned `sent`. -/
def drained (events : BitVec 32) (sent : Int) : Code Int := do
  if sent ≠ 0 then
    callIf (·.sent) (.sent (toUnsigned sent) (.drain events))
  drainedRest events

/-- `errno == ECONNRESET || errno == ENOTCONN || errno == EPIPE`. -/
def isReset (errno : Errno) : Bool :=
  errno = .ECONNRESET || errno = .ENOTCONN || errno = .EPIPE

/-- `io_stream_event_handler`. -/
def ioStreamEventHandler (events : BitVec 32) (errno : Errno) : Code Int := do
  let w ← Prog.read
  if w.s.connecting then ioStreamConnecting
  else if has events POLLOUT then
    let script ← drain
    match ioBufSend w.s.out script with
    | .error .noAnswer => Prog.fault .noAnswer
    | .error stop => Prog.fault (.buf stop)
    | .ok t =>
      if t.script ≠ [] then Prog.fault .noAnswer
      else
        Prog.modify fun w => (w.taken t.bytes).setOut t.mem
        if t.ret < 0 then
          if isReset (t.errno.getD errno) then
            Prog.modify World.close
            drained events t.ret
          else pure (-1)
        else drained events t.ret
  else recvPart events

/-- `io_stream_close`, called by the owner. -/
def ioStreamClose : Code Int := do
  Prog.modify World.close
  pure 0

def body : Call → Code Int
  | .connect sa vmt errno => ioStreamConnect sa vmt errno
  | .write data => ioStreamWrite data
  | .event events errno => ioStreamEventHandler events errno
  | .close => ioStreamClose

end Nanio.Stream
