/-
Nanio.Dgram.IoDgramClient — `io_dgram_client.c`: a datagram socket that
queues what the kernel has no room for.

The descriptor is open throughout. A datagram goes out whole or not at all,
so `sendto` answers that it took it, or an errno; what it took is recorded
in `wire`. Destinations are addresses of the program's memory, read when
`sendto` is called.
-/
import Nanio.Lib.Callback
import Nanio.Queue.IoQueue
import Nanio.Sock.SockAddr
import Nanio.Stream.IoStream

namespace Nanio.Dgram

open Nanio.Lib Nanio.Queue Nanio.Sock
open Nanio.Stream (POLLIN POLLOUT has)

structure Datagram where
  dest : Unisa
  bytes : List UInt8
  deriving DecidableEq

/-- `io_dgram_client_t`, whether its vmt has a `recvd`, the addresses in
the program's memory, and the datagrams the kernel has accepted. -/
structure World where
  queue : QueueMem
  events : BitVec 32
  recvd : Bool
  addr : Nat → IoSockAddr
  wire : List Datagram

/-- What a call asks the kernel. -/
inductive Query where
  | sendto (dg : Datagram)
  | recvfrom
  deriving DecidableEq

@[reducible] def Answer : Query → Type
  | .sendto _ => SysResult Unit
  | .recvfrom => SysResult (Unisa × List UInt8)

/-- `recvd`, the method of the owner. -/
inductive Method where
  | recvd (sa : IoSockAddr) (bytes : List UInt8)
  deriving DecidableEq

inductive Fault where
  | queue (stop : QueueStop)
  | sock (f : SockFault)
  | badBuffer
  deriving DecidableEq

abbrev Code (α : Type) := Prog World Query Answer Method Fault α

/-- `events |= POLLOUT`. -/
def World.wantOut (w : World) : World := { w with events := w.events ||| POLLOUT }

/-- `events &= ~POLLOUT`. -/
def World.dropOut (w : World) : World := { w with events := w.events &&& ~~~POLLOUT }

def World.setQueue (w : World) (queue : QueueMem) : World := { w with queue := queue }

/-- The kernel has accepted the datagram. -/
def World.took (w : World) (dg : Datagram) : World := { w with wire := w.wire ++ [dg] }

/-! ## Sending -/

/-- `io_sock_set_addr(&usa, to)`. -/
def destOf (to_ : Nat) : Code Unisa := do
  let w ← Prog.read
  match ioSockSetAddr (w.addr to_) with
  | .ok dest => pure dest
  | .error f => Prog.fault (.sock f)

/-- The `size` bytes at `p`. -/
def bytesAt (p : DataPtr) (size : Nat) : Code (List UInt8) := do
  let w ← Prog.read
  if size ≤ (w.queue.bytes p).length then pure ((w.queue.bytes p).take size)
  else Prog.fault .badBuffer

/-- `sendto(fd, p, size, 0, &usa.sa, io_sock_set_addr(&usa, to))`. -/
def sendto (to_ : Nat) (p : DataPtr) (size : Nat) : Code (SysResult Unit) := do
  let dest ← destOf to_
  let bytes ← bytesAt p size
  match ← (Prog.query (Query.sendto ⟨dest, bytes⟩) : Code (SysResult Unit)) with
  | .ok _ => do
    Prog.modify (·.took ⟨dest, bytes⟩)
    pure (.ok ())
  | .err e => pure (.err e)

/-- The end of `io_dgram_client_send`: the datagram is queued. -/
def enqueue (to_ buf size : Nat) (type_ : BlockType) : Code Int := do
  Prog.modify (·.wantOut)
  let w ← Prog.read
  match ioQueuePutBlock w.queue to_ (.own buf) size type_ with
  | .ok (ret, queue) => do
    Prog.modify (·.setQueue queue)
    pure ret
  | .error stop => Prog.fault (.queue stop)

/-- `io_dgram_client_send`. The number of bytes sent is returned as an `int`. -/
def ioDgramClientSend (to_ buf size : Nat) (type_ : BlockType) : Code Int := do
  if size = 0 then pure 0
  else do
    let w ← Prog.read
    if ioQueueIsEmpty w.queue then
      match ← sendto to_ (.own buf) size with
      | .ok _ => pure (toInt size)
      | .err e => if e ≠ .EAGAIN then pure (-1) else enqueue to_ buf size type_
    else enqueue to_ buf size type_

def ioDgramClientSendStatic (to_ buf size : Nat) : Code Int :=
  ioDgramClientSend to_ buf size .STATIC
def ioDgramClientSendDynamic (to_ buf size : Nat) : Code Int :=
  ioDgramClientSend to_ buf size .DYNAMIC
def ioDgramClientSendLocal (to_ buf size : Nat) : Code Int := ioDgramClientSend to_ buf size .LOCAL

/-! ## Events -/

/-- `io_queue_get_block`. -/
def getBlock : Code (Option IoQueueBlock) := do
  let w ← Prog.read
  match ioQueueGetBlock w.queue with
  | .ok b => pure b
  | .error stop => Prog.fault (.queue stop)

/-- `io_queue_block_drop`. -/
def dropBlock : Code Unit := do
  let w ← Prog.read
  match ioQueueBlockDrop w.queue with
  | .ok (_, queue) => Prog.modify (·.setQueue queue)
  | .error stop => Prog.fault (.queue stop)

/-- `if (io_queue_is_empty(&self->queue)) iod->events &= ~POLLOUT;` -/
def dropOutIfEmpty : Code Unit := do
  let w ← Prog.read
  if ioQueueIsEmpty w.queue then Prog.modify (·.dropOut) else pure ()

/-- The `POLLOUT` part of the event handler: false when it returns -1. -/
def sendPart : Code Bool := do
  match ← getBlock with
  | none => do
    dropOutIfEmpty
    pure true
  | some b => do
    match ← sendto b.tag b.data b.size with
    | .ok _ => do
      dropBlock
      dropOutIfEmpty
      pure true
    | .err e =>
      if e ≠ .EAGAIN then pure false
      else do
        dropOutIfEmpty
        pure true

/-- The `POLLIN` part, `io_dgram_recv` included. `addr` is a local that
starts out with anything in it. -/
def recvPart (events : BitVec 32) : Code Int := do
  let w ← Prog.read
  if has events POLLIN && w.recvd then
    match ← (Prog.query Query.recvfrom : Code (SysResult (Unisa × List UInt8))) with
    | .ok (usa, bytes) => do
      if bytes.isEmpty then pure 0
      else do
        let _ ← Prog.invoke (.recvd (ioSockGetAddr ⟨0, .other 0, .ipv4 0⟩ usa) bytes)
        pure 0
    | .err _ => pure (-1)
  else pure 0

/-- `io_dgram_client_event_handler`. -/
def ioDgramClientEventHandler (events : BitVec 32) : Code Int := do
  if has events POLLOUT then
    if ← sendPart then recvPart events else pure (-1)
  else recvPart events

/-- `io_dgram_client_free`. -/
def ioDgramClientFree : Code Unit := do
  let w ← Prog.read
  match ioQueueFree w.queue with
  | .ok queue => Prog.modify (·.setQueue queue)
  | .error stop => Prog.fault (.queue stop)

/-! ## Calls -/

/-- A call, or the program changing a buffer or an address of its own. -/
inductive Call where
  | send (to_ buf size : Nat) (type_ : BlockType)
  | event (events : BitVec 32)
  | own (n : Nat) (content : Option (List UInt8))
  | setAddr (p : Nat) (sa : IoSockAddr)
  deriving DecidableEq

def World.setOwn (w : World) (n : Nat) (content : Option (List UInt8)) : World :=
  w.setQueue { w.queue with buf := Function.update w.queue.buf (.own n) content }

def World.setAddr (w : World) (p : Nat) (sa : IoSockAddr) : World :=
  { w with addr := Function.update w.addr p sa }

def body : Call → Code Int
  | .send to_ buf size .STATIC => ioDgramClientSendStatic to_ buf size
  | .send to_ buf size .DYNAMIC => ioDgramClientSendDynamic to_ buf size
  | .send to_ buf size .LOCAL => ioDgramClientSendLocal to_ buf size
  | .event events => ioDgramClientEventHandler events
  | .own n content => do Prog.modify (·.setOwn n content); pure 0
  | .setAddr p sa => do Prog.modify (·.setAddr p sa); pure 0

/-- `io_dgram_client_create`: an empty queue and `POLLIN`. -/
def World.created (m : QueueMem) (recvd : Bool) (addr : Nat → IoSockAddr) : World where
  queue := ioQueueInit m
  events := POLLIN
  recvd := recvd
  addr := addr
  wire := []

end Nanio.Dgram
