/-
Nanio.Ds.IoDs — `io_ds.c`: the list of registered descriptors and the poll
loop over it.

A descriptor is an address. `mem` holds the fields of the descriptors that
are allocated, `next` their links, and reading a field of one that has been
freed is a fault. The methods of a descriptor are calls to its owner
(`Nanio.Lib.Callback`), who may register, close or free descriptors before
it returns. A method is recorded with the place it is called from: `idle` with
the entries of the snapshot so far, `event` with those still to be served.
-/
import Nanio.Base
import Nanio.Lib.Callback
import Nanio.Lib.Linked
import Mathlib.Data.BitVec

namespace Nanio.Ds

open Nanio.Lib

abbrev DId := Nat

/-- Which of the methods that are tested for are there; `event` is called
without a test. -/
structure DVmt where
  idle : Bool
  free : Bool
  deriving DecidableEq, Repr

/-- `io_d_t` without `next`. -/
structure IoD where
  vmt : DVmt
  fd : Int
  events : BitVec 32
  deriving DecidableEq, Repr

/-- `io_ds`, `io_ds_length` and the descriptors. -/
structure World where
  ioDs : Option DId
  length : Nat
  next : DId → Option DId
  mem : DId → Option IoD

/-- `io_ds_init`, before anything is allocated. -/
def World.empty : World := ⟨none, 0, fun _ => none, fun _ => none⟩

/-- An entry of the arrays `ds` and `fds`. -/
structure PollFd where
  d : DId
  fd : Int
  events : BitVec 16
  deriving DecidableEq, Repr

/-- `poll(fds, n, timeout)`. -/
inductive Query where
  | poll (fds : List PollFd) (timeout : Int)
  deriving DecidableEq

/-- The number `poll` returns, and the `revents` it fills in. -/
abbrev Answer (_ : Query) : Type := SysResult (Nat × List (BitVec 16))

/-- The methods of a descriptor. `taken` is what is in the arrays when `idle`
is called, `rest` are the entries behind the one that is served, with their
`revents`. -/
inductive Method where
  | idle (d : DId) (taken : List PollFd)
  | event (d : DId) (revents : BitVec 16) (rest : List (DId × BitVec 16))
  | free (d : DId)
  deriving DecidableEq

/-- `noAnswer`: `poll` has not filled in the array; no kernel does that.
`notRegistered`: a descriptor that is not there. `offEnd`: the walk of
`io_d_free` has gone past the end of the list. `overflow`: a write behind
the arrays of `io_ds_poll`. `endless`: a walk longer than the list was when
it began. -/
inductive Fault where
  | noAnswer
  | notRegistered
  | offEnd
  | overflow
  | endless
  deriving DecidableEq

/-- What the owner calls. `setEvents` is its assignment to `d->events`. -/
inductive Call where
  | init (d : DId) (fd : Int) (events : BitVec 32) (vmt : DVmt)
  | setEvents (d : DId) (events : BitVec 32)
  | close (d : DId)
  | free (d : DId)
  | poll (timeout : Int)
  deriving DecidableEq

abbrev Code (α : Type) := Prog World Query Answer Method Fault α

/-- The fields of a descriptor. -/
def readD (d : DId) : Code IoD := do
  let w ← Prog.read
  match w.mem d with
  | some v => pure v
  | none => Prog.fault .notRegistered

/-- `io_d_init`. -/
def World.init (w : World) (d : DId) (fd : Int) (events : BitVec 32) (vmt : DVmt) : World where
  ioDs := some d
  length := w.length + 1
  next := Function.update w.next d w.ioDs
  mem := Function.update w.mem d (some ⟨vmt, fd, events⟩)

/-- `if (self->fd >= 0) { close(self->fd); self->fd = -1; }`. -/
def IoD.close (v : IoD) : IoD := if 0 ≤ v.fd then { v with fd := -1 } else v

/-- The fields of a registered descriptor rewritten. -/
def updateD (d : DId) (f : IoD → IoD) : Code Unit := do
  let v ← readD d
  Prog.modify fun w => { w with mem := Function.update w.mem d (some (f v)) }

/-- `io_d_close`. -/
def ioDClose (d : DId) : Code Unit := updateD d IoD.close

/-- The descriptor taken out of the list at the link `t`, its own link
cleared. -/
def World.unlink (w : World) (d : DId) (t : Link DId) : World where
  ioDs := (t.set w.ioDs w.next (w.next d)).1
  length := w.length - 1
  next := Function.update (t.set w.ioDs w.next (w.next d)).2 d none
  mem := w.mem

/-- `free(self)`. -/
def World.release (w : World) (d : DId) : World :=
  { w with mem := Function.update w.mem d none }

/-- `io_d_free` once the descriptor is unlinked. -/
def ioDRelease (d : DId) : Code Unit := do
  let v ← readD d
  if v.vmt.free then
    let _ ← Prog.invoke (.free d)
    Prog.modify (·.release d)
  else Prog.modify (·.release d)

/-- `io_d_free`. The loop over the links does not stop at the end of the
list: it goes on through the null pointer. -/
def ioDFree (d : DId) : Code Unit := do
  let w ← Prog.read
  match findLink w.ioDs w.next d (w.length + 1) .head with
  | .offEnd => Prog.fault .offEnd
  | .outOfFuel => Prog.fault .endless
  | .found t =>
    Prog.modify (·.unlink d t)
    ioDRelease d

/-- `if (d->vmt->idle) d->vmt->idle(d);` -/
def callIdle (d : DId) (taken : List PollFd) : Code Unit := do
  let v ← readD d
  if v.vmt.idle then
    let _ ← Prog.invoke (.idle d taken)
    pure ()
  else pure ()

/-- The first loop of `io_ds_poll`, from the descriptor `pos` on, with
`taken` in the arrays, which have `len` places. -/
def idleLoop (len : Nat) : Nat → Option DId → List PollFd → Code (List PollFd)
  | _, none, taken => pure taken
  | 0, some _, _ => Prog.fault .endless
  | fuel + 1, some d, taken => do
    callIdle d taken
    let v ← readD d
    let w ← Prog.read
    if v.events = 0 then idleLoop len fuel (w.next d) taken
    else if len ≤ taken.length then Prog.fault .overflow
    else idleLoop len fuel (w.next d) (taken ++ [⟨d, v.fd, v.events.truncate 16⟩])

/-- The second loop, over the entries of `ds` with their `revents`. -/
def dispatch : List (DId × BitVec 16) → Nat → Code Unit
  | [], _ => pure ()
  | x :: rest, ret => do
    if ret = 0 then pure ()
    else if x.2 = 0 then dispatch rest ret
    else
      let _ ← readD x.1
      let _ ← Prog.invoke (.event x.1 x.2 rest)
      let v ← readD x.1
      if v.fd = -1 then
        ioDFree x.1
        dispatch rest (ret - 1)
      else dispatch rest (ret - 1)

/-- `io_ds_poll`. -/
def ioDsPoll (timeout : Int) : Code Int := do
  let w ← Prog.read
  let taken ← idleLoop w.length w.length w.ioDs []
  if timeout < 0 ∧ taken = [] then pure 0
  else
    match ← (Prog.query (.poll taken timeout) : Code (SysResult (Nat × List (BitVec 16)))) with
    | .err _ => pure (-1)
    | .ok (ret, revents) =>
      if revents.length ≠ taken.length then Prog.fault .noAnswer
      else
        dispatch ((taken.map (·.d)).zip revents) ret
        pure taken.length

def body : Call → Code Int
  | .init d fd events vmt => do
    Prog.modify (·.init d fd events vmt)
    pure 0
  | .setEvents d events => do
    updateD d ({ · with events := events })
    pure 0
  | .close d => do
    ioDClose d
    pure 0
  | .free d => do
    ioDFree d
    pure 0
  | .poll timeout => ioDsPoll timeout

end Nanio.Ds
