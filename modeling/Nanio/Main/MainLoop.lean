/-
Nanio.Main.MainLoop — `main` of `io.c`: the loop over timers and
descriptors.

A program is the timers and the descriptors side by side. `start`, the
timer handlers and the methods of descriptors call the functions of both;
`main` itself only makes passes of its loop. What is recorded besides: the
value that the last `io_get_timeout` of a pass returned with the timers as
they were then, how often `poll` was asked, and how often a handler was
called.
-/
import Nanio.Ds.IoDs
import Nanio.Lib.Embed
import Nanio.Timers.IoTimers

namespace Nanio.Main

open Nanio.Lib

structure World where
  timers : Timers.World
  ds : Ds.World
  errno : Errno
  timeout : Int
  asked : Timers.World
  polls : Nat
  fired : Nat

inductive Query where
  | timers (q : Timers.Query)
  | ds (q : Ds.Query)
  deriving DecidableEq

@[reducible] def Answer : Query → Type
  | .timers q => Timers.Answer q
  | .ds q => Ds.Answer q

inductive Method where
  | timers (m : Timers.Method)
  | ds (m : Ds.Method)
  deriving DecidableEq

inductive Fault where
  | timers (f : Timers.Fault)
  | ds (f : Ds.Fault)
  deriving DecidableEq

abbrev Code (α : Type) := Prog World Query Answer Method Fault α

/-- `io_timers.c` in the program. -/
def timersPart : Embedding Timers.World Timers.Query Timers.Answer Timers.Method Timers.Fault
    World Query Answer Method Fault where
  get w := w.timers
  set w timers := { w with timers := timers }
  query := .timers
  answer _ a := a
  answered _ _ w := w
  method := .timers
  called _ w := { w with fired := w.fired + 1 }
  fault := .timers

/-- The errno that `poll` leaves. -/
def errnoAfter (errno : Errno) : SysResult (Nat × List (BitVec 16)) → Errno
  | .ok _ => errno
  | .err e => e

/-- `io_ds.c` in the program. -/
def dsPart : Embedding Ds.World Ds.Query (fun q => Ds.Answer q) Ds.Method Ds.Fault
    World Query Answer Method Fault where
  get w := w.ds
  set w ds := { w with ds := ds }
  query := .ds
  answer _ a := a
  answered _ a w := { w with errno := errnoAfter w.errno a, polls := w.polls + 1 }
  method := .ds
  called _ w := w
  fault := .ds

def World.askedFor (w : World) (timeout : Int) : World :=
  { w with timeout := timeout, asked := w.timers }

/-- The condition of the loop. -/
def loopAgain (ret : Int) (w : World) : Bool :=
  0 < ret || (ret < 0 && w.errno == .EINTR) || Timers.ioHasActiveTimers w.timers

/-- `ret = io_ds_poll(io_get_timeout());` and the condition: 1 to go round
again, 0 to leave the loop. -/
def mainPass (fuel : Nat) : Code Int := do
  let timeout ← (Timers.ioGetTimeout fuel).embed timersPart
  Prog.modify (·.askedFor timeout)
  let ret ← (Ds.ioDsPoll timeout).embed dsPart
  let w ← Prog.read
  pure (if loopAgain ret w then 1 else 0)

/-- What the program calls, or a pass of the loop. -/
inductive Call where
  | timers (c : Timers.Call)
  | ds (c : Ds.Call)
  | pass
  deriving DecidableEq

def body (fuel : Nat) : Call → Code Int
  | .timers c => (Timers.body fuel c).embed timersPart
  | .ds c => (Ds.body c).embed dsPart
  | .pass => mainPass fuel

/-- After `io_timers_init` and `io_ds_init`. -/
def World.init : World where
  timers := .init
  ds := .empty
  errno := .other 0
  timeout := 0
  asked := .init
  polls := 0
  fired := 0

end Nanio.Main
