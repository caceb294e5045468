/-
Nanio.Timers.IoTimers — `io_timers.c`: the pool of timers, its two lists,
and the loop that fires what is due.

A timer is an index into the pool. Both lists run through the one field
`next`. `next_time` is an integer: it is a `long long` of milliseconds, and
`io_get_timeout` stores nothing larger than `now` plus a period in it. The
loops of the source take fuel, and running out of it is a fault.
-/
import Nanio.Base
import Nanio.Lib.Callback
import Nanio.Lib.Linked
import Mathlib.Order.Bounds.Basic

namespace Nanio.Timers

open Nanio.Lib

abbrev TId := Nat

/-- `io_timer_t` without `next`; `handler` and `custom` are addresses. -/
structure IoTimer where
  nextTime : Int
  period : Int
  handler : Nat
  custom : Nat
  deriving DecidableEq, Repr

def IO_TIMERS_LIMIT : Nat := 10

/-- The static variables of the file. -/
structure World where
  ioFreeTimers : Option TId
  ioActiveTimers : Option TId
  next : TId → Option TId
  timer : TId → IoTimer
  zeroTime : Nat

/-- `uptime_getmsl()`, called for `_zero_time` and for the time since. -/
inductive Query where
  | zeroTime
  | uptime
  deriving DecidableEq

abbrev Answer (_ : Query) : Type := Nat

/-- `t->handler(t->custom)`, for the timer `t`. -/
structure Method where
  timer : TId
  handler : Nat
  custom : Nat
  deriving DecidableEq, Repr

inductive Fault where
  | endless
  deriving DecidableEq

abbrev Code (α : Type) := Prog World Query Answer Method Fault α

/-- `if (!_zero_time) _zero_time = uptime_getmsl();` -/
def startClock : Code Unit := do
  let w ← Prog.read
  if w.zeroTime = 0 then
    let u ← (Prog.query .zeroTime : Code Nat)
    Prog.modify ({ · with zeroTime := u })
  else pure ()

/-- `io_now`. -/
def ioNow : Code Nat := do
  startClock
  let u ← (Prog.query .uptime : Code Nat)
  let w ← Prog.read
  pure (toUnsignedLong (u - w.zeroTime))

/-- `io_timers_init`, with the pool all zero before it. -/
def World.init : World where
  ioFreeTimers := some 0
  ioActiveTimers := none
  next t := if t + 1 < IO_TIMERS_LIMIT then some (t + 1) else none
  timer _ := ⟨-1, 0, 0, 0⟩
  zeroTime := 0

/-- The first free timer made the first active one. -/
def World.alloc (w : World) (t : TId) (handler custom : Nat) : World :=
  { w with
    ioFreeTimers := w.next t
    ioActiveTimers := some t
    next := Function.update w.next t w.ioActiveTimers
    timer := Function.update w.timer t ⟨-1, 0, handler, custom⟩ }

/-- `io_timer_alloc`. -/
def ioTimerAlloc (handler custom : Nat) : Code (Option TId) := do
  let w ← Prog.read
  match w.ioFreeTimers with
  | none => pure none
  | some t =>
    Prog.modify (·.alloc t handler custom)
    pure (some t)

/-- The timer moved from the link `l` of the active list to the front of the
free list. -/
def World.free (w : World) (t : TId) (l : Link TId) : World :=
  { w with
    ioActiveTimers := (l.set w.ioActiveTimers w.next (w.next t)).1
    ioFreeTimers := some t
    next := Function.update (l.set w.ioActiveTimers w.next (w.next t)).2 t w.ioFreeTimers }

/-- `io_timer_free`. `next` is the first field of a timer, so behind the last
one the address of the link is null and the loop ends there. -/
def ioTimerFree (fuel : Nat) (t : TId) : Code Unit := do
  let w ← Prog.read
  match findLink w.ioActiveTimers w.next t fuel .head with
  | .outOfFuel => Prog.fault .endless
  | .offEnd => pure ()
  | .found l => Prog.modify (·.free t l)

def World.setNextTime (w : World) (t : TId) (nextTime : Int) : World :=
  { w with timer := Function.update w.timer t { w.timer t with nextTime := nextTime } }

/-- `io_timer_set_timeout`. The sum is one of unsigned longs. -/
def ioTimerSetTimeout (t : TId) (timeout : Int) : Code Unit := do
  let now ← ioNow
  Prog.modify (·.setNextTime t (toLongLong (now + timeout)))

def World.setPeriod (w : World) (t : TId) (period : Int) : World :=
  { w with timer := Function.update w.timer t { w.timer t with period := period } }

/-- `io_timer_set_period`. -/
def ioTimerSetPeriod (t : TId) (period : Int) : Code Unit := do
  ioTimerSetTimeout t period
  Prog.modify (·.setPeriod t period)

/-- `io_timer_stop`. -/
def ioTimerStop (t : TId) : Code Unit := Prog.modify (·.setNextTime t (-1))

/-- `io_on_timeout`. -/
def ioOnTimeout (handler custom : Nat) (timeout : Int) : Code (Option TId) := do
  match ← ioTimerAlloc handler custom with
  | none => pure none
  | some t => do
    ioTimerSetTimeout t timeout
    pure (some t)

/-- `io_on_period`. -/
def ioOnPeriod (handler custom : Nat) (period : Int) : Code (Option TId) := do
  match ← ioTimerAlloc handler custom with
  | none => pure none
  | some t => do
    ioTimerSetPeriod t period
    pure (some t)

/-- `io_has_active_timers`. -/
def ioHasActiveTimers (w : World) : Bool := w.ioActiveTimers.isSome

/-- The second loop of `io_get_nearest_timer`. -/
def nearestLoop (w : World) : Nat → TId → Option TId → Option TId
  | _, active, none => some active
  | 0, _, some _ => none
  | fuel + 1, active, some t =>
    let nt := (w.timer t).nextTime
    nearestLoop w fuel (if 0 < nt ∧ nt < (w.timer active).nextTime then t else active) (w.next t)

/-- `io_get_nearest_timer`, from the timer `t` of the active list on. -/
def ioGetNearestTimer (w : World) : Nat → Option TId → Option (Option TId)
  | _, none => some none
  | 0, some _ => none
  | fuel + 1, some t =>
    if 0 < (w.timer t).nextTime then (nearestLoop w fuel t (w.next t)).map some
    else ioGetNearestTimer w fuel (w.next t)

/-- `while ((t->next_time += t->period) <= now);` -/
def catchUp : Nat → Int → Int → Int → Option Int
  | 0, _, _, _ => none
  | fuel + 1, nextTime, period, now =>
    if nextTime + period ≤ now then catchUp fuel (nextTime + period) period now
    else some (nextTime + period)

/-- Rearm the timer or move it to the free list, before its handler is
called. -/
def rearm (fuel : Nat) (now : Int) (t : TId) : Code Unit := do
  let w ← Prog.read
  if (w.timer t).period ≠ 0 then
    match catchUp fuel (w.timer t).nextTime (w.timer t).period now with
    | none => Prog.fault .endless
    | some nextTime => Prog.modify (·.setNextTime t nextTime)
  else ioTimerFree fuel t

/-- `t->handler(t->custom)`. -/
def callHandler (t : TId) : Code Unit := do
  let w ← Prog.read
  let _ ← Prog.invoke ⟨t, (w.timer t).handler, (w.timer t).custom⟩
  pure ()

/-- The loop of `io_get_timeout`. -/
def getTimeoutLoop (fuel : Nat) (now : Int) : Nat → Code Int
  | 0 => Prog.fault .endless
  | n + 1 => do
    let w ← Prog.read
    match ioGetNearestTimer w fuel w.ioActiveTimers with
    | none => Prog.fault .endless
    | some none => pure (-1)
    | some (some t) =>
      if now < (w.timer t).nextTime then pure (toInt ((w.timer t).nextTime - now))
      else do
        rearm fuel now t
        callHandler t
        getTimeoutLoop fuel now n

/-- `io_get_timeout`. -/
def ioGetTimeout (fuel : Nat) : Code Int := do
  let now ← ioNow
  getTimeoutLoop fuel (toLongLong now) fuel

/-- What a program calls, timer handlers included. -/
inductive Call where
  | alloc (handler custom : Nat)
  | free (t : TId)
  | setTimeout (t : TId) (timeout : Int)
  | setPeriod (t : TId) (period : Int)
  | stop (t : TId)
  | onTimeout (handler custom : Nat) (timeout : Int)
  | onPeriod (handler custom : Nat) (period : Int)
  | getTimeout
  deriving DecidableEq, Repr

/-- The timer that is passed. -/
def Call.timer? : Call → Option TId
  | .free t | .setTimeout t _ | .setPeriod t _ | .stop t => some t
  | _ => none

/-- A pointer as a number, NULL being 0. -/
def address : Option TId → Int
  | none => 0
  | some t => t + 1

def body (fuel : Nat) : Call → Code Int
  | .alloc handler custom => do pure (address (← ioTimerAlloc handler custom))
  | .free t => do ioTimerFree fuel t; pure 0
  | .setTimeout t timeout => do ioTimerSetTimeout t timeout; pure 0
  | .setPeriod t period => do ioTimerSetPeriod t period; pure 0
  | .stop t => do ioTimerStop t; pure 0
  | .onTimeout handler custom timeout => do pure (address (← ioOnTimeout handler custom timeout))
  | .onPeriod handler custom period => do pure (address (← ioOnPeriod handler custom period))
  | .getTimeout => ioGetTimeout fuel

end Nanio.Timers
