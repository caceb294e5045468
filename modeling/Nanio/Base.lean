/-
Nanio.Base — what every part of the library shares: errno values, the
answer of a system call, and the width of a C `int`.

The error numbers that the sources compare with are named; every other
one is `Errno.other`.
-/
import Mathlib.Algebra.Ring.Int.Defs
import Mathlib.Algebra.Ring.Nat
import Mathlib.Data.Int.DivMod

namespace Nanio

inductive Errno where
  | EINTR | EAGAIN | EINPROGRESS | ECONNRESET | ENOTCONN | EPIPE
  | EEXIST | ENOMEM | EINVAL
  | other (n : Nat)
  deriving DecidableEq, Repr

/-- A system call that succeeded with an `a`, or returned -1 with errno. -/
inductive SysResult (α : Type) where
  | ok (a : α)
  | err (e : Errno)
  deriving DecidableEq, Repr

/-- The value of an integer expression once it is stored in an `int`. -/
def toInt (n : Int) : Int := (n + 2 ^ 31) % 2 ^ 32 - 2 ^ 31

/-- The value of an integer expression once it is stored in an `unsigned`. -/
def toUnsigned (n : Int) : Nat := (n % 2 ^ 32).toNat

/-- The value of an integer expression once it is stored in an `unsigned long`. -/
def toUnsignedLong (n : Int) : Nat := (n % 2 ^ 64).toNat

/-- The value of an integer expression once it is stored in a `long long`. -/
def toLongLong (n : Int) : Int := (n + 2 ^ 63) % 2 ^ 64 - 2 ^ 63

def INT_MAX : Int := 2 ^ 31 - 1

/-- Both halves of a computation that returned have returned. -/
theorem except_bind_eq_ok {ε α β : Type} {x : Except ε α} {f : α → Except ε β} {b : β} :
    x >>= f = .ok b ↔ ∃ a, x = .ok a ∧ f a = .ok b := by
  cases x <;> simp [bind, Except.bind]

theorem except_ok_bind {ε α β : Type} (a : α) (f : α → Except ε β) : Except.ok a >>= f = f a := rfl

theorem toInt_of_lt {n : Int} (h0 : -2 ^ 31 ≤ n) (h : n < 2 ^ 31) : toInt n = n := by
  unfold toInt
  rw [Int.emod_eq_of_lt (by omega) (by omega)]
  omega

theorem toInt_le (n : Nat) : toInt n ≤ n := by
  unfold toInt
  omega

theorem toInt_lt (n : Int) : toInt n < 2 ^ 31 := by
  unfold toInt
  omega

theorem toUnsigned_natCast {n : Nat} (h : n < 2 ^ 32) : toUnsigned n = n := by
  unfold toUnsigned
  omega

theorem toUnsignedLong_natCast {n : Nat} (h : n < 2 ^ 64) : toUnsignedLong n = n := by
  unfold toUnsignedLong
  omega

end Nanio
