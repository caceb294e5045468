/-
Nanio.Lib.SearchRange — a search that halves a range of sorted keys.

The range `[left, right)` is halved until one index is left, unless the
middle one is hit before. With keys that increase it finds the index of a
key just if there is one (`searchRange_complete`, `searchRange_eq_none_iff`).
-/
import Mathlib.Order.Lattice

namespace Nanio.Lib

variable {α : Type} [LinearOrder α]

/-- `while (right - left > 1)`, and the comparison behind the loop. -/
def searchRange (key : Nat → α) (x : α) (left right : Nat) : Option Nat :=
  if 1 < right - left then
    let middle := left + (right - left) / 2
    if key middle = x then some middle
    else if key middle < x then searchRange key x middle right
    else searchRange key x left middle
  else if key left = x then some left
  else none
termination_by right - left

/-- The keys of a range increase. -/
def Increasing (key : Nat → α) (left right : Nat) : Prop :=
  ∀ i j, left ≤ i → i < j → j < right → key i < key j

theorem Increasing.mono {key : Nat → α} {left right left' right' : Nat}
    (h : Increasing key left right) (hl : left ≤ left') (hr : right' ≤ right) :
    Increasing key left' right' :=
  fun i j hi hij hj => h i j (Nat.le_trans hl hi) hij (Nat.lt_of_lt_of_le hj hr)

variable {key : Nat → α} {x : α} {left right i : Nat}

/-- What is found is in the range, and is what was looked for. -/
theorem searchRange_sound (hlt : left < right) (h : searchRange key x left right = some i) :
    left ≤ i ∧ i < right ∧ key i = x := by
  fun_induction searchRange key x left right with
  | case1 left right hmore middle heq =>
    obtain rfl := Option.some.inj h
    exact ⟨by omega, by omega, heq⟩
  | case2 left right hmore middle hne hless ih =>
    obtain ⟨hl, hr, hk⟩ := ih (by omega) h
    exact ⟨by omega, hr, hk⟩
  | case3 left right hmore middle hne hless ih =>
    obtain ⟨hl, hr, hk⟩ := ih (by omega) h
    exact ⟨hl, by omega, hk⟩
  | case4 left right hone heq =>
    obtain rfl := Option.some.inj h
    exact ⟨Nat.le_refl _, hlt, heq⟩
  | case5 => cases h

/-- What is in the range is found. -/
theorem searchRange_complete (hkey : Increasing key left right) (hl : left ≤ i) (hr : i < right)
    (hx : key i = x) : searchRange key x left right = some i := by
  fun_induction searchRange key x left right with
  | case1 left right hmore middle heq =>
    rcases Nat.lt_trichotomy middle i with hlt | rfl | hlt
    · exact absurd (heq.trans hx.symm) (hkey middle i (by omega) hlt hr).ne
    · rfl
    · exact absurd (hx.trans heq.symm) (hkey i middle hl hlt (by omega)).ne
  | case2 left right hmore middle hne hless ih =>
    -- the key is behind the middle
    refine ih (hkey.mono (by omega) (Nat.le_refl _)) ?_ hr
    by_contra hbefore
    have hlt := hkey i middle hl (Nat.lt_of_not_le hbefore) (by omega)
    rw [hx] at hlt
    exact lt_asymm hlt hless
  | case3 left right hmore middle hne hless ih =>
    -- the key is in front of the middle
    refine ih (hkey.mono (Nat.le_refl _) (by omega)) hl ?_
    by_contra hbehind
    rcases Nat.lt_or_eq_of_le (Nat.le_of_not_lt hbehind) with hlt | rfl
    · exact hless (hx ▸ hkey middle i (by omega) hlt hr)
    · exact hne hx
  | case4 left right hone heq =>
    have hi : i = left := by omega
    rw [hi]
  | case5 left right hone hne =>
    have hi : i = left := by omega
    exact absurd (hi ▸ hx) hne

theorem searchRange_eq_none_iff (hlt : left < right) (hkey : Increasing key left right) :
    searchRange key x left right = none ↔ ∀ i, left ≤ i → i < right → key i ≠ x := by
  constructor
  · intro hnone i hl hr hx
    rw [searchRange_complete hkey hl hr hx] at hnone
    cases hnone
  · intro hno
    by_contra hsome
    obtain ⟨i, hi⟩ := Option.ne_none_iff_exists'.mp hsome
    obtain ⟨hl, hr, hx⟩ := searchRange_sound hlt hi
    exact hno i hl hr hx

end Nanio.Lib
