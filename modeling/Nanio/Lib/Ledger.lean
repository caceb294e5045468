/-
Nanio.Lib.Ledger — who has to give back which resource.

Resources are taken and given back one by one, and each holder has one at
most. `Ledger` says that the books are right: what is open is what was open
before anybody took anything, and what the holders have, each of it with one
holder. Taking a resource that is not open and giving one back keep them
right, and once nobody holds anything, only what was there before is open.
-/
import Mathlib.Logic.Function.Basic

namespace Nanio.Lib

variable {R O : Type}

/-- `before` are the resources that belong to nobody here. -/
structure Ledger (isOpen before : R → Prop) (holds : O → Option R) : Prop where
  accounted : ∀ r, isOpen r ↔ before r ∨ ∃ o, holds o = some r
  single : ∀ o o' r, holds o = some r → holds o' = some r → o = o'
  apart : ∀ o r, holds o = some r → ¬before r

namespace Ledger

variable {isOpen before : R → Prop} {holds : O → Option R}

theorem start (before : R → Prop) : Ledger before before fun _ : O => none where
  accounted r := by simp
  single o o' r h := by cases h
  apart o r h := by cases h

theorem congr {isOpen' : R → Prop} {holds' : O → Option R} (h : Ledger isOpen before holds)
    (hopen : ∀ r, isOpen' r ↔ isOpen r) (hholds : holds' = holds) :
    Ledger isOpen' before holds' := by
  obtain rfl : isOpen' = isOpen := funext fun r => propext (hopen r)
  exact hholds ▸ h

theorem isOpen_of_holds (h : Ledger isOpen before holds) {o : O} {r : R} (ho : holds o = some r) :
    isOpen r := (h.accounted r).mpr (.inr ⟨o, ho⟩)

/-- With no holder left nothing is missing and nothing is left over. -/
theorem settled (h : Ledger isOpen before holds) (hnone : ∀ o, holds o = none) (r : R) :
    isOpen r ↔ before r := by
  simp [h.accounted, hnone]

variable [DecidableEq O]

/-- A holder takes a resource that was not open. -/
theorem acquire (h : Ledger isOpen before holds) {o : O} (ho : holds o = none) {r : R}
    (hr : ¬isOpen r) :
    Ledger (fun x => isOpen x ∨ x = r) before (Function.update holds o (some r)) := by
  have hnew : ∀ o', holds o' ≠ some r := fun o' ho' => hr (h.isOpen_of_holds ho')
  constructor
  · intro x
    constructor
    · rintro (hx | rfl)
      · rcases (h.accounted x).mp hx with hb | ⟨o', ho'⟩
        · exact .inl hb
        · have hne : o' ≠ o := fun heq => by simp [heq, ho] at ho'
          exact .inr ⟨o', by simpa [hne] using ho'⟩
      · exact .inr ⟨o, by simp⟩
    · rintro (hb | ⟨o', ho'⟩)
      · exact .inl ((h.accounted x).mpr (.inl hb))
      · by_cases hne : o' = o
        · subst hne
          exact .inr (by simpa using ho'.symm)
        · exact .inl (h.isOpen_of_holds (by simpa [hne] using ho'))
  · intro o₁ o₂ x h₁ h₂
    by_cases e₁ : o₁ = o <;> by_cases e₂ : o₂ = o
    · rw [e₁, e₂]
    · subst e₁
      simp only [Function.update_self, Function.update_of_ne e₂] at h₁ h₂
      exact absurd (h₁ ▸ h₂) (hnew o₂)
    · subst e₂
      simp only [Function.update_self, Function.update_of_ne e₁] at h₁ h₂
      exact absurd (h₂ ▸ h₁) (hnew o₁)
    · simp only [Function.update_of_ne e₁, Function.update_of_ne e₂] at h₁ h₂
      exact h.single o₁ o₂ x h₁ h₂
  · intro o' x ho'
    by_cases hne : o' = o
    · subst hne
      simp only [Function.update_self, Option.some.injEq] at ho'
      exact ho' ▸ fun hb => hr ((h.accounted r).mpr (.inl hb))
    · exact h.apart o' x (by simpa [hne] using ho')

/-- A holder gives back what it has. -/
theorem release (h : Ledger isOpen before holds) {o : O} {r : R} (ho : holds o = some r) :
    Ledger (fun x => isOpen x ∧ x ≠ r) before (Function.update holds o none) := by
  have hheld : ∀ o' x, Function.update holds o none o' = some x → holds o' = some x ∧ o' ≠ o := by
    intro o' x ho'
    by_cases hne : o' = o
    · subst hne
      simp at ho'
    · exact ⟨by simpa [hne] using ho', hne⟩
  constructor
  · intro x
    constructor
    · rintro ⟨hx, hxr⟩
      rcases (h.accounted x).mp hx with hb | ⟨o', ho'⟩
      · exact .inl hb
      · have hne : o' ≠ o := fun heq => hxr (Option.some.inj (ho'.symm.trans (heq ▸ ho)))
        exact .inr ⟨o', by simpa [hne] using ho'⟩
    · rintro (hb | ⟨o', ho'⟩)
      · exact ⟨(h.accounted x).mpr (.inl hb), fun heq => h.apart o r ho (heq ▸ hb)⟩
      · obtain ⟨hx, hne⟩ := hheld o' x ho'
        exact ⟨h.isOpen_of_holds hx, fun heq => hne (h.single o' o r (heq ▸ hx) ho)⟩
  · intro o₁ o₂ x h₁ h₂
    exact h.single o₁ o₂ x (hheld o₁ x h₁).1 (hheld o₂ x h₂).1
  · intro o' x ho'
    exact h.apart o' x (hheld o' x ho').1

end Ledger

end Nanio.Lib
