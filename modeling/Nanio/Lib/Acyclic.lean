/-
Nanio.Lib.Acyclic — walks that cannot go on for ever.

A walk that only ever comes to finitely many places, and never to one that
leads back to itself, ends: its start is accessible (`acc_of_acyclic`). A
place that leads back to itself has a next one that does so too
(`exists_next_of_cycle`), so a walk that comes to one need not end.
-/
import Mathlib.Data.Fintype.Order
import Mathlib.Data.Set.Finite.Basic
import Mathlib.Logic.Relation

namespace Nanio.Lib

open Relation

variable {α : Type} {r : α → α → Prop}

theorem acc_of_acyclic {a : α} (hfin : {b | ReflTransGen r a b}.Finite)
    (hacyclic : ∀ b, ReflTransGen r a b → ¬ TransGen r b b) : Acc (fun x y => r y x) a := by
  have hfinite : Finite {b // ReflTransGen r a b} := hfin
  let ahead : {b // ReflTransGen r a b} → {b // ReflTransGen r a b} → Prop :=
    fun x y => TransGen r y.1 x.1
  have htrans : IsTrans _ ahead := ⟨fun _ _ _ hxy hyz => hyz.trans hxy⟩
  have hirrefl : Std.Irrefl ahead := ⟨fun x => hacyclic x.1 x.2⟩
  have hwf : WellFounded ahead := Finite.wellFounded_of_trans_of_irrefl ahead
  have hacc : ∀ x : {b // ReflTransGen r a b}, Acc (fun x y => r y x) x.1 := by
    intro x
    induction x using hwf.induction with
    | h x ih => exact .intro _ fun y hy => ih ⟨y, x.2.tail hy⟩ (.single hy)
  exact hacc ⟨a, .refl⟩

theorem exists_next_of_cycle {a : α} (h : TransGen r a a) : ∃ b, r a b ∧ TransGen r b b := by
  obtain ⟨b, hab, hba⟩ := TransGen.head'_iff.mp h
  exact ⟨b, hab, .tail' hba hab⟩

end Nanio.Lib
