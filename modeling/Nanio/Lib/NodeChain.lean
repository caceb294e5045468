/-
Nanio.Lib.NodeChain — a queue of nodes that are allocated one by one.

The nodes live in a store (`live`), are linked by `next` from `first` on,
and `last` is the final one; numbers from `fresh` on were never used. A
client rewrites a node (`NodeChain.set`), frees the first one
(`NodeChain.dropFirst`), allocates the next fresh one (`NodeChain.alloc`)
and links it behind the last (`NodeChain.link`), or both at once
(`NodeChain.grow`).
-/
import Nanio.Lib.Linked
import Mathlib.Data.List.Perm.Subperm

namespace Nanio.Lib

/-- The nodes from `first` on, with what each holds. -/
structure NodeChain {β : Type} (live : Nat → Option β) (next : Nat → Option Nat)
    (first last : Option Nat) (fresh : Nat) (nodes : List (Nat × β)) : Prop where
  chain : Chain next first (nodes.map Prod.fst)
  last_eq : last = (nodes.map Prod.fst).getLast?
  mem_live : ∀ x ∈ nodes, live x.1 = some x.2
  lt_fresh : ∀ x ∈ nodes, x.1 < fresh

namespace NodeChain

variable {β : Type} {live : Nat → Option β} {next : Nat → Option Nat} {first last : Option Nat}
  {fresh : Nat} {nodes : List (Nat × β)}

theorem nil : NodeChain live next none none fresh [] where
  chain := rfl
  last_eq := rfl
  mem_live := by simp
  lt_fresh := by simp

/-- The nodes are determined by the memory. -/
theorem unique {last' : Option Nat} {fresh' : Nat} {nodes' : List (Nat × β)}
    (h : NodeChain live next first last fresh nodes)
    (h' : NodeChain live next first last' fresh' nodes') : nodes = nodes' := by
  have hread : ∀ list : List (Nat × β), (∀ x ∈ list, live x.1 = some x.2) →
      list.map some = (list.map Prod.fst).map fun s => (live s).map (Prod.mk s) := by
    intro list hlive
    rw [List.map_map]
    exact List.map_congr_left fun x hx => by simp [hlive x hx]
  have hids := h.chain.unique h'.chain
  have hmap := (hread nodes h.mem_live).trans
    ((congrArg _ hids).trans (hread nodes' h'.mem_live).symm)
  exact List.map_injective_iff.mpr (fun _ _ => Option.some.inj) hmap

theorem nodup (h : NodeChain live next first last fresh nodes) : (nodes.map Prod.fst).Nodup :=
  h.chain.nodup

theorem first_eq_none (h : NodeChain live next first last fresh nodes) :
    first = none ↔ nodes = [] := by
  cases nodes with
  | nil => exact iff_of_true h.chain rfl
  | cons x nodes =>
    have hsome : first = some x.1 := h.chain.1
    simp [hsome]

theorem last_eq_none (h : NodeChain live next first last fresh nodes) :
    last = none ↔ nodes = [] := by
  rw [h.last_eq, List.getLast?_eq_none_iff, List.map_eq_nil_iff]

theorem last_mem {l : Nat} (h : NodeChain live next first (some l) fresh nodes) :
    ∃ b, (l, b) ∈ nodes := by
  obtain ⟨x, hx, rfl⟩ := List.mem_map.mp (List.mem_of_getLast? h.last_eq.symm)
  exact ⟨x.2, hx⟩

/-- Rewriting one node. -/
theorem set {l₁ l₂ : List (Nat × β)} {s : Nat} {b : β}
    (h : NodeChain live next first last fresh (l₁ ++ (s, b) :: l₂)) (b' : β) :
    NodeChain (Function.update live s (some b')) next first last fresh (l₁ ++ (s, b') :: l₂) := by
  have hmap : (l₁ ++ (s, b') :: l₂).map Prod.fst = (l₁ ++ (s, b) :: l₂).map Prod.fst := by simp
  have hnd := h.nodup
  rw [List.map_append, List.map_cons, List.nodup_middle, List.nodup_cons, ← List.map_append] at hnd
  have hcases : ∀ x ∈ l₁ ++ (s, b') :: l₂, x = (s, b') ∨ x ∈ l₁ ++ l₂ := by
    intro x hx
    simp only [List.mem_append, List.mem_cons] at hx ⊢
    tauto
  have hold : ∀ x ∈ l₁ ++ l₂, x ∈ l₁ ++ (s, b) :: l₂ := by
    intro x hx
    simp only [List.mem_append, List.mem_cons] at hx ⊢
    tauto
  refine ⟨hmap ▸ h.chain, hmap ▸ h.last_eq, ?_, ?_⟩
  · intro x hx
    rcases hcases x hx with rfl | hx
    · exact Function.update_self ..
    · have hne : x.1 ≠ s := fun he => hnd.1 (he ▸ List.mem_map.mpr ⟨x, hx, rfl⟩)
      exact (Function.update_of_ne hne ..).trans (h.mem_live x (hold x hx))
  · intro x hx
    rcases hcases x hx with rfl | hx
    · exact h.lt_fresh (s, b) (by simp)
    · exact h.lt_fresh x (hold x hx)

theorem setFirst {s : Nat} {b : β} (h : NodeChain live next first last fresh ((s, b) :: nodes))
    (b' : β) :
    NodeChain (Function.update live s (some b')) next first last fresh ((s, b') :: nodes) := by
  have hset : NodeChain live next first last fresh ([] ++ (s, b) :: nodes) := h
  exact hset.set b'

/-- Freeing the first of several nodes. -/
theorem dropFirst {s : Nat} {b : β} (h : NodeChain live next first last fresh ((s, b) :: nodes))
    (hne : nodes ≠ []) :
    NodeChain (Function.update live s none) next (next s) last fresh nodes := by
  have hnd := List.nodup_cons.mp h.nodup
  refine ⟨h.chain.2, ?_, ?_, fun x hx => h.lt_fresh x (List.mem_cons_of_mem _ hx)⟩
  · rw [h.last_eq, List.map_cons, List.getLast?_cons_of_ne_nil]
    simpa using hne
  · intro x hx
    have hxs : x.1 ≠ s := fun he => hnd.1 (he ▸ List.mem_map.mpr ⟨x, hx, rfl⟩)
    exact (Function.update_of_ne hxs ..).trans (h.mem_live x (List.mem_cons_of_mem _ hx))

/-- The number of the next node is not in use. -/
theorem fresh_notMem (h : NodeChain live next first last fresh nodes) :
    fresh ∉ nodes.map Prod.fst := by
  intro hm
  obtain ⟨x, hx, he⟩ := List.mem_map.mp hm
  exact Nat.ne_of_lt (h.lt_fresh x hx) he

/-- There are no more nodes than numbers used. -/
theorem length_le (h : NodeChain live next first last fresh nodes) : nodes.length ≤ fresh := by
  have hsub : nodes.map Prod.fst ⊆ List.range fresh := by
    intro i hi
    obtain ⟨x, hx, rfl⟩ := List.mem_map.mp hi
    exact List.mem_range.mpr (h.lt_fresh x hx)
  have hle := (List.subperm_of_subset h.nodup hsub).length_le
  simpa using hle

/-- Allocating a node, not yet linked, leaves the chain alone. -/
theorem alloc (h : NodeChain live next first last fresh nodes) (b : β) :
    NodeChain (Function.update live fresh (some b)) (Function.update next fresh none) first last
      (fresh + 1) nodes where
  chain := (chain_update next fresh none _ first h.fresh_notMem).mpr h.chain
  last_eq := h.last_eq
  mem_live x hx :=
    (Function.update_of_ne (Nat.ne_of_lt (h.lt_fresh x hx)) ..).trans (h.mem_live x hx)
  lt_fresh x hx := Nat.lt_succ_of_lt (h.lt_fresh x hx)

/-- A node on its own. -/
theorem single {s : Nat} {b : β} (hlive : live s = some b) (hfresh : s < fresh)
    (hnext : next s = none) : NodeChain live next (some s) (some s) fresh [(s, b)] where
  chain := ⟨rfl, hnext⟩
  last_eq := rfl
  mem_live := by simpa using hlive
  lt_fresh := by simpa using hfresh

/-- Linking a node that is in the store, but not in the chain, behind the
last one. -/
theorem link {l s : Nat} {b : β} (h : NodeChain live next first (some l) fresh nodes)
    (hlive : live s = some b) (hfresh : s < fresh) (hnext : next s = none)
    (hs : s ∉ nodes.map Prod.fst) :
    NodeChain live (Function.update next l (some s)) first (some s) fresh
      (nodes ++ [(s, b)]) := by
  have hcases : ∀ x ∈ nodes ++ [(s, b)], x ∈ nodes ∨ x = (s, b) := by
    intro x hx
    simpa using hx
  refine ⟨?_, by simp, ?_, ?_⟩
  · rcases List.eq_nil_or_concat nodes with rfl | ⟨pre, x, rfl⟩
    · cases h.last_eq
    · have hchain := h.chain
      have hl : l = x.1 := by simpa using h.last_eq
      subst hl
      simp only [List.concat_eq_append, List.map_append, List.map_cons, List.map_nil] at hchain hs ⊢
      exact hchain.snoc hs hnext
  · intro x hx
    rcases hcases x hx with hx | rfl
    · exact h.mem_live x hx
    · exact hlive
  · intro x hx
    rcases hcases x hx with hx | rfl
    · exact h.lt_fresh x hx
    · exact hfresh

/-- A new node behind the last one. -/
theorem grow {l : Nat} (h : NodeChain live next first (some l) fresh nodes) (b : β) :
    NodeChain (Function.update live fresh (some b))
      (Function.update (Function.update next fresh none) l (some fresh)) first (some fresh)
      (fresh + 1) (nodes ++ [(fresh, b)]) :=
  (h.alloc b).link (Function.update_self ..) (Nat.lt_succ_self _) (Function.update_self ..)
    h.fresh_notMem

end NodeChain

end Nanio.Lib
