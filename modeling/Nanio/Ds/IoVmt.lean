/-
Nanio.Ds.IoVmt — method tables: `io_vmt_finish`, and what `io_d_init` makes
of a chain of tables linked by `ancestor`.

`io_vmt_finish` fills the skipped slots of a table from its direct ancestor,
as the ancestor is at that moment, and marks the table final. It does not
finish the ancestor first: a method that the ancestor itself inherits is
there only when the ancestor was used before. `finished_slot` says what a
slot holds after any sequence of uses, `vmt_complete_iff` when that is the
method of the nearest table that defines it.
-/
import Nanio.Ds.IoDs

namespace Nanio.Ds

open Nanio.Lib

/-! ## §1 The tables -/

abbrev VId := Nat
abbrev MId := Nat

/-- The slots of `io_vmt_t` from `free` on. The six of `u.stream`; the one of
`u.dgram`, `recvd`, is the first of them. -/
inductive Slot where
  | free
  | idle
  | event
  | accept
  | connected
  | recv
  | sent
  | allSent
  | close
  deriving DecidableEq, Repr

/-- A table as the source writes it. -/
structure VmtSource where
  ancestor : Option VId
  slot : Slot → Option MId

/-- `io_vmt_t` without `name`. -/
structure IoVmt where
  ancestor : Option VId
  final : Bool
  slot : Slot → Option MId

/-- A static table: `final` is not named in the source, so it is 0. -/
def VmtSource.table (t : VmtSource) : IoVmt := ⟨t.ancestor, false, t.slot⟩

/-- `io_vmt_finish`. -/
def ioVmtFinish (vmts : VId → IoVmt) (vmt : VId) : VId → IoVmt :=
  match (vmts vmt).ancestor with
  | none => vmts
  | some up =>
    if (vmts vmt).final then vmts
    else
      Function.update vmts vmt { vmts vmt with
        final := true
        slot := fun t => ((vmts vmt).slot t).or ((vmts up).slot t) }

/-- The methods that are tested for before they are called. -/
def IoVmt.dVmt (t : IoVmt) : DVmt := ⟨(t.slot .idle).isSome, (t.slot .free).isSome⟩

/-- The arguments of `io_d_init`. -/
structure InitCall where
  d : DId
  fd : Int
  events : BitVec 32
  vmt : VId

/-- The tables and the registered descriptors. -/
structure Tables where
  vmts : VId → IoVmt
  ds : World

/-- `io_d_init`, with its table. -/
def ioDInit (st : Tables) (c : InitCall) : Tables where
  vmts := ioVmtFinish st.vmts c.vmt
  ds := st.ds.init c.d c.fd c.events (ioVmtFinish st.vmts c.vmt c.vmt).dVmt

/-- The tables as in the source, nothing registered. -/
def Tables.start (src : VId → VmtSource) : Tables := ⟨fun v => (src v).table, .empty⟩

/-- A sequence of calls of `io_d_init`. -/
def ioDInits (src : VId → VmtSource) (calls : List InitCall) : Tables :=
  calls.foldl ioDInit (.start src)

theorem ioDInits_snoc (src : VId → VmtSource) (calls : List InitCall) (c : InitCall) :
    ioDInits src (calls ++ [c]) = ioDInit (ioDInits src calls) c := by
  simp [ioDInits, List.foldl_append]

/-! ## §2 The nearest table that defines a slot -/

variable {src : VId → VmtSource}

/-- The table `v` and its ancestors, from `v` up. -/
def Ancestry (src : VId → VmtSource) (v : VId) (chain : List VId) : Prop :=
  Chain (fun u => (src u).ancestor) (some v) chain

/-- The method of the first table of the chain that has one in the source. -/
def nearest (src : VId → VmtSource) (s : Slot) (chain : List VId) : Option MId :=
  chain.findSome? fun u => (src u).slot s

/-- The tables of the chain below that one. -/
def skipping (src : VId → VmtSource) (s : Slot) (chain : List VId) : List VId :=
  chain.takeWhile fun u => ((src u).slot s).isNone

section Nearest

variable {v : VId} {s : Slot} {m : MId} {rest : List VId}

theorem nearest_own (h : (src v).slot s = some m) : nearest src s (v :: rest) = some m := by
  simp [nearest, h]

theorem nearest_up (h : (src v).slot s = none) :
    nearest src s (v :: rest) = nearest src s rest := by simp [nearest, h]

theorem skipping_own (h : (src v).slot s = some m) : skipping src s (v :: rest) = [] := by
  simp [skipping, h]

theorem skipping_up (h : (src v).slot s = none) :
    skipping src s (v :: rest) = v :: skipping src s rest := by simp [skipping, h]

/-- The chain of `v` starts with `v`; what follows is the chain of its
ancestor. -/
theorem ancestry_cases {chain : List VId} (h : Ancestry src v chain) :
    (chain = [v] ∧ (src v).ancestor = none) ∨
      ∃ up rest, chain = v :: rest ∧ (src v).ancestor = some up ∧ Ancestry src up rest := by
  cases chain with
  | nil => cases h
  | cons u rest =>
    obtain ⟨hu, hrest⟩ := h
    obtain rfl : v = u := Option.some.inj hu
    cases hup : (src v).ancestor with
    | none =>
      have hnil : Chain (fun u => (src u).ancestor) none rest := hup ▸ hrest
      cases rest with
      | nil => exact .inl ⟨rfl, rfl⟩
      | cons => cases hnil.1
    | some up =>
      have hup' : Chain (fun u => (src u).ancestor) (some up) rest := by rw [← hup]; exact hrest
      exact .inr ⟨up, rest, rfl, rfl, hup'⟩

theorem ancestry_cons {chain : List VId} (h : Ancestry src v chain) :
    ∃ rest, chain = v :: rest := by
  rcases ancestry_cases h with ⟨rfl, -⟩ | ⟨up, rest, rfl, -, -⟩
  · exact ⟨[], rfl⟩
  · exact ⟨rest, rfl⟩

end Nearest

/-- The tables in the order they are first given to `io_d_init`. -/
def firstUses (calls : List InitCall) : List VId := (calls.map (·.vmt)).eraseDups

theorem firstUses_snoc (calls : List InitCall) (c : InitCall) :
    firstUses (calls ++ [c]) =
      if c.vmt ∈ calls.map (·.vmt) then firstUses calls else firstUses calls ++ [c.vmt] := by
  rw [firstUses, List.map_append, List.eraseDups_append]
  have hrest : [c.vmt].removeAll (calls.map (·.vmt)) =
      if c.vmt ∈ calls.map (·.vmt) then [] else [c.vmt] := by
    simp only [List.removeAll, List.filter_cons, List.filter_nil, List.elem_eq_mem]
    by_cases h : c.vmt ∈ calls.map (·.vmt) <;> simp [h]
  rw [List.map_singleton, hrest]
  by_cases h : c.vmt ∈ calls.map (·.vmt) <;> simp [h, firstUses, List.eraseDups_cons]

/-- A list that ends in `u` does not gain by an `x` behind. -/
theorem sublist_snoc_of_ne {u x : VId} (h : u ≠ x) (l k : List VId) :
    (l ++ [u]).Sublist (k ++ [x]) ↔ (l ++ [u]).Sublist k := by
  refine ⟨fun hs => ?_, fun hs => hs.trans (List.sublist_append_left k [x])⟩
  have hr : (u :: l.reverse).Sublist (x :: k.reverse) := by simpa using hs.reverse
  cases hr with
  | cons _ hr => simpa using hr.reverse
  | cons_cons => exact absurd rfl h

/-! ## §3 What a slot holds -/

/-- Tables are finished in the order of their first use. The slot of `v` was
filled if the slot of its ancestor was, when `v` was first used. -/
structure Finished (src : VId → VmtSource) (calls : List InitCall) : Prop where
  ancestor : ∀ v, ((ioDInits src calls).vmts v).ancestor = (src v).ancestor
  fresh : ∀ v, v ∉ calls.map (·.vmt) → (ioDInits src calls).vmts v = (src v).table
  final : ∀ v, v ∈ calls.map (·.vmt) →
    (src v).ancestor = none ∨ ((ioDInits src calls).vmts v).final = true
  slot : ∀ v chain s, Ancestry src v chain → ((ioDInits src calls).vmts v).slot s =
    if (skipping src s chain).reverse.Sublist (firstUses calls) then nearest src s chain else none

theorem finished_nil : Finished src [] where
  ancestor v := rfl
  fresh v _ := rfl
  final v hv := by simp at hv
  slot v chain s h := by
    obtain ⟨rest, rfl⟩ := ancestry_cons h
    show (src v).slot s = _
    cases hv : (src v).slot s with
    | none => simp [skipping_up hv, firstUses]
    | some m => simp [skipping_own hv, nearest_own hv]

theorem ioVmtFinish_of_ne {vmts : VId → IoVmt} {x v : VId} (h : v ≠ x) :
    ioVmtFinish vmts x v = vmts v := by
  unfold ioVmtFinish
  cases (vmts x).ancestor with
  | none => rfl
  | some up =>
    by_cases hf : (vmts x).final = true
    · simp [hf]
    · simp [hf, Function.update_of_ne h]

/-- A table that was used before, or has no ancestor, stays as it is. -/
theorem ioVmtFinish_done {vmts : VId → IoVmt} {x : VId}
    (h : (vmts x).ancestor = none ∨ (vmts x).final = true) : ioVmtFinish vmts x = vmts := by
  unfold ioVmtFinish
  cases ha : (vmts x).ancestor with
  | none => rfl
  | some up => simp [h.resolve_left (by simp [ha])]

theorem ioVmtFinish_first {vmts : VId → IoVmt} {x up : VId} (ha : (vmts x).ancestor = some up)
    (hf : (vmts x).final = false) :
    ioVmtFinish vmts x x =
      ⟨some up, true, fun t => ((vmts x).slot t).or ((vmts up).slot t)⟩ := by
  simp [ioVmtFinish, ha, hf]

theorem ioVmtFinish_ancestor (vmts : VId → IoVmt) (x v : VId) :
    (ioVmtFinish vmts x v).ancestor = (vmts v).ancestor := by
  by_cases h : v = x
  · subst h
    cases ha : (vmts v).ancestor with
    | none => rw [ioVmtFinish_done (.inl ha), ha]
    | some up =>
      cases hf : (vmts v).final with
      | true => rw [ioVmtFinish_done (.inr hf), ha]
      | false => rw [ioVmtFinish_first ha hf]
  · rw [ioVmtFinish_of_ne h]

theorem ioVmtFinish_final (vmts : VId → IoVmt) (x : VId) :
    (vmts x).ancestor = none ∨ (ioVmtFinish vmts x x).final = true := by
  cases ha : (vmts x).ancestor with
  | none => exact .inl rfl
  | some up =>
    cases hf : (vmts x).final with
    | true => rw [ioVmtFinish_done (.inr hf)]; exact .inr hf
    | false => rw [ioVmtFinish_first ha hf]; exact .inr rfl

theorem ioDInits_snoc_vmts (calls : List InitCall) (c : InitCall) :
    (ioDInits src (calls ++ [c])).vmts = ioVmtFinish (ioDInits src calls).vmts c.vmt :=
  congrArg Tables.vmts (ioDInits_snoc src calls c)

theorem mem_snoc_uses {calls : List InitCall} {c : InitCall} {v : VId} :
    v ∈ (calls ++ [c]).map (·.vmt) ↔ v ∈ calls.map (·.vmt) ∨ v = c.vmt := by
  rw [List.map_append, List.mem_append, List.map_singleton, List.mem_singleton]

/-- A second use changes nothing. -/
theorem finished_again {calls : List InitCall} (h : Finished src calls) {c : InitCall}
    (hc : c.vmt ∈ calls.map (·.vmt)) : Finished src (calls ++ [c]) := by
  have hsame : (ioDInits src (calls ++ [c])).vmts = (ioDInits src calls).vmts := by
    rw [ioDInits_snoc_vmts]
    exact ioVmtFinish_done ((h.final c.vmt hc).imp_left fun hroot => by rw [h.ancestor, hroot])
  refine ⟨fun v => ?_, fun v hv => ?_, fun v hv => ?_, fun v chain s ha => ?_⟩
  · rw [hsame, h.ancestor]
  · rw [hsame, h.fresh v fun hm => hv (mem_snoc_uses.mpr (.inl hm))]
  · rw [hsame]
    exact h.final v ((mem_snoc_uses.mp hv).elim id fun e => e ▸ hc)
  · rw [hsame, firstUses_snoc, if_pos hc, h.slot v chain s ha]

/-- A slot of a table is not touched by the first use of another. -/
theorem skipping_snoc_of_ne {calls : List InitCall} {v x : VId} {chain : List VId} {s : Slot}
    (ha : Ancestry src v chain) (hne : v ≠ x) :
    (skipping src s chain).reverse.Sublist (firstUses calls ++ [x]) ↔
      (skipping src s chain).reverse.Sublist (firstUses calls) := by
  obtain ⟨rest, rfl⟩ := ancestry_cons ha
  cases hv : (src v).slot s with
  | none =>
    rw [skipping_up hv, List.reverse_cons]
    exact sublist_snoc_of_ne hne _ _
  | some m => simp [skipping_own hv]

/-- At its first use a skipped slot is filled with what the ancestor holds. -/
theorem finished_first_slot {calls : List InitCall} (h : Finished src calls) {c : InitCall}
    (hc : c.vmt ∉ calls.map (·.vmt)) {chain : List VId} {s : Slot}
    (ha : Ancestry src c.vmt chain) :
    (ioVmtFinish (ioDInits src calls).vmts c.vmt c.vmt).slot s =
      if (skipping src s chain).reverse.Sublist (firstUses calls ++ [c.vmt])
      then nearest src s chain else none := by
  have hfresh := h.fresh c.vmt hc
  rcases ancestry_cases ha with ⟨rfl, hroot⟩ | ⟨up, rest, rfl, hup, hrest⟩
  · rw [ioVmtFinish_done (.inl (by rw [h.ancestor, hroot])), hfresh]
    show (src c.vmt).slot s = _
    cases hv : (src c.vmt).slot s with
    | none => simp [nearest, hv]
    | some m => simp [skipping_own hv, nearest_own hv]
  · rw [ioVmtFinish_first (by rw [h.ancestor, hup]) (by rw [hfresh]; rfl)]
    show (((ioDInits src calls).vmts c.vmt).slot s).or (((ioDInits src calls).vmts up).slot s) = _
    rw [hfresh, h.slot up rest s hrest]
    show ((src c.vmt).slot s).or _ = _
    cases hv : (src c.vmt).slot s with
    | none =>
      rw [skipping_up hv, nearest_up hv, List.reverse_cons]
      simp [List.append_sublist_append_right]
    | some m => simp [skipping_own hv, nearest_own hv]

theorem finished_first {calls : List InitCall} (h : Finished src calls) {c : InitCall}
    (hc : c.vmt ∉ calls.map (·.vmt)) : Finished src (calls ++ [c]) := by
  have hother : ∀ v, v ≠ c.vmt →
      (ioDInits src (calls ++ [c])).vmts v = (ioDInits src calls).vmts v := fun v hv => by
    rw [ioDInits_snoc_vmts, ioVmtFinish_of_ne hv]
  refine ⟨fun v => ?_, fun v hv => ?_, fun v hv => ?_, fun v chain s ha => ?_⟩
  · rw [ioDInits_snoc_vmts, ioVmtFinish_ancestor, h.ancestor]
  · have hv' := not_or.mp fun hm => hv (mem_snoc_uses.mpr hm)
    rw [hother v hv'.2, h.fresh v hv'.1]
  · by_cases hx : v = c.vmt
    · rw [hx, ioDInits_snoc_vmts, ← h.ancestor]
      exact ioVmtFinish_final _ _
    · rw [hother v hx]
      exact h.final v ((mem_snoc_uses.mp hv).resolve_right hx)
  · by_cases hv : v = c.vmt
    · subst hv
      rw [ioDInits_snoc_vmts, firstUses_snoc, if_neg hc]
      exact finished_first_slot h hc ha
    · rw [hother v hv, h.slot v chain s ha, firstUses_snoc, if_neg hc]
      simp only [skipping_snoc_of_ne ha hv]

theorem finished (src : VId → VmtSource) (calls : List InitCall) : Finished src calls := by
  induction calls using List.reverseRecOn with
  | nil => exact finished_nil
  | append_singleton calls c ih =>
    by_cases hc : c.vmt ∈ calls.map (·.vmt)
    · exact finished_again ih hc
    · exact finished_first ih hc

/-! ## §4 When a table is complete -/

/-- **A table is complete** just when, for every slot that a table of its
chain defines, the tables below the nearest such table, itself the last of
them, were first given to `io_d_init` from the top down. -/
theorem vmt_complete_iff (src : VId → VmtSource) (calls : List InitCall) {v : VId}
    {chain : List VId} (ha : Ancestry src v chain) :
    (∀ s, ((ioDInits src calls).vmts v).slot s = nearest src s chain) ↔
      ∀ s, (nearest src s chain).isSome →
        (skipping src s chain).reverse.Sublist (firstUses calls) := by
  refine forall_congr' fun s => ?_
  rw [(finished src calls).slot v chain s ha]
  by_cases hs : (skipping src s chain).reverse.Sublist (firstUses calls)
  · simp [hs]
  · cases nearest src s chain <;> simp [hs]

/-- `io_d_vmt` is 0 and `io_stream_vmt` 1; 2 inherits from `io_stream_vmt`
and 3 from 2. -/
def twoLevels : VId → VmtSource
  | 1 => ⟨some 0, fun s => match s with | .free => some 10 | .event => some 11 | _ => none⟩
  | 2 => ⟨some 1, fun s => match s with | .recv => some 20 | _ => none⟩
  | 3 => ⟨some 2, fun s => match s with | .allSent => some 30 | _ => none⟩
  | _ => ⟨none, fun _ => none⟩

theorem twoLevels_ancestry : Ancestry twoLevels 3 [3, 2, 1, 0] := ⟨rfl, rfl, rfl, rfl, rfl⟩

/-- With 2 used before 3, the second finds all it inherits. -/
theorem vmt_complete_baseFirst : Ancestry twoLevels 3 [3, 2, 1, 0] ∧
    ∀ s, ((ioDInits twoLevels [⟨1, 5, 1, 2⟩, ⟨2, 6, 1, 3⟩]).vmts 3).slot s =
      nearest twoLevels s [3, 2, 1, 0] := by
  refine ⟨twoLevels_ancestry, (vmt_complete_iff twoLevels _ twoLevels_ancestry).mpr fun s => ?_⟩
  cases s <;> decide

/-- With 3 used at once, its `event` is null: the poll loop calls it. -/
theorem vmt_incomplete : ¬∀ (src : VId → VmtSource) (calls : List InitCall) (v : VId)
    (chain : List VId), Ancestry src v chain → v ∈ calls.map (·.vmt) →
      ∀ s, ((ioDInits src calls).vmts v).slot s = nearest src s chain := by
  intro h
  have hevent := h twoLevels [⟨1, 5, 1, 3⟩] 3 _ twoLevels_ancestry (by simp) .event
  exact absurd hevent (by decide)

end Nanio.Ds
