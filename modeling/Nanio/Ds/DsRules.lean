/-
Nanio.Ds.DsRules — the list of descriptors, and what each function of
`io_ds.c` has to meet, for any contract.

`Listed w list` says that the list from `io_ds` is exactly the descriptors
that are allocated, and that `io_ds_length` counts them. §2 has one rule a
function; the claims about runs pick a contract and go through the rules.
-/
import Nanio.Ds.IoDs

namespace Nanio.Ds

open Nanio.Lib

/-! ## §1 The list -/

structure Listed (w : World) (list : List DId) : Prop where
  chain : Chain w.next w.ioDs list
  length : w.length = list.length
  live : ∀ d, (w.mem d).isSome ↔ d ∈ list

/-- Half of `Listed`, which also holds between the unlinking of a descriptor
and its `free`. -/
structure Counted (w : World) (list : List DId) : Prop where
  chain : Chain w.next w.ioDs list
  length : w.length = list.length

theorem Listed.counted {w : World} {list : List DId} (h : Listed w list) : Counted w list :=
  ⟨h.chain, h.length⟩

theorem listed_empty : Listed .empty [] where
  chain := rfl
  length := rfl
  live d := by simp [World.empty]

theorem Listed.get {w : World} {list : List DId} (h : Listed w list) {d : DId} (hd : d ∈ list) :
    ∃ v, w.mem d = some v := Option.isSome_iff_exists.mp ((h.live d).mpr hd)

theorem Listed.ne_none {w : World} {list : List DId} (h : Listed w list) {d : DId}
    (hd : d ∈ list) : w.mem d ≠ none := by
  obtain ⟨v, hv⟩ := h.get hd
  rw [hv]
  exact Option.some_ne_none v

/-- A descriptor that is not registered becomes the first one. -/
theorem Listed.init {w : World} {list : List DId} (h : Listed w list) {d : DId}
    (hd : w.mem d = none) (fd : Int) (events : BitVec 32) (vmt : DVmt) :
    Listed (w.init d fd events vmt) (d :: list) := by
  have hnot : d ∉ list := fun hm => h.ne_none hm hd
  refine ⟨h.chain.push hnot, congrArg (· + 1) h.length, fun x => ?_⟩
  show (Function.update w.mem d (some ⟨vmt, fd, events⟩) x).isSome ↔ x ∈ d :: list
  by_cases hx : x = d
  · subst hx
    simp
  · rw [Function.update_of_ne hx, h.live x]
    simp [hx]

/-- Rewriting the fields of a registered descriptor. -/
theorem Listed.update {w : World} {list : List DId} (h : Listed w list) {d : DId} (hd : d ∈ list)
    (v : IoD) : Listed { w with mem := Function.update w.mem d (some v) } list := by
  refine ⟨h.chain, h.length, fun x => ?_⟩
  show (Function.update w.mem d (some v) x).isSome ↔ x ∈ list
  by_cases hx : x = d
  · subst hx
    simp [hd]
  · rw [Function.update_of_ne hx, h.live x]

/-- Taking a descriptor out of the list and freeing it. -/
theorem Listed.remove {w : World} {list : List DId} (h : Listed w list) {d : DId} (hd : d ∈ list) :
    ∃ t, findLink w.ioDs w.next d (w.length + 1) .head = .found t ∧
      Counted (w.unlink d t) (list.erase d) ∧
      Listed ((w.unlink d t).release d) (list.erase d) := by
  have hfuel : list.length ≤ w.length + 1 := by rw [h.length]; omega
  obtain ⟨t, hfind, hchain, -⟩ := unlink_chain h.chain hd hfuel
  have hnd := h.chain.nodup
  have hnot : d ∉ list.erase d := hnd.not_mem_erase
  have hcounted : Counted (w.unlink d t) (list.erase d) := by
    refine ⟨(chain_update _ d none _ _ hnot).mpr hchain, ?_⟩
    show w.length - 1 = (list.erase d).length
    rw [h.length, List.length_erase_of_mem hd]
  refine ⟨t, hfind, hcounted, ⟨hcounted.chain, hcounted.length, fun x => ?_⟩⟩
  · show (Function.update w.mem d none x).isSome ↔ x ∈ list.erase d
    by_cases hx : x = d
    · subst hx
      simp [hnot]
    · rw [Function.update_of_ne hx, h.live x, List.mem_erase_of_ne hx]

/-- The walk of `io_d_free` for a descriptor that is not there. -/
theorem Listed.offEnd {w : World} {list : List DId} (h : Listed w list) {d : DId} (hd : d ∉ list) :
    findLink w.ioDs w.next d (w.length + 1) .head = .offEnd :=
  findLink_offEnd hd .head h.chain (by rw [h.length]; omega)

/-- An entry for `d` with events. -/
def Reported (d : DId) (entries : List (DId × BitVec 16)) : Prop := ∃ r, r ≠ 0 ∧ (d, r) ∈ entries

theorem Reported.cons {d : DId} {entries : List (DId × BitVec 16)} (h : Reported d entries)
    (x : DId × BitVec 16) : Reported d (x :: entries) := by
  obtain ⟨r, hr, hm⟩ := h
  exact ⟨r, hr, List.mem_cons_of_mem x hm⟩

/-! ## §2 The rules -/

abbrev DsContract := Contract World Query (fun q => Answer q) Method Fault Call
abbrev Log := List (Event World Method Call)

section Rules

variable {K : DsContract} {ps : List (Pending World Method Call)} {c : Call} {w : World} {l : Log}

theorem wp_readD {d : DId} {post : IoD → World → Log → Prop}
    (hsome : ∀ v, w.mem d = some v → post v w l)
    (hnone : w.mem d = none → K.mayFault .notRegistered) : (readD d).wp K c ps post w l := by
  unfold readD
  rw [wp_bind, wp_read]
  cases hv : w.mem d with
  | some v => exact hsome v hv
  | none => exact hnone hv

/-- Rewriting the fields of a descriptor. -/
theorem wp_updateD {d : DId} {f : IoD → IoD} {post : Unit → World → Log → Prop}
    (hsome : ∀ v, w.mem d = some v →
      post () { w with mem := Function.update w.mem d (some (f v)) } l)
    (hnone : w.mem d = none → K.mayFault .notRegistered) : (updateD d f).wp K c ps post w l := by
  unfold updateD
  rw [wp_bind]
  exact wp_readD hsome hnone

/-- While a `free` method runs, its owner calls nothing; `P` is what the
record is known to be. -/
def QuietFree (K : DsContract) (P : Log → Prop) : Prop :=
  ∀ d w₁ l₁ ps w l, K.Inv (⟨.free d, w₁, l₁⟩ :: ps) w l ↔ P l ∧ w = w₁ ∧ l = l₁

/-- An invariant `J` of the list that is not asked for while a `free` method
runs: there nothing has changed since it was called. -/
def outsideFree (P : Log → Prop) (J : List (Pending World Method Call) → World → Prop) :
    List (Pending World Method Call) → World → Log → Prop
  | ⟨.free _, w₁, l₁⟩ :: _, w, l => P l ∧ w = w₁ ∧ l = l₁
  | ps, w, l => P l ∧ J ps w

theorem outsideFree_record {P : Log → Prop} {J : List (Pending World Method Call) → World → Prop}
    (h : outsideFree P J ps w l) : P l := by
  match ps with
  | [] => exact h.1
  | ⟨.idle _ _, _, _⟩ :: _ => exact h.1
  | ⟨.event _ _ _, _, _⟩ :: _ => exact h.1
  | ⟨.free _, _, _⟩ :: _ => exact h.1

theorem outsideFree_iff {P : Log → Prop} {J : List (Pending World Method Call) → World → Prop}
    (h : ∀ d, ps.head?.map (·.method) ≠ some (.free d)) :
    outsideFree P J ps w l ↔ P l ∧ J ps w := by
  match ps with
  | [] => exact Iff.rfl
  | ⟨.idle _ _, _, _⟩ :: _ => exact Iff.rfl
  | ⟨.event _ _ _, _, _⟩ :: _ => exact Iff.rfl
  | ⟨.free d, _, _⟩ :: _ => exact absurd rfl (h d)

theorem wp_ioDFree {P : Log → Prop} (hquiet : QuietFree K P) {list : List DId}
    (hl : Listed w list) {d : DId} {post : Unit → World → Log → Prop}
    (hP : P l) (hfree : ∀ w', Counted w' (list.erase d) → P (l ++ [.call (.free d) w']))
    (hin : ∀ w' l', d ∈ list → Listed w' (list.erase d) →
      (∀ x, w'.mem x = if x = d then none else w.mem x) → P l' → post () w' l')
    (hout : d ∉ list → K.mayFault .offEnd) : (ioDFree d).wp K c ps post w l := by
  unfold ioDFree
  rw [wp_bind, wp_read]
  by_cases hd : d ∈ list
  · obtain ⟨t, hfind, hcounted, hgone⟩ := hl.remove hd
    have hmem : ∀ x, ((w.unlink d t).release d).mem x = if x = d then none else w.mem x := by
      intro x
      exact Function.update_apply ..
    rw [hfind]
    simp only []
    rw [wp_bind, wp_modify]
    unfold ioDRelease
    rw [wp_bind]
    apply wp_readD
    · intro v' hv'
      by_cases hmethod : v'.vmt.free = true
      · rw [if_pos hmethod, wp_bind, wp_invoke]
        have hcalled := hfree _ hcounted
        refine ⟨(hquiet _ _ _ _ _ _).mpr ⟨hcalled, rfl, rfl⟩, fun r w' l' hi _ => ?_⟩
        obtain ⟨-, rfl, rfl⟩ := (hquiet _ _ _ _ _ _).mp hi
        exact hin _ _ hd hgone hmem hcalled
      · rw [if_neg hmethod]
        exact hin _ _ hd hgone hmem hP
    · exact fun hnone => absurd hnone (hl.ne_none hd)
  · rw [hl.offEnd hd]
    exact hout hd

theorem wp_callIdle {d : DId} {taken : List PollFd} {post : Unit → World → Log → Prop}
    (hskip : ∀ v, w.mem d = some v → post () w l)
    (hcall : ∀ v, w.mem d = some v →
      K.Inv (⟨.idle d taken, w, l ++ [.call (.idle d taken) w]⟩ :: ps) w
        (l ++ [.call (.idle d taken) w]) ∧
      ∀ r w' l', K.Inv (⟨.idle d taken, w, l ++ [.call (.idle d taken) w]⟩ :: ps) w' l' →
        K.ok ⟨⟨.idle d taken, w, l ++ [.call (.idle d taken) w]⟩ :: ps, none, w', l'⟩ (.back r) →
        post () w' l')
    (hnone : w.mem d = none → K.mayFault .notRegistered) :
    (callIdle d taken).wp K c ps post w l := by
  unfold callIdle
  rw [wp_bind]
  refine wp_readD (fun v hv => ?_) hnone
  by_cases hidle : v.vmt.idle = true
  · rw [if_pos hidle, wp_bind, wp_invoke]
    exact hcall v hv
  · rw [if_neg hidle]
    exact hskip v hv

/-- What the walk has to meet once `idle` of `d` is done. -/
structure AfterIdle (K : DsContract) (c : Call) (ps : List (Pending World Method Call))
    (post : List PollFd → World → Log → Prop) (len fuel : Nat) (d : DId) (taken : List PollFd)
    (w : World) (l : Log) : Prop where
  skip : ∀ v, w.mem d = some v → v.events = 0 →
    (idleLoop len fuel (w.next d) taken).wp K c ps post w l
  full : ∀ v, w.mem d = some v → v.events ≠ 0 → len ≤ taken.length → K.mayFault .overflow
  take : ∀ v, w.mem d = some v → v.events ≠ 0 → taken.length < len →
    (idleLoop len fuel (w.next d) (taken ++ [⟨d, v.fd, v.events.truncate 16⟩])).wp K c ps post w l
  gone : w.mem d = none → K.mayFault .notRegistered

theorem wp_idleLoop_cons {len fuel : Nat} {d : DId} {taken : List PollFd}
    {post : List PollFd → World → Log → Prop}
    (h : (callIdle d taken).wp K c ps
      (fun _ w l => AfterIdle K c ps post len fuel d taken w l) w l) :
    (idleLoop len (fuel + 1) (some d) taken).wp K c ps post w l := by
  rw [idleLoop, wp_bind]
  refine wp_mono K c ps (fun _ w l hn => ?_) _ w l h
  rw [wp_bind]
  refine wp_readD (fun v hv => ?_) hn.gone
  rw [wp_bind, wp_read]
  by_cases hev : v.events = 0
  · rw [if_pos hev]
    exact hn.skip v hv hev
  · rw [if_neg hev]
    by_cases hlen : len ≤ taken.length
    · rw [if_pos hlen]
      exact hn.full v hv hev hlen
    · rw [if_neg hlen]
      exact hn.take v hv hev (by omega)

/-- What the second loop has to meet once `event` of `d` is done. `P` is what
the record is known to be when a `free` method is called. -/
structure AfterEvent (K : DsContract) (c : Call) (ps : List (Pending World Method Call))
    (P : Log → Prop) (post : Unit → World → Log → Prop) (d : DId)
    (rest : List (DId × BitVec 16)) (ret : Nat) (w : World) (l : Log) : Prop where
  listed : ∃ list, Listed w list
  record : P l
  free : ∀ w list, Counted w list → P (l ++ [.call (.free d) w])
  gone : w.mem d = none → K.mayFault .notRegistered
  stays : ∀ v, w.mem d = some v → v.fd ≠ -1 →
    (dispatch rest ret).wp K c ps post w l
  closed : ∀ v list w' l', w.mem d = some v → v.fd = -1 → Listed w list → d ∈ list →
    Listed w' (list.erase d) → (∀ y, w'.mem y = if y = d then none else w.mem y) → P l' →
    (dispatch rest ret).wp K c ps post w' l'

/-- One entry with events: `event` is called, and a descriptor that is
closed afterwards is freed. -/
theorem wp_dispatch_cons {P : Log → Prop} (hquiet : QuietFree K P) {x : DId × BitVec 16}
    {rest : List (DId × BitVec 16)} {ret : Nat} {post : Unit → World → Log → Prop}
    (hstop : ret = 0 → post () w l)
    (hskip : ret ≠ 0 → x.2 = 0 → (dispatch rest ret).wp K c ps post w l)
    (hcall : ret ≠ 0 → x.2 ≠ 0 → ∀ v, w.mem x.1 = some v →
      K.Inv (⟨.event x.1 x.2 rest, w, l ++ [.call (.event x.1 x.2 rest) w]⟩ :: ps) w
        (l ++ [.call (.event x.1 x.2 rest) w]) ∧
      ∀ r w' l',
        K.Inv (⟨.event x.1 x.2 rest, w, l ++ [.call (.event x.1 x.2 rest) w]⟩ :: ps) w' l' →
        K.ok ⟨⟨.event x.1 x.2 rest, w, l ++ [.call (.event x.1 x.2 rest) w]⟩ :: ps, none, w', l'⟩
          (.back r) → AfterEvent K c ps P post x.1 rest (ret - 1) w' l')
    (hnone : ret ≠ 0 → x.2 ≠ 0 → w.mem x.1 = none → K.mayFault .notRegistered) :
    (dispatch (x :: rest) ret).wp K c ps post w l := by
  rw [dispatch]
  by_cases hret : ret = 0
  · rw [if_pos hret]
    exact hstop hret
  rw [if_neg hret]
  by_cases hx : x.2 = 0
  · rw [if_pos hx]
    exact hskip hret hx
  rw [if_neg hx, wp_bind]
  refine wp_readD (fun v hv => ?_) (hnone hret hx)
  rw [wp_bind, wp_invoke]
  obtain ⟨hinv, hback⟩ := hcall hret hx v hv
  refine ⟨hinv, fun r w' l' hi hb => ?_⟩
  have h := hback r w' l' hi hb
  obtain ⟨list, hl⟩ := h.listed
  rw [wp_bind]
  refine wp_readD (fun v' hv' => ?_) h.gone
  by_cases hfd : v'.fd = -1
  · rw [if_pos hfd, wp_bind]
    refine wp_ioDFree hquiet hl h.record (fun w hc => h.free w _ hc)
      (fun w'' l'' hd hl'' hmem hP'' => ?_) fun hno => ?_
    · exact h.closed v' list w'' l'' hv' hfd hl hd hl'' hmem hP''
    · exact absurd ((hl.live x.1).mp (by rw [hv']; rfl)) hno
  · rw [if_neg hfd]
    exact h.stays v' hv' hfd

theorem wp_ioDsPoll {timeout : Int} {post : Int → World → Log → Prop} (hf : K.mayFault .noAnswer)
    (h : (idleLoop w.length w.length w.ioDs []).wp K c ps (fun taken w l =>
      (taken = [] → post 0 w l) ∧ post (-1) w l ∧
      ∀ ret revents, K.ok ⟨ps, some c, w, l⟩ (.answer (.poll taken timeout) (.ok (ret, revents))) →
        revents.length = taken.length →
        (dispatch ((taken.map (·.d)).zip revents) ret).wp K c ps (fun _ => post taken.length) w l)
      w l) : (ioDsPoll timeout).wp K c ps post w l := by
  unfold ioDsPoll
  rw [wp_bind, wp_read, wp_bind]
  refine wp_mono K c ps (fun taken w l hn => ?_) _ w l h
  obtain ⟨hnothing, herr, hok⟩ := hn
  by_cases ht : timeout < 0 ∧ taken = []
  · rw [if_pos ht]
    exact hnothing ht.2
  rw [if_neg ht, wp_bind, wp_query]
  intro a ha
  cases a with
  | err e => exact herr
  | ok r =>
    obtain ⟨ret, revents⟩ := r
    by_cases hlen : revents.length = taken.length
    · simp only [hlen, ne_eq, not_true_eq_false, if_false]
      rw [wp_bind]
      exact hok ret revents ha hlen
    · simp only [ne_eq, hlen, not_false_eq_true, if_true, wp_fault]
      exact hf

end Rules

end Nanio.Ds
