/-
Nanio.Ds.PollSafety — `io_ds_poll` touches only descriptors that are there.

The poll loop comes back to a descriptor after its `idle` and after its
`event`, and to the entries of the snapshot that are reported but not yet
served (`needs`). A handler that frees one of these leaves it a freed
descriptor to read (`own_free_faults`); a handler that frees any other, or
registers or closes whatever it likes, does no harm.

The walk over the list is the part with an argument: while it stands at
`d`, handlers put new descriptors in front and take others out, so what
comes after `d` can only shrink (`after`), no descriptor is met twice, and
the arrays are long enough.
-/
import Nanio.Ds.DsRules

namespace Nanio.Ds

open Nanio.Lib

/-! ## §1 What comes after a descriptor -/

def after (d : DId) : List DId → List DId
  | [] => []
  | x :: list => if x = d then list else after d list

theorem after_cons_of_ne {d x : DId} (h : x ≠ d) (list : List DId) :
    after d (x :: list) = after d list := if_neg h

theorem after_sublist (d : DId) (list : List DId) : (after d list).Sublist list := by
  induction list with
  | nil => exact List.Sublist.slnil
  | cons x list ih =>
    by_cases hx : x = d
    · rw [after, if_pos hx]
      exact List.sublist_cons_self x list
    · rw [after_cons_of_ne hx]
      exact ih.trans (List.sublist_cons_self x list)

theorem after_erase {d x : DId} (h : x ≠ d) (list : List DId) :
    (after d (list.erase x)).Sublist (after d list) := by
  induction list with
  | nil => exact List.Sublist.slnil
  | cons y list ih =>
    by_cases hy : y = x
    · subst hy
      rw [List.erase_cons_head, after_cons_of_ne h]
    · rw [List.erase_cons_tail (by simpa using hy)]
      by_cases hd : y = d
      · rw [after, after, if_pos hd, if_pos hd]
        exact List.erase_sublist
      · rw [after_cons_of_ne hd, after_cons_of_ne hd]
        exact ih

theorem after_chain {next : DId → Option DId} {p : Option DId} {list : List DId} {d : DId}
    (h : Chain next p list) (hd : d ∈ list) : Chain next (next d) (after d list) := by
  induction list generalizing p with
  | nil => simp at hd
  | cons x list ih =>
    by_cases hx : x = d
    · subst hx
      rw [after, if_pos rfl]
      exact h.2
    · rw [after_cons_of_ne hx]
      exact ih h.2 ((List.mem_cons.mp hd).resolve_left fun e => hx e.symm)

/-! ## §2 The contract -/

def Registered (w : World) (d : DId) : Prop :=
  (w.mem d).isSome ∧ ∃ list, Chain w.next w.ioDs list ∧ d ∈ list

/-- If it is a call of `idle` or `event`, it is on a registered descriptor. -/
def onRegistered : Event World Method Call → Prop
  | .call (.idle d _) w => Registered w d
  | .call (.event d _ _) w => Registered w d
  | _ => True

/-- Every `idle` and every `event` was called on a registered descriptor. -/
def CallsRegistered (l : Log) : Prop := ∀ e ∈ l, onRegistered e

/-- The descriptors that `io_ds_poll` comes back to after a method. -/
def needs : Method → DId → Prop
  | .idle d _, x => x = d
  | .event d _ rest, x => x = d ∨ Reported x rest
  | .free _, _ => False

/-- The condition: no handler frees a descriptor that the poll loop comes
back to, and every entry that is reported is for a descriptor that is still
registered when `poll` returns. The rest is what the functions are for: a
descriptor is registered once and freed once, only a registered one is
closed, `io_ds_poll` is called from the main loop, and a `free` method
calls none of them. -/
def pollSafetyOk (v : View World Method Call) : Choice Query Answer Call → Prop
  | .enter c =>
    (∀ d, v.returning ≠ some (.free d)) ∧
    match c with
    | .init d _ _ _ => v.st.mem d = none
    | .setEvents d _ => (v.st.mem d).isSome
    | .close d => (v.st.mem d).isSome
    | .free d => (v.st.mem d).isSome ∧ ∀ p ∈ v.pending, ¬needs p.method d
    | .poll _ => v.pending = []
  | .answer (.poll fds _) a =>
    ∀ ret revents, a = .ok (ret, revents) →
      ∀ d, Reported d ((fds.map (·.d)).zip revents) → (v.st.mem d).isSome
  | .back _ => True

/-- What a pending method relies on: the descriptors it needs, and behind
the one that idles nothing but what was there when `idle` was called. -/
def Keeps (p : Pending World Method Call) (list : List DId) : Prop :=
  (∀ d, needs p.method d → d ∈ list) ∧
  ∀ d taken list₀, p.method = .idle d taken → Chain p.st.next p.st.ioDs list₀ →
    (after d list).Sublist (after d list₀)

structure Tended (ps : List (Pending World Method Call)) (w : World) (l : Log) (list : List DId) :
    Prop where
  listed : Listed w list
  keeps : ∀ p ∈ ps, Keeps p list
  calls : CallsRegistered l

def pollSafetyContract : DsContract where
  ok := pollSafetyOk
  Inv := outsideFree CallsRegistered fun ps w => ∃ list, Listed w list ∧ ∀ p ∈ ps, Keeps p list
  mayFault f := f = .noAnswer

theorem pollSafety_quiet : QuietFree pollSafetyContract CallsRegistered :=
  fun _ _ _ _ _ _ => Iff.rfl

theorem Listed.registered {w : World} {list : List DId} (h : Listed w list) {d : DId}
    (hd : d ∈ list) : Registered w d := ⟨(h.live d).mpr hd, list, h.chain, hd⟩

section Calls

variable {ps : List (Pending World Method Call)} {c : Call} {w : World} {l : Log} {list : List DId}

theorem CallsRegistered.snoc {l : Log} (h : CallsRegistered l) {e : Event World Method Call}
    (he : onRegistered e) : CallsRegistered (l ++ [e]) :=
  List.forall_mem_append.mpr ⟨h, List.forall_mem_singleton.mpr he⟩

/-! ## §3 The walk -/

/-- `rest` is what the walk has still to visit from `pos` on, `taken` what
it has put into the arrays. -/
structure Walking (w : World) (l : Log) (list : List DId) (len fuel : Nat) (pos : Option DId)
    (rest : List DId) (taken : List PollFd) : Prop where
  tended : Tended [] w l list
  chain : Chain w.next pos rest
  sub : ∀ d ∈ rest, d ∈ list
  fuel_le : rest.length ≤ fuel
  room : taken.length + rest.length ≤ len
  nodup : (taken.map (·.d) ++ rest).Nodup

/-- `idle` is called on a registered descriptor, and what comes after it is
the same or less when it returns. -/
theorem pollSafety_callIdle {len fuel : Nat} {d : DId} {rest : List DId} {taken : List PollFd}
    {post : World → Log → Prop}
    (h : Walking w l list len (fuel + 1) (some d) (d :: rest) taken)
    (hpost : ∀ w l list rest', Tended [] w l list → d ∈ list → Chain w.next (w.next d) rest' →
      (∀ x ∈ rest', x ∈ list) → rest'.Sublist rest → post w l) :
    (callIdle d taken).wp pollSafetyContract c [] (fun _ => post) w l := by
  have hd : d ∈ list := h.sub d (by simp)
  have hnext : after d list = rest :=
    (after_chain h.tended.listed.chain hd).unique h.chain.2
  have hreg : Registered w d := h.tended.listed.registered hd
  apply wp_callIdle
  · intro _ _
    exact hpost w l list rest h.tended hd h.chain.2 (fun x hx => h.sub x (by simp [hx]))
      (List.Sublist.refl rest)
  · intro _ _
    refine ⟨⟨?_, list, h.tended.listed, ?_⟩, fun r w' l' hi _ => ?_⟩
    · exact h.tended.calls.snoc hreg
    · intro p hp
      obtain rfl := List.mem_singleton.mp hp
      refine ⟨fun x hx => hx ▸ hd, fun d' _ list₀ hd' hchain => ?_⟩
      cases hd'
      rw [hchain.unique h.tended.listed.chain]
    · obtain ⟨hcalls, list', hl', hkeeps⟩ := hi
      obtain ⟨hneed, hafter⟩ := hkeeps _ (List.mem_singleton.mpr rfl)
      have hd' : d ∈ list' := hneed d rfl
      have hsub := hafter d taken list rfl h.tended.listed.chain
      rw [hnext] at hsub
      exact hpost w' l' list' (after d list') ⟨hl', by simp, hcalls⟩ hd'
        (after_chain hl'.chain hd') (fun x hx => (after_sublist d list').subset hx) hsub
  · exact fun hnone => absurd hnone (h.tended.listed.ne_none hd)

theorem pollSafety_idleLoop {len fuel : Nat} {pos : Option DId} {rest : List DId}
    {taken : List PollFd} {post : List PollFd → World → Log → Prop}
    (h : Walking w l list len fuel pos rest taken)
    (hpost : ∀ taken w l list, Tended [] w l list → (taken.map (·.d)).Nodup → post taken w l) :
    (idleLoop len fuel pos taken).wp pollSafetyContract c [] post w l := by
  induction fuel generalizing pos rest taken w l list with
  | zero =>
    have hnil : rest = [] := List.length_eq_zero_iff.mp (Nat.le_zero.mp h.fuel_le)
    have hpos : pos = none := by simpa [hnil] using h.chain
    have hnodup := h.nodup
    rw [hnil, List.append_nil] at hnodup
    rw [hpos]
    exact hpost taken w l list h.tended hnodup
  | succ fuel ih =>
    cases rest with
    | nil =>
      have hpos : pos = none := h.chain
      have hnodup := h.nodup
      rw [List.append_nil] at hnodup
      rw [hpos]
      exact hpost taken w l list h.tended hnodup
    | cons d rest =>
      obtain rfl : pos = some d := h.chain.1
      have hroom : taken.length + (rest.length + 1) ≤ len := h.room
      have hfuel : rest.length + 1 ≤ fuel + 1 := h.fuel_le
      apply wp_idleLoop_cons
      refine pollSafety_callIdle h fun w l list rest' ht hd hchain hsub hless => ?_
      have hlen : rest'.length ≤ rest.length := hless.length_le
      have hnd : (taken.map (·.d) ++ d :: rest').Nodup :=
        h.nodup.sublist ((List.Sublist.refl _).append (hless.cons_cons d))
      have hskip : (taken.map (·.d) ++ rest').Nodup :=
        hnd.sublist ((List.Sublist.refl _).append (List.sublist_cons_self d rest'))
      refine ⟨fun _ _ _ => ih ⟨ht, hchain, hsub, by omega, by omega, hskip⟩,
        fun _ _ _ hfull => by omega, fun _ _ _ _ => ?_,
        fun hnone => absurd hnone (ht.listed.ne_none hd)⟩
      refine ih ⟨ht, hchain, hsub, by omega, ?_, by simpa using hnd⟩
      rw [List.length_append]
      simp only [List.length_singleton]
      omega

/-! ## §4 The events -/

/-- The entries that are reported and still to be served are registered,
and no two are for one descriptor. -/
structure Serving (w : World) (l : Log) (list : List DId) (entries : List (DId × BitVec 16)) :
    Prop where
  tended : Tended [] w l list
  there : ∀ d, Reported d entries → d ∈ list
  nodup : (entries.map (·.1)).Nodup

theorem pollSafety_dispatch {entries : List (DId × BitVec 16)} {ret : Nat}
    {post : World → Log → Prop} (h : Serving w l list entries)
    (hpost : ∀ w l list, Tended [] w l list → post w l) :
    (dispatch entries ret).wp pollSafetyContract c [] (fun _ => post) w l := by
  induction entries generalizing w l list ret with
  | nil => exact hpost w l list h.tended
  | cons x rest ih =>
    obtain ⟨hx, hrest⟩ := List.nodup_cons.mp h.nodup
    apply wp_dispatch_cons pollSafety_quiet
    · exact fun _ => hpost w l list h.tended
    · exact fun _ _ => ih ⟨h.tended, fun d hd => h.there d (hd.cons x), hrest⟩
    · intro _ hr v hv
      have hmem : x.1 ∈ list := h.there x.1 ⟨x.2, hr, by simp⟩
      have hreg : Registered w x.1 := h.tended.listed.registered hmem
      refine ⟨⟨?_, list, h.tended.listed, ?_⟩, fun r w' l' hi _ => ?_⟩
      · exact h.tended.calls.snoc hreg
      · intro p hp
        obtain rfl := List.mem_singleton.mp hp
        refine ⟨fun d hd => ?_, fun _ _ _ he => by cases he⟩
        rcases hd with rfl | hd
        · exact hmem
        · exact h.there d (hd.cons x)
      · obtain ⟨hcalls, list', hl', hkeeps⟩ := hi
        have hneed := (hkeeps _ (List.mem_singleton.mpr rfl)).1
        have hx' : x.1 ∈ list' := hneed x.1 (.inl rfl)
        have hthere : ∀ d, Reported d rest → d ∈ list' := fun d hd => hneed d (.inr hd)
        refine ⟨⟨list', hl'⟩, hcalls, fun _ _ _ => hcalls.snoc trivial, fun hnone => ?_,
          fun _ _ _ => ?_, fun _ list₂ w'' l'' _ _ h₂ _ hl'' _ hc => ?_⟩
        · exact absurd hnone (hl'.ne_none hx')
        · exact ih ⟨⟨hl', by simp, hcalls⟩, hthere, hrest⟩
        · obtain rfl : list₂ = list' := h₂.chain.unique hl'.chain
          refine ih ⟨⟨hl'', by simp, hc⟩, fun d hd => ?_, hrest⟩
          have hne : d ≠ x.1 := by
            rintro rfl
            obtain ⟨r, -, hm⟩ := hd
            exact hx (List.mem_map.mpr ⟨_, hm, rfl⟩)
          exact (List.mem_erase_of_ne hne).mpr (hthere d hd)
    · intro _ hr hnone
      exact absurd hnone (h.tended.listed.ne_none (h.there x.1 ⟨x.2, hr, by simp⟩))

theorem pollSafety_poll {timeout : Int} {post : World → Log → Prop} (h : Tended [] w l list)
    (hpost : ∀ w l list, Tended [] w l list → post w l) :
    (ioDsPoll timeout).wp pollSafetyContract c [] (fun _ => post) w l := by
  apply wp_ioDsPoll rfl
  have hlen := h.listed.length
  have hwalk : Walking w l list w.length w.length w.ioDs list [] :=
    ⟨h, h.listed.chain, fun _ hd => hd, hlen.ge, by simp [hlen],
      by simpa using h.listed.chain.nodup⟩
  refine pollSafety_idleLoop hwalk fun taken w l list ht hnodup => ?_
  refine ⟨fun _ => hpost w l list ht, hpost w l list ht, fun ret revents hok hrev => ?_⟩
  have hfst : ((taken.map (·.d)).zip revents).map (·.1) = taken.map (·.d) :=
    List.map_fst_zip (by simp [hrev])
  refine pollSafety_dispatch ⟨ht, fun d hd => ?_, by rw [hfst]; exact hnodup⟩ hpost
  exact (ht.listed.live d).mp (hok ret revents rfl d hd)

/-! ## §5 The other functions, with handlers pending -/

theorem Tended.init (h : Tended ps w l list) {d : DId} (hd : w.mem d = none) (fd : Int)
    (events : BitVec 32) (vmt : DVmt) : Tended ps (w.init d fd events vmt) l (d :: list) := by
  refine ⟨h.listed.init hd fd events vmt, fun p hp => ?_, h.calls⟩
  obtain ⟨hneed, hafter⟩ := h.keeps p hp
  refine ⟨fun x hx => List.mem_cons_of_mem d (hneed x hx), fun x taken list₀ hx hchain => ?_⟩
  have hin : x ∈ list := hneed x (by rw [hx]; rfl)
  have hne : d ≠ x := fun he => h.listed.ne_none (he ▸ hin) hd
  rw [after_cons_of_ne hne]
  exact hafter x taken list₀ hx hchain

theorem Tended.free {w' : World} {l' : Log} (h : Tended ps w l list) {d : DId}
    (hl : Listed w' (list.erase d)) (hc : CallsRegistered l')
    (hd : ∀ p ∈ ps, ¬needs p.method d) : Tended ps w' l' (list.erase d) := by
  refine ⟨hl, fun p hp => ?_, hc⟩
  obtain ⟨hneed, hafter⟩ := h.keeps p hp
  refine ⟨fun x hx => ?_, fun x taken list₀ hx hchain => ?_⟩
  · have hne : x ≠ d := fun e => hd p hp (e ▸ hx)
    exact (List.mem_erase_of_ne hne).mpr (hneed x hx)
  · have hne : d ≠ x := by
      rintro rfl
      exact hd p hp (by rw [hx]; rfl)
    exact (after_erase hne list).trans (hafter x taken list₀ hx hchain)

theorem pollSafety_body : pollSafetyContract.Body body := by
  intro ps c w l hinv hok
  obtain ⟨hout, hok⟩ := hok
  obtain ⟨hcalls, list, hl, hkeeps⟩ := (outsideFree_iff hout).mp hinv
  have ht : Tended ps w l list := ⟨hl, hkeeps, hcalls⟩
  have hpost : ∀ v w' l' list', Tended ps w' l' list' →
      pollSafetyContract.Post c w ps v w' l' := fun v w' l' list' h =>
    (outsideFree_iff hout).mpr ⟨h.calls.snoc trivial, list', h.listed, h.keeps⟩
  have hwrite : ∀ d f, d ∈ list →
      (updateD d f >>= fun _ => pure 0).wp pollSafetyContract c ps
        (pollSafetyContract.Post c w ps) w l := by
    intro d f hd
    rw [wp_bind]
    refine wp_updateD (fun v _ => ?_) fun hnone => ?_
    · exact hpost 0 _ _ _ ⟨ht.listed.update hd (f v), ht.keeps, ht.calls⟩
    · exact absurd hnone (ht.listed.ne_none hd)
  cases c with
  | init d fd events vmt => exact hpost 0 _ _ _ (ht.init hok fd events vmt)
  | setEvents d events => exact hwrite d _ ((ht.listed.live d).mp hok)
  | close d =>
    have hd : d ∈ list := (ht.listed.live d).mp hok
    exact hwrite d IoD.close hd
  | free d =>
    obtain ⟨hlive, hfree⟩ := hok
    show (ioDFree d >>= fun _ => pure 0).wp _ _ _ _ _ _
    rw [wp_bind]
    refine wp_ioDFree pollSafety_quiet ht.listed hcalls (fun _ _ => hcalls.snoc trivial)
      (fun w' l' _ hl' _ hc => ?_) fun hno => ?_
    · exact hpost 0 _ _ _ (ht.free hl' hc hfree)
    · exact absurd ((ht.listed.live d).mp hlive) hno
  | poll timeout =>
    obtain rfl : ps = [] := hok
    exact wp_mono _ _ _ (fun v w' l' h => h v) _ _ _
      (pollSafety_poll ht fun w' l' list' h v => hpost v w' l' list' h)

/-! ## §6 Every run -/

/-- **The poll loop touches only registered descriptors** in every run whose
steps meet the condition: no field of a freed descriptor is read, none is
freed that is not in the list, and `idle` and `event` are called on
registered ones. -/
theorem poll_registered {choices : List (Choice Query Answer Call)}
    (hm : Meets body pollSafetyOk (.start .empty) choices)
    {cfg : Config World Query Answer Method Fault Call}
    (hrun : run body (.start .empty) choices = some cfg) :
    (∀ f, cfg.ctl = .faulted f → f = .noAnswer) ∧
      (cfg.ctl = .owner → CallsRegistered cfg.log) := by
  have hnone : CallsRegistered [] := List.forall_mem_nil _
  have h0 : pollSafetyContract.Inv [] .empty [] := ⟨hnone, [], listed_empty, by simp⟩
  refine ⟨fun f hf => run_fault pollSafetyContract pollSafety_body h0 hm hrun hf, fun ho => ?_⟩
  exact outsideFree_record (run_inv pollSafetyContract pollSafety_body h0 hm hrun ho)

end Calls

/-- While 2 idles, 3 is registered; then 1 has events, closes itself and
frees 2, and is freed by the loop. -/
def idleAndServe : List (Choice Query Answer Call) :=
  [.enter (.init 1 3 1 ⟨false, true⟩), .enter (.init 2 4 1 ⟨true, false⟩), .enter (.poll (-1)),
    .enter (.init 3 5 1 ⟨false, false⟩), .back 0,
    .answer (.poll [⟨2, 4, 1⟩, ⟨1, 3, 1⟩] (-1)) (.ok (1, [0, 1])),
    .enter (.close 1), .enter (.free 2), .back 0, .back 0]

theorem poll_registered_idleAndServe :
    ∃ cfg, run body (.start .empty) idleAndServe = some cfg ∧
      (∀ f, cfg.ctl = .faulted f → f = .noAnswer) ∧
      (cfg.ctl = .owner → CallsRegistered cfg.log) := by
  have hm : Meets body pollSafetyOk (.start .empty) idleAndServe := by
    refine meets_cons ⟨fun _ he => (by cases he), rfl⟩ rfl <|
      meets_cons ⟨fun _ he => (by cases he), rfl⟩ rfl <|
      meets_cons ⟨fun _ he => (by cases he), rfl⟩ rfl <|
      meets_cons ⟨fun _ he => (by cases he), rfl⟩ rfl <|
      meets_cons trivial rfl <| meets_cons ?_ rfl <|
      meets_cons ⟨fun _ he => (by cases he), rfl⟩ rfl <|
      meets_cons ⟨fun _ he => (by cases he), rfl, ?_⟩ rfl <|
      meets_cons trivial rfl <| meets_cons trivial rfl meets_nil
    · intro ret revents he d hd
      cases he
      obtain ⟨r, hr, hm⟩ := hd
      simp at hm
      rcases hm with ⟨rfl, rfl⟩ | ⟨rfl, rfl⟩
      · exact absurd rfl hr
      · rfl
    · intro p hp
      obtain rfl := List.mem_singleton.mp hp
      rintro (he | ⟨r, -, hr⟩)
      · cases he
      · simp at hr
  exact ⟨_, rfl, poll_registered hm rfl⟩

/-- What `v_http_con_all_sent` does at the end of a connection. -/
def ownFree : List (Choice Query Answer Call) :=
  [.enter (.init 1 3 1 ⟨false, false⟩), .enter (.poll (-1)),
    .answer (.poll [⟨1, 3, 1⟩] (-1)) (.ok (1, [1])), .enter (.free 1), .back 0]

/-- `io_ds_poll` reads `fd` of the descriptor that `event` has freed. -/
theorem own_free_faults :
    ∃ cfg, run body (.start .empty) ownFree = some cfg ∧ cfg.ctl = .faulted .notRegistered :=
  ⟨_, rfl, rfl⟩

end Nanio.Ds
