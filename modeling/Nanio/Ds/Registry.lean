/-
Nanio.Ds.Registry — the list of descriptors stays a list, and
`io_ds_length` its length, while handlers register and close.

A descriptor is freed by the program between two polls and by the poll loop
itself, never by a handler. So the list a handler leaves is the one it was
called with, with new descriptors in front (`Grown`): the walk behind a
descriptor stays as it was when `io_ds_length` sized the arrays, and a
descriptor in the arrays stays registered until the loop has served it.
-/
import Nanio.Ds.DsRules

namespace Nanio.Ds

open Nanio.Lib

/-! ## §1 The contract -/

/-- The condition: a descriptor is registered when it is not yet there,
freed when it is there and no handler runs, and `io_ds_poll` is called from
the main loop. Handlers may rewrite the events of registered descriptors and
close them; a `free` method calls none of the functions. -/
def registryOk (v : View World Method Call) : Choice Query Answer Call → Prop
  | .enter c =>
    (∀ d, v.returning ≠ some (.free d)) ∧
    match c with
    | .init d _ _ _ => v.st.mem d = none
    | .setEvents d _ => (v.st.mem d).isSome
    | .close d => (v.st.mem d).isSome
    | .free d => v.pending = [] ∧ (v.st.mem d).isSome
    | .poll _ => v.pending = []
  | .answer _ _ => True
  | .back _ => True

/-- Since the method was called, descriptors were only put in front. -/
def Grown (p : Pending World Method Call) (list : List DId) : Prop :=
  ∃ new list₀, Chain p.st.next p.st.ioDs list₀ ∧ list = new ++ list₀

/-- Every `free` method was called with the list in order. -/
def FreesCounted (l : Log) : Prop := ∀ d w, .call (.free d) w ∈ l → ∃ list, Counted w list

structure Tidy (w : World) (l : Log) (list : List DId) : Prop where
  listed : Listed w list
  frees : FreesCounted l

def registryContract : DsContract where
  ok := registryOk
  Inv := outsideFree FreesCounted fun ps w => ∃ list, Listed w list ∧ ∀ p ∈ ps, Grown p list
  mayFault f := f = .noAnswer

theorem registry_quiet : QuietFree registryContract FreesCounted := fun _ _ _ _ _ _ => Iff.rfl

theorem FreesCounted.snoc {l : Log} (h : FreesCounted l) {e : Event World Method Call}
    (he : ∀ d w, e = .call (.free d) w → ∃ list, Counted w list) : FreesCounted (l ++ [e]) := by
  intro d w hm
  rcases List.mem_append.mp hm with hm | hm
  · exact h d w hm
  · exact he d w (List.mem_singleton.mp hm).symm

theorem FreesCounted.free {l : Log} (h : FreesCounted l) {d : DId} {w : World} {list : List DId}
    (hc : Counted w list) : FreesCounted (l ++ [.call (.free d) w]) :=
  h.snoc fun _ _ he => by
    cases he
    exact ⟨list, hc⟩

theorem FreesCounted.leave {l : Log} (h : FreesCounted l) {c : Call} {entry w : World} {v : Int} :
    FreesCounted (l ++ [.leave c entry w v]) := h.snoc fun _ _ he => by cases he

section Calls

variable {ps : List (Pending World Method Call)} {c : Call} {w : World} {l : Log} {list : List DId}

/-- A handler is called with the list as it is, and what it leaves has grown
in front. -/
theorem registry_handler {m : Method} (hm : ∀ d, m ≠ .free d) (h : Tidy w l list) :
    registryContract.Inv [⟨m, w, l ++ [.call m w]⟩] w (l ++ [.call m w]) ∧
      ∀ w' l', registryContract.Inv [⟨m, w, l ++ [.call m w]⟩] w' l' →
        ∃ new, Tidy w' l' (new ++ list) := by
  have hout : ∀ d, [(⟨m, w, l ++ [.call m w]⟩ : Pending World Method Call)].head?.map (·.method) ≠
      some (.free d) := fun d he => hm d (Option.some.inj he)
  have hfrees : FreesCounted (l ++ [.call m w]) := h.frees.snoc fun d _ he => by
    cases he
    exact absurd rfl (hm d)
  refine ⟨(outsideFree_iff hout).mpr ⟨hfrees, list, h.listed, fun p hp => ?_⟩, fun w' l' hi => ?_⟩
  · obtain rfl := List.mem_singleton.mp hp
    exact ⟨[], list, h.listed.chain, rfl⟩
  · obtain ⟨hfrees', list', hl', hgrown⟩ := (outsideFree_iff hout).mp hi
    obtain ⟨new, list₀, hchain, rfl⟩ := hgrown _ (List.mem_singleton.mpr rfl)
    obtain rfl : list₀ = list := hchain.unique h.listed.chain
    exact ⟨new, hl', hfrees'⟩

/-! ## §2 The walk -/

/-- `rest` is what the walk has still to visit from `pos` on. -/
structure IdleWalk (w : World) (l : Log) (list : List DId) (len fuel : Nat) (pos : Option DId)
    (rest : List DId) (taken : List PollFd) : Prop where
  kept : Tidy w l list
  chain : Chain w.next pos rest
  behind : rest <:+ list
  fuel_le : rest.length ≤ fuel
  room : taken.length + rest.length ≤ len
  there : ∀ e ∈ taken, e.d ∈ list
  nodup : (taken.map (·.d) ++ rest).Nodup

/-- What the poll loop has put into the arrays when the walk is over. -/
structure Snapshot (list : List DId) (taken : List PollFd) : Prop where
  there : ∀ e ∈ taken, e.d ∈ list
  nodup : (taken.map (·.d)).Nodup

theorem IdleWalk.snapshot {len fuel : Nat} {pos : Option DId} {taken : List PollFd}
    (h : IdleWalk w l list len fuel pos [] taken) : Snapshot list taken :=
  ⟨h.there, by simpa using h.nodup⟩

/-- The walk goes on behind `d`, whatever was put in front meanwhile. -/
theorem IdleWalk.next {len fuel : Nat} {d : DId} {rest new : List DId} {taken : List PollFd}
    {w' : World} {l' : Log} (h : IdleWalk w l list len (fuel + 1) (some d) (d :: rest) taken)
    (hk : Tidy w' l' (new ++ list)) :
    d ∈ new ++ list ∧ IdleWalk w' l' (new ++ list) len fuel (w'.next d) rest taken := by
  obtain ⟨before, hbefore⟩ := h.behind
  have hsplit : new ++ list = (new ++ before) ++ d :: rest := by simp [← hbefore]
  have hchain : Chain w'.next w'.ioDs ((new ++ before) ++ d :: rest) := hsplit ▸ hk.listed.chain
  have hfuel : rest.length + 1 ≤ fuel + 1 := h.fuel_le
  have hroom : taken.length + (rest.length + 1) ≤ len := h.room
  refine ⟨by simp [hsplit], hk, hchain.suffix.2, ⟨new ++ before ++ [d], by simp [hsplit]⟩,
    by omega, by omega, fun e he => List.mem_append_right new (h.there e he), ?_⟩
  exact h.nodup.sublist ((List.Sublist.refl _).append (List.sublist_cons_self d rest))

/-- A descriptor with events takes the place that was counted for it. -/
theorem IdleWalk.take {len fuel : Nat} {d : DId} {rest new : List DId} {taken : List PollFd}
    {w' : World} {l' : Log} (h : IdleWalk w l list len (fuel + 1) (some d) (d :: rest) taken)
    (hk : Tidy w' l' (new ++ list)) (fd : Int) (events : BitVec 16) :
    IdleWalk w' l' (new ++ list) len fuel (w'.next d) rest (taken ++ [⟨d, fd, events⟩]) := by
  obtain ⟨hd, hnext⟩ := h.next hk
  have hroom : taken.length + (rest.length + 1) ≤ len := h.room
  refine { hnext with room := ?_, there := fun e he => ?_, nodup := by simpa using h.nodup }
  · simp only [List.length_append, List.length_singleton]
    omega
  · rcases List.mem_append.mp he with he | he
    · exact hnext.there e he
    · obtain rfl := List.mem_singleton.mp he
      exact hd

theorem registry_idleLoop {len fuel : Nat} {pos : Option DId} {rest : List DId}
    {taken : List PollFd} {post : List PollFd → World → Log → Prop}
    (h : IdleWalk w l list len fuel pos rest taken)
    (hpost : ∀ taken w l list, Tidy w l list → Snapshot list taken → post taken w l) :
    (idleLoop len fuel pos taken).wp registryContract c [] post w l := by
  induction fuel generalizing pos rest taken w l list with
  | zero =>
    obtain rfl : rest = [] := List.length_eq_zero_iff.mp (Nat.le_zero.mp h.fuel_le)
    obtain rfl : pos = none := h.chain
    exact hpost taken w l list h.kept h.snapshot
  | succ fuel ih =>
    cases rest with
    | nil =>
      obtain rfl : pos = none := h.chain
      exact hpost taken w l list h.kept h.snapshot
    | cons d rest =>
      obtain rfl : pos = some d := h.chain.1
      have hroom : taken.length + (rest.length + 1) ≤ len := h.room
      have hafter : ∀ new w' l', Tidy w' l' (new ++ list) →
          AfterIdle registryContract c [] post len fuel d taken w' l' := by
        intro new w' l' hk
        obtain ⟨hd, hnext⟩ := h.next hk
        exact ⟨fun _ _ _ => ih hnext, fun _ _ _ hfull => by omega,
          fun v _ _ _ => ih (h.take hk v.fd (v.events.truncate 16)),
          fun hnone => absurd hnone (hk.listed.ne_none hd)⟩
      obtain ⟨hcall, hback⟩ :=
          registry_handler (m := .idle d taken) (fun _ he => by cases he) h.kept
      apply wp_idleLoop_cons
      refine wp_callIdle (fun _ _ => hafter [] w l h.kept) (fun _ _ => ⟨hcall, ?_⟩) fun hnone => ?_
      · intro r w' l' hi _
        obtain ⟨new, hk⟩ := hback w' l' hi
        exact hafter new w' l' hk
      · have hd : d ∈ list := h.behind.subset List.mem_cons_self
        exact absurd hnone (h.kept.listed.ne_none hd)

/-! ## §3 The events -/

/-- The entries still to be served are registered, and no two are for one
descriptor. -/
structure EventPass (w : World) (l : Log) (list : List DId) (entries : List (DId × BitVec 16)) :
    Prop where
  kept : Tidy w l list
  there : ∀ e ∈ entries, e.1 ∈ list
  nodup : (entries.map (·.1)).Nodup

theorem registry_dispatch {entries : List (DId × BitVec 16)} {ret : Nat}
    {post : World → Log → Prop} (h : EventPass w l list entries)
    (hpost : ∀ w l list, Tidy w l list → post w l) :
    (dispatch entries ret).wp registryContract c [] (fun _ => post) w l := by
  induction entries generalizing w l list ret with
  | nil => exact hpost w l list h.kept
  | cons x rest ih =>
    obtain ⟨hx, hrest⟩ := List.nodup_cons.mp h.nodup
    obtain ⟨hmem, hthere⟩ := List.forall_mem_cons.mp h.there
    obtain ⟨hcall, hback⟩ :=
      registry_handler (m := .event x.1 x.2 rest) (fun _ he => by cases he) h.kept
    apply wp_dispatch_cons registry_quiet
    · exact fun _ => hpost w l list h.kept
    · exact fun _ _ => ih ⟨h.kept, hthere, hrest⟩
    · refine fun _ _ v hv => ⟨hcall, fun r w' l' hi _ => ?_⟩
      obtain ⟨new, hk⟩ := hback w' l' hi
      have hmem' : x.1 ∈ new ++ list := List.mem_append_right new hmem
      have hthere' : ∀ e ∈ rest, e.1 ∈ new ++ list := fun e he =>
        List.mem_append_right new (hthere e he)
      refine ⟨⟨_, hk.listed⟩, hk.frees, fun _ _ hc => hk.frees.free hc, fun hnone => ?_,
        fun _ _ _ => ?_, fun _ list₂ w'' l'' _ _ h₂ _ hl'' _ hfrees => ?_⟩
      · exact absurd hnone (hk.listed.ne_none hmem')
      · exact ih ⟨hk, hthere', hrest⟩
      · obtain rfl : list₂ = new ++ list := h₂.chain.unique hk.listed.chain
        refine ih ⟨⟨hl'', hfrees⟩, fun e he => ?_, hrest⟩
        have hin : e.1 ∈ rest.map (·.1) := List.mem_map_of_mem he
        have hne : e.1 ≠ x.1 := by
          intro heq
          rw [heq] at hin
          exact hx hin
        exact (List.mem_erase_of_ne hne).mpr (hthere' e he)
    · exact fun _ _ hnone => absurd hnone (h.kept.listed.ne_none hmem)

theorem registry_poll {timeout : Int} {post : World → Log → Prop} (h : Tidy w l list)
    (hpost : ∀ w l list, Tidy w l list → post w l) :
    (ioDsPoll timeout).wp registryContract c [] (fun _ => post) w l := by
  apply wp_ioDsPoll rfl
  have hlen := h.listed.length
  have hwalk : IdleWalk w l list w.length w.length w.ioDs list [] :=
    ⟨h, h.listed.chain, List.suffix_refl list, hlen.ge, by simp [hlen], by simp,
      by simpa using h.listed.chain.nodup⟩
  refine registry_idleLoop hwalk fun taken w l list hk hs => ?_
  refine ⟨fun _ => hpost w l list hk, hpost w l list hk, fun ret revents _ hrev => ?_⟩
  have hfst : ((taken.map (·.d)).zip revents).map (·.1) = taken.map (·.d) :=
    List.map_fst_zip (by simp [hrev])
  refine registry_dispatch ⟨hk, fun e he => ?_, by rw [hfst]; exact hs.nodup⟩ hpost
  have hmem : e.1 ∈ taken.map (·.d) := hfst ▸ List.mem_map_of_mem he
  obtain ⟨p, hp, hpe⟩ := List.mem_map.mp hmem
  exact hpe ▸ hs.there p hp

/-! ## §4 Every run -/

theorem registry_body : registryContract.Body body := by
  intro ps c w l hinv hok
  obtain ⟨hout, hok⟩ := hok
  obtain ⟨hfrees, list, hl, hgrown⟩ := (outsideFree_iff hout).mp hinv
  have hk : Tidy w l list := ⟨hl, hfrees⟩
  have hpost : ∀ v w' l' list', Tidy w' l' list' → (∀ p ∈ ps, Grown p list') →
      registryContract.Post c w ps v w' l' := fun v w' l' list' hk' hg =>
    (outsideFree_iff hout).mpr ⟨hk'.frees.leave, list', hk'.listed, hg⟩
  have hwrite : ∀ d f, d ∈ list →
      (updateD d f >>= fun _ => pure 0).wp registryContract c ps
        (registryContract.Post c w ps) w l := by
    intro d f hd
    rw [wp_bind]
    refine wp_updateD (fun v _ => ?_) fun hnone => ?_
    · exact hpost 0 _ _ _ ⟨hl.update hd (f v), hfrees⟩ hgrown
    · exact absurd hnone (hl.ne_none hd)
  cases c with
  | init d fd events vmt =>
    refine hpost 0 _ _ (d :: list) ⟨hl.init hok fd events vmt, hfrees⟩ fun p hp => ?_
    obtain ⟨new, list₀, hchain, rfl⟩ := hgrown p hp
    exact ⟨d :: new, list₀, hchain, rfl⟩
  | setEvents d events => exact hwrite d _ ((hl.live d).mp hok)
  | close d => exact hwrite d IoD.close ((hl.live d).mp hok)
  | free d =>
    obtain ⟨rfl, hlive⟩ : ps = [] ∧ (w.mem d).isSome := hok
    show (ioDFree d >>= fun _ => pure 0).wp _ _ _ _ _ _
    rw [wp_bind]
    refine wp_ioDFree registry_quiet hl hfrees (fun _ hc => hfrees.free hc)
      (fun w' l' _ hl' _ hfrees' => ?_) fun hno => ?_
    · exact hpost 0 _ _ _ ⟨hl', hfrees'⟩ (List.forall_mem_nil _)
    · exact absurd ((hl.live d).mp hlive) hno
  | poll timeout =>
    obtain rfl : ps = [] := hok
    exact wp_mono _ _ _ (fun v w' l' h => h v) _ _ _
      (registry_poll hk fun w' l' list' hk' v => hpost v w' l' list' hk' (List.forall_mem_nil _))

/-- Between the unlinking of a descriptor and its `free` the list is in
order too: `free` was called so, and its method changes nothing. -/
theorem registry_counts (hinv : registryContract.Inv ps w l) (hlogged : ∀ p ∈ ps, p.Logged) :
    ∃ list, Counted w list := by
  by_cases hfree : ∃ d, ps.head?.map (·.method) = some (.free d)
  · obtain ⟨d, hd⟩ := hfree
    cases ps with
    | nil => cases hd
    | cons p ps =>
      obtain ⟨m, w₁, l₁⟩ := p
      obtain rfl : m = .free d := Option.some.inj hd
      obtain ⟨hfrees, rfl, rfl⟩ := hinv
      obtain ⟨l₀, hl₀⟩ := hlogged _ List.mem_cons_self
      have hcall : Event.call (.free d) w ∈ l := by
        rw [show l = l₀ ++ [Event.call (.free d) w] from hl₀]
        simp
      exact hfrees d w hcall
  · obtain ⟨-, list, hl, -⟩ := (outsideFree_iff fun d hd => hfree ⟨d, hd⟩).mp hinv
    exact ⟨list, hl.counted⟩

end Calls

/-- **The list of descriptors is in order** in every run whose steps meet
the condition: nothing is written behind the arrays of `io_ds_poll`, no
other fault is met either, and whenever the owner is in control, in a
method or outside, `io_ds` is a list without repetition that
`io_ds_length` counts. -/
theorem registry_counted {choices : List (Choice Query Answer Call)}
    (hm : Meets body registryOk (.start .empty) choices)
    {cfg : Config World Query Answer Method Fault Call}
    (hrun : run body (.start .empty) choices = some cfg) :
    (∀ f, cfg.ctl = .faulted f → f = .noAnswer) ∧
      (cfg.ctl = .owner → ∃ list, Chain cfg.st.next cfg.st.ioDs list ∧ list.Nodup ∧
        cfg.st.length = list.length) := by
  have hnone : FreesCounted [] := fun _ _ hm => by simp at hm
  have h0 : registryContract.Inv [] .empty [] := ⟨hnone, [], listed_empty, by simp⟩
  refine ⟨fun f hf => run_fault registryContract registry_body h0 hm hrun hf, fun ho => ?_⟩
  have hinv := run_inv registryContract registry_body h0 hm hrun ho
  have hlogged := run_logged (List.forall_mem_nil _) hrun
  obtain ⟨list, hc⟩ := registry_counts hinv hlogged
  exact ⟨list, hc.chain, hc.chain.nodup, hc.length⟩

/-- While 2 idles, 3 is registered; 2 closes itself and registers 4, and is
freed by the loop; then 1, which has a `free` method, is freed from outside. -/
def growAndClose : List (Choice Query Answer Call) :=
  [.enter (.init 1 3 1 ⟨false, true⟩), .enter (.init 2 4 1 ⟨true, false⟩), .enter (.poll (-1)),
    .enter (.init 3 5 1 ⟨false, false⟩), .back 0,
    .answer (.poll [⟨2, 4, 1⟩, ⟨1, 3, 1⟩] (-1)) (.ok (2, [1, 1])),
    .enter (.close 2), .enter (.init 4 6 1 ⟨false, false⟩), .back 0, .back 0, .enter (.free 1)]

theorem registry_counted_growAndClose :
    ∃ cfg, run body (.start .empty) growAndClose = some cfg ∧
      (∀ f, cfg.ctl = .faulted f → f = .noAnswer) ∧
      (cfg.ctl = .owner → ∃ list, Chain cfg.st.next cfg.st.ioDs list ∧ list.Nodup ∧
        cfg.st.length = list.length) := by
  have hm : Meets body registryOk (.start .empty) growAndClose :=
    meets_cons ⟨fun _ he => (by cases he), rfl⟩ rfl <|
    meets_cons ⟨fun _ he => (by cases he), rfl⟩ rfl <|
    meets_cons ⟨fun _ he => (by cases he), rfl⟩ rfl <|
    meets_cons ⟨fun _ he => (by cases he), rfl⟩ rfl <|
    meets_cons trivial rfl <| meets_cons trivial rfl <|
    meets_cons ⟨fun _ he => (by cases he), rfl⟩ rfl <|
    meets_cons ⟨fun _ he => (by cases he), rfl⟩ rfl <|
    meets_cons trivial rfl <| meets_cons trivial rfl <|
    meets_cons ⟨fun _ he => (by cases he), rfl, rfl⟩ rfl meets_nil
  exact ⟨_, rfl, registry_counted hm rfl⟩

end Nanio.Ds
