/-
Nanio.Ds.Reaping — what becomes of closed descriptors.

`io_d_close` leaves the descriptor in the list with `fd` -1, and only
`io_ds_poll` takes it out, behind the descriptor's own `event`. So a closed
descriptor goes when it still has an event to come in the same poll, and
stays otherwise: `poll` reports nothing for a negative `fd`
(`closed_before_stays`). The condition says this at each point where a
descriptor can have been closed: before the poll, in an `idle`, before
`poll` returns, in an `event`.
-/
import Nanio.Ds.DsRules

namespace Nanio.Ds

open Nanio.Lib

/-! ## §1 The contract -/

/-- Registered, and closed. -/
def Closed (w : World) (d : DId) : Prop := ∃ v, w.mem d = some v ∧ v.fd = -1

/-- If it is a return of `io_ds_poll` without error, nothing in the list is
closed then, and what is not in the list has been freed. -/
def reapedAt : Event World Method Call → Prop
  | .leave (.poll _) _ exit v => 0 ≤ v → ∃ list, Listed exit list ∧ ∀ d, ¬Closed exit d
  | _ => True

def Reaped (l : Log) : Prop := ∀ e ∈ l, reapedAt e

/-- How many entries have events. -/
def reports (entries : List (DId × BitVec 16)) : Nat := entries.countP (·.2 ≠ 0)

/-- An entry without events is skipped. -/
theorem reports_skip {x : DId × BitVec 16} (h : x.2 = 0) (rest : List (DId × BitVec 16)) :
    reports (x :: rest) = reports rest :=
  List.countP_cons_of_neg (by simpa using h)

/-- One with events uses up one of the count. -/
theorem reports_serve {x : DId × BitVec 16} (h : x.2 ≠ 0) (rest : List (DId × BitVec 16)) :
    reports (x :: rest) = reports rest + 1 :=
  List.countP_cons_of_pos (by simpa using h)

theorem reports_pos {entries : List (DId × BitVec 16)} {d : DId} (h : Reported d entries) :
    0 < reports entries := by
  obtain ⟨r, hr, hm⟩ := h
  exact List.countP_pos_iff.mpr ⟨(d, r), hm, by simpa using hr⟩

/-- The condition: `io_ds_poll` is entered with nothing closed; after an
`idle` what is closed is already in the arrays; after `poll`, which counts
right, it is reported; after an `event` it is the descriptor just served or
one that is reported and has not been served. And a descriptor is registered
once, and a `free` method calls nothing. -/
def reapingOk (v : View World Method Call) : Choice Query Answer Call → Prop
  | .enter c =>
    (∀ d, v.returning ≠ some (.free d)) ∧
    match c with
    | .init d _ _ _ => v.st.mem d = none
    | .poll _ => ∀ d, ¬Closed v.st d
    | _ => True
  | .answer (.poll fds _) a =>
    ∀ ret revents, a = .ok (ret, revents) →
      ret = reports ((fds.map (·.d)).zip revents) ∧
      ∀ d, Closed v.st d → Reported d ((fds.map (·.d)).zip revents)
  | .back _ =>
    match v.returning with
    | some (.idle _ taken) => ∀ d, Closed v.st d → d ∈ taken.map (·.d)
    | some (.event x _ rest) => ∀ d, Closed v.st d → d = x ∨ Reported d rest
    | _ => True

def reapingContract : DsContract where
  ok := reapingOk
  Inv := outsideFree Reaped fun _ w => ∃ list, Listed w list
  mayFault _ := True

theorem reaping_quiet : QuietFree reapingContract Reaped := fun _ _ _ _ _ _ => Iff.rfl

/-- The list is in order and the record so far is as it should be. -/
structure Kept (w : World) (l : Log) : Prop where
  listed : ∃ list, Listed w list
  reaped : Reaped l

theorem Reaped.snoc {l : Log} (h : Reaped l) {e : Event World Method Call} (he : reapedAt e) :
    Reaped (l ++ [e]) :=
  List.forall_mem_append.mpr ⟨h, List.forall_mem_singleton.mpr he⟩

section Calls

variable {ps : List (Pending World Method Call)} {c : Call} {w : World} {l : Log}

/-! ## §2 The poll loop -/

/-- Whatever is closed is in the arrays, all along the walk. -/
theorem reaping_idleLoop {len fuel : Nat} {pos : Option DId} {taken : List PollFd}
    {post : List PollFd → World → Log → Prop} (h : Kept w l)
    (hclosed : ∀ d, Closed w d → d ∈ taken.map (·.d))
    (hpost : ∀ taken w l, Kept w l → (∀ d, Closed w d → d ∈ taken.map (·.d)) → post taken w l) :
    (idleLoop len fuel pos taken).wp reapingContract c ps post w l := by
  induction fuel generalizing pos taken w l with
  | zero =>
    cases pos with
    | none => exact hpost taken w l h hclosed
    | some d => exact trivial
  | succ fuel ih =>
    cases pos with
    | none => exact hpost taken w l h hclosed
    | some d =>
      have hmore : ∀ w l, Kept w l → (∀ x, Closed w x → x ∈ taken.map (·.d)) →
          AfterIdle reapingContract c ps post len fuel d taken w l := by
        intro w l hk hc
        refine ⟨fun _ _ _ => ih hk hc, fun _ _ _ _ => trivial, fun _ _ _ _ => ih hk fun x hx => ?_,
          fun _ => trivial⟩
        rw [List.map_append]
        exact List.mem_append_left _ (hc x hx)
      apply wp_idleLoop_cons
      apply wp_callIdle
      · exact fun _ _ => hmore w l h hclosed
      · intro _ _
        refine ⟨⟨h.reaped.snoc trivial, h.listed⟩, fun r w' l' hi hback => ?_⟩
        obtain ⟨hreaped, hlisted⟩ := hi
        exact hmore w' l' ⟨hlisted, hreaped⟩ hback
      · exact fun _ => trivial

/-- Whatever is closed is reported and still to be served, all along the
second loop. -/
theorem reaping_dispatch {entries : List (DId × BitVec 16)} {post : World → Log → Prop}
    (h : Kept w l) (hclosed : ∀ d, Closed w d → Reported d entries)
    (hpost : ∀ w l, Kept w l → (∀ d, ¬Closed w d) → post w l) :
    (dispatch entries (reports entries)).wp reapingContract c ps (fun _ => post) w l := by
  induction entries generalizing w l with
  | nil =>
    refine hpost w l h fun d hd => ?_
    obtain ⟨r, -, hm⟩ := hclosed d hd
    simp at hm
  | cons x rest ih =>
    apply wp_dispatch_cons reaping_quiet
    · intro hnone
      refine hpost w l h fun d hd => ?_
      have hpos := reports_pos (hclosed d hd)
      omega
    · intro _ hx
      rw [reports_skip hx]
      refine ih h fun d hd => ?_
      obtain ⟨r, hr, hm⟩ := hclosed d hd
      rcases List.mem_cons.mp hm with he | hm
      · rw [← he] at hx
        exact absurd hx hr
      · exact ⟨r, hr, hm⟩
    · intro _ hx v _
      refine ⟨⟨h.reaped.snoc trivial, h.listed⟩, fun r w' l' hi hback => ?_⟩
      obtain ⟨hreaped, hlisted⟩ := hi
      have hback' : ∀ d, Closed w' d → d = x.1 ∨ Reported d rest := hback
      rw [reports_serve hx, Nat.add_sub_cancel]
      refine ⟨hlisted, hreaped, fun _ _ _ => hreaped.snoc trivial, fun _ => trivial,
        fun v' hv' hfd => ?_, ?_⟩
      · refine ih ⟨hlisted, hreaped⟩ fun d hd => (hback' d hd).resolve_left ?_
        rintro rfl
        obtain ⟨v₂, hv₂, hfd₂⟩ := hd
        obtain rfl : v' = v₂ := Option.some.inj (hv'.symm.trans hv₂)
        exact hfd hfd₂
      · intro v' list w'' l'' _ _ _ _ hl'' hmem hreaped''
        refine ih ⟨⟨_, hl''⟩, hreaped''⟩ fun d hd => ?_
        obtain ⟨v₂, hv₂, hfd₂⟩ := hd
        rw [hmem d] at hv₂
        by_cases hd : d = x.1
        · rw [if_pos hd] at hv₂
          cases hv₂
        · rw [if_neg hd] at hv₂
          exact (hback' d ⟨v₂, hv₂, hfd₂⟩).resolve_left hd
    · exact fun _ _ _ => trivial

theorem reaping_poll {timeout : Int} {post : Int → World → Log → Prop} (h : Kept w l)
    (hopen : ∀ d, ¬Closed w d)
    (hpost : ∀ v w l, Kept w l → (0 ≤ v → ∀ d, ¬Closed w d) → post v w l) :
    (ioDsPoll timeout).wp reapingContract c ps post w l := by
  apply wp_ioDsPoll trivial
  refine reaping_idleLoop h (fun d hd => absurd hd (hopen d)) fun taken w l hk hclosed => ?_
  refine ⟨fun hnil => ?_, ?_, fun ret revents hok _ => ?_⟩
  · refine hpost 0 w l hk fun _ d hd => ?_
    have hm := hclosed d hd
    rw [hnil] at hm
    simp at hm
  · exact hpost (-1) w l hk fun hv => by omega
  · obtain ⟨hret, hreported⟩ := hok ret revents rfl
    rw [hret]
    exact reaping_dispatch hk hreported fun w l hk hopen => hpost _ w l hk fun _ => hopen

/-! ## §3 Every function -/

theorem reaping_body : reapingContract.Body body := by
  intro ps c w l hinv hok
  obtain ⟨hout, hok⟩ := hok
  obtain ⟨hreaped, hlisted⟩ := (outsideFree_iff hout).mp hinv
  have hk : Kept w l := ⟨hlisted, hreaped⟩
  have hpost : ∀ v w' l', Kept w' l' →
      (∀ timeout, c = .poll timeout → 0 ≤ v → ∀ d, ¬Closed w' d) →
      reapingContract.Post c w ps v w' l' := by
    intro v w' l' hk' hopen
    refine (outsideFree_iff hout).mpr ⟨hk'.reaped.snoc ?_, hk'.listed⟩
    cases c with
    | poll timeout =>
      intro hv
      obtain ⟨list, hl⟩ := hk'.listed
      exact ⟨list, hl, hopen timeout rfl hv⟩
    | _ => exact trivial
  obtain ⟨list, hl⟩ := hlisted
  have hwrite : ∀ d f, (∀ timeout, c ≠ .poll timeout) →
      (updateD d f >>= fun _ => pure 0).wp reapingContract c ps
        (reapingContract.Post c w ps) w l := by
    intro d f hc
    rw [wp_bind]
    refine wp_updateD (fun v hv => ?_) fun _ => trivial
    have hd : d ∈ list := (hl.live d).mp (by rw [hv]; rfl)
    exact hpost 0 _ _ ⟨⟨list, hl.update hd (f v)⟩, hreaped⟩ fun timeout he => absurd he (hc timeout)
  cases c with
  | init d fd events vmt =>
    have hfresh : w.mem d = none := hok
    exact hpost 0 _ _ ⟨⟨_, hl.init hfresh fd events vmt⟩, hreaped⟩ fun _ he => by cases he
  | setEvents d events => exact hwrite d _ fun _ he => by cases he
  | close d => exact hwrite d IoD.close fun _ he => by cases he
  | free d =>
    show (ioDFree d >>= fun _ => pure 0).wp _ _ _ _ _ _
    rw [wp_bind]
    refine wp_ioDFree reaping_quiet hl hreaped (fun _ _ => hreaped.snoc trivial)
      (fun w' l' _ hl' _ hreaped' => ?_) fun _ => trivial
    exact hpost 0 _ _ ⟨⟨_, hl'⟩, hreaped'⟩ fun _ he => by cases he
  | poll timeout =>
    exact reaping_poll hk hok fun v w' l' hk' hopen => hpost v w' l' hk' fun _ _ => hopen

end Calls

/-! ## §4 Every run -/

/-- **Closed descriptors are gone after the poll** in every run whose steps
meet the condition. -/
theorem closed_are_reaped {choices : List (Choice Query Answer Call)}
    (hm : Meets body reapingOk (.start .empty) choices)
    {cfg : Config World Query Answer Method Fault Call}
    (hrun : run body (.start .empty) choices = some cfg) (hctl : cfg.ctl = .owner) :
    Reaped cfg.log := by
  have hnone : Reaped [] := List.forall_mem_nil _
  have h0 : reapingContract.Inv [] .empty [] := ⟨hnone, [], listed_empty⟩
  exact outsideFree_record (run_inv reapingContract reaping_body h0 hm hrun hctl)

section Examples

variable {w : World} {d x : DId}

theorem not_closed_empty (d : DId) : ¬Closed .empty d := fun ⟨_, hv, _⟩ => by cases hv

theorem Closed.of_update {v : IoD}
    (h : Closed { w with mem := Function.update w.mem x (some v) } d) : d = x ∨ Closed w d := by
  obtain ⟨v', hv', hfd⟩ := h
  by_cases hd : d = x
  · exact .inl hd
  · exact .inr ⟨v', (Function.update_of_ne hd _ _).symm.trans hv', hfd⟩

theorem Closed.of_init {fd : Int} {events : BitVec 32} {vmt : DVmt}
    (h : Closed (w.init x fd events vmt) d) (hfd : fd ≠ -1) : Closed w d := by
  obtain ⟨v, hv, hv1⟩ := h
  change Function.update w.mem x (some ⟨vmt, fd, events⟩) d = some v at hv
  by_cases hd : d = x
  · subst hd
    rw [Function.update_self] at hv
    cases hv
    exact absurd hv1 hfd
  · exact ⟨v, (Function.update_of_ne hd _ _).symm.trans hv, hv1⟩

theorem Closed.of_release (h : Closed (w.release x) d) : d ≠ x ∧ Closed w d := by
  obtain ⟨v, hv, hfd⟩ := h
  change Function.update w.mem x none d = some v at hv
  by_cases hd : d = x
  · subst hd
    rw [Function.update_self] at hv
    cases hv
  · exact ⟨hd, v, (Function.update_of_ne hd _ _).symm.trans hv, hfd⟩

end Examples

/-- The handler of 2 closes 1, which has an event of its own to come, and
itself. -/
def closeBoth : List (Choice Query Answer Call) :=
  [.enter (.init 1 3 1 ⟨false, true⟩), .enter (.init 2 4 1 ⟨false, false⟩), .enter (.poll (-1)),
    .answer (.poll [⟨2, 4, 1⟩, ⟨1, 3, 1⟩] (-1)) (.ok (2, [1, 1])),
    .enter (.close 1), .enter (.close 2), .back 0, .back 0, .back 0]

theorem not_closed_two (d : DId) :
    ¬Closed ((World.empty.init 1 3 1 ⟨false, true⟩).init 2 4 1 ⟨false, false⟩) d := fun h =>
  not_closed_empty d ((h.of_init (by decide)).of_init (by decide))

theorem closed_are_reaped_closeBoth :
    ∃ cfg, run body (.start .empty) closeBoth = some cfg ∧ cfg.st.ioDs = none ∧
      Reaped cfg.log := by
  have hm : Meets body reapingOk (.start .empty) closeBoth := by
    refine meets_cons ⟨fun _ he => (by cases he), rfl⟩ rfl <|
      meets_cons ⟨fun _ he => (by cases he), rfl⟩ rfl <|
      meets_cons ⟨fun _ he => (by cases he), ?_⟩ rfl <|
      meets_cons ?_ rfl <|
      meets_cons ⟨fun _ he => (by cases he), trivial⟩ rfl <|
      meets_cons ⟨fun _ he => (by cases he), trivial⟩ rfl <|
      meets_cons ?_ rfl <| meets_cons ?_ rfl <| meets_cons trivial rfl meets_nil
    · exact fun d => not_closed_two d
    · intro ret revents he
      cases he
      exact ⟨rfl, fun d hd => absurd hd (not_closed_two d)⟩
    · intro d hd
      rcases hd.of_update with rfl | hd
      · exact .inl rfl
      rcases hd.of_update with rfl | hd
      · exact .inr ⟨1, by decide, by simp⟩
      exact absurd hd (not_closed_two d)
    · intro d hd
      obtain ⟨hne, hd⟩ := Closed.of_release (x := 2) hd
      rcases Closed.of_update (x := 2) hd with rfl | hd
      · exact absurd rfl hne
      rcases hd.of_update with rfl | hd
      · exact .inl rfl
      exact absurd hd (not_closed_two d)
  exact ⟨_, rfl, rfl, closed_are_reaped hm rfl rfl⟩

/-- A timer's handler closes 1 before the poll. -/
def closeBefore : List (Choice Query Answer Call) :=
  [.enter (.init 1 3 1 ⟨false, false⟩), .enter (.close 1), .enter (.poll 10),
    .answer (.poll [⟨1, -1, 1⟩] 10) (.ok (0, [0]))]

/-- `io_ds_poll` returns 1, and 1 is still in the list, closed. -/
theorem closed_before_stays :
    ∃ cfg, run body (.start .empty) closeBefore = some cfg ∧ cfg.ctl = .owner ∧
      ¬Reaped cfg.log := by
  refine ⟨_, rfl, rfl, fun h => ?_⟩
  obtain ⟨_, -, hopen⟩ := h _ (.tail _ (.tail _ (.head _))) (by decide)
  exact hopen 1 ⟨_, rfl, rfl⟩

end Nanio.Ds
