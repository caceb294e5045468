/-
Nanio.Timers.TimerPool — every timer is on one of the two lists, once.

`Pool` says that the two lists together are the timers of the pool in some
order. An operation either leaves the links alone or moves one timer from
one list to the front of the other, so it keeps `Pool`. `io_get_timeout`
has its lists in order again before it calls a handler, and a handler can
only make the same calls, so `Pool` holds whenever the program is in
control, however deep in handlers (`timers_partition`).
-/
import Nanio.Timers.IoTimersTheorems

namespace Nanio.Timers

open Nanio.Lib

/-! ## §1 The partition -/

/-- The two lists hold each timer of the pool, once. -/
def Pool (w : World) : Prop :=
  ∃ act fr, Lists w act fr ∧ (act ++ fr).Perm (List.range IO_TIMERS_LIMIT)

theorem pool_init : Pool .init := ⟨[], _, lists_init, List.Perm.refl _⟩

/-- Only the links matter. -/
theorem Pool.congr {w w' : World} (h : Pool w) (hnext : w'.next = w.next)
    (hact : w'.ioActiveTimers = w.ioActiveTimers) (hfree : w'.ioFreeTimers = w.ioFreeTimers) :
    Pool w' := by
  obtain ⟨act, fr, hlists, hperm⟩ := h
  exact ⟨act, fr, hlists.congr hnext hact hfree, hperm⟩

theorem Pool.alloc {w : World} (h : Pool w) {t : TId} (ht : w.ioFreeTimers = some t)
    (handler custom : Nat) : Pool (w.alloc t handler custom) := by
  obtain ⟨act, fr, hlists, hperm⟩ := h
  cases fr with
  | nil =>
    have hnone : w.ioFreeTimers = none := hlists.free
    rw [ht] at hnone
    cases hnone
  | cons x fr =>
    have hx : w.ioFreeTimers = some x := hlists.free.1
    rw [ht] at hx
    obtain rfl := Option.some.inj hx
    exact ⟨t :: act, fr, hlists.alloc handler custom, List.perm_middle.symm.trans hperm⟩

theorem Pool.act_length {act fr : List TId}
    (hperm : (act ++ fr).Perm (List.range IO_TIMERS_LIMIT)) : act.length ≤ IO_TIMERS_LIMIT := by
  have hlen := hperm.length_eq
  rw [List.length_append, List.length_range] at hlen
  omega

/-- `io_timer_free` finds an active timer and moves it, and does not find
any other and leaves everything as it is. -/
theorem Lists.find {w : World} {act fr : List TId} (h : Lists w act fr) (t : TId) {fuel : Nat}
    (hf : act.length < fuel) :
    (t ∉ act ∧ findLink w.ioActiveTimers w.next t fuel .head = .offEnd) ∨
    (t ∈ act ∧ ∃ l, findLink w.ioActiveTimers w.next t fuel .head = .found l ∧
      Lists (w.free t l) (act.erase t) (t :: fr)) := by
  by_cases ht : t ∈ act
  · exact .inr ⟨ht, h.release ht hf.le⟩
  · exact .inl ⟨ht, findLink_offEnd ht .head h.active hf⟩

theorem Pool.free {act fr : List TId} (hperm : (act ++ fr).Perm (List.range IO_TIMERS_LIMIT))
    {t : TId} (ht : t ∈ act) : (act.erase t ++ t :: fr).Perm (List.range IO_TIMERS_LIMIT) := by
  have hmove : (act.erase t ++ t :: fr).Perm (t :: act.erase t ++ fr) := List.perm_middle
  have hback : (t :: act.erase t ++ fr).Perm (act ++ fr) :=
    (List.perm_cons_erase ht).symm.append_right fr
  exact hmove.trans (hback.trans hperm)

/-! ## §2 The operations -/

/-- The program may call with timers of the pool only, and after anything
the kernel answers and anything the handlers do, the partition holds. -/
def poolContract : Contract World Query Answer Method Fault Call where
  ok _ ch :=
    match ch with
    | .enter c => ∀ t ∈ c.timer?, t < IO_TIMERS_LIMIT
    | _ => True
  Inv _ w _ := Pool w
  mayFault _ := True

/-- Code that is started with the partition in place and leaves it so. -/
def KeepsPool {α : Type} (p : Code α) : Prop :=
  ∀ c ps w l, Pool w → p.wp poolContract c ps (fun _ w' _ => Pool w') w l

theorem KeepsPool.bind {α β : Type} {p : Code α} {f : α → Code β} (hp : KeepsPool p)
    (hf : ∀ a, KeepsPool (f a)) : KeepsPool (p >>= f) := by
  intro c ps w l h
  rw [wp_bind]
  exact wp_mono _ _ _ (fun a w' l' h' => hf a c ps w' l' h') p w l (hp c ps w l h)

theorem keepsPool_pure {α : Type} (a : α) : KeepsPool (pure a : Code α) := fun _ _ _ _ h => h

theorem keepsPool_read : KeepsPool (Prog.read : Code World) := fun _ _ _ _ h => h

theorem keepsPool_fault {α : Type} (f : Fault) : KeepsPool (Prog.fault f : Code α) :=
  fun _ _ _ _ _ => trivial

theorem keepsPool_query (q : Query) : KeepsPool (Prog.query q : Code Nat) :=
  fun _ _ _ _ h _ _ => h

theorem keepsPool_modify {f : World → World} (hf : ∀ w, Pool w → Pool (f w)) :
    KeepsPool (Prog.modify f : Code Unit) := fun _ _ w _ h => hf w h

theorem keepsPool_setNextTime (t : TId) (nextTime : Int) :
    KeepsPool (Prog.modify (·.setNextTime t nextTime) : Code Unit) :=
  keepsPool_modify fun _ h => h.congr rfl rfl rfl

theorem keepsPool_ioNow : KeepsPool ioNow := by
  have hclock : KeepsPool startClock := by
    refine keepsPool_read.bind fun w => ?_
    split
    · refine (keepsPool_query _).bind fun u => ?_
      exact keepsPool_modify fun w h => h.congr rfl rfl rfl
    · exact keepsPool_pure ()
  refine hclock.bind fun _ => (keepsPool_query _).bind fun u => ?_
  exact keepsPool_read.bind fun w => keepsPool_pure _

theorem keepsPool_ioTimerAlloc (handler custom : Nat) :
    KeepsPool (ioTimerAlloc handler custom) := by
  intro c ps w l h
  unfold ioTimerAlloc
  rw [wp_bind, wp_read]
  cases ht : w.ioFreeTimers with
  | none => exact h
  | some t => exact h.alloc ht handler custom

theorem keepsPool_ioTimerFree (t : TId) {fuel : Nat} (hf : IO_TIMERS_LIMIT < fuel) :
    KeepsPool (ioTimerFree fuel t) := by
  intro c ps w l h
  obtain ⟨act, fr, hlists, hperm⟩ := h
  have hlen := Pool.act_length hperm
  unfold ioTimerFree
  rw [wp_bind, wp_read]
  rcases hlists.find t (by omega : act.length < fuel) with ⟨-, hfind⟩ | ⟨ht, k, hfind, hmoved⟩
  · rw [hfind]
    exact ⟨act, fr, hlists, hperm⟩
  · rw [hfind]
    exact ⟨_, _, hmoved, Pool.free hperm ht⟩

theorem keepsPool_ioTimerSetTimeout (t : TId) (timeout : Int) :
    KeepsPool (ioTimerSetTimeout t timeout) :=
  keepsPool_ioNow.bind fun _ => keepsPool_setNextTime t _

theorem keepsPool_ioTimerSetPeriod (t : TId) (period : Int) :
    KeepsPool (ioTimerSetPeriod t period) := by
  refine (keepsPool_ioTimerSetTimeout t period).bind fun _ => ?_
  exact keepsPool_modify fun w h => h.congr rfl rfl rfl

/-! ## §3 The firing loop -/

theorem keepsPool_rearm (now : Int) (t : TId) {fuel : Nat} (hf : IO_TIMERS_LIMIT < fuel) :
    KeepsPool (rearm fuel now t) := by
  refine keepsPool_read.bind fun w => ?_
  split
  · cases catchUp fuel (w.timer t).nextTime (w.timer t).period now with
    | none => exact keepsPool_fault _
    | some nextTime => exact keepsPool_setNextTime t nextTime
  · exact keepsPool_ioTimerFree t hf

/-- The partition is in place before the handler runs, and the handler
keeps it. -/
theorem keepsPool_callHandler (t : TId) : KeepsPool (callHandler t) := by
  intro c ps w l h
  unfold callHandler
  rw [wp_bind, wp_read, wp_bind, wp_invoke]
  exact ⟨h, fun _ _ _ h' _ => h'⟩

/-- By induction on the rounds. -/
theorem keepsPool_getTimeoutLoop (now : Int) {fuel : Nat} (hf : IO_TIMERS_LIMIT < fuel) (n : Nat) :
    KeepsPool (getTimeoutLoop fuel now n) := by
  induction n with
  | zero => exact keepsPool_fault _
  | succ n ih =>
    refine keepsPool_read.bind fun w => ?_
    match ioGetNearestTimer w fuel w.ioActiveTimers with
    | none => exact keepsPool_fault _
    | some none => exact keepsPool_pure _
    | some (some t) =>
      simp only
      split
      · exact keepsPool_pure _
      · refine (keepsPool_rearm now t hf).bind fun _ => ?_
        exact (keepsPool_callHandler t).bind fun _ => ih

theorem keepsPool_body {fuel : Nat} (hf : IO_TIMERS_LIMIT < fuel) (c : Call) :
    KeepsPool (body fuel c) := by
  cases c with
  | alloc handler custom =>
    exact (keepsPool_ioTimerAlloc handler custom).bind fun _ => keepsPool_pure _
  | free t => exact (keepsPool_ioTimerFree t hf).bind fun _ => keepsPool_pure _
  | setTimeout t timeout =>
    exact (keepsPool_ioTimerSetTimeout t timeout).bind fun _ => keepsPool_pure _
  | setPeriod t period => exact (keepsPool_ioTimerSetPeriod t period).bind fun _ => keepsPool_pure _
  | stop t => exact (keepsPool_setNextTime t (-1)).bind fun _ => keepsPool_pure _
  | onTimeout handler custom timeout =>
    refine ((keepsPool_ioTimerAlloc handler custom).bind fun r => ?_).bind fun _ => keepsPool_pure _
    cases r with
    | none => exact keepsPool_pure _
    | some t => exact (keepsPool_ioTimerSetTimeout t timeout).bind fun _ => keepsPool_pure _
  | onPeriod handler custom period =>
    refine ((keepsPool_ioTimerAlloc handler custom).bind fun r => ?_).bind fun _ => keepsPool_pure _
    cases r with
    | none => exact keepsPool_pure _
    | some t => exact (keepsPool_ioTimerSetPeriod t period).bind fun _ => keepsPool_pure _
  | getTimeout => exact keepsPool_ioNow.bind fun now => keepsPool_getTimeoutLoop _ hf fuel

/-! ## §4 Every run -/

/-- A free timer is not found: nothing changes. -/
theorem ioTimerFree_inactive {w : World} {act fr : List TId} (h : Lists w act fr) {t : TId}
    (ht : t ∉ act) {fuel : Nat} (hf : act.length < fuel) (ans : ∀ q, Answer q) :
    (ioTimerFree fuel t).quiet ans w = .ok ((), w, []) := by
  unfold ioTimerFree
  refine quiet_bind quiet_read ?_
  rw [findLink_offEnd ht .head h.active hf]
  rfl

/-- NULL for an empty free list, which is when all timers are active. -/
theorem ioTimerAlloc_result {w : World} {act fr : List TId} (h : Lists w act fr)
    (hperm : (act ++ fr).Perm (List.range IO_TIMERS_LIMIT)) (handler custom : Nat)
    (ans : ∀ q, Answer q) :
    ∃ r w', (ioTimerAlloc handler custom).quiet ans w = .ok (r, w', []) ∧
      (r = none ↔ ∀ t < IO_TIMERS_LIMIT, t ∈ act) := by
  have hmem : ∀ t, t ∈ act ∨ t ∈ fr ↔ t < IO_TIMERS_LIMIT := by
    intro t
    rw [← List.mem_append, hperm.mem_iff, List.mem_range]
  cases fr with
  | nil =>
    have hnone : w.ioFreeTimers = none := h.free
    refine ⟨none, w, ?_, ?_⟩
    · refine quiet_bind quiet_read ?_
      rw [hnone]
      rfl
    · refine iff_of_true rfl fun t ht => ?_
      simpa using (hmem t).mpr ht
  | cons t fr =>
    have hsome : w.ioFreeTimers = some t := h.free.1
    refine ⟨some t, w.alloc t handler custom, ?_, ?_⟩
    · refine quiet_bind quiet_read ?_
      rw [hsome]
      rfl
    · refine iff_of_false (by simp) fun hall => ?_
      have ht : t < IO_TIMERS_LIMIT := (hmem t).mp (.inr List.mem_cons_self)
      exact h.disjoint t (hall t ht) List.mem_cons_self

/-- In every run from `io_timers_init`, whenever the program is in control,
in or out of a handler: the lists hold each timer of the pool once between
them, freeing a timer that is not active changes nothing, and the pool is
out of timers exactly when all of them are active. -/
theorem timers_partition {fuel : Nat} (hf : IO_TIMERS_LIMIT < fuel)
    {choices : List (Choice Query Answer Call)}
    {cfg : Config World Query Answer Method Fault Call}
    (hm : Meets (body fuel) poolContract.ok (.start .init) choices)
    (hrun : run (body fuel) (.start .init) choices = some cfg) (hc : cfg.ctl = .owner) :
    ∃ act fr, Chain cfg.st.next cfg.st.ioActiveTimers act ∧
      Chain cfg.st.next cfg.st.ioFreeTimers fr ∧
      (act ++ fr).Perm (List.range IO_TIMERS_LIMIT) ∧
      (∀ ans t, t ∉ act → (ioTimerFree fuel t).quiet ans cfg.st = .ok ((), cfg.st, [])) ∧
      ∀ ans handler custom, ∃ r w',
        (ioTimerAlloc handler custom).quiet ans cfg.st = .ok (r, w', []) ∧
          (r = none ↔ ∀ t < IO_TIMERS_LIMIT, t ∈ act) := by
  have hbody : poolContract.Body (body fuel) := fun ps c w l h _ => keepsPool_body hf c c ps w l h
  obtain ⟨act, fr, hlists, hperm⟩ := run_inv poolContract hbody pool_init hm hrun hc
  have hlen := Pool.act_length hperm
  refine ⟨act, fr, hlists.active, hlists.free, hperm, ?_, ?_⟩
  · intro ans t ht
    exact ioTimerFree_inactive hlists ht (by omega) ans
  · intro ans handler custom
    exact ioTimerAlloc_result hlists hperm handler custom ans

/-- A one-shot timer fires, and its handler frees it once more. -/
def firedAndFreed : List (Choice Query Answer Call) :=
  [.enter (.onTimeout 1 2 5), .answer .zeroTime (100 : Nat), .answer .uptime (100 : Nat),
    .enter .getTimeout, .answer .uptime (105 : Nat), .enter (.free 0), .back 0]

theorem timers_partition_firedAndFreed :
    ∃ cfg, run (body 20) (.start .init) firedAndFreed = some cfg ∧ cfg.ctl = .owner ∧
      ∃ act fr, Chain cfg.st.next cfg.st.ioActiveTimers act ∧
        Chain cfg.st.next cfg.st.ioFreeTimers fr ∧
        (act ++ fr).Perm (List.range IO_TIMERS_LIMIT) := by
  have hm : Meets (body 20) poolContract.ok (.start .init) firedAndFreed := by
    refine meets_cons (by intro t ht; cases ht) rfl ?_
    refine meets_cons trivial rfl (meets_cons trivial rfl ?_)
    refine meets_cons (by intro t ht; cases ht) rfl (meets_cons trivial rfl ?_)
    refine meets_cons ?_ rfl (meets_cons trivial rfl meets_nil)
    intro t ht
    obtain rfl := Option.some.inj ht
    decide
  obtain ⟨act, fr, hact, hfr, hperm, -, -⟩ :=
    timers_partition (by decide : IO_TIMERS_LIMIT < 20) hm rfl rfl
  exact ⟨_, rfl, rfl, act, fr, hact, hfr, hperm⟩

end Nanio.Timers
