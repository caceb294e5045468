/-
Nanio.Timers.Deadline — when a timer that was set is served.

`next_time` holds the time a timer is set for, and a timer is armed while
that is greater than 0. The sum of the clock and the timeout is 0 in the
first millisecond, for a timeout of 0, and then the timer is never served;
nor is any timer once the clock has no value in a `long long`.

§1 is what the calls on other timers do to a timer, which is nothing unless
they call its handler. §2 follows one timer from the call that sets it,
through any such calls, to the call of `io_get_timeout`.
-/
import Nanio.Timers.TimerPool

namespace Nanio.Timers

open Nanio.Lib

/-! ## §1 Calls that leave a timer alone -/

/-- The lists are in order and within the pool, and no period is negative. -/
structure Usable (w : World) (act fr : List TId) : Prop extends Tended w act fr where
  room : act.length + fr.length ≤ IO_TIMERS_LIMIT

theorem usable_init : Usable .init [] (List.range IO_TIMERS_LIMIT) where
  lists := lists_init
  periods := by simp
  room := by simp

/-- The calls that give no timer a negative period. -/
def Call.Legal : Call → Prop
  | .setPeriod _ period | .onPeriod _ _ period => 0 ≤ period
  | _ => True

/-- From `w` to `w'`, with the methods `ms` called, every active timer but
`x?` has stayed as it was, if its handler has not been called. -/
def Spared (x? : Option TId) (w : World) (act : List TId) (w' : World) (act' : List TId)
    (ms : List Method) : Prop :=
  ∀ t ∈ act, x? ≠ some t → w.call t ∉ ms → t ∈ act' ∧ w'.timer t = w.timer t

/-- Code that returns, leaves the timers usable and spares all but `x?`. -/
def Spares {α : Type} (x? : Option TId) (p : Code α) : Prop :=
  ∀ ans w act fr, Usable w act fr → ∃ a w' ms act' fr', p.quiet ans w = .ok (a, w', ms) ∧
    Usable w' act' fr' ∧ Spared x? w act w' act' ms

section Spares

variable {α β : Type} {x? : Option TId} {x : TId} {fuel : Nat}

theorem call_congr {w w' : World} {t : TId} (h : w'.timer t = w.timer t) :
    w'.call t = w.call t := by
  unfold World.call
  rw [h]

theorem Spared.trans {w₁ w₂ w₃ : World} {act₁ act₂ act₃ : List TId} {ms ms' : List Method}
    (h : Spared x? w₁ act₁ w₂ act₂ ms) (h' : Spared x? w₂ act₂ w₃ act₃ ms') :
    Spared x? w₁ act₁ w₃ act₃ (ms ++ ms') := by
  intro t ht hx hnot
  simp only [List.mem_append, not_or] at hnot
  obtain ⟨ht₂, hsame₂⟩ := h t ht hx hnot.1
  have hnot₂ : w₂.call t ∉ ms' := by
    rw [call_congr hsame₂]
    exact hnot.2
  obtain ⟨ht₃, hsame₃⟩ := h' t ht₂ hx hnot₂
  exact ⟨ht₃, hsame₃.trans hsame₂⟩

/-- The active timers are the same, and of their fields only those of `x?`
have changed. -/
theorem spared_fields {w w' : World} {act : List TId} {ms : List Method}
    (h : ∀ t, x? ≠ some t → w'.timer t = w.timer t) : Spared x? w act w' act ms :=
  fun t ht hx _ => ⟨ht, h t hx⟩

theorem spares_pure (a : α) : Spares x? (pure a : Code α) := fun _ w act fr h =>
  ⟨a, w, [], act, fr, rfl, h, spared_fields fun _ _ => rfl⟩

theorem Spares.bind {p : Code α} {f : α → Code β} (hp : Spares x? p)
    (hf : ∀ a, Spares x? (f a)) : Spares x? (p >>= f) := by
  intro ans w act fr h
  obtain ⟨a, w₁, ms₁, act₁, fr₁, hrun₁, h₁, hspared₁⟩ := hp ans w act fr h
  obtain ⟨b, w₂, ms₂, act₂, fr₂, hrun₂, h₂, hspared₂⟩ := hf a ans w₁ act₁ fr₁ h₁
  exact ⟨b, w₂, _, act₂, fr₂, quiet_bind hrun₁ hrun₂, h₂, hspared₁.trans hspared₂⟩

theorem spares_modify {f : World → World}
    (hf : ∀ w act fr, Usable w act fr → Usable (f w) act fr)
    (hsame : ∀ w t, x? ≠ some t → (f w).timer t = w.timer t) :
    Spares x? (Prog.modify f : Code Unit) := fun _ w act fr h =>
  ⟨(), f w, [], act, fr, rfl, hf w act fr h, spared_fields (hsame w)⟩

theorem Usable.clock {w : World} {act fr : List TId} (h : Usable w act fr) (ans : ∀ q, Answer q) :
    Usable (w.clock ans) act fr := by
  refine ⟨⟨h.lists.clock ans, ?_⟩, h.room⟩
  rw [clock_timer]
  exact h.periods

theorem spares_ioNow : Spares x? ioNow := fun ans w act fr h =>
  ⟨_, _, [], act, fr, ioNow_quiet, h.clock ans, spared_fields fun t _ => by rw [clock_timer]⟩

theorem Usable.setNextTime {w : World} {act fr : List TId} (h : Usable w act fr) (x : TId)
    (nextTime : Int) : Usable (w.setNextTime x nextTime) act fr := by
  refine ⟨⟨h.lists.congr rfl rfl rfl, fun y hy => ?_⟩, h.room⟩
  have hper := h.periods y hy
  by_cases hyx : y = x
  · subst hyx
    simpa [World.setNextTime] using hper
  · simpa [World.setNextTime, Function.update_of_ne hyx] using hper

theorem Usable.setPeriod {w : World} {act fr : List TId} (h : Usable w act fr) (x : TId)
    {period : Int} (hp : 0 ≤ period) : Usable (w.setPeriod x period) act fr := by
  refine ⟨⟨h.lists.congr rfl rfl rfl, fun y hy => ?_⟩, h.room⟩
  have hper := h.periods y hy
  by_cases hyx : y = x
  · subst hyx
    simpa [World.setPeriod] using hp
  · simpa [World.setPeriod, Function.update_of_ne hyx] using hper

theorem spares_setNextTime (nextTime : Int) :
    Spares (some x) (Prog.modify (·.setNextTime x nextTime) : Code Unit) :=
  spares_modify (fun _ _ _ h => h.setNextTime x nextTime) fun w t ht =>
    Function.update_of_ne (fun he => ht (by rw [he])) _ _

theorem spares_ioTimerSetTimeout (timeout : Int) : Spares (some x) (ioTimerSetTimeout x timeout) :=
  spares_ioNow.bind fun _ => spares_setNextTime _

theorem spares_ioTimerSetPeriod {period : Int} (hp : 0 ≤ period) :
    Spares (some x) (ioTimerSetPeriod x period) := by
  refine (spares_ioTimerSetTimeout period).bind fun _ => ?_
  exact spares_modify (fun _ _ _ h => h.setPeriod x hp) fun w t ht =>
    Function.update_of_ne (fun he => ht (by rw [he])) _ _

/-- A timer that is freed goes from one list to the other. -/
theorem spares_ioTimerFree (hf : IO_TIMERS_LIMIT < fuel) :
    Spares (some x) (ioTimerFree fuel x) := by
  intro ans w act fr h
  have hroom := h.room
  by_cases hmem : x ∈ act
  · obtain ⟨l, hquiet, hlists⟩ := ioTimerFree_quiet h.lists hmem (by omega : act.length ≤ fuel)
    have hlen := List.length_erase_of_mem hmem
    have hpos := List.length_pos_of_mem hmem
    refine ⟨(), w.free x l, [], act.erase x, x :: fr, hquiet, ⟨⟨hlists, fun y hy => ?_⟩, ?_⟩, ?_⟩
    · exact h.periods y (List.mem_of_mem_erase hy)
    · rw [List.length_cons]
      omega
    · intro t ht hxt _
      have hne : t ≠ x := fun he => hxt (by rw [he])
      exact ⟨(List.mem_erase_of_ne hne).mpr ht, rfl⟩
  · exact ⟨(), w, [], act, fr, ioTimerFree_inactive h.lists hmem (by omega) ans, h,
      spared_fields fun _ _ => rfl⟩

/-- What `io_timer_alloc` returns was free, so it is not `t`. -/
theorem ioTimerAlloc_usable {w : World} {act fr : List TId} (h : Usable w act fr)
    (handler custom : Nat) (ans : ∀ q, Answer q) :
    (ioTimerAlloc handler custom).quiet ans w = .ok (none, w, []) ∨
      ∃ x fr', fr = x :: fr' ∧
        (ioTimerAlloc handler custom).quiet ans w = .ok (some x, w.alloc x handler custom, []) ∧
        Usable (w.alloc x handler custom) (x :: act) fr' := by
  cases fr with
  | nil =>
    have hnone : w.ioFreeTimers = none := h.lists.free
    left
    refine quiet_bind quiet_read ?_
    rw [hnone]
    rfl
  | cons x fr =>
    have hsome : w.ioFreeTimers = some x := h.lists.free.1
    have hroom := h.room
    have hxact : x ∉ act := fun hm => h.lists.disjoint x hm List.mem_cons_self
    right
    refine ⟨x, fr, rfl, ?_, ⟨h.lists.alloc handler custom, fun y hy => ?_⟩, ?_⟩
    · refine quiet_bind quiet_read ?_
      rw [hsome]
      rfl
    · rcases List.mem_cons.mp hy with rfl | hy
      · simp [World.alloc]
      · have hyx : y ≠ x := fun he => hxact (he ▸ hy)
        simpa [World.alloc, Function.update_of_ne hyx] using h.periods y hy
    · simp only [List.length_cons] at hroom ⊢
      omega

/-- `io_timer_alloc`, and what is done with the timer it returns. -/
theorem spares_ioTimerAlloc {α : Type} (handler custom : Nat) {f : Option TId → Code α}
    (hnone : Spares none (f none)) (hsome : ∀ x, Spares (some x) (f (some x))) :
    Spares none (ioTimerAlloc handler custom >>= f) := by
  intro ans w act fr h
  rcases ioTimerAlloc_usable h handler custom ans with hquiet | ⟨x, fr', hfr, hquiet, h'⟩
  · obtain ⟨a, w', ms, act', fr', hrun, hu, hspared⟩ := hnone ans w act fr h
    exact ⟨a, w', ms, act', fr', quiet_bind hquiet hrun, hu, hspared⟩
  · obtain ⟨a, w', ms, act', fr₂, hrun, hu, hspared⟩ := hsome x ans _ _ _ h'
    refine ⟨a, w', ms, act', fr₂, quiet_bind hquiet hrun, hu, fun t ht _ hnot => ?_⟩
    have hne : t ≠ x := fun he => h.lists.disjoint t ht (by simp [hfr, he])
    have hsame : (w.alloc x handler custom).timer t = w.timer t := Function.update_of_ne hne _ _
    obtain ⟨hmem, hkeep⟩ := hspared t (List.mem_cons_of_mem x ht)
      (fun he => hne (Option.some.inj he).symm) (by rwa [call_congr hsame])
    exact ⟨hmem, hkeep.trans hsame⟩

/-- Of the active timers, those that are fired and are one-shots go to the
free list. -/
theorem Served.room {now ret : Int} {w w' : World} {act fr fired : List TId}
    (h : Served now w act fr w' fired ret) :
    (stillActive w fired act).length + ((fired.filter fun t => w.oneShot t).reverse ++ fr).length ≤
      act.length + fr.length := by
  have hsub : (fired.filter fun t => w.oneShot t) ⊆
      act.filter fun t => !decide (¬(t ∈ fired ∧ w.oneShot t)) := by
    intro t ht
    obtain ⟨hfired, hone⟩ := List.mem_filter.mp ht
    simp [((h.fired_iff t).mp hfired).1, hfired, of_decide_eq_true hone]
  have hle := ((h.once.filter _).subperm hsub).length_le
  have hsplit := List.length_eq_length_filter_add (l := act)
    fun t => decide (¬(t ∈ fired ∧ w.oneShot t))
  simp only [stillActive, List.length_append, List.length_reverse]
  omega

theorem Served.usable {now ret : Int} {w w' : World} {act fr fired : List TId}
    (h : Served now w act fr w' fired ret) (hu : Usable w act fr) :
    ∃ act' fr', Usable w' act' fr' ∧ Spared none w act w' act' (fired.map w.call) := by
  refine ⟨_, _, ⟨⟨h.lists, fun t ht => ?_⟩, h.room.trans hu.room⟩, fun t ht _ hnot => ?_⟩
  · have hper := hu.periods t (List.mem_of_mem_filter ht)
    by_cases hfired : t ∉ fired ∨ w.oneShot t
    · rwa [h.unchanged t hfired]
    · obtain ⟨hmem, hone⟩ := not_or.mp hfired
      obtain ⟨y, hy, -⟩ := h.periodic t (not_not.mp hmem) hone
      rwa [hy]
  · have hfired : t ∉ fired := fun hm => hnot (List.mem_map_of_mem hm)
    refine ⟨List.mem_filter.mpr ⟨ht, by simp [hfired]⟩, h.unchanged t (.inl hfired)⟩

/-- The rounds that bring a periodic timer past any time a `long long`
holds. -/
def ENOUGH : Nat := IO_TIMERS_LIMIT + 2 ^ 63

theorem now_lt (w : World) (ans : ∀ q, Answer q) : (w.now ans).toNat < 2 ^ 63 := by
  unfold World.now toLongLong
  omega

theorem ioGetTimeout_usable {w : World} {act fr : List TId} (h : Usable w act fr)
    (hf : ENOUGH ≤ fuel) (ans : ∀ q, Answer q) :
    ∃ ret w' fired, (ioGetTimeout fuel).quiet ans w = .ok (ret, w', fired.map w.call) ∧
      Served (w.now ans) w act fr w' fired ret := by
  have hroom := h.room
  have hnow := now_lt w ans
  have hval : ENOUGH = IO_TIMERS_LIMIT + 2 ^ 63 := rfl
  exact ioGetTimeout_served ans h.toTended (by omega)

/-- Every call spares the timers it is not about. -/
theorem spares_body (hf : ENOUGH ≤ fuel) {c : Call} (hc : c.Legal) :
    Spares c.timer? (body fuel c) := by
  have hlimit : IO_TIMERS_LIMIT < fuel := lt_of_lt_of_le (by decide) hf
  cases c with
  | alloc handler custom =>
    exact spares_ioTimerAlloc handler custom (spares_pure _) fun x => spares_pure _
  | free x => exact (spares_ioTimerFree hlimit).bind fun _ => spares_pure _
  | setTimeout x timeout => exact (spares_ioTimerSetTimeout timeout).bind fun _ => spares_pure _
  | setPeriod x period => exact (spares_ioTimerSetPeriod hc).bind fun _ => spares_pure _
  | stop x => exact (spares_setNextTime (-1)).bind fun _ => spares_pure _
  | onTimeout handler custom timeout =>
    have hon : Spares none (ioOnTimeout handler custom timeout) :=
      spares_ioTimerAlloc handler custom (spares_pure none) fun x =>
        (spares_ioTimerSetTimeout timeout).bind fun _ => spares_pure (some x)
    exact hon.bind fun _ => spares_pure _
  | onPeriod handler custom period =>
    have hon : Spares none (ioOnPeriod handler custom period) :=
      spares_ioTimerAlloc handler custom (spares_pure none) fun x =>
        (spares_ioTimerSetPeriod hc).bind fun _ => spares_pure (some x)
    exact hon.bind fun _ => spares_pure _
  | getTimeout =>
    intro ans w act fr h
    obtain ⟨ret, w', fired, hquiet, hserved⟩ := ioGetTimeout_usable h hf ans
    obtain ⟨act', fr', hu, hspared⟩ := hserved.usable h
    exact ⟨ret, w', _, act', fr', hquiet, hu, hspared⟩

end Spares

/-! ## §2 From the setting of a timer to its handler -/

/-- The call sets the timer `t` for `timeout`, by `io_timer_set_timeout`; the
timers of `io_on_timeout` and `io_on_period` are what they return. -/
def Call.Sets (v : Int) (t : TId) (timeout : Int) : Call → Prop
  | .setTimeout x time | .setPeriod x time => x = t ∧ time = timeout
  | .onTimeout _ _ time | .onPeriod _ _ time => v = address (some t) ∧ time = timeout
  | _ => False

/-- `w'` comes after `w` by calls that neither stop nor free `t`, nor set it
again, and that do not call its handler. -/
inductive Later (fuel : Nat) (t : TId) : World → World → Prop where
  | refl (w : World) : Later fuel t w w
  | call {w w₁ w₂ : World} {c : Call} {ans : ∀ q, Answer q} {v : Int} {ms : List Method} :
      Later fuel t w w₁ → c.Legal → c.timer? ≠ some t →
      (body fuel c).quiet ans w₁ = .ok (v, w₂, ms) → (∀ m ∈ ms, m.timer ≠ t) →
      Later fuel t w w₂

section Deadline

variable {fuel : Nat} {w w₁ w₂ : World} {act fr : List TId} {c : Call} {ans : ∀ q, Answer q}
  {v timeout : Int} {ms : List Method} {t : TId}

theorem Later.kept (hf : ENOUGH ≤ fuel) (h : Later fuel t w w₁) (hw : Usable w act fr)
    (ht : t ∈ act) : ∃ act' fr', Usable w₁ act' fr' ∧ t ∈ act' ∧ w₁.timer t = w.timer t := by
  induction h with
  | refl => exact ⟨act, fr, hw, ht, rfl⟩
  | @call w₁ w₂ c ans v ms _ hc hother hquiet hnot ih =>
    obtain ⟨act₁, fr₁, hw₁, ht₁, hsame₁⟩ := ih
    obtain ⟨_, _, _, act₂, fr₂, hquiet', hw₂, hspared⟩ := spares_body hf hc ans w₁ act₁ fr₁ hw₁
    obtain ⟨-, rfl, rfl⟩ : v = _ ∧ w₂ = _ ∧ ms = _ := by
      simpa using hquiet.symm.trans hquiet'
    obtain ⟨ht₂, hsame₂⟩ := hspared t ht₁ hother fun hm => hnot _ hm rfl
    exact ⟨act₂, fr₂, hw₂, ht₂, hsame₂.trans hsame₁⟩

/-- What `io_timer_set_timeout` does. -/
def World.setTimeout (w : World) (ans : ∀ q, Answer q) (t : TId) (timeout : Int) : World :=
  (w.clock ans).setNextTime t (toLongLong (w.reading ans + timeout))

theorem ioTimerSetTimeout_quiet (w : World) (t : TId) (timeout : Int) :
    (ioTimerSetTimeout t timeout).quiet ans w = .ok ((), w.setTimeout ans t timeout, []) := by
  unfold ioTimerSetTimeout
  exact quiet_bind ioNow_quiet rfl

theorem ioTimerSetPeriod_quiet (w : World) (t : TId) (period : Int) :
    (ioTimerSetPeriod t period).quiet ans w =
      .ok ((), (w.setTimeout ans t period).setPeriod t period, []) := by
  unfold ioTimerSetPeriod
  exact quiet_bind (ioTimerSetTimeout_quiet w t period) rfl

theorem reading_alloc (w : World) (t : TId) (handler custom : Nat) :
    (w.alloc t handler custom).reading ans = w.reading ans := by
  unfold World.reading World.clock World.alloc
  split <;> rfl

theorem Usable.setTimeout (hw : Usable w act fr) (t : TId) (timeout : Int) :
    Usable (w.setTimeout ans t timeout) act fr :=
  (hw.clock ans).setNextTime t _

variable (ans) in
theorem ioOnTimeout_quiet (hw : Usable w act fr) (handler custom : Nat) (timeout : Int) :
    (ioOnTimeout handler custom timeout).quiet ans w = .ok (none, w, []) ∨
      ∃ x fr', (ioOnTimeout handler custom timeout).quiet ans w =
          .ok (some x, (w.alloc x handler custom).setTimeout ans x timeout, []) ∧
        Usable (w.alloc x handler custom) (x :: act) fr' := by
  rcases ioTimerAlloc_usable hw handler custom ans with hnone | ⟨x, fr', -, hsome, hw'⟩
  · exact .inl (quiet_bind hnone rfl)
  · exact .inr ⟨x, fr', quiet_bind hsome (quiet_bind (ioTimerSetTimeout_quiet _ x timeout) rfl),
      hw'⟩

variable (ans) in
theorem ioOnPeriod_quiet (hw : Usable w act fr) (handler custom : Nat) (period : Int) :
    (ioOnPeriod handler custom period).quiet ans w = .ok (none, w, []) ∨
      ∃ x fr', (ioOnPeriod handler custom period).quiet ans w =
          .ok (some x, ((w.alloc x handler custom).setTimeout ans x period).setPeriod x period,
            []) ∧
        Usable (w.alloc x handler custom) (x :: act) fr' := by
  rcases ioTimerAlloc_usable hw handler custom ans with hnone | ⟨x, fr', -, hsome, hw'⟩
  · exact .inl (quiet_bind hnone rfl)
  · exact .inr ⟨x, fr', quiet_bind hsome (quiet_bind (ioTimerSetPeriod_quiet _ x period) rfl), hw'⟩

variable (act) in
/-- A call that allocates the timer and sets it: the one it returns is active
and holds the sum. -/
theorem set_stored_alloc (hset : (body fuel c).quiet ans w = .ok (v, w₁, ms))
    (hv : v = address (some t))
    (hcall : (body fuel c).quiet ans w = .ok (address none, w, []) ∨
      ∃ x fr' w', (body fuel c).quiet ans w = .ok (address (some x), w', []) ∧
        Usable w' (x :: act) fr' ∧
        (w'.timer x).nextTime = toLongLong (w.reading ans + timeout)) :
    ∃ act₁ fr₁, Usable w₁ act₁ fr₁ ∧ t ∈ act₁ ∧
      (w₁.timer t).nextTime = toLongLong (w.reading ans + timeout) := by
  subst hv
  rcases hcall with hnone | ⟨x, fr', w', hsome, hw', hnext⟩
  · obtain ⟨hnull, -⟩ : address (some t) = address none ∧ _ := by simpa using hset.symm.trans hnone
    exact absurd hnull (by simp [address]; omega)
  · obtain ⟨hx, rfl, -⟩ : address (some t) = address (some x) ∧ w₁ = w' ∧ ms = [] := by
      simpa using hset.symm.trans hsome
    obtain rfl : t = x := by simpa [address] using hx
    exact ⟨t :: act, fr', hw', List.mem_cons_self, hnext⟩

/-- A timer that was set is active and holds the sum, as a `long long`. -/
theorem set_stored (hw : Usable w act fr) (hc : c.Legal) (hact : ∀ x ∈ c.timer?, x ∈ act)
    (hset : (body fuel c).quiet ans w = .ok (v, w₁, ms)) (hsets : c.Sets v t timeout) :
    ∃ act₁ fr₁, Usable w₁ act₁ fr₁ ∧ t ∈ act₁ ∧
      (w₁.timer t).nextTime = toLongLong (w.reading ans + timeout) := by
  cases c with
  | setTimeout x time =>
    obtain ⟨rfl, rfl⟩ := hsets
    have hquiet : (body fuel (.setTimeout x time)).quiet ans w =
        .ok (0, w.setTimeout ans x time, []) := quiet_bind (ioTimerSetTimeout_quiet w x time) rfl
    obtain ⟨-, rfl, -⟩ : v = 0 ∧ w₁ = _ ∧ ms = [] := by simpa using hset.symm.trans hquiet
    exact ⟨act, fr, hw.setTimeout x time, hact x rfl, by simp [World.setTimeout, World.setNextTime]⟩
  | setPeriod x time =>
    obtain ⟨rfl, rfl⟩ := hsets
    have hquiet : (body fuel (.setPeriod x time)).quiet ans w =
        .ok (0, (w.setTimeout ans x time).setPeriod x time, []) :=
      quiet_bind (ioTimerSetPeriod_quiet w x time) rfl
    obtain ⟨-, rfl, -⟩ : v = 0 ∧ w₁ = _ ∧ ms = [] := by simpa using hset.symm.trans hquiet
    exact ⟨act, fr, (hw.setTimeout x time).setPeriod x hc, hact x rfl,
      by simp [World.setTimeout, World.setNextTime, World.setPeriod]⟩
  | onTimeout handler custom time =>
    obtain ⟨hv, rfl⟩ := hsets
    refine set_stored_alloc act hset hv ?_
    rcases ioOnTimeout_quiet ans hw handler custom time with hnone | ⟨x, fr', hsome, hw'⟩
    · exact .inl (quiet_bind hnone rfl)
    · exact .inr ⟨x, fr', _, quiet_bind hsome rfl, hw'.setTimeout x time,
        by simp [World.setTimeout, World.setNextTime, reading_alloc]⟩
  | onPeriod handler custom time =>
    obtain ⟨hv, rfl⟩ := hsets
    refine set_stored_alloc act hset hv ?_
    rcases ioOnPeriod_quiet ans hw handler custom time with hnone | ⟨x, fr', hsome, hw'⟩
    · exact .inl (quiet_bind hnone rfl)
    · exact .inr ⟨x, fr', _, quiet_bind hsome rfl, (hw'.setTimeout x time).setPeriod x hc,
        by simp [World.setTimeout, World.setNextTime, World.setPeriod, reading_alloc]⟩
  | alloc => exact absurd hsets (by simp [Call.Sets])
  | free => exact absurd hsets (by simp [Call.Sets])
  | stop => exact absurd hsets (by simp [Call.Sets])
  | getTimeout => exact absurd hsets (by simp [Call.Sets])

/-- The stored sum is due at a clock value past the sum when it is not 0 and
that value is one of a `long long`. -/
theorem stored_due_iff {now u : Nat} (h0 : 0 ≤ timeout) (hu : u < 2 ^ 64)
    (hpast : now + timeout ≤ u) :
    0 < toLongLong (now + timeout) ∧ toLongLong (now + timeout) ≤ toLongLong u ↔
      0 < now + timeout ∧ u < 2 ^ 63 := by
  unfold toLongLong
  omega

theorem reading_lt (w : World) : w.reading ans < 2 ^ 64 := by
  unfold World.reading toUnsignedLong
  omega

theorem mem_calls {fired : List TId} : w.call t ∈ fired.map w.call ↔ t ∈ fired := by
  refine ⟨fun h => ?_, List.mem_map_of_mem⟩
  obtain ⟨x, hx, he⟩ := List.mem_map.mp h
  obtain rfl : x = t := congrArg Method.timer he
  exact hx

/-- The pool with a timer that was set for 5, at 0. -/
def setFor5 : World := (World.init.alloc 0 1 2).setTimeout (fun _ => (1000 : Nat)) 0 5

end Deadline

end Nanio.Timers
