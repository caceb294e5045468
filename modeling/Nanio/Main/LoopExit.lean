/-
Nanio.Main.LoopExit — the loop of `main` ends when there is nothing left to
wait for.

A pass goes round without `poll` only when the timeout is negative, no
descriptor was to be polled, and a timer is active. That is a pass that does
nothing, and the next one does the same. It cannot happen while an active timer
is armed or a descriptor is still to be polled (`Settled`, `Covered`); a timer
that is allocated and never armed, or stopped, is active and makes the loop
spin (`mainPass_spins`).
-/
import Nanio.Main.MainLoop

namespace Nanio.Main

open Nanio.Lib

abbrev MainContract := Contract World Query Answer Method Fault Call
abbrev Log := List (Event World Method Call)

/-! ## §1 The conditions -/

/-- A timer that is active will be due. -/
def Armed (w : Timers.World) : Prop :=
  ∃ t, OnList w.next w.ioActiveTimers t ∧ 0 < (w.timer t).nextTime

/-- A descriptor from `pos` on has something to be polled for. -/
def Polled (w : Ds.World) (pos : Option Ds.DId) : Prop :=
  ∃ d v, OnList w.next pos d ∧ w.mem d = some v ∧ v.events ≠ 0

/-- The loop has nothing to wait for, or will be held by `poll`. -/
def Covered (w : World) (pos : Option Ds.DId) : Prop :=
  w.timers.ioActiveTimers = none ∨ Polled w.ds pos

def Settled (w : World) : Prop := Armed w.timers ∨ Covered w w.ds.ioDs

/-- No armed timer is further ahead of `now` than an `int` can say. -/
def Near (w : Timers.World) (now : Int) : Prop :=
  ∀ t, OnList w.next w.ioActiveTimers t → 0 < (w.timer t).nextTime →
    (w.timer t).nextTime - now < 2 ^ 31

/-- What `io_now` returns when the clock shows `u`. -/
def nowAt (w : Timers.World) (u : Nat) : Int := toLongLong (toUnsignedLong (u - w.zeroTime))

/-- The loop makes a pass, and a handler returns, only in a settled state;
an `idle` method that returns with nothing to poll so far and no timer to
wait for leaves no timer active, or a descriptor to be polled from its own on.
The clock is not behind. -/
def mainOk (v : View World Method Call) : Choice Query Answer Call → Prop
  | .enter .pass => v.pending = [] ∧ Settled v.st
  | .back _ =>
    match v.returning with
    | some (.timers _) => Settled v.st
    | some (.ds (.idle d taken)) => taken ≠ [] ∨ 0 ≤ v.st.timeout ∨ Covered v.st (some d)
    | _ => True
  | .answer (.timers .uptime) u =>
    match v.running with
    | some .pass => Near v.st.timers (nowAt v.st.timers u)
    | _ => True
  | _ => True

/-- What is recorded only grows, and what the loop knows is its own. -/
structure Kept (w w' : World) : Prop where
  polls : w.polls ≤ w'.polls
  fired : w.fired ≤ w'.fired
  timeout : w'.timeout = w.timeout
  asked : w'.asked = w.asked

/-- A pass that goes round has called `poll`, or it has fired a timer and
found another one armed. -/
def PassFine : Event World Method Call → Prop
  | .leave .pass entry exit v => v ≠ 0 →
    entry.polls < exit.polls ∨ (entry.fired < exit.fired ∧ Armed exit.asked)
  | _ => True

def mainContract : MainContract where
  ok := mainOk
  Inv ps w l := (∀ p ∈ ps, Kept p.st w) ∧ ∀ e ∈ l, PassFine e
  mayFault _ := True

/-! ## §2 What any code keeps -/

theorem Kept.refl (w : World) : Kept w w := ⟨Nat.le_refl _, Nat.le_refl _, rfl, rfl⟩

theorem Kept.trans {w₁ w₂ w₃ : World} (h : Kept w₁ w₂) (h' : Kept w₂ w₃) : Kept w₁ w₃ :=
  ⟨h.polls.trans h'.polls, h.fired.trans h'.fired, h'.timeout.trans h.timeout,
    h'.asked.trans h.asked⟩

theorem inv_kept {ps : List (Pending World Method Call)} {w w' : World} {l : Log}
    (h : mainContract.Inv ps w l) (hk : Kept w w') : mainContract.Inv ps w' l :=
  ⟨fun p hp => (h.1 p hp).trans hk, h.2⟩

theorem inv_call {ps : List (Pending World Method Call)} {w : World} {l : Log}
    (h : mainContract.Inv ps w l) (m : Method) :
    mainContract.Inv (⟨m, w, l ++ [.call m w]⟩ :: ps) w (l ++ [.call m w]) := by
  refine ⟨fun p hp => ?_, fun e he => ?_⟩
  · rcases List.mem_cons.mp hp with rfl | hp
    · exact Kept.refl w
    · exact h.1 p hp
  · rcases List.mem_append.mp he with he | he
    · exact h.2 e he
    · obtain rfl := List.mem_singleton.mp he
      trivial

theorem inv_back {p : Pending World Method Call} {ps : List (Pending World Method Call)}
    {w : World} {l : Log} (h : mainContract.Inv (p :: ps) w l) :
    mainContract.Inv ps w l ∧ Kept p.st w :=
  ⟨⟨fun q hq => h.1 q (List.mem_cons_of_mem p hq), h.2⟩, h.1 p List.mem_cons_self⟩

theorem keeps_timersPart : Keeps timersPart mainContract Kept where
  refl := Kept.refl
  trans _ _ _ h h' := h.trans h'
  set _ _ := ⟨Nat.le_refl _, Nat.le_refl _, rfl, rfl⟩
  answered _ _ w := Kept.refl w
  called _ _ := ⟨Nat.le_refl _, Nat.le_succ _, rfl, rfl⟩
  inv _ _ _ _ h hk := inv_kept h hk
  enter m _ _ _ h := inv_call h m
  leave _ _ _ _ h := inv_back h
  mayFault _ := trivial

theorem keeps_dsPart : Keeps dsPart mainContract Kept where
  refl := Kept.refl
  trans _ _ _ h h' := h.trans h'
  set _ _ := ⟨Nat.le_refl _, Nat.le_refl _, rfl, rfl⟩
  answered _ _ _ := ⟨Nat.le_succ _, Nat.le_refl _, rfl, rfl⟩
  called _ w := Kept.refl w
  inv _ _ _ _ h hk := inv_kept h hk
  enter m _ _ _ h := inv_call h m
  leave _ _ _ _ h := inv_back h
  mayFault _ := trivial

/-! ## §3 The nearest timer -/

/-- No nearest timer: none on the list is armed. -/
theorem nearest_none {w : Timers.World} {fuel : Nat} {p : Option Timers.TId}
    (h : Timers.ioGetNearestTimer w fuel p = some none) {t : Timers.TId} (ht : OnList w.next p t) :
    ¬ 0 < (w.timer t).nextTime := by
  induction ht generalizing fuel with
  | here t =>
    intro harmed
    cases fuel with
    | zero => cases h
    | succ fuel =>
      rw [Timers.ioGetNearestTimer, if_pos harmed] at h
      simp at h
  | @later a b hb ih =>
    cases fuel with
    | zero => cases h
    | succ fuel =>
      rw [Timers.ioGetNearestTimer] at h
      split at h
      · simp at h
      · exact ih h

/-- The second loop returns an armed timer of the list, or the one it has. -/
theorem nearestLoop_some {w : Timers.World} {fuel : Nat} {a t : Timers.TId} {p : Option Timers.TId}
    (h : Timers.nearestLoop w fuel a p = some t) (ha : 0 < (w.timer a).nextTime) :
    (t = a ∨ OnList w.next p t) ∧ 0 < (w.timer t).nextTime := by
  induction fuel generalizing a p with
  | zero =>
    cases p with
    | none =>
      obtain rfl : a = t := by simpa [Timers.nearestLoop] using h
      exact ⟨.inl rfl, ha⟩
    | some b => simp [Timers.nearestLoop] at h
  | succ fuel ih =>
    cases p with
    | none =>
      obtain rfl : a = t := by simpa [Timers.nearestLoop] using h
      exact ⟨.inl rfl, ha⟩
    | some b =>
      rw [Timers.nearestLoop] at h
      split at h
      · next hb =>
        obtain ⟨hwhich, hpos⟩ := ih h hb.1
        rcases hwhich with rfl | hlater
        · exact ⟨.inr (.here t), hpos⟩
        · exact ⟨.inr (.later hlater), hpos⟩
      · obtain ⟨hwhich, hpos⟩ := ih h ha
        exact ⟨hwhich.imp_right .later, hpos⟩

/-- A nearest timer is an armed one of the list. -/
theorem nearest_some {w : Timers.World} {fuel : Nat} {p : Option Timers.TId} {t : Timers.TId}
    (h : Timers.ioGetNearestTimer w fuel p = some (some t)) :
    OnList w.next p t ∧ 0 < (w.timer t).nextTime := by
  induction fuel generalizing p with
  | zero => cases p <;> simp [Timers.ioGetNearestTimer] at h
  | succ fuel ih =>
    cases p with
    | none => simp [Timers.ioGetNearestTimer] at h
    | some a =>
      rw [Timers.ioGetNearestTimer] at h
      split at h
      · next ha =>
        obtain ⟨r, hr, hrt⟩ := Option.map_eq_some_iff.mp h
        obtain rfl := Option.some.inj hrt
        obtain ⟨hwhich, hpos⟩ := nearestLoop_some hr ha
        exact ⟨onList_some.mpr hwhich, hpos⟩
      · obtain ⟨hlater, hpos⟩ := ih h
        exact ⟨.later hlater, hpos⟩

/-! ## §4 The two halves of a pass -/

section Pass

variable {w₀ w : World} {l : Log} {fuel : Nat}

/-- What is known once `io_get_timeout` has returned. -/
def After (w₀ : World) (timeout : Int) (w : World) : Prop :=
  0 ≤ timeout ∨ Covered w w.ds.ioDs ∨ (w₀.fired < w.fired ∧ Armed w.timers)

/-- One timer is due: its handler is called, and returns into a settled
state. -/
theorem main_fire {now : Int} {t : Timers.TId} {rest : Timers.Code Int}
    {post : Int → World → Log → Prop} (hinv : mainContract.Inv [] w l) (hkept : Kept w₀ w)
    (hrest : ∀ w' l', mainContract.Inv [] w' l' → Kept w₀ w' → w₀.fired < w'.fired → Settled w' →
      (rest.embed timersPart).wp mainContract .pass [] post w' l') :
    ((Timers.rearm fuel now t >>= fun _ => Timers.callHandler t >>= fun _ => rest).embed
      timersPart).wp mainContract .pass [] post w l := by
  rw [wp_embed_bind]
  refine wp_mono _ _ _ (fun _ w₁ l₁ h₁ => ?_) _ w l (keeps_timersPart.wp_embed _ hinv hkept)
  obtain ⟨hinv₁, hkept₁⟩ := h₁
  unfold Timers.callHandler
  simp only [wp_embed_bind, wp_embed_read, wp_embed_invoke, wp_embed_pure]
  have hcalled : Kept w₁ { w₁ with fired := w₁.fired + 1 } :=
    ⟨Nat.le_refl _, Nat.le_succ _, rfl, rfl⟩
  refine ⟨inv_call (inv_kept hinv₁ hcalled) _, fun r w₂ l₂ hi hok => ?_⟩
  obtain ⟨hinv₂, hback⟩ := inv_back hi
  have hmore : w₁.fired + 1 ≤ w₂.fired := hback.fired
  have hold : w₀.fired ≤ w₁.fired := hkept₁.fired
  exact hrest w₂ l₂ hinv₂ (hkept₁.trans (hcalled.trans hback)) (by omega) hok

/-- By induction on the rounds. Until a timer has fired the clock is as it
was read. -/
theorem main_getTimeoutLoop {now : Int} (n : Nat) (hinv : mainContract.Inv [] w l)
    (hkept : Kept w₀ w) (hset : Settled w) (hnear : w₀.fired < w.fired ∨ Near w.timers now) :
    ((Timers.getTimeoutLoop fuel now n).embed timersPart).wp mainContract .pass []
      (fun timeout w' l' => mainContract.Inv [] w' l' ∧ Kept w₀ w' ∧ After w₀ timeout w') w l := by
  induction n generalizing w l with
  | zero => trivial
  | succ n ih =>
    unfold Timers.getTimeoutLoop
    simp only [wp_embed_bind, wp_embed_read]
    have hget : timersPart.get w = w.timers := rfl
    rw [hget]
    cases hnearest : Timers.ioGetNearestTimer w.timers fuel w.timers.ioActiveTimers with
    | none => trivial
    | some found =>
      cases found with
      | none =>
        rcases hset with ⟨t, ht, harmed⟩ | hcovered
        · exact absurd harmed (nearest_none hnearest ht)
        · exact ⟨hinv, hkept, .inr (.inl hcovered)⟩
      | some t =>
        obtain ⟨ht, harmed⟩ := nearest_some hnearest
        simp only
        split
        · next hlater =>
          refine ⟨hinv, hkept, ?_⟩
          rcases hnear with hfired | hnear
          · exact .inr (.inr ⟨hfired, t, ht, harmed⟩)
          · have hdiff := hnear t ht harmed
            have hexact := toInt_of_lt (n := (w.timers.timer t).nextTime - now) (by omega) hdiff
            exact .inl (by rw [hexact]; omega)
        · exact main_fire hinv hkept fun w' l' hinv' hkept' hfired hset' =>
            ih hinv' hkept' hset' (.inl hfired)

/-- `io_get_timeout` from a settled state. -/
theorem main_ioGetTimeout (hinv : mainContract.Inv [] w l) (hset : Settled w) :
    ((Timers.ioGetTimeout fuel).embed timersPart).wp mainContract .pass []
      (fun timeout w' l' => mainContract.Inv [] w' l' ∧ Kept w w' ∧ After w timeout w') w l := by
  have hloop : ∀ w' : World, Kept w w' → Settled w' → ∀ u : Nat,
      Near w'.timers (nowAt w'.timers u) →
      ((Timers.getTimeoutLoop fuel (nowAt w'.timers u) fuel).embed timersPart).wp mainContract
        .pass [] (fun timeout w'' l' => mainContract.Inv [] w'' l' ∧ Kept w w'' ∧
          After w timeout w'') w' l :=
    fun w' hkept hset' u hnear =>
      main_getTimeoutLoop fuel (inv_kept hinv hkept) hkept hset' (.inr hnear)
  unfold Timers.ioGetTimeout Timers.ioNow Timers.startClock
  simp only [wp_embed_bind, wp_embed_read]
  split
  · simp only [wp_embed_bind, wp_embed_query, wp_embed_modify, wp_embed_pure]
    exact fun z _ u hok => hloop { w with timers := { w.timers with zeroTime := z } }
      ⟨Nat.le_refl _, Nat.le_refl _, rfl, rfl⟩ hset u hok
  · simp only [wp_embed_query, wp_embed_pure]
    exact fun u hok => hloop w (Kept.refl w) hset u hok

/-- What holds on the walk over the descriptors, at `pos` with `taken` in
the arrays, while `X` does not. -/
def Held (X : Prop) (w : World) (pos : Option Ds.DId) (taken : List Ds.PollFd) : Prop :=
  X ∨ taken ≠ [] ∨ 0 ≤ w.timeout ∨ Covered w pos

/-- A descriptor that is not to be polled is not the one that holds the loop. -/
theorem Held.next {X : Prop} {d : Ds.DId} {taken : List Ds.PollFd} {v : Ds.IoD}
    (h : Held X w (some d) taken) (hv : w.ds.mem d = some v) (hzero : v.events = 0) :
    Held X w (w.ds.next d) taken := by
  rcases h with hX | htaken | htime | hnone | ⟨d', v', hon, hv', hne⟩
  · exact .inl hX
  · exact .inr (.inl htaken)
  · exact .inr (.inr (.inl htime))
  · exact .inr (.inr (.inr (.inl hnone)))
  · rcases onList_some.mp hon with rfl | hlater
    · rw [hv] at hv'
      cases hv'
      exact absurd hzero hne
    · exact .inr (.inr (.inr (.inr ⟨d', v', hlater, hv', hne⟩)))

theorem wp_embed_readD {d : Ds.DId} {post : Ds.IoD → World → Log → Prop}
    (h : ∀ v, w.ds.mem d = some v → post v w l) :
    ((Ds.readD d).embed dsPart).wp mainContract .pass [] post w l := by
  unfold Ds.readD
  simp only [wp_embed_bind, wp_embed_read]
  have hget : dsPart.get w = w.ds := rfl
  rw [hget]
  cases hv : w.ds.mem d with
  | none => trivial
  | some v => exact h v hv

/-- An `idle` method, if there is one. -/
theorem main_callIdle {X : Prop} {d : Ds.DId} {taken : List Ds.PollFd}
    (hinv : mainContract.Inv [] w l) (hkept : Kept w₀ w) (hheld : Held X w (some d) taken) :
    ((Ds.callIdle d taken).embed dsPart).wp mainContract .pass []
      (fun _ w' l' => mainContract.Inv [] w' l' ∧ Kept w₀ w' ∧ Held X w' (some d) taken) w l := by
  unfold Ds.callIdle
  rw [wp_embed_bind]
  refine wp_embed_readD fun v _ => ?_
  split
  · simp only [wp_embed_bind, wp_embed_invoke, wp_embed_pure]
    refine ⟨inv_call hinv _, fun r w' l' hi hok => ?_⟩
    obtain ⟨hinv', hback⟩ := inv_back hi
    exact ⟨hinv', hkept.trans hback, .inr hok⟩
  · exact ⟨hinv, hkept, hheld⟩

/-- By induction on the steps of the walk. -/
theorem main_idleLoop {X : Prop} {len : Nat} (n : Nat) {pos : Option Ds.DId}
    {taken : List Ds.PollFd} (hinv : mainContract.Inv [] w l) (hkept : Kept w₀ w)
    (hheld : Held X w pos taken) :
    ((Ds.idleLoop len n pos taken).embed dsPart).wp mainContract .pass []
      (fun taken w' l' => mainContract.Inv [] w' l' ∧ Kept w₀ w' ∧ Held X w' none taken) w l := by
  induction n generalizing w l pos taken with
  | zero =>
    cases pos with
    | none => exact ⟨hinv, hkept, hheld⟩
    | some d => trivial
  | succ n ih =>
    cases pos with
    | none => exact ⟨hinv, hkept, hheld⟩
    | some d =>
      rw [Ds.idleLoop, wp_embed_bind]
      refine wp_mono _ _ _ (fun _ w₁ l₁ h₁ => ?_) _ w l (main_callIdle hinv hkept hheld)
      obtain ⟨hinv₁, hkept₁, hheld₁⟩ := h₁
      rw [wp_embed_bind]
      refine wp_embed_readD fun v hv => ?_
      simp only [wp_embed_bind, wp_embed_read]
      split
      · next hzero => exact ih hinv₁ hkept₁ (hheld₁.next hv hzero)
      · split
        · trivial
        · exact ih hinv₁ hkept₁ (.inr (.inl (by simp)))

/-- Without `poll` the loop is not held, and no timer is active. -/
theorem Held.not_again {X : Prop} (h : Held X w none []) (htime : w.timeout < 0)
    (hagain : loopAgain 0 w = true) : X := by
  rcases h with hX | htaken | hlate | hnone | ⟨d, v, hon, -⟩
  · exact hX
  · exact absurd rfl htaken
  · omega
  · simp [loopAgain, Timers.ioHasActiveTimers, hnone] at hagain
  · exact absurd hon not_onList_none

/-- `io_ds_poll` and the condition of the loop. -/
theorem main_ioDsPoll {X : Prop} (hinv : mainContract.Inv [] w l)
    (hheld : Held X w w.ds.ioDs []) :
    ((Ds.ioDsPoll w.timeout).embed dsPart).wp mainContract .pass []
      (fun ret w' l' => mainContract.Inv [] w' l' ∧ Kept w w' ∧
        (loopAgain ret w' = true → w.polls < w'.polls ∨ X)) w l := by
  unfold Ds.ioDsPoll
  simp only [wp_embed_bind, wp_embed_read]
  refine wp_mono _ _ _ (fun taken w₁ l₁ h₁ => ?_) _ w l
    (main_idleLoop _ hinv (Kept.refl w) hheld)
  obtain ⟨hinv₁, hkept₁, hheld₁⟩ := h₁
  split
  · next hskip =>
    obtain ⟨htime, rfl⟩ := hskip
    rw [← hkept₁.timeout] at htime
    exact ⟨hinv₁, hkept₁, fun hagain => .inr (hheld₁.not_again htime hagain)⟩
  · -- `poll` is asked, and whatever comes after it only adds to the record
    simp only [wp_embed_bind, wp_embed_query]
    intro a _
    have hanswered := keeps_dsPart.answered (.poll taken w.timeout) a w₁
    have hinv₂ := inv_kept hinv₁ hanswered
    refine wp_mono _ _ _ (fun ret w₃ l₃ h₃ => ?_) _ _ l₁
      (keeps_dsPart.wp_embed _ hinv₂ (Kept.refl _))
    obtain ⟨hinv₃, hkept₃⟩ := h₃
    have hpolls : w.polls < w₃.polls :=
      Nat.lt_of_lt_of_le (Nat.lt_succ_of_le hkept₁.polls) hkept₃.polls
    exact ⟨hinv₃, hkept₁.trans (hanswered.trans hkept₃), fun _ => .inl hpolls⟩

/-- A pass is fine in the record. -/
theorem main_pass (hinv : mainContract.Inv [] w l) (hset : Settled w) :
    (mainPass fuel).wp mainContract .pass [] (mainContract.Post .pass w []) w l := by
  unfold mainPass
  rw [wp_bind]
  refine wp_mono _ _ _ (fun timeout w₁ l₁ h₁ => ?_) _ w l (main_ioGetTimeout hinv hset)
  obtain ⟨hinv₁, hkept₁, hafter⟩ := h₁
  have hinv₂ : mainContract.Inv [] (w₁.askedFor timeout) l₁ :=
    ⟨fun _ hp => (List.not_mem_nil hp).elim, hinv₁.2⟩
  have hheld : Held (w.fired < w₁.fired ∧ Armed w₁.timers) (w₁.askedFor timeout) w₁.ds.ioDs [] := by
    rcases hafter with htime | hcovered | hfired
    · exact .inr (.inr (.inl htime))
    · exact .inr (.inr (.inr hcovered))
    · exact .inl hfired
  simp only [wp_bind, wp_modify]
  refine wp_mono _ _ _ (fun ret w₃ l₃ h₃ => ?_) _ _ l₁ (main_ioDsPoll hinv₂ hheld)
  obtain ⟨hinv₃, hkept₃, hagain⟩ := h₃
  simp only [wp_read, wp_pure]
  refine ⟨fun _ hp => (List.not_mem_nil hp).elim, fun e he => ?_⟩
  rcases List.mem_append.mp he with he | he
  · exact hinv₃.2 e he
  · obtain rfl := List.mem_singleton.mp he
    intro hv
    have hloop : loopAgain ret w₃ = true := by
      cases hc : loopAgain ret w₃ with
      | true => rfl
      | false => simp [hc] at hv
    have hpolls : w.polls ≤ w₁.polls := hkept₁.polls
    have hfired : w₁.fired ≤ w₃.fired := hkept₃.fired
    have hasked : w₃.asked = w₁.timers := hkept₃.asked
    rcases hagain hloop with hpoll | ⟨hfire, harmed⟩
    · exact .inl (Nat.lt_of_le_of_lt hpolls hpoll)
    · exact .inr ⟨Nat.lt_of_lt_of_le hfire hfired, hasked ▸ harmed⟩

end Pass

/-! ## §5 Every run -/

theorem main_body (fuel : Nat) : mainContract.Body (body fuel) := by
  intro ps c w l hinv hok
  have hleave : ∀ c' v w' l', c' ≠ Call.pass → mainContract.Inv ps w' l' →
      mainContract.Post c' w ps v w' l' := by
    intro c' v w' l' hne h
    refine ⟨h.1, fun e he => ?_⟩
    rcases List.mem_append.mp he with he | he
    · exact h.2 e he
    · obtain rfl := List.mem_singleton.mp he
      cases c' with
      | pass => exact absurd rfl hne
      | timers _ => trivial
      | ds _ => trivial
  cases c with
  | timers c =>
    refine wp_mono _ _ _ (fun v w' l' h => ?_) _ w l
      (keeps_timersPart.wp_embed _ hinv (Kept.refl w))
    exact hleave _ v w' l' (by simp) h.1
  | ds c =>
    refine wp_mono _ _ _ (fun v w' l' h => ?_) _ w l (keeps_dsPart.wp_embed _ hinv (Kept.refl w))
    exact hleave _ v w' l' (by simp) h.1
  | pass =>
    obtain ⟨hps, hset⟩ := hok
    obtain rfl : ps = [] := hps
    exact main_pass hinv hset

/-- **The loop never spins.** In a run whose steps meet the condition, a
pass in which `io_get_timeout` returned -1 with no timer armed and `poll` was
not called, as no descriptor was to be polled, ends the loop; and a pass
that goes round has called `poll` or fired a timer. -/
theorem mainLoop_exits (fuel : Nat) (choices : List (Choice Query Answer Call))
    (hm : Meets (body fuel) mainOk (.start .init) choices)
    (cfg : Config World Query Answer Method Fault Call)
    (hrun : run (body fuel) (.start .init) choices = some cfg) (hctl : cfg.ctl = .owner)
    (entry exit : World) (v : Int) (hpass : .leave .pass entry exit v ∈ cfg.log) :
    (exit.timeout = -1 → ¬ Armed exit.asked → exit.polls = entry.polls → v = 0) ∧
      (v ≠ 0 → entry.polls < exit.polls ∨ entry.fired < exit.fired) := by
  have h0 : mainContract.Inv [] World.init [] :=
    ⟨fun _ hp => (List.not_mem_nil hp).elim, fun _ he => (List.not_mem_nil he).elim⟩
  have hfine := (run_inv mainContract (main_body fuel) h0 hm hrun hctl).2 _ hpass
  constructor
  · intro _ harmed hpolls
    by_contra hv
    rcases hfine hv with hpoll | ⟨-, harmed'⟩
    · omega
    · exact harmed harmed'
  · intro hv
    exact (hfine hv).imp_right And.left

/-- A one-shot timer, and a pass that waits for it in `poll`. -/
def oneShot : List (Choice Query Answer Call) :=
  [.enter (.timers (.onTimeout 1 2 5)), .answer (.timers .zeroTime) (100 : Nat),
    .answer (.timers .uptime) (100 : Nat), .enter .pass, .answer (.timers .uptime) (100 : Nat),
    .answer (.ds (.poll [] 5)) (.ok (0, []))]

theorem mainLoop_exits_oneShot :
    ∃ cfg entry exit, run (body 20) (.start .init) oneShot = some cfg ∧
      .leave .pass entry exit 1 ∈ cfg.log ∧
      ((1 : Int) ≠ 0 → entry.polls < exit.polls ∨ entry.fired < exit.fired) := by
  have hm : Meets (body 20) mainOk (.start .init) oneShot := by
    refine meets_cons trivial rfl (meets_cons trivial rfl (meets_cons trivial rfl ?_))
    refine meets_cons ⟨rfl, .inl ⟨0, .here 0, by decide⟩⟩ rfl ?_
    refine meets_cons ?_ rfl (meets_cons trivial rfl meets_nil)
    intro t ht _
    rcases onList_some.mp ht with rfl | ht
    · decide
    · exact absurd ht not_onList_none
  have h := mainLoop_exits 20 oneShot hm _ rfl rfl _ _ 1 (.tail _ (.head _))
  exact ⟨_, _, _, rfl, .tail _ (.head _), h.2⟩

/-- A timer that is allocated and never armed, and a pass. -/
def neverArmed : List (Choice Query Answer Call) :=
  [.enter (.timers (.alloc 1 2)), .enter .pass, .answer (.timers .zeroTime) (100 : Nat),
    .answer (.timers .uptime) (100 : Nat)]

/-- The loop goes round, with nothing to wait for, and nothing done. -/
theorem mainPass_spins :
    ∃ cfg entry exit, run (body 20) (.start .init) neverArmed = some cfg ∧ cfg.ctl = .owner ∧
      .leave .pass entry exit 1 ∈ cfg.log ∧ exit.timeout = -1 ∧ ¬ Armed exit.asked ∧
      ¬ Polled exit.ds exit.ds.ioDs ∧ exit.polls = entry.polls ∧ exit.fired = entry.fired := by
  refine ⟨_, _, _, rfl, rfl, .tail _ (.head _), rfl, ?_, ?_, rfl, rfl⟩
  · rintro ⟨t, ht, harmed⟩
    rcases onList_some.mp ht with rfl | ht
    · exact absurd harmed (by decide)
    · exact not_onList_none ht
  · rintro ⟨d, v, hon, -⟩
    exact not_onList_none hon

end Nanio.Main
