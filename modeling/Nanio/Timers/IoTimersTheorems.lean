/-
Nanio.Timers.IoTimersTheorems — what one call of `io_get_timeout` does to
the timers, when the handlers leave them alone.

§1 and §2 are the two lists and the search for the nearest timer. §3 is the
catch-up of a periodic timer, §4 one round of the firing loop (`Fired`), §5
the whole loop: an induction on its fuel, each round taking the nearest of
the timers that are due, so that the calls come in the order of the old
times and no timer is due twice.
-/
import Nanio.Timers.IoTimers
import Mathlib.Data.List.Perm.Subperm
import Mathlib.Tactic.Linarith
import Mathlib.Tactic.Ring

namespace Nanio.Timers

open Nanio.Lib

/-! ## §1 The two lists -/

/-- The active and the free timers, in the order of their lists. -/
structure Lists (w : World) (act fr : List TId) : Prop where
  active : Chain w.next w.ioActiveTimers act
  free : Chain w.next w.ioFreeTimers fr
  disjoint : ∀ t ∈ act, t ∉ fr

theorem lists_init : Lists .init [] (List.range IO_TIMERS_LIMIT) where
  active := rfl
  free := by simp [IO_TIMERS_LIMIT, List.range, List.range.loop, World.init]
  disjoint := by simp

/-- `io_timer_alloc` moves the first free timer to the front. -/
theorem Lists.alloc {w : World} {act fr : List TId} {t : TId}
    (h : Lists w act (t :: fr)) (handler custom : Nat) :
    Lists (w.alloc t handler custom) (t :: act) fr := by
  have ht : t ∉ act := fun hm => h.disjoint t hm (by simp)
  have hnd := List.nodup_cons.mp h.free.nodup
  refine ⟨h.active.push ht, (chain_update w.next t _ fr _ hnd.1).mpr h.free.2, ?_⟩
  intro x hx hfree
  rcases List.mem_cons.mp hx with rfl | hx
  · exact hnd.1 hfree
  · exact h.disjoint x hx (List.mem_cons_of_mem t hfree)

/-- `io_timer_free` moves an active timer to the front of the free list. -/
theorem Lists.release {w : World} {act fr : List TId} (h : Lists w act fr) {t : TId}
    (ht : t ∈ act) {fuel : Nat} (hf : act.length ≤ fuel) :
    ∃ l, findLink w.ioActiveTimers w.next t fuel .head = .found l ∧
      Lists (w.free t l) (act.erase t) (t :: fr) := by
  obtain ⟨l, hfind, hchain, hframe⟩ := unlink_chain h.active ht hf
  have hnot : t ∉ act.erase t := h.active.nodup.not_mem_erase
  have hfree : t ∉ fr := h.disjoint t ht
  have hsame : ∀ x ∈ fr,
      (l.set w.ioActiveTimers w.next (w.next t)).2 x = w.next x := fun x hx =>
    hframe x fun hm => h.disjoint x (List.mem_of_mem_erase hm) hx
  have hold : Chain (l.set w.ioActiveTimers w.next (w.next t)).2 w.ioFreeTimers fr :=
    (seg_congr hsame _ _).mpr h.free
  refine ⟨l, hfind, (chain_update _ t _ _ _ hnot).mpr hchain, hold.push hfree, fun x hx hm => ?_⟩
  rcases List.mem_cons.mp hm with rfl | hm
  · exact hnot hx
  · exact h.disjoint x (List.mem_of_mem_erase hx) hm

/-- Only the links matter to the lists. -/
theorem Lists.congr {w w' : World} {act fr : List TId} (h : Lists w act fr)
    (hnext : w'.next = w.next) (hact : w'.ioActiveTimers = w.ioActiveTimers)
    (hfree : w'.ioFreeTimers = w.ioFreeTimers) : Lists w' act fr := by
  refine ⟨?_, ?_, h.disjoint⟩
  · rw [hnext, hact]
    exact h.active
  · rw [hnext, hfree]
    exact h.free

/-! ## §2 The nearest timer -/

abbrev World.armed (w : World) (t : TId) : Prop := 0 < (w.timer t).nextTime

structure Nearest (w : World) (list : List TId) (t : TId) : Prop where
  mem : t ∈ list
  armed : w.armed t
  least : ∀ x ∈ list, w.armed x → (w.timer t).nextTime ≤ (w.timer x).nextTime

/-- One round of the second loop keeps the nearer of the two. -/
theorem nearer {w : World} {a t b : TId} (ha : w.armed a)
    (hb : (if 0 < (w.timer t).nextTime ∧ (w.timer t).nextTime < (w.timer a).nextTime then t
      else a) = b) :
    w.armed b ∧ (b = t ∨ b = a) ∧ (w.timer b).nextTime ≤ (w.timer a).nextTime ∧
      (w.armed t → (w.timer b).nextTime ≤ (w.timer t).nextTime) := by
  by_cases hc : 0 < (w.timer t).nextTime ∧ (w.timer t).nextTime < (w.timer a).nextTime
  · rw [if_pos hc] at hb
    subst hb
    exact ⟨hc.1, .inl rfl, hc.2.le, fun _ => le_refl _⟩
  · rw [if_neg hc] at hb
    subst hb
    exact ⟨ha, .inr rfl, le_refl _, fun hpos => not_lt.mp fun hlt => hc ⟨hpos, hlt⟩⟩

theorem nearestLoop_nearest {w : World} {list : List TId} {fuel : Nat} {a : TId} {p : Option TId}
    (h : Chain w.next p list) (hf : list.length ≤ fuel) (ha : w.armed a) :
    ∃ t, nearestLoop w fuel a p = some t ∧ Nearest w (a :: list) t := by
  induction list generalizing fuel a p with
  | nil =>
    obtain rfl : p = none := h
    refine ⟨a, by cases fuel <;> rfl, by simp, ha, fun x hx _ => ?_⟩
    obtain rfl := List.mem_singleton.mp hx
    exact le_refl _
  | cons t list ih =>
    obtain ⟨rfl, htail⟩ := h
    cases fuel with
    | zero => simp at hf
    | succ fuel =>
      have hlen : list.length ≤ fuel := by simpa using hf
      rw [nearestLoop]
      generalize hb : (if 0 < (w.timer t).nextTime ∧
        (w.timer t).nextTime < (w.timer a).nextTime then t else a) = b
      obtain ⟨hbarmed, hwhich, hba, hbt⟩ := nearer ha hb
      obtain ⟨r, hr, hmem, hrarmed, hleast⟩ := ih htail hlen hbarmed
      have hrb : (w.timer r).nextTime ≤ (w.timer b).nextTime := hleast b (by simp) hbarmed
      refine ⟨r, hr, ?_, hrarmed, fun x hx hxa => ?_⟩
      · rcases List.mem_cons.mp hmem with rfl | hmem
        · rcases hwhich with rfl | rfl <;> simp
        · simp [hmem]
      · rcases List.mem_cons.mp hx with rfl | hx
        · exact hrb.trans hba
        · rcases List.mem_cons.mp hx with rfl | hx
          · exact hrb.trans (hbt hxa)
          · exact hleast x (by simp [hx]) hxa

theorem ioGetNearestTimer_nearest {w : World} {list : List TId} {fuel : Nat} {p : Option TId}
    (h : Chain w.next p list) (hf : list.length ≤ fuel) :
    (ioGetNearestTimer w fuel p = some none ∧ ∀ x ∈ list, ¬w.armed x) ∨
      ∃ t, ioGetNearestTimer w fuel p = some (some t) ∧ Nearest w list t := by
  induction list generalizing fuel p with
  | nil =>
    obtain rfl : p = none := h
    exact .inl ⟨by cases fuel <;> rfl, by simp⟩
  | cons t list ih =>
    obtain ⟨rfl, htail⟩ := h
    cases fuel with
    | zero => simp at hf
    | succ fuel =>
      have hlen : list.length ≤ fuel := by simpa using hf
      rw [ioGetNearestTimer]
      by_cases ht : 0 < (w.timer t).nextTime
      · rw [if_pos ht]
        obtain ⟨r, hr, hnear⟩ := nearestLoop_nearest htail hlen ht
        exact .inr ⟨r, by rw [hr]; rfl, hnear⟩
      · rw [if_neg ht]
        rcases ih htail hlen with ⟨hnone, hall⟩ | ⟨r, hr, hmem, hrarmed, hleast⟩
        · refine .inl ⟨hnone, fun x hx => ?_⟩
          rcases List.mem_cons.mp hx with rfl | hx
          · exact ht
          · exact hall x hx
        · refine .inr ⟨r, hr, List.mem_cons_of_mem t hmem, hrarmed, fun x hx hxa => ?_⟩
          rcases List.mem_cons.mp hx with rfl | hx
          · exact absurd hxa ht
          · exact hleast x hx hxa

/-! ## §3 Catching up -/

/-- The times a periodic timer could have next, that are not over yet. -/
def comingTimes (nextTime period now : Int) : Set Int :=
  {x | now < x ∧ ∃ k : Nat, 1 ≤ k ∧ x = nextTime + k * period}

/-- The loop ends, each round being a millisecond at least, and what it ends
with is not more than a period past `now`. -/
theorem catchUp_some {fuel : Nat} {nextTime period now : Int} (hp : 0 < period)
    (hdue : nextTime ≤ now) (hf : now < nextTime + fuel) :
    ∃ k : Nat, catchUp fuel nextTime period now = some (nextTime + (k + 1) * period) ∧
      now < nextTime + (k + 1) * period ∧ nextTime + k * period ≤ now := by
  induction fuel generalizing nextTime with
  | zero => simp at hf; omega
  | succ fuel ih =>
    rw [catchUp]
    by_cases hc : nextTime + period ≤ now
    · rw [if_pos hc]
      obtain ⟨k, hk, hlt, hle⟩ := ih hc (by push_cast at hf; omega)
      have hnext : nextTime + period + (k + 1) * period =
          nextTime + ((k + 1 : Nat) + 1) * period := by push_cast; ring
      have hlast : nextTime + period + k * period = nextTime + (k + 1 : Nat) * period := by
        push_cast; ring
      exact ⟨k + 1, by rw [hk, hnext], by rw [← hnext]; exact hlt, by rw [← hlast]; exact hle⟩
    · rw [if_neg hc]
      refine ⟨0, ?_, ?_, ?_⟩
      · simp
      · simpa using hc
      · simpa using hdue

theorem catchUp_least {fuel : Nat} {nextTime period now : Int} (hp : 0 < period)
    (hdue : nextTime ≤ now) (hf : now < nextTime + fuel) :
    ∃ x, catchUp fuel nextTime period now = some x ∧
      IsLeast (comingTimes nextTime period now) x ∧ x ≤ now + period := by
  obtain ⟨k, hk, hlt, hle⟩ := catchUp_some hp hdue hf
  refine ⟨_, hk, ⟨⟨hlt, k + 1, by omega, by push_cast; rfl⟩, ?_⟩, by linarith⟩
  rintro x ⟨hx, j, -, rfl⟩
  -- `j` periods reach past `now`, and `k` do not
  have hkj : (k : Int) * period < j * period := by omega
  have hkj' : (k : Int) < j := lt_of_mul_lt_mul_right hkj hp.le
  have hmul : ((k : Int) + 1) * period ≤ j * period :=
    mul_le_mul_of_nonneg_right (by omega) hp.le
  omega

/-! ## §4 One round -/

abbrev World.due (w : World) (now : Int) (t : TId) : Prop :=
  w.armed t ∧ (w.timer t).nextTime ≤ now

abbrev World.oneShot (w : World) (t : TId) : Prop := (w.timer t).period = 0

/-- The call of its handler. -/
def World.call (w : World) (t : TId) : Method := ⟨t, (w.timer t).handler, (w.timer t).custom⟩

/-- The lists are in order and no period is negative. -/
structure Tended (w : World) (act fr : List TId) : Prop where
  lists : Lists w act fr
  periods : ∀ t ∈ act, 0 ≤ (w.timer t).period

/-- The lists are in order, no timer is set for more than INT_MAX ms ahead,
and no period is negative. -/
structure Ready (now : Int) (w : World) (act fr : List TId) : Prop where
  lists : Lists w act fr
  times : ∀ t ∈ act, (w.timer t).nextTime ≤ now + INT_MAX
  periods : ∀ t ∈ act, 0 ≤ (w.timer t).period ∧ (w.timer t).period ≤ INT_MAX

theorem Ready.tended {now : Int} {w : World} {act fr : List TId} (h : Ready now w act fr) :
    Tended w act fr :=
  ⟨h.lists, fun t ht => (h.periods t ht).1⟩

/-- What firing `t` does to the timers. -/
structure Fired (now : Int) (w : World) (t : TId) (w₁ : World) : Prop where
  other : ∀ x, x ≠ t → w₁.timer x = w.timer x
  oneShot : w.oneShot t → w₁.timer t = w.timer t
  periodic : ¬w.oneShot t → ∃ nextTime, w₁.timer t = { w.timer t with nextTime := nextTime } ∧
    IsLeast (comingTimes (w.timer t).nextTime (w.timer t).period now) nextTime ∧
    nextTime ≤ now + (w.timer t).period

/-- The active timers when `t` has been fired. -/
def leftActive (w : World) (t : TId) (act : List TId) : List TId :=
  if w.oneShot t then act.erase t else act

/-- The free timers when `t` has been fired. -/
def nowFree (w : World) (t : TId) (fr : List TId) : List TId :=
  if w.oneShot t then t :: fr else fr

section Round

variable {ans : ∀ q, Answer q} {now : Int} {w w₁ : World} {act fr : List TId} {t : TId} {fuel : Nat}

theorem ioTimerFree_quiet (h : Lists w act fr) (ht : t ∈ act) (hf : act.length ≤ fuel) :
    ∃ l, (ioTimerFree fuel t).quiet ans w = .ok ((), w.free t l, []) ∧
      Lists (w.free t l) (act.erase t) (t :: fr) := by
  obtain ⟨l, hfind, hlists⟩ := h.release ht hf
  refine ⟨l, ?_, hlists⟩
  unfold ioTimerFree
  refine quiet_bind quiet_read ?_
  rw [hfind]
  rfl

theorem rearm_quiet (h : Tended w act fr) (ht : t ∈ act) (hdue : w.due now t)
    (hf : act.length ≤ fuel) (hnow : now ≤ fuel) :
    ∃ w₁, (rearm fuel now t).quiet ans w = .ok ((), w₁, []) ∧ Fired now w t w₁ ∧
      Lists w₁ (leftActive w t act) (nowFree w t fr) := by
  obtain ⟨harmed, hle⟩ := hdue
  by_cases hone : w.oneShot t
  · obtain ⟨l, hquiet, hlists⟩ := ioTimerFree_quiet h.lists ht hf
    refine ⟨w.free t l, ?_, ⟨fun _ _ => rfl, fun _ => rfl, fun hno => absurd hone hno⟩, ?_⟩
    · unfold rearm
      refine quiet_bind quiet_read ?_
      rw [if_neg (not_not.mpr hone)]
      exact hquiet
    · rw [leftActive, nowFree, if_pos hone, if_pos hone]
      exact hlists
  · have hpos : 0 < (w.timer t).period := lt_of_le_of_ne (h.periods t ht) (Ne.symm hone)
    obtain ⟨x, hx, hleast, hmax⟩ := catchUp_least hpos hle (by omega : now < _ + (fuel : Int))
    refine ⟨w.setNextTime t x, ?_,
      ⟨fun y hy => ?_, fun h => absurd h hone, fun _ => ⟨x, ?_, hleast, hmax⟩⟩, ?_⟩
    · unfold rearm
      refine quiet_bind quiet_read ?_
      rw [if_pos hone, hx]
      rfl
    · exact Function.update_of_ne hy _ _
    · exact Function.update_self ..
    · rw [leftActive, nowFree, if_neg hone, if_neg hone]
      exact h.lists.congr rfl rfl rfl

theorem callHandler_quiet : (callHandler t).quiet ans w = .ok ((), w, [w.call t]) := rfl

/-- Firing changes `next_time` at most. -/
theorem Fired.fields (h : Fired now w t w₁) (x : TId) :
    w₁.timer x = { w.timer x with nextTime := (w₁.timer x).nextTime } := by
  by_cases hx : x = t
  · subst hx
    by_cases hone : w.oneShot x
    · rw [h.oneShot hone]
    · obtain ⟨_, he, -⟩ := h.periodic hone
      rw [he]
  · rw [h.other x hx]

theorem Fired.period (h : Fired now w t w₁) (x : TId) :
    (w₁.timer x).period = (w.timer x).period := by
  rw [h.fields x]

theorem Fired.call (h : Fired now w t w₁) : w₁.call = w.call := by
  funext x
  unfold World.call
  rw [h.fields x]

theorem leftActive_sublist : (leftActive w t act).Sublist act := by
  unfold leftActive
  split
  · exact List.erase_sublist
  · exact List.Sublist.refl act

theorem mem_leftActive (hnd : act.Nodup) {x : TId} :
    x ∈ leftActive w t act ↔ x ∈ act ∧ (x = t → ¬w.oneShot t) := by
  unfold leftActive
  by_cases hone : w.oneShot t
  · rw [if_pos hone, hnd.mem_erase_iff]
    constructor
    · rintro ⟨hne, hx⟩
      exact ⟨hx, fun he => absurd he hne⟩
    · rintro ⟨hx, hno⟩
      exact ⟨fun he => hno he hone, hx⟩
  · rw [if_neg hone]
    simp [hone]

theorem Fired.tended (h : Fired now w t w₁) (ht : Tended w act fr)
    (hl : Lists w₁ (leftActive w t act) (nowFree w t fr)) :
    Tended w₁ (leftActive w t act) (nowFree w t fr) := by
  have hnd := ht.lists.active.nodup
  refine ⟨hl, fun x hx => ?_⟩
  rw [h.period x]
  exact ht.periods x ((mem_leftActive hnd).mp hx).1

/-- A timer that has been fired is not due any more, and nothing else has
changed. -/
theorem Fired.due_iff (h : Fired now w t w₁) (hnd : act.Nodup) (x : TId) :
    x ∈ leftActive w t act ∧ w₁.due now x ↔ x ∈ act ∧ w.due now x ∧ x ≠ t := by
  rw [mem_leftActive hnd]
  by_cases hx : x = t
  · subst hx
    constructor
    · rintro ⟨⟨-, hno⟩, -, hle⟩
      obtain ⟨y, hy, ⟨⟨hlt, -⟩, -⟩, -⟩ := h.periodic (hno rfl)
      rw [hy] at hle
      exact absurd hle (not_le.mpr hlt)
    · rintro ⟨-, -, hne⟩
      exact absurd rfl hne
  · rw [World.due, World.armed, h.other x hx]
    simp [hx]

end Round

/-! ## §5 The firing loop -/

/-- The active timers that are left when `fired` have been fired: all but
the one-shots among them. -/
def stillActive (w : World) (fired act : List TId) : List TId :=
  act.filter fun t => ¬(t ∈ fired ∧ w.oneShot t)

/-- From `w` to `w'`, the handlers of `fired` were called, in this order,
and the result is the time to the nearest timer as far as an `int` holds it. -/
structure Served (now : Int) (w : World) (act fr : List TId) (w' : World) (fired : List TId)
    (ret : Int) : Prop where
  once : fired.Nodup
  fired_iff : ∀ t, t ∈ fired ↔ t ∈ act ∧ w.due now t
  ordered : fired.Pairwise fun a b => (w.timer a).nextTime ≤ (w.timer b).nextTime
  periodic : ∀ t ∈ fired, ¬w.oneShot t →
    ∃ nextTime, w'.timer t = { w.timer t with nextTime := nextTime } ∧
      IsLeast (comingTimes (w.timer t).nextTime (w.timer t).period now) nextTime ∧
      nextTime ≤ now + (w.timer t).period
  unchanged : ∀ t, t ∉ fired ∨ w.oneShot t → w'.timer t = w.timer t
  lists : Lists w' (stillActive w fired act) ((fired.filter fun t => w.oneShot t).reverse ++ fr)
  result : (ret = -1 ∧ ∀ t ∈ stillActive w fired act, ¬w'.armed t) ∨
    ∃ t, Nearest w' (stillActive w fired act) t ∧ ret = toInt ((w'.timer t).nextTime - now) ∧
      now < (w'.timer t).nextTime

/-- From `w` to `w'`, the handlers of `fired` were called, in this order. -/
structure Expired (now : Int) (w : World) (act fr : List TId) (w' : World) (fired : List TId)
    (ret : Int) : Prop where
  once : fired.Nodup
  fired_iff : ∀ t, t ∈ fired ↔ t ∈ act ∧ w.due now t
  ordered : fired.Pairwise fun a b => (w.timer a).nextTime ≤ (w.timer b).nextTime
  periodic : ∀ t ∈ fired, ¬w.oneShot t →
    ∃ nextTime, w'.timer t = { w.timer t with nextTime := nextTime } ∧
      IsLeast (comingTimes (w.timer t).nextTime (w.timer t).period now) nextTime ∧
      nextTime ≤ now + INT_MAX
  unchanged : ∀ t, t ∉ fired ∨ w.oneShot t → w'.timer t = w.timer t
  lists : Lists w' (stillActive w fired act) ((fired.filter fun t => w.oneShot t).reverse ++ fr)
  result : (ret = -1 ∧ ∀ t ∈ stillActive w fired act, ¬w'.armed t) ∨
    ∃ t, Nearest w' (stillActive w fired act) t ∧ ret = (w'.timer t).nextTime - now ∧ 0 < ret

section Loop

variable {ans : ∀ q, Answer q} {now ret : Int} {w w₁ w' : World} {act fr fired : List TId}
  {t : TId} {fuel : Nat}

/-- Nothing is due, nothing is fired. -/
theorem Served.nil (hl : Lists w act fr) (hnone : ∀ t ∈ act, ¬w.due now t)
    (hret : (ret = -1 ∧ ∀ t ∈ act, ¬w.armed t) ∨
      ∃ t, Nearest w act t ∧ ret = toInt ((w.timer t).nextTime - now) ∧
        now < (w.timer t).nextTime) :
    Served now w act fr w [] ret := by
  have hall : stillActive w [] act = act := by simp [stillActive]
  refine ⟨List.nodup_nil, fun t => ?_, List.Pairwise.nil, by simp, fun _ _ => rfl, ?_, ?_⟩
  · constructor
    · simp
    · rintro ⟨ht, hdue⟩
      exact absurd hdue (hnone t ht)
  · rw [hall]
    exact hl
  · rw [hall]
    exact hret

theorem stillActive_cons (hf : Fired now w t w₁) (hnd : act.Nodup) :
    stillActive w₁ fired (leftActive w t act) = stillActive w (t :: fired) act := by
  unfold stillActive leftActive
  by_cases hone : w.oneShot t
  · rw [if_pos hone, hnd.erase_eq_filter, List.filter_filter]
    refine List.filter_congr fun x _ => ?_
    by_cases hx : x = t
    · subst hx
      simp [hone]
    · simp [World.oneShot, hf.period x, hx]
  · rw [if_neg hone]
    refine List.filter_congr fun x _ => ?_
    by_cases hx : x = t
    · subst hx
      simp [World.oneShot, hf.period x, hone]
    · simp [World.oneShot, hf.period x, hx]

theorem nowFree_cons (hf : Fired now w t w₁) :
    (fired.filter fun x => w₁.oneShot x).reverse ++ nowFree w t fr =
      ((t :: fired).filter fun x => w.oneShot x).reverse ++ fr := by
  have hshots : (fired.filter fun x => w₁.oneShot x) = fired.filter fun x => w.oneShot x :=
    List.filter_congr fun x _ => by simp [World.oneShot, hf.period x]
  rw [hshots, nowFree]
  by_cases hone : w.oneShot t
  · rw [if_pos hone, List.filter_cons_of_pos (by simpa using hone)]
    simp
  · rw [if_neg hone, List.filter_cons_of_neg (by simpa using hone)]

/-- One round in front of the rest. -/
theorem Served.cons (hnear : Nearest w act t) (hdue : w.due now t) (hl : Lists w act fr)
    (hf : Fired now w t w₁)
    (he : Served now w₁ (leftActive w t act) (nowFree w t fr) w' fired ret) :
    Served now w act fr w' (t :: fired) ret := by
  have hnd := hl.active.nodup
  have hiff : ∀ x, x ∈ fired ↔ x ∈ act ∧ w.due now x ∧ x ≠ t := fun x =>
    (he.fired_iff x).trans (hf.due_iff hnd x)
  have hnot : t ∉ fired := fun ht => ((hiff t).mp ht).2.2 rfl
  have hsame : ∀ x ∈ fired, w₁.timer x = w.timer x := fun x hx =>
    hf.other x ((hiff x).mp hx).2.2
  refine ⟨List.nodup_cons.mpr ⟨hnot, he.once⟩, fun x => ?_, ?_, ?_, ?_, ?_, ?_⟩
  · rw [List.mem_cons, hiff x]
    constructor
    · rintro (rfl | ⟨hx, hd, -⟩)
      · exact ⟨hnear.mem, hdue⟩
      · exact ⟨hx, hd⟩
    · rintro ⟨hx, hd⟩
      by_cases hxt : x = t
      · exact .inl hxt
      · exact .inr ⟨hx, hd, hxt⟩
  · refine List.pairwise_cons.mpr ⟨fun x hx => ?_, he.ordered.imp_of_mem fun ha hb hle => ?_⟩
    · obtain ⟨hmem, hd, -⟩ := (hiff x).mp hx
      exact hnear.least x hmem hd.1
    · rwa [hsame _ ha, hsame _ hb] at hle
  · intro x hx hone
    rcases List.mem_cons.mp hx with rfl | hx
    · obtain ⟨y, hy, hleast, hmax⟩ := hf.periodic hone
      exact ⟨y, (he.unchanged x (.inl hnot)).trans hy, hleast, hmax⟩
    · have hper : ¬w₁.oneShot x := by
        rw [World.oneShot, hf.period x]
        exact hone
      have hcoming := he.periodic x hx hper
      rwa [hsame x hx] at hcoming
  · intro x hx
    by_cases hxt : x = t
    · subst hxt
      have hone : w.oneShot x := hx.resolve_left fun hno => hno (by simp)
      exact (he.unchanged x (.inl hnot)).trans (hf.oneShot hone)
    · have hx₁ : x ∉ fired ∨ w₁.oneShot x := by
        rcases hx with hno | hone
        · exact .inl fun hm => hno (List.mem_cons_of_mem t hm)
        · right
          rw [World.oneShot, hf.period x]
          exact hone
      exact (he.unchanged x hx₁).trans (hf.other x hxt)
  · have hlists := he.lists
    rwa [stillActive_cons hf hnd, nowFree_cons hf] at hlists
  · have hret := he.result
    rwa [stillActive_cons hf hnd] at hret

/-- The timers that are due. -/
def dueList (w : World) (now : Int) (act : List TId) : List TId := act.filter fun t => w.due now t

theorem dueList_shrinks (hf : Fired now w t w₁) (hnd : act.Nodup) (ht : t ∈ act)
    (hdue : w.due now t) :
    (dueList w₁ now (leftActive w t act)).length < (dueList w now act).length := by
  have hmem : t ∈ dueList w now act := List.mem_filter.mpr ⟨ht, by simpa using hdue⟩
  have hnd₁ : (leftActive w t act).Nodup := hnd.sublist leftActive_sublist
  have hsub : dueList w₁ now (leftActive w t act) ⊆ (dueList w now act).erase t := by
    intro x hx
    obtain ⟨hx, hd⟩ := List.mem_filter.mp hx
    obtain ⟨hx, hd, hne⟩ := (hf.due_iff hnd x).mp ⟨hx, by simpa using hd⟩
    exact (List.mem_erase_of_ne hne).mpr (List.mem_filter.mpr ⟨hx, by simpa using hd⟩)
  have hle : (dueList w₁ now (leftActive w t act)).length ≤ ((dueList w now act).erase t).length :=
    ((hnd₁.filter _).subperm hsub).length_le
  have hlen := List.length_erase_of_mem hmem
  have hpos := List.length_pos_of_mem hmem
  omega

theorem getTimeoutLoop_served {n : Nat} (h : Tended w act fr) (hf : act.length ≤ fuel)
    (hnow : now ≤ fuel) (hn : (dueList w now act).length < n) :
    ∃ ret w' fired, (getTimeoutLoop fuel now n).quiet ans w = .ok (ret, w', fired.map w.call) ∧
      Served now w act fr w' fired ret := by
  induction n generalizing w act fr with
  | zero => omega
  | succ n ih =>
    rw [getTimeoutLoop]
    rcases ioGetNearestTimer_nearest h.lists.active hf with ⟨hnone, hall⟩ | ⟨t, hsome, hnear⟩
    · refine ⟨-1, w, [], ?_, Served.nil h.lists (fun t ht hd => hall t ht hd.1) (.inl ⟨rfl, hall⟩)⟩
      refine quiet_bind quiet_read ?_
      rw [hnone]
      rfl
    · by_cases hlater : now < (w.timer t).nextTime
      · refine ⟨toInt ((w.timer t).nextTime - now), w, [], ?_,
          Served.nil h.lists ?_ (.inr ⟨t, hnear, rfl, hlater⟩)⟩
        · refine quiet_bind quiet_read ?_
          rw [hsome]
          simp only []
          rw [if_pos hlater]
          rfl
        · intro x hx hd
          have hle := hnear.least x hx hd.1
          have hxnow := hd.2
          omega
      · have hdue : w.due now t := ⟨hnear.armed, not_lt.mp hlater⟩
        obtain ⟨w₁, hquiet, hfired, hlists⟩ := rearm_quiet h hnear.mem hdue hf hnow
        have hnd := h.lists.active.nodup
        have hless := dueList_shrinks hfired hnd hnear.mem hdue
        have hshort : (leftActive w t act).length ≤ fuel := leftActive_sublist.length_le.trans hf
        obtain ⟨ret, w', fired, hrest, he⟩ :=
          ih (hfired.tended h hlists) hshort (by omega)
        refine ⟨ret, w', t :: fired, ?_, Served.cons hnear hdue h.lists hfired he⟩
        refine quiet_bind quiet_read ?_
        rw [hsome]
        simp only []
        rw [if_neg hlater]
        have hcall : w₁.call t = w.call t := congrFun hfired.call t
        have htail : (callHandler t >>= fun _ => getTimeoutLoop fuel now n).quiet ans w₁ =
            .ok (ret, w', (t :: fired).map w.call) := by
          rw [hfired.call] at hrest
          rw [List.map_cons, ← hcall]
          exact quiet_bind (f := fun _ => getTimeoutLoop fuel now n) callHandler_quiet hrest
        exact quiet_bind hquiet htail

/-- Where nothing was set for more than INT_MAX ahead, nothing is
afterwards, and an `int` holds the result. -/
theorem Served.expired (h : Served now w act fr w' fired ret) (hr : Ready now w act fr) :
    Expired now w act fr w' fired ret := by
  have hmax : ∀ x ∈ fired, ¬w.oneShot x → (w'.timer x).nextTime ≤ now + INT_MAX := by
    intro x hx hone
    obtain ⟨y, hy, -, hle⟩ := h.periodic x hx hone
    have hper := (hr.periods x ((h.fired_iff x).mp hx).1).2
    rw [hy]
    exact hle.trans (by linarith)
  have htimes : ∀ x ∈ stillActive w fired act, (w'.timer x).nextTime ≤ now + INT_MAX := by
    intro x hx
    have hmem : x ∈ act := List.mem_of_mem_filter hx
    by_cases hserved : x ∉ fired ∨ w.oneShot x
    · rw [h.unchanged x hserved]
      exact hr.times x hmem
    · obtain ⟨hfired, hone⟩ := not_or.mp hserved
      exact hmax x (not_not.mp hfired) hone
  refine ⟨h.once, h.fired_iff, h.ordered, fun x hx hone => ?_, h.unchanged, h.lists, ?_⟩
  · obtain ⟨y, hy, hleast, -⟩ := h.periodic x hx hone
    have hle := hmax x hx hone
    rw [hy] at hle
    exact ⟨y, hy, hleast, hle⟩
  · rcases h.result with hnone | ⟨x, hnear, hret, hlt⟩
    · exact .inl hnone
    · have hle := htimes x hnear.mem
      have hval : INT_MAX = 2 ^ 31 - 1 := rfl
      have hint : toInt ((w'.timer x).nextTime - now) = (w'.timer x).nextTime - now :=
        toInt_of_lt (by omega) (by omega)
      rw [hint] at hret
      exact .inr ⟨x, hnear, hret, by omega⟩

end Loop

/-! ## §6 `io_get_timeout` -/

/-- The timers with the clock started. -/
def World.clock (w : World) (ans : ∀ q, Answer q) : World :=
  if w.zeroTime = 0 then { w with zeroTime := ans .zeroTime } else w

/-- The time that `io_get_timeout` reads. -/
def World.now (w : World) (ans : ∀ q, Answer q) : Int :=
  toLongLong (toUnsignedLong ((ans .uptime : Int) - (w.clock ans).zeroTime))

theorem startClock_quiet {ans : ∀ q, Answer q} {w : World} :
    startClock.quiet ans w = .ok ((), w.clock ans, []) := by
  unfold startClock World.clock
  refine quiet_bind quiet_read ?_
  by_cases hzero : w.zeroTime = 0
  · rw [if_pos hzero, if_pos hzero]
    rfl
  · rw [if_neg hzero, if_neg hzero]
    rfl

theorem clock_timer (w : World) (ans : ∀ q, Answer q) : (w.clock ans).timer = w.timer := by
  unfold World.clock
  split <;> rfl

/-- Starting the clock does not touch the timers. -/
theorem Lists.clock {w : World} {act fr : List TId} (h : Lists w act fr) (ans : ∀ q, Answer q) :
    Lists (w.clock ans) act fr := by
  unfold World.clock
  by_cases hzero : w.zeroTime = 0
  · rw [if_pos hzero]
    exact h.congr rfl rfl rfl
  · rw [if_neg hzero]
    exact h

/-- What happened from the started clock on has happened from the start. -/
theorem Served.ofClock {now ret : Int} {w w' : World} {act fr fired : List TId}
    {ans : ∀ q, Answer q} (h : Served now (w.clock ans) act fr w' fired ret) :
    Served now w act fr w' fired ret := by
  obtain ⟨honce, hiff, hordered, hperiodic, hunchanged, hlists, hresult⟩ := h
  simp only [World.due, World.armed, World.oneShot, stillActive, clock_timer] at *
  exact ⟨honce, hiff, hordered, hperiodic, hunchanged, hlists, hresult⟩

/-- The value of `io_now`. -/
def World.reading (w : World) (ans : ∀ q, Answer q) : Nat :=
  toUnsignedLong ((ans .uptime : Int) - (w.clock ans).zeroTime)

theorem ioNow_quiet {ans : ∀ q, Answer q} {w : World} :
    ioNow.quiet ans w = .ok (w.reading ans, w.clock ans, []) := by
  unfold ioNow
  exact quiet_bind startClock_quiet rfl

theorem call_clock (w : World) (ans : ∀ q, Answer q) : (w.clock ans).call = w.call := by
  funext t
  unfold World.call
  rw [clock_timer]

theorem ioGetTimeout_served {w : World} {act fr : List TId} (ans : ∀ q, Answer q)
    (h : Tended w act fr) {fuel : Nat} (hfuel : act.length + (w.now ans).toNat < fuel) :
    ∃ ret w' fired, (ioGetTimeout fuel).quiet ans w = .ok (ret, w', fired.map w.call) ∧
      Served (w.now ans) w act fr w' fired ret := by
  have htended : Tended (w.clock ans) act fr := by
    refine ⟨h.lists.clock ans, ?_⟩
    rw [clock_timer]
    exact h.periods
  have hshort : (dueList (w.clock ans) (w.now ans) act).length ≤ act.length :=
    List.length_filter_le _ _
  have hlong : act.length ≤ fuel := by omega
  have hnow : w.now ans ≤ fuel := by omega
  have hrounds : (dueList (w.clock ans) (w.now ans) act).length < fuel := by omega
  obtain ⟨ret, w', fired, hquiet, he⟩ := getTimeoutLoop_served htended hlong hnow hrounds
  refine ⟨ret, w', fired, ?_, he.ofClock⟩
  rw [← call_clock w ans]
  exact quiet_bind ioNow_quiet hquiet

/-- **`io_get_timeout` fires what is due, once and in order.** It ends, each
timer that is due is fired once and no other, the earlier times first;
afterwards a periodic timer has its first time after `now`, a one-shot is on
the free list, and the result is the time to the nearest timer left. -/
theorem io_get_timeout_expires {w : World} {act fr : List TId} (ans : ∀ q, Answer q)
    (h : Ready (w.now ans) w act fr) {fuel : Nat}
    (hfuel : act.length + (w.now ans).toNat < fuel) :
    ∃ ret w' fired, (ioGetTimeout fuel).quiet ans w = .ok (ret, w', fired.map w.call) ∧
      Expired (w.now ans) w act fr w' fired ret := by
  obtain ⟨ret, w', fired, hquiet, hserved⟩ := ioGetTimeout_served ans h.tended hfuel
  exact ⟨ret, w', fired, hquiet, hserved.expired h⟩

/-- A one-shot for 3, a periodic timer for 5 and every 10, and one for 100. -/
def threeTimers : World where
  ioFreeTimers := some 3
  ioActiveTimers := some 0
  next t := if t < 2 then some (t + 1) else none
  timer t := if t = 0 then ⟨100, 0, 1, 1⟩ else if t = 1 then ⟨5, 10, 2, 2⟩ else ⟨3, 0, 3, 3⟩
  zeroTime := 1000

theorem io_get_timeout_expires_threeTimers :
    ∃ ret w' fired, (ioGetTimeout 40).quiet (fun _ => 1025) threeTimers =
        .ok (ret, w', fired.map threeTimers.call) ∧
      Expired 25 threeTimers [0, 1, 2] [3] w' fired ret := by
  have hnow : threeTimers.now (fun _ => 1025) = 25 := by decide
  have hready : Ready 25 threeTimers [0, 1, 2] [3] := by
    refine ⟨⟨⟨rfl, rfl, rfl, rfl⟩, ⟨rfl, rfl⟩, by decide⟩, ?_, ?_⟩
    · decide
    · decide
  rw [← hnow] at hready ⊢
  exact io_get_timeout_expires (fun _ => 1025) hready (by rw [hnow]; decide)

end Nanio.Timers
