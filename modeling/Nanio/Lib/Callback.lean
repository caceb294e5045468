/-
Nanio.Lib.Callback — library code that calls back into its owner.

A library function of an event-driven program runs for a while, asks the
kernel for something, and calls a method of its owner; the owner may then
call the library again before it returns. `Prog` is the code of one such
function, `Config` a whole program with the calls that are suspended in a
callback, and `run` drives a configuration by a list of choices: which
function the owner calls, what the kernel answers, when a callback
returns. Every interleaving, at any depth of re-entrancy, is a list of
choices, and `run` computes it.

Reasoning is by a contract (`Contract`): an invariant that holds whenever
the owner is in control, indexed by the callbacks that are pending, and a
condition `ok` under which a choice is allowed. `Prog.wp` is the
corresponding weakest precondition of a piece of code, where a callback
may do anything that keeps the invariant. `run_safe` is the rule: if every
function body meets its `wp`, the invariant holds in every state a run
reaches. The proof is one step lemma (`step_safe`) and an induction on the
choices.
-/
import Mathlib.Data.List.Basic

namespace Nanio.Lib

/-- Code over a state `σ` that may ask the kernel a query `q : Q` (answered
in `A q`), call a method `m : M` of its owner, or stop on a fault. -/
inductive Prog (σ Q : Type) (A : Q → Type) (M F α : Type) : Type where
  | done (a : α)
  | get (k : σ → Prog σ Q A M F α)
  | put (s : σ) (k : Prog σ Q A M F α)
  | ask (q : Q) (k : A q → Prog σ Q A M F α)
  | call (m : M) (k : Int → Prog σ Q A M F α)
  | fault (f : F)

variable {σ Q M F C : Type} {A : Q → Type} {α β : Type}

namespace Prog

def bind : Prog σ Q A M F α → (α → Prog σ Q A M F β) → Prog σ Q A M F β
  | done a, f => f a
  | get k, f => get fun s => (k s).bind f
  | put s k, f => put s (k.bind f)
  | ask q k, f => ask q fun a => (k a).bind f
  | call m k, f => call m fun r => (k r).bind f
  | fault e, _ => fault e

instance : Monad (Prog σ Q A M F) where
  pure := done
  bind := bind

/-- The current state. -/
def read : Prog σ Q A M F σ := get done

/-- Update the state. -/
def modify (f : σ → σ) : Prog σ Q A M F Unit := get fun s => put (f s) (done ())

/-- Ask the kernel. -/
def query (q : Q) : Prog σ Q A M F (A q) := ask q done

/-- Call a method of the owner and wait for its return value. -/
def invoke (m : M) : Prog σ Q A M F Int := call m done

end Prog

/-! ## The machine -/

/-- What a run records: a method called in a state, and a library call
that returned, with the states it was entered and left in. -/
inductive Event (σ M C : Type) where
  | call (m : M) (s : σ)
  | leave (c : C) (entry exit : σ) (v : Int)

/-- A callback that has not returned: the method, and the state and the
record at the moment it was called. -/
structure Pending (σ M C : Type) where
  method : M
  st : σ
  log : List (Event σ M C)

/-- A library call suspended in a callback, with the code that is left. -/
structure Frame (σ Q : Type) (A : Q → Type) (M F C : Type) where
  proc : C
  entry : σ
  pending : Pending σ M C
  k : Int → Prog σ Q A M F Int

/-- Who is in control: the owner, the kernel (asked a query by a library
call), or nobody, after a fault. -/
inductive Control (σ Q : Type) (A : Q → Type) (M F C : Type) where
  | owner
  | asking (c : C) (entry : σ) (q : Q) (k : A q → Prog σ Q A M F Int)
  | faulted (f : F)

structure Config (σ Q : Type) (A : Q → Type) (M F C : Type) where
  st : σ
  ctl : Control σ Q A M F C
  stack : List (Frame σ Q A M F C)
  log : List (Event σ M C)

/-- One choice of the environment: the owner calls a library function, the
kernel answers, or the callback on top of the stack returns. -/
inductive Choice (Q : Type) (A : Q → Type) (C : Type) where
  | enter (c : C)
  | answer (q : Q) (a : A q)
  | back (r : Int)

/-- The owner in control, nothing suspended and nothing recorded. -/
def Config.start (s : σ) : Config σ Q A M F C := ⟨s, .owner, [], []⟩

/-- The callbacks that are pending, innermost first. -/
def pendings (stack : List (Frame σ Q A M F C)) : List (Pending σ M C) :=
  stack.map (·.pending)

/-- Run code of the library call `c` until it needs its environment. -/
def settle (c : C) (entry : σ) : Prog σ Q A M F Int → σ → List (Frame σ Q A M F C) →
    List (Event σ M C) → Config σ Q A M F C
  | .done v, s, stack, log => ⟨s, .owner, stack, log ++ [.leave c entry s v]⟩
  | .get k, s, stack, log => settle c entry (k s) s stack log
  | .put s k, _, stack, log => settle c entry k s stack log
  | .ask q k, s, stack, log => ⟨s, .asking c entry q k, stack, log⟩
  | .call m k, s, stack, log =>
    ⟨s, .owner, ⟨c, entry, ⟨m, s, log ++ [.call m s]⟩, k⟩ :: stack, log ++ [.call m s]⟩
  | .fault f, s, stack, log => ⟨s, .faulted f, stack, log⟩

/-- One choice, when it is possible in the configuration. -/
def step [DecidableEq Q] (body : C → Prog σ Q A M F Int) (cfg : Config σ Q A M F C) :
    Choice Q A C → Option (Config σ Q A M F C)
  | .enter c =>
    match cfg.ctl with
    | .owner => some (settle c cfg.st (body c) cfg.st cfg.stack cfg.log)
    | _ => none
  | .answer q a =>
    match cfg.ctl with
    | .asking c entry q' k =>
      if h : q = q' then some (settle c entry (k (h ▸ a)) cfg.st cfg.stack cfg.log) else none
    | _ => none
  | .back r =>
    match cfg.ctl, cfg.stack with
    | .owner, f :: stack => some (settle f.proc f.entry (f.k r) cfg.st stack cfg.log)
    | _, _ => none

def run [DecidableEq Q] (body : C → Prog σ Q A M F Int) (cfg : Config σ Q A M F C) :
    List (Choice Q A C) → Option (Config σ Q A M F C)
  | [] => some cfg
  | ch :: rest => (step body cfg ch).bind fun cfg' => run body cfg' rest

section Run

variable [DecidableEq Q] {body : C → Prog σ Q A M F Int} {st entry : σ} {c : C}
  {stack : List (Frame σ Q A M F C)} {log : List (Event σ M C)}

theorem step_enter : step body ⟨st, .owner, stack, log⟩ (.enter c) =
    some (settle c st (body c) st stack log) := rfl

theorem step_answer {q : Q} {a : A q} {k : A q → Prog σ Q A M F Int} :
    step body ⟨st, .asking c entry q k, stack, log⟩ (.answer q a) =
      some (settle c entry (k a) st stack log) := by
  simp [step]

theorem run_append (cfg : Config σ Q A M F C) (xs ys : List (Choice Q A C)) :
    run body cfg (xs ++ ys) = (run body cfg xs).bind fun cfg' => run body cfg' ys := by
  induction xs generalizing cfg with
  | nil => rfl
  | cons ch xs ih =>
    simp only [List.cons_append, run]
    cases step body cfg ch with
    | none => rfl
    | some mid => exact ih mid

end Run

/-! ## Contracts -/

/-- What a condition on a choice may look at: the pending callbacks, the
library call the kernel is answering, the state and the record so far. -/
structure View (σ M C : Type) where
  pending : List (Pending σ M C)
  running : Option C
  st : σ
  log : List (Event σ M C)

/-- The method that returns, when the choice is `back`. -/
def View.returning (v : View σ M C) : Option M := v.pending.head?.map (·.method)

def Config.view (cfg : Config σ Q A M F C) : View σ M C where
  pending := pendings cfg.stack
  running :=
    match cfg.ctl with
    | .asking c _ _ _ => some c
    | _ => none
  st := cfg.st
  log := cfg.log

/-- `ok` is the condition on choices, `Inv` the invariant that holds while
the owner is in control, `mayFault` the faults that are not excluded. -/
structure Contract (σ Q : Type) (A : Q → Type) (M F C : Type) where
  ok : View σ M C → Choice Q A C → Prop
  Inv : List (Pending σ M C) → σ → List (Event σ M C) → Prop
  mayFault : F → Prop

/-- Every choice of the list meets the condition where it is made. -/
def Meets [DecidableEq Q] (body : C → Prog σ Q A M F Int)
    (ok : View σ M C → Choice Q A C → Prop) (cfg : Config σ Q A M F C) :
    List (Choice Q A C) → Prop
  | [] => True
  | ch :: rest => ok cfg.view ch ∧ ∀ cfg', step body cfg ch = some cfg' → Meets body ok cfg' rest

theorem meets_nil [DecidableEq Q] {body : C → Prog σ Q A M F Int}
    {ok : View σ M C → Choice Q A C → Prop} {cfg : Config σ Q A M F C} : Meets body ok cfg [] :=
  trivial

theorem meets_cons [DecidableEq Q] {body : C → Prog σ Q A M F Int}
    {ok : View σ M C → Choice Q A C → Prop} {cfg cfg' : Config σ Q A M F C} {ch : Choice Q A C}
    {rest : List (Choice Q A C)} (hok : ok cfg.view ch) (hs : step body cfg ch = some cfg')
    (hr : Meets body ok cfg' rest) : Meets body ok cfg (ch :: rest) := by
  refine ⟨hok, fun mid hmid => ?_⟩
  rw [hs] at hmid
  exact Option.some.inj hmid ▸ hr

instance Meets.decidable [DecidableEq Q] {body : C → Prog σ Q A M F Int}
    {ok : View σ M C → Choice Q A C → Prop} [∀ v ch, Decidable (ok v ch)] :
    (cfg : Config σ Q A M F C) → (choices : List (Choice Q A C)) →
      Decidable (Meets body ok cfg choices)
  | _, [] => .isTrue trivial
  | cfg, ch :: rest =>
    match hstep : step body cfg ch with
    | none =>
      decidable_of_iff (ok cfg.view ch)
        ⟨fun hok => ⟨hok, fun _ h => by cases hstep.symm.trans h⟩, fun h => h.1⟩
    | some mid =>
      have : Decidable (Meets body ok mid rest) := Meets.decidable mid rest
      decidable_of_iff (ok cfg.view ch ∧ Meets body ok mid rest)
        ⟨fun h => ⟨h.1, fun cfg' hs => Option.some.inj (hstep.symm.trans hs) ▸ h.2⟩,
          fun h => ⟨h.1, h.2 mid hstep⟩⟩

theorem Meets.mono [DecidableEq Q] {body : C → Prog σ Q A M F Int}
    {ok ok' : View σ M C → Choice Q A C → Prop} (h : ∀ v ch, ok v ch → ok' v ch)
    {cfg : Config σ Q A M F C} {choices : List (Choice Q A C)} (hm : Meets body ok cfg choices) :
    Meets body ok' cfg choices := by
  induction choices generalizing cfg with
  | nil => trivial
  | cons ch rest ih => exact ⟨h _ _ hm.1, fun cfg' hs => ih (hm.2 cfg' hs)⟩

/-- The condition, and that a choice is one of those the list has. -/
theorem Meets.mem [DecidableEq Q] {body : C → Prog σ Q A M F Int}
    {ok : View σ M C → Choice Q A C → Prop} {cfg : Config σ Q A M F C}
    {choices all : List (Choice Q A C)} (hm : Meets body ok cfg choices) (hall : choices ⊆ all) :
    Meets body (fun v ch => ok v ch ∧ ch ∈ all) cfg choices := by
  induction choices generalizing cfg with
  | nil => trivial
  | cons ch rest ih =>
    obtain ⟨hch, hrest⟩ := List.cons_subset.mp hall
    exact ⟨⟨hm.1, hch⟩, fun cfg' hs => ih (hm.2 cfg' hs) hrest⟩

/-- The weakest precondition of code of the library call `c`, run with the
callbacks `ps` pending. At a callback the invariant must hold, and after
it nothing is known but the invariant. -/
def Prog.wp (K : Contract σ Q A M F C) (c : C) (ps : List (Pending σ M C)) :
    Prog σ Q A M F α → (α → σ → List (Event σ M C) → Prop) → σ → List (Event σ M C) → Prop
  | .done a, post, s, l => post a s l
  | .get k, post, s, l => (k s).wp K c ps post s l
  | .put s k, post, _, l => k.wp K c ps post s l
  | .ask q k, post, s, l =>
    ∀ a, K.ok ⟨ps, some c, s, l⟩ (.answer q a) → (k a).wp K c ps post s l
  | .call m k, post, s, l =>
    K.Inv (⟨m, s, l ++ [.call m s]⟩ :: ps) s (l ++ [.call m s]) ∧
      ∀ r s' l', K.Inv (⟨m, s, l ++ [.call m s]⟩ :: ps) s' l' →
        K.ok ⟨⟨m, s, l ++ [.call m s]⟩ :: ps, none, s', l'⟩ (.back r) →
        (k r).wp K c ps post s' l'
  | .fault f, _, _, _ => K.mayFault f

/-- What a library call entered in `entry` has to establish. -/
def Contract.Post (K : Contract σ Q A M F C) (c : C) (entry : σ) (ps : List (Pending σ M C))
    (v : Int) (s : σ) (l : List (Event σ M C)) : Prop :=
  K.Inv ps s (l ++ [.leave c entry s v])

/-- The body of every library function meets its contract. -/
def Contract.Body (K : Contract σ Q A M F C) (body : C → Prog σ Q A M F Int) : Prop :=
  ∀ ps c s l, K.Inv ps s l → K.ok ⟨ps, none, s, l⟩ (.enter c) →
    (body c).wp K c ps (K.Post c s ps) s l

section Wp

variable (K : Contract σ Q A M F C) (c : C) (ps : List (Pending σ M C))
  (post : β → σ → List (Event σ M C) → Prop) (s : σ) (l : List (Event σ M C))

@[simp] theorem wp_pure (a : β) : (pure a : Prog σ Q A M F β).wp K c ps post s l ↔ post a s l :=
  Iff.rfl

theorem wp_bind (p : Prog σ Q A M F α) (f : α → Prog σ Q A M F β) :
    (p >>= f).wp K c ps post s l ↔
      p.wp K c ps (fun a s' l' => (f a).wp K c ps post s' l') s l := by
  change (p.bind f).wp K c ps post s l ↔ _
  induction p generalizing s l with
  | done a => exact Iff.rfl
  | get k ih => exact ih s s l
  | put s' k ih => exact ih s' l
  | ask q k ih => exact forall_congr' fun a => imp_congr_right fun _ => ih a s l
  | call m k ih =>
    exact and_congr_right fun _ => forall_congr' fun r => forall_congr' fun s' =>
      forall_congr' fun l' => imp_congr_right fun _ => imp_congr_right fun _ => ih r s' l'
  | fault f => exact Iff.rfl

@[simp] theorem wp_read (post : σ → σ → List (Event σ M C) → Prop) :
    (Prog.read : Prog σ Q A M F σ).wp K c ps post s l ↔ post s s l := Iff.rfl

@[simp] theorem wp_modify (f : σ → σ) (post : Unit → σ → List (Event σ M C) → Prop) :
    (Prog.modify f : Prog σ Q A M F Unit).wp K c ps post s l ↔ post () (f s) l := Iff.rfl

@[simp] theorem wp_fault (f : F) :
    (Prog.fault f : Prog σ Q A M F β).wp K c ps post s l ↔ K.mayFault f := Iff.rfl

theorem wp_query (q : Q) (post : A q → σ → List (Event σ M C) → Prop) :
    (Prog.query q : Prog σ Q A M F (A q)).wp K c ps post s l ↔
      ∀ a, K.ok ⟨ps, some c, s, l⟩ (.answer q a) → post a s l := Iff.rfl

theorem wp_invoke (m : M) (post : Int → σ → List (Event σ M C) → Prop) :
    (Prog.invoke m : Prog σ Q A M F Int).wp K c ps post s l ↔
      K.Inv (⟨m, s, l ++ [.call m s]⟩ :: ps) s (l ++ [.call m s]) ∧
        ∀ r s' l', K.Inv (⟨m, s, l ++ [.call m s]⟩ :: ps) s' l' →
          K.ok ⟨⟨m, s, l ++ [.call m s]⟩ :: ps, none, s', l'⟩ (.back r) → post r s' l' := Iff.rfl

theorem wp_mono {post post' : α → σ → List (Event σ M C) → Prop}
    (h : ∀ a s l, post a s l → post' a s l) (p : Prog σ Q A M F α) (s : σ)
    (l : List (Event σ M C)) (hp : p.wp K c ps post s l) : p.wp K c ps post' s l := by
  induction p generalizing s l with
  | done a => exact h a s l hp
  | get k ih => exact ih s s l hp
  | put s' k ih => exact ih s' l hp
  | ask q k ih => exact fun a ha => ih a s l (hp a ha)
  | call m k ih => exact ⟨hp.1, fun r s' l' hi hb => ih r s' l' (hp.2 r s' l' hi hb)⟩
  | fault f => exact hp

end Wp

/-! ## The rule -/

section Rule

variable (K : Contract σ Q A M F C)

/-- Each suspended call is ready to go on from any state its callback may
leave behind. -/
def StackOk : List (Frame σ Q A M F C) → Prop
  | [] => True
  | f :: stack =>
    (∀ r s l, K.Inv (f.pending :: pendings stack) s l →
      K.ok ⟨f.pending :: pendings stack, none, s, l⟩ (.back r) →
      (f.k r).wp K f.proc (pendings stack) (K.Post f.proc f.entry (pendings stack)) s l) ∧
    StackOk stack

/-- The configurations a run can be in. -/
def Config.Safe (cfg : Config σ Q A M F C) : Prop :=
  StackOk K cfg.stack ∧
    match cfg.ctl with
    | .owner => K.Inv (pendings cfg.stack) cfg.st cfg.log
    | .asking c entry q k => ∀ a,
        K.ok ⟨pendings cfg.stack, some c, cfg.st, cfg.log⟩ (.answer q a) →
        (k a).wp K c (pendings cfg.stack) (K.Post c entry (pendings cfg.stack)) cfg.st cfg.log
    | .faulted f => K.mayFault f

theorem settle_safe (c : C) (entry : σ) (p : Prog σ Q A M F Int) (s : σ)
    (stack : List (Frame σ Q A M F C)) (l : List (Event σ M C)) (hs : StackOk K stack)
    (hp : p.wp K c (pendings stack) (K.Post c entry (pendings stack)) s l) :
    (settle c entry p s stack l).Safe K := by
  induction p generalizing s l with
  | done v => exact ⟨hs, hp⟩
  | get k ih => exact ih s s l hp
  | put s' k ih => exact ih s' l hp
  | ask q k _ => exact ⟨hs, hp⟩
  | call m k _ => exact ⟨⟨hp.2, hs⟩, hp.1⟩
  | fault f => exact ⟨hs, hp⟩

/-- One allowed choice leads from a safe configuration to a safe one. -/
theorem step_safe [DecidableEq Q] {body : C → Prog σ Q A M F Int} (hb : K.Body body)
    {cfg cfg' : Config σ Q A M F C} {ch : Choice Q A C} (hs : cfg.Safe K)
    (hok : K.ok cfg.view ch) (h : step body cfg ch = some cfg') : cfg'.Safe K := by
  obtain ⟨st, ctl, stack, log⟩ := cfg
  obtain ⟨hstack, hctl⟩ := hs
  cases ch with
  | enter c =>
    cases ctl with
    | owner =>
      simp only [step, Option.some.injEq] at h
      subst h
      exact settle_safe K c st (body c) st stack log hstack (hb _ c st log hctl hok)
    | asking => simp [step] at h
    | faulted => simp [step] at h
  | answer q a =>
    cases ctl with
    | owner => simp [step] at h
    | asking c entry q' k =>
      simp only [step] at h
      split at h
      · next hq =>
        subst hq
        simp only [Option.some.injEq] at h
        subst h
        exact settle_safe K c entry (k a) st stack log hstack (hctl a hok)
      · cases h
    | faulted => simp [step] at h
  | back r =>
    cases ctl with
    | owner =>
      cases stack with
      | nil => simp [step] at h
      | cons f stack =>
        simp only [step, Option.some.injEq] at h
        subst h
        exact settle_safe K f.proc f.entry (f.k r) st stack log hstack.2
          (hstack.1 r st log hctl hok)
    | asking => simp [step] at h
    | faulted => simp [step] at h

/-- **The rule.** In every run whose choices meet the condition, every
configuration reached is safe. -/
theorem run_safe [DecidableEq Q] {body : C → Prog σ Q A M F Int} (hb : K.Body body)
    {cfg cfg' : Config σ Q A M F C} {choices : List (Choice Q A C)} (hs : cfg.Safe K)
    (hm : Meets body K.ok cfg choices) (h : run body cfg choices = some cfg') :
    cfg'.Safe K := by
  induction choices generalizing cfg with
  | nil => simp only [run, Option.some.injEq] at h; subst h; exact hs
  | cons ch rest ih =>
    simp only [run, Option.bind_eq_some_iff] at h
    obtain ⟨mid, hmid, hrest⟩ := h
    exact ih (step_safe K hb hs hm.1 hmid) (hm.2 mid hmid) hrest

/-- The rule from a start configuration, read where the owner is in control. -/
theorem run_inv [DecidableEq Q] {body : C → Prog σ Q A M F Int} (hb : K.Body body) {s : σ}
    (h0 : K.Inv [] s []) {choices : List (Choice Q A C)} {cfg : Config σ Q A M F C}
    (hm : Meets body K.ok (.start s) choices) (h : run body (.start s) choices = some cfg)
    (hc : cfg.ctl = .owner) : K.Inv (pendings cfg.stack) cfg.st cfg.log := by
  have hstart : (Config.start s : Config σ Q A M F C).Safe K := ⟨trivial, h0⟩
  have hs := run_safe K hb hstart hm h
  have := hs.2
  rw [hc] at this
  exact this

/-- The rule from a start configuration, read after a fault. -/
theorem run_fault [DecidableEq Q] {body : C → Prog σ Q A M F Int} (hb : K.Body body) {s : σ}
    (h0 : K.Inv [] s []) {choices : List (Choice Q A C)} {cfg : Config σ Q A M F C}
    (hm : Meets body K.ok (.start s) choices) (h : run body (.start s) choices = some cfg)
    {f : F} (hc : cfg.ctl = .faulted f) : K.mayFault f := by
  have hstart : (Config.start s : Config σ Q A M F C).Safe K := ⟨trivial, h0⟩
  have hs := run_safe K hb hstart hm h
  have := hs.2
  rw [hc] at this
  exact this

end Rule

/-! ## The record of the pending callbacks -/

/-- The record kept for a pending callback ends with its call. -/
def Pending.Logged (p : Pending σ M C) : Prop := ∃ l, p.log = l ++ [.call p.method p.st]

theorem settle_logged {c : C} {entry : σ} (p : Prog σ Q A M F Int) {s : σ}
    {stack : List (Frame σ Q A M F C)} {l : List (Event σ M C)}
    (h : ∀ p ∈ pendings stack, p.Logged) :
    ∀ q ∈ pendings (settle c entry p s stack l).stack, q.Logged := by
  induction p generalizing s with
  | done v => exact h
  | get k ih => exact ih s
  | put s' k ih => exact ih
  | ask q k _ => exact h
  | call m k _ => exact List.forall_mem_cons.mpr ⟨⟨l, rfl⟩, h⟩
  | fault f => exact h

theorem step_logged [DecidableEq Q] {body : C → Prog σ Q A M F Int} {cfg cfg' : Config σ Q A M F C}
    {ch : Choice Q A C} (hs : ∀ p ∈ pendings cfg.stack, p.Logged)
    (h : step body cfg ch = some cfg') : ∀ p ∈ pendings cfg'.stack, p.Logged := by
  obtain ⟨st, ctl, stack, log⟩ := cfg
  cases ch with
  | enter c =>
    cases ctl with
    | owner =>
      obtain rfl := Option.some.inj h
      exact settle_logged (body c) hs
    | asking => cases h
    | faulted => cases h
  | answer q a =>
    cases ctl with
    | owner => cases h
    | asking c entry q' k =>
      simp only [step] at h
      split at h
      · next hq =>
        subst hq
        obtain rfl := Option.some.inj h
        exact settle_logged (k a) hs
      · cases h
    | faulted => cases h
  | back r =>
    cases ctl with
    | owner =>
      cases stack with
      | nil => cases h
      | cons f stack =>
        obtain rfl := Option.some.inj h
        exact settle_logged (f.k r) (List.forall_mem_cons.mp hs).2
    | asking => cases h
    | faulted => cases h

theorem run_logged [DecidableEq Q] {body : C → Prog σ Q A M F Int} {cfg cfg' : Config σ Q A M F C}
    {choices : List (Choice Q A C)} (hs : ∀ p ∈ pendings cfg.stack, p.Logged)
    (h : run body cfg choices = some cfg') : ∀ p ∈ pendings cfg'.stack, p.Logged := by
  induction choices generalizing cfg with
  | nil => exact Option.some.inj h ▸ hs
  | cons ch rest ih =>
    obtain ⟨mid, hmid, hrest⟩ := Option.bind_eq_some_iff.mp h
    exact ih (step_logged hs hmid) hrest

/-! ## Undisturbed runs -/

/-- Run code whose callbacks return at once and leave the state alone, the
kernel answering by `ans`: the result, the last state and the methods that
were called, in order. -/
def Prog.quiet (ans : ∀ q, A q) : Prog σ Q A M F α → σ → Except F (α × σ × List M)
  | .done a, s => .ok (a, s, [])
  | .get k, s => (k s).quiet ans s
  | .put s k, _ => k.quiet ans s
  | .ask q k, s => (k (ans q)).quiet ans s
  | .call m k, s => ((k 0).quiet ans s).map fun r => (r.1, r.2.1, m :: r.2.2)
  | .fault f, _ => .error f

section Quiet

variable {ans : ∀ q, A q} {s s₁ s₂ : σ} {a : α} {b : β} {m₁ m₂ : List M}

/-- Code after code: the methods of the first are called first. -/
theorem quiet_bind {p : Prog σ Q A M F α} {f : α → Prog σ Q A M F β}
    (hp : p.quiet ans s = .ok (a, s₁, m₁)) (hf : (f a).quiet ans s₁ = .ok (b, s₂, m₂)) :
    (p >>= f).quiet ans s = .ok (b, s₂, m₁ ++ m₂) := by
  change (p.bind f).quiet ans s = _
  induction p generalizing s m₁ with
  | done x =>
    obtain ⟨rfl, rfl, rfl⟩ : x = a ∧ s = s₁ ∧ [] = m₁ := by simpa [Prog.quiet] using hp
    exact hf
  | get k ih => exact ih s hp
  | put s' k ih => exact ih hp
  | ask q k ih => exact ih (ans q) hp
  | call m k ih =>
    cases hk : (k 0).quiet ans s with
    | error e => simp [Prog.quiet, hk, Except.map] at hp
    | ok r =>
      obtain ⟨x, s', ms⟩ := r
      obtain ⟨rfl, rfl, rfl⟩ : x = a ∧ s' = s₁ ∧ m :: ms = m₁ := by
        simpa [Prog.quiet, hk, Except.map] using hp
      show (((k 0).bind f).quiet ans s).map _ = _
      rw [ih 0 hk]
      rfl
  | fault f => cases hp

theorem quiet_read : (Prog.read : Prog σ Q A M F σ).quiet ans s = .ok (s, s, []) := rfl

end Quiet

/-! ## Runs with a given owner -/

/-- What an owner does: from the methods called before, the method that is
called and the state, its return value and the state it leaves. -/
abbrev Owner (σ M : Type) : Type := List M → M → σ → Int × σ

/-- Run code with the callbacks of `owner`, the kernel answering by `ans`,
after the methods `ms` have been called: the result, the last state and all
methods called, in order. -/
def Prog.play (ans : ∀ q, A q) (owner : Owner σ M) :
    Prog σ Q A M F α → σ → List M → Except F (α × σ × List M)
  | .done a, s, ms => .ok (a, s, ms)
  | .get k, s, ms => (k s).play ans owner s ms
  | .put s k, _, ms => k.play ans owner s ms
  | .ask q k, s, ms => (k (ans q)).play ans owner s ms
  | .call m k, s, ms => (k (owner ms m s).1).play ans owner (owner ms m s).2 (ms ++ [m])
  | .fault f, _, _ => .error f

section Play

variable {ans : ∀ q, A q} {owner : Owner σ M} {s : σ} {ms : List M}

@[simp] theorem play_pure (a : α) :
    (pure a : Prog σ Q A M F α).play ans owner s ms = .ok (a, s, ms) := rfl

@[simp] theorem play_read :
    (Prog.read : Prog σ Q A M F σ).play ans owner s ms = .ok (s, s, ms) := rfl

@[simp] theorem play_modify (f : σ → σ) :
    (Prog.modify f : Prog σ Q A M F Unit).play ans owner s ms = .ok ((), f s, ms) := rfl

@[simp] theorem play_query (q : Q) :
    (Prog.query q : Prog σ Q A M F (A q)).play ans owner s ms = .ok (ans q, s, ms) := rfl

@[simp] theorem play_invoke (m : M) :
    (Prog.invoke m : Prog σ Q A M F Int).play ans owner s ms =
      .ok ((owner ms m s).1, (owner ms m s).2, ms ++ [m]) := rfl

@[simp] theorem play_fault (f : F) :
    (Prog.fault f : Prog σ Q A M F α).play ans owner s ms = .error f := rfl

/-- Code after code goes on in the state, and with the record, that the
first has left. -/
@[simp] theorem play_bind (p : Prog σ Q A M F α) (f : α → Prog σ Q A M F β) :
    (p >>= f).play ans owner s ms =
      (p.play ans owner s ms).bind fun r => (f r.1).play ans owner r.2.1 r.2.2 := by
  change (p.bind f).play ans owner s ms = _
  induction p generalizing s ms with
  | done a => rfl
  | get k ih => exact ih s
  | put s' k ih => exact ih
  | ask q k ih => exact ih (ans q)
  | call m k ih => exact ih _
  | fault f => rfl

/-- The first part is done. -/
theorem play_bind_ok {p : Prog σ Q A M F α} {a : α} {s' : σ} {ms' : List M}
    (h : p.play ans owner s ms = .ok (a, s', ms')) (f : α → Prog σ Q A M F β) :
    (p >>= f).play ans owner s ms = (f a).play ans owner s' ms' := by
  rw [play_bind, h]
  rfl

end Play

end Nanio.Lib
