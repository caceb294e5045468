/-
Nanio.Lib.Embed — the code of one component as part of a program.

A component has its own state, queries and methods, and a program holds the
states of several of them side by side. An `Embedding` says where in the
program they are, and what the program records when the kernel answers the
component and when it calls a method; `Prog.embed` is the component's code
run in the program.

The rules are those of `Nanio.Lib.Callback`, one for each operation, and
`Keeps.wp_embed`: what every store, every record and every callback keeps is
kept by any code at all.
-/
import Nanio.Lib.Callback

namespace Nanio.Lib

variable {σ Q M F σ' Q' M' F' C α β : Type} {A : Q → Type} {A' : Q' → Type}

structure Embedding (σ Q : Type) (A : Q → Type) (M F σ' Q' : Type) (A' : Q' → Type)
    (M' F' : Type) where
  get : σ' → σ
  set : σ' → σ → σ'
  query : Q → Q'
  answer : ∀ q, A' (query q) → A q
  answered : ∀ q, A' (query q) → σ' → σ'
  method : M → M'
  called : M → σ' → σ'
  fault : F → F'

/-- The component's code in the program. -/
def Prog.embed (e : Embedding σ Q A M F σ' Q' A' M' F') : Prog σ Q A M F α → Prog σ' Q' A' M' F' α
  | .done a => .done a
  | .get k => .get fun s => (k (e.get s)).embed e
  | .put v k => .get fun s => .put (e.set s v) (k.embed e)
  | .ask q k => .ask (e.query q) fun a => .get fun s =>
      .put (e.answered q a s) ((k (e.answer q a)).embed e)
  | .call m k => .get fun s => .put (e.called m s) (.call (e.method m) fun r => (k r).embed e)
  | .fault f => .fault (e.fault f)

theorem embed_bind (e : Embedding σ Q A M F σ' Q' A' M' F') (p : Prog σ Q A M F α)
    (f : α → Prog σ Q A M F β) : (p >>= f).embed e = p.embed e >>= fun a => (f a).embed e := by
  show (p.bind f).embed e = (p.embed e).bind fun a => (f a).embed e
  induction p with
  | done a => rfl
  | get k ih => simp only [Prog.bind, Prog.embed, ih]
  | put v k ih => simp only [Prog.bind, Prog.embed, ih]
  | ask q k ih => simp only [Prog.bind, Prog.embed, ih]
  | call m k ih => simp only [Prog.bind, Prog.embed, ih]
  | fault f => rfl

section Wp

variable {K : Contract σ' Q' A' M' F' C} {c : C} {ps : List (Pending σ' M' C)} {s : σ'}
  {l : List (Event σ' M' C)} (e : Embedding σ Q A M F σ' Q' A' M' F')

theorem wp_embed_bind {p : Prog σ Q A M F α} {f : α → Prog σ Q A M F β}
    {post : β → σ' → List (Event σ' M' C) → Prop} :
    ((p >>= f).embed e).wp K c ps post s l ↔
      (p.embed e).wp K c ps (fun a s' l' => ((f a).embed e).wp K c ps post s' l') s l := by
  rw [embed_bind, wp_bind]

@[simp] theorem wp_embed_pure (a : α) {post : α → σ' → List (Event σ' M' C) → Prop} :
    ((pure a : Prog σ Q A M F α).embed e).wp K c ps post s l ↔ post a s l := Iff.rfl

@[simp] theorem wp_embed_read {post : σ → σ' → List (Event σ' M' C) → Prop} :
    ((Prog.read : Prog σ Q A M F σ).embed e).wp K c ps post s l ↔ post (e.get s) s l := Iff.rfl

@[simp] theorem wp_embed_modify (f : σ → σ) {post : Unit → σ' → List (Event σ' M' C) → Prop} :
    ((Prog.modify f : Prog σ Q A M F Unit).embed e).wp K c ps post s l ↔
      post () (e.set s (f (e.get s))) l := Iff.rfl

@[simp] theorem wp_embed_fault (f : F) {post : α → σ' → List (Event σ' M' C) → Prop} :
    ((Prog.fault f : Prog σ Q A M F α).embed e).wp K c ps post s l ↔ K.mayFault (e.fault f) :=
  Iff.rfl

theorem wp_embed_query (q : Q) {post : A q → σ' → List (Event σ' M' C) → Prop} :
    ((Prog.query q : Prog σ Q A M F (A q)).embed e).wp K c ps post s l ↔
      ∀ a, K.ok ⟨ps, some c, s, l⟩ (.answer (e.query q) a) →
        post (e.answer q a) (e.answered q a s) l := Iff.rfl

theorem wp_embed_invoke (m : M) {post : Int → σ' → List (Event σ' M' C) → Prop} :
    ((Prog.invoke m : Prog σ Q A M F Int).embed e).wp K c ps post s l ↔
      K.Inv (⟨e.method m, e.called m s, l ++ [.call (e.method m) (e.called m s)]⟩ :: ps)
          (e.called m s) (l ++ [.call (e.method m) (e.called m s)]) ∧
        ∀ r s' l',
          K.Inv (⟨e.method m, e.called m s, l ++ [.call (e.method m) (e.called m s)]⟩ :: ps) s' l' →
          K.ok ⟨⟨e.method m, e.called m s, l ++ [.call (e.method m) (e.called m s)]⟩ :: ps, none,
            s', l'⟩ (.back r) → post r s' l' := Iff.rfl

end Wp

/-! ## What any code keeps -/

/-- `R` relates a state to those it may become: through the stores of the
component, what is recorded of answers and calls, and a callback. -/
structure Keeps (e : Embedding σ Q A M F σ' Q' A' M' F') (K : Contract σ' Q' A' M' F' C)
    (R : σ' → σ' → Prop) : Prop where
  refl : ∀ s, R s s
  trans : ∀ s t u, R s t → R t u → R s u
  set : ∀ s v, R s (e.set s v)
  answered : ∀ q a s, R s (e.answered q a s)
  called : ∀ m s, R s (e.called m s)
  inv : ∀ ps s t l, K.Inv ps s l → R s t → K.Inv ps t l
  enter : ∀ m ps s l, K.Inv ps s l → K.Inv (⟨m, s, l ++ [.call m s]⟩ :: ps) s (l ++ [.call m s])
  leave : ∀ p ps s l, K.Inv (p :: ps) s l → K.Inv ps s l ∧ R p.st s
  mayFault : ∀ f, K.mayFault (e.fault f)

/-- By induction on the code. -/
theorem Keeps.wp_embed {e : Embedding σ Q A M F σ' Q' A' M' F'} {K : Contract σ' Q' A' M' F' C}
    {R : σ' → σ' → Prop} (h : Keeps e K R) (p : Prog σ Q A M F α) {c : C}
    {ps : List (Pending σ' M' C)} {s₀ s : σ'} {l : List (Event σ' M' C)} (hinv : K.Inv ps s l)
    (hr : R s₀ s) : (p.embed e).wp K c ps (fun _ s' l' => K.Inv ps s' l' ∧ R s₀ s') s l := by
  induction p generalizing s l with
  | done a => exact ⟨hinv, hr⟩
  | get k ih => exact ih (e.get s) hinv hr
  | put v k ih => exact ih (h.inv ps s _ l hinv (h.set s v)) (h.trans s₀ s _ hr (h.set s v))
  | ask q k ih =>
    intro a _
    have hs := h.answered q a s
    exact ih (e.answer q a) (h.inv ps s _ l hinv hs) (h.trans s₀ s _ hr hs)
  | call m k ih =>
    have hs := h.called m s
    refine ⟨h.enter _ ps _ l (h.inv ps s _ l hinv hs), fun r s' l' hi _ => ?_⟩
    obtain ⟨hinv', hback⟩ := h.leave _ ps s' l' hi
    exact ih r hinv' (h.trans s₀ s s' hr (h.trans s _ s' hs hback))
  | fault f => exact h.mayFault f

end Nanio.Lib
