/-
Nanio.Lib.Link — a component whose methods are code of the program.

`Nanio.Lib.Callback` leaves the methods of a component to its environment,
and `Nanio.Lib.Embed` keeps it so. Once the owner is known, its methods are
code as well: `Prog.inside` is the component's code in a program that holds
the component's state, with the code of the methods in place of the calls.
The program may give the component's memory back (`get` is then `none`), and
whatever the component reads or writes afterwards is a fault.
-/
import Nanio.Lib.Callback

namespace Nanio.Lib

variable {σ Q M F σ' Q' M' F' C α β : Type} {A : Q → Type} {A' : Q' → Type}

/-- The program a component is part of. -/
structure Host (σ Q : Type) (A : Q → Type) (M F σ' Q' : Type) (A' : Q' → Type) (M' F' : Type) where
  get : σ' → Option σ
  set : σ' → σ → σ'
  query : Q → Q'
  answer : ∀ q, A' (query q) → A q
  method : M → Prog σ' Q' A' M' F' Int
  fault : F → F'
  dead : F'

/-- The component's code in the program. -/
def Prog.inside (h : Host σ Q A M F σ' Q' A' M' F') :
    Prog σ Q A M F α → Prog σ' Q' A' M' F' α
  | .done a => .done a
  | .get k => .get fun s =>
    match h.get s with
    | some v => (k v).inside h
    | none => .fault h.dead
  | .put v k => .get fun s =>
    match h.get s with
    | some _ => .put (h.set s v) (k.inside h)
    | none => .fault h.dead
  | .ask q k => .ask (h.query q) fun a => (k (h.answer q a)).inside h
  | .call m k => (h.method m).bind fun r => (k r).inside h
  | .fault f => .fault (h.fault f)

theorem bind_assoc_code {γ : Type} (p : Prog σ Q A M F α) (f : α → Prog σ Q A M F β)
    (g : β → Prog σ Q A M F γ) : (p.bind f).bind g = p.bind fun a => (f a).bind g := by
  induction p with
  | done a => rfl
  | get k ih => simp only [Prog.bind, ih]
  | put v k ih => simp only [Prog.bind, ih]
  | ask q k ih => simp only [Prog.bind, ih]
  | call m k ih => simp only [Prog.bind, ih]
  | fault f => rfl

theorem inside_bind (h : Host σ Q A M F σ' Q' A' M' F') (p : Prog σ Q A M F α)
    (f : α → Prog σ Q A M F β) : (p >>= f).inside h = p.inside h >>= fun a => (f a).inside h := by
  show (p.bind f).inside h = (p.inside h).bind fun a => (f a).inside h
  induction p with
  | done a => rfl
  | get k ih =>
    simp only [Prog.bind, Prog.inside, ih]
    congr 1
    funext s
    cases h.get s <;> rfl
  | put v k ih =>
    simp only [Prog.bind, Prog.inside, ih]
    congr 1
    funext s
    cases h.get s <;> rfl
  | ask q k ih => simp only [Prog.bind, Prog.inside, ih]
  | call m k ih => simp only [Prog.bind, Prog.inside, ih, bind_assoc_code]
  | fault f => rfl

/-! ## Rules -/

section Wp

variable {K : Contract σ' Q' A' M' F' C} {c : C} {ps : List (Pending σ' M' C)} {s : σ'} {v : σ}
  {l : List (Event σ' M' C)} {h : Host σ Q A M F σ' Q' A' M' F'}

theorem wp_inside_bind {p : Prog σ Q A M F α} {f : α → Prog σ Q A M F β}
    {post : β → σ' → List (Event σ' M' C) → Prop} :
    ((p >>= f).inside h).wp K c ps post s l ↔
      (p.inside h).wp K c ps (fun a s' l' => ((f a).inside h).wp K c ps post s' l') s l := by
  rw [inside_bind, wp_bind]

@[simp] theorem wp_inside_pure (a : α) {post : α → σ' → List (Event σ' M' C) → Prop} :
    ((pure a : Prog σ Q A M F α).inside h).wp K c ps post s l ↔ post a s l := Iff.rfl

theorem wp_inside_read (hs : h.get s = some v) {post : σ → σ' → List (Event σ' M' C) → Prop} :
    ((Prog.read : Prog σ Q A M F σ).inside h).wp K c ps post s l ↔ post v s l := by
  simp only [Prog.read, Prog.inside, Prog.wp, hs]

theorem wp_inside_modify (hs : h.get s = some v) (f : σ → σ)
    {post : Unit → σ' → List (Event σ' M' C) → Prop} :
    ((Prog.modify f : Prog σ Q A M F Unit).inside h).wp K c ps post s l ↔
      post () (h.set s (f v)) l := by
  simp only [Prog.modify, Prog.inside, Prog.wp, hs]

@[simp] theorem wp_inside_fault (f : F) {post : α → σ' → List (Event σ' M' C) → Prop} :
    ((Prog.fault f : Prog σ Q A M F α).inside h).wp K c ps post s l ↔ K.mayFault (h.fault f) :=
  Iff.rfl

/-- A call is the code of the method. -/
theorem wp_inside_invoke (m : M) {post : Int → σ' → List (Event σ' M' C) → Prop} :
    ((Prog.invoke m : Prog σ Q A M F Int).inside h).wp K c ps post s l ↔
      (h.method m).wp K c ps post s l := by
  show ((h.method m).bind fun r => .done r).wp K c ps post s l ↔ _
  exact wp_bind K c ps post s l (h.method m) fun r => .done r

end Wp

/-! ## Programs without an environment of their own -/

section Closed

variable {K : Contract σ' Q' A' Empty F' C}

/-- Nothing is ever suspended in a callback. -/
theorem stackOk_closed (stack : List (Frame σ' Q' A' Empty F' C)) : StackOk K stack := by
  cases stack with
  | nil => trivial
  | cons f _ => exact f.pending.method.elim

end Closed

end Nanio.Lib
