/-
Nanio.Lib.Linked — intrusive singly linked lists: a head pointer and a
`next` field in every node, over an arbitrary type of nodes.

A list in memory is described by `Seg next p l q`: starting from the
pointer `p` and following `next`, one meets exactly the nodes of `l` and
then holds the pointer `q`. `Chain` is the case where `q` is the null
pointer. Everything a client needs about a chain follows from three facts:
a chain has no repetition (`Chain.nodup`), it is determined by its head
(`Chain.unique`), and writing the link of a node outside it changes nothing
(`seg_update`).

The second half is the pointer-to-link walk
`for (t = &head; t; t = &(*t)->next) if (*t == self)`, by which a node is
taken out without a `prev` field: `findLink` is the walk, `Link.set` the
store through the link it found, and `unlink_chain` says that together
they erase exactly that node.
-/
import Mathlib.Data.List.Nodup
import Mathlib.Data.List.Basic
import Mathlib.Logic.Function.Basic

namespace Nanio.Lib

variable {α : Type}

/-! ## Segments and chains -/

/-- Following `next` from `p` meets the nodes of `l` and ends at `q`. -/
def Seg (next : α → Option α) : Option α → List α → Option α → Prop
  | p, [], q => p = q
  | p, a :: l, q => p = some a ∧ Seg next (next a) l q

/-- A segment that ends in the null pointer: a whole list. -/
def Chain (next : α → Option α) (p : Option α) (l : List α) : Prop :=
  Seg next p l none

@[simp] theorem seg_nil (next : α → Option α) (p q : Option α) :
    Seg next p [] q ↔ p = q := Iff.rfl

@[simp] theorem seg_cons (next : α → Option α) (p q : Option α) (a : α) (l : List α) :
    Seg next p (a :: l) q ↔ p = some a ∧ Seg next (next a) l q := Iff.rfl

@[simp] theorem chain_nil (next : α → Option α) (p : Option α) :
    Chain next p [] ↔ p = none := Iff.rfl

@[simp] theorem chain_cons (next : α → Option α) (p : Option α) (a : α) (l : List α) :
    Chain next p (a :: l) ↔ p = some a ∧ Chain next (next a) l := Iff.rfl

theorem seg_append (next : α → Option α) (l₁ l₂ : List α) (p q : Option α) :
    Seg next p (l₁ ++ l₂) q ↔ ∃ r, Seg next p l₁ r ∧ Seg next r l₂ q := by
  induction l₁ generalizing p with
  | nil => simp
  | cons a l ih => simp [ih, and_assoc]

/-- Writing the link of a node outside the segment does not disturb it. -/
theorem seg_update [DecidableEq α] (next : α → Option α) (x : α) (v : Option α) (l : List α)
    (p q : Option α) (hx : x ∉ l) :
    Seg (Function.update next x v) p l q ↔ Seg next p l q := by
  induction l generalizing p with
  | nil => rfl
  | cons a l ih =>
    simp only [List.mem_cons, not_or] at hx
    rw [seg_cons, seg_cons, Function.update_of_ne (Ne.symm hx.1), ih _ hx.2]

theorem chain_update [DecidableEq α] (next : α → Option α) (x : α) (v : Option α) (l : List α)
    (p : Option α) (hx : x ∉ l) :
    Chain (Function.update next x v) p l ↔ Chain next p l :=
  seg_update next x v l p none hx

/-- A segment only reads the links of its own nodes. -/
theorem seg_congr {next next' : α → Option α} {l : List α} (h : ∀ a ∈ l, next' a = next a)
    (p q : Option α) : Seg next' p l q ↔ Seg next p l q := by
  induction l generalizing p with
  | nil => rfl
  | cons a l ih =>
    rw [seg_cons, seg_cons, h a (by simp), ih (fun b hb => h b (by simp [hb]))]

theorem Chain.unique {next : α → Option α} {p : Option α} {l₁ l₂ : List α}
    (h₁ : Chain next p l₁) (h₂ : Chain next p l₂) : l₁ = l₂ := by
  induction l₁ generalizing p l₂ with
  | nil =>
    cases l₂ with
    | nil => rfl
    | cons b l₂ => simp_all
  | cons a l₁ ih =>
    cases l₂ with
    | nil => simp_all
    | cons b l₂ =>
      obtain ⟨rfl, t₁⟩ := h₁
      obtain ⟨hb, t₂⟩ := h₂
      cases hb
      rw [ih t₁ t₂]

/-- Each node of a chain starts a chain of its own. -/
theorem Chain.suffix {next : α → Option α} {p : Option α} {l₁ l₂ : List α} {a : α}
    (h : Chain next p (l₁ ++ a :: l₂)) : Chain next (some a) (a :: l₂) := by
  obtain ⟨r, -, hr⟩ := (seg_append next l₁ (a :: l₂) p none).mp h
  exact ⟨rfl, hr.2⟩

/-- A chain ends, so it never meets a node twice: the second meeting would
start the same suffix as the first. -/
theorem Chain.nodup {next : α → Option α} {p : Option α} {l : List α}
    (h : Chain next p l) : l.Nodup := by
  induction l generalizing p with
  | nil => exact List.nodup_nil
  | cons a l ih =>
    refine List.nodup_cons.mpr ⟨?_, ih h.2⟩
    intro ha
    obtain ⟨l₁, l₂, rfl⟩ := List.append_of_mem ha
    have hlong : Chain next (some a) (a :: (l₁ ++ a :: l₂)) := ⟨rfl, h.2⟩
    have hsplit : Chain next p ((a :: l₁) ++ a :: l₂) := h
    have hshort : Chain next (some a) (a :: l₂) := hsplit.suffix
    have hlen := congrArg List.length (hlong.unique hshort)
    simp at hlen
    omega

/-- Pushing a fresh node in front. -/
theorem Chain.push [DecidableEq α] {next : α → Option α} {p : Option α} {l : List α} {a : α}
    (h : Chain next p l) (ha : a ∉ l) : Chain (Function.update next a p) (some a) (a :: l) := by
  refine ⟨rfl, ?_⟩
  rw [Function.update_self]
  exact (chain_update next a p l p ha).mpr h

/-- Appending a fresh node behind the last one. -/
theorem Chain.snoc [DecidableEq α] {next : α → Option α} {p : Option α} {l : List α} {b a : α}
    (h : Chain next p (l ++ [b])) (ha : a ∉ l ++ [b]) (hn : next a = none) :
    Chain (Function.update next b (some a)) p (l ++ [b] ++ [a]) := by
  have hb : b ∉ l := fun hb => (List.nodup_append.mp h.nodup).2.2 b hb b (by simp) rfl
  have hab : a ≠ b := fun e => ha (by simp [e])
  obtain ⟨r, h₁, h₂⟩ := (seg_append next l [b] p none).mp h
  rw [List.append_assoc]
  refine (seg_append _ l _ p none).mpr ⟨r, (seg_update next b _ l p r hb).mpr h₁, ?_⟩
  simp only [List.cons_append, List.nil_append, seg_cons, seg_nil, Function.update_self,
    Function.update_of_ne hab, hn, and_true]
  exact h₂.1

/-- A node that following `next` from the pointer meets, of a list that
need not end. -/
inductive OnList (next : α → Option α) : Option α → α → Prop where
  | here (a : α) : OnList next (some a) a
  | later {a b : α} (h : OnList next (next a) b) : OnList next (some a) b

theorem not_onList_none {next : α → Option α} {a : α} : ¬OnList next none a := fun h => nomatch h

theorem onList_some {next : α → Option α} {a b : α} :
    OnList next (some a) b ↔ b = a ∨ OnList next (next a) b := by
  constructor
  · intro h
    cases h with
    | here => exact .inl rfl
    | later h => exact .inr h
  · rintro (rfl | h)
    · exact .here b
    · exact .later h

/-! ## The pointer-to-link walk -/

/-- The address of a link: of the head pointer, or of a node's field. -/
inductive Link (α : Type) where
  | head
  | next (a : α)
  deriving DecidableEq, Repr

/-- The pointer stored in a link. -/
def Link.get (hd : Option α) (nx : α → Option α) : Link α → Option α
  | .head => hd
  | .next a => nx a

/-- Store `v` in a link: the new head pointer and the new `next` fields. -/
def Link.set [DecidableEq α] (hd : Option α) (nx : α → Option α) (v : Option α) :
    Link α → Option α × (α → Option α)
  | .head => (v, nx)
  | .next a => (hd, Function.update nx a v)

/-- How a walk over the links of a list can end. -/
inductive Walk (α : Type) where
  | found (t : Link α)
  | offEnd
  | outOfFuel
  deriving DecidableEq, Repr

/-- `for (t = from; t; t = &(*t)->next) if (*t == self) break;`, told
apart by whether the walk met `self` or ran past the last node. -/
def findLink [DecidableEq α] (hd : Option α) (nx : α → Option α) (self : α) :
    Nat → Link α → Walk α
  | 0, _ => .outOfFuel
  | fuel + 1, t =>
    match t.get hd nx with
    | none => .offEnd
    | some a => if a = self then .found t else findLink hd nx self fuel (.next a)

/-- The link that points at the node after `pre`. -/
def linkAfter (t : Link α) (pre : List α) : Link α :=
  match pre.getLast? with
  | none => t
  | some b => .next b

theorem linkAfter_cons (t : Link α) (a : α) (pre : List α) :
    linkAfter t (a :: pre) = linkAfter (.next a) pre := by
  cases pre with
  | nil => rfl
  | cons b pre => simp [linkAfter, List.getLast?_cons]

theorem findLink_found [DecidableEq α] {hd : Option α} {nx : α → Option α} {self : α}
    {pre : List α} (hs : self ∉ pre) (t : Link α) (h : Seg nx (t.get hd nx) pre (some self))
    {fuel : Nat} (hf : pre.length < fuel) :
    findLink hd nx self fuel t = .found (linkAfter t pre) := by
  induction pre generalizing t fuel with
  | nil =>
    cases fuel with
    | zero => simp at hf
    | succ fuel => rw [seg_nil] at h; simp [findLink, h, linkAfter]
  | cons a pre ih =>
    obtain ⟨ha, ht⟩ := h
    simp only [List.mem_cons, not_or] at hs
    cases fuel with
    | zero => simp at hf
    | succ fuel =>
      rw [findLink, ha]
      simp only [if_neg (Ne.symm hs.1)]
      rw [ih hs.2 (.next a) ht (by simpa using hf), linkAfter_cons]

theorem findLink_offEnd [DecidableEq α] {hd : Option α} {nx : α → Option α} {self : α}
    {l : List α} (hs : self ∉ l) (t : Link α) (h : Chain nx (t.get hd nx) l) {fuel : Nat}
    (hf : l.length < fuel) : findLink hd nx self fuel t = .offEnd := by
  induction l generalizing t fuel with
  | nil =>
    cases fuel with
    | zero => simp at hf
    | succ fuel => rw [chain_nil] at h; simp [findLink, h]
  | cons a l ih =>
    obtain ⟨ha, ht⟩ := h
    simp only [List.mem_cons, not_or] at hs
    cases fuel with
    | zero => simp at hf
    | succ fuel =>
      rw [findLink, ha]
      simp only [if_neg (Ne.symm hs.1)]
      exact ih hs.2 (.next a) ht (by simpa using hf)

/-- The walk finds a node of the list, and storing the node's own link
through the link that was found leaves the list without it; no link of a
node outside the list, nor the node's own, is written. -/
theorem unlink_chain [DecidableEq α] {hd : Option α} {nx : α → Option α} {self : α} {l : List α}
    (h : Chain nx hd l) (hs : self ∈ l) {fuel : Nat} (hf : l.length ≤ fuel) :
    ∃ t, findLink hd nx self fuel .head = .found t ∧
      Chain (t.set hd nx (nx self)).2 (t.set hd nx (nx self)).1 (l.erase self) ∧
      ∀ x, x ∉ l.erase self → (t.set hd nx (nx self)).2 x = nx x := by
  obtain ⟨pre, post, rfl⟩ := List.append_of_mem hs
  have hnd := h.nodup
  have hpre : self ∉ pre := fun hm => (List.nodup_append.mp hnd).2.2 self hm self (by simp) rfl
  obtain ⟨r, hseg, hr, hpost⟩ := (seg_append nx pre (self :: post) hd none).mp h
  subst hr
  have herase : (pre ++ self :: post).erase self = pre ++ post := by
    rw [List.erase_append_right _ hpre, List.erase_cons_head]
  rw [herase]
  refine ⟨linkAfter .head pre,
    findLink_found hpre .head hseg
      (by simp only [List.length_append, List.length_cons] at hf; omega),
    ?_, ?_⟩
  · rcases List.eq_nil_or_concat pre with rfl | ⟨pre', b, rfl⟩
    · exact hpost
    · have hb : b ∉ pre' ∧ b ∉ post := by
        simp only [List.concat_eq_append, List.nodup_append, List.mem_append] at hnd
        grind
      simp only [List.concat_eq_append, linkAfter, List.getLast?_append, List.getLast?_singleton,
        Option.some_or, Link.set]
      obtain ⟨s, h₁, h₂⟩ := (seg_append nx pre' [b] hd (some self)).mp
        (by simpa [List.concat_eq_append] using hseg)
      refine (seg_append _ (pre' ++ [b]) post hd none).mpr ⟨nx self, ?_, ?_⟩
      · refine (seg_append _ pre' [b] hd (nx self)).mpr
          ⟨s, (seg_update nx b _ pre' hd s hb.1).mpr h₁, ?_⟩
        exact ⟨h₂.1, by simp⟩
      · exact (seg_update nx b _ post (nx self) none hb.2).mpr hpost
  · intro x hx
    rcases List.eq_nil_or_concat pre with rfl | ⟨pre', b, rfl⟩
    · rfl
    · have hxb : x ≠ b := by rintro rfl; simp at hx
      simp only [List.concat_eq_append, linkAfter, List.getLast?_append, List.getLast?_singleton,
        Option.some_or, Link.set]
      exact Function.update_of_ne hxb _ _

end Nanio.Lib
