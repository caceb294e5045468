/-
Nanio.Queue.QueueFifo — the queue against a FIFO.

The FIFO remembers every item that was put and counts the ones that were
dropped; the next one to get is the one at that count. An item has its
pointer, or for `IOQB_LOCAL` the bytes that were there at the put. `Sim`
ties the blocks of a queue to the items that are left; one step of the
queue is one step of the FIFO (`Sim.step`), so every run is
(`ioQueue_refines_fifo`). Both stop together where the program hands over a
buffer that is not there: too few bytes to copy, or a dynamic buffer to be
freed that is free already.
-/
import Nanio.Queue.IoQueueTheorems

namespace Nanio.Queue

open Nanio.Lib

/-! ## §1 The FIFO -/

inductive Payload where
  | pointer (n : Nat)
  | copy (bytes : List UInt8)
  deriving DecidableEq, Repr

/-- What a put puts. -/
structure Item where
  type_ : BlockType
  tag : Nat
  size : Nat
  payload : Payload
  deriving DecidableEq, Repr

/-- The buffers of the program, the items put so far, and how many of them
have been dropped. -/
structure Fifo where
  own : Nat → Option (List UInt8)
  put : List Item
  dropped : Nat

/-- The item of a put, with its copy made now. -/
def itemOf (own : Nat → Option (List UInt8)) (tag data size : Nat) (type_ : BlockType) :
    Option Item :=
  if type_ = .LOCAL then
    if size ≤ ((own data).getD []).length then
      some ⟨.LOCAL, tag, size, .copy (((own data).getD []).take size)⟩
    else none
  else some ⟨type_, tag, size, .pointer data⟩

/-- The program's buffers when the item is dropped. -/
def Item.release (it : Item) (own : Nat → Option (List UInt8)) :
    Option (Nat → Option (List UInt8)) :=
  match it.payload with
  | .copy _ => some own
  | .pointer n =>
    if it.type_ = .STATIC then some own
    else if (own n).isSome then some (Function.update own n none) else none

/-- One operation; none where the program handed over a buffer that is not
there. -/
def Fifo.step (f : Fifo) : QueueOp → Option Fifo
  | .put tag data size type_ =>
    (itemOf f.own tag data size type_).map fun it => { f with put := f.put ++ [it] }
  | .get => some f
  | .drop =>
    match f.put[f.dropped]? with
    | none => some f
    | some it => (it.release f.own).map fun own => { f with own := own, dropped := f.dropped + 1 }
  | .own n content => some { f with own := Function.update f.own n content }

def Fifo.run (f : Fifo) : List QueueOp → Option Fifo
  | [] => some f
  | op :: ops => (f.step op).bind (·.run ops)

/-! ## §2 The simulation -/

/-- The block is this item: its type, its tag, its size in 16 bits, and as
data the same pointer or a copy of the same bytes. -/
structure Shows (m : QueueMem) (b : IoQueueBlock) (it : Item) : Prop where
  type_eq : b.type_ = it.type_
  tag_eq : b.tag = it.tag
  size_eq : b.size = it.size % 2 ^ 16
  data :
    (it.type_ ≠ .LOCAL ∧ ∃ n, it.payload = .pointer n ∧ b.data = .own n) ∨
    (it.type_ = .LOCAL ∧ ∃ bytes n, it.payload = .copy bytes ∧ b.data = .copy n ∧
      n < m.freshCopy ∧ m.buf (.copy n) = some bytes)

/-- A block stays what it is while its own copy does. -/
theorem Shows.mono {m m' : QueueMem} {b : IoQueueBlock} {it : Item} (h : Shows m b it)
    (hcopy : ∀ n, b.data = .copy n → n < m.freshCopy → m'.buf (.copy n) = m.buf (.copy n))
    (hfresh : m.freshCopy ≤ m'.freshCopy) : Shows m' b it := by
  refine ⟨h.type_eq, h.tag_eq, h.size_eq, ?_⟩
  rcases h.data with hp | ⟨ht, bytes, n, hpay, hdata, hlt, hbuf⟩
  · exact .inl hp
  · exact .inr ⟨ht, bytes, n, hpay, hdata, by omega, (hcopy n hdata hlt).trans hbuf⟩

theorem Shows.copy_lt {m : QueueMem} {b : IoQueueBlock} {it : Item} (h : Shows m b it) {n : Nat}
    (hn : b.data = .copy n) : n < m.freshCopy := by
  rcases h.data with ⟨-, k, -, hdata⟩ | ⟨-, bytes, k, -, hdata, hlt, -⟩
  · rw [hn] at hdata
    cases hdata
  · rw [hn] at hdata
    cases hdata
    exact hlt

/-- Two blocks never share a copy. -/
def SeparateCopies (blocks : List IoQueueBlock) : Prop :=
  blocks.Pairwise fun a b => ∀ n, a.data = .copy n → b.data ≠ .copy n

structure Sim (m : QueueMem) (f : Fifo) : Prop where
  blocks : ∃ blocks, Holds m blocks ∧ List.Forall₂ (Shows m) blocks (f.put.drop f.dropped) ∧
    SeparateCopies blocks
  own : ∀ n, m.buf (.own n) = f.own n
  dropped_le : f.dropped ≤ f.put.length

theorem sim_init (m : QueueMem) : Sim (ioQueueInit m) ⟨fun n => m.buf (.own n), [], 0⟩ where
  blocks := ⟨[], holds_init m, List.Forall₂.nil, List.Pairwise.nil⟩
  own _ := rfl
  dropped_le := Nat.le_refl 0

theorem Sim.bytes {m : QueueMem} {f : Fifo} (h : Sim m f) (n : Nat) :
    m.bytes (.own n) = (f.own n).getD [] := by
  rw [QueueMem.bytes, h.own n]

/-- A block appended, an item appended. -/
theorem Sim.push {m m' : QueueMem} {f : Fifo} (h : Sim m f) {it : Item} {b : IoQueueBlock}
    {blocks : List IoQueueBlock}
    (hall : List.Forall₂ (Shows m) blocks (f.put.drop f.dropped)) (hsep : SeparateCopies blocks)
    (hholds : Holds m' (blocks ++ [b])) (hshow : Shows m' b it)
    (hown : ∀ n, m'.buf (.own n) = m.buf (.own n))
    (hcopy : ∀ n, n < m.freshCopy → m'.buf (.copy n) = m.buf (.copy n))
    (hfresh : m.freshCopy ≤ m'.freshCopy) (hnew : ∀ n, b.data = .copy n → m.freshCopy ≤ n) :
    Sim m' { f with put := f.put ++ [it] } := by
  refine ⟨⟨blocks ++ [b], hholds, ?_, ?_⟩, fun n => (hown n).trans (h.own n), ?_⟩
  · rw [List.drop_append_of_le_length h.dropped_le]
    refine List.rel_append ?_ (List.Forall₂.cons hshow List.Forall₂.nil)
    exact hall.imp fun _ _ hs => hs.mono (fun n _ hlt => hcopy n hlt) hfresh
  · refine List.pairwise_append.mpr ⟨hsep, List.pairwise_singleton _ _, ?_⟩
    intro a ha c hc n hdata hcdata
    obtain rfl := List.mem_singleton.mp hc
    have hlt : ∀ a ∈ blocks, ∀ n, a.data = .copy n → n < m.freshCopy :=
      ((List.forall₂_and_left _ _).mp (hall.imp fun _ _ hs => ⟨fun _ => hs.copy_lt, hs⟩)).1
    have hge := hnew n hcdata
    have := hlt a ha n hdata
    omega
  · have hle := h.dropped_le
    simp only [List.length_append, List.length_cons, List.length_nil]
    omega

/-- A put. -/
theorem Sim.put {m : QueueMem} {f : Fifo} (h : Sim m f) (tag data size : Nat)
    (type_ : BlockType) :
    match itemOf f.own tag data size type_ with
    | none => ioQueuePutBlock m tag (.own data) size type_ = .error .badBuffer
    | some it => ∃ m', ioQueuePutBlock m tag (.own data) size type_ = .ok (toInt size, m') ∧
        Sim m' { f with put := f.put ++ [it] } := by
  obtain ⟨blocks, hblocks, hall, hsep⟩ := h.blocks
  unfold itemOf
  by_cases ht : type_ = .LOCAL
  · subst ht
    rw [← h.bytes data]
    by_cases hsize : size ≤ (m.bytes (.own data)).length
    · simp only [if_true, if_pos hsize]
      obtain ⟨m', hput, hholds, hbuf, hfresh⟩ := ioQueuePutBlock_copy hblocks tag (.own data) hsize
      refine ⟨m', hput, h.push hall hsep hholds ?_ ?_ ?_ ?_ ?_⟩
      · refine ⟨rfl, rfl, rfl, .inr ⟨rfl, _, m.freshCopy, rfl, rfl, by omega, ?_⟩⟩
        rw [hbuf]
        exact Function.update_self ..
      · intro n
        rw [hbuf]
        exact Function.update_of_ne (by simp) ..
      · intro n hn
        rw [hbuf]
        exact Function.update_of_ne (by simp; omega) ..
      · omega
      · intro n hn
        cases hn
        exact Nat.le_refl _
    · simp only [if_true, if_neg hsize]
      exact ioQueuePutBlock_short hblocks tag (.own data) (Nat.lt_of_not_le hsize)
  · simp only [if_neg ht]
    obtain ⟨m', hput, hholds, hbuf, hfresh⟩ :=
      ioQueuePutBlock_pointer hblocks tag (.own data) size ht
    refine ⟨m', hput, h.push hall hsep hholds ?_ ?_ ?_ ?_ ?_⟩
    · exact ⟨rfl, rfl, rfl, .inl ⟨ht, data, rfl, rfl⟩⟩
    · exact fun n => by rw [hbuf]
    · exact fun n _ => by rw [hbuf]
    · omega
    · intro n hn
      cases hn

/-! ## §3 Dropping -/

/-- Freeing a block and releasing its item are the same to the program's
buffers, and touch no copy but the block's own. -/
theorem freedBuf_release {m : QueueMem} {b : IoQueueBlock} {it : Item} (h : Shows m b it)
    {own : Nat → Option (List UInt8)} (hown : ∀ n, m.buf (.own n) = own n) :
    match it.release own with
    | none => freedBuf m.buf b = none
    | some own' => ∃ buf, freedBuf m.buf b = some buf ∧ (∀ n, buf (.own n) = own' n) ∧
        ∀ n, b.data ≠ .copy n → buf (.copy n) = m.buf (.copy n) := by
  unfold Item.release freedBuf
  rw [h.type_eq]
  rcases h.data with ⟨-, n, hpay, hdata⟩ | ⟨ht, bytes, n, hpay, hdata, -, hbuf⟩
  · rw [hpay]
    by_cases hs : it.type_ = .STATIC
    · simp only [if_pos hs]
      exact ⟨m.buf, rfl, hown, fun _ _ => rfl⟩
    · simp only [if_neg hs, hdata, hown n]
      by_cases hlive : (own n).isSome
      · simp only [if_pos hlive]
        refine ⟨_, rfl, ?_, ?_⟩
        · intro k
          by_cases hk : k = n
          · subst hk
            rw [Function.update_self, Function.update_self]
          · rw [Function.update_of_ne hk, Function.update_of_ne (by simpa using hk), hown]
        · exact fun k _ => Function.update_of_ne (by simp) ..
      · simp only [if_neg hlive]
  · have hne : it.type_ ≠ .STATIC := by rw [ht]; decide
    simp only [hpay, if_neg hne, hdata, hbuf, Option.isSome_some, if_true]
    refine ⟨_, rfl, ?_, ?_⟩
    · intro k
      rw [Function.update_of_ne (by simp), hown]
    · intro k hk
      exact Function.update_of_ne (fun he => hk he.symm) ..

/-- What is left of the items. -/
theorem drop_eq_cons {f : Fifo} {it : Item} (h : f.put[f.dropped]? = some it) :
    f.put.drop f.dropped = it :: f.put.drop (f.dropped + 1) := by
  obtain ⟨hlt, rfl⟩ := List.getElem?_eq_some_iff.mp h
  exact List.drop_eq_getElem_cons hlt

/-- With every item dropped there is no block. -/
theorem Sim.empty {m : QueueMem} {f : Fifo} (h : Sim m f) (hit : f.put[f.dropped]? = none) :
    f.dropped = f.put.length ∧ Holds m [] := by
  obtain ⟨blocks, hblocks, hall, -⟩ := h.blocks
  have hge := List.getElem?_eq_none_iff.mp hit
  rw [List.drop_eq_nil_of_le hge] at hall
  obtain rfl := List.forall₂_nil_right_iff.mp hall
  exact ⟨Nat.le_antisymm h.dropped_le hge, hblocks⟩

/-- A drop of the first block is a drop of the first item. -/
theorem Sim.drop {m : QueueMem} {f : Fifo} (h : Sim m f) {it : Item}
    (hit : f.put[f.dropped]? = some it) :
    match it.release f.own with
    | none => ioQueueBlockDrop m = .error .badBuffer
    | some own => ∃ m', ioQueueBlockDrop m = .ok (0, m') ∧
        Sim m' { f with own := own, dropped := f.dropped + 1 } := by
  obtain ⟨blocks, hblocks, hall, hsep⟩ := h.blocks
  rw [drop_eq_cons hit] at hall
  cases hall with
  | @cons b _ rest _ hshow hrest =>
    have hfreed := freedBuf_release hshow h.own
    cases hrel : it.release f.own with
    | none =>
      rw [hrel] at hfreed
      exact ioQueueBlockDrop_bad hblocks hfreed
    | some own =>
      rw [hrel] at hfreed
      obtain ⟨buf, hbuf, hown, hcopy⟩ := hfreed
      obtain ⟨m', hdrop, hholds, hbuf', hfresh⟩ := ioQueueBlockDrop_cons hblocks hbuf
      have hsep' := List.pairwise_cons.mp hsep
      refine ⟨m', hdrop, ⟨rest, hholds, ?_, hsep'.2⟩, ?_, ?_⟩
      · -- the copies of the other blocks are not the one freed
        have hother : List.Forall₂ (fun a it => (∀ n, b.data = .copy n → a.data ≠ .copy n) ∧
            Shows m a it) rest (f.put.drop (f.dropped + 1)) :=
          (List.forall₂_and_left _ _).mpr ⟨hsep'.1, hrest⟩
        refine hother.imp fun a it hs => hs.2.mono (fun n hn _ => ?_) (Nat.le_of_eq hfresh.symm)
        rw [hbuf']
        exact hcopy n fun hb => hs.1 n hb hn
      · exact fun n => by rw [hbuf']; exact hown n
      · obtain ⟨hlt, -⟩ := List.getElem?_eq_some_iff.mp hit
        exact hlt

/-! ## §4 One step -/

/-- What the program sees of the queue when this FIFO describes it. -/
structure QueueIs (m : QueueMem) (f : Fifo) : Prop where
  /-- get shows the first item that was not dropped -/
  get : ∃ b, ioQueueGetBlock m = .ok b ∧ Option.Rel (Shows m) b f.put[f.dropped]?
  get_null : ioQueueGetBlock m = .ok none ↔ f.dropped = f.put.length
  drop_none : (∃ m', ioQueueBlockDrop m = .ok (-1, m')) ↔ f.dropped = f.put.length
  first_last : m.q.first = none ↔ m.q.last = none
  last : ∃ segs, Chain m.next m.q.first segs ∧ m.q.last = segs.getLast?

theorem Sim.queueIs {m : QueueMem} {f : Fifo} (h : Sim m f) : QueueIs m f := by
  obtain ⟨blocks, hblocks, hall, hsep⟩ := h.blocks
  have hget := ioQueueGetBlock_holds hblocks
  obtain ⟨segs, hsegs, -⟩ := id hblocks
  have hfl : m.q.first = none ↔ m.q.last = none :=
    hsegs.nodes.first_eq_none.trans hsegs.nodes.last_eq_none.symm
  have hlast : ∃ ids, Chain m.next m.q.first ids ∧ m.q.last = ids.getLast? :=
    ⟨_, hsegs.nodes.chain, hsegs.nodes.last_eq⟩
  cases hit : f.put[f.dropped]? with
  | none =>
    obtain ⟨heq, hempty⟩ := h.empty hit
    have hnone := ioQueueGetBlock_holds hempty
    refine ⟨⟨none, hnone, ?_⟩, iff_of_true hnone heq,
      iff_of_true ⟨m, ioQueueBlockDrop_nil hempty⟩ heq, hfl, hlast⟩
    rw [hit]
    exact .none
  | some it =>
    obtain ⟨hlt, -⟩ := List.getElem?_eq_some_iff.mp hit
    have hne : f.dropped ≠ f.put.length := Nat.ne_of_lt hlt
    have hdrop := h.drop hit
    rw [drop_eq_cons hit] at hall
    cases hall with
    | @cons b _ rest _ hshow hrest =>
      refine ⟨⟨some b, hget, ?_⟩, iff_of_false ?_ hne, iff_of_false ?_ hne, hfl, hlast⟩
      · rw [hit]
        exact .some hshow
      · rw [hget]
        simp
      · rintro ⟨m', hm'⟩
        cases hrel : it.release f.own with
        | none => rw [hrel] at hdrop; rw [hdrop] at hm'; cases hm'
        | some own =>
          rw [hrel] at hdrop
          obtain ⟨m'', hd, -⟩ := hdrop
          rw [hd] at hm'
          simp at hm'

/-- The program giving one of its own buffers another content. -/
theorem Sim.setOwn {m : QueueMem} {f : Fifo} (h : Sim m f) (n : Nat)
    (content : Option (List UInt8)) :
    Sim { m with buf := Function.update m.buf (.own n) content }
      { f with own := Function.update f.own n content } := by
  obtain ⟨blocks, ⟨segs, hsegs, hb⟩, hall, hsep⟩ := h.blocks
  refine ⟨⟨blocks, ⟨segs, hsegs.congr rfl rfl rfl rfl, hb⟩, ?_, hsep⟩, ?_, h.dropped_le⟩
  · refine hall.imp fun _ _ hs => hs.mono (fun k _ _ => ?_) (Nat.le_refl _)
    have hne : DataPtr.copy k ≠ .own n := by simp
    exact Function.update_of_ne hne content m.buf
  · intro k
    by_cases hk : k = n
    · subst hk
      simp
    · simp [hk, h.own k]

/-- One operation of the queue is one of the FIFO. -/
theorem Sim.step {m : QueueMem} {f : Fifo} (h : Sim m f) (op : QueueOp) :
    (f.step op = none → m.step op = .error .badBuffer) ∧
      ∀ f', f.step op = some f' → ∃ out m', m.step op = .ok (out, m') ∧ Sim m' f' := by
  cases op with
  | put tag data size type_ =>
    have hput := h.put tag data size type_
    simp only [Fifo.step, QueueMem.step]
    cases hit : itemOf f.own tag data size type_ with
    | none =>
      rw [hit] at hput
      have hbad : ioQueuePutBlock m tag (.own data) size type_ = .error .badBuffer := hput
      simp [hbad, bind, Except.bind]
    | some it =>
      rw [hit] at hput
      obtain ⟨m', hput, hsim⟩ := hput
      refine ⟨by simp, ?_⟩
      rintro _ ⟨⟩
      exact ⟨_, m', by simp only [hput, bind, Except.bind]; rfl, hsim⟩
  | get =>
    obtain ⟨b, hget, -⟩ := h.queueIs.get
    refine ⟨by simp [Fifo.step], ?_⟩
    rintro _ ⟨⟩
    exact ⟨_, m, by simp only [QueueMem.step, hget, bind, Except.bind]; rfl, h⟩
  | drop =>
    simp only [Fifo.step, QueueMem.step]
    cases hit : f.put[f.dropped]? with
    | none =>
      have hdrop := ioQueueBlockDrop_nil (h.empty hit).2
      refine ⟨by simp, ?_⟩
      rintro _ ⟨⟩
      exact ⟨_, m, by simp only [hdrop, bind, Except.bind]; rfl, h⟩
    | some it =>
      have hdrop := h.drop hit
      cases hrel : it.release f.own with
      | none =>
        rw [hrel] at hdrop
        have hbad : ioQueueBlockDrop m = .error .badBuffer := hdrop
        simp [hrel, hbad, bind, Except.bind]
      | some own =>
        rw [hrel] at hdrop
        obtain ⟨m', hdrop, hsim⟩ := hdrop
        refine ⟨by simp [hrel], ?_⟩
        simp only [hrel, Option.map_some]
        rintro _ ⟨⟩
        exact ⟨_, m', by simp only [hdrop, bind, Except.bind]; rfl, hsim⟩
  | own n content =>
    refine ⟨by simp [Fifo.step], ?_⟩
    rintro _ ⟨⟩
    exact ⟨_, _, rfl, h.setOwn n content⟩

/-! ## §5 Every run -/

theorem Sim.run (ops : List QueueOp) {m : QueueMem} {f : Fifo} (h : Sim m f) :
    (f.run ops = none → m.run ops = .error .badBuffer) ∧
      ∀ f', f.run ops = some f' → ∃ m', m.run ops = .ok m' ∧ Sim m' f' := by
  induction ops generalizing m f with
  | nil =>
    refine ⟨by simp [Fifo.run], ?_⟩
    rintro _ ⟨⟩
    exact ⟨m, rfl, h⟩
  | cons op ops ih =>
    obtain ⟨hbad, hok⟩ := h.step op
    simp only [Fifo.run, QueueMem.run]
    cases hf : f.step op with
    | none => simp [hbad hf, bind, Except.bind]
    | some f₁ =>
      obtain ⟨out, m₁, hm, h₁⟩ := hok f₁ hf
      simpa only [hm, Option.bind_some, bind, Except.bind] using ih h₁

/-- Whatever is put, got and dropped, in any order and across any number of
segments, and whatever the program does to its own buffers meanwhile: the
queue is the FIFO of the items put. -/
theorem ioQueue_refines_fifo (m : QueueMem) (ops : List QueueOp) :
    match Fifo.run ⟨fun n => m.buf (.own n), [], 0⟩ ops with
    | none => (ioQueueInit m).run ops = .error .badBuffer
    | some f => ∃ m', (ioQueueInit m).run ops = .ok m' ∧ QueueIs m' f := by
  obtain ⟨hbad, hok⟩ := (sim_init m).run ops
  cases hf : Fifo.run ⟨fun n => m.buf (.own n), [], 0⟩ ops with
  | none => exact hbad hf
  | some f =>
    obtain ⟨m', hm', hsim⟩ := hok f hf
    exact ⟨m', hm', hsim.queueIs⟩

end Nanio.Queue
