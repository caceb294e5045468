/-
Nanio.Queue.IoQueueTheorems — a queue is a FIFO of blocks.

`Holds m blocks` says that the segments from `first` on are filled
correctly and hold these blocks: every segment but the last one has a block
in it, and a last one that was emptied is back at its start. §2 and §3 say
of each operation what it does to the blocks. §4 is the abstract FIFO: all
items ever put, and the number of them that were dropped; it stops where
the program hands over a buffer that is not there. §5 runs the queue and
the FIFO side by side.
-/
import Nanio.Queue.IoQueue
import Nanio.Lib.NodeChain
import Mathlib.Data.List.Forall2

namespace Nanio.Queue

open Nanio.Lib

/-! ## §1 Segments -/

/-- Filled within its blocks, and reset when it is empty. -/
structure IoQueueSeg.Wf (g : IoQueueSeg) : Prop where
  some_or_reset : g.begin_ < g.end_ ∨ (g.begin_ = 0 ∧ g.end_ = 0)
  end_le : g.end_ ≤ IO_QUEUE_PART_BLOCKS_LENGTH

theorem IoQueueSeg.queued_eq_nil {g : IoQueueSeg} : g.queued = [] ↔ ¬ g.begin_ < g.end_ := by
  simp [IoQueueSeg.queued]
  omega

/-- The block at `end` written and counted. -/
theorem IoQueueSeg.queued_push (g : IoQueueSeg) (h : g.begin_ ≤ g.end_) (b : IoQueueBlock) :
    (IoQueueSeg.mk g.begin_ (g.end_ + 1) (Function.update g.blocks g.end_ b)).queued =
      g.queued ++ [b] := by
  have hlen : g.end_ + 1 - g.begin_ = (g.end_ - g.begin_) + 1 := by omega
  have hlast : g.begin_ + (g.end_ - g.begin_) = g.end_ := by omega
  simp only [IoQueueSeg.queued, hlen, List.range'_1_concat, List.map_append, List.map_cons,
    List.map_nil, hlast, Function.update_self]
  congr 1
  refine List.map_congr_left fun i hi => Function.update_of_ne ?_ ..
  have := (List.mem_range'_1.mp hi).2
  omega

/-- The block at `begin` passed. -/
theorem IoQueueSeg.queued_pop (g : IoQueueSeg) (h : g.begin_ < g.end_) :
    g.queued = g.blocks g.begin_ :: (IoQueueSeg.mk (g.begin_ + 1) g.end_ g.blocks).queued := by
  have hlen : g.end_ - g.begin_ = (g.end_ - (g.begin_ + 1)) + 1 := by omega
  simp only [IoQueueSeg.queued]
  rw [hlen, List.range'_succ, List.map_cons]

@[simp] theorem queued_reset (blocks : Nat → IoQueueBlock) :
    (IoQueueSeg.mk 0 0 blocks).queued = [] := rfl

theorem wf_reset (blocks : Nat → IoQueueBlock) : (IoQueueSeg.mk 0 0 blocks).Wf :=
  ⟨.inr ⟨rfl, rfl⟩, Nat.zero_le _⟩

/-! ## §2 The queue -/

def blocksOf (segs : List (SegId × IoQueueSeg)) : List IoQueueBlock :=
  segs.flatMap (·.2.queued)

@[simp] theorem blocksOf_nil : blocksOf [] = [] := rfl

@[simp] theorem blocksOf_cons (x : SegId × IoQueueSeg) (segs : List (SegId × IoQueueSeg)) :
    blocksOf (x :: segs) = x.2.queued ++ blocksOf segs := rfl

@[simp] theorem blocksOf_append (l₁ l₂ : List (SegId × IoQueueSeg)) :
    blocksOf (l₁ ++ l₂) = blocksOf l₁ ++ blocksOf l₂ := by simp [blocksOf]

/-- The queue consists of these segments. -/
structure Segs (m : QueueMem) (segs : List (SegId × IoQueueSeg)) : Prop where
  nodes : NodeChain m.seg m.next m.q.first m.q.last m.freshSeg segs
  wf : ∀ x ∈ segs, x.2.Wf
  busy : ∀ x ∈ segs.dropLast, x.2.begin_ < x.2.end_

/-- The queue holds these blocks, the next to get first. -/
def Holds (m : QueueMem) (blocks : List IoQueueBlock) : Prop :=
  ∃ segs, Segs m segs ∧ blocksOf segs = blocks

theorem holds_init (m : QueueMem) : Holds (ioQueueInit m) [] :=
  ⟨[], ⟨NodeChain.nil, by simp, by simp⟩, rfl⟩

theorem Segs.get {m : QueueMem} {segs : List (SegId × IoQueueSeg)} (h : Segs m segs)
    {x : SegId × IoQueueSeg} (hx : x ∈ segs) : m.getSeg x.1 = .ok x.2 := by
  rw [QueueMem.getSeg, h.nodes.mem_live x hx]

/-- The first segment is there. -/
theorem Segs.first {m : QueueMem} {s : SegId} {g : IoQueueSeg} {segs : List (SegId × IoQueueSeg)}
    (h : Segs m ((s, g) :: segs)) : m.q.first = some s ∧ m.getSeg s = .ok g :=
  ⟨h.nodes.chain.1, h.get List.mem_cons_self⟩

/-- The pointers of the queue and the links of its segments decide; the
buffers do not matter. -/
theorem Segs.congr {m m' : QueueMem} {segs : List (SegId × IoQueueSeg)} (h : Segs m segs)
    (hq : m'.q = m.q) (hseg : m'.seg = m.seg) (hnext : m'.next = m.next)
    (hfresh : m'.freshSeg = m.freshSeg) : Segs m' segs := by
  refine ⟨?_, h.wf, h.busy⟩
  rw [hq, hseg, hnext, hfresh]
  exact h.nodes

/-- Only the only segment can be empty. -/
theorem Segs.rest_eq_nil {m : QueueMem} {s : SegId} {g : IoQueueSeg}
    {segs : List (SegId × IoQueueSeg)} (h : Segs m ((s, g) :: segs))
    (he : ¬ g.begin_ < g.end_) : segs = [] := by
  cases segs with
  | nil => rfl
  | cons x segs => exact absurd (h.busy (s, g) (by simp)) he

/-- `io_queue_get_block` shows the first block, if there is one. -/
theorem ioQueueGetBlock_holds {m : QueueMem} {blocks : List IoQueueBlock} (h : Holds m blocks) :
    ioQueueGetBlock m = .ok blocks.head? := by
  obtain ⟨segs, hs, rfl⟩ := h
  cases segs with
  | nil =>
    have hfirst : m.q.first = none := hs.nodes.first_eq_none.mpr rfl
    rw [ioQueueGetBlock, hfirst]
    rfl
  | cons x segs =>
    obtain ⟨s, g⟩ := x
    obtain ⟨hfirst, hget⟩ := hs.first
    rw [ioQueueGetBlock, hfirst]
    simp only [hget, bind, Except.bind, pure, Except.pure]
    by_cases hlt : g.begin_ < g.end_
    · simp [hlt, g.queued_pop hlt]
    · have hnil : g.queued = [] := IoQueueSeg.queued_eq_nil.mpr hlt
      obtain rfl := hs.rest_eq_nil hlt
      simp [hlt, hnil]

/-! ## §3 Putting -/

/-- A new segment is the last one. -/
theorem ioQueueSegNew_segs {m : QueueMem} {segs : List (SegId × IoQueueSeg)} (h : Segs m segs)
    (hbusy : ∀ x ∈ segs, x.2.begin_ < x.2.end_) :
    ∃ s m', ioQueueSegNew m = .ok (s, m') ∧ Segs m' (segs ++ [(s, ⟨0, 0, noBlocks⟩)]) ∧
      m'.buf = m.buf ∧ m'.freshCopy = m.freshCopy := by
  have hwf : ∀ x ∈ segs ++ [(m.freshSeg, (⟨0, 0, noBlocks⟩ : IoQueueSeg))], x.2.Wf :=
    List.forall_mem_append.mpr ⟨h.wf, List.forall_mem_singleton.mpr (wf_reset noBlocks)⟩
  have hbusy' : ∀ x ∈ (segs ++ [(m.freshSeg, (⟨0, 0, noBlocks⟩ : IoQueueSeg))]).dropLast,
      x.2.begin_ < x.2.end_ := by
    intro x hx
    rw [List.dropLast_concat] at hx
    exact hbusy x hx
  have hnodes := h.nodes
  cases hlast : m.q.last with
  | none =>
    obtain rfl := hnodes.last_eq_none.mp hlast
    let m' : QueueMem := { m with
      q := ⟨some m.freshSeg, some m.freshSeg⟩
      seg := Function.update m.seg m.freshSeg (some ⟨0, 0, noBlocks⟩)
      next := Function.update m.next m.freshSeg none
      freshSeg := m.freshSeg + 1 }
    have hnodes' : NodeChain m'.seg m'.next m'.q.first m'.q.last m'.freshSeg
        [(m.freshSeg, ⟨0, 0, noBlocks⟩)] :=
      NodeChain.single (Function.update_self ..) (Nat.lt_succ_self _) (Function.update_self ..)
    refine ⟨m.freshSeg, m', ?_, ⟨hnodes', hwf, hbusy'⟩, rfl, rfl⟩
    simp only [ioQueueSegNew, hlast]
    rfl
  | some l =>
    rw [hlast] at hnodes
    obtain ⟨g, hg⟩ := hnodes.last_mem
    have hlive := (hnodes.alloc ⟨0, 0, noBlocks⟩).mem_live (l, g) hg
    let m' : QueueMem := { m with
      q := ⟨m.q.first, some m.freshSeg⟩
      seg := Function.update m.seg m.freshSeg (some ⟨0, 0, noBlocks⟩)
      next := Function.update (Function.update m.next m.freshSeg none) l (some m.freshSeg)
      freshSeg := m.freshSeg + 1 }
    refine ⟨m.freshSeg, m', ?_, ⟨hnodes.grow _, hwf, hbusy'⟩, rfl, rfl⟩
    simp only [ioQueueSegNew, hlast, QueueMem.getSeg, hlive]
    rfl

/-- The segment for a new block is the last one and has room. -/
theorem segWithRoom_segs {m : QueueMem} {blocks : List IoQueueBlock} (h : Holds m blocks) :
    ∃ s g m' pre, segWithRoom m = .ok (s, m') ∧ Segs m' (pre ++ [(s, g)]) ∧
      g.end_ < IO_QUEUE_PART_BLOCKS_LENGTH ∧ blocksOf (pre ++ [(s, g)]) = blocks ∧
      m'.buf = m.buf ∧ m'.freshCopy = m.freshCopy := by
  obtain ⟨segs, hs, rfl⟩ := h
  unfold segWithRoom
  rcases List.eq_nil_or_concat segs with rfl | ⟨pre, ⟨s, g⟩, rfl⟩
  · have hlast : m.q.last = none := hs.nodes.last_eq_none.mpr rfl
    obtain ⟨s, m', hnew, hsegs, hbuf, hcopy⟩ := ioQueueSegNew_segs hs (by simp)
    rw [hlast]
    exact ⟨s, _, m', [], hnew, hsegs, by decide, by simp, hbuf, hcopy⟩
  · rw [List.concat_eq_append] at hs ⊢
    have hlast : m.q.last = some s := by rw [hs.nodes.last_eq]; simp
    have hget : m.getSeg s = .ok g := hs.get (x := (s, g)) (by simp)
    rw [hlast]
    simp only [hget, bind, Except.bind]
    by_cases hfull : IO_QUEUE_PART_BLOCKS_LENGTH ≤ g.end_
    · -- a full segment has a block in it, or it would have been reset
      have hbusy : ∀ x ∈ pre ++ [(s, g)], x.2.begin_ < x.2.end_ := by
        intro x hx
        rcases List.mem_append.mp hx with hx | hx
        · exact hs.busy x (by rw [List.dropLast_concat]; exact hx)
        · obtain rfl := List.mem_singleton.mp hx
          have hpos : 0 < IO_QUEUE_PART_BLOCKS_LENGTH := by decide
          rcases (hs.wf (s, g) (by simp)).some_or_reset with hlt | ⟨-, hend⟩
          · exact hlt
          · have hend' : g.end_ = 0 := hend
            omega
      obtain ⟨s', m', hnew, hsegs, hbuf, hcopy⟩ := ioQueueSegNew_segs hs hbusy
      rw [if_pos hfull]
      exact ⟨s', _, m', pre ++ [(s, g)], hnew, hsegs, by decide, by simp, hbuf, hcopy⟩
    · rw [if_neg hfull]
      exact ⟨s, g, m, pre, rfl, hs, Nat.lt_of_not_le hfull, rfl, rfl, rfl⟩

/-- Rewriting the last segment. -/
theorem Segs.setLast {m : QueueMem} {pre : List (SegId × IoQueueSeg)} {s : SegId}
    {g g' : IoQueueSeg} (h : Segs m (pre ++ [(s, g)])) (hwf : g'.Wf) :
    Segs (m.setSeg s g') (pre ++ [(s, g')]) := by
  obtain ⟨hpre, -⟩ := List.forall_mem_append.mp h.wf
  refine ⟨h.nodes.set g', ?_, ?_⟩
  · exact List.forall_mem_append.mpr ⟨hpre, List.forall_mem_singleton.mpr hwf⟩
  · intro x hx
    rw [List.dropLast_concat] at hx
    exact h.busy x (by rw [List.dropLast_concat]; exact hx)

theorem IoQueueSeg.Wf.push {g : IoQueueSeg} (h : g.Wf) (hlt : g.end_ < IO_QUEUE_PART_BLOCKS_LENGTH)
    (blocks : Nat → IoQueueBlock) : (IoQueueSeg.mk g.begin_ (g.end_ + 1) blocks).Wf := by
  refine ⟨.inl ?_, hlt⟩
  show g.begin_ < g.end_ + 1
  rcases h.some_or_reset with hlt | ⟨hbegin, -⟩
  · exact Nat.lt_succ_of_lt hlt
  · omega

/-- The new block is the one behind all others: writing it appends it,
whatever has become of the buffers meanwhile. -/
theorem ioQueueNewBlock_holds {m : QueueMem} {blocks : List IoQueueBlock} (h : Holds m blocks) :
    ∃ s i m₁, ioQueueNewBlock m = .ok (s, i, m₁) ∧ m₁.buf = m.buf ∧
      m₁.freshCopy = m.freshCopy ∧
      ∀ buf freshCopy b, ∃ m₂,
        { m₁ with buf := buf, freshCopy := freshCopy }.setBlock s i b = .ok m₂ ∧
        Holds m₂ (blocks ++ [b]) ∧ m₂.buf = buf ∧ m₂.freshCopy = freshCopy := by
  obtain ⟨s, g, m', pre, hroom, hsegs, hlt, hblocks, hbuf, hcopy⟩ := segWithRoom_segs h
  have hwf : g.Wf := hsegs.wf (s, g) (by simp)
  have hget : m'.getSeg s = .ok g := hsegs.get (x := (s, g)) (by simp)
  have hcounted := hsegs.setLast (hwf.push hlt g.blocks)
  refine ⟨s, g.end_, m'.setSeg s { g with end_ := g.end_ + 1 }, ?_, hbuf, hcopy, ?_⟩
  · simp only [ioQueueNewBlock, hroom, bind, Except.bind, hget]
    rfl
  · intro buf freshCopy b
    let m₁ : QueueMem :=
      { m'.setSeg s { g with end_ := g.end_ + 1 } with buf := buf, freshCopy := freshCopy }
    have h₁ : Segs m₁ (pre ++ [(s, { g with end_ := g.end_ + 1 })]) :=
      hcounted.congr rfl rfl rfl rfl
    have hget₁ : m₁.getSeg s = .ok { g with end_ := g.end_ + 1 } :=
      h₁.get (x := (s, { g with end_ := g.end_ + 1 })) (by simp)
    refine ⟨_, ?_, ⟨_, h₁.setLast (hwf.push hlt (Function.update g.blocks g.end_ b)), ?_⟩, rfl, rfl⟩
    · show m₁.setBlock s g.end_ b = _
      simp only [QueueMem.setBlock, hget₁, bind, Except.bind, if_pos hlt]
      rfl
    · have hle : g.begin_ ≤ g.end_ := by
        rcases hwf.some_or_reset with hlt | ⟨hbegin, -⟩
        · exact Nat.le_of_lt hlt
        · omega
      have hpush := g.queued_push hle b
      rw [← hblocks]
      simp [hpush]

/-- A block that is not copied. -/
theorem ioQueuePutBlock_pointer {m : QueueMem} {blocks : List IoQueueBlock} (h : Holds m blocks)
    (tag : Nat) (data : DataPtr) (size : Nat) {type_ : BlockType} (ht : type_ ≠ .LOCAL) :
    ∃ m', ioQueuePutBlock m tag data size type_ = .ok (toInt size, m') ∧
      Holds m' (blocks ++ [⟨type_, size % 2 ^ 16, tag, data⟩]) ∧ m'.buf = m.buf ∧
      m'.freshCopy = m.freshCopy := by
  obtain ⟨s, i, m₁, hnew, hbuf, hcopy, hset⟩ := ioQueueNewBlock_holds h
  obtain ⟨m₂, hset, hholds, hbuf₂, hcopy₂⟩ :=
    hset m₁.buf m₁.freshCopy ⟨type_, size % 2 ^ 16, tag, data⟩
  refine ⟨m₂, ?_, hholds, hbuf₂.trans hbuf, hcopy₂.trans hcopy⟩
  have hset' : m₁.setBlock s i ⟨type_, size % 2 ^ 16, tag, data⟩ = .ok m₂ := hset
  simp only [ioQueuePutBlock, hnew, bind, Except.bind, QueueMem.putData, if_neg ht, hset']
  rfl

/-- A block with a copy of the data. -/
theorem ioQueuePutBlock_copy {m : QueueMem} {blocks : List IoQueueBlock} (h : Holds m blocks)
    (tag : Nat) (data : DataPtr) {size : Nat} (hsize : size ≤ (m.bytes data).length) :
    ∃ m', ioQueuePutBlock m tag data size .LOCAL = .ok (toInt size, m') ∧
      Holds m' (blocks ++ [⟨.LOCAL, size % 2 ^ 16, tag, .copy m.freshCopy⟩]) ∧
      m'.buf = Function.update m.buf (.copy m.freshCopy) (some ((m.bytes data).take size)) ∧
      m'.freshCopy = m.freshCopy + 1 := by
  obtain ⟨s, i, m₁, hnew, hbuf, hcopy, hset⟩ := ioQueueNewBlock_holds h
  have hbytes : m₁.bytes data = m.bytes data := by rw [QueueMem.bytes, hbuf, QueueMem.bytes]
  obtain ⟨m₂, hset, hholds, hbuf₂, hcopy₂⟩ := hset
    (Function.update m₁.buf (.copy m₁.freshCopy) (some ((m₁.bytes data).take size)))
    (m₁.freshCopy + 1) ⟨.LOCAL, size % 2 ^ 16, tag, .copy m₁.freshCopy⟩
  rw [hbytes, hbuf, hcopy] at hbuf₂
  rw [hcopy] at hcopy₂ hholds
  refine ⟨m₂, ?_, hholds, hbuf₂, hcopy₂⟩
  have hfits : size ≤ (m₁.bytes data).length := by rw [hbytes]; exact hsize
  simp only [ioQueuePutBlock, hnew, bind, Except.bind, QueueMem.putData, QueueMem.copyData,
    if_pos hfits, if_true, hset]
  rfl

/-- Data that is too short to be copied. -/
theorem ioQueuePutBlock_short {m : QueueMem} {blocks : List IoQueueBlock} (h : Holds m blocks)
    (tag : Nat) (data : DataPtr) {size : Nat} (hsize : (m.bytes data).length < size) :
    ioQueuePutBlock m tag data size .LOCAL = .error .badBuffer := by
  obtain ⟨s, i, m₁, hnew, hbuf, -, -⟩ := ioQueueNewBlock_holds h
  have hshort : ¬ size ≤ (m₁.bytes data).length := by
    rw [QueueMem.bytes, hbuf]
    exact Nat.not_le_of_lt hsize
  simp only [ioQueuePutBlock, hnew, bind, Except.bind, QueueMem.putData, QueueMem.copyData,
    if_neg hshort, if_true]

/-! ## §4 Dropping -/

/-- Nothing to drop. -/
theorem ioQueueBlockDrop_nil {m : QueueMem} (h : Holds m []) :
    ioQueueBlockDrop m = .ok (-1, m) := by
  obtain ⟨segs, hs, hnil⟩ := h
  cases segs with
  | nil =>
    have hfirst : m.q.first = none := hs.nodes.first_eq_none.mpr rfl
    rw [ioQueueBlockDrop, hfirst]
  | cons x segs =>
    obtain ⟨s, g⟩ := x
    obtain ⟨hfirst, hget⟩ := hs.first
    have hqueued : g.queued = [] := (List.append_eq_nil_iff.mp hnil).1
    have hlt : ¬ g.begin_ < g.end_ := IoQueueSeg.queued_eq_nil.mp hqueued
    rw [ioQueueBlockDrop, hfirst]
    simp only [hget, bind, Except.bind, if_neg hlt]
    rfl

/-- The buffers when a block has been freed; none when its data was not
there any more. -/
def freedBuf (buf : DataPtr → Option (List UInt8)) (b : IoQueueBlock) :
    Option (DataPtr → Option (List UInt8)) :=
  if b.type_ = .STATIC then some buf
  else if (buf b.data).isSome then some (Function.update buf b.data none) else none

theorem ioQueueBlockFree_eq (m : QueueMem) (b : IoQueueBlock) :
    ioQueueBlockFree m b =
      match freedBuf m.buf b with
      | some buf => .ok { m with buf := buf }
      | none => .error .badBuffer := by
  unfold ioQueueBlockFree freedBuf QueueMem.freeData
  by_cases ht : b.type_ = .STATIC
  · simp [ht]
  · cases m.buf b.data <;> simp [ht]

/-- Only segments without blocks are reset. -/
theorem ioQueueSegFree_empty {m : QueueMem} {s : SegId} {g : IoQueueSeg}
    (hget : m.getSeg s = .ok g) (he : ¬ g.begin_ < g.end_) :
    ioQueueSegFree m s = .ok (m.setSeg s { g with begin_ := 0, end_ := 0 }) := by
  have hnil : g.queued = [] := IoQueueSeg.queued_eq_nil.mpr he
  simp only [ioQueueSegFree, hget, bind, Except.bind, hnil, ioQueueBlocksFree]
  rfl

/-- The first block of the queue, and the segment it is in. -/
theorem Holds.cons {m : QueueMem} {b : IoQueueBlock} {rest : List IoQueueBlock}
    (h : Holds m (b :: rest)) :
    ∃ s g segs, Segs m ((s, g) :: segs) ∧ g.begin_ < g.end_ ∧ g.blocks g.begin_ = b ∧
      (IoQueueSeg.mk (g.begin_ + 1) g.end_ g.blocks).queued ++ blocksOf segs = rest := by
  obtain ⟨segs, hs, hblocks⟩ := h
  cases segs with
  | nil => simp at hblocks
  | cons x segs =>
    obtain ⟨s, g⟩ := x
    by_cases hlt : g.begin_ < g.end_
    · rw [blocksOf_cons, g.queued_pop hlt, List.cons_append, List.cons.injEq] at hblocks
      exact ⟨s, g, segs, hs, hlt, hblocks.1, hblocks.2⟩
    · obtain rfl := hs.rest_eq_nil hlt
      have hnil : g.queued = [] := IoQueueSeg.queued_eq_nil.mpr hlt
      simp [hnil] at hblocks

/-- A block that cannot be freed. -/
theorem ioQueueBlockDrop_bad {m : QueueMem} {b : IoQueueBlock} {rest : List IoQueueBlock}
    (h : Holds m (b :: rest)) (hb : freedBuf m.buf b = none) :
    ioQueueBlockDrop m = .error .badBuffer := by
  obtain ⟨s, g, segs, hs, hlt, rfl, -⟩ := h.cons
  obtain ⟨hfirst, hget⟩ := hs.first
  have hfree := ioQueueBlockFree_eq (m.setSeg s { g with begin_ := g.begin_ + 1 })
    (g.blocks g.begin_)
  have hsame : (m.setSeg s { g with begin_ := g.begin_ + 1 }).buf = m.buf := rfl
  rw [hsame, hb] at hfree
  rw [ioQueueBlockDrop, hfirst]
  simp only [hget, bind, Except.bind, if_pos hlt, hfree]

/-- Rewriting the first segment, with a block left in it. -/
theorem Segs.setFirst {m : QueueMem} {s : SegId} {g g' : IoQueueSeg}
    {segs : List (SegId × IoQueueSeg)} (h : Segs m ((s, g) :: segs)) (hwf : g'.Wf)
    (hlt : g'.begin_ < g'.end_) : Segs (m.setSeg s g') ((s, g') :: segs) := by
  refine ⟨h.nodes.setFirst g', ?_, ?_⟩
  · exact List.forall_mem_cons.mpr ⟨hwf, (List.forall_mem_cons.mp h.wf).2⟩
  · intro x hx
    cases segs with
    | nil => simp at hx
    | cons y segs =>
      rw [List.dropLast_cons_of_ne_nil (by simp)] at hx
      rcases List.mem_cons.mp hx with rfl | hx
      · exact hlt
      · exact h.busy x (List.mem_cons_of_mem _ hx)

/-- Freeing the first of several segments. -/
theorem Segs.dropFirst {m : QueueMem} {s n : SegId} {g g' : IoQueueSeg}
    {segs : List (SegId × IoQueueSeg)} (h : Segs m ((s, g) :: (n, g') :: segs)) :
    Segs { m with q := ⟨some n, m.q.last⟩, seg := Function.update m.seg s none }
      ((n, g') :: segs) := by
  have hnext : m.next s = some n := h.nodes.chain.2.1
  have hnodes := h.nodes.dropFirst (List.cons_ne_nil _ _)
  rw [hnext] at hnodes
  exact ⟨hnodes, fun x hx => h.wf x (List.mem_cons_of_mem _ hx),
    fun x hx => h.busy x (List.mem_cons_of_mem _ hx)⟩

/-- `io_queue_block_drop` takes the first block out: by moving `begin`, by
resetting the only segment, or by freeing an emptied one. -/
theorem ioQueueBlockDrop_cons {m : QueueMem} {b : IoQueueBlock} {rest : List IoQueueBlock}
    (h : Holds m (b :: rest)) {buf : DataPtr → Option (List UInt8)}
    (hb : freedBuf m.buf b = some buf) :
    ∃ m', ioQueueBlockDrop m = .ok (0, m') ∧ Holds m' rest ∧ m'.buf = buf ∧
      m'.freshCopy = m.freshCopy := by
  obtain ⟨s, g, segs, hs, hlt, rfl, rfl⟩ := h.cons
  obtain ⟨hfirst, hget⟩ := hs.first
  let g₁ : IoQueueSeg := { g with begin_ := g.begin_ + 1 }
  let m₁ : QueueMem := { m.setSeg s g₁ with buf := buf }
  have hfree : ioQueueBlockFree (m.setSeg s { g with begin_ := g.begin_ + 1 })
      (g.blocks g.begin_) = .ok m₁ := by
    have hsame : (m.setSeg s g₁).buf = m.buf := rfl
    rw [ioQueueBlockFree_eq, hsame, hb]
  rw [ioQueueBlockDrop, hfirst]
  simp only [hget, bind, Except.bind, if_pos hlt, hfree]
  by_cases hmore : g.end_ ≤ g.begin_ + 1
  · have hempty : ¬ g₁.begin_ < g₁.end_ := Nat.not_lt_of_le hmore
    have hnil : g₁.queued = [] := IoQueueSeg.queued_eq_nil.mpr hempty
    let g₂ : IoQueueSeg := { g₁ with begin_ := 0, end_ := 0 }
    have hget₁ : m₁.getSeg s = .ok g₁ := by simp [m₁, QueueMem.getSeg, QueueMem.setSeg]
    have hseg : ioQueueSegFree m₁ s = .ok (m₁.setSeg s g₂) := ioQueueSegFree_empty hget₁ hempty
    simp only [if_pos hmore, hseg]
    cases segs with
    | nil =>
      have hnext : (m₁.setSeg s g₂).next s = none := hs.nodes.chain.2
      have hreset : Segs (m.setSeg s g₂) ([] ++ [(s, g₂)]) := Segs.setLast hs (wf_reset g.blocks)
      simp only [hnext]
      refine ⟨_, rfl, ⟨[(s, g₂)], hreset.congr rfl ?_ rfl rfl, ?_⟩, rfl, rfl⟩
      · exact Function.update_idem ..
      · show g₂.queued ++ [] = g₁.queued ++ []
        rw [hnil]
        rfl
    | cons x segs =>
      have hnext : (m₁.setSeg s g₂).next s = some x.1 := hs.nodes.chain.2.1
      simp only [hnext]
      refine ⟨_, rfl, ⟨x :: segs, hs.dropFirst.congr rfl ?_ rfl rfl, ?_⟩, rfl, rfl⟩
      · simp [m₁, QueueMem.setSeg]
      · show _ = g₁.queued ++ _
        rw [hnil]
        rfl
  · have hleft : g₁.begin_ < g₁.end_ := Nat.lt_of_not_le hmore
    have hwf : g₁.Wf := ⟨.inl hleft, (hs.wf (s, g) List.mem_cons_self).end_le⟩
    simp only [if_neg hmore]
    exact ⟨_, rfl, ⟨(s, g₁) :: segs, (hs.setFirst hwf hleft).congr rfl rfl rfl rfl, rfl⟩, rfl, rfl⟩

end Nanio.Queue
