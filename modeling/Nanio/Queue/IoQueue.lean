/-
Nanio.Queue.IoQueue — `io_queue.c`: a queue of blocks in a chain of
segments of 32.

A segment is its two pointers, as indices into `blocks`, and the blocks;
the `next` pointers of all segments are one function beside them. A block
points at a buffer, which is one of the program's own or a copy that a put
has made; the program can change its own between any two calls. Using a
freed segment, writing behind the last block of one and giving the queue a
buffer that is not there are faults. `malloc` does not fail and answers an
address that was not used before.
-/
import Nanio.Base
import Mathlib.Logic.Function.Basic

namespace Nanio.Queue

abbrev SegId := Nat

/-- `enum io_queue_block_type`. -/
inductive BlockType where
  | STATIC | DYNAMIC | LOCAL
  deriving DecidableEq, Repr

/-- A buffer of the program, or a copy made by a put. -/
inductive DataPtr where
  | own (n : Nat)
  | copy (n : Nat)
  deriving DecidableEq, Repr

structure IoQueueBlock where
  type_ : BlockType
  size : Nat
  tag : Nat
  data : DataPtr
  deriving DecidableEq, Repr

/-- `IO_QUEUE_PART_BLOCKS_LENGTH`. -/
def IO_QUEUE_PART_BLOCKS_LENGTH : Nat := 32

/-- `struct io_queue_seg` without `next`. -/
structure IoQueueSeg where
  begin_ : Nat
  end_ : Nat
  blocks : Nat → IoQueueBlock

/-- `io_queue_t`. -/
structure IoQueue where
  first : Option SegId
  last : Option SegId
  deriving DecidableEq, Repr

/-- A queue, the segments, and the buffers. -/
structure QueueMem where
  q : IoQueue
  seg : SegId → Option IoQueueSeg
  next : SegId → Option SegId
  freshSeg : SegId
  buf : DataPtr → Option (List UInt8)
  freshCopy : Nat

inductive QueueStop where
  | badSegment
  | outOfSegment
  | badBuffer
  deriving DecidableEq, Repr

/-- `io_queue_init`. -/
def ioQueueInit (m : QueueMem) : QueueMem := { m with q := ⟨none, none⟩ }

/-- `io_queue_is_empty`. -/
def ioQueueIsEmpty (m : QueueMem) : Bool := m.q.first.isNone

def QueueMem.getSeg (m : QueueMem) (s : SegId) : Except QueueStop IoQueueSeg :=
  match m.seg s with
  | some g => .ok g
  | none => .error .badSegment

def QueueMem.setSeg (m : QueueMem) (s : SegId) (g : IoQueueSeg) : QueueMem :=
  { m with seg := Function.update m.seg s (some g) }

/-- The bytes at a pointer; none when nothing is there. -/
def QueueMem.bytes (m : QueueMem) (p : DataPtr) : List UInt8 := (m.buf p).getD []

/-! ## Freeing -/

/-- `free(b->data)`. -/
def QueueMem.freeData (m : QueueMem) (p : DataPtr) : Except QueueStop QueueMem :=
  match m.buf p with
  | some _ => .ok { m with buf := Function.update m.buf p none }
  | none => .error .badBuffer

/-- `io_queue_block_free`. -/
def ioQueueBlockFree (m : QueueMem) (b : IoQueueBlock) : Except QueueStop QueueMem :=
  if b.type_ = .STATIC then .ok m else m.freeData b.data

/-- The loop of `io_queue_seg_free`. -/
def ioQueueBlocksFree : QueueMem → List IoQueueBlock → Except QueueStop QueueMem
  | m, [] => .ok m
  | m, b :: blocks => do ioQueueBlocksFree (← ioQueueBlockFree m b) blocks

/-- The blocks from `begin` to `end`. -/
def IoQueueSeg.queued (g : IoQueueSeg) : List IoQueueBlock :=
  (List.range' g.begin_ (g.end_ - g.begin_)).map g.blocks

/-- `io_queue_seg_free`. -/
def ioQueueSegFree (m : QueueMem) (s : SegId) : Except QueueStop QueueMem := do
  let g ← m.getSeg s
  let m ← ioQueueBlocksFree m g.queued
  pure (m.setSeg s { g with begin_ := 0, end_ := 0 })

/-- The loop of `io_queue_free`, from the segment `s` on. The segments are
reset, and stay where they are. There are no more of them than `freshSeg`:
a longer walk would go round for ever. -/
def ioQueueSegsFree : Nat → QueueMem → SegId → Except QueueStop QueueMem
  | 0, _, _ => .error .badSegment
  | fuel + 1, m, s => do
    let _ ← m.getSeg s
    let n := m.next s
    let m ← ioQueueSegFree m s
    match n with
    | some n => ioQueueSegsFree fuel m n
    | none => pure m

/-- `io_queue_free`. -/
def ioQueueFree (m : QueueMem) : Except QueueStop QueueMem :=
  match m.q.first with
  | none => .ok m
  | some s => ioQueueSegsFree m.freshSeg { m with q := ⟨none, none⟩ } s

/-! ## Putting -/

/-- The blocks of a segment before any was written. -/
def noBlocks (_ : Nat) : IoQueueBlock := ⟨.STATIC, 0, 0, .own 0⟩

/-- `io_queue_seg_new`. -/
def ioQueueSegNew (m : QueueMem) : Except QueueStop (SegId × QueueMem) := do
  let s := m.freshSeg
  let m := { m with
    seg := Function.update m.seg s (some ⟨0, 0, noBlocks⟩)
    next := Function.update m.next s none
    freshSeg := s + 1 }
  match m.q.last with
  | some l => do
    let _ ← m.getSeg l
    pure (s, { m with q := ⟨m.q.first, some s⟩, next := Function.update m.next l (some s) })
  | none => pure (s, { m with q := ⟨some s, some s⟩ })

/-- The segment for a new block: the last one, or a new one when there is
none or it is full. -/
def segWithRoom (m : QueueMem) : Except QueueStop (SegId × QueueMem) :=
  match m.q.last with
  | none => ioQueueSegNew m
  | some s => do
    let g ← m.getSeg s
    if IO_QUEUE_PART_BLOCKS_LENGTH ≤ g.end_ then ioQueueSegNew m else pure (s, m)

/-- `io_queue_new_block`: the segment and the index of the block. -/
def ioQueueNewBlock (m : QueueMem) : Except QueueStop (SegId × Nat × QueueMem) := do
  let (s, m) ← segWithRoom m
  let g ← m.getSeg s
  pure (s, g.end_, m.setSeg s { g with end_ := g.end_ + 1 })

/-- `malloc(size)` and `memcpy` of `size` bytes. -/
def QueueMem.copyData (m : QueueMem) (p : DataPtr) (size : Nat) :
    Except QueueStop (DataPtr × QueueMem) :=
  if size ≤ (m.bytes p).length then
    .ok (.copy m.freshCopy, { m with
      buf := Function.update m.buf (.copy m.freshCopy) (some ((m.bytes p).take size))
      freshCopy := m.freshCopy + 1 })
  else .error .badBuffer

/-- The pointer that a put stores. -/
def QueueMem.putData (m : QueueMem) (type_ : BlockType) (p : DataPtr) (size : Nat) :
    Except QueueStop (DataPtr × QueueMem) :=
  if type_ = .LOCAL then m.copyData p size else .ok (p, m)

/-- The stores through `b`. -/
def QueueMem.setBlock (m : QueueMem) (s : SegId) (i : Nat) (b : IoQueueBlock) :
    Except QueueStop QueueMem := do
  let g ← m.getSeg s
  if i < IO_QUEUE_PART_BLOCKS_LENGTH then
    pure (m.setSeg s { g with blocks := Function.update g.blocks i b })
  else .error .outOfSegment

/-- `io_queue_put_block`. The size is stored in 16 bits and returned as an
`int`. -/
def ioQueuePutBlock (m : QueueMem) (tag : Nat) (data : DataPtr) (size : Nat) (type_ : BlockType) :
    Except QueueStop (Int × QueueMem) := do
  let (s, i, m) ← ioQueueNewBlock m
  let (d, m) ← m.putData type_ data size
  let m ← m.setBlock s i ⟨type_, size % 2 ^ 16, tag, d⟩
  pure (toInt size, m)

/-! ## Getting and dropping -/

/-- `io_queue_get_block`: the block pointed at. -/
def ioQueueGetBlock (m : QueueMem) : Except QueueStop (Option IoQueueBlock) :=
  match m.q.first with
  | none => .ok none
  | some s => do
    let g ← m.getSeg s
    pure (if g.begin_ < g.end_ then some (g.blocks g.begin_) else none)

/-- `io_queue_block_drop`. -/
def ioQueueBlockDrop (m : QueueMem) : Except QueueStop (Int × QueueMem) :=
  match m.q.first with
  | none => .ok (-1, m)
  | some s => do
    let g ← m.getSeg s
    if g.begin_ < g.end_ then do
      let m ← ioQueueBlockFree (m.setSeg s { g with begin_ := g.begin_ + 1 }) (g.blocks g.begin_)
      if g.end_ ≤ g.begin_ + 1 then do
        let m ← ioQueueSegFree m s
        match m.next s with
        | some n => pure (0, { m with
            q := ⟨some n, m.q.last⟩
            seg := Function.update m.seg s none })
        | none => pure (0, m)
      else pure (0, m)
    else pure (-1, m)

/-! ## Sequences of operations -/

/-- A call, or the program giving one of its own buffers another content
(none when it is freed). -/
inductive QueueOp where
  | put (tag data size : Nat) (type_ : BlockType)
  | get
  | drop
  | own (n : Nat) (content : Option (List UInt8))
  deriving DecidableEq, Repr

/-- What the program sees of a call. -/
structure QueueOut where
  ret : Int
  block : Option IoQueueBlock
  deriving DecidableEq, Repr

def QueueMem.step (m : QueueMem) : QueueOp → Except QueueStop (QueueOut × QueueMem)
  | .put tag data size type_ => do
    let (ret, m) ← ioQueuePutBlock m tag (.own data) size type_
    pure (⟨ret, none⟩, m)
  | .get => do
    let b ← ioQueueGetBlock m
    pure (⟨0, b⟩, m)
  | .drop => do
    let (ret, m) ← ioQueueBlockDrop m
    pure (⟨ret, none⟩, m)
  | .own n content => .ok (⟨0, none⟩, { m with buf := Function.update m.buf (.own n) content })

/-- The state after a list of operations. -/
def QueueMem.run (m : QueueMem) : List QueueOp → Except QueueStop QueueMem
  | [] => .ok m
  | op :: ops => do
    let (_, m) ← m.step op
    m.run ops

end Nanio.Queue
