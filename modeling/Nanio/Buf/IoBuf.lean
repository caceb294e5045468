/-
Nanio.Buf.IoBuf — `io_buf.c`: a queue of bytes kept in a chain of segments.

A segment is its two pointers, as offsets into `data`, and the bytes of
`data`; the `next` pointers of all segments are one function beside them.
Reading a freed segment, storing behind the end of `data` and loading from
behind it are faults. `malloc` does not fail and answers an address that
was not used before.

The kernel's answers to the `send` and `recv` calls of one operation are a
list. An operation that needs an answer the list does not have, or one
that counts more bytes than were asked for, stops with `noAnswer`: no
kernel behaves like that, so it is a run that does not exist.
-/
import Nanio.Base
import Mathlib.Logic.Function.Basic

namespace Nanio.Buf

abbrev SegId := Nat

/-- `sizeof s->data`: the segment less three pointers. -/
def segSize : Nat := 2048 - 3 * 8

/-- `struct io_seg` without `next`. -/
structure IoSeg where
  begin_ : Nat
  end_ : Nat
  data : Nat → UInt8

/-- The bytes from `begin` to `end`. -/
def IoSeg.bytes (s : IoSeg) : List UInt8 := (List.range' s.begin_ (s.end_ - s.begin_)).map s.data

structure SegHeap where
  seg : SegId → Option IoSeg
  next : SegId → Option SegId
  fresh : SegId

/-- `io_buf_t`. -/
structure IoBuf where
  first : Option SegId
  last : Option SegId
  deriving DecidableEq, Repr

/-- A buffer and the heap its segments live in. -/
structure BufMem where
  b : IoBuf
  h : SegHeap

inductive BufStop where
  | noAnswer
  | badSegment
  | outOfSegment
  | endless
  deriving DecidableEq, Repr

/-! ## Segments -/

def SegHeap.get (h : SegHeap) (s : SegId) : Except BufStop IoSeg :=
  match h.seg s with
  | some seg => .ok seg
  | none => .error .badSegment

def SegHeap.set (h : SegHeap) (s : SegId) (seg : IoSeg) : SegHeap :=
  { h with seg := Function.update h.seg s (some seg) }

def SegHeap.setNext (h : SegHeap) (s : SegId) (n : Option SegId) : SegHeap :=
  { h with next := Function.update h.next s n }

/-- `free(s)`. -/
def SegHeap.release (h : SegHeap) (s : SegId) : SegHeap :=
  { h with seg := Function.update h.seg s none }

/-- `memcpy(s->end, bytes, len); s->end += len`. -/
def IoSeg.store (s : IoSeg) (bytes : List UInt8) : Except BufStop IoSeg :=
  if s.end_ + bytes.length ≤ segSize then
    .ok { s with
      end_ := s.end_ + bytes.length
      data := fun i => if i < s.end_ then s.data i else (bytes[i - s.end_]?).getD (s.data i) }
  else .error .outOfSegment

/-- `n` bytes from `s->begin` on, then `s->begin += n`. -/
def IoSeg.load (s : IoSeg) (n : Nat) : Except BufStop (List UInt8 × IoSeg) :=
  if s.begin_ + n ≤ segSize then
    .ok ((List.range' s.begin_ n).map s.data, { s with begin_ := s.begin_ + n })
  else .error .outOfSegment

/-- `(ssize_t)(int)(s->end - s->begin)` where it is used as a size. -/
def IoSeg.toSend (s : IoSeg) : Nat := (toInt ((s.end_ : Int) - s.begin_) % 2 ^ 64).toNat

/-- `sizeof s->data - (unsigned)(s->end - s->data)`. -/
def IoSeg.toRecv (s : IoSeg) : Nat := (2 ^ 64 + segSize - s.end_ % 2 ^ 32) % 2 ^ 64

/-- `io_seg_new`. -/
def ioSegNew (h : SegHeap) : SegId × SegHeap :=
  (h.fresh,
    { seg := Function.update h.seg h.fresh (some ⟨0, 0, fun _ => 0⟩)
      next := Function.update h.next h.fresh none
      fresh := h.fresh + 1 })

/-! ## The buffer -/

/-- `io_buf_init`. -/
def ioBufInit (m : BufMem) : BufMem := { m with b := ⟨none, none⟩ }

/-- `io_buf_is_empty`. -/
def ioBufIsEmpty (m : BufMem) : Bool := m.b.first.isNone

/-- `io_buf_add`. -/
def ioBufAdd (m : BufMem) (s : SegId) : Except BufStop BufMem :=
  match m.b.last with
  | none => .ok { m with b := ⟨some s, some s⟩ }
  | some l => do
    let _ ← m.h.get l
    pure { b := { m.b with last := some s }, h := m.h.setNext l (some s) }

/-- The loop of `io_buf_free`; at most `fuel` segments. -/
def freeLoop : Nat → SegHeap → SegId → Except BufStop SegHeap
  | 0, _, _ => .error .endless
  | fuel + 1, h, s => do
    let _ ← h.get s
    match h.next s with
    | none => pure (h.release s)
    | some n => freeLoop fuel (h.release s) n

/-- `io_buf_free`. -/
def ioBufFree (m : BufMem) : Except BufStop BufMem :=
  match m.b.first with
  | none => .ok m
  | some s => do
    let h ← freeLoop m.h.fresh m.h s
    pure ⟨⟨none, none⟩, h⟩

/-- The loop of `io_buf_length`; `len` is an `int`. -/
def lengthLoop (h : SegHeap) : Nat → Int → Option SegId → Except BufStop Int
  | _, len, none => .ok len
  | 0, _, some _ => .error .endless
  | fuel + 1, len, some s => do
    let seg ← h.get s
    lengthLoop h fuel (toInt (len + ((seg.end_ : Int) - seg.begin_))) (h.next s)

/-- `io_buf_length`. -/
def ioBufLength (m : BufMem) : Except BufStop Int := lengthLoop m.h m.h.fresh 0 m.b.first

/-- `io_buf_get_last_seg`. -/
def ioBufGetLastSeg (m : BufMem) : SegId × BufMem :=
  match m.b.last with
  | some s => (s, m)
  | none =>
    let (s, h) := ioSegNew m.h
    (s, ⟨⟨some s, some s⟩, h⟩)

/-- `io_buf_get_seg_to_write`: the room in the segment to write to. -/
def ioBufGetSegToWrite (m : BufMem) (s : SegId) : Except BufStop (Nat × SegId × BufMem) := do
  let seg ← m.h.get s
  if seg.toRecv = 0 then
    match m.b.last with
    | none => .error .badSegment
    | some l => do
      let (s, h) := ioSegNew m.h
      let _ ← h.get l
      let seg ← h.get s
      pure (seg.toRecv, s, ⟨{ m.b with last := some s }, h.setNext l (some s)⟩)
  else pure (seg.toRecv, s, m)

/-- `if (!(b->first = s->next)) b->last = NULL; free(s);` -/
def BufMem.dropFirst (m : BufMem) (s : SegId) : BufMem where
  b := ⟨m.h.next s, if (m.h.next s).isNone then none else m.b.last⟩
  h := m.h.release s

/-! ## System calls -/

/-- `do … while (len < 0 && errno == EINTR)`: the first answer that is not
EINTR, and the answers after it. -/
def retry {α : Type} (fits : α → Bool) :
    List (SysResult α) → Except BufStop (SysResult α × List (SysResult α))
  | [] => .error .noAnswer
  | .err e :: script => if e = .EINTR then retry fits script else .ok (.err e, script)
  | .ok a :: script => if fits a then .ok (.ok a, script) else .error .noAnswer

/-- What `io_buf_send` and `io_buf_recv` leave behind: the `int` they
return, errno when a call failed, the bytes the kernel took or gave, the
answers it was not asked for. -/
structure Transfer (α : Type) where
  ret : Int
  errno : Option Errno
  bytes : List UInt8
  script : List (SysResult α)
  mem : BufMem

/-- The loop of `io_buf_send`, `wire` being the bytes sent so far, `total`
their number. -/
def sendLoop : Nat → BufMem → List (SysResult Nat) → List UInt8 → Except BufStop (Transfer Nat)
  | 0, _, _, _ => .error .endless
  | fuel + 1, m, script, wire =>
    match m.b.first with
    | none => .ok ⟨toInt wire.length, none, wire, script, m⟩
    | some s => do
      let seg ← m.h.get s
      if seg.toSend = 0 then sendLoop fuel (m.dropFirst s) script wire
      else do
        let (sent, script) ← retry (· ≤ seg.toSend) script
        match sent with
        | .err e => pure ⟨-1, some e, wire, script, m⟩
        | .ok sent => do
          let (bytes, seg') ← seg.load sent
          let m := { m with h := m.h.set s seg' }
          if sent < seg.toSend then
            pure ⟨toInt (wire ++ bytes).length, none, wire ++ bytes, script, m⟩
          else sendLoop fuel (m.dropFirst s) script (wire ++ bytes)

/-- `io_buf_send`. -/
def ioBufSend (m : BufMem) (script : List (SysResult Nat)) : Except BufStop (Transfer Nat) :=
  sendLoop (m.h.fresh + 1) m script []

/-- The loop of `io_buf_recv`, `got` being the bytes received so far. -/
def recvLoop : Nat → BufMem → SegId → List (SysResult (List UInt8)) → List UInt8 →
    Except BufStop (Transfer (List UInt8))
  | 0, _, _, _, _ => .error .endless
  | fuel + 1, m, s, script, got => do
    let (toRecv, s, m) ← ioBufGetSegToWrite m s
    let (len, script) ← retry (fun bytes => bytes.length ≤ toRecv) script
    match len with
    | .err e => pure ⟨-1, some e, got, script, m⟩
    | .ok bytes => do
      let seg ← m.h.get s
      let seg ← seg.store bytes
      let m := { m with h := m.h.set s seg }
      if bytes.length = toRecv then recvLoop fuel m s script (got ++ bytes)
      else pure ⟨toInt (got ++ bytes).length, none, got ++ bytes, script, m⟩

/-- `io_buf_recv`; every round takes an answer. -/
def ioBufRecv (m : BufMem) (script : List (SysResult (List UInt8))) :
    Except BufStop (Transfer (List UInt8)) :=
  let (s, m) := ioBufGetLastSeg m
  recvLoop (script.length + 1) m s script []

/-! ## Copying in and out -/

/-- The loop of `io_buf_write`: `data` is what is left of it (`tail` bytes),
`total` what has been copied. -/
def writeLoop : Nat → BufMem → SegId → List UInt8 → Nat → Except BufStop (Nat × BufMem)
  | 0, _, _, _, _ => .error .endless
  | fuel + 1, m, s, data, total => do
    let (toRecv, s, m) ← ioBufGetSegToWrite m s
    let len := if toRecv > data.length then data.length else toRecv
    let seg ← m.h.get s
    let seg ← seg.store (data.take len)
    let m := { m with h := m.h.set s seg }
    let data := data.drop len
    if data.isEmpty then pure (total + len, m) else writeLoop fuel m s data (total + len)

/-- `io_buf_write`. -/
def ioBufWrite (m : BufMem) (data : List UInt8) : Except BufStop (Nat × BufMem) :=
  if data.length = 0 then .ok (0, m)
  else
    let (s, m) := ioBufGetLastSeg m
    writeLoop data.length m s data 0

/-- The loop of `io_buf_read`, `out` being the bytes copied so far. -/
def readLoop : Nat → BufMem → Nat → List UInt8 → Except BufStop (List UInt8 × BufMem)
  | 0, _, _, _ => .error .endless
  | fuel + 1, m, tail, out =>
    if tail = 0 then .ok (out, m)
    else
      match m.b.first with
      | none => .ok (out, m)
      | some s => do
        let seg ← m.h.get s
        if seg.toSend = 0 then readLoop fuel (m.dropFirst s) tail out
        else do
          let sent := if seg.toSend > tail then tail else seg.toSend
          let (bytes, seg') ← seg.load sent
          let m := { m with h := m.h.set s seg' }
          if sent < seg.toSend then pure (out ++ bytes, m)
          else readLoop fuel (m.dropFirst s) (tail - sent) (out ++ bytes)

/-- `io_buf_read`: the bytes copied to `vdata`; their number is returned. -/
def ioBufRead (m : BufMem) (size : Nat) : Except BufStop (List UInt8 × BufMem) :=
  readLoop (m.h.fresh + 1) m size []

/-! ## Sequences of operations -/

/-- A segment that is filled correctly. -/
structure FilledSeg extends IoSeg where
  begin_le : begin_ ≤ end_
  end_le : end_ ≤ segSize

/-- One call. `add` is handed a segment that `io_seg_new` made and its
caller filled. -/
inductive BufOp where
  | init
  | write (data : List UInt8)
  | read (size : Nat)
  | add (s : FilledSeg)
  | send (script : List (SysResult Nat))
  | recv (script : List (SysResult (List UInt8)))
  | free

/-- What a caller sees of a call: the number returned, the bytes moved and
the answers of the kernel that were used. -/
structure BufOut where
  ret : Int
  bytes : List UInt8
  left : Nat

def BufMem.step (m : BufMem) : BufOp → Except BufStop (BufOut × BufMem)
  | .init => .ok (⟨0, [], 0⟩, ioBufInit m)
  | .write data => do
    let (n, m) ← ioBufWrite m data
    pure (⟨n, [], 0⟩, m)
  | .read size => do
    let (out, m) ← ioBufRead m size
    pure (⟨out.length, out, 0⟩, m)
  | .add s => do
    let (id, h) := ioSegNew m.h
    let m ← ioBufAdd { m with h := h.set id s.toIoSeg } id
    pure (⟨0, [], 0⟩, m)
  | .send script => do
    let t ← ioBufSend m script
    pure (⟨t.ret, t.bytes, t.script.length⟩, t.mem)
  | .recv script => do
    let t ← ioBufRecv m script
    pure (⟨t.ret, t.bytes, t.script.length⟩, t.mem)
  | .free => do
    let m ← ioBufFree m
    pure (⟨0, [], 0⟩, m)

/-- The state after a list of calls. -/
def BufMem.run (m : BufMem) : List BufOp → Except BufStop BufMem
  | [] => .ok m
  | op :: ops => do
    let (_, m) ← m.step op
    m.run ops

end Nanio.Buf
