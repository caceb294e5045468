/-
Nanio.Buf.BufFifo — the buffer refines a queue of bytes.

`BufferOk` is what the pointers of a buffer promise, `FifoStep` what one
call does to the queue. A call that asks the kernel nothing always returns,
and `io_buf_send` and `io_buf_recv` return on every answer a kernel can
give (`BufOp.Served`).
-/
import Nanio.Buf.IoBufTheorems

namespace Nanio.Buf

/-! ## §1 The queue -/

/-- The structure of a buffer with this content, `begin .. end` of its
segments in order; `sizes` is what the segments that are not empty hold. -/
structure BufferOk (m : BufMem) (content : List UInt8) (sizes : List Nat) : Prop where
  segments : ∃ segs, Segs m segs ∧ bytesOf segs = content ∧ sizesOf segs = sizes
  first_last : m.b.first = none ↔ m.b.last = none
  length : content.length < 2 ^ 31 → ioBufLength m = .ok content.length
  sum : sizes.sum = content.length
  size_le : ∀ n ∈ sizes, 0 < n ∧ n ≤ segSize

/-- The kernel has an answer to every call this operation makes. -/
def BufOp.Served (sizes : List Nat) (room : Nat) : BufOp → Prop
  | .send script => Answered (Sends sizes) script
  | .recv script => Answered (Receives room) script
  | _ => True

/-- One call on a queue of bytes. -/
def FifoStep (content : List UInt8) (sizes : List Nat) (room : Nat) (op : BufOp) (out : BufOut)
    (content' : List UInt8) : Prop :=
  match op with
  | .init => content' = []
  | .write data => out.ret = data.length ∧ content' = content ++ data
  | .read size =>
    out.ret = min size content.length ∧ out.bytes = content.take size ∧
      content' = content.drop size
  | .add s => content' = content ++ s.bytes
  | .send script =>
    ∃ used rest e, script = used ++ rest ∧ rest.length = out.left ∧ Sends sizes used e ∧
      accepted used ≤ content.length ∧ out.bytes = content.take (accepted used) ∧
      content' = content.drop (accepted used) ∧
      (content.length < 2 ^ 31 → out.ret = if e = none then (accepted used : Int) else -1)
  | .recv script =>
    ∃ used rest e, script = used ++ rest ∧ rest.length = out.left ∧ Receives room used e ∧
      out.bytes = delivered used ∧ content' = content ++ delivered used ∧
      (content'.length < 2 ^ 31 →
        out.ret = if e = none then ((delivered used).length : Int) else -1)
  | .free => content' = []

theorem sizesOf_le {segs : List (SegId × IoSeg)} (hwf : ∀ x ∈ segs, x.2.Wf) :
    ∀ n ∈ sizesOf segs, 0 < n ∧ n ≤ segSize := by
  intro n hn
  rw [sizesOf, List.mem_filter, List.mem_map] at hn
  obtain ⟨⟨x, hx, rfl⟩, hne⟩ := hn
  obtain ⟨h₁, h₂⟩ := hwf x hx
  have hne' : x.2.bytes.length ≠ 0 := by simpa using hne
  rw [IoSeg.bytes_length] at hne' ⊢
  omega

theorem Segs.bufferOk {m : BufMem} {segs : List (SegId × IoSeg)} (h : Segs m segs) :
    BufferOk m (bytesOf segs) (sizesOf segs) where
  segments := ⟨segs, h, rfl, rfl⟩
  first_last := by rw [h.nodes.first_eq_none, h.nodes.last_eq_none]
  length := by
    intro hlen
    have hl := lengthLoop_ok h.live h.wf h.chain h.nodes.length_le
      (show 0 + (bytesOf segs).length < 2 ^ 31 by omega)
    rw [Nat.zero_add] at hl
    exact hl
  sum := sizesOf_sum segs
  size_le := sizesOf_le h.wf

theorem Holds.bufferOk {m : BufMem} {content : List UInt8} (h : Holds m content) :
    ∃ sizes, BufferOk m content sizes := by
  obtain ⟨segs, hr, rfl⟩ := h
  exact ⟨_, hr.bufferOk⟩

theorem BufferOk.holds {m : BufMem} {content : List UInt8} {sizes : List Nat}
    (h : BufferOk m content sizes) : Holds m content := by
  obtain ⟨segs, hr, hc, -⟩ := h.segments
  exact ⟨segs, hr, hc⟩

/-- `io_buf_send` asks the kernel while there is something to send. -/
theorem BufferOk.sizes_eq_nil {m : BufMem} {content : List UInt8} {sizes : List Nat}
    (h : BufferOk m content sizes) : sizes = [] ↔ content = [] := by
  have hsum := h.sum
  constructor
  · rintro rfl
    exact List.length_eq_zero_iff.mp hsum.symm
  · rintro rfl
    cases sizes with
    | nil => rfl
    | cons n sizes =>
      have hn := (h.size_le n (by simp)).1
      rw [List.sum_cons, List.length_nil] at hsum
      omega

/-- A byte is a segment of its own. -/
theorem BufferOk.sizes_byte {m : BufMem} {b : UInt8} {sizes : List Nat}
    (h : BufferOk m [b] sizes) : sizes = [1] := by
  have hsum := h.sum
  have hle := h.size_le
  match sizes with
  | [] => cases hsum
  | [n] => simpa using hsum
  | n :: k :: sizes =>
    have hn := (hle n (by simp)).1
    have hk := (hle k (by simp)).1
    simp only [List.sum_cons, List.length_singleton] at hsum
    omega

/-! ## §2 One call -/

section Step

variable {m : BufMem} {content : List UInt8} {sizes : List Nat}

theorem SendsTo.fifo {script : List (SysResult Nat)} {t : Transfer Nat} (room : Nat)
    (h : SendsTo content [] script t)
    (hd : ∃ used, script = used ++ t.script ∧ Sends sizes used t.errno) :
    ∃ content', Holds t.mem content' ∧
      FifoStep content sizes room (.send script) ⟨t.ret, t.bytes, t.script.length⟩ content' := by
  obtain ⟨⟨used, rfl, hle, hb, hh, -⟩, hret⟩ := h
  obtain ⟨used', happ, hsends⟩ := hd
  obtain rfl := List.append_cancel_right happ
  refine ⟨_, hh, used, t.script, t.errno, rfl, rfl, hsends, hle, hb, rfl, fun hlen => ?_⟩
  show t.ret = _
  rw [hret]
  cases t.errno with
  | some e => rfl
  | none =>
    rw [hb, List.nil_append, List.length_take, Nat.min_eq_left hle]
    exact toInt_of_lt (by omega) (by omega)

theorem RecvsTo.fifo {script : List (SysResult (List UInt8))} {t : Transfer (List UInt8)}
    {room : Nat} (sizes : List Nat) (h : RecvsTo content [] script t)
    (hd : ∃ used, script = used ++ t.script ∧ Receives room used t.errno) :
    ∃ content', Holds t.mem content' ∧
      FifoStep content sizes room (.recv script) ⟨t.ret, t.bytes, t.script.length⟩ content' := by
  obtain ⟨⟨used, rfl, hb, hh, -⟩, hret⟩ := h
  obtain ⟨used', happ, hrecv⟩ := hd
  obtain rfl := List.append_cancel_right happ
  refine ⟨_, hh, used, t.script, t.errno, rfl, rfl, hrecv, hb, rfl, fun hlen => ?_⟩
  show t.ret = _
  rw [hret]
  cases t.errno with
  | some e => rfl
  | none =>
    rw [List.length_append] at hlen
    rw [hb, List.nil_append]
    exact toInt_of_lt (by omega) (by omega)

theorem ioBufGetLastSeg_room (m : BufMem) : (ioBufGetLastSeg m).2.room = m.room := by
  unfold ioBufGetLastSeg
  cases hlast : m.b.last with
  | none => simp [BufMem.room, hlast, ioSegNew, segSize]
  | some s => rfl

/-- One call: the call on the queue, or answers that no kernel gives. -/
theorem step_fifo (h : BufferOk m content sizes) (op : BufOp) :
    (op.Served sizes m.room → ∃ out m' content', m.step op = .ok (out, m') ∧ Holds m' content' ∧
      FifoStep content sizes m.room op out content') ∧
    (¬ op.Served sizes m.room → m.step op = .error .noAnswer) := by
  have hh := h.holds
  cases op with
  | init => exact ⟨fun _ => ⟨_, _, [], rfl, ⟨[], segs_nil m.h, rfl⟩, rfl⟩, fun hno => absurd ⟨⟩ hno⟩
  | write data =>
    obtain ⟨m', hw, hh⟩ := ioBufWrite_ok hh data
    exact ⟨fun _ => ⟨_, m', _, by simp only [BufMem.step, hw]; rfl, hh, rfl, rfl⟩,
      fun hno => absurd ⟨⟩ hno⟩
  | read size =>
    obtain ⟨m', hr, hh⟩ := ioBufRead_ok hh size
    refine ⟨fun _ => ⟨_, m', _, by simp only [BufMem.step, hr]; rfl, hh, ?_, rfl, rfl⟩,
      fun hno => absurd ⟨⟩ hno⟩
    simp
  | add s =>
    obtain ⟨m', ha, hh⟩ := ioBufAdd_ok hh s
    refine ⟨fun _ => ⟨⟨0, [], 0⟩, m', _, ?_, hh, rfl⟩, fun hno => absurd ⟨⟩ hno⟩
    simp only [BufMem.step, show (ioSegNew m.h).1 = m.h.fresh from rfl, ha]
    rfl
  | send script =>
    obtain ⟨segs, hr, rfl, rfl⟩ := h.segments
    rcases sendLoop_ok hr (Nat.lt_succ_of_le hr.nodes.length_le) script [] with
      ⟨hno, hnone⟩ | ⟨t, ht, hs, hd⟩
    · refine ⟨fun hans => absurd hans hnone, fun _ => ?_⟩
      simp only [BufMem.step, ioBufSend, hno]
      rfl
    · obtain ⟨content', hh', hf⟩ := hs.fifo m.room hd
      obtain ⟨used, happ, hsends⟩ := hd
      refine ⟨fun _ => ⟨_, t.mem, content', ?_, hh', hf⟩,
        fun hno => absurd ⟨used, t.script, _, happ, hsends⟩ hno⟩
      simp only [BufMem.step, ioBufSend, ht]
      rfl
  | recv script =>
    have hloop := recvLoop_ok (ioBufGetLastSeg_holds hh) script (Nat.lt_succ_self _) []
    rw [ioBufGetLastSeg_room] at hloop
    rcases hloop with ⟨hno, hnone⟩ | ⟨t, ht, hs, hd⟩
    · refine ⟨fun hans => absurd hans hnone, fun _ => ?_⟩
      simp only [BufMem.step, ioBufRecv, hno]
      rfl
    · obtain ⟨content', hh', hf⟩ := hs.fifo sizes hd
      obtain ⟨used, happ, hrecv⟩ := hd
      refine ⟨fun _ => ⟨_, t.mem, content', ?_, hh', hf⟩,
        fun hno => absurd ⟨used, t.script, _, happ, hrecv⟩ hno⟩
      simp only [BufMem.step, ioBufRecv, ht]
      rfl
  | free =>
    obtain ⟨m', hw, hh⟩ := ioBufFree_ok hh
    exact ⟨fun _ => ⟨⟨0, [], 0⟩, m', [], by simp only [BufMem.step, hw]; rfl, hh, rfl⟩,
      fun hno => absurd ⟨⟩ hno⟩

end Step

/-! ## §3 Any sequence of calls -/

/-- The calls before this one were served, and it was not. -/
def StopsAt (m : BufMem) (ops : List BufOp) : Prop :=
  ∃ front op back m' content sizes, ops = front ++ op :: back ∧ m.run front = .ok m' ∧
    BufferOk m' content sizes ∧ ¬ op.Served sizes m'.room

theorem run_cons {m m' : BufMem} {op : BufOp} {out : BufOut} (hstep : m.step op = .ok (out, m'))
    (ops : List BufOp) : m.run (op :: ops) = m'.run ops := by
  simp only [BufMem.run, hstep]
  rfl

theorem StopsAt.cons {m m' : BufMem} {op : BufOp} {ops : List BufOp} {out : BufOut}
    (hstep : m.step op = .ok (out, m')) (h : StopsAt m' ops) : StopsAt m (op :: ops) := by
  obtain ⟨front, last, back, m'', content, sizes, rfl, hrun, hok, hno⟩ := h
  exact ⟨op :: front, last, back, m'', content, sizes, rfl, (run_cons hstep front).trans hrun,
    hok, hno⟩

theorem run_fifo {m : BufMem} {content : List UInt8} (h : Holds m content) (ops : List BufOp) :
    (m.run ops = .error .noAnswer ∧ StopsAt m ops) ∨
      ∃ m' content' sizes, m.run ops = .ok m' ∧ BufferOk m' content' sizes := by
  induction ops generalizing m content with
  | nil =>
    obtain ⟨sizes, hok⟩ := h.bufferOk
    exact .inr ⟨m, content, sizes, rfl, hok⟩
  | cons op ops ih =>
    obtain ⟨sizes, hok⟩ := h.bufferOk
    by_cases hserved : op.Served sizes m.room
    · obtain ⟨out, m', content', hs, hh, -⟩ := (step_fifo hok op).1 hserved
      rw [run_cons hs]
      rcases ih hh with ⟨hno, hstop⟩ | hrest
      · exact .inl ⟨hno, hstop.cons hs⟩
      · exact .inr hrest
    · have hs := (step_fifo hok op).2 hserved
      refine .inl ⟨?_, [], op, ops, m, content, sizes, rfl, rfl, hok, hserved⟩
      simp only [BufMem.run, hs]
      rfl

/-- **A buffer refines a queue of bytes.** After any calls the structure is
intact, and the next call returns and does to the content what it does to
the queue. Only a call that waits for an answer no kernel gives stops. -/
theorem ioBuf_refines_fifo (m : BufMem) (ops : List BufOp) :
    match (ioBufInit m).run ops with
    | .error stop => stop = .noAnswer ∧ StopsAt (ioBufInit m) ops
    | .ok m => ∃ content sizes, BufferOk m content sizes ∧ ∀ op,
      (op.Served sizes m.room → ∃ out m' content' sizes', m.step op = .ok (out, m') ∧
        BufferOk m' content' sizes' ∧ FifoStep content sizes m.room op out content') ∧
      (¬ op.Served sizes m.room → m.step op = .error .noAnswer) := by
  have h0 : Holds (ioBufInit m) [] := ⟨[], segs_nil m.h, rfl⟩
  rcases run_fifo h0 ops with ⟨hno, hstop⟩ | ⟨m', content, sizes, hrun, hok⟩
  · rw [hno]
    exact ⟨rfl, hstop⟩
  · rw [hrun]
    refine ⟨content, sizes, hok, fun op => ⟨fun hserved => ?_, (step_fifo hok op).2⟩⟩
    obtain ⟨out, m'', content', hs, hh, hf⟩ := (step_fifo hok op).1 hserved
    obtain ⟨sizes', hok'⟩ := hh.bufferOk
    exact ⟨out, m'', content', sizes', hs, hok', hf⟩

/-- A byte is written. It is sent after a call that was interrupted, and a
send without an answer stops. -/
theorem ioBuf_refines_fifo_byte :
    ∃ m₁ out m₂, (ioBufInit noSegment).run [.write [7]] = .ok m₁ ∧
      m₁.step (.send [.err .EINTR, .ok 1]) = .ok (out, m₂) ∧ out.ret = 1 ∧ out.bytes = [7] ∧
      BufferOk m₂ [] [] ∧ m₁.step (.send []) = .error .noAnswer := by
  obtain ⟨m₁, hw, hh⟩ := ioBufWrite_ok holds_noSegment [7]
  have hrun : (ioBufInit noSegment).run [.write [7]] = .ok m₁ := by
    simp only [BufMem.run, BufMem.step, show ioBufInit noSegment = noSegment from rfl, hw]
    rfl
  have h := ioBuf_refines_fifo noSegment [.write [7]]
  rw [hrun] at h
  obtain ⟨content, sizes, hok, hstep⟩ := h
  obtain rfl := hok.holds.unique hh
  obtain rfl := hok.sizes_byte
  have hdialog : Sends [1] [.err .EINTR, .ok 1] none :=
    .interrupted (.answered rfl .done)
  obtain ⟨out, m₂, content', sizes', hs, hok', used, rest, e, happ, -, hsends, -, hb, rfl, hret⟩ :=
    (hstep (.send [.err .EINTR, .ok 1])).1 ⟨_, [], none, rfl, hdialog⟩
  obtain ⟨rfl, rfl⟩ := hsends.unique hdialog (happ.symm.trans (List.append_nil _).symm)
  obtain rfl := hok'.sizes_eq_nil.mpr rfl
  refine ⟨m₁, out, m₂, hrun, hs, by simpa [accepted] using hret, by simpa [accepted] using hb, hok',
    (hstep (.send [])).2 ?_⟩
  rintro ⟨used, rest, e, happ, hsends⟩
  obtain ⟨rfl, -⟩ := List.append_eq_nil_iff.mp happ.symm
  cases hsends

end Nanio.Buf
