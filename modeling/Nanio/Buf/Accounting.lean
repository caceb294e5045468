/-
Nanio.Buf.Accounting — what the return values of `io_buf_send` and
`io_buf_recv` say about the buffer.

Both go on after the kernel has moved a whole segment, and a call that
fails later makes them return -1 all the same; `io_buf_recv` has put a
segment into an empty buffer by then. The sum of the bytes goes through an
`int`. `SendCounted` and `RecvCounted` are what callers rely on, and
`io_buf_counts` says for which answers of the kernel they can.
-/
import Nanio.Buf.IoBufTheorems

namespace Nanio.Buf

open Nanio.Lib

/-! ## §1 Return values -/

/-- A call that returns a number has moved as many bytes, and one that
returns -1 has changed nothing. -/
structure Counted (moved : List UInt8 → Prop) (same : Prop) (ret : Int) : Prop where
  number : 0 ≤ ret → ∃ bytes, moved bytes ∧ ret = bytes.length
  failed : ret = -1 → same

/-- `io_buf_send` on the buffer `m`: the bytes go from the front. -/
def SendCounted (m : BufMem) (before : List UInt8) (t : Transfer Nat) (after : List UInt8) : Prop :=
  Counted (fun bytes => before = bytes ++ after)
    (after = before ∧ ioBufIsEmpty t.mem = ioBufIsEmpty m) t.ret

/-- `io_buf_recv` into the buffer `m`: the bytes go behind the content. -/
def RecvCounted (m : BufMem) (before : List UInt8) (t : Transfer (List UInt8))
    (after : List UInt8) : Prop :=
  Counted (fun bytes => after = before ++ bytes)
    (after = before ∧ ioBufIsEmpty t.mem = ioBufIsEmpty m) t.ret

/-- An answer other than EINTR that says that the call failed. -/
def Fails {α : Type} (script : List (SysResult α)) : Prop := ∃ e, e ≠ .EINTR ∧ .err e ∈ script

/-- A number of bytes that an `int` holds, or makes a negative number other
than -1 of. -/
def FitsInt (n : Nat) : Prop := n < 2 ^ 31 ∨ 2 ^ 31 ≤ n % 2 ^ 32 ∧ n % 2 ^ 32 < 2 ^ 32 - 1

theorem fitsInt_iff {n : Nat} :
    FitsInt n ↔ (0 ≤ toInt n → toInt n = n) ∧ (toInt n = -1 → n = 0) := by
  unfold FitsInt toInt
  omega

/-- What is moved being `n` bytes, and nothing the same if any. -/
theorem counted_toInt {moved : List UInt8 → Prop} {same : Prop} {n : Nat}
    (hmoved : ∀ bytes, moved bytes → bytes.length = n) (hany : ∃ bytes, moved bytes)
    (hsame : same → n = 0) : Counted moved same (toInt n) ↔ FitsInt n := by
  rw [fitsInt_iff]
  constructor
  · rintro ⟨hnumber, hfailed⟩
    refine ⟨fun h0 => ?_, fun hneg => hsame (hfailed hneg)⟩
    obtain ⟨bytes, hb, hret⟩ := hnumber h0
    rw [hret, hmoved bytes hb]
  · rintro ⟨hnumber, hfailed⟩
    obtain ⟨bytes, hb⟩ := hany
    refine ⟨fun h0 => ⟨bytes, hb, by rw [hnumber h0, hmoved bytes hb]⟩, fun hneg => ?_⟩
    -- nothing was moved, and 0 bytes are not returned as -1
    obtain rfl := hfailed hneg
    exact absurd hneg (by decide)

theorem counted_failed {moved : List UInt8 → Prop} {same : Prop} :
    Counted moved same (-1) ↔ same :=
  ⟨fun h => h.failed rfl, fun h => ⟨fun h0 => absurd h0 (by decide), fun _ => h⟩⟩

/-- How the answers end says whether one of them was a failure. -/
theorem EndsWith.fails_iff {α : Type} {used : List (SysResult α)} {e : Option Errno}
    (h : EndsWith used e) : Fails used ↔ e ≠ none := by
  cases e with
  | none =>
    simp only [ne_eq, not_true_eq_false, iff_false]
    rintro ⟨e, hne, hmem⟩
    exact hne (h e hmem)
  | some e =>
    obtain ⟨hne, u, rfl, -⟩ := h
    simp only [ne_eq, reduceCtorEq, not_false_eq_true, iff_true]
    exact ⟨e, hne, by simp⟩

/-! ## §2 The first segment -/

/-- A send that fails had a segment to send, and leaves it there. -/
theorem sendLoop_failed {fuel : Nat} {m : BufMem} {script : List (SysResult Nat)}
    {wire : List UInt8} {t : Transfer Nat} (h : sendLoop fuel m script wire = .ok t)
    (hfail : t.errno ≠ none) : ioBufIsEmpty m = false ∧ ioBufIsEmpty t.mem = false := by
  induction fuel generalizing m script wire with
  | zero => cases h
  | succ fuel ih =>
    rw [sendLoop] at h
    cases hfirst : m.b.first with
    | none =>
      rw [hfirst] at h
      obtain rfl := Except.ok.inj h
      exact absurd rfl hfail
    | some s =>
      have hm : ioBufIsEmpty m = false := by simp [ioBufIsEmpty, hfirst]
      rw [hfirst] at h
      obtain ⟨seg, -, h⟩ := except_bind_eq_ok.mp h
      split at h
      · exact ⟨hm, (ih h).2⟩
      · obtain ⟨⟨sent, rest⟩, -, h⟩ := except_bind_eq_ok.mp h
        cases sent with
        | err e =>
          obtain rfl := Except.ok.inj h
          exact ⟨hm, hm⟩
        | ok n =>
          obtain ⟨⟨bytes, seg'⟩, -, h⟩ := except_bind_eq_ok.mp h
          simp only at h
          split at h
          · obtain rfl := Except.ok.inj h
            exact absurd rfl hfail
          · exact ⟨hm, (ih h).2⟩

theorem ioBufGetSegToWrite_first {m m' : BufMem} {s s' : SegId} {n : Nat}
    (h : ioBufGetSegToWrite m s = .ok (n, s', m')) : m'.b.first = m.b.first := by
  obtain ⟨seg, -, h⟩ := except_bind_eq_ok.mp h
  split at h
  · cases hlast : m.b.last with
    | none =>
      rw [hlast] at h
      cases h
    | some l =>
      rw [hlast] at h
      obtain ⟨_, -, h⟩ := except_bind_eq_ok.mp h
      obtain ⟨_, -, h⟩ := except_bind_eq_ok.mp h
      cases h
      rfl
  · cases h
    rfl

/-- Receiving does not touch `first`. -/
theorem recvLoop_first {fuel : Nat} {m : BufMem} {s : SegId}
    {script : List (SysResult (List UInt8))}
    {got : List UInt8} {t : Transfer (List UInt8)} (h : recvLoop fuel m s script got = .ok t) :
    t.mem.b.first = m.b.first := by
  induction fuel generalizing m s script got with
  | zero => cases h
  | succ fuel ih =>
    rw [recvLoop] at h
    obtain ⟨⟨n, s', m'⟩, hseg, h⟩ := except_bind_eq_ok.mp h
    obtain ⟨⟨len, rest⟩, -, h⟩ := except_bind_eq_ok.mp h
    have hfirst := ioBufGetSegToWrite_first hseg
    cases len with
    | err e =>
      obtain rfl := Except.ok.inj h
      exact hfirst
    | ok bytes =>
      obtain ⟨seg, -, h⟩ := except_bind_eq_ok.mp h
      obtain ⟨seg', -, h⟩ := except_bind_eq_ok.mp h
      simp only at h
      split at h
      · exact (ih h).trans hfirst
      · obtain rfl := Except.ok.inj h
        exact hfirst

/-- After `io_buf_recv` a buffer is not empty, whatever the kernel said. -/
theorem ioBufRecv_first {m : BufMem} {content : List UInt8} (hm : Holds m content)
    {script : List (SysResult (List UInt8))} {t : Transfer (List UInt8)}
    (h : ioBufRecv m script = .ok t) : ioBufIsEmpty t.mem = false := by
  have hfirst : t.mem.b.first = (ioBufGetLastSeg m).2.b.first := recvLoop_first h
  obtain ⟨pre, seg, hsegs, -⟩ := ioBufGetLastSeg_holds hm
  have hne : (ioBufGetLastSeg m).2.b.first ≠ none := by
    rw [ne_eq, hsegs.nodes.first_eq_none]
    simp
  rw [ioBufIsEmpty, hfirst]
  cases hc : (ioBufGetLastSeg m).2.b.first with
  | none => exact absurd hc hne
  | some s => rfl

/-! ## §3 The calls -/

section Calls

variable {m : BufMem} {content : List UInt8}

theorem sendCounted_iff {script : List (SysResult Nat)} {t : Transfer Nat}
    (hrun : ioBufSend m script = .ok t) (h : SendsTo content [] script t) :
    ∃ after, Holds t.mem after ∧ (t.script = [] →
      (SendCounted m content t after ↔
        (Fails script → accepted script = 0) ∧ (¬Fails script → FitsInt (accepted script)))) := by
  obtain ⟨⟨used, hscript, hle, hbytes, hholds, hend⟩, hret⟩ := h
  refine ⟨_, hholds, fun hall => ?_⟩
  obtain rfl : script = used := by simpa [hall] using hscript
  have hsame : content.drop (accepted script) = content ↔ accepted script = 0 := by
    refine ⟨fun he => ?_, fun he => by simp [he]⟩
    have hlen := congrArg List.length he
    rw [List.length_drop] at hlen
    omega
  cases herr : t.errno with
  | none =>
    have hnot : ¬Fails script := by simp [hend.fails_iff, herr]
    have htotal : t.ret = toInt (accepted script) := by
      rw [hret, herr, hbytes]
      simp [Nat.min_eq_left hle]
    rw [SendCounted, htotal, counted_toInt]
    · simp only [hnot, false_implies, not_false_eq_true, true_implies, true_and]
    · intro bytes hb
      have hlen := congrArg List.length hb
      rw [List.length_append, List.length_drop] at hlen
      omega
    · exact ⟨_, (List.take_append_drop (accepted script) content).symm⟩
    · exact fun hs => hsame.mp hs.1
  | some e =>
    have hfails : Fails script := by simp [hend.fails_iff, herr]
    have hfail : t.errno ≠ none := by simp [herr]
    obtain ⟨hbefore, hafter⟩ := sendLoop_failed hrun hfail
    have hneg : t.ret = -1 := by rw [hret, herr]
    rw [SendCounted, hneg, counted_failed, hsame, hbefore, hafter]
    simp only [hfails, true_implies, not_true_eq_false, false_implies, and_true]

theorem recvCounted_iff (hm : Holds m content) {script : List (SysResult (List UInt8))}
    {t : Transfer (List UInt8)} (hrun : ioBufRecv m script = .ok t)
    (h : RecvsTo content [] script t) :
    ∃ after, Holds t.mem after ∧ (t.script = [] →
      (RecvCounted m content t after ↔
        (Fails script → delivered script = [] ∧ ioBufIsEmpty m = false) ∧
          (¬Fails script → FitsInt (delivered script).length))) := by
  obtain ⟨⟨used, hscript, hbytes, hholds, hend⟩, hret⟩ := h
  refine ⟨_, hholds, fun hall => ?_⟩
  obtain rfl : script = used := by simpa [hall] using hscript
  have hafter := ioBufRecv_first hm hrun
  cases herr : t.errno with
  | none =>
    have hnot : ¬Fails script := by simp [hend.fails_iff, herr]
    have htotal : t.ret = toInt (delivered script).length := by
      rw [hret, herr, hbytes]
      simp
    rw [RecvCounted, htotal, counted_toInt]
    · simp only [hnot, false_implies, not_false_eq_true, true_implies, true_and]
    · intro bytes hb
      rw [List.append_cancel_left hb]
    · exact ⟨_, rfl⟩
    · intro hs
      simpa using hs.1
  | some e =>
    have hfails : Fails script := by simp [hend.fails_iff, herr]
    have hneg : t.ret = -1 := by rw [hret, herr]
    have hempty : false = ioBufIsEmpty m ↔ ioBufIsEmpty m = false := eq_comm
    rw [RecvCounted, hneg, counted_failed, hafter, hempty, List.append_right_eq_self]
    simp only [hfails, true_implies, not_true_eq_false, false_implies, and_true]

/-- **What callers can tell from the return values.** For answers that the
call uses up, they say what happened just when a call that failed was not
preceded by one that moved bytes (nor, for `io_buf_recv`, made on an empty
buffer), and the sum of the others is kept by the `int`. -/
theorem io_buf_counts (hm : Holds m content) :
    (∀ script, ioBufSend m script = .error .noAnswer ∨
      ∃ t after, ioBufSend m script = .ok t ∧ Holds t.mem after ∧ (t.script = [] →
        (SendCounted m content t after ↔
          (Fails script → accepted script = 0) ∧
            (¬Fails script → FitsInt (accepted script))))) ∧
    ∀ script, ioBufRecv m script = .error .noAnswer ∨
      ∃ t after, ioBufRecv m script = .ok t ∧ Holds t.mem after ∧ (t.script = [] →
        (RecvCounted m content t after ↔
          (Fails script → delivered script = [] ∧ ioBufIsEmpty m = false) ∧
            (¬Fails script → FitsInt (delivered script).length))) := by
  constructor
  · intro script
    rcases ioBufSend_ok hm script with hno | ⟨t, hrun, hs⟩
    · exact .inl hno
    · obtain ⟨after, hholds, hiff⟩ := sendCounted_iff hrun hs
      exact .inr ⟨t, after, hrun, hholds, hiff⟩
  · intro script
    rcases ioBufRecv_ok hm script with hno | ⟨t, hrun, hs⟩
    · exact .inl hno
    · obtain ⟨after, hholds, hiff⟩ := recvCounted_iff hm hrun hs
      exact .inr ⟨t, after, hrun, hholds, hiff⟩

end Calls

/-- The kernel delivers two bytes. -/
theorem io_buf_counts_noSegment :
    ∃ t after, ioBufRecv noSegment [.ok [1, 2]] = .ok t ∧ Holds t.mem after ∧
      RecvCounted noSegment [] t after := by
  rcases (io_buf_counts holds_noSegment).2 [.ok [1, 2]] with hno | ⟨t, after, hrun, hholds, hiff⟩
  · cases hno
  · refine ⟨t, after, hrun, hholds, (hiff ?_).mpr ⟨?_, fun _ => .inl (by decide)⟩⟩
    · cases hrun
      rfl
    · rintro ⟨e, -, hmem⟩
      simp at hmem

/-- Two segments of a byte each. -/
def twoSegments : BufMem where
  b := ⟨some 0, some 1⟩
  h := ⟨fun s => if s < 2 then some ⟨0, 1, fun _ => 7⟩ else none,
    fun s => if s = 0 then some 1 else none, 2⟩

/-- A receive that would block leaves a segment in a buffer that had none,
and a send that would block after the first segment has removed that. -/
theorem failed_calls_change :
    (∃ t, ioBufRecv noSegment [.err .EAGAIN] = .ok t ∧ t.script = [] ∧ Holds t.mem [] ∧
      ¬RecvCounted noSegment [] t []) ∧
    Holds twoSegments [7, 7] ∧
      ∃ t, ioBufSend twoSegments [.ok 1, .err .EAGAIN] = .ok t ∧ t.script = [] ∧
        Holds t.mem [7] ∧ ¬SendCounted twoSegments [7, 7] t [7] := by
  refine ⟨⟨_, rfl, rfl, ?_, ?_⟩, ?_, ⟨_, rfl, rfl, ?_, ?_⟩⟩
  · exact (ioBufGetLastSeg_holds holds_noSegment).holds
  · exact fun h => absurd (h.failed rfl).2 (by decide)
  · refine ⟨[(0, ⟨0, 1, fun _ => 7⟩), (1, ⟨0, 1, fun _ => 7⟩)],
      ⟨⟨rfl, rfl, rfl⟩, rfl, ?_, ?_, ?_⟩, rfl⟩
    · simp [twoSegments]
    · simp [IoSeg.Wf, segSize]
    · simp [twoSegments]
  · refine ⟨[(1, ⟨0, 1, fun _ => 7⟩)], ⟨⟨rfl, rfl⟩, rfl, ?_, ?_, ?_⟩, rfl⟩
    · simp [twoSegments, BufMem.dropFirst, SegHeap.release, SegHeap.set]
    · simp [IoSeg.Wf, segSize]
    · simp [twoSegments, BufMem.dropFirst, SegHeap.release, SegHeap.set]
  · exact fun h => absurd (h.failed rfl).1 (by decide)

end Nanio.Buf
