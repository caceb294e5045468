/-
Nanio.Buf.IoBufTheorems — a buffer is a queue of bytes.

`Segs m segs` says that the chain from `first` is exactly the segments of
the list, with `last` its final one; `Holds m content` forgets the
segments. §3 to §5 say of each operation what it does to the content, and
of `io_buf_send` and `io_buf_recv` which answers of the kernel they return on
(`Dialog`).
-/
import Nanio.Buf.IoBuf
import Nanio.Lib.NodeChain

namespace Nanio.Buf

open Nanio.Lib

/-! ## §1 One segment -/

/-- `data <= begin <= end <= data + capacity`. -/
def IoSeg.Wf (s : IoSeg) : Prop := s.begin_ ≤ s.end_ ∧ s.end_ ≤ segSize

@[simp] theorem IoSeg.bytes_length (s : IoSeg) : s.bytes.length = s.end_ - s.begin_ := by
  simp [IoSeg.bytes]

theorem IoSeg.toSend_eq {s : IoSeg} (h : s.Wf) : s.toSend = s.bytes.length := by
  obtain ⟨h₁, h₂⟩ := h
  have hsize : segSize = 2024 := rfl
  rw [IoSeg.toSend, toInt_of_lt (by omega) (by omega), IoSeg.bytes_length]
  omega

theorem IoSeg.toRecv_eq {s : IoSeg} (h : s.Wf) : s.toRecv = segSize - s.end_ := by
  obtain ⟨h₁, h₂⟩ := h
  have hsize : segSize = 2024 := rfl
  rw [IoSeg.toRecv]
  omega

/-- Storing what there is room for appends it. -/
theorem IoSeg.store_ok {s : IoSeg} (h : s.Wf) {bytes : List UInt8}
    (hroom : bytes.length ≤ segSize - s.end_) :
    ∃ s', s.store bytes = .ok s' ∧ s'.Wf ∧ s'.bytes = s.bytes ++ bytes := by
  obtain ⟨h₁, h₂⟩ := h
  refine ⟨_, if_pos (by omega), ⟨?_, ?_⟩, ?_⟩
  · show s.begin_ ≤ s.end_ + bytes.length
    omega
  · show s.end_ + bytes.length ≤ segSize
    omega
  · apply List.ext_getElem?
    intro i
    simp only [IoSeg.bytes, List.getElem?_append, List.getElem?_map, List.length_map,
      List.length_range']
    by_cases hi : i < s.end_ - s.begin_
    · have hlt : s.begin_ + i < s.end_ := by omega
      have hlt' : i < s.end_ + bytes.length - s.begin_ := by omega
      simp [hi, hlt', hlt]
    · rw [if_neg hi]
      by_cases hi' : i < s.end_ + bytes.length - s.begin_
      · have hge : ¬ s.begin_ + i < s.end_ := by omega
        have hj : i - (s.end_ - s.begin_) < bytes.length := by omega
        have hsub : s.begin_ + i - s.end_ = i - (s.end_ - s.begin_) := by omega
        simp [hi', hge, hsub, hj]
      · have hj : bytes.length ≤ i - (s.end_ - s.begin_) := by omega
        simp [hi', hj]

/-- Loading no more than there is takes it from the front. -/
theorem IoSeg.load_ok {s : IoSeg} (h : s.Wf) {n : Nat} (hn : n ≤ s.bytes.length) :
    ∃ s', s.load n = .ok (s.bytes.take n, s') ∧ s'.Wf ∧ s'.bytes = s.bytes.drop n := by
  obtain ⟨h₁, h₂⟩ := h
  rw [IoSeg.bytes_length] at hn
  -- the range splits where `begin` goes
  have hsplit : List.range' s.begin_ (s.end_ - s.begin_) =
      List.range' s.begin_ n ++ List.range' (s.begin_ + n) (s.end_ - (s.begin_ + n)) := by
    rw [List.range'_append_1]
    congr 1
    omega
  refine ⟨{ s with begin_ := s.begin_ + n }, ?_, ⟨?_, h₂⟩, ?_⟩
  · rw [IoSeg.load, if_pos (by omega), IoSeg.bytes, hsplit, List.map_append,
      List.take_left' (by simp)]
  · show s.begin_ + n ≤ s.end_
    omega
  · rw [IoSeg.bytes, IoSeg.bytes, hsplit, List.map_append, List.drop_left' (by simp)]

/-! ## §2 The chain of segments -/

/-- The buffer consists of these segments. -/
structure Segs (m : BufMem) (segs : List (SegId × IoSeg)) : Prop where
  chain : Chain m.h.next m.b.first (segs.map (·.1))
  last : m.b.last = (segs.map (·.1)).getLast?
  live : ∀ x ∈ segs, m.h.seg x.1 = some x.2
  wf : ∀ x ∈ segs, x.2.Wf
  fresh : ∀ x ∈ segs, x.1 < m.h.fresh

def bytesOf (segs : List (SegId × IoSeg)) : List UInt8 := segs.flatMap (·.2.bytes)

/-- The content of the buffer. -/
def Holds (m : BufMem) (content : List UInt8) : Prop :=
  ∃ segs, Segs m segs ∧ bytesOf segs = content

@[simp] theorem bytesOf_nil : bytesOf [] = [] := rfl

@[simp] theorem bytesOf_cons (x : SegId × IoSeg) (segs : List (SegId × IoSeg)) :
    bytesOf (x :: segs) = x.2.bytes ++ bytesOf segs := rfl

@[simp] theorem bytesOf_append (l₁ l₂ : List (SegId × IoSeg)) :
    bytesOf (l₁ ++ l₂) = bytesOf l₁ ++ bytesOf l₂ := by simp [bytesOf]

theorem segs_nil (h : SegHeap) : Segs ⟨⟨none, none⟩, h⟩ [] where
  chain := rfl
  last := rfl
  live := by simp
  wf := by simp
  fresh := by simp

/-- A buffer with nothing in it, and no segment. -/
def noSegment : BufMem := ⟨⟨none, none⟩, ⟨fun _ => none, fun _ => none, 0⟩⟩

theorem holds_noSegment : Holds noSegment [] := ⟨[], segs_nil _, rfl⟩

/-- The segments as the nodes of a store. -/
theorem Segs.nodes {m : BufMem} {segs : List (SegId × IoSeg)} (h : Segs m segs) :
    NodeChain m.h.seg m.h.next m.b.first m.b.last m.h.fresh segs :=
  ⟨h.chain, h.last, h.live, h.fresh⟩

theorem Segs.of_nodes {m : BufMem} {segs : List (SegId × IoSeg)}
    (h : NodeChain m.h.seg m.h.next m.b.first m.b.last m.h.fresh segs)
    (hwf : ∀ x ∈ segs, x.2.Wf) : Segs m segs :=
  ⟨h.chain, h.last_eq, h.mem_live, hwf, h.lt_fresh⟩

/-- The content is determined by the memory. -/
theorem Holds.unique {m : BufMem} {content₁ content₂ : List UInt8} (h₁ : Holds m content₁)
    (h₂ : Holds m content₂) : content₁ = content₂ := by
  obtain ⟨segs₁, hs₁, rfl⟩ := h₁
  obtain ⟨segs₂, hs₂, rfl⟩ := h₂
  rw [hs₁.nodes.unique hs₂.nodes]

theorem Segs.get {m : BufMem} {segs : List (SegId × IoSeg)} (h : Segs m segs) {s : SegId}
    {seg : IoSeg} (hs : (s, seg) ∈ segs) : m.h.get s = .ok seg := by
  rw [SegHeap.get, h.live (s, seg) hs]

/-- Rewriting one segment. -/
theorem Segs.set {m : BufMem} {l₁ l₂ : List (SegId × IoSeg)} {s : SegId} {seg seg' : IoSeg}
    (h : Segs m (l₁ ++ (s, seg) :: l₂)) (hwf : seg'.Wf) :
    Segs { m with h := m.h.set s seg' } (l₁ ++ (s, seg') :: l₂) := by
  obtain ⟨hbefore, hrest⟩ := List.forall_mem_append.mp h.wf
  obtain ⟨-, hafter⟩ := List.forall_mem_cons.mp hrest
  exact .of_nodes (h.nodes.set seg')
    (List.forall_mem_append.mpr ⟨hbefore, List.forall_mem_cons.mpr ⟨hwf, hafter⟩⟩)

theorem Segs.setFirst {m : BufMem} {segs : List (SegId × IoSeg)} {s : SegId} {seg seg' : IoSeg}
    (h : Segs m ((s, seg) :: segs)) (hwf : seg'.Wf) :
    Segs { m with h := m.h.set s seg' } ((s, seg') :: segs) := by
  have hset : Segs m ([] ++ (s, seg) :: segs) := h
  exact hset.set hwf

/-- Dropping the first segment. -/
theorem Segs.dropFirst {m : BufMem} {segs : List (SegId × IoSeg)} {s : SegId} {seg : IoSeg}
    (h : Segs m ((s, seg) :: segs)) : Segs (m.dropFirst s) segs := by
  refine .of_nodes ?_ fun x hx => h.wf x (List.mem_cons_of_mem _ hx)
  cases segs with
  | nil =>
    have hnone : m.h.next s = none := h.chain.2
    simpa [BufMem.dropFirst, hnone] using NodeChain.nil
  | cons x segs =>
    have hsome : m.h.next s = some x.1 := h.chain.2.1
    simpa [BufMem.dropFirst, SegHeap.release, hsome] using h.nodes.dropFirst (by simp)

/-- A fresh segment, not yet linked, leaves the buffer alone. -/
theorem Segs.alloc {m : BufMem} {segs : List (SegId × IoSeg)} (h : Segs m segs) (seg : IoSeg) :
    Segs { m with h := (ioSegNew m.h).2.set m.h.fresh seg } segs := by
  refine .of_nodes ?_ h.wf
  simpa [ioSegNew, SegHeap.set] using h.nodes.alloc seg

/-- Linking a segment that is live but not in the chain behind the last one. -/
theorem Segs.link {m : BufMem} {segs : List (SegId × IoSeg)} (h : Segs m segs) {s : SegId}
    {seg : IoSeg} (hlive : m.h.seg s = some seg) (hwf : seg.Wf) (hfresh : s < m.h.fresh)
    (hnext : m.h.next s = none) (hs : s ∉ segs.map (·.1)) :
    ∃ m', ioBufAdd m s = .ok m' ∧ Segs m' (segs ++ [(s, seg)]) := by
  have hwf' : ∀ x ∈ segs ++ [(s, seg)], x.2.Wf :=
    List.forall_mem_append.mpr ⟨h.wf, List.forall_mem_singleton.mpr hwf⟩
  have hnodes := h.nodes
  cases hlast : m.b.last with
  | none =>
    obtain rfl := hnodes.last_eq_none.mp hlast
    refine ⟨{ m with b := ⟨some s, some s⟩ }, by rw [ioBufAdd, hlast], .of_nodes ?_ hwf'⟩
    exact NodeChain.single hlive hfresh hnext
  | some l =>
    rw [hlast] at hnodes
    obtain ⟨g, hg⟩ := hnodes.last_mem
    have hget : m.h.get l = .ok g := h.get hg
    refine ⟨⟨{ m.b with last := some s }, m.h.setNext l (some s)⟩, ?_, .of_nodes ?_ hwf'⟩
    · simp only [ioBufAdd, hlast, hget]
      rfl
    · exact hnodes.link hlive hfresh hnext hs

/-! ## §3 Writing at the back -/

/-- The buffer has this content, and `s` is its last segment. -/
def HoldsAt (m : BufMem) (content : List UInt8) (s : SegId) : Prop :=
  ∃ pre seg, Segs m (pre ++ [(s, seg)]) ∧ bytesOf (pre ++ [(s, seg)]) = content

theorem HoldsAt.holds {m : BufMem} {content : List UInt8} {s : SegId} (h : HoldsAt m content s) :
    Holds m content := by
  obtain ⟨pre, seg, hr, hc⟩ := h
  exact ⟨_, hr, hc⟩

/-- The room at the back: that of a new segment where the last one is full or
there is none. -/
def BufMem.room (m : BufMem) : Nat :=
  match m.b.last.bind m.h.seg with
  | some seg => if seg.end_ < segSize then segSize - seg.end_ else segSize
  | none => segSize

theorem Segs.room_eq {m : BufMem} {pre : List (SegId × IoSeg)} {s : SegId} {seg : IoSeg}
    (h : Segs m (pre ++ [(s, seg)])) :
    m.room = if seg.end_ < segSize then segSize - seg.end_ else segSize := by
  have hlast : m.b.last = some s := by rw [h.last]; simp
  have hlive : m.h.seg s = some seg := h.live (s, seg) (by simp)
  simp only [BufMem.room, hlast, Option.bind_some, hlive]

/-- A segment with nothing in it. -/
theorem wf_empty : (⟨0, 0, fun _ => 0⟩ : IoSeg).Wf := ⟨Nat.le_refl 0, Nat.zero_le segSize⟩

theorem ioBufGetLastSeg_holds {m : BufMem} {content : List UInt8} (h : Holds m content) :
    HoldsAt (ioBufGetLastSeg m).2 content (ioBufGetLastSeg m).1 := by
  obtain ⟨segs, hr, hc⟩ := h
  rcases List.eq_nil_or_concat segs with rfl | ⟨pre, x, rfl⟩
  · have hlast : m.b.last = none := hr.last
    unfold ioBufGetLastSeg
    rw [hlast]
    refine ⟨[], ⟨0, 0, fun _ => 0⟩, ⟨?_, rfl, ?_, ?_, ?_⟩, by simpa [IoSeg.bytes] using hc⟩
    · exact ⟨rfl, Function.update_self ..⟩
    · simp [ioSegNew]
    · simpa using wf_empty
    · simp [ioSegNew]
  · have hlast : m.b.last = some x.1 := by rw [hr.last]; simp
    unfold ioBufGetLastSeg
    rw [hlast]
    rw [List.concat_eq_append] at hr hc
    exact ⟨pre, x.2, hr, hc⟩

/-- The segment to write to has room, and it is the last one. -/
theorem ioBufGetSegToWrite_ok {m : BufMem} {content : List UInt8} {s : SegId}
    (h : HoldsAt m content s) :
    ∃ s' m' pre seg, ioBufGetSegToWrite m s = .ok (segSize - seg.end_, s', m') ∧
      Segs m' (pre ++ [(s', seg)]) ∧ bytesOf (pre ++ [(s', seg)]) = content ∧
      seg.end_ < segSize ∧ segSize - seg.end_ = m.room := by
  obtain ⟨pre, seg, hr, hc⟩ := h
  have hroom := hr.room_eq
  have hwf : seg.Wf := hr.wf (s, seg) (by simp)
  have hget : m.h.get s = .ok seg := hr.get (by simp)
  by_cases hfull : seg.toRecv = 0
  · have hlast : m.b.last = some s := by rw [hr.last]; simp
    -- a full segment: a new one is linked behind it, as `io_buf_add` does
    let seg' : IoSeg := ⟨0, 0, fun _ => 0⟩
    have hset : (ioSegNew m.h).2.set m.h.fresh seg' = (ioSegNew m.h).2 := by
      simp [SegHeap.set, ioSegNew, seg']
    have hr' := hr.alloc seg'
    rw [hset] at hr'
    have hnew : (ioSegNew m.h).2.seg m.h.fresh = some seg' := Function.update_self ..
    obtain ⟨m', hadd, hlink⟩ := hr'.link hnew wf_empty (Nat.lt_succ_self _)
      (Function.update_self ..) hr.nodes.fresh_notMem
    have hget' : (ioSegNew m.h).2.get s = .ok seg := hr'.get (by simp)
    have hget'' : (ioSegNew m.h).2.get m.h.fresh = .ok seg' := by rw [SegHeap.get, hnew]
    simp only [ioBufAdd, hlast, hget', bind, Except.bind, pure, Except.pure] at hadd
    have hend : ¬ seg.end_ < segSize := by
      rw [IoSeg.toRecv_eq hwf] at hfull
      omega
    refine ⟨m.h.fresh, m', pre ++ [(s, seg)], seg', ?_, hlink, ?_, by decide, ?_⟩
    · rw [← Except.ok.inj hadd]
      simp only [ioBufGetSegToWrite, hget, bind, Except.bind, if_pos hfull, hlast, hget',
        show (ioSegNew m.h).1 = m.h.fresh from rfl, hget'']
      rw [show seg'.toRecv = segSize - seg'.end_ from IoSeg.toRecv_eq wf_empty]
      rfl
    · rw [bytesOf_append, hc]
      simp [IoSeg.bytes, seg']
    · rw [hroom, if_neg hend]
      rfl
  · have hend : seg.end_ < segSize := by
      rw [IoSeg.toRecv_eq hwf] at hfull
      omega
    refine ⟨s, m, pre, seg, ?_, hr, hc, hend, ?_⟩
    · rw [← IoSeg.toRecv_eq hwf]
      simp only [ioBufGetSegToWrite, hget, bind, Except.bind, if_neg hfull]
      rfl
    · rw [hroom, if_pos hend]

/-- Storing in the last segment appends to the content. -/
theorem Segs.storeLast {m : BufMem} {pre : List (SegId × IoSeg)} {s : SegId} {seg : IoSeg}
    (h : Segs m (pre ++ [(s, seg)])) {bytes : List UInt8}
    (hroom : bytes.length ≤ segSize - seg.end_) :
    ∃ seg', seg.store bytes = .ok seg' ∧
      HoldsAt { m with h := m.h.set s seg' } (bytesOf (pre ++ [(s, seg)]) ++ bytes) s ∧
      (bytes.length = segSize - seg.end_ →
        BufMem.room { m with h := m.h.set s seg' } = segSize) := by
  have hwf' := h.wf (s, seg) (by simp)
  obtain ⟨seg', hstore, hwf, hbytes⟩ := IoSeg.store_ok hwf' hroom
  refine ⟨seg', hstore, ⟨pre, seg', h.set hwf, by simp [hbytes]⟩, fun hfull => ?_⟩
  have hend : seg'.end_ = seg.end_ + bytes.length := by
    rw [IoSeg.store] at hstore
    split at hstore
    · cases hstore
      rfl
    · cases hstore
  obtain ⟨-, hle⟩ := hwf'
  rw [(h.set hwf).room_eq, if_neg (by dsimp only at hle; omega)]

theorem writeLoop_ok {fuel : Nat} {m : BufMem} {content data : List UInt8} {s : SegId} {total : Nat}
    (h : HoldsAt m content s) (hne : data ≠ []) (hfuel : data.length ≤ fuel) :
    ∃ m', writeLoop fuel m s data total = .ok (total + data.length, m') ∧
      Holds m' (content ++ data) := by
  have hpos : 0 < data.length := List.length_pos_iff.mpr hne
  induction fuel generalizing m content data s total with
  | zero => omega
  | succ fuel ih =>
    obtain ⟨s', m', pre, seg, hseg, hr, hc, hroom, -⟩ := ioBufGetSegToWrite_ok h
    have hget : m'.h.get s' = .ok seg := hr.get (by simp)
    obtain ⟨len, hlen⟩ : ∃ len, len =
      if segSize - seg.end_ > data.length then data.length else segSize - seg.end_ := ⟨_, rfl⟩
    have hle : len ≤ data.length ∧ len ≤ segSize - seg.end_ ∧ 0 < len := by
      rw [hlen]
      split <;> omega
    obtain ⟨seg', hstore, hat, -⟩ :=
      hr.storeLast (show (data.take len).length ≤ segSize - seg.end_ by
        rw [List.length_take]; omega)
    rw [hc] at hat
    rw [writeLoop, hseg]
    simp only [bind, Except.bind, ← hlen, hget, hstore]
    by_cases hdone : data.drop len = []
    · have hall : data.length ≤ len := List.drop_eq_nil_iff.mp hdone
      have htake : data.take len = data := List.take_of_length_le hall
      have heq : len = data.length := by omega
      rw [htake] at hat
      refine ⟨_, ?_, hat.holds⟩
      rw [hdone, heq]
      rfl
    · have hlt : 0 < (data.drop len).length := List.length_pos_iff.mpr hdone
      obtain ⟨m'', hw, hh⟩ := ih hat hdone (by rw [List.length_drop]; omega) hlt
      refine ⟨m'', ?_, ?_⟩
      · rw [if_neg (by simpa using hdone), hw, List.length_drop]
        congr 2
        omega
      · rwa [List.append_assoc, List.take_append_drop] at hh

/-- `io_buf_write` appends its bytes and returns their number. -/
theorem ioBufWrite_ok {m : BufMem} {content : List UInt8} (h : Holds m content)
    (data : List UInt8) :
    ∃ m', ioBufWrite m data = .ok (data.length, m') ∧ Holds m' (content ++ data) := by
  by_cases hd : data = []
  · subst hd
    exact ⟨m, rfl, by simpa using h⟩
  · have hlen : data.length ≠ 0 := fun e => hd (List.length_eq_zero_iff.mp e)
    obtain ⟨m', hw, hh⟩ := writeLoop_ok (ioBufGetLastSeg_holds h) hd (Nat.le_refl data.length)
    refine ⟨m', ?_, hh⟩
    rw [ioBufWrite, if_neg hlen]
    rw [Nat.zero_add] at hw
    exact hw

/-- `io_buf_add` of a segment that its caller allocated and filled. -/
theorem ioBufAdd_ok {m : BufMem} {content : List UInt8} (h : Holds m content) (s : FilledSeg) :
    ∃ m', ioBufAdd { m with h := (ioSegNew m.h).2.set m.h.fresh s.toIoSeg } m.h.fresh = .ok m' ∧
      Holds m' (content ++ s.bytes) := by
  obtain ⟨segs, hr, hc⟩ := h
  obtain ⟨m', hadd, hlink⟩ := (hr.alloc s.toIoSeg).link (s := m.h.fresh) (Function.update_self ..)
    ⟨s.begin_le, s.end_le⟩ (Nat.lt_succ_self _) (Function.update_self ..)
    hr.nodes.fresh_notMem
  exact ⟨m', hadd, _, hlink, by simp [hc]⟩

/-! ## §4 Reading and sending at the front -/

theorem past_drop_take (content bytes : List UInt8) (n : Nat) :
    (bytes ++ content).drop (bytes.length + n) = content.drop n ∧
      (bytes ++ content).take (bytes.length + n) = bytes ++ content.take n := by
  constructor
  · rw [List.drop_append, List.drop_eq_nil_of_le (by omega), List.nil_append]
    congr 1
    omega
  · rw [List.take_append, List.take_of_length_le (by omega)]
    congr 2
    omega

/-- The first segment is there. -/
theorem Segs.first {m : BufMem} {s : SegId} {seg : IoSeg} {segs : List (SegId × IoSeg)}
    (h : Segs m ((s, seg) :: segs)) : m.b.first = some s ∧ m.h.get s = .ok seg ∧ seg.Wf :=
  ⟨h.chain.1, h.get (by simp), h.wf (s, seg) (by simp)⟩

/-- Loading from the first segment takes from the front. -/
theorem Segs.loadFirst {m : BufMem} {s : SegId} {seg : IoSeg} {segs : List (SegId × IoSeg)}
    (h : Segs m ((s, seg) :: segs)) {n : Nat} (hn : n ≤ seg.bytes.length) :
    ∃ seg', seg.load n = .ok (seg.bytes.take n, seg') ∧
      Segs { m with h := m.h.set s seg' } ((s, seg') :: segs) ∧
      bytesOf ((s, seg') :: segs) = (bytesOf ((s, seg) :: segs)).drop n := by
  obtain ⟨seg', hload, hwf, hbytes⟩ := IoSeg.load_ok h.first.2.2 hn
  refine ⟨seg', hload, h.setFirst hwf, ?_⟩
  rw [bytesOf_cons, bytesOf_cons, hbytes, List.drop_append_of_le_length hn]

theorem readLoop_ok {fuel : Nat} {m : BufMem} {segs : List (SegId × IoSeg)} (h : Segs m segs)
    (hfuel : segs.length < fuel) (tail : Nat) (out : List UInt8) :
    ∃ m', readLoop fuel m tail out = .ok (out ++ (bytesOf segs).take tail, m') ∧
      Holds m' ((bytesOf segs).drop tail) := by
  induction fuel generalizing m segs tail out with
  | zero => omega
  | succ fuel ih =>
    rw [readLoop]
    by_cases htail : tail = 0
    · subst htail
      exact ⟨m, by simp, segs, h, rfl⟩
    · rw [if_neg htail]
      cases segs with
      | nil =>
        have hfirst : m.b.first = none := h.chain
        exact ⟨m, by rw [hfirst]; simp, [], h, by simp⟩
      | cons x segs =>
        obtain ⟨s, seg⟩ := x
        obtain ⟨hfirst, hget, hwf⟩ := h.first
        have hlen : segs.length < fuel := by simpa using hfuel
        rw [hfirst]
        simp only [hget, bind, Except.bind, IoSeg.toSend_eq hwf]
        by_cases hempty : seg.bytes.length = 0
        · rw [if_pos hempty]
          have hnil : seg.bytes = [] := List.length_eq_zero_iff.mp hempty
          simpa [hnil] using ih h.dropFirst hlen tail out
        · rw [if_neg hempty]
          obtain ⟨n, hn⟩ : ∃ n, n = if seg.bytes.length > tail then tail else seg.bytes.length :=
            ⟨_, rfl⟩
          have hle : n ≤ seg.bytes.length := by
            rw [hn]
            split <;> omega
          obtain ⟨seg', hload, hr', hbytes⟩ := h.loadFirst hle
          rw [← hn, hload]
          by_cases hpart : n < seg.bytes.length
          · have htl : n = tail := by
              rw [hn] at hpart ⊢
              split at hpart <;> split <;> omega
            refine ⟨_, ?_, _, hr', ?_⟩
            · simp only [if_pos hpart, pure, Except.pure, bytesOf_cons]
              rw [← htl, List.take_append_of_le_length hle]
            · rw [hbytes, htl]
          · have hall : n = seg.bytes.length := by omega
            have htl : seg.bytes.length ≤ tail := by
              rw [hn] at hall
              split at hall <;> omega
            obtain ⟨m', hrun, hholds⟩ :=
              ih hr'.dropFirst hlen (tail - n) (out ++ seg.bytes.take n)
            refine ⟨m', ?_, ?_⟩
            · simp only [if_neg hpart, hrun]
              rw [hall, List.take_length, bytesOf_cons, List.append_assoc, List.take_append,
                List.take_of_length_le htl]
            · rw [hall] at hholds
              rwa [bytesOf_cons, List.drop_append, List.drop_eq_nil_of_le htl, List.nil_append]

/-- `io_buf_read` takes the first `size` bytes, or all there are. -/
theorem ioBufRead_ok {m : BufMem} {content : List UInt8} (h : Holds m content) (size : Nat) :
    ∃ m', ioBufRead m size = .ok (content.take size, m') ∧ Holds m' (content.drop size) := by
  obtain ⟨segs, hr, rfl⟩ := h
  unfold ioBufRead
  simpa using readLoop_ok hr (Nat.lt_succ_of_le hr.nodes.length_le) size []

/-- Answers that only say that the call was interrupted. -/
def Interrupts {α : Type} (u : List (SysResult α)) : Prop := ∀ x ∈ u, x = .err .EINTR

theorem retry_cases {α : Type} (fits : α → Bool) (script : List (SysResult α)) :
    retry fits script = .error .noAnswer ∨
    ∃ u x rest, script = u ++ x :: rest ∧ Interrupts u ∧ retry fits script = .ok (x, rest) ∧
      ((∃ e, x = .err e ∧ e ≠ .EINTR) ∨ ∃ a, x = .ok a ∧ fits a = true) := by
  induction script with
  | nil => exact .inl rfl
  | cons x script ih =>
    cases x with
    | err e =>
      by_cases he : e = .EINTR
      · subst he
        rw [retry, if_pos rfl]
        rcases ih with ih | ⟨u, x, rest, rfl, hu, hr, hx⟩
        · exact .inl ih
        · refine .inr ⟨.err .EINTR :: u, x, rest, rfl, ?_, hr, hx⟩
          intro y hy
          rcases List.mem_cons.mp hy with rfl | hy
          · rfl
          · exact hu y hy
      · refine .inr ⟨[], .err e, script, rfl, by simp [Interrupts], ?_, .inl ⟨e, rfl, he⟩⟩
        rw [retry, if_neg he]
    | ok a =>
      rw [retry]
      by_cases hf : fits a = true
      · rw [if_pos hf]
        exact .inr ⟨[], .ok a, script, rfl, by simp [Interrupts], rfl, .inr ⟨a, rfl, hf⟩⟩
      · rw [if_neg hf]
        exact .inl rfl

/-- The answers one operation gets: `fits` is what the kernel may answer to a
call, `next` the call made after an answer. A call that was interrupted is
made again, and one that failed is the last. -/
inductive Dialog {σ α : Type} (fits : σ → α → Bool) (next : σ → α → Option σ) :
    Option σ → List (SysResult α) → Option Errno → Prop
  | done : Dialog fits next none [] none
  | interrupted {s : σ} {used : List (SysResult α)} {e : Option Errno}
      (h : Dialog fits next (some s) used e) : Dialog fits next (some s) (.err .EINTR :: used) e
  | failed {s : σ} {e : Errno} (he : e ≠ .EINTR) : Dialog fits next (some s) [.err e] (some e)
  | answered {s : σ} {a : α} {used : List (SysResult α)} {e : Option Errno}
      (hfits : fits s a = true) (h : Dialog fits next (next s a) used e) :
      Dialog fits next (some s) (.ok a :: used) e

section Dialog

variable {σ α : Type} {fits : σ → α → Bool} {next : σ → α → Option σ} {s : σ}
  {u used : List (SysResult α)} {e : Option Errno}

theorem Dialog.interrupts (hu : Interrupts u) (h : Dialog fits next (some s) used e) :
    Dialog fits next (some s) (u ++ used) e := by
  induction u with
  | nil => exact h
  | cons x u ih =>
    obtain rfl : x = .err .EINTR := hu x (by simp)
    exact .interrupted (ih fun y hy => hu y (by simp [hy]))

/-- A dialog has the answer its first call waits for. -/
theorem Dialog.retry_ok (h : Dialog fits next (some s) used e) (rest : List (SysResult α)) :
    ∃ r, retry (fits s) (used ++ rest) = .ok r := by
  generalize hs : some s = c at h
  induction h with
  | done => simp at hs
  | interrupted h ih =>
    obtain ⟨r, hr⟩ := ih hs
    exact ⟨r, by simpa [retry] using hr⟩
  | @failed s e he => exact ⟨(.err e, rest), by simp [retry, he]⟩
  | @answered s a used e hfits h ih =>
    obtain rfl := Option.some.inj hs
    exact ⟨(.ok a, used ++ rest), by simp [retry, hfits]⟩

/-- Past the answer of its first call a dialog goes on with the next one. -/
theorem Dialog.past (hu : Interrupts u) {a : α} {rest tail : List (SysResult α)}
    (h : Dialog fits next (some s) used e) (happ : used ++ tail = u ++ .ok a :: rest) :
    ∃ v, v ++ tail = rest ∧ Dialog fits next (next s a) v e := by
  induction u generalizing used with
  | nil =>
    cases h with
    | interrupted h => simp at happ
    | failed he => simp at happ
    | answered hfits h =>
      simp only [List.cons_append, List.nil_append, List.cons.injEq, SysResult.ok.injEq] at happ
      obtain ⟨rfl, hrest⟩ := happ
      exact ⟨_, hrest, h⟩
  | cons x u ih =>
    obtain rfl : x = .err .EINTR := hu x (by simp)
    cases h with
    | interrupted h =>
      exact ih (fun y hy => hu y (by simp [hy])) h (by simpa using happ)
    | failed he =>
      simp only [List.cons_append, List.cons.injEq, SysResult.err.injEq] at happ
      exact absurd happ.1 he
    | answered hfits h => simp at happ

/-- The answers say where a dialog ends. -/
theorem Dialog.unique {c : Option σ} {used' tail tail' : List (SysResult α)} {e' : Option Errno}
    (h : Dialog fits next c used e) (h' : Dialog fits next c used' e')
    (happ : used ++ tail = used' ++ tail') : used = used' ∧ e = e' := by
  induction h generalizing used' with
  | done =>
    cases h'
    exact ⟨rfl, rfl⟩
  | interrupted h ih =>
    cases h' with
    | interrupted h' =>
      obtain ⟨rfl, rfl⟩ := ih h' (by simpa using happ)
      exact ⟨rfl, rfl⟩
    | failed he =>
      simp only [List.cons_append, List.cons.injEq, SysResult.err.injEq] at happ
      exact absurd happ.1.symm he
    | answered hfits h' => simp at happ
  | failed he =>
    cases h' with
    | interrupted h' =>
      simp only [List.cons_append, List.cons.injEq, SysResult.err.injEq] at happ
      exact absurd happ.1 he
    | failed he' =>
      simp only [List.cons_append, List.cons.injEq, SysResult.err.injEq] at happ
      rw [happ.1]
      exact ⟨rfl, rfl⟩
    | answered hfits h' => simp at happ
  | answered hfits h ih =>
    cases h' with
    | interrupted h' => simp at happ
    | failed he => simp at happ
    | answered hfits' h' =>
      simp only [List.cons_append, List.cons.injEq, SysResult.ok.injEq] at happ
      obtain ⟨rfl, happ⟩ := happ
      obtain ⟨rfl, rfl⟩ := ih h' happ
      exact ⟨rfl, rfl⟩

end Dialog

/-- The script starts with a dialog. -/
def Answered {α : Type} (D : List (SysResult α) → Option Errno → Prop)
    (script : List (SysResult α)) : Prop :=
  ∃ used rest e, script = used ++ rest ∧ D used e

/-- Without the answer its first call waits for there is no dialog. -/
theorem Dialog.not_answered {σ α : Type} {fits : σ → α → Bool} {next : σ → α → Option σ} {s : σ}
    {script : List (SysResult α)} (h : retry (fits s) script = .error .noAnswer) :
    ¬ Answered (Dialog fits next (some s)) script := by
  rintro ⟨used, rest, e, rfl, hd⟩
  obtain ⟨r, hr⟩ := hd.retry_ok rest
  rw [h] at hr
  cases hr

/-- The bytes the kernel accepted by these answers. -/
def accepted (script : List (SysResult Nat)) : Nat :=
  (script.map fun x => match x with
    | .ok n => n
    | .err _ => 0).sum

@[simp] theorem accepted_nil : accepted [] = 0 := rfl

@[simp] theorem accepted_append (u v : List (SysResult Nat)) :
    accepted (u ++ v) = accepted u + accepted v := by simp [accepted]

@[simp] theorem accepted_ok (n : Nat) (v : List (SysResult Nat)) :
    accepted (.ok n :: v) = n + accepted v := by simp [accepted]

@[simp] theorem accepted_err (e : Errno) (v : List (SysResult Nat)) :
    accepted (.err e :: v) = accepted v := by simp [accepted]

theorem accepted_interrupts {u : List (SysResult Nat)} (hu : Interrupts u) : accepted u = 0 := by
  induction u with
  | nil => rfl
  | cons x u ih =>
    obtain rfl : x = .err .EINTR := hu x (by simp)
    rw [accepted_err]
    exact ih fun y hy => hu y (by simp [hy])

/-- How the answers that were used end: with the error that is reported,
or without any but EINTR. -/
def EndsWith {α : Type} (used : List (SysResult α)) : Option Errno → Prop
  | none => ∀ e, .err e ∈ used → e = .EINTR
  | some e => e ≠ .EINTR ∧ ∃ u, used = u ++ [.err e] ∧ ∀ e', .err e' ∈ u → e' = .EINTR

theorem EndsWith.cons {α : Type} {u used : List (SysResult α)} {e : Option Errno}
    (hu : ∀ e', .err e' ∈ u → e' = .EINTR) (h : EndsWith used e) : EndsWith (u ++ used) e := by
  cases e with
  | none =>
    intro e' he
    rcases List.mem_append.mp he with he | he
    · exact hu e' he
    · exact h e' he
  | some e =>
    obtain ⟨hne, v, rfl, hv⟩ := h
    refine ⟨hne, u ++ v, (List.append_assoc u v _).symm, ?_⟩
    intro e' he
    rcases List.mem_append.mp he with he | he
    · exact hu e' he
    · exact hv e' he

theorem Interrupts.only {α : Type} {u : List (SysResult α)} (hu : Interrupts u) :
    ∀ e, .err e ∈ u → e = .EINTR := by
  intro e he
  have h := hu _ he
  cases h
  rfl

theorem Interrupts.before {α : Type} {u : List (SysResult α)} (hu : Interrupts u) (a : α) :
    ∀ e, .err e ∈ u ++ [.ok a] → e = .EINTR := by
  intro e he
  exact hu.only e (by simpa using he)

/-- A transfer out of a buffer with this content: what the kernel accepted
by the answers that were used is gone from the front. -/
structure SendsTo (content wire : List UInt8) (script : List (SysResult Nat)) (t : Transfer Nat) :
    Prop where
  moved : ∃ used, script = used ++ t.script ∧ accepted used ≤ content.length ∧
    t.bytes = wire ++ content.take (accepted used) ∧
    Holds t.mem (content.drop (accepted used)) ∧ EndsWith used t.errno
  ret : t.ret = match t.errno with
    | none => toInt t.bytes.length
    | some _ => -1

/-- One more segment before the ones that were sent. -/
theorem SendsTo.prepend {bytes content wire : List UInt8} {script : List (SysResult Nat)}
    {t : Transfer Nat} {u : List (SysResult Nat)} (hu : ∀ e, .err e ∈ u → e = .EINTR)
    (ha : accepted u = bytes.length) (h : SendsTo content (wire ++ bytes) script t) :
    SendsTo (bytes ++ content) wire (u ++ script) t := by
  obtain ⟨⟨used, rfl, hle, hb, hh, hend⟩, hret⟩ := h
  have hacc : accepted (u ++ used) = bytes.length + accepted used := by rw [accepted_append, ha]
  obtain ⟨hdrop, htake⟩ := past_drop_take content bytes (accepted used)
  refine ⟨⟨u ++ used, (List.append_assoc _ _ _).symm, ?_, ?_, ?_, hend.cons hu⟩, hret⟩
  · rw [hacc, List.length_append]
    omega
  · rw [hb, hacc, htake, List.append_assoc]
  · rwa [hacc, hdrop]

/-- The kernel has no more room, or the call fails. -/
theorem SendsTo.failed {m : BufMem} {content : List UInt8} (h : Holds m content)
    {u : List (SysResult Nat)} (hu : Interrupts u) {e : Errno} (he : e ≠ .EINTR)
    (wire : List UInt8) (rest : List (SysResult Nat)) :
    SendsTo content wire (u ++ .err e :: rest) ⟨-1, some e, wire, rest, m⟩ := by
  have hacc : accepted (u ++ [.err e]) = 0 := by simp [accepted_interrupts hu]
  refine ⟨⟨u ++ [.err e], by simp, ?_, ?_, ?_, he, u, rfl, hu.only⟩, rfl⟩
  · rw [hacc]
    exact Nat.zero_le _
  · simp [hacc]
  · simpa [hacc] using h

/-- The kernel takes the first `n` bytes. -/
theorem SendsTo.partly {m : BufMem} {content : List UInt8} {n : Nat} (hn : n ≤ content.length)
    (h : Holds m (content.drop n)) {u : List (SysResult Nat)} (hu : Interrupts u)
    (wire : List UInt8) (rest : List (SysResult Nat)) :
    SendsTo content wire (u ++ .ok n :: rest)
      ⟨toInt (wire ++ content.take n).length, none, wire ++ content.take n, rest, m⟩ := by
  have hacc : accepted (u ++ [.ok n]) = n := by simp [accepted_interrupts hu]
  have hend : EndsWith (u ++ [.ok n]) none := hu.before n
  refine ⟨⟨u ++ [.ok n], by simp, ?_, ?_, ?_, hend⟩, rfl⟩
  · rwa [hacc]
  · rw [hacc]
  · rwa [hacc]

/-- A call of `io_buf_send`: the size of its segment, and of those behind it. -/
def sendCall : List Nat → Option (Nat × List Nat)
  | [] => none
  | n :: sizes => some (n, sizes)

/-- `io_buf_send` of segments of these sizes: no call takes more than its
segment has, and one that takes less is the last. -/
def Sends (sizes : List Nat) : List (SysResult Nat) → Option Errno → Prop :=
  Dialog (fun call n => decide (n ≤ call.1))
    (fun call n => if n < call.1 then none else sendCall call.2) (sendCall sizes)

/-- The sizes of the segments with bytes in them. -/
def sizesOf (segs : List (SegId × IoSeg)) : List Nat :=
  (segs.map (·.2.bytes.length)).filter (· ≠ 0)

theorem sizesOf_empty {seg : IoSeg} (h : seg.bytes.length = 0) (s : SegId)
    (segs : List (SegId × IoSeg)) : sizesOf ((s, seg) :: segs) = sizesOf segs := by
  rw [sizesOf, List.map_cons, List.filter_cons, if_neg (by simp [h]), sizesOf]

theorem sizesOf_cons {seg : IoSeg} (h : seg.bytes.length ≠ 0) (s : SegId)
    (segs : List (SegId × IoSeg)) :
    sizesOf ((s, seg) :: segs) = seg.bytes.length :: sizesOf segs := by
  rw [sizesOf, List.map_cons, List.filter_cons, if_pos (by simpa using h), sizesOf]

theorem sizesOf_sum (segs : List (SegId × IoSeg)) :
    (sizesOf segs).sum = (bytesOf segs).length := by
  induction segs with
  | nil => rfl
  | cons x segs ih =>
    by_cases h : x.2.bytes.length = 0
    · rw [sizesOf_empty h, ih, bytesOf_cons, List.length_append, h, Nat.zero_add]
    · rw [sizesOf_cons h, List.sum_cons, ih, bytesOf_cons, List.length_append]

section Send

variable {n : Nat} {sizes : List Nat} {u used : List (SysResult Nat)} {e : Option Errno}

theorem Sends.failed (hu : Interrupts u) {e : Errno} (he : e ≠ .EINTR) :
    Sends (n :: sizes) (u ++ [.err e]) (some e) :=
  Dialog.interrupts hu (.failed he)

theorem Sends.partly (hu : Interrupts u) {k : Nat} (hk : k < n) :
    Sends (n :: sizes) (u ++ [.ok k]) none := by
  refine Dialog.interrupts hu (.answered (decide_eq_true (Nat.le_of_lt hk)) ?_)
  rw [if_pos hk]
  exact .done

theorem Sends.whole (hu : Interrupts u) (h : Sends sizes used e) :
    Sends (n :: sizes) (u ++ [.ok n] ++ used) e := by
  rw [List.append_assoc]
  refine Dialog.interrupts hu (.answered (by simp) ?_)
  rwa [if_neg (Nat.lt_irrefl n)]

/-- When the first segment is taken whole, the others have the rest. -/
theorem Sends.past (hu : Interrupts u) {rest : List (SysResult Nat)}
    (h : Answered (Sends (n :: sizes)) (u ++ .ok n :: rest)) : Answered (Sends sizes) rest := by
  obtain ⟨used, tail, e, happ, h⟩ := h
  obtain ⟨v, hrest, hv⟩ := Dialog.past hu h happ.symm
  rw [if_neg (Nat.lt_irrefl n)] at hv
  exact ⟨v, tail, e, hrest.symm, hv⟩

end Send

/-- The loop returns on a dialog, and stops on anything else. -/
theorem sendLoop_ok {fuel : Nat} {m : BufMem} {segs : List (SegId × IoSeg)} (h : Segs m segs)
    (hfuel : segs.length < fuel) (script : List (SysResult Nat)) (wire : List UInt8) :
    (sendLoop fuel m script wire = .error .noAnswer ∧ ¬ Answered (Sends (sizesOf segs)) script) ∨
      ∃ t, sendLoop fuel m script wire = .ok t ∧ SendsTo (bytesOf segs) wire script t ∧
        ∃ used, script = used ++ t.script ∧ Sends (sizesOf segs) used t.errno := by
  induction fuel generalizing m segs script wire with
  | zero => omega
  | succ fuel ih =>
    rw [sendLoop]
    cases segs with
    | nil =>
      have hfirst : m.b.first = none := h.chain
      rw [hfirst]
      exact .inr ⟨_, rfl, ⟨⟨[], rfl, Nat.zero_le _, by simp, ⟨[], h, by simp⟩,
        by simp [EndsWith]⟩, rfl⟩, [], rfl, .done⟩
    | cons x segs =>
      obtain ⟨s, seg⟩ := x
      obtain ⟨hfirst, hget, hwf⟩ := h.first
      have hlen : segs.length < fuel := by simpa using hfuel
      rw [hfirst]
      simp only [hget, bind, Except.bind, IoSeg.toSend_eq hwf]
      by_cases hempty : seg.bytes.length = 0
      · rw [if_pos hempty, sizesOf_empty hempty]
        have hnil : seg.bytes = [] := List.length_eq_zero_iff.mp hempty
        simpa [hnil] using ih h.dropFirst hlen script wire
      · rw [if_neg hempty, sizesOf_cons hempty]
        rcases retry_cases (fun n => decide (n ≤ seg.bytes.length)) script with
          hno | ⟨u, x, rest, rfl, hu, hretry, hx⟩
        · left
          rw [hno]
          exact ⟨rfl, Dialog.not_answered hno⟩
        rw [hretry]
        rcases hx with ⟨e, rfl, he⟩ | ⟨n, rfl, hn⟩
        · -- the call fails: nothing of this segment is gone
          exact .inr ⟨_, rfl, .failed ⟨_, h, rfl⟩ hu he wire rest, _, by simp, .failed hu he⟩
        · have hle : n ≤ seg.bytes.length := by simpa using hn
          obtain ⟨seg', hload, hr', hbytes⟩ := h.loadFirst hle
          simp only [hload]
          by_cases hpart : n < seg.bytes.length
          · -- the kernel took part of this segment
            have hin : n ≤ (bytesOf ((s, seg) :: segs)).length := by
              rw [bytesOf_cons, List.length_append]
              exact Nat.le_add_right_of_le hle
            have htake : (bytesOf ((s, seg) :: segs)).take n = seg.bytes.take n := by
              rw [bytesOf_cons, List.take_append_of_le_length hle]
            have hstop := SendsTo.partly hin ⟨_, hr', hbytes⟩ hu wire rest
            rw [htake] at hstop
            rw [if_pos hpart]
            exact .inr ⟨_, rfl, hstop, _, by simp, .partly hu hpart⟩
          · obtain rfl : n = seg.bytes.length := by omega
            have hacc : accepted (u ++ [.ok seg.bytes.length]) = seg.bytes.length := by
              simp [accepted_interrupts hu]
            rw [if_neg hpart, List.take_length]
            rcases ih hr'.dropFirst hlen rest (wire ++ seg.bytes) with
              ⟨hno, hnone⟩ | ⟨t, ht, hs, used, rfl, hsends⟩
            · exact .inl ⟨hno, fun hans => hnone (Sends.past hu hans)⟩
            · refine .inr ⟨t, ht, ?_, _, ?_, hsends.whole hu⟩
              · have hscript : u ++ .ok seg.bytes.length :: (used ++ t.script) =
                    (u ++ [.ok seg.bytes.length]) ++ (used ++ t.script) := by simp
                rw [bytesOf_cons, hscript]
                exact hs.prepend (hu.before _) hacc
              · simp

/-- `io_buf_send` removes from the front what the kernel accepts. -/
theorem ioBufSend_ok {m : BufMem} {content : List UInt8} (h : Holds m content)
    (script : List (SysResult Nat)) :
    ioBufSend m script = .error .noAnswer ∨
      ∃ t, ioBufSend m script = .ok t ∧ SendsTo content [] script t := by
  obtain ⟨segs, hr, rfl⟩ := h
  rcases sendLoop_ok hr (Nat.lt_succ_of_le hr.nodes.length_le) script [] with
    ⟨hno, -⟩ | ⟨t, ht, hs, -⟩
  · exact .inl hno
  · exact .inr ⟨t, ht, hs⟩

/-! ## §5 Receiving, measuring and freeing -/

/-- The bytes the kernel delivered by these answers. -/
def delivered (script : List (SysResult (List UInt8))) : List UInt8 :=
  script.flatMap fun x => match x with
    | .ok bytes => bytes
    | .err _ => []

@[simp] theorem delivered_nil : delivered [] = [] := rfl

@[simp] theorem delivered_append (u v : List (SysResult (List UInt8))) :
    delivered (u ++ v) = delivered u ++ delivered v := by simp [delivered]

@[simp] theorem delivered_ok (bytes : List UInt8) (v : List (SysResult (List UInt8))) :
    delivered (.ok bytes :: v) = bytes ++ delivered v := by simp [delivered]

@[simp] theorem delivered_err (e : Errno) (v : List (SysResult (List UInt8))) :
    delivered (.err e :: v) = delivered v := by simp [delivered]

theorem delivered_interrupts {u : List (SysResult (List UInt8))} (hu : Interrupts u) :
    delivered u = [] := by
  induction u with
  | nil => rfl
  | cons x u ih =>
    obtain rfl : x = .err .EINTR := hu x (by simp)
    rw [delivered_err]
    exact ih fun y hy => hu y (by simp [hy])

/-- A transfer into a buffer with this content: what the kernel delivered by
the answers that were used is behind it, also when the last one failed. -/
structure RecvsTo (content got : List UInt8) (script : List (SysResult (List UInt8)))
    (t : Transfer (List UInt8)) : Prop where
  moved : ∃ used, script = used ++ t.script ∧ t.bytes = got ++ delivered used ∧
    Holds t.mem (content ++ delivered used) ∧ EndsWith used t.errno
  ret : t.ret = match t.errno with
    | none => toInt t.bytes.length
    | some _ => -1

/-- `io_buf_recv` with this much room at the back: no call gives more than
the room it has, and one that gives less is the last. -/
def Receives (room : Nat) : List (SysResult (List UInt8)) → Option Errno → Prop :=
  Dialog (fun room bytes => decide (bytes.length ≤ room))
    (fun room bytes => if bytes.length = room then some segSize else none) (some room)

section Receive

variable {room : Nat} {bytes : List UInt8} {u used : List (SysResult (List UInt8))}
  {e : Option Errno}

theorem Receives.failed (hu : Interrupts u) {e : Errno} (he : e ≠ .EINTR) :
    Receives room (u ++ [.err e]) (some e) :=
  Dialog.interrupts hu (.failed he)

theorem Receives.partly (hu : Interrupts u) (hb : bytes.length < room) :
    Receives room (u ++ [.ok bytes]) none := by
  refine Dialog.interrupts hu (.answered (decide_eq_true (Nat.le_of_lt hb)) ?_)
  rw [if_neg (Nat.ne_of_lt hb)]
  exact .done

theorem Receives.whole (hu : Interrupts u) (hb : bytes.length = room)
    (h : Receives segSize used e) : Receives room (u ++ [.ok bytes] ++ used) e := by
  rw [List.append_assoc]
  refine Dialog.interrupts hu (.answered (decide_eq_true (Nat.le_of_eq hb)) ?_)
  rwa [if_pos hb]

theorem Receives.past (hu : Interrupts u) (hb : bytes.length = room)
    {rest : List (SysResult (List UInt8))}
    (h : Answered (Receives room) (u ++ .ok bytes :: rest)) : Answered (Receives segSize) rest := by
  obtain ⟨used, tail, e, happ, h⟩ := h
  obtain ⟨v, hrest, hv⟩ := Dialog.past hu h happ.symm
  rw [if_pos hb] at hv
  exact ⟨v, tail, e, hrest.symm, hv⟩

end Receive

/-- The loop returns on a dialog, and stops on anything else. -/
theorem recvLoop_ok {fuel : Nat} {m : BufMem} {content : List UInt8} {s : SegId}
    (h : HoldsAt m content s) (script : List (SysResult (List UInt8)))
    (hfuel : script.length < fuel) (got : List UInt8) :
    (recvLoop fuel m s script got = .error .noAnswer ∧ ¬ Answered (Receives m.room) script) ∨
      ∃ t, recvLoop fuel m s script got = .ok t ∧ RecvsTo content got script t ∧
        ∃ used, script = used ++ t.script ∧ Receives m.room used t.errno := by
  induction fuel generalizing m content s script got with
  | zero => omega
  | succ fuel ih =>
    obtain ⟨s', m', pre, seg, hseg, hr, hc, hroom, hm⟩ := ioBufGetSegToWrite_ok h
    have hget : m'.h.get s' = .ok seg := hr.get (by simp)
    rw [recvLoop, hseg, hm]
    simp only [bind, Except.bind]
    rcases retry_cases (fun bytes : List UInt8 => decide (bytes.length ≤ m.room)) script
      with hno | ⟨u, x, rest, rfl, hu, hretry, hx⟩
    · left
      rw [hno]
      exact ⟨rfl, Dialog.not_answered hno⟩
    rw [hretry]
    rcases hx with ⟨e, rfl, he⟩ | ⟨bytes, rfl, hb⟩
    · -- the call fails: what came before it stays, and so may an empty segment
      right
      refine ⟨_, rfl, ⟨⟨u ++ [.err e], by simp, ?_, ⟨_, hr, ?_⟩, he, u, rfl, hu.only⟩, rfl⟩,
        u ++ [.err e], by simp, .failed hu he⟩
      · simp [delivered_interrupts hu]
      · simp [delivered_interrupts hu, hc]
    · have hle : bytes.length ≤ m.room := by simpa using hb
      obtain ⟨seg', hstore, hat, hnext⟩ := hr.storeLast (hm ▸ hle)
      rw [hc] at hat
      rw [hm] at hnext
      have hgiven : delivered (u ++ [.ok bytes]) = bytes := by simp [delivered_interrupts hu]
      have hend : EndsWith (u ++ [.ok bytes]) none := hu.before bytes
      simp only [hget, hstore]
      by_cases hmore : bytes.length = m.room
      · have hlen : rest.length < fuel := by
          simp only [List.length_append, List.length_cons] at hfuel
          omega
        rw [if_pos hmore]
        rcases ih hat rest hlen (got ++ bytes) with
          ⟨hno, hnone⟩ | ⟨t, ht, ⟨⟨used, rfl, hbytes, hh, he⟩, hret⟩, used', happ, hrecv⟩
        · rw [hnext hmore] at hnone
          exact .inl ⟨hno, fun hans => hnone (Receives.past hu hmore hans)⟩
        · obtain rfl := List.append_cancel_right happ
          rw [hnext hmore] at hrecv
          refine .inr ⟨t, ht, ⟨⟨u ++ [.ok bytes] ++ used, by simp, ?_, ?_,
            he.cons (hu.before bytes)⟩, hret⟩, u ++ [.ok bytes] ++ used, by simp,
            hrecv.whole hu hmore⟩
          · rw [hbytes, delivered_append, hgiven, List.append_assoc]
          · rw [delivered_append, hgiven, ← List.append_assoc]
            exact hh
      · right
        rw [if_neg hmore]
        refine ⟨_, rfl, ⟨⟨u ++ [.ok bytes], by simp, ?_, ?_, hend⟩, rfl⟩,
          u ++ [.ok bytes], by simp, .partly hu (by omega)⟩
        · rw [hgiven]
        · rw [hgiven]
          exact hat.holds

/-- `io_buf_recv` appends what the kernel delivers. -/
theorem ioBufRecv_ok {m : BufMem} {content : List UInt8} (h : Holds m content)
    (script : List (SysResult (List UInt8))) :
    ioBufRecv m script = .error .noAnswer ∨
      ∃ t, ioBufRecv m script = .ok t ∧ RecvsTo content [] script t := by
  rcases recvLoop_ok (ioBufGetLastSeg_holds h) script (Nat.lt_succ_self _) [] with
    ⟨hno, -⟩ | ⟨t, ht, hr, -⟩
  · exact .inl hno
  · exact .inr ⟨t, ht, hr⟩

theorem lengthLoop_ok {m : BufMem} {segs : List (SegId × IoSeg)}
    (hlive : ∀ x ∈ segs, m.h.seg x.1 = some x.2) (hwf : ∀ x ∈ segs, x.2.Wf) {p : Option SegId}
    (hc : Chain m.h.next p (segs.map (·.1))) {fuel : Nat} (hfuel : segs.length ≤ fuel) {len : Nat}
    (hlen : len + (bytesOf segs).length < 2 ^ 31) :
    lengthLoop m.h fuel len p = .ok ((len + (bytesOf segs).length : Nat) : Int) := by
  induction segs generalizing p fuel len with
  | nil =>
    obtain rfl : p = none := hc
    cases fuel <;> simp [lengthLoop]
  | cons x segs ih =>
    obtain ⟨rfl, ht⟩ := hc
    cases fuel with
    | zero => simp at hfuel
    | succ fuel =>
      obtain ⟨h₁, h₂⟩ := hwf x (by simp)
      have hget : m.h.get x.1 = .ok x.2 := by rw [SegHeap.get, hlive x (by simp)]
      rw [bytesOf_cons, List.length_append, IoSeg.bytes_length] at hlen ⊢
      have hadd : toInt (len + ((x.2.end_ : Int) - x.2.begin_)) =
          ((len + (x.2.end_ - x.2.begin_) : Nat) : Int) := by
        rw [toInt_of_lt (by omega) (by omega)]
        omega
      have hrest := ih (fun y hy => hlive y (by simp [hy])) (fun y hy => hwf y (by simp [hy])) ht
        (by simpa using hfuel) (show len + (x.2.end_ - x.2.begin_) + (bytesOf segs).length < _ by
          omega)
      simp only [lengthLoop, hget, bind, Except.bind, hadd]
      rw [hrest, Nat.add_assoc]

theorem freeLoop_ok {h : SegHeap} {s : SegId} {ids : List SegId} (hc : Chain h.next (some s) ids)
    (hlive : ∀ i ∈ ids, ∃ seg, h.seg i = some seg) {fuel : Nat} (hfuel : ids.length ≤ fuel) :
    ∃ h', freeLoop fuel h s = .ok h' := by
  induction fuel generalizing h s ids with
  | zero =>
    obtain rfl : ids = [] := List.length_eq_zero_iff.mp (by omega)
    cases hc
  | succ fuel ih =>
    cases ids with
    | nil => cases hc
    | cons i ids =>
      have hnd := List.nodup_cons.mp hc.nodup
      obtain ⟨hi, ht⟩ := hc
      obtain rfl : s = i := Option.some.inj hi
      obtain ⟨seg, hseg⟩ := hlive s (by simp)
      have hget : h.get s = .ok seg := by rw [SegHeap.get, hseg]
      rw [freeLoop, hget]
      simp only [bind, Except.bind]
      cases hn : h.next s with
      | none => exact ⟨_, rfl⟩
      | some n =>
        rw [hn] at ht
        apply ih (show Chain (h.release s).next (some n) ids from ht) _ (by simpa using hfuel)
        intro j hj
        obtain ⟨seg', hseg'⟩ := hlive j (by simp [hj])
        have hne : j ≠ s := fun e => hnd.1 (e ▸ hj)
        exact ⟨seg', (Function.update_of_ne hne ..).trans hseg'⟩

theorem ioBufFree_ok {m : BufMem} {content : List UInt8} (h : Holds m content) :
    ∃ m', ioBufFree m = .ok m' ∧ Holds m' [] := by
  obtain ⟨segs, hr, -⟩ := h
  rw [ioBufFree]
  cases segs with
  | nil =>
    have hfirst : m.b.first = none := hr.chain
    rw [hfirst]
    exact ⟨m, rfl, [], hr, rfl⟩
  | cons x segs =>
    have hfirst : m.b.first = some x.1 := hr.chain.1
    have hlive : ∀ i ∈ (x :: segs).map (·.1), ∃ seg, m.h.seg i = some seg := by
      intro i hi
      obtain ⟨y, hy, rfl⟩ := List.mem_map.mp hi
      exact ⟨y.2, hr.live y hy⟩
    have hc : Chain m.h.next (some x.1) ((x :: segs).map (·.1)) := hfirst ▸ hr.chain
    obtain ⟨h', hf⟩ := freeLoop_ok hc hlive (by simpa using hr.nodes.length_le)
    rw [hfirst]
    exact ⟨⟨⟨none, none⟩, h'⟩, by simp only [hf]; rfl, [], segs_nil h', rfl⟩

end Nanio.Buf
