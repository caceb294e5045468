/-
Nanio.Dgram.DynamicOwner — who frees a buffer that was given to
`io_dgram_client_send_dynamic`.

The client's code is run with a count beside its state of how often it has
freed each of the program's buffers (`library`). What the caller may rely on
is that a buffer whose send returned a non-negative value is freed once by
the time the client is. A datagram that waits in the queue is: its block
owns the buffer until it is dropped or the queue is freed (`Carries`). One
that the kernel takes in the call itself is not freed by anybody
(`directSend_leaks`), so the result is about the runs without one.
-/
import Nanio.Dgram.DgramOrder
import Nanio.Lib.Embed
import Nanio.Queue.QueueLedger

namespace Nanio.Dgram

open Nanio.Lib Nanio.Queue Nanio.Sock

/-! ## §1 The count of frees -/

/-- A client, and how often the library has freed each buffer of the
program. -/
structure Traced where
  w : World
  freed : Nat → Nat

/-- The buffers that a store of the library leaves gone. -/
def noteFrees (old new : World) (freed : Nat → Nat) : Nat → Nat :=
  fun n => freed n + (gone old.queue new.queue (.data (.own n))).toNat

/-- The library's code: what it frees is counted. -/
@[reducible] def library :
    Embedding World Query Answer Method Fault Traced Query Answer Method Fault where
  get s := s.w
  set s w := ⟨w, noteFrees s.w w s.freed⟩
  query q := q
  answer _ a := a
  answered _ _ s := s
  method m := m
  called _ s := s
  fault f := f

/-- What the program does itself is not counted. -/
@[reducible] def program :
    Embedding World Query Answer Method Fault Traced Query Answer Method Fault :=
  { library with set := fun s w => ⟨w, s.freed⟩ }

/-- A call of the client, and its end. -/
inductive OwnerCall where
  | client (c : Call)
  | free
  deriving DecidableEq

def ownerBody : OwnerCall → Prog Traced Query Answer Method Fault Int
  | .client (.own n content) => (body (.own n content)).embed program
  | .client (.setAddr p sa) => (body (.setAddr p sa)).embed program
  | .client c => (body c).embed library
  | .free => (ioDgramClientFree >>= fun _ => pure 0).embed library

abbrev OwnerContract := Contract Traced Query Answer Method Fault OwnerCall
abbrev OwnerLog := List (Event Traced Method OwnerCall)

/-- The event is a dynamic send of the buffer that returned a non-negative
value. -/
def handsOver (n : Nat) : Event Traced Method OwnerCall → Bool
  | .leave (.client (.send _ buf size .DYNAMIC)) _ _ v => 0 ≤ v && 0 < size && buf == n
  | _ => false

/-- How often the buffer was handed over. -/
def handed (l : OwnerLog) (n : Nat) : Nat := l.countP (handsOver n)

/-- The event is the end of the client. -/
def isEnd : Event Traced Method OwnerCall → Bool
  | .leave .free _ _ _ => true
  | _ => false

/-- The client has been freed. -/
abbrev Ended (l : OwnerLog) : Prop := l.any isEnd = true

/-- The block is in the queue. -/
def Queued (m : QueueMem) (b : IoQueueBlock) : Prop := ∃ blocks, Holds m blocks ∧ b ∈ blocks

/-! ## §2 The conditions -/

/-- What the caller promises: a send that sends anything is given an address
and a buffer of at least `size` bytes; a buffer to be freed is in no other
block; what a block in the queue points at is left alone; the client is freed
from outside its methods, and not used any more afterwards. -/
def CallerKeeps (v : View Traced Method OwnerCall) : Choice Query Answer OwnerCall → Prop
  | .enter c =>
    ¬Ended v.log ∧
    match c with
    | .client (.send to_ buf size type_) =>
      (0 < size → ∃ dg, v.st.w.given to_ buf size = some dg) ∧
      ∀ b, Queued v.st.w.queue b → b.data = .own buf → type_ ≠ .LOCAL →
        type_ = .STATIC ∧ b.type_ = .STATIC
    | .client (.own n _) => ∀ b, Queued v.st.w.queue b → b.data ≠ .own n
    | .client (.setAddr p _) => ∀ b, Queued v.st.w.queue b → b.tag ≠ p
    | .client (.event _) => True
    | .free => v.pending = []
  | _ => True

/-- No dynamic datagram goes out in the call that was given it, and none
waits whose size is negative as an `int`: the first returns as if the buffer
was taken over, the second as if it was not. -/
def DynamicWaits (v : View Traced Method OwnerCall) : Choice Query Answer OwnerCall → Prop
  | .enter (.client (.send _ _ size .DYNAMIC)) =>
    ioQueueIsEmpty v.st.w.queue = false → 0 ≤ toInt size
  | .answer (.sendto _) r =>
    match v.running with
    | some (.client (.send _ _ size .DYNAMIC)) =>
      (r = .ok () → toInt size < 0) ∧ (r = .err .EAGAIN → 0 ≤ toInt size)
    | _ => True
  | _ => True

/-- The blocks of the queue, each with an address and with its data, and no
data shared that is to be freed. -/
structure Sound (w : World) (blocks : List IoQueueBlock) : Prop where
  holds : Holds w.queue blocks
  dest : ∀ b ∈ blocks, ∃ dest, ioSockSetAddr (w.addr b.tag) = .ok dest
  there : ∀ b ∈ blocks, (w.queue.buf b.data).isSome ∧ b.size ≤ (w.queue.bytes b.data).length
  old : ∀ b ∈ blocks, ∀ n, b.data = .copy n → n < w.queue.freshCopy
  apart : blocks.Pairwise fun a b => a.data = b.data → a.type_ = .STATIC ∧ b.type_ = .STATIC

/-- What was handed over was freed, or a block in the queue owns it. -/
structure Carries (s : Traced) (l : OwnerLog) (blocks : List IoQueueBlock) : Prop where
  sound : Sound s.w blocks
  count : ∀ n, s.freed n + owed blocks (.own n) = handed l n
  ended : Ended l → blocks = []

def ownerContract : OwnerContract where
  ok v ch := CallerKeeps v ch ∧ DynamicWaits v ch
  Inv _ s l := ∃ blocks, Carries s l blocks
  mayFault _ := False

/-! ## §3 The queue -/

section Queue

variable {w w' : World} {blocks : List IoQueueBlock} {b : IoQueueBlock}

/-- The blocks look at their own addresses and data only. -/
theorem Sound.congr (h : Sound w blocks) (hholds : Holds w'.queue blocks)
    (haddr : ∀ b ∈ blocks, w'.addr b.tag = w.addr b.tag)
    (hbuf : ∀ b ∈ blocks, w'.queue.buf b.data = w.queue.buf b.data)
    (hfresh : w.queue.freshCopy ≤ w'.queue.freshCopy) : Sound w' blocks where
  holds := hholds
  dest b hb := by
    rw [haddr b hb]
    exact h.dest b hb
  there b hb := by
    rw [QueueMem.bytes, hbuf b hb]
    exact h.there b hb
  old b hb n hn := Nat.lt_of_lt_of_le (h.old b hb n hn) hfresh
  apart := h.apart

/-- A block more. -/
theorem Sound.push (h : Sound w blocks) (hholds : Holds w'.queue (blocks ++ [b]))
    (haddr : w'.addr = w.addr)
    (hbuf : ∀ a ∈ blocks, w'.queue.buf a.data = w.queue.buf a.data)
    (hfresh : w.queue.freshCopy ≤ w'.queue.freshCopy)
    (hdest : ∃ dest, ioSockSetAddr (w.addr b.tag) = .ok dest)
    (hthere : (w'.queue.buf b.data).isSome ∧ b.size ≤ (w'.queue.bytes b.data).length)
    (hold : ∀ n, b.data = .copy n → n < w'.queue.freshCopy)
    (hapart : ∀ a ∈ blocks, a.data = b.data → a.type_ = .STATIC ∧ b.type_ = .STATIC) :
    Sound w' (blocks ++ [b]) where
  holds := hholds
  dest := by
    rw [haddr]
    exact List.forall_mem_append.mpr ⟨h.dest, List.forall_mem_singleton.mpr hdest⟩
  there := by
    refine List.forall_mem_append.mpr ⟨fun a ha => ?_, List.forall_mem_singleton.mpr hthere⟩
    rw [QueueMem.bytes, hbuf a ha]
    exact h.there a ha
  old := by
    refine List.forall_mem_append.mpr ⟨fun a ha n hn => ?_, List.forall_mem_singleton.mpr hold⟩
    exact Nat.lt_of_lt_of_le (h.old a ha n hn) hfresh
  apart := by
    refine List.pairwise_append.mpr ⟨h.apart, List.pairwise_singleton _ _, fun a ha c hc => ?_⟩
    obtain rfl := List.mem_singleton.mp hc
    exact hapart a ha

/-- The first block freed. -/
theorem Sound.freeHead (h : Sound w (b :: blocks)) :
    ∃ buf, freedBuf w.queue.buf b = some buf ∧ ∀ a ∈ blocks, buf a.data = w.queue.buf a.data := by
  obtain ⟨hlive, -⟩ := h.there b List.mem_cons_self
  unfold freedBuf
  by_cases ht : b.type_ = .STATIC
  · exact ⟨w.queue.buf, if_pos ht, fun _ _ => rfl⟩
  · rw [if_neg ht, if_pos hlive]
    refine ⟨_, rfl, fun a ha => Function.update_of_ne (fun he => ht ?_) ..⟩
    exact ((List.pairwise_cons.mp h.apart).1 a ha he.symm).1

/-- All of them freed. -/
theorem Sound.freeAll {buf : DataPtr → Option (List UInt8)}
    (hthere : ∀ b ∈ blocks, (buf b.data).isSome)
    (hapart : blocks.Pairwise fun a b => a.data = b.data → a.type_ = .STATIC ∧ b.type_ = .STATIC) :
    ∃ buf', freedBufs buf blocks = some buf' := by
  induction blocks generalizing buf with
  | nil => exact ⟨buf, rfl⟩
  | cons b blocks ih =>
    obtain ⟨hlive, hrest⟩ := List.forall_mem_cons.mp hthere
    obtain ⟨hhead, htail⟩ := List.pairwise_cons.mp hapart
    by_cases ht : b.type_ = .STATIC
    · obtain ⟨buf', hbuf'⟩ := ih hrest htail
      exact ⟨buf', by rw [freedBufs, freedBuf, if_pos ht]; exact hbuf'⟩
    · have hkept : ∀ a ∈ blocks, (Function.update buf b.data none a.data).isSome := by
        intro a ha
        rw [Function.update_of_ne fun he => ht (hhead a ha he.symm).1]
        exact hrest a ha
      obtain ⟨buf', hbuf'⟩ := ih hkept htail
      exact ⟨buf', by rw [freedBufs, freedBuf, if_neg ht, if_pos hlive]; exact hbuf'⟩

/-- A block that waits is in the queue, and none other is. -/
theorem Sound.queued_iff (h : Sound w blocks) : Queued w.queue b ↔ b ∈ blocks := by
  refine ⟨fun ⟨blocks', hholds, hb⟩ => ?_, fun hb => ⟨blocks, h.holds, hb⟩⟩
  obtain rfl := h.holds.unique hholds
  exact hb

end Queue

/-! ## §4 The books -/

/-- A store that keeps the program's buffers frees none. -/
theorem noteFrees_kept {old new : World} {freed : Nat → Nat}
    (h : ∀ n, new.queue.buf (.own n) = old.queue.buf (.own n)) :
    noteFrees old new freed = freed := by
  funext n
  have hgone : gone old.queue new.queue (.data (.own n)) = false := by
    cases hn : (old.queue.buf (.own n)).isSome <;> simp [gone, QueueMem.live, h n, hn]
  simp [noteFrees, hgone]

theorem handed_snoc (l : OwnerLog) (e : Event Traced Method OwnerCall) (n : Nat) :
    handed (l ++ [e]) n = handed l n + (handsOver n e).toNat := by
  rw [handed, List.countP_append, List.countP_singleton, handed]
  cases handsOver n e <;> rfl

theorem ended_snoc {l : OwnerLog} {e : Event Traced Method OwnerCall} :
    Ended (l ++ [e]) ↔ Ended l ∨ isEnd e = true := by
  simp [Ended, List.any_append]

section Books

variable {w w' : World} {freed : Nat → Nat} {l : OwnerLog} {blocks : List IoQueueBlock}

/-- An event that hands nothing over and is not the end. -/
theorem Carries.snoc (h : Carries ⟨w, freed⟩ l blocks) {e : Event Traced Method OwnerCall}
    (hhand : ∀ n, handsOver n e = false) (hend : isEnd e = false) :
    Carries ⟨w, freed⟩ (l ++ [e]) blocks where
  sound := h.sound
  count n := by
    rw [handed_snoc, hhand n]
    exact h.count n
  ended he := h.ended ((ended_snoc.mp he).resolve_right (by simp [hend]))

theorem Carries.world (h : Carries ⟨w, freed⟩ l blocks) (hs : Sound w' blocks) :
    Carries ⟨w', freed⟩ l blocks := ⟨hs, h.count, h.ended⟩

/-- The kernel takes the datagram, or `POLLOUT` changes. -/
theorem Carries.sameQueue (h : Carries ⟨w, freed⟩ l blocks) (hq : w'.queue = w.queue)
    (haddr : w'.addr = w.addr) : Carries ⟨w', freed⟩ l blocks := by
  refine h.world (h.sound.congr ?_ (fun b _ => ?_) (fun b _ => ?_) ?_)
  · rw [hq]
    exact h.sound.holds
  · rw [haddr]
  · rw [hq]
  · rw [hq]

/-- The first block is dropped: what it owns is freed. -/
theorem Carries.dropHead {b : IoQueueBlock} (h : Carries ⟨w, freed⟩ l (b :: blocks)) :
    ∃ m', ioQueueBlockDrop w.queue = .ok (0, m') ∧
      Carries ⟨w.setQueue m', noteFrees w (w.setQueue m') freed⟩ l blocks := by
  obtain ⟨buf, hfree, hkept⟩ := h.sound.freeHead
  obtain ⟨m', hdrop, hholds, hbuf, hfresh⟩ := ioQueueBlockDrop_cons h.sound.holds hfree
  have hsound : Sound (w.setQueue m') blocks := by
    refine ⟨hholds, fun a ha => h.sound.dest a (List.mem_cons_of_mem b ha), fun a ha => ?_,
      fun a ha n hn => ?_, (List.pairwise_cons.mp h.sound.apart).2⟩
    · show (m'.buf a.data).isSome ∧ a.size ≤ (m'.bytes a.data).length
      rw [QueueMem.bytes, hbuf, hkept a ha]
      exact h.sound.there a (List.mem_cons_of_mem b ha)
    · show n < m'.freshCopy
      rw [hfresh]
      exact h.sound.old a (List.mem_cons_of_mem b ha) n hn
  refine ⟨m', hdrop, hsound, fun n => ?_, fun he => ?_⟩
  · have hone : freedBufs w.queue.buf [b] = some m'.buf := by simp [freedBufs, hfree, hbuf]
    have hgone := freedBufs_gone hone (.own n)
    have hcount : freed n + owed (b :: blocks) (.own n) = handed l n := h.count n
    rw [owed_cons] at hgone hcount
    rw [owed_nil] at hgone
    show freed n + (gone w.queue m' (.data (.own n))).toNat + owed blocks (.own n) = handed l n
    omega
  · cases h.ended he

/-- The client is freed: with it what the blocks own. -/
theorem Carries.freeAll (h : Carries ⟨w, freed⟩ l blocks) :
    ∃ m', ioQueueFree w.queue = .ok m' ∧
      Carries ⟨w.setQueue m', noteFrees w (w.setQueue m') freed⟩ l [] := by
  obtain ⟨buf, hbuf⟩ := Sound.freeAll (fun b hb => (h.sound.there b hb).1) h.sound.apart
  obtain ⟨m', hfree, -, hdone⟩ := ioQueueFree_holds h.sound.holds hbuf
  refine ⟨m', hfree, ⟨hdone.holds, by simp, by simp, by simp, List.Pairwise.nil⟩, fun n => ?_,
    fun _ => rfl⟩
  have hgone := freedBufs_gone hdone.buf (.own n)
  have hcount : freed n + owed blocks (.own n) = handed l n := h.count n
  rw [← hgone] at hcount
  exact hcount

end Books

/-! ## §5 A send -/

section Send

variable {ps : List (Pending Traced Method OwnerCall)} {w : World} {freed : Nat → Nat}
  {l : OwnerLog}
  {blocks : List IoQueueBlock} {to_ buf size : Nat} {type_ : BlockType} {dg : Datagram}

theorem wp_sendto_library {K : OwnerContract} {c : OwnerCall} {p : DataPtr} {dest : Unisa}
    {post : SysResult Unit → Traced → OwnerLog → Prop}
    (hdest : ioSockSetAddr (w.addr to_) = .ok dest) (hlen : size ≤ (w.queue.bytes p).length)
    (hok : ∀ dg, K.ok ⟨ps, some c, ⟨w, freed⟩, l⟩ (.answer (.sendto dg) (.ok ())) →
      post (.ok ()) ⟨w.took dg, freed⟩ l)
    (herr : ∀ dg e, K.ok ⟨ps, some c, ⟨w, freed⟩, l⟩ (.answer (.sendto dg) (.err e)) →
      post (.err e) ⟨w, freed⟩ l) :
    ((sendto to_ p size).embed library).wp K c ps post ⟨w, freed⟩ l := by
  unfold sendto destOf bytesAt
  simp only [wp_embed_bind, wp_embed_read, hdest, wp_embed_pure, if_pos hlen]
  intro a ha
  cases a with
  | ok u =>
    have hkept : noteFrees w (w.took ⟨dest, (w.queue.bytes p).take size⟩) freed = freed :=
      noteFrees_kept fun _ => rfl
    have hpost := hok _ ha
    rw [← hkept] at hpost
    exact hpost
  | err e => exact herr _ e ha

/-- A put of a block that points at the buffer. -/
theorem Carries.pushPointer (h : Carries ⟨w, freed⟩ l blocks)
    (hg : w.given to_ buf size = some dg) (hpos : 0 < size) (ht : type_ ≠ .LOCAL)
    (hshare : ∀ b ∈ blocks, b.data = .own buf → type_ = .STATIC ∧ b.type_ = .STATIC) :
    ∃ m', ioQueuePutBlock w.queue to_ (.own buf) size type_ = .ok (toInt size, m') ∧
      (∀ n, m'.buf (.own n) = w.queue.buf (.own n)) ∧
      Sound (w.wantOut.setQueue m') (blocks ++ [⟨type_, size % 2 ^ 16, to_, .own buf⟩]) := by
  obtain ⟨hdest, hlen, -⟩ := given_eq_some.mp hg
  obtain ⟨m', hput, hholds, hbuf, hfresh⟩ :=
    ioQueuePutBlock_pointer h.sound.holds to_ (.own buf) size ht
  refine ⟨m', hput, fun n => by rw [hbuf], h.sound.push hholds rfl (fun a _ => congrFun hbuf a.data)
    (Nat.le_of_eq hfresh.symm) ⟨_, hdest⟩ ?_ (fun n hn => by cases hn)
    fun a ha he => ?_⟩
  · have hbytes : m'.bytes (.own buf) = w.queue.bytes (.own buf) := by
      rw [QueueMem.bytes, hbuf, QueueMem.bytes]
    refine ⟨?_, ?_⟩
    · show (m'.buf (.own buf)).isSome
      rw [hbuf]
      cases hn : w.queue.buf (.own buf) with
      | some bytes => rfl
      | none =>
        simp [QueueMem.bytes, hn] at hlen
        omega
    · show size % 2 ^ 16 ≤ (m'.bytes (.own buf)).length
      rw [hbytes]
      exact (Nat.mod_le ..).trans hlen
  · exact (hshare a ha he).symm

/-- A put of a block with a copy of the buffer. -/
theorem Carries.pushCopy (h : Carries ⟨w, freed⟩ l blocks)
    (hg : w.given to_ buf size = some dg) :
    ∃ m', ioQueuePutBlock w.queue to_ (.own buf) size .LOCAL = .ok (toInt size, m') ∧
      (∀ n, m'.buf (.own n) = w.queue.buf (.own n)) ∧
      Sound (w.wantOut.setQueue m')
        (blocks ++ [⟨.LOCAL, size % 2 ^ 16, to_, .copy w.queue.freshCopy⟩]) := by
  obtain ⟨hdest, hlen, -⟩ := given_eq_some.mp hg
  obtain ⟨m', hput, hholds, hbuf, hfresh⟩ :=
    ioQueuePutBlock_copy h.sound.holds to_ (.own buf) hlen
  have hfresh' : m'.freshCopy = w.queue.freshCopy + 1 := hfresh
  have hnew : ∀ a ∈ blocks, a.data ≠ .copy w.queue.freshCopy := fun a ha he =>
    Nat.lt_irrefl _ (h.sound.old a ha _ he)
  refine ⟨m', hput, fun n => ?_, h.sound.push hholds rfl (fun a ha => ?_) ?_ ⟨_, hdest⟩ ?_ ?_
    fun a ha he => absurd he (hnew a ha)⟩
  · rw [hbuf]
    exact Function.update_of_ne (by simp) ..
  · show m'.buf a.data = _
    rw [hbuf]
    exact Function.update_of_ne (hnew a ha) ..
  · show w.queue.freshCopy ≤ m'.freshCopy
    omega
  · have hcopy : m'.buf (.copy w.queue.freshCopy) =
        some ((w.queue.bytes (.own buf)).take size) := by
      rw [hbuf]
      exact Function.update_self ..
    refine ⟨?_, ?_⟩
    · show (m'.buf (.copy w.queue.freshCopy)).isSome
      rw [hcopy]
      rfl
    · show size % 2 ^ 16 ≤ (m'.bytes (.copy w.queue.freshCopy)).length
      rw [QueueMem.bytes, hcopy, Option.getD_some, List.length_take_of_le hlen]
      exact Nat.mod_le ..
  · intro n hn
    cases hn
    show w.queue.freshCopy < m'.freshCopy
    omega

/-- What a send that is queued hands over is what its block owns. -/
theorem Carries.enqueue {w' : World} (h : Carries ⟨w, freed⟩ l blocks) {b : IoQueueBlock}
    (hs : Sound w' (blocks ++ [b])) {entry s' : Traced} {v : Int} (hend : ¬Ended l)
    (hhand : ∀ n, (handsOver n (.leave (.client (.send to_ buf size type_)) entry s' v)) =
      b.owns (.own n)) :
    Carries ⟨w', freed⟩ (l ++ [.leave (.client (.send to_ buf size type_)) entry s' v])
      (blocks ++ [b]) where
  sound := hs
  count n := by
    have hcount : freed n + owed blocks (.own n) = handed l n := h.count n
    show freed n + owed (blocks ++ [b]) (.own n) = _
    rw [handed_snoc, hhand n, owed_append, owed_cons, owed_nil]
    omega
  ended he := by
    rcases ended_snoc.mp he with he | he
    · exact absurd he hend
    · cases he

/-- The end of a send: the datagram is queued, by a call that may report it. -/
theorem owner_enqueue {entry : Traced} (h : Carries ⟨w, freed⟩ l blocks) (hend : ¬Ended l)
    (hg : w.given to_ buf size = some dg) (hpos : 0 < size)
    (hshare : ∀ b ∈ blocks, b.data = .own buf → type_ ≠ .LOCAL →
      type_ = .STATIC ∧ b.type_ = .STATIC)
    (hv : type_ = .DYNAMIC → 0 ≤ toInt size) :
    ((enqueue to_ buf size type_).embed library).wp ownerContract
      (.client (.send to_ buf size type_)) ps
      (ownerContract.Post (.client (.send to_ buf size type_)) entry ps) ⟨w, freed⟩ l := by
  have hput : ∃ m' b, ioQueuePutBlock w.queue to_ (.own buf) size type_ = .ok (toInt size, m') ∧
      (∀ n, m'.buf (.own n) = w.queue.buf (.own n)) ∧
      Sound (w.wantOut.setQueue m') (blocks ++ [b]) ∧
      ∀ n s', handsOver n (.leave (.client (.send to_ buf size type_)) entry s' (toInt size)) =
        b.owns (.own n) := by
    by_cases ht : type_ = .LOCAL
    · subst ht
      obtain ⟨m', hput, hkept, hs⟩ := h.pushCopy hg
      exact ⟨m', _, hput, hkept, hs, fun n s' => rfl⟩
    · obtain ⟨m', hput, hkept, hs⟩ := h.pushPointer hg hpos ht fun b hb he => hshare b hb he ht
      refine ⟨m', _, hput, hkept, hs, fun n s' => ?_⟩
      cases type_ with
      | STATIC => rfl
      | LOCAL => exact absurd rfl ht
      | DYNAMIC => simp [handsOver, IoQueueBlock.owns, hv rfl, hpos]
  obtain ⟨m', b, hput, hkept, hs, hhand⟩ := hput
  unfold enqueue
  have hput' : ioQueuePutBlock w.wantOut.queue to_ (.own buf) size type_ =
      .ok (toInt size, m') := hput
  have hwant : noteFrees w w.wantOut freed = freed := noteFrees_kept fun _ => rfl
  have hqueue : noteFrees w.wantOut (w.wantOut.setQueue m') freed = freed := noteFrees_kept hkept
  simp only [wp_embed_bind, wp_embed_modify, wp_embed_read, hwant, hput', hqueue, wp_embed_pure]
  exact ⟨_, h.enqueue hs hend fun n => hhand n _⟩

theorem owner_send (h : Carries ⟨w, freed⟩ l blocks)
    (hkeeps : CallerKeeps ⟨ps, none, ⟨w, freed⟩, l⟩ (.enter (.client (.send to_ buf size type_))))
    (hwaits : DynamicWaits ⟨ps, none, ⟨w, freed⟩, l⟩
      (.enter (.client (.send to_ buf size type_)))) :
    ((ioDgramClientSend to_ buf size type_).embed library).wp ownerContract
      (.client (.send to_ buf size type_)) ps
      (ownerContract.Post (.client (.send to_ buf size type_)) ⟨w, freed⟩ ps) ⟨w, freed⟩ l := by
  obtain ⟨hend, hgiven, hshare⟩ := hkeeps
  have hquiet : ∀ v s' w', (∀ n, handsOver n
        (.leave (.client (.send to_ buf size type_)) ⟨w, freed⟩ s' v) = false) →
      w'.queue = w.queue → w'.addr = w.addr →
      Carries ⟨w', freed⟩
        (l ++ [.leave (.client (.send to_ buf size type_)) ⟨w, freed⟩ s' v]) blocks :=
    fun v s' w' hhand hq haddr =>
      (h.sameQueue hq haddr).snoc hhand rfl
  unfold ioDgramClientSend
  by_cases hsize : size = 0
  · rw [if_pos hsize]
    refine ⟨_, hquiet 0 _ w (fun n => ?_) rfl rfl⟩
    cases type_ <;> simp [handsOver, hsize]
  · have hpos : 0 < size := Nat.pos_of_ne_zero hsize
    obtain ⟨dg, hg⟩ := hgiven hpos
    have hshare' : ∀ b ∈ blocks, b.data = .own buf → type_ ≠ .LOCAL →
        type_ = .STATIC ∧ b.type_ = .STATIC := fun b hb => hshare b (h.sound.queued_iff.mpr hb)
    simp only [if_neg hsize, wp_embed_bind, wp_embed_read]
    cases he : ioQueueIsEmpty w.queue with
    | false =>
      refine owner_enqueue h hend hg hpos hshare' fun hd => ?_
      subst hd
      exact hwaits he
    | true =>
      obtain ⟨hdest, hlen, -⟩ := given_eq_some.mp hg
      simp only [if_true, wp_embed_bind]
      refine wp_sendto_library hdest hlen (fun dg hok => ?_) fun dg e hok => ?_
      · -- a dynamic datagram that goes out at once is not reported
        refine ⟨_, hquiet _ _ _ (fun n => ?_) rfl rfl⟩
        cases type_ with
        | DYNAMIC =>
          have hneg : toInt size < 0 := hok.2.1 rfl
          simp [handsOver, Int.not_le.mpr hneg]
        | _ => rfl
      · by_cases hagain : e = .EAGAIN
        · subst hagain
          refine owner_enqueue h hend hg hpos hshare' fun hd => ?_
          subst hd
          exact hok.2.2 rfl
        · simp only [ne_eq, hagain, not_false_eq_true, if_true, wp_embed_pure]
          refine ⟨_, hquiet (-1) _ w (fun n => ?_) rfl rfl⟩
          cases type_ <;> simp [handsOver]

end Send

/-! ## §6 An event -/

section Event

variable {ps : List (Pending Traced Method OwnerCall)} {s : Traced} {l : OwnerLog}
  {blocks : List IoQueueBlock} {c : OwnerCall}

theorem owner_recvPart {events : BitVec 32} {post : Int → Traced → OwnerLog → Prop}
    (h : Carries s l blocks)
    (hpost : ∀ v s l blocks, Carries s l blocks → post v s l) :
    ((recvPart events).embed library).wp ownerContract c ps post s l := by
  unfold recvPart
  simp only [wp_embed_bind, wp_embed_read]
  split
  · intro a _
    cases a with
    | err e => exact hpost (-1) s l blocks h
    | ok r =>
      obtain ⟨usa, bytes⟩ := r
      cases bytes with
      | nil => exact hpost 0 s l blocks h
      | cons b bytes =>
        have hcall (m : Method) : Carries s (l ++ [.call m s]) blocks :=
          h.snoc (fun _ => rfl) rfl
        refine ⟨⟨blocks, hcall _⟩, fun _ s' l' hi _ => ?_⟩
        obtain ⟨blocks', h'⟩ := hi
        exact hpost 0 s' l' blocks' h'
  · exact hpost 0 s l blocks h

theorem owner_dropOutIfEmpty {post : Unit → Traced → OwnerLog → Prop} (h : Carries s l blocks)
    (hpost : ∀ s blocks, Carries s l blocks → post () s l) :
    (dropOutIfEmpty.embed library).wp ownerContract c ps post s l := by
  unfold dropOutIfEmpty
  simp only [wp_embed_bind, wp_embed_read]
  split
  · have hkept : noteFrees s.w s.w.dropOut s.freed = s.freed := noteFrees_kept fun _ => rfl
    simp only [wp_embed_modify, hkept]
    exact hpost _ blocks (h.sameQueue rfl rfl)
  · exact hpost s blocks h

/-- The head of the queue is sent, and dropped when the kernel took it. -/
theorem owner_sendPart {post : Bool → Traced → OwnerLog → Prop} (h : Carries s l blocks)
    (hpost : ∀ v s blocks, Carries s l blocks → post v s l) :
    (sendPart.embed library).wp ownerContract c ps post s l := by
  have hget := ioQueueGetBlock_holds h.sound.holds
  unfold sendPart getBlock
  simp only [wp_embed_bind, wp_embed_read, hget, wp_embed_pure]
  cases blocks with
  | nil =>
    simp only [List.head?_nil, wp_embed_bind]
    exact owner_dropOutIfEmpty h fun s blocks => hpost true s blocks
  | cons b rest =>
    obtain ⟨dest, hdest⟩ := h.sound.dest b List.mem_cons_self
    obtain ⟨-, hlen⟩ := h.sound.there b List.mem_cons_self
    simp only [List.head?_cons, wp_embed_bind]
    refine wp_sendto_library hdest hlen (fun dg _ => ?_) fun dg e _ => ?_
    · have htook : Carries ⟨s.w.took dg, s.freed⟩ l (b :: rest) := h.sameQueue rfl rfl
      obtain ⟨m', hdrop, hrest⟩ := htook.dropHead
      have hdrop' : ioQueueBlockDrop (s.w.took dg).queue = .ok (0, m') := hdrop
      unfold dropBlock
      simp only [wp_embed_bind, wp_embed_read, hdrop', wp_embed_modify]
      exact owner_dropOutIfEmpty hrest fun s blocks => hpost true s blocks
    · by_cases hagain : e = .EAGAIN
      · simp only [hagain, ne_eq, not_true_eq_false, if_false, wp_embed_bind]
        exact owner_dropOutIfEmpty h fun s blocks => hpost true s blocks
      · simp only [ne_eq, hagain, not_false_eq_true, if_true, wp_embed_pure]
        exact hpost false s _ h

theorem owner_event {events : BitVec 32} {entry : Traced} (h : Carries s l blocks) :
    ((ioDgramClientEventHandler events).embed library).wp ownerContract (.client (.event events)) ps
      (ownerContract.Post (.client (.event events)) entry ps) s l := by
  have hdone : ∀ v s l blocks, Carries s l blocks →
      ownerContract.Post (.client (.event events)) entry ps v s l := fun v s l blocks h =>
    ⟨blocks, h.snoc (fun _ => rfl) rfl⟩
  unfold ioDgramClientEventHandler
  split
  · rw [wp_embed_bind]
    refine owner_sendPart h fun v s blocks h => ?_
    cases v with
    | true => exact owner_recvPart h hdone
    | false => exact hdone (-1) s l blocks h
  · exact owner_recvPart h hdone

end Event

/-! ## §7 Every run -/

section Program

variable {w : World} {freed : Nat → Nat} {l : OwnerLog} {blocks : List IoQueueBlock}

/-- The program changes a buffer that no block points at. -/
theorem Carries.setOwn (h : Carries ⟨w, freed⟩ l blocks) {n : Nat} (content : Option (List UInt8))
    (hother : ∀ b ∈ blocks, b.data ≠ .own n) : Carries ⟨w.setOwn n content, freed⟩ l blocks := by
  obtain ⟨segs, hs, hblocks⟩ := h.sound.holds
  refine h.world (h.sound.congr ⟨segs, hs.congr rfl rfl rfl rfl, hblocks⟩ (fun _ _ => rfl)
    (fun b hb => Function.update_of_ne (hother b hb) ..) (Nat.le_refl _))

/-- The program changes an address that no block goes to. -/
theorem Carries.setAddr (h : Carries ⟨w, freed⟩ l blocks) {p : Nat} (sa : IoSockAddr)
    (hother : ∀ b ∈ blocks, b.tag ≠ p) : Carries ⟨w.setAddr p sa, freed⟩ l blocks :=
  h.world (h.sound.congr h.sound.holds (fun b hb => Function.update_of_ne (hother b hb) ..)
    (fun _ _ => rfl) (Nat.le_refl _))

end Program

theorem owner_body : ownerContract.Body ownerBody := by
  intro ps c s l hinv hok
  obtain ⟨blocks, h⟩ := hinv
  obtain ⟨hkeeps, hwaits⟩ := hok
  obtain ⟨w, freed⟩ := s
  cases c with
  | client c =>
    cases c with
    | send to_ buf size type_ => cases type_ <;> exact owner_send h hkeeps hwaits
    | event events => exact owner_event h
    | own n content =>
      have hother : ∀ b ∈ blocks, b.data ≠ .own n := fun b hb =>
        hkeeps.2 b (h.sound.queued_iff.mpr hb)
      exact ⟨blocks, (h.setOwn content hother).snoc (fun _ => rfl) rfl⟩
    | setAddr p sa =>
      have hother : ∀ b ∈ blocks, b.tag ≠ p := fun b hb =>
        hkeeps.2 b (h.sound.queued_iff.mpr hb)
      exact ⟨blocks, (h.setAddr sa hother).snoc (fun _ => rfl) rfl⟩
  | free =>
    obtain ⟨m', hfree, hnone⟩ := h.freeAll
    show ((ioDgramClientFree >>= fun _ => pure 0).embed library).wp _ _ _ _ _ _
    unfold ioDgramClientFree
    simp only [wp_embed_bind, wp_embed_read, hfree, wp_embed_modify, wp_embed_pure]
    refine ⟨[], hnone.sound, fun n => ?_, fun _ => rfl⟩
    rw [handed_snoc]
    exact hnone.count n

/-- **A dynamic buffer is freed once** for each send of it that returned a
non-negative value, by the time the client is freed, in every run in which
every dynamic datagram waits; before, it is freed or in the queue, and never
freed more often than it was handed over. No call goes wrong. -/
theorem dynamic_freed_once (m : QueueMem) (recvd : Bool) (addr : Nat → IoSockAddr)
    (choices : List (Choice Query Answer OwnerCall))
    (hm : Meets ownerBody (fun v ch => CallerKeeps v ch ∧ DynamicWaits v ch)
      (.start ⟨.created m recvd addr, fun _ => 0⟩) choices)
    (cfg : Config Traced Query Answer Method Fault OwnerCall)
    (hrun : run ownerBody (.start ⟨.created m recvd addr, fun _ => 0⟩) choices = some cfg) :
    (∀ f, cfg.ctl ≠ .faulted f) ∧
      (cfg.ctl = .owner → ∀ n, cfg.st.freed n ≤ handed cfg.log n ∧
        (Ended cfg.log → cfg.st.freed n = handed cfg.log n)) := by
  have h0 : ownerContract.Inv [] ⟨.created m recvd addr, fun _ => 0⟩ [] := by
    refine ⟨[], ⟨holds_init m, by simp, by simp, by simp, List.Pairwise.nil⟩, fun n => rfl, ?_⟩
    exact fun _ => rfl
  refine ⟨fun f hf => run_fault ownerContract owner_body h0 hm hrun hf, fun hctl n => ?_⟩
  obtain ⟨blocks, h⟩ := run_inv ownerContract owner_body h0 hm hrun hctl
  have hcount := h.count n
  refine ⟨by omega, fun he => ?_⟩
  rw [h.ended he, owed_nil] at hcount
  exact hcount

theorem queued_created {m : QueueMem} {recvd : Bool} {addr : Nat → IoSockAddr} {b : IoQueueBlock} :
    ¬Queued (World.created m recvd addr).queue b := by
  rintro ⟨blocks, hholds, hb⟩
  obtain rfl := hholds.unique (holds_init m)
  cases hb

/-- A dynamic datagram waits, is sent, and the client is freed. -/
def waitedThenFreed : List (Choice Query Answer OwnerCall) :=
  [.enter (.client (.send 0 0 2 .DYNAMIC)),
    .answer (.sendto ⟨.in_ [0, 80] [127, 0, 0, 1], [1, 2]⟩) (.err .EAGAIN),
    .enter (.client (.event Stream.POLLOUT)),
    .answer (.sendto ⟨.in_ [0, 80] [127, 0, 0, 1], [1, 2]⟩) (.ok ()), .enter .free]

theorem dynamic_freed_once_waited :
    ∃ cfg, run ownerBody (.start ⟨.created (twoBuffers [1, 2] []) false loopback, fun _ => 0⟩)
        waitedThenFreed = some cfg ∧ Ended cfg.log ∧ cfg.st.freed 0 = handed cfg.log 0 := by
  have hm : Meets ownerBody (fun v ch => CallerKeeps v ch ∧ DynamicWaits v ch)
      (.start ⟨.created (twoBuffers [1, 2] []) false loopback, fun _ => 0⟩) waitedThenFreed := by
    exact meets_cons ⟨⟨by decide, fun _ => ⟨_, rfl⟩, fun b hb => absurd hb queued_created⟩,
        fun h => (by cases h)⟩ rfl <|
      meets_cons ⟨trivial, fun h => (by cases h), fun _ => by decide⟩ rfl <|
      meets_cons ⟨⟨by decide, trivial⟩, trivial⟩ rfl <| meets_cons ⟨trivial, trivial⟩ rfl <|
      meets_cons ⟨⟨by decide, rfl⟩, trivial⟩ rfl meets_nil
  obtain ⟨-, h⟩ := dynamic_freed_once (twoBuffers [1, 2] []) false loopback waitedThenFreed hm _ rfl
  exact ⟨_, rfl, rfl, (h rfl 0).2 rfl⟩

/-- A dynamic datagram that the kernel takes at once is freed by nobody. -/
theorem directSend_leaks :
    ∃ choices cfg, Meets ownerBody CallerKeeps
        (.start ⟨.created (twoBuffers [1, 2] []) false loopback, fun _ => 0⟩) choices ∧
      run ownerBody (.start ⟨.created (twoBuffers [1, 2] []) false loopback, fun _ => 0⟩) choices =
        some cfg ∧
      cfg.ctl = .owner ∧ Ended cfg.log ∧ cfg.st.freed 0 = 0 ∧ handed cfg.log 0 = 1 := by
  refine ⟨[.enter (.client (.send 0 0 2 .DYNAMIC)),
    .answer (.sendto ⟨.in_ [0, 80] [127, 0, 0, 1], [1, 2]⟩) (.ok ()), .enter .free],
    _, ?_, rfl, rfl, rfl, rfl, rfl⟩
  exact meets_cons ⟨by decide, fun _ => ⟨_, rfl⟩, fun b hb => absurd hb queued_created⟩ rfl <|
    meets_cons trivial rfl <| meets_cons ⟨by decide, rfl⟩ rfl meets_nil

end Nanio.Dgram
