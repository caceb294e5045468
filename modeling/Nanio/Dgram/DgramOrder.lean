/-
Nanio.Dgram.DgramOrder — what the client is for: the datagrams given to it
reach the kernel whole, once, and in order.

A send that returned a non-negative value has accepted its datagram. The
invariant (`InOrder`) is that the accepted ones are those on the wire
followed by those that the blocks of the queue still stand for, each block
with everything it needs to send its datagram (`Waits`).

A block keeps its size in 16 bits, so this holds of the runs that queue no
longer datagram (`Small`): one that has to wait goes out cut
(`ioDgramClient_cut`).
-/
import Nanio.Dgram.IoDgramClient
import Nanio.Queue.QueueFifo
import Nanio.Stream.StreamRules

namespace Nanio.Dgram

open Nanio.Lib Nanio.Queue Nanio.Sock
open Nanio.Stream (POLLIN POLLOUT has has_or)

abbrev DgramContract := Contract World Query Answer Method Fault Call
abbrev Log := List (Event World Method Call)

/-! ## §1 What was accepted -/

/-- The datagram of the `size` bytes at `buf` for the address at `to_`, as
they are now. -/
def World.given (w : World) (to_ buf size : Nat) : Option Datagram :=
  match ioSockSetAddr (w.addr to_) with
  | .ok dest =>
    if size ≤ (w.queue.bytes (.own buf)).length then
      some ⟨dest, (w.queue.bytes (.own buf)).take size⟩
    else none
  | .error _ => none

structure Accepted where
  to_ : Nat
  buf : Nat
  size : Nat
  type_ : BlockType
  dg : Datagram
  deriving DecidableEq

/-- What a call that returned has accepted. -/
def accepted : Event World Method Call → List Accepted
  | .leave (.send to_ buf size type_) entry _ v =>
    if 0 ≤ v ∧ 0 < size then ((entry.given to_ buf size).map (⟨to_, buf, size, type_, ·⟩)).toList
    else []
  | _ => []

/-- The accepted datagrams that the kernel has not taken yet. -/
def outstanding (w : World) (l : Log) : List Accepted := (l.flatMap accepted).drop w.wire.length

/-- Both use the buffer in place only when neither frees it. -/
def Together (a b : Accepted) : Prop :=
  a.type_ ≠ .LOCAL → b.type_ ≠ .LOCAL → a.buf = b.buf → a.type_ = .STATIC ∧ b.type_ = .STATIC

/-! ## §2 The conditions -/

/-- What the caller promises: a send is given an address and a buffer of at
least `size` bytes, and takes no buffer in place that is waiting to be
freed, or gives away one that is waiting to be read; what a waiting
datagram uses in place is left alone. -/
def Assumed (v : View World Method Call) : Choice Query Answer Call → Prop
  | .enter (.send to_ buf size type_) =>
    ∃ dg, v.st.given to_ buf size = some dg ∧
      ∀ r ∈ outstanding v.st v.log, Together r ⟨to_, buf, size, type_, dg⟩
  | .enter (.own n _) => ∀ r ∈ outstanding v.st v.log, r.type_ ≠ .LOCAL → r.buf ≠ n
  | .enter (.setAddr p _) => ∀ r ∈ outstanding v.st v.log, r.to_ ≠ p
  | _ => True

/-- No datagram of 2^16 bytes or more is queued, because the queue is in
use or because the kernel has no room; and none is taken at once whose size
is negative as an `int`. -/
def Small (v : View World Method Call) : Choice Query Answer Call → Prop
  | .enter (.send _ _ size _) => ioQueueIsEmpty v.st.queue = false → size < 2 ^ 16
  | .answer (.sendto _) (.ok _) =>
    match v.running with
    | some (.send _ _ size _) => 0 ≤ toInt size
    | _ => True
  | .answer (.sendto _) (.err .EAGAIN) =>
    match v.running with
    | some (.send _ _ size _) => size < 2 ^ 16
    | _ => True
  | _ => True

/-- The item of the queue sends this datagram when its turn comes. -/
structure Waits (w : World) (it : Item) (r : Accepted) : Prop where
  tag_eq : it.tag = r.to_
  type_eq : it.type_ = r.type_
  size_eq : it.size = r.size
  small : r.size < 2 ^ 16
  pos : 0 < r.size
  dest : ioSockSetAddr (w.addr r.to_) = .ok r.dg.dest
  data :
    (r.type_ ≠ .LOCAL ∧ it.payload = .pointer r.buf ∧
      r.size ≤ (w.queue.bytes (.own r.buf)).length ∧
      r.dg.bytes = (w.queue.bytes (.own r.buf)).take r.size) ∨
    (r.type_ = .LOCAL ∧ it.payload = .copy r.dg.bytes ∧ r.dg.bytes.length = r.size)

/-- The queue's items are the datagrams of `rest`, which follow what is on
the wire. -/
structure Backlog (w : World) (f : Fifo) (sent rest : List Accepted) : Prop where
  sim : Sim w.queue f
  wire_eq : w.wire = sent.map (·.dg)
  waits : List.Forall₂ (Waits w) (f.put.drop f.dropped) rest
  wants : rest ≠ [] → has w.events POLLOUT = true
  together : rest.Pairwise Together

def InOrder (w : World) (l : Log) : Prop :=
  ∃ f sent rest, l.flatMap accepted = sent ++ rest ∧ Backlog w f sent rest

def orderContract : DgramContract where
  ok v ch := Assumed v ch ∧ Small v ch
  Inv _ w l := InOrder w l
  mayFault _ := False

/-! ## §3 The queue and the world -/

theorem given_eq_some {w : World} {to_ buf size : Nat} {dg : Datagram} :
    w.given to_ buf size = some dg ↔
      ioSockSetAddr (w.addr to_) = .ok dg.dest ∧ size ≤ (w.queue.bytes (.own buf)).length ∧
        dg.bytes = (w.queue.bytes (.own buf)).take size := by
  obtain ⟨dest, bytes⟩ := dg
  unfold World.given
  cases ioSockSetAddr (w.addr to_) with
  | error f => simp
  | ok dest' =>
    by_cases hs : size ≤ (w.queue.bytes (.own buf)).length
    · simp [hs, eq_comm]
    · simp [hs]

/-- An empty queue has no item left. -/
theorem sim_isEmpty {m : QueueMem} {f : Fifo} (h : Sim m f) (he : ioQueueIsEmpty m = true) :
    f.put.drop f.dropped = [] := by
  have hfirst : m.q.first = none := by simpa [ioQueueIsEmpty] using he
  have hget : ioQueueGetBlock m = .ok none := by simp [ioQueueGetBlock, hfirst]
  have hall : f.dropped = f.put.length := h.queueIs.get_null.mp hget
  simp [hall]

/-- An item only looks at its own address and, when it is used in place, at
its own buffer. -/
theorem Waits.congr {w w' : World} {it : Item} {r : Accepted} (h : Waits w it r)
    (haddr : w'.addr r.to_ = w.addr r.to_)
    (hbuf : r.type_ ≠ .LOCAL → w'.queue.buf (.own r.buf) = w.queue.buf (.own r.buf)) :
    Waits w' it r := by
  refine ⟨h.tag_eq, h.type_eq, h.size_eq, h.small, h.pos, haddr ▸ h.dest, ?_⟩
  rcases h.data with ⟨htype, hpay, hlen, hbytes⟩ | hlocal
  · have heq : w'.queue.bytes (.own r.buf) = w.queue.bytes (.own r.buf) := by
      simp [QueueMem.bytes, hbuf htype]
    exact .inl ⟨htype, hpay, by rwa [heq], by rwa [heq]⟩
  · exact .inr hlocal

theorem Backlog.outstanding_eq {w : World} {f : Fifo} {sent rest : List Accepted} {l : Log}
    (h : Backlog w f sent rest) (hl : l.flatMap accepted = sent ++ rest) :
    outstanding w l = rest := by
  simp [outstanding, hl, h.wire_eq]

theorem forall₂_mem {α β : Type} {R : α → β → Prop} {xs : List α} {ys : List β}
    (h : List.Forall₂ R xs ys) : List.Forall₂ (fun x y => y ∈ ys ∧ R x y) xs ys :=
  ((List.forall₂_and_left ys _).mpr ⟨fun _ hy => hy, h.flip⟩).flip

/-- A backlog survives what its items do not look at. -/
theorem Backlog.congr {w w' : World} {f f' : Fifo} {sent rest : List Accepted}
    (h : Backlog w f sent rest) (hsim : Sim w'.queue f')
    (hput : f'.put.drop f'.dropped = f.put.drop f.dropped) (hwire : w'.wire = w.wire)
    (hevents : has w.events POLLOUT = true → has w'.events POLLOUT = true)
    (haddr : ∀ r ∈ rest, w'.addr r.to_ = w.addr r.to_)
    (hbuf : ∀ r ∈ rest, r.type_ ≠ .LOCAL →
      w'.queue.buf (.own r.buf) = w.queue.buf (.own r.buf)) :
    Backlog w' f' sent rest where
  sim := hsim
  wire_eq := hwire.trans h.wire_eq
  waits := by
    rw [hput]
    exact (forall₂_mem h.waits).imp fun it r hr => hr.2.congr (haddr r hr.1) (hbuf r hr.1)
  wants hne := hevents (h.wants hne)
  together := h.together

/-- A datagram is queued. -/
theorem Backlog.push {w : World} {f : Fifo} {sent rest : List Accepted}
    (h : Backlog w f sent rest) {m' : QueueMem} {it : Item} {r : Accepted}
    (hsim : Sim m' { f with put := f.put ++ [it] })
    (hkept : ∀ n, m'.buf (.own n) = w.queue.buf (.own n))
    (hwaits : Waits (w.wantOut.setQueue m') it r) (htog : ∀ a ∈ rest, Together a r) :
    Backlog (w.wantOut.setQueue m') { f with put := f.put ++ [it] } sent (rest ++ [r]) where
  sim := hsim
  wire_eq := h.wire_eq
  waits := by
    rw [List.drop_append_of_le_length h.sim.dropped_le]
    have hold : List.Forall₂ (Waits (w.wantOut.setQueue m')) (f.put.drop f.dropped) rest :=
      h.waits.imp fun _ _ hr => hr.congr rfl fun _ => hkept _
    exact List.rel_append hold (List.Forall₂.cons hwaits List.Forall₂.nil)
  wants _ := has_or _ _ (by decide)
  together := by
    have hcross : ∀ a ∈ rest, ∀ b ∈ [r], Together a b := fun a ha b hb =>
      List.mem_singleton.mp hb ▸ htog a ha
    exact List.pairwise_append.mpr ⟨h.together, List.pairwise_singleton _ _, hcross⟩

/-- The backlog of a client that has accepted nothing. -/
theorem inOrder_created (m : QueueMem) (recvd : Bool) (addr : Nat → IoSockAddr) :
    InOrder (World.created m recvd addr) [] :=
  ⟨_, [], [], rfl, sim_init m, rfl, List.Forall₂.nil, fun h => absurd rfl h, List.Pairwise.nil⟩

/-- The order does not depend on what the log says of other calls. -/
theorem InOrder.log {w : World} {l l' : Log} (h : InOrder w l)
    (hl : l'.flatMap accepted = l.flatMap accepted) : InOrder w l' := by
  obtain ⟨f, sent, rest, heq, hback⟩ := h
  exact ⟨f, sent, rest, hl.trans heq, hback⟩

section Rules

variable {K : DgramContract} {c : Call} {ps : List (Pending World Method Call)} {w : World}
  {l : Log}

/-! ## §4 One rule for each step -/

theorem wp_sendto {to_ size : Nat} {p : DataPtr} {dest : Unisa}
    {post : SysResult Unit → World → Log → Prop} (hdest : ioSockSetAddr (w.addr to_) = .ok dest)
    (hlen : size ≤ (w.queue.bytes p).length)
    (hok : K.ok ⟨ps, some c, w, l⟩
        (.answer (.sendto ⟨dest, (w.queue.bytes p).take size⟩) (.ok ())) →
      post (.ok ()) (w.took ⟨dest, (w.queue.bytes p).take size⟩) l)
    (herr : ∀ e, K.ok ⟨ps, some c, w, l⟩
        (.answer (.sendto ⟨dest, (w.queue.bytes p).take size⟩) (.err e)) → post (.err e) w l) :
    (sendto to_ p size).wp K c ps post w l := by
  unfold sendto destOf bytesAt
  simp only [wp_bind, wp_read, hdest, wp_pure, if_pos hlen]
  intro a ha
  cases a with
  | ok u => exact hok ha
  | err e => exact herr e ha

theorem wp_dropOutIfEmpty {post : Unit → World → Log → Prop}
    (hempty : ioQueueIsEmpty w.queue = true → post () w.dropOut l)
    (hmore : ioQueueIsEmpty w.queue = false → post () w l) :
    dropOutIfEmpty.wp K c ps post w l := by
  unfold dropOutIfEmpty
  simp only [wp_bind, wp_read]
  cases he : ioQueueIsEmpty w.queue with
  | true => exact hempty he
  | false => exact hmore he

theorem wp_recvPart {events : BitVec 32} {post : Int → World → Log → Prop} (hw : InOrder w l)
    (hK : ∀ ps w l, K.Inv ps w l ↔ InOrder w l)
    (hpost : ∀ v w l, InOrder w l → post v w l) : (recvPart events).wp K c ps post w l := by
  unfold recvPart
  simp only [wp_bind, wp_read]
  split
  · intro a _
    cases a with
    | err e => exact hpost (-1) w l hw
    | ok r =>
      obtain ⟨usa, bytes⟩ := r
      cases bytes with
      | nil => exact hpost 0 w l hw
      | cons b bytes =>
        have hcall (m : Method) : InOrder w (l ++ [.call m w]) := hw.log (by simp [accepted])
        exact ⟨(hK _ _ _).mpr (hcall _), fun _ w' l' hi _ => hpost 0 w' l' ((hK _ _ _).mp hi)⟩
  · exact hpost 0 w l hw

end Rules

/-! ## §5 A send -/

/-- What is put, when the buffer is long enough. -/
theorem itemOf_fits (own : Nat → Option (List UInt8)) (tag : Nat) {data size : Nat}
    (type_ : BlockType) (hlen : size ≤ ((own data).getD []).length) :
    ∃ it, itemOf own tag data size type_ = some it ∧ it.tag = tag ∧ it.type_ = type_ ∧
      it.size = size ∧ ((type_ ≠ .LOCAL ∧ it.payload = .pointer data) ∨
        (type_ = .LOCAL ∧ it.payload = .copy (((own data).getD []).take size))) := by
  cases type_ <;> simp [itemOf, hlen]

section Send

variable {ps : List (Pending World Method Call)} {w : World} {l : Log} {f : Fifo}
  {sent rest : List Accepted} {to_ buf size : Nat} {type_ : BlockType} {dg : Datagram}

/-- A send that returns has accepted its datagram. -/
theorem accepted_leave {w' : World} {v : Int} (hg : w.given to_ buf size = some dg)
    (hl : l.flatMap accepted = sent ++ rest) (hv : 0 ≤ v) (hsize : 0 < size) :
    (l ++ [Event.leave (Call.send to_ buf size type_) w w' v]).flatMap accepted =
      sent ++ rest ++ [⟨to_, buf, size, type_, dg⟩] := by
  simp [accepted, hg, hl, hv, hsize]

theorem order_enqueue (hback : Backlog w f sent rest) (hl : l.flatMap accepted = sent ++ rest)
    (hg : w.given to_ buf size = some dg) (hsize : 0 < size) (hsmall : size < 2 ^ 16)
    (htog : ∀ r ∈ rest, Together r ⟨to_, buf, size, type_, dg⟩) :
    (enqueue to_ buf size type_).wp orderContract (.send to_ buf size type_) ps
      (orderContract.Post (.send to_ buf size type_) w ps) w l := by
  obtain ⟨hdest, hlen, hbytes⟩ := given_eq_some.mp hg
  have hown : w.queue.bytes (.own buf) = (f.own buf).getD [] := hback.sim.bytes buf
  obtain ⟨it, hit, htag, htype, hisize, hpay⟩ :=
    itemOf_fits f.own to_ type_ (hown ▸ hlen)
  have hput := hback.sim.put to_ buf size type_
  rw [hit] at hput
  obtain ⟨m', hput, hsim⟩ := hput
  have hkept (n : Nat) : m'.buf (.own n) = w.queue.buf (.own n) :=
    (hsim.own n).trans (hback.sim.own n).symm
  have hret : 0 ≤ toInt size := by
    rw [toInt_of_lt (by omega) (by omega)]
    omega
  have hwaits : Waits (w.wantOut.setQueue m') it ⟨to_, buf, size, type_, dg⟩ := by
    refine ⟨htag, htype, hisize, hsmall, hsize, hdest, ?_⟩
    rcases hpay with ⟨ht, hpay⟩ | ⟨ht, hpay⟩
    · have heq : m'.bytes (.own buf) = w.queue.bytes (.own buf) := by
        simp [QueueMem.bytes, hkept]
      exact .inl ⟨ht, hpay, heq ▸ hlen, heq ▸ hbytes⟩
    · have hcopy : dg.bytes = ((f.own buf).getD []).take size := hown ▸ hbytes
      exact .inr ⟨ht, hcopy ▸ hpay, by simp [hbytes, hlen]⟩
  unfold enqueue
  simp only [wp_bind, wp_modify, wp_read]
  have hput' : ioQueuePutBlock w.wantOut.queue to_ (.own buf) size type_ = .ok (toInt size, m') :=
    hput
  simp only [hput', wp_bind, wp_modify, wp_pure]
  have hnext := hback.push hsim hkept hwaits htog
  exact ⟨_, sent, _, (accepted_leave hg hl hret hsize).trans (List.append_assoc ..), hnext⟩

/-- The kernel took the datagram at once, with nothing waiting. -/
theorem Backlog.sendNow (h : Backlog w f sent []) (r : Accepted) :
    Backlog (w.took r.dg) f (sent ++ [r]) [] where
  sim := h.sim
  wire_eq := by simp [World.took, h.wire_eq]
  waits := by
    have hnil := List.forall₂_nil_right_iff.mp h.waits
    simp [hnil]
  wants hne := absurd rfl hne
  together := List.Pairwise.nil

theorem Backlog.rest_nil (h : Backlog w f sent rest) (he : ioQueueIsEmpty w.queue = true) :
    rest = [] := by
  have hall := h.waits
  rw [sim_isEmpty h.sim he] at hall
  exact List.forall₂_nil_left_iff.mp hall

theorem order_send (hw : InOrder w l)
    (hassumed : Assumed ⟨ps, none, w, l⟩ (.enter (.send to_ buf size type_)))
    (hsmall : ioQueueIsEmpty w.queue = false → size < 2 ^ 16) :
    (ioDgramClientSend to_ buf size type_).wp orderContract (.send to_ buf size type_) ps
      (orderContract.Post (.send to_ buf size type_) w ps) w l := by
  obtain ⟨f, sent, rest, hl, hback⟩ := hw
  obtain ⟨dg, hg, htog⟩ := hassumed
  rw [hback.outstanding_eq hl] at htog
  unfold ioDgramClientSend
  by_cases hsize : size = 0
  · rw [if_pos hsize]
    have hw : InOrder w l := ⟨f, sent, rest, hl, hback⟩
    exact hw.log (by simp [accepted, hsize])
  · have hpos : 0 < size := Nat.pos_of_ne_zero hsize
    simp only [if_neg hsize, wp_bind, wp_read]
    cases he : ioQueueIsEmpty w.queue with
    | false => exact order_enqueue hback hl hg hpos (hsmall he) htog
    | true =>
      obtain ⟨hdest, hlen, hbytes⟩ := given_eq_some.mp hg
      obtain rfl := hback.rest_nil he
      simp only [if_true, wp_bind]
      apply wp_sendto hdest hlen
      · intro hok
        have hv : 0 ≤ toInt size := hok.2
        rw [← hbytes]
        have hnext := hback.sendNow ⟨to_, buf, size, type_, dg⟩
        exact ⟨f, _, [], (accepted_leave hg hl hv hpos).trans (by simp), hnext⟩
      · intro e hok
        by_cases hagain : e = .EAGAIN
        · subst hagain
          exact order_enqueue hback hl hg hpos hok.2 htog
        · simp only [if_pos hagain, wp_pure]
          have hw : InOrder w l := ⟨f, sent, [], hl, hback⟩
          exact hw.log (by simp [accepted])

end Send

/-! ## §6 An event -/

section Event

variable {ps : List (Pending World Method Call)} {w : World} {l : Log} {f : Fifo}
  {sent rest : List Accepted} {r : Accepted} {it : Item}

/-- The head of the queue is what its block says. -/
theorem Waits.block {b : IoQueueBlock} (h : Waits w it r) (hs : Shows w.queue b it) :
    b.tag = r.to_ ∧ b.size = r.size ∧ r.size ≤ (w.queue.bytes b.data).length ∧
      (w.queue.bytes b.data).take r.size = r.dg.bytes := by
  have hsize : b.size = r.size := by
    rw [hs.size_eq, h.size_eq, Nat.mod_eq_of_lt h.small]
  refine ⟨hs.tag_eq.trans h.tag_eq, hsize, ?_⟩
  rcases hs.data with ⟨ht, n, hpay, hdata⟩ | ⟨ht, bytes, n, hpay, hdata, -, hbuf⟩
  · rcases h.data with ⟨-, hpay', hlen, hbytes⟩ | ⟨ht', -, -⟩
    · obtain rfl : n = r.buf := by simpa using hpay.symm.trans hpay'
      rw [hdata]
      exact ⟨hlen, hbytes.symm⟩
    · exact absurd (h.type_eq.trans ht') ht
  · rcases h.data with ⟨ht', -, -, -⟩ | ⟨-, hpay', hlen⟩
    · exact absurd (h.type_eq.symm.trans ht) ht'
    · obtain rfl : bytes = r.dg.bytes := by simpa using hpay.symm.trans hpay'
      simp [QueueMem.bytes, hdata, hbuf, hlen]

/-- Letting go of the head item frees at most its own buffer. -/
theorem Waits.release (h : Waits w it r) (hown : ∀ n, w.queue.buf (.own n) = f.own n) :
    ∃ own, it.release f.own = some own ∧
      ∀ a, Together r a → a.type_ ≠ .LOCAL → own a.buf = f.own a.buf := by
  unfold Item.release
  rcases h.data with ⟨ht, hpay, hlen, hbytes⟩ | ⟨ht, hpay, hlen⟩
  · rw [hpay]
    by_cases hstatic : it.type_ = .STATIC
    · simp [hstatic]
    · have hlive : (f.own r.buf).isSome := by
        cases hnone : f.own r.buf with
        | some b => rfl
        | none =>
          have hpos := h.pos
          simp [QueueMem.bytes, hown, hnone] at hlen
          omega
      simp only [if_neg hstatic, if_pos hlive]
      refine ⟨_, rfl, fun a htog ha => ?_⟩
      have hne : a.buf ≠ r.buf := fun heq =>
        hstatic (h.type_eq.trans (htog ht ha heq.symm).1)
      exact Function.update_of_ne hne ..
  · rw [hpay]
    exact ⟨f.own, rfl, fun _ _ _ => rfl⟩

/-- The block at the head was sent and is dropped. -/
theorem Backlog.sendHead (h : Backlog w f sent (r :: rest)) :
    ∃ m' f', ioQueueBlockDrop w.queue = .ok (0, m') ∧
      Backlog ((w.took r.dg).setQueue m') f' (sent ++ [r]) rest := by
  cases hit : f.put[f.dropped]? with
  | none =>
    have hall := h.waits
    have hdrop : f.put.drop f.dropped = [] :=
      List.drop_eq_nil_of_le (List.getElem?_eq_none_iff.mp hit)
    rw [hdrop] at hall
    cases hall
  | some it =>
    have hall := h.waits
    rw [drop_eq_cons hit] at hall
    obtain ⟨hhead, hrest⟩ := List.forall₂_cons.mp hall
    obtain ⟨own, hrel, hown⟩ := hhead.release h.sim.own
    have hdrop := h.sim.drop hit
    rw [hrel] at hdrop
    obtain ⟨m', hdrop, hsim⟩ := hdrop
    obtain ⟨htog, hpair⟩ := List.pairwise_cons.mp h.together
    have hkept : ∀ a ∈ rest, a.type_ ≠ .LOCAL → m'.buf (.own a.buf) = w.queue.buf (.own a.buf) := by
      intro a ha ht
      rw [hsim.own, h.sim.own]
      exact hown a (htog a ha) ht
    refine ⟨m', _, hdrop, hsim, by simp [World.setQueue, World.took, h.wire_eq], ?_, ?_, hpair⟩
    · exact (forall₂_mem hrest).imp fun _ a ha => ha.2.congr rfl (hkept a ha.1)
    · exact fun _ => h.wants (by simp)

/-- Where an event handler may stop. -/
theorem order_post {entry : World} {events : BitVec 32} (v : Int) (hw : InOrder w l) :
    orderContract.Post (.event events) entry ps v w l :=
  hw.log (by simp [accepted])

theorem order_recvPart {entry : World} {events revents : BitVec 32} (hw : InOrder w l) :
    (recvPart events).wp orderContract (.event revents) ps
      (orderContract.Post (.event revents) entry ps) w l :=
  wp_recvPart hw (fun _ _ _ => Iff.rfl) fun v _ _ hw' => order_post v hw'

/-- With nothing waiting `POLLOUT` may be cleared. -/
theorem order_dropOutIfEmpty {post : Unit → World → Log → Prop} {c : Call} (hw : InOrder w l)
    (hpost : ∀ w, InOrder w l → post () w l) :
    dropOutIfEmpty.wp orderContract c ps post w l := by
  apply wp_dropOutIfEmpty
  · intro he
    obtain ⟨f, sent, rest, hl, hback⟩ := hw
    obtain rfl := hback.rest_nil he
    have hnone : Backlog w.dropOut f sent [] :=
      ⟨hback.sim, hback.wire_eq, hback.waits.imp fun _ _ h => h.congr rfl fun _ => rfl,
        fun hne => absurd rfl hne, List.Pairwise.nil⟩
    exact hpost _ ⟨f, sent, [], hl, hnone⟩
  · exact fun _ => hpost w hw

theorem order_sendPart {events : BitVec 32} {post : Bool → World → Log → Prop} (hw : InOrder w l)
    (hpost : ∀ b w, InOrder w l → post b w l) :
    sendPart.wp orderContract (.event events) ps post w l := by
  obtain ⟨f, sent, rest, hl, hback⟩ := id hw
  obtain ⟨b, hget, hrel⟩ := hback.sim.queueIs.get
  unfold sendPart getBlock
  simp only [wp_bind, wp_read, hget, wp_pure]
  cases hit : f.put[f.dropped]? with
  | none =>
    rw [hit] at hrel
    cases hrel
    simp only [wp_bind]
    exact order_dropOutIfEmpty hw fun w => hpost true w
  | some it =>
    rw [hit] at hrel
    cases hrel with
    | some hshow =>
      have hall := hback.waits
      rw [drop_eq_cons hit] at hall
      cases hall with
      | @cons _ r _ rest hhead hrest =>
        obtain ⟨htag, hsize, hlen, hbytes⟩ := hhead.block hshow
        simp only [htag, hsize, wp_bind]
        apply wp_sendto hhead.dest hlen
        · intro _
          obtain ⟨m', f', hdrop, hback'⟩ := hback.sendHead
          rw [hbytes]
          have hnext : InOrder ((w.took r.dg).setQueue m') l :=
            ⟨f', _, rest, hl.trans (by simp), hback'⟩
          have hdrop' : ioQueueBlockDrop (w.took r.dg).queue = .ok (0, m') := hdrop
          unfold dropBlock
          simp only [wp_bind, wp_read, hdrop', wp_modify]
          exact order_dropOutIfEmpty hnext fun w => hpost true w
        · intro e _
          by_cases hagain : e = .EAGAIN
          · simp only [hagain, ne_eq, not_true_eq_false, if_false, wp_bind]
            exact order_dropOutIfEmpty hw fun w => hpost true w
          · simp only [if_pos hagain, wp_pure]
            exact hpost false w hw

theorem order_event {events : BitVec 32} (hw : InOrder w l) :
    (ioDgramClientEventHandler events).wp orderContract (.event events) ps
      (orderContract.Post (.event events) w ps) w l := by
  unfold ioDgramClientEventHandler
  split
  · rw [wp_bind]
    refine order_sendPart hw fun b w' hw' => ?_
    cases b with
    | true => exact order_recvPart hw'
    | false => exact order_post (-1) hw'
  · exact order_recvPart hw

end Event

/-! ## §7 Every run -/

/-- The program changes a buffer that nothing waiting uses in place. -/
theorem InOrder.setOwn {w : World} {l : Log} (h : InOrder w l) {n : Nat}
    (content : Option (List UInt8))
    (hfree : ∀ r ∈ outstanding w l, r.type_ ≠ .LOCAL → r.buf ≠ n) :
    InOrder (w.setOwn n content) l := by
  obtain ⟨f, sent, rest, hl, hback⟩ := h
  rw [hback.outstanding_eq hl] at hfree
  have hkept : ∀ r ∈ rest, r.type_ ≠ .LOCAL →
      (w.setOwn n content).queue.buf (.own r.buf) = w.queue.buf (.own r.buf) := by
    intro r hr ht
    have hne : r.buf ≠ n := hfree r hr ht
    simp [World.setOwn, World.setQueue, hne]
  have hsim := hback.sim.setOwn n content
  exact ⟨_, sent, rest, hl, hback.congr hsim rfl rfl id (fun _ _ => rfl) hkept⟩

/-- The program changes an address that nothing waiting goes to. -/
theorem InOrder.setAddr {w : World} {l : Log} (h : InOrder w l) {p : Nat} (sa : IoSockAddr)
    (hfree : ∀ r ∈ outstanding w l, r.to_ ≠ p) : InOrder (w.setAddr p sa) l := by
  obtain ⟨f, sent, rest, hl, hback⟩ := h
  rw [hback.outstanding_eq hl] at hfree
  have hkept : ∀ r ∈ rest, (w.setAddr p sa).addr r.to_ = w.addr r.to_ := by
    intro r hr
    simp [World.setAddr, hfree r hr]
  exact ⟨f, sent, rest, hl, hback.congr hback.sim rfl rfl id hkept fun _ _ _ => rfl⟩

theorem order_body : orderContract.Body body := by
  intro ps c w l hinv hok
  obtain ⟨hassumed, hsmall⟩ := hok
  cases c with
  | send to_ buf size type_ => cases type_ <;> exact order_send hinv hassumed hsmall
  | event events => exact order_event hinv
  | own n content => exact (hinv.setOwn content hassumed).log (by simp [accepted])
  | setAddr p sa => exact (hinv.setAddr sa hassumed).log (by simp [accepted])

/-- **Nothing is lost, doubled, moved or cut.** In a run that queues no
datagram of 2^16 bytes or more and takes none at once whose size is
negative as an `int`, no call goes wrong, and whenever the program is in
control what the kernel has taken is a prefix of what was accepted; while
something is left `POLLOUT` is set. -/
theorem dgrams_inOrder (m : QueueMem) (recvd : Bool) (addr : Nat → IoSockAddr)
    (choices : List (Choice Query Answer Call))
    (hm : Meets body (fun v ch => Assumed v ch ∧ Small v ch)
      (.start (.created m recvd addr)) choices)
    (cfg : Config World Query Answer Method Fault Call)
    (hrun : run body (.start (.created m recvd addr)) choices = some cfg) :
    (∀ f, cfg.ctl ≠ .faulted f) ∧
      (cfg.ctl = .owner →
        cfg.st.wire <+: (cfg.log.flatMap accepted).map (·.dg) ∧
        (cfg.st.wire.length < (cfg.log.flatMap accepted).length →
          has cfg.st.events POLLOUT = true)) := by
  have h0 : orderContract.Inv [] (World.created m recvd addr) [] := inOrder_created m recvd addr
  refine ⟨fun f hf => run_fault orderContract order_body h0 hm hrun hf, fun hctl => ?_⟩
  obtain ⟨f, sent, rest, hl, hback⟩ := run_inv orderContract order_body h0 hm hrun hctl
  rw [hl, hback.wire_eq]
  refine ⟨⟨rest.map (·.dg), by simp⟩, fun hlt => hback.wants ?_⟩
  rintro rfl
  simp at hlt

/-- A program with two buffers. -/
def twoBuffers (a b : List UInt8) : QueueMem where
  q := ⟨none, none⟩
  seg _ := none
  next _ := none
  freshSeg := 0
  buf p := if p = .own 0 then some a else if p = .own 1 then some b else none
  freshCopy := 0

def loopback (_ : Nat) : IoSockAddr := ⟨80, .AF_INET, .ipv4 0x7F000001⟩

/-- Two datagrams are queued, the second as a copy whose original is freed;
then the first is sent. -/
def queuedThenSent : List (Choice Query Answer Call) :=
  [.enter (.send 0 0 2 .STATIC),
    .answer (.sendto ⟨.in_ [0, 80] [127, 0, 0, 1], [1, 2]⟩) (.err .EAGAIN),
    .enter (.send 0 1 1 .LOCAL), .enter (.own 1 none), .enter (.event POLLOUT),
    .answer (.sendto ⟨.in_ [0, 80] [127, 0, 0, 1], [1, 2]⟩) (.ok ())]

theorem dgrams_inOrder_queuedThenSent :
    ∃ cfg, run body (.start (.created (twoBuffers [1, 2] [3]) false loopback)) queuedThenSent =
      some cfg ∧
      cfg.st.wire <+: (cfg.log.flatMap accepted).map (·.dg) ∧ has cfg.st.events POLLOUT = true := by
  have hm : Meets body (fun v ch => Assumed v ch ∧ Small v ch)
      (.start (.created (twoBuffers [1, 2] [3]) false loopback)) queuedThenSent :=
    meets_cons ⟨⟨_, rfl, fun _ hr => (List.not_mem_nil hr).elim⟩, fun _ => by decide⟩ rfl <|
      meets_cons ⟨trivial, (by decide : 2 < 2 ^ 16)⟩ rfl <|
      meets_cons ⟨⟨_, rfl, fun _ _ _ h => absurd rfl h⟩, fun _ => by decide⟩ rfl <|
      meets_cons ⟨by
        show ∀ r ∈ outstanding _ _, r.type_ ≠ .LOCAL → r.buf ≠ 1
        decide, trivial⟩ rfl <|
      meets_cons ⟨trivial, trivial⟩ rfl <| meets_cons ⟨trivial, trivial⟩ rfl meets_nil
  obtain ⟨-, h⟩ := dgrams_inOrder (twoBuffers [1, 2] [3]) false loopback queuedThenSent hm _ rfl
  obtain ⟨hleads, hwants⟩ := h rfl
  exact ⟨_, rfl, hleads, hwants (by decide)⟩

/-! ## §8 A datagram that is too long for a block -/

section TooLong

variable {w : World} {l : Log} {dest : Unisa} {bytes : List UInt8}

/-- A static datagram for which the kernel has no room. -/
theorem run_wait {m' : QueueMem} {to_ buf size : Nat} (hempty : ioQueueIsEmpty w.queue = true)
    (hdest : ioSockSetAddr (w.addr to_) = .ok dest) (hbytes : w.queue.bytes (.own buf) = bytes)
    (hlen : size ≤ bytes.length) (hpos : size ≠ 0)
    (hput : ioQueuePutBlock w.queue to_ (.own buf) size .STATIC = .ok (toInt size, m')) :
    run body ⟨w, .owner, [], l⟩
        [.enter (.send to_ buf size .STATIC),
          .answer (.sendto ⟨dest, bytes.take size⟩) (.err .EAGAIN)] =
      some ⟨w.wantOut.setQueue m', .owner, [],
        l ++ [.leave (.send to_ buf size .STATIC) w (w.wantOut.setQueue m') (toInt size)]⟩ := by
  simp [run, step_enter, step_answer, settle, Bind.bind, Pure.pure, Prog.bind, Prog.read,
    Prog.modify, Prog.query, body, ioDgramClientSendStatic, ioDgramClientSend, sendto, destOf,
    bytesAt, enqueue, World.wantOut, World.setQueue, hempty, hpos, hdest, hbytes, hlen, hput]

/-- The event that sends the first block, and the kernel takes it. -/
theorem run_sendHead {m' : QueueMem} {b : IoQueueBlock} (hrecvd : w.recvd = false)
    (hget : ioQueueGetBlock w.queue = .ok (some b))
    (hdest : ioSockSetAddr (w.addr b.tag) = .ok dest) (hbytes : w.queue.bytes b.data = bytes)
    (hlen : b.size ≤ bytes.length) (hdrop : ioQueueBlockDrop w.queue = .ok (0, m')) :
    ∃ w', run body ⟨w, .owner, [], l⟩
        [.enter (.event POLLOUT), .answer (.sendto ⟨dest, bytes.take b.size⟩) (.ok ())] =
      some ⟨w', .owner, [], l ++ [.leave (.event POLLOUT) w w' 0]⟩ ∧
      w'.wire = w.wire ++ [⟨dest, bytes.take b.size⟩] := by
  have hout : has POLLOUT POLLOUT = true := by decide
  cases hempty : ioQueueIsEmpty m' <;>
    simp [run, step_enter, step_answer, settle, Bind.bind, Pure.pure, Prog.bind, Prog.read,
      Prog.modify, Prog.query, body, ioDgramClientEventHandler, sendPart, getBlock, sendto, destOf,
      bytesAt, dropBlock, dropOutIfEmpty, recvPart, World.took, World.setQueue, World.dropOut, hout,
      hget, hdest, hbytes, hlen, hdrop, hempty, hrecvd]

/-- A static datagram that has to wait, and the event that sends it. -/
def waitThenSend (to_ buf size : Nat) (dest : Unisa) (bytes : List UInt8) :
    List (Choice Query Answer Call) :=
  [.enter (.send to_ buf size .STATIC), .answer (.sendto ⟨dest, bytes.take size⟩) (.err .EAGAIN)] ++
    [.enter (.event POLLOUT), .answer (.sendto ⟨dest, bytes.take (size % 2 ^ 16)⟩) (.ok ())]

/-- Whatever its size, the datagram goes out with that size in 16 bits. -/
theorem ioDgramClient_cut (m : QueueMem) (addr : Nat → IoSockAddr) (to_ buf size : Nat)
    (hdest : ioSockSetAddr (addr to_) = .ok dest) (hbuf : m.buf (.own buf) = some bytes)
    (hlen : size ≤ bytes.length) (hpos : 0 < size) (hv : 0 ≤ toInt size) :
    Meets body Assumed (.start (.created m false addr)) (waitThenSend to_ buf size dest bytes) ∧
    ∃ cfg, run body (.start (.created m false addr)) (waitThenSend to_ buf size dest bytes) =
        some cfg ∧ cfg.ctl = .owner ∧ cfg.st.wire = [⟨dest, bytes.take (size % 2 ^ 16)⟩] ∧
      (cfg.log.flatMap accepted).map (·.dg) = [⟨dest, bytes.take size⟩] := by
  have hbytes : (ioQueueInit m).bytes (.own buf) = bytes := by
    simp [QueueMem.bytes, ioQueueInit, hbuf]
  have hg : (World.created m false addr).given to_ buf size = some ⟨dest, bytes.take size⟩ :=
    given_eq_some.mpr ⟨hdest, by simpa [World.created, hbytes] using hlen,
      by simp [World.created, hbytes]⟩
  refine ⟨⟨⟨_, hg, fun _ hr => (List.not_mem_nil hr).elim⟩, fun _ _ =>
    ⟨trivial, fun _ _ => ⟨trivial, fun _ _ => ⟨trivial, fun _ _ => trivial⟩⟩⟩⟩, ?_⟩
  have hstatic : BlockType.STATIC ≠ .LOCAL := by decide
  obtain ⟨m', hput, hholds, hbuf', -⟩ :=
    ioQueuePutBlock_pointer (holds_init m) to_ (.own buf) size hstatic
  have hget := ioQueueGetBlock_holds hholds
  obtain ⟨m'', hdrop, -, -, -⟩ := ioQueueBlockDrop_cons hholds rfl
  have hbytes' : m'.bytes (.own buf) = bytes := by
    rw [QueueMem.bytes, hbuf']
    exact hbytes
  have hwait := run_wait (w := .created m false addr) (l := []) rfl hdest hbytes hlen
    (Nat.pos_iff_ne_zero.mp hpos) hput
  obtain ⟨w', hsend, hwire⟩ := run_sendHead
    (w := (World.created m false addr).wantOut.setQueue m')
    (l := [] ++ [.leave (.send to_ buf size .STATIC) (.created m false addr)
      ((World.created m false addr).wantOut.setQueue m') (toInt size)])
    rfl hget hdest hbytes' ((Nat.mod_le ..).trans hlen) hdrop
  refine ⟨⟨w', .owner, [], [.leave (.send to_ buf size .STATIC) (.created m false addr)
      ((World.created m false addr).wantOut.setQueue m') (toInt size),
    .leave (.event POLLOUT) ((World.created m false addr).wantOut.setQueue m') w' 0]⟩,
    ?_, rfl, hwire, ?_⟩
  · unfold waitThenSend
    rw [run_append, Config.start, hwait]
    exact hsend
  · simp [accepted, hg, hpos, hv]

theorem cut_differs {size : Nat} (hlen : size ≤ bytes.length) (hbig : 2 ^ 16 ≤ size) :
    ¬ [Datagram.mk dest (bytes.take (size % 2 ^ 16))] <+: [Datagram.mk dest (bytes.take size)] := by
  intro hp
  have heq := hp.eq_of_length rfl
  have hbytes : bytes.take (size % 2 ^ 16) = bytes.take size := by simpa using heq
  have hlength := congrArg List.length hbytes
  simp only [List.length_take] at hlength
  omega

end TooLong

/-- A datagram of 65537 bytes goes out as one of a single byte. -/
theorem dgrams_inOrder_cut :
    ∃ cfg,
      Meets body Assumed (.start (.created (twoBuffers (List.replicate 65537 0) []) false loopback))
        (waitThenSend 0 0 65537 (.in_ [0, 80] [127, 0, 0, 1]) (List.replicate 65537 0)) ∧
      run body (.start (.created (twoBuffers (List.replicate 65537 0) []) false loopback))
          (waitThenSend 0 0 65537 (.in_ [0, 80] [127, 0, 0, 1]) (List.replicate 65537 0)) =
        some cfg ∧
      cfg.ctl = .owner ∧ ¬ cfg.st.wire <+: (cfg.log.flatMap accepted).map (·.dg) := by
  obtain ⟨hm, cfg, hrun, hctl, hwire, hacc⟩ :=
    ioDgramClient_cut (twoBuffers (List.replicate 65537 0) []) loopback 0 0 65537
       rfl rfl (Nat.le_of_eq List.length_replicate.symm) (by decide) (by decide)
  refine ⟨cfg, hm, hrun, hctl, ?_⟩
  rw [hwire, hacc]
  exact cut_differs (Nat.le_of_eq List.length_replicate.symm) (by decide)

end Nanio.Dgram
