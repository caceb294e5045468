/-
Nanio.Stream.StreamRules — what each function of `io_stream.c` has to meet,
for any contract.

One rule a function: under which conditions its code meets a postcondition,
branch by branch. The claims about runs pick a contract and go through the
rules; none of them unfolds the code again.
-/
import Nanio.Stream.IoStream
import Nanio.Buf.IoBufTheorems
import Mathlib.Data.BitVec

namespace Nanio.Stream

open Nanio.Lib Nanio.Buf

/-! ## §1 Flags and fields -/

theorem has_or (e f : BitVec 32) (hf : f ≠ 0) : has (e ||| f) f = true := by
  have h : (e ||| f) &&& f = f := by
    ext i
    simp only [BitVec.getElem_and, BitVec.getElem_or]
    cases e[i] <;> cases f[i] <;> rfl
  simpa [has, h] using hf

theorem has_andNot (e f : BitVec 32) : has (e &&& ~~~f) f = false := by
  have h : (e &&& ~~~f) &&& f = 0 := by
    ext i
    simp
  simp [has, h]

/-- `POLLOUT` is among the events the stream asks for. -/
def World.wants (w : World) : Bool := has w.s.events POLLOUT

@[simp] theorem wants_wantOut (w : World) : w.wantOut.wants = true := has_or _ _ (by decide)
@[simp] theorem wants_dropOut (w : World) : w.dropOut.wants = false := has_andNot _ _

@[simp] theorem wantOut_out (w : World) : w.wantOut.s.out = w.s.out := rfl
@[simp] theorem wantOut_fd (w : World) : w.wantOut.s.fd = w.s.fd := rfl
@[simp] theorem wantOut_connecting (w : World) : w.wantOut.s.connecting = w.s.connecting := rfl
@[simp] theorem wantOut_vmt (w : World) : w.wantOut.s.vmt = w.s.vmt := rfl
@[simp] theorem wantOut_wire (w : World) : w.wantOut.wire = w.wire := rfl

@[simp] theorem dropOut_out (w : World) : w.dropOut.s.out = w.s.out := rfl
@[simp] theorem dropOut_fd (w : World) : w.dropOut.s.fd = w.s.fd := rfl
@[simp] theorem dropOut_connecting (w : World) : w.dropOut.s.connecting = w.s.connecting := rfl
@[simp] theorem dropOut_vmt (w : World) : w.dropOut.s.vmt = w.s.vmt := rfl
@[simp] theorem dropOut_wire (w : World) : w.dropOut.wire = w.wire := rfl

@[simp] theorem setOut_out (w : World) (out : BufMem) : (w.setOut out).s.out = out := rfl
@[simp] theorem setOut_fd (w : World) (out : BufMem) : (w.setOut out).s.fd = w.s.fd := rfl
@[simp] theorem setOut_wants (w : World) (out : BufMem) : (w.setOut out).wants = w.wants := rfl
@[simp] theorem setOut_vmt (w : World) (out : BufMem) : (w.setOut out).s.vmt = w.s.vmt := rfl
@[simp] theorem setOut_wire (w : World) (out : BufMem) : (w.setOut out).wire = w.wire := rfl
@[simp] theorem setOut_connecting (w : World) (out : BufMem) :
    (w.setOut out).s.connecting = w.s.connecting := rfl

@[simp] theorem taken_s (w : World) (bytes : List UInt8) : (w.taken bytes).s = w.s := rfl
@[simp] theorem taken_wants (w : World) (bytes : List UInt8) :
    (w.taken bytes).wants = w.wants := rfl
@[simp] theorem taken_wire (w : World) (bytes : List UInt8) :
    (w.taken bytes).wire = w.wire ++ bytes := rfl

@[simp] theorem setConnected_out (w : World) : w.setConnected.s.out = w.s.out := rfl
@[simp] theorem setConnected_fd (w : World) : w.setConnected.s.fd = w.s.fd := rfl
@[simp] theorem setConnected_wants (w : World) : w.setConnected.wants = w.wants := rfl
@[simp] theorem setConnected_vmt (w : World) : w.setConnected.s.vmt = w.s.vmt := rfl
@[simp] theorem setConnected_wire (w : World) : w.setConnected.wire = w.wire := rfl
@[simp] theorem setConnected_connecting (w : World) : w.setConnected.s.connecting = false := rfl

section Peer

variable (w : World) (sa : IoSockAddr)

@[simp] theorem setPeer_out :
    (w.setPeer sa).s.out = w.s.out := by unfold World.setPeer; split <;> rfl
@[simp] theorem setPeer_fd : (w.setPeer sa).s.fd = w.s.fd := by unfold World.setPeer; split <;> rfl
@[simp] theorem setPeer_wants : (w.setPeer sa).wants = w.wants := by
  unfold World.setPeer; split <;> rfl
@[simp] theorem setPeer_vmt :
    (w.setPeer sa).s.vmt = w.s.vmt := by unfold World.setPeer; split <;> rfl
@[simp] theorem setPeer_wire :
    (w.setPeer sa).wire = w.wire := by unfold World.setPeer; split <;> rfl
@[simp] theorem setPeer_connecting : (w.setPeer sa).s.connecting = w.s.connecting := by
  unfold World.setPeer; split <;> rfl

end Peer

@[simp] theorem close_out (w : World) : w.close.s.out = w.s.out := by
  unfold World.close; split <;> rfl
@[simp] theorem close_vmt (w : World) : w.close.s.vmt = w.s.vmt := by
  unfold World.close; split <;> rfl
@[simp] theorem close_wire (w : World) : w.close.wire = w.wire := by
  unfold World.close; split <;> rfl
@[simp] theorem close_wants (w : World) : w.close.wants = w.wants := by
  unfold World.close; split <;> rfl
@[simp] theorem close_connecting (w : World) : w.close.s.connecting = w.s.connecting := by
  unfold World.close; split <;> rfl

/-- Closing closes, and an `fd` that is not one is left alone. -/
theorem close_fd (w : World) : w.close.s.fd = if 0 ≤ w.s.fd then -1 else w.s.fd := by
  unfold World.close; split <;> rfl

/-- A stream that is open after a close was open before it. -/
theorem open_of_close {w : World} (h : w.close.s.fd ≠ -1) : w.s.fd ≠ -1 := by
  rw [close_fd] at h
  split at h <;> omega

/-- An empty buffer holds nothing. -/
theorem holds_isEmpty {m : BufMem} {content : List UInt8} (h : Holds m content)
    (he : ioBufIsEmpty m = true) : content = [] := by
  obtain ⟨segs, hr, rfl⟩ := h
  have hfirst : m.b.first = none := by simpa [ioBufIsEmpty] using he
  cases segs with
  | nil => rfl
  | cons x segs =>
    have hsome : m.b.first = some x.1 := hr.chain.1
    rw [hfirst] at hsome
    cases hsome

/-- A drain of less than 2^31 bytes reports their number, or an error that
is one of the answers. -/
theorem sendsTo_ret {content : List UInt8} {script : List (SysResult Nat)} {t : Transfer Nat}
    (h : SendsTo content [] script t) (hs : t.script = []) (hlen : accepted script < 2 ^ 31) :
    t.bytes.length = accepted script ∧
      ((t.errno = none ∧ t.ret = accepted script) ∨
        ∃ e, t.errno = some e ∧ t.ret = -1 ∧ e ≠ .EINTR ∧ .err e ∈ script) := by
  obtain ⟨⟨used, hscript, hle, hb, -, hend⟩, hret⟩ := h
  rw [hs, List.append_nil] at hscript
  have hbytes : t.bytes.length = accepted script := by
    rw [hb, List.nil_append, List.length_take, Nat.min_eq_left hle, hscript]
  refine ⟨hbytes, ?_⟩
  cases he : t.errno with
  | none =>
    left
    rw [he] at hret
    simp only [hbytes] at hret
    rw [toInt_of_lt (by omega) (by omega)] at hret
    exact ⟨rfl, hret⟩
  | some e =>
    right
    rw [he] at hret hend
    obtain ⟨hne, u, hu, -⟩ := hend
    exact ⟨e, rfl, hret, hne, by rw [hscript, hu]; simp⟩

/-- Where an event of a record that has grown by one can be. -/
theorem snoc_split {α : Type} {l l₁ l₂ : List α} {a b : α} (h : l ++ [a] = l₁ ++ b :: l₂) :
    (l₁ = l ∧ b = a) ∨ ∃ l₃, l = l₁ ++ b :: l₃ := by
  rcases List.eq_nil_or_concat l₂ with rfl | ⟨l₃, c, rfl⟩
  · obtain ⟨e₁, e₂⟩ := List.append_inj' h rfl
    exact .inl ⟨e₁.symm, by simpa using e₂.symm⟩
  · rw [List.concat_eq_append, ← List.cons_append, ← List.append_assoc] at h
    exact .inr ⟨l₃, (List.append_inj' h rfl).1⟩

/-! ## §2 Methods -/

abbrev StreamContract := Contract World Query Answer Method Fault Call
abbrev Log := List (Event World Method Call)

section Rules

variable (K : StreamContract) (ps : List (Pending World Method Call))

/-- A method is called if it is there; `next` is what has to hold when the
code goes on. -/
def CallsIf (present : Bool) (m : Method) (next : World → Log → Prop) (w : World)
    (l : Log) : Prop :=
  (present = true →
    K.Inv (⟨m, w, l ++ [.call m w]⟩ :: ps) w (l ++ [.call m w]) ∧
    ∀ r w' l', K.Inv (⟨m, w, l ++ [.call m w]⟩ :: ps) w' l' →
      K.ok ⟨⟨m, w, l ++ [.call m w]⟩ :: ps, none, w', l'⟩ (.back r) → next w' l') ∧
  (present = false → next w l)

variable {K ps} {c : Call} {post : Int → World → Log → Prop} {w : World} {l : Log}

theorem wp_callIf {present : StreamVmt → Bool} {m : Method} {post : Unit → World → Log → Prop}
    (h : CallsIf K ps (present w.s.vmt) m (post ()) w l) :
    (callIf present m).wp K c ps post w l := by
  unfold callIf
  rw [wp_bind, wp_read]
  cases hp : present w.s.vmt with
  | false => exact h.2 hp
  | true => exact h.1 hp

theorem wp_send {data : List UInt8} {post : SysResult Nat → World → Log → Prop} :
    (send data).wp K c ps post w l ↔
      ∀ a, K.ok ⟨ps, some c, w, l⟩ (.answer (.send data) a) → post a w l := Iff.rfl

theorem wp_drain {post : List (SysResult Nat) → World → Log → Prop} :
    drain.wp K c ps post w l ↔
      ∀ a, K.ok ⟨ps, some c, w, l⟩ (.answer .drain a) → post a w l := Iff.rfl

theorem wp_socket {post : SysResult Nat → World → Log → Prop} :
    socket.wp K c ps post w l ↔
      ∀ a, K.ok ⟨ps, some c, w, l⟩ (.answer .socket a) → post a w l := Iff.rfl

theorem wp_connect {post : SysResult Unit → World → Log → Prop} :
    connect.wp K c ps post w l ↔
      ∀ a, K.ok ⟨ps, some c, w, l⟩ (.answer .connect a) → post a w l := Iff.rfl

theorem wp_getsockopt {post : SysResult Int → World → Log → Prop} :
    getsockopt.wp K c ps post w l ↔
      ∀ a, K.ok ⟨ps, some c, w, l⟩ (.answer .soError a) → post a w l := Iff.rfl

theorem wp_getpeername {post : SysResult IoSockAddr → World → Log → Prop} :
    getpeername.wp K c ps post w l ↔
      ∀ a, K.ok ⟨ps, some c, w, l⟩ (.answer .peerName a) → post a w l := Iff.rfl

/-! ## §3 Writing -/

theorem wp_writeRest {content dt : List UInt8} {sent : Nat} (hh : Holds w.s.out content)
    (hdone : dt = [] → CallsIf K ps w.s.vmt.allSent (.allSent (.write 0)) (post 0) w.dropOut l)
    (hmore : ∀ out, dt ≠ [] → Holds out (content ++ dt) →
      post (toInt (dt.length + sent)) (w.wantOut.setOut out) l) :
    (writeRest dt sent).wp K c ps post w l := by
  unfold writeRest
  by_cases hdt : dt = []
  · subst hdt
    rw [if_pos List.length_nil, wp_bind, wp_modify, wp_bind]
    exact wp_callIf (hdone rfl)
  · rw [if_neg (fun e => hdt (List.length_eq_zero_iff.mp e)), wp_bind, wp_modify, wp_bind, wp_read]
    obtain ⟨out, hw, hout⟩ := ioBufWrite_ok hh dt
    simp only [wantOut_out, hw]
    exact hmore out hdt hout

theorem wp_ioStreamWrite {content data : List UInt8} (hh : Holds w.s.out content)
    (hf : K.mayFault .noAnswer) (hclosed : w.s.fd = -1 → post 0 w l)
    (herr : w.s.fd ≠ -1 → post (-1) w l)
    (hdirect : ∀ n, w.s.fd ≠ -1 → w.s.connecting = false → content = [] → n ≤ data.length →
      K.ok ⟨ps, some c, w, l⟩ (.answer (.send data) (.ok n)) →
      CallsIf K ps (n ≠ 0 && w.s.vmt.sent) (.sent (toUnsigned n) (.write (data.length - n)))
        ((writeRest (data.drop n) n).wp K c ps post) (w.taken (data.take n)) l)
    (hqueue : w.s.fd ≠ -1 → (w.s.connecting = true ∨ ioBufIsEmpty w.s.out = false) →
      (writeRest data 0).wp K c ps post w l) :
    (ioStreamWrite data).wp K c ps post w l := by
  unfold ioStreamWrite
  rw [wp_bind, wp_read]
  by_cases hfd : w.s.fd = -1
  · rw [if_pos hfd]
    exact hclosed hfd
  rw [if_neg hfd]
  by_cases hd : (!w.s.connecting && ioBufIsEmpty w.s.out) = true
  · rw [if_pos hd, wp_bind, wp_send]
    simp only [Bool.and_eq_true, Bool.not_eq_true'] at hd
    intro a ha
    cases a with
    | err e => exact herr hfd
    | ok n =>
      by_cases hn : data.length < n
      · simp only [if_pos hn, wp_fault]
        exact hf
      · have hcall := hdirect n hfd hd.1 (holds_isEmpty hh hd.2) (by omega) ha
        simp only [if_neg hn]
        rw [wp_bind, wp_modify]
        by_cases hn0 : n = 0
        · subst hn0
          exact hcall.2 rfl
        · rw [if_pos hn0, wp_bind]
          apply wp_callIf
          simpa [hn0] using hcall
  · rw [if_neg hd]
    apply hqueue hfd
    cases hc : w.s.connecting with
    | true => exact .inl rfl
    | false => exact .inr (by simpa [hc] using hd)

/-! ## §4 Connecting -/

theorem wp_connectedRest (hempty : ioBufIsEmpty w.s.out = true → post 0 w.dropOut l)
    (hmore : ioBufIsEmpty w.s.out = false → post 0 w l) : connectedRest.wp K c ps post w l := by
  unfold connectedRest
  rw [wp_bind, wp_read]
  by_cases he : ioBufIsEmpty w.s.out = true
  · rw [if_pos he]
    exact hempty he
  · rw [if_neg he]
    exact hmore (by simpa using he)

theorem wp_ioStreamConnected (hfail : ∀ e, K.ok ⟨ps, some c, w, l⟩ (.answer .peerName (.err e)) →
      post 0 w l)
    (hok : ∀ sa, K.ok ⟨ps, some c, w, l⟩ (.answer .peerName (.ok sa)) →
      CallsIf K ps w.s.vmt.connected .connected (connectedRest.wp K c ps post) (w.setPeer sa) l) :
    ioStreamConnected.wp K c ps post w l := by
  unfold ioStreamConnected
  rw [wp_bind, wp_getpeername]
  intro a ha
  cases a with
  | err e => exact hfail e ha
  | ok sa =>
    rw [wp_bind, wp_modify, wp_bind]
    apply wp_callIf
    rw [setPeer_vmt]
    exact hok sa ha

theorem wp_ioStreamConnecting (hfail : post (-1) w.close l)
    (hok : K.ok ⟨ps, some c, w, l⟩ (.answer .soError (.ok 0)) →
      ioStreamConnected.wp K c ps post w.setConnected l) :
    ioStreamConnecting.wp K c ps post w l := by
  unfold ioStreamConnecting
  rw [wp_bind, wp_getsockopt]
  intro a ha
  cases a with
  | err e => exact hfail
  | ok err =>
    by_cases he : err = 0
    · subst he
      exact hok ha
    · simp only [ne_eq, he, not_false_eq_true, if_true]
      exact hfail

theorem wp_ioStreamConnect {sa : IoSockAddr} {vmt : Option StreamVmt} {errno : Errno}
    (hnull : post 0 w l)
    (hprogress : ∀ fd, 0 ≤ fd → post 1 (w.connect fd sa (vmt.getD ioStreamVmt) true) l)
    (hnow : ∀ fd, 0 ≤ fd → ioStreamConnected.wp K c ps (fun _ => post 1)
      (w.connect fd sa (vmt.getD ioStreamVmt) false) l) :
    (ioStreamConnect sa vmt errno).wp K c ps post w l := by
  have hgo : ∀ r : Int × Errno,
      (if r.1 < 0 then pure 0
        else ioStreamConnectWith r.1 sa (vmt.getD ioStreamVmt) (r.2 = .EINPROGRESS) :
          Code Int).wp K c ps post w l := by
    intro r
    by_cases hneg : r.1 < 0
    · rw [if_pos hneg]
      exact hnull
    rw [if_neg hneg]
    unfold ioStreamConnectWith
    rw [wp_bind, wp_modify]
    by_cases he : r.2 = .EINPROGRESS
    · simp only [he, decide_true, if_true, wp_pure]
      exact hprogress r.1 (by omega)
    · simp only [he, decide_false, Bool.false_eq_true, if_false]
      rw [wp_bind]
      exact hnow r.1 (by omega)
  unfold ioStreamConnect ioStreamConnectFd
  rw [wp_bind, wp_bind, wp_socket]
  intro sd _
  rw [wp_bind, wp_connect]
  intro r _
  by_cases hr : r ≠ .ok () ∧ errnoAfter errno r ≠ .EINPROGRESS
  · rw [if_pos hr]
    exact hgo _
  · rw [if_neg hr]
    exact hgo _

/-! ## §5 Events -/

theorem wp_recvPart {events : BitVec 32}
    (hcall : (has events POLLIN && w.s.vmt.recv) = true →
      K.Inv (⟨.recv, w, l ++ [.call .recv w]⟩ :: ps) w (l ++ [.call .recv w]) ∧
      ∀ r w' l', K.Inv (⟨.recv, w, l ++ [.call .recv w]⟩ :: ps) w' l' →
        K.ok ⟨⟨.recv, w, l ++ [.call .recv w]⟩ :: ps, none, w', l'⟩ (.back r) →
        (r < 0 → post (-1) w'.close l') ∧ (0 ≤ r → post 0 w' l'))
    (hskip : (has events POLLIN && w.s.vmt.recv) = false → post 0 w l) :
    (recvPart events).wp K c ps post w l := by
  unfold recvPart
  rw [wp_bind, wp_read]
  by_cases hp : (has events POLLIN && w.s.vmt.recv) = true
  · rw [if_pos hp, wp_bind, wp_invoke]
    refine ⟨(hcall hp).1, fun r w' l' hi hb => ?_⟩
    have hn := (hcall hp).2 r w' l' hi hb
    by_cases hr : r < 0
    · rw [if_pos hr]
      exact hn.1 hr
    · rw [if_neg hr]
      exact hn.2 (by omega)
  · rw [if_neg hp]
    exact hskip (by simpa using hp)

theorem wp_drainedRest {events : BitVec 32}
    (hempty : ioBufIsEmpty w.s.out = true →
      CallsIf K ps w.s.vmt.allSent (.allSent (.drain events)) (post 0) w.dropOut l)
    (hmore : ioBufIsEmpty w.s.out = false → (recvPart events).wp K c ps post w l) :
    (drainedRest events).wp K c ps post w l := by
  unfold drainedRest
  rw [wp_bind, wp_read]
  by_cases he : ioBufIsEmpty w.s.out = true
  · rw [if_pos he, wp_bind, wp_modify, wp_bind]
    exact wp_callIf (hempty he)
  · rw [if_neg he]
    exact hmore (by simpa using he)

theorem wp_drained {events : BitVec 32} {sent : Int}
    (h : CallsIf K ps (sent ≠ 0 && w.s.vmt.sent) (.sent (toUnsigned sent) (.drain events))
      ((drainedRest events).wp K c ps post) w l) :
    (drained events sent).wp K c ps post w l := by
  unfold drained
  by_cases hs : sent = 0
  · subst hs
    exact h.2 rfl
  · rw [if_pos hs, wp_bind]
    apply wp_callIf
    simpa [hs] using h

theorem wp_ioStreamEventHandler {content : List UInt8} {events : BitVec 32} {errno : Errno}
    (hh : Holds w.s.out content) (hf : K.mayFault .noAnswer)
    (hconnecting : w.s.connecting = true → ioStreamConnecting.wp K c ps post w l)
    (hdrain : ∀ script t, w.s.connecting = false →
      K.ok ⟨ps, some c, w, l⟩ (.answer .drain script) → SendsTo content [] script t →
      t.script = [] →
      (t.ret < 0 → isReset (t.errno.getD errno) = true →
        (drained events t.ret).wp K c ps post ((w.taken t.bytes).setOut t.mem).close l) ∧
      (t.ret < 0 → isReset (t.errno.getD errno) = false →
        post (-1) ((w.taken t.bytes).setOut t.mem) l) ∧
      (0 ≤ t.ret → (drained events t.ret).wp K c ps post ((w.taken t.bytes).setOut t.mem) l))
    (hrecv : w.s.connecting = false → (recvPart events).wp K c ps post w l) :
    (ioStreamEventHandler events errno).wp K c ps post w l := by
  unfold ioStreamEventHandler
  rw [wp_bind, wp_read]
  cases hc : w.s.connecting with
  | true =>
    rw [if_pos rfl]
    exact hconnecting hc
  | false =>
    rw [if_neg (by simp)]
    by_cases hp : has events POLLOUT = true
    · rw [if_pos hp, wp_bind, wp_drain]
      intro script hok
      rcases ioBufSend_ok hh script with hno | ⟨t, ht, hs⟩
      · simp only [hno, wp_fault]
        exact hf
      · simp only [ht]
        by_cases hscript : t.script = []
        · simp only [hscript, ne_eq, not_true_eq_false, if_false]
          obtain ⟨hreset, hother, hnormal⟩ := hdrain script t hc hok hs hscript
          rw [wp_bind, wp_modify]
          by_cases hret : t.ret < 0
          · rw [if_pos hret]
            by_cases hr : isReset (t.errno.getD errno) = true
            · rw [if_pos hr, wp_bind, wp_modify]
              exact hreset hret hr
            · rw [if_neg hr]
              exact hother hret (by simpa using hr)
          · rw [if_neg hret]
            exact hnormal (by omega)
        · simp only [ne_eq, hscript, not_false_eq_true, if_true, wp_fault]
          exact hf
    · rw [if_neg hp]
      exact hrecv hc

end Rules

/-! ## §6 A stream at the start of a run -/

/-- A stream on `fd` with an initialised buffer, of which nothing was sent. -/
def World.opened (fd : Int) (vmt : StreamVmt) (connecting : Bool) : World where
  s :=
    { fd
      events := POLLIN ||| if connecting then POLLOUT else 0
      vmt
      sa := ⟨.inet, 0, []⟩
      out := ⟨⟨none, none⟩, ⟨fun _ => none, fun _ => none, 0⟩⟩
      connecting }
  wire := []

theorem opened_holds (fd : Int) (vmt : StreamVmt) (connecting : Bool) :
    Holds (World.opened fd vmt connecting).s.out [] :=
  ⟨[], segs_nil _, rfl⟩

/-- `io_buf_init` empties whatever there was. -/
theorem connect_holds (w : World) (fd : Int) (sa : IoSockAddr) (vmt : StreamVmt)
    (inProgress : Bool) : Holds (w.connect fd sa vmt inProgress).s.out [] :=
  ⟨[], segs_nil _, rfl⟩

end Nanio.Stream
