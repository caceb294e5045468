/-
Nanio.Stream.HandlerOrder — the order in which a stream calls its owner.

`connected` at most once, nothing before it, and nothing after the stream
is closed (`Protocol`). The record of a run is checked event by event:
`InOrder` says how far the record of a stream in a given state has come,
and each function keeps it, under `protocolOk`. What the condition leaves
out are the paths of the source that break the protocol; the one in the
event handler, which closes the stream when a drain fails with ECONNRESET,
ENOTCONN or EPIPE and then goes on as if it had sent -1 bytes, is run in
`drain_reset_calls`.
-/
import Nanio.Stream.StreamRules

namespace Nanio.Stream

open Nanio.Lib Nanio.Buf

/-! ## §1 The protocol -/

def isConnected : Event World Method Call → Bool
  | .call .connected _ => true
  | _ => false

/-- The order of the method calls of one stream. -/
structure Protocol (l : Log) : Prop where
  once : l.countP isConnected ≤ 1
  after : ∀ l₁ m w l₂, l = l₁ ++ .call m w :: l₂ → m ≠ .connected → w.s.vmt.connected = true →
    ∃ w', .call .connected w' ∈ l₁
  isOpen : ∀ m w, .call m w ∈ l → w.s.fd ≠ -1

/-- No method has been called. -/
def Silent (l : Log) : Prop := ∀ m w, .call m w ∉ l

theorem Silent.countP {l : Log} (h : Silent l) : l.countP isConnected = 0 := by
  rw [List.countP_eq_zero]
  intro e he hc
  cases e with
  | leave => simp [isConnected] at hc
  | call m w => exact h m w he

theorem Protocol.leave {l : Log} (h : Protocol l) (c : Call) (entry exit : World) (v : Int) :
    Protocol (l ++ [.leave c entry exit v]) where
  once := by simpa [isConnected] using h.once
  after l₁ m w l₂ he hm hv := by
    rcases snoc_split he with ⟨-, hc⟩ | ⟨l₃, hl⟩
    · cases hc
    · exact h.after l₁ m w l₃ hl hm hv
  isOpen m w hmem := by
    rcases List.mem_append.mp hmem with hmem | hmem
    · exact h.isOpen m w hmem
    · cases List.mem_singleton.mp hmem

theorem Protocol.call {l : Log} (h : Protocol l) {m : Method} {w : World} (hopen : w.s.fd ≠ -1)
    (hfirst : m = .connected → Silent l)
    (hlater : m ≠ .connected → w.s.vmt.connected = true → ∃ w', .call .connected w' ∈ l) :
    Protocol (l ++ [.call m w]) where
  once := by
    rw [List.countP_append]
    by_cases hm : m = .connected
    · rw [(hfirst hm).countP, hm]
      exact Nat.le_refl 1
    · have hno : isConnected (.call m w) = false := by
        cases m <;> simp_all [isConnected]
      simpa [hno] using h.once
  after l₁ m' w' l₂ he hm hv := by
    rcases snoc_split he with ⟨hl, hc⟩ | ⟨l₃, hl⟩
    · cases hc
      rw [hl]
      exact hlater hm hv
    · exact h.after l₁ m' w' l₃ hl hm hv
  isOpen m' w' hmem := by
    rcases List.mem_append.mp hmem with hmem | hmem
    · exact h.isOpen m' w' hmem
    · cases List.mem_singleton.mp hmem
      exact hopen

/-! ## §2 The contract -/

/-- The condition. A stream is connected once, at the start. A write of no
bytes finds it closed or connected, an event finds it open, and
`getpeername` does not fail. A drain sends less than 2^31 bytes and does
not fail with one of the three errors after which the handler closes the
stream. When `sent` returns into a call that will call another method, the
owner has not closed the stream. -/
def protocolOk (v : View World Method Call) : Choice Query Answer Call → Prop
  | .enter (.connect _ _ _) => v.log = []
  | .enter (.write data) => data = [] → v.st.s.fd = -1 ∨ v.st.s.connecting = false
  | .enter (.event _ _) => v.st.s.fd ≠ -1
  | .enter .close => True
  | .answer .peerName a => ∃ sa, a = .ok sa
  | .answer .drain script =>
    accepted script < 2 ^ 31 ∧ ∀ e, .err e ∈ script → isReset e = false
  | .answer _ _ => True
  | .back _ =>
    match v.returning with
    | some (.sent _ (.write 0)) => v.st.s.vmt.allSent = true → v.st.s.fd ≠ -1
    | some (.sent _ (.drain events)) =>
      v.st.s.fd ≠ -1 ∨
        (ioBufIsEmpty v.st.s.out = true → v.st.s.vmt.allSent = false) ∧
        (ioBufIsEmpty v.st.s.out = false → (has events POLLIN && v.st.s.vmt.recv) = false)
    | _ => True

/-- Where the record is, for a stream in this state: nothing was called
while it is connecting, `connected` was once it is not, and what was
recorded when a pending method was called is still there. -/
structure InOrder (ps : List (Pending World Method Call)) (w : World) (l : Log) : Prop where
  buf : ∃ content, Holds w.s.out content
  protocol : Protocol l
  early : w.s.connecting = true → Silent l
  late : w.s.fd ≠ -1 → w.s.connecting = false → w.s.vmt.connected = true →
    ∃ w', .call .connected w' ∈ l
  grows : ∀ p ∈ ps, ∀ e ∈ p.log, e ∈ l

def protocolContract : StreamContract where
  ok := protocolOk
  Inv := InOrder
  mayFault f := f = .noAnswer

section Calls

variable {c : Call} {ps : List (Pending World Method Call)} {post : Int → World → Log → Prop}
  {w w' : World} {l : Log}

/-- A change of the stream that the record says nothing about. -/
theorem InOrder.congr (h : InOrder ps w l) (hbuf : ∃ content, Holds w'.s.out content)
    (hc : w'.s.connecting = w.s.connecting) (hfd : w'.s.fd ≠ -1 → w.s.fd ≠ -1)
    (hv : w'.s.vmt = w.s.vmt) : InOrder ps w' l where
  buf := hbuf
  protocol := h.protocol
  early he := h.early (hc ▸ he)
  late ho he hcon := h.late (hfd ho) (hc ▸ he) (hv ▸ hcon)
  grows := h.grows

theorem InOrder.close (h : InOrder ps w l) : InOrder ps w.close l := by
  refine h.congr ?_ (close_connecting w) open_of_close (close_vmt w)
  rw [close_out]
  exact h.buf

theorem InOrder.dropOut (h : InOrder ps w l) : InOrder ps w.dropOut l :=
  h.congr h.buf rfl id rfl

theorem InOrder.leave (h : InOrder ps w l) (c : Call) (entry exit : World) (v : Int) :
    InOrder ps w (l ++ [.leave c entry exit v]) where
  buf := h.buf
  protocol := h.protocol.leave c entry exit v
  early he m w' hm := by
    rcases List.mem_append.mp hm with hm | hm
    · exact h.early he m w' hm
    · cases List.mem_singleton.mp hm
  late ho he hcon := (h.late ho he hcon).imp fun _ hm => List.mem_append_left _ hm
  grows p hp e he := List.mem_append_left _ (h.grows p hp e he)

/-- A method is called on the open, connected stream. What comes back is a
stream that is connected, perhaps closed. -/
theorem protocol_call {m : Method} (h : InOrder ps w l) (hm : m ≠ .connected) (hopen : w.s.fd ≠ -1)
    (hc : w.s.connecting = false) :
    InOrder (⟨m, w, l ++ [.call m w]⟩ :: ps) w (l ++ [.call m w]) ∧
      ∀ w' l', InOrder (⟨m, w, l ++ [.call m w]⟩ :: ps) w' l' →
        InOrder ps w' l' ∧ w'.s.connecting = false := by
  refine ⟨?_, ?_⟩
  · refine ⟨h.buf, ?_, fun he => ?_, fun ho he hcon => ?_, fun p hp e he => ?_⟩
    · exact h.protocol.call hopen (fun he => absurd he hm) fun _ hcon => h.late hopen hc hcon
    · rw [hc] at he
      cases he
    · exact (h.late ho he hcon).imp fun _ hmem => List.mem_append_left _ hmem
    · rcases List.mem_cons.mp hp with rfl | hp
      · exact he
      · exact List.mem_append_left _ (h.grows p hp e he)
  · intro w' l' h'
    refine ⟨⟨h'.buf, h'.protocol, h'.early, h'.late,
      fun p hp => h'.grows p (List.mem_cons_of_mem _ hp)⟩, ?_⟩
    -- the call itself is on record, so the stream cannot be connecting
    have hmem : .call m w ∈ l' := h'.grows _ List.mem_cons_self _ (by simp)
    cases hcon : w'.s.connecting with
    | false => rfl
    | true => exact absurd hmem (h'.early hcon m w)

theorem protocol_callsIf {present : Bool} {m : Method} {next : World → Log → Prop}
    (h : InOrder ps w l) (hm : m ≠ .connected) (hopen : present = true → w.s.fd ≠ -1)
    (hc : w.s.connecting = false)
    (hnext : ∀ r w' l', InOrder ps w' l' → w'.s.connecting = false →
      protocolOk ⟨⟨m, w, l ++ [.call m w]⟩ :: ps, none, w', l'⟩ (.back r) → next w' l')
    (hskip : present = false → next w l) : CallsIf protocolContract ps present m next w l := by
  refine ⟨fun hp => ?_, hskip⟩
  obtain ⟨hinv, hback⟩ := protocol_call h hm (hopen hp) hc
  refine ⟨hinv, fun r w' l' hi hb => ?_⟩
  obtain ⟨hi', hc'⟩ := hback w' l' hi
  exact hnext r w' l' hi' hc' hb

/-! ## §3 The calls -/

theorem protocol_writeRest {dt : List UInt8} {sent : Nat} (h : InOrder ps w l)
    (hdone : dt = [] → w.s.connecting = false ∧ (w.s.vmt.allSent = true → w.s.fd ≠ -1))
    (hpost : ∀ v w l, InOrder ps w l → post v w l) :
    (writeRest dt sent).wp protocolContract c ps post w l := by
  obtain ⟨content, hh⟩ := h.buf
  apply wp_writeRest hh
  · intro hdt
    obtain ⟨hc, hopen⟩ := hdone hdt
    exact protocol_callsIf h.dropOut (fun he => by cases he) hopen hc
      (fun _ w' l' hi _ _ => hpost 0 w' l' hi) fun _ => hpost 0 _ _ h.dropOut
  · intro out _ hout
    exact hpost _ _ _ (h.congr ⟨_, hout⟩ rfl id rfl)

theorem protocol_write {data : List UInt8} (h : InOrder ps w l)
    (hzero : data = [] → w.s.fd = -1 ∨ w.s.connecting = false)
    (hpost : ∀ v w l, InOrder ps w l → post v w l) :
    (ioStreamWrite data).wp protocolContract c ps post w l := by
  obtain ⟨content, hh⟩ := h.buf
  apply wp_ioStreamWrite hh rfl
  · exact fun _ => hpost _ _ _ h
  · exact fun _ => hpost _ _ _ h
  · intro n hopen hc _ _ _
    have hw : InOrder ps (w.taken (data.take n)) l := h.congr h.buf rfl id rfl
    refine protocol_callsIf hw (fun he => by cases he) (fun _ => hopen) hc ?_ ?_
    · intro r w' l' hi hc' hb
      refine protocol_writeRest hi (fun hdt => ⟨hc', ?_⟩) hpost
      have hleft : data.length - n = 0 := by
        have hlen := congrArg List.length hdt
        simpa using hlen
      rw [hleft] at hb
      exact hb
    · intro _
      exact protocol_writeRest hw (fun _ => ⟨hc, fun _ => hopen⟩) hpost
  · intro hopen _
    exact protocol_writeRest h (fun hdt => ⟨(hzero hdt).resolve_left hopen, fun _ => hopen⟩) hpost

/-- `connected` is the first method that is called. -/
theorem protocol_connected (hbuf : ∃ content, Holds w.s.out content) (hp : Protocol l)
    (hsilent : Silent l) (hopen : w.s.fd ≠ -1) (hc : w.s.connecting = false)
    (hgrows : ∀ p ∈ ps, ∀ e ∈ p.log, e ∈ l) (hpost : ∀ v w l, InOrder ps w l → post v w l) :
    ioStreamConnected.wp protocolContract c ps post w l := by
  have hrest : ∀ w l, InOrder ps w l → connectedRest.wp protocolContract c ps post w l := by
    intro w l h
    exact wp_connectedRest (fun _ => hpost _ _ _ h.dropOut) fun _ => hpost _ _ _ h
  apply wp_ioStreamConnected
  · intro e hok
    obtain ⟨sa, he⟩ := hok
    cases he
  · intro sa _
    have hbuf' : ∃ content, Holds (w.setPeer sa).s.out content := by simpa using hbuf
    refine ⟨fun _ => ⟨⟨hbuf', ?_, ?_, ?_, ?_⟩, fun r w' l' hi _ => ?_⟩, fun hno => ?_⟩
    · refine hp.call (by simpa using hopen) (fun _ => hsilent) fun hne => absurd rfl hne
    · intro he
      rw [setPeer_connecting, hc] at he
      cases he
    · exact fun _ _ _ => ⟨_, List.mem_append_right _ (List.mem_singleton_self _)⟩
    · intro p hp' e he
      rcases List.mem_cons.mp hp' with rfl | hp'
      · exact he
      · exact List.mem_append_left _ (hgrows p hp' e he)
    · exact hrest w' l' ⟨hi.buf, hi.protocol, hi.early, hi.late,
        fun p hp' => hi.grows p (List.mem_cons_of_mem _ hp')⟩
    · refine hrest _ l ⟨hbuf', hp, fun _ => hsilent, fun _ _ hcon => ?_, hgrows⟩
      rw [setPeer_vmt, hno] at hcon
      cases hcon

theorem protocol_connecting (h : InOrder ps w l) (hopen : w.s.fd ≠ -1)
    (hc : w.s.connecting = true) (hpost : ∀ v w l, InOrder ps w l → post v w l) :
    ioStreamConnecting.wp protocolContract c ps post w l := by
  apply wp_ioStreamConnecting
  · exact hpost _ _ _ h.close
  · intro _
    exact protocol_connected h.buf h.protocol (h.early hc) hopen rfl h.grows hpost

theorem protocol_recvPart {events : BitVec 32} (h : InOrder ps w l)
    (hopen : (has events POLLIN && w.s.vmt.recv) = true → w.s.fd ≠ -1)
    (hc : w.s.connecting = false) (hpost : ∀ v w l, InOrder ps w l → post v w l) :
    (recvPart events).wp protocolContract c ps post w l := by
  apply wp_recvPart
  · intro hp
    have hne : Method.recv ≠ .connected := by decide
    obtain ⟨hinv, hback⟩ := protocol_call h hne (hopen hp) hc
    refine ⟨hinv, fun r w' l' hi _ => ?_⟩
    obtain ⟨hi', -⟩ := hback w' l' hi
    exact ⟨fun _ => hpost _ _ _ hi'.close, fun _ => hpost _ _ _ hi'⟩
  · exact fun _ => hpost _ _ _ h

theorem protocol_drained {events : BitVec 32} {sent : Int} (h : InOrder ps w l)
    (hopen : w.s.fd ≠ -1) (hc : w.s.connecting = false)
    (hpost : ∀ v w l, InOrder ps w l → post v w l) :
    (drained events sent).wp protocolContract c ps post w l := by
  have hrest : ∀ w l, InOrder ps w l → w.s.connecting = false →
      (ioBufIsEmpty w.s.out = true → w.s.vmt.allSent = true → w.s.fd ≠ -1) →
      (ioBufIsEmpty w.s.out = false → (has events POLLIN && w.s.vmt.recv) = true → w.s.fd ≠ -1) →
      (drainedRest events).wp protocolContract c ps post w l := by
    intro w l h hc hempty hmore
    apply wp_drainedRest
    · intro he
      exact protocol_callsIf h.dropOut (fun he => by cases he) (hempty he) hc
        (fun _ w' l' hi _ _ => hpost 0 w' l' hi) fun _ => hpost 0 _ _ h.dropOut
    · intro he
      exact protocol_recvPart h (hmore he) hc hpost
  apply wp_drained
  refine protocol_callsIf h (fun he => by cases he) (fun _ => hopen) hc ?_ ?_
  · intro r w' l' hi hc' hb
    refine hrest w' l' hi hc' (fun he hp => ?_) fun he hp => ?_
    · rcases hb with ho | ⟨hno, -⟩
      · exact ho
      · rw [hno he] at hp
        cases hp
    · rcases hb with ho | ⟨-, hno⟩
      · exact ho
      · rw [hno he] at hp
        cases hp
  · intro _
    exact hrest w l h hc (fun _ _ => hopen) fun _ _ => hopen

theorem protocol_event {events : BitVec 32} {errno : Errno} (h : InOrder ps w l)
    (hopen : w.s.fd ≠ -1) (hpost : ∀ v w l, InOrder ps w l → post v w l) :
    (ioStreamEventHandler events errno).wp protocolContract c ps post w l := by
  obtain ⟨content, hh⟩ := h.buf
  apply wp_ioStreamEventHandler hh rfl
  · intro hc
    exact protocol_connecting h hopen hc hpost
  · intro script t hc hok ht hs
    obtain ⟨hlen, hreset⟩ := hok
    obtain ⟨used, -, -, -, hh', -⟩ := ht.moved
    have hd : InOrder ps ((w.taken t.bytes).setOut t.mem) l := h.congr ⟨_, hh'⟩ rfl id rfl
    refine ⟨fun hret hr => ?_, fun _ _ => hpost _ _ _ hd,
      fun _ => protocol_drained hd hopen hc hpost⟩
    -- a drain that fails does so with an error after which the handler returns
    rcases (sendsTo_ret ht hs hlen).2 with ⟨-, he⟩ | ⟨e, he, -, -, hmem⟩
    · omega
    · rw [he, Option.getD_some, hreset e hmem] at hr
      cases hr
  · intro hc
    exact protocol_recvPart h (fun _ => hopen) hc hpost

theorem protocol_connect {sa : IoSockAddr} {vmt : Option StreamVmt} {errno : Errno}
    (h : InOrder ps w []) (hpost : ∀ v w l, InOrder ps w l → post v w l) :
    (ioStreamConnect sa vmt errno).wp protocolContract c ps post w [] := by
  have hsilent : Silent [] := fun _ _ hm => by cases hm
  apply wp_ioStreamConnect
  · exact hpost _ _ _ h
  · intro fd _
    exact hpost _ _ _ ⟨⟨[], connect_holds w fd sa _ true⟩, h.protocol, fun _ => hsilent,
      fun _ hc => (by cases hc), h.grows⟩
  · intro fd hfd
    have hopen : (w.connect fd sa (vmt.getD ioStreamVmt) false).s.fd ≠ -1 := by
      show fd ≠ -1
      omega
    exact protocol_connected ⟨[], connect_holds w fd sa _ false⟩ h.protocol hsilent hopen rfl
      h.grows fun _ => hpost 1

end Calls

theorem protocol_body : protocolContract.Body body := by
  intro ps c w l hinv hok
  have hpost : ∀ v w' l', InOrder ps w' l' → protocolContract.Post c w ps v w' l' :=
    fun v w' l' h => h.leave c w w' v
  cases c with
  | connect sa vmt errno =>
    obtain rfl : l = [] := hok
    exact protocol_connect hinv hpost
  | write data => exact protocol_write hinv hok hpost
  | event events errno => exact protocol_event hinv hok hpost
  | close => exact hpost 0 w.close l (InOrder.close hinv)

/-! ## §4 Every run -/

/-- **The owner is called in order**, in every run from a stream that was not
connected yet, whose steps meet the condition. -/
theorem handlers_in_order {w : World} (hfd : w.s.fd = -1) (hout : Holds w.s.out [])
    {choices : List (Choice Query Answer Call)} (hm : Meets body protocolOk (.start w) choices)
    {cfg : Config World Query Answer Method Fault Call}
    (hrun : run body (.start w) choices = some cfg) (hctl : cfg.ctl = .owner) :
    Protocol cfg.log := by
  have h0 : InOrder [] w [] := by
    refine ⟨⟨[], hout⟩, ⟨Nat.zero_le 1, ?_, fun _ _ hm => (by cases hm)⟩,
      fun _ _ _ hm => (by cases hm), fun ho => absurd hfd ho, fun _ hp => (by cases hp)⟩
    intro l₁ m w' l₂ he
    simp at he
  exact (run_inv protocolContract protocol_body h0 hm hrun hctl).protocol

/-- A stream that connects, is written to from `connected`, and receives. -/
def connectAndServe : List (Choice Query Answer Call) :=
  [.enter (.connect ⟨.inet, 80, []⟩ (some ⟨true, true, true, true⟩) .EAGAIN),
    .answer .socket (.ok 5), .answer .connect (.err .EINPROGRESS), .enter (.event POLLOUT .EAGAIN),
    .answer .soError (.ok 0), .answer .peerName (.ok ⟨.inet, 80, []⟩), .enter (.write [1]),
    .answer (.send [1]) (.ok 1), .back 0, .back 0, .back 0, .enter (.event POLLIN .EAGAIN),
    .enter .close, .back (-1)]

theorem handlers_in_order_connectAndServe :
    ∃ cfg, run body (.start (.opened (-1) ioStreamVmt false)) connectAndServe = some cfg ∧
      Protocol cfg.log := by
  have hm : Meets body protocolOk (.start (.opened (-1) ioStreamVmt false)) connectAndServe :=
    meets_cons rfl rfl <| meets_cons trivial rfl <| meets_cons trivial rfl <|
      meets_cons (show (5 : Int) ≠ -1 by decide) rfl <| meets_cons trivial rfl <|
      meets_cons ⟨_, rfl⟩ rfl <| meets_cons (fun h => by cases h) rfl <| meets_cons trivial rfl <|
      meets_cons (fun _ => show (5 : Int) ≠ -1 by decide) rfl <| meets_cons trivial rfl <|
      meets_cons trivial rfl <| meets_cons (show (5 : Int) ≠ -1 by decide) rfl <|
      meets_cons trivial rfl <| meets_cons trivial rfl meets_nil
  exact ⟨_, rfl, handlers_in_order rfl (opened_holds _ _ _) hm rfl rfl⟩

/-- A connected stream with a byte to send; the peer resets the connection. -/
def drainReset : List (Choice Query Answer Call) :=
  [.enter (.connect ⟨.inet, 80, []⟩ (some ⟨true, true, true, true⟩) .EAGAIN),
    .answer .socket (.ok 5), .answer .connect (.ok ()), .answer .peerName (.ok ⟨.inet, 80, []⟩),
    .back 0, .enter (.write [1, 2]), .answer (.send [1, 2]) (.ok 1), .back 0,
    .enter (.event POLLOUT .EAGAIN), .answer .drain [.err .ECONNRESET]]

/-- The event handler closes the stream and then calls `sent`, with the -1
it got from `io_buf_send` for a size. -/
theorem drain_reset_calls :
    ∃ cfg, run body (.start (.opened (-1) ioStreamVmt false)) drainReset = some cfg ∧
      cfg.ctl = .owner ∧ ¬ Protocol cfg.log := by
  refine ⟨_, rfl, rfl, fun hp => ?_⟩
  have hopen := hp.isOpen (.sent 4294967295 (.drain POLLOUT)) _
    (.tail _ (.tail _ (.tail _ (.tail _ (.head _)))))
  exact hopen rfl

end Nanio.Stream
