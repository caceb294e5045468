/-
Nanio.Server.Connection — a connection of one of the servers, from the event
on.

The stream is the one of `Nanio.Stream.IoStream`, with the methods of the
server put in place of its callbacks (`Nanio.Lib.Link`): an event runs
`io_stream_event_handler`, which calls `recv` or `all_sent` of the server,
which write to the stream, which may call `all_sent` again. `App` is what the
servers of `multi_server_port.i`, `multi_server_http.i` and `rpxys.c` have of
their own; the handlers themselves are those of `Nanio.Server.PortCon` and
`Nanio.Http.HttpCon`. A server's texts go through `msg` of
`io_stream_vwritef`, and what the stack holds there is asked of the
environment.

§3 and §4 are the rules for such code: what is known of the stream between
two calls (`Steady`), and what the methods of a server leave.
-/
import Nanio.Lib.Link
import Nanio.Http.Response
import Nanio.Server.PortCon
import Nanio.Stream.Writef

namespace Nanio.Server

open Nanio.Lib Nanio.Tmp Nanio.Stream Nanio.Buf

/-! ## §1 A server's connection -/

/-- What a server writes: by `io_stream_writef`, or by `io_stream_write`. -/
inductive Output where
  | writef (text : Text)
  | write (data : List UInt8)

/-- What `all_sent` does in the state to close in: `io_stream_close` or
`io_d_free`. -/
inductive Ending where
  | close
  | free
  deriving DecidableEq

/-- The methods of a server, over the state `S` of a connection. `serve` is
its `recv` once there are bytes: what it returns, what it writes, and the
state it sets behind that. -/
structure App (S F : Type) where
  receiving : S → Bool
  room : S → Nat
  serve : S → List UInt8 → Except F (Int × List Output × S)
  closing : S → Bool
  ending : Ending
  greeting : List Output

/-- A connection: the stream, the rest of it, and whether `io_d_free` was
called for it. -/
structure Con (S : Type) where
  stream : World
  app : S
  freed : Bool

inductive ConQuery where
  | io (q : Query)
  | recv (len : Nat)
  | stack
  deriving DecidableEq

/-- `stack` is what `msg` of `io_stream_vwritef` holds beforehand. -/
@[reducible] def ConAnswer : ConQuery → Type
  | .io q => Answer q
  | .recv _ => SysResult (List UInt8)
  | .stack => Nat → UInt8

inductive ConFault (F : Type) where
  | stream (f : Fault)
  | useAfterFree
  | handler (f : F)

variable {S F : Type}

abbrev ConCode (S F α : Type) := Prog (Con S) ConQuery ConAnswer Empty (ConFault F) α

def Con.setStream (con : Con S) (w : World) : Con S := { con with stream := w }
def Con.setApp (con : Con S) (s : S) : Con S := { con with app := s }

/-- `io_stream_close`. -/
def Con.close (con : Con S) : Con S := con.setStream con.stream.close

/-- `io_d_free`: the descriptor is closed and the memory given back. -/
def Con.free (con : Con S) : Con S := { con with freed := true }

/-- The owner looks at its connection. -/
def touch : ConCode S F (Con S) := do
  let con ← Prog.read
  if con.freed then Prog.fault .useAfterFree
  else pure con

/-- `v_port_con_all_sent`, `v_http_con_all_sent`, `proxy_all_sent_handler`. -/
def App.allSent (A : App S F) : ConCode S F Int := do
  let con ← touch
  if A.closing con.app then
    match A.ending with
    | .close =>
      Prog.modify Con.close
      pure 0
    | .free =>
      Prog.modify Con.free
      pure 0
  else pure 0

/-- The stream in the connection; its `recv` is given. The servers have no
`connected` and no `sent`. -/
def App.host (A : App S F) (recv : ConCode S F Int) :
    Host World Query Answer Method Fault (Con S) ConQuery ConAnswer Empty (ConFault F) where
  get con := if con.freed then none else some con.stream
  set := Con.setStream
  query := .io
  answer _ a := a
  method
    | .connected => pure 0
    | .recv => recv
    | .sent _ _ => pure 0
    | .allSent _ => A.allSent
  fault := .stream
  dead := .useAfterFree

/-- `port_con_vmt`, `http_con_vmt`, `proxy_stream_vmt`. -/
def serverVmt : StreamVmt := ⟨false, true, false, true⟩

/-- A write, which calls no `recv`. -/
def App.output (A : App S F) : Output → ConCode S F Int
  | .writef text => do
    let mem ← Prog.query ConQuery.stack
    (ioStreamWritef mem (some text)).inside (A.host (pure 0))
  | .write data => (ioStreamWrite data).inside (A.host (pure 0))

def App.outputs (A : App S F) : List Output → ConCode S F Unit
  | [] => pure ()
  | o :: os => do
    let _ ← A.output o
    A.outputs os

/-- `v_port_con_recv`, `v_http_con_recv`, `proxy_stream_recv`. -/
def App.recv (A : App S F) : ConCode S F Int := do
  let con ← touch
  if A.receiving con.app then
    match ← Prog.query (ConQuery.recv (A.room con.app)) with
    | .err _ => pure (-1)
    | .ok [] =>
      Prog.modify Con.close
      pure 0
    | .ok bytes =>
      if A.room con.app < bytes.length then Prog.fault (.stream .noAnswer)
      else
        match A.serve con.app bytes with
        | .error f => Prog.fault (.handler f)
        | .ok (r, os, s) =>
          A.outputs os
          let _ ← touch
          Prog.modify (·.setApp s)
          pure r
  else pure 0

/-- `io_ds_poll` for a connection that an event is reported for. -/
def App.polled (A : App S F) (events : BitVec 32) (errno : Errno) : ConCode S F Int := do
  let _ ← (ioStreamEventHandler events errno).inside (A.host A.recv)
  let con ← touch
  if con.stream.s.fd = -1 then
    Prog.modify Con.free
    pure 0
  else pure 0

/-- The rest of `accept`, and an event. -/
inductive ConCall where
  | accept
  | polled (events : BitVec 32) (errno : Errno)

def App.body (A : App S F) : ConCall → ConCode S F Int
  | .accept => do
    A.outputs A.greeting
    pure 0
  | .polled events errno => A.polled events errno

/-- A connection right after `io_stream_accept`. -/
def Con.accepted (fd : Int) (s : S) : Con S := ⟨.opened fd serverVmt false, s, false⟩

/-! ## §2 The three servers -/

/-- `multi_server_port.i`. -/
def portApp : App PortCon PortFault where
  receiving c := c.state = .FTP_RECV_CMD
  room := PortCon.toRecv
  serve c bytes := do
    let (r, c') ← vPortConRecv c (.ok bytes)
    pure (r, (c'.written.drop c.written.length).map .writef, c')
  closing c := c.state = .FTP_CLOSE
  ending := .close
  greeting := [.writef welcome]

/-- The head by `io_stream_writef`, the text by `io_stream_write`. -/
def responseOutputs (fields : Option Text → List Http.Field) (r : Http.Response) : List Output :=
  .writef (Http.responseHead r.version r.status.toNat (fields r.text)) ::
    (r.text.map Output.write).toList

/-- What is written behind what was. -/
def newOutputs (fields : Option Text → List Http.Field) (c c' : Http.HttpCon S) : List Output :=
  (c'.written.drop c.written.length).flatMap (responseOutputs fields)

/-- Room for the rest of a head. -/
def headRoom (c : Http.HttpCon S) : Nat := toUnsigned (Http.reqHdrSize - 1 - toUnsigned c.end)

/-- `multi_server_http.i`. -/
def httpApp (o : Map.ArgOrder) : App (Http.HttpCon Http.HttpState) TextFault where
  receiving c := c.state = .ST_RECV_HEADER
  room := headRoom
  serve c bytes := do
    let (r, c') ← (Http.vHttpConRecv o (fun _ => .ok bytes) c).result
    pure (r, newOutputs Http.httpFields c c', c')
  closing c := c.state = .ST_CLOSE
  ending := .free
  greeting := []

/-- `rpxys.c`. -/
def proxyApp (o : Map.ArgOrder) : App (Http.HttpCon Http.ProxyState) TextFault where
  receiving c := c.state = .ST_RECV_HEADER
  room := headRoom
  serve c bytes := do
    let (r, c') ← (Http.proxyStreamRecv o (fun _ => .ok bytes) c).result
    pure (r, newOutputs (fun _ => Http.proxyFields) c c', c')
  closing c := c.state = .ST_CLOSE
  ending := .free
  greeting := []

/-! ## §3 Writing -/

/-- The stream of a connection between two calls: `POLLOUT` is asked for while
something waits to be sent. -/
structure Steady (w : World) : Prop where
  connected : w.s.connecting = false
  vmt : w.s.vmt = serverVmt
  holds : ∃ content, Holds w.s.out content
  polls : ioBufIsEmpty w.s.out = false → w.wants = true
  fd : 0 ≤ w.s.fd ∨ w.s.fd = -1

theorem steady_opened {fd : Int} (hfd : 0 ≤ fd) : Steady (.opened fd serverVmt false) where
  connected := rfl
  vmt := rfl
  holds := ⟨[], opened_holds fd serverVmt false⟩
  polls he := by cases he
  fd := .inl hfd

theorem Steady.close {w : World} (h : Steady w) : Steady w.close ∧ w.close.s.fd = -1 := by
  have hfd : w.close.s.fd = -1 := by
    rw [World.close]
    split
    · rfl
    · exact h.fd.resolve_left ‹_›
  exact ⟨⟨by simpa using h.connected, by simpa using h.vmt, by simpa using h.holds,
    by simpa using h.polls, .inr hfd⟩, hfd⟩

/-- All of it is sent. -/
theorem Steady.drop {w : World} (h : Steady w) (he : ioBufIsEmpty w.s.out = true) :
    Steady w.dropOut where
  connected := h.connected
  vmt := h.vmt
  holds := h.holds
  polls := by simp [he]
  fd := h.fd

section

variable {A : App S F} {recv : ConCode S F Int} {c : ConCall}
  {K : Contract (Con S) ConQuery ConAnswer Empty (ConFault F) ConCall}
  {ps : List (Pending (Con S) Empty ConCall)} {con : Con S}
  {l : List (Event (Con S) Empty ConCall)}

theorem host_get (h : con.freed = false) : (A.host recv).get con = some con.stream := by
  simp [App.host, h]

theorem wp_streamRead (h : con.freed = false)
    {post : World → Con S → List (Event (Con S) Empty ConCall) → Prop} :
    ((Prog.read : Code World).inside (A.host recv)).wp K c ps post con l ↔
      post con.stream con l :=
  wp_inside_read (host_get h)

theorem wp_streamModify (h : con.freed = false) (f : World → World)
    {post : Unit → Con S → List (Event (Con S) Empty ConCall) → Prop} :
    ((Prog.modify f : Code Unit).inside (A.host recv)).wp K c ps post con l ↔
      post () (con.setStream (f con.stream)) l :=
  wp_inside_modify (host_get h) f

theorem wp_streamSend {data : List UInt8}
    {post : SysResult Nat → Con S → List (Event (Con S) Empty ConCall) → Prop} :
    ((send data).inside (A.host recv)).wp K c ps post con l ↔
      ∀ a, K.ok ⟨ps, some c, con, l⟩ (.answer (.io (.send data)) a) → post a con l := Iff.rfl

theorem wp_streamDrain
    {post : List (SysResult Nat) → Con S → List (Event (Con S) Empty ConCall) → Prop} :
    (drain.inside (A.host recv)).wp K c ps post con l ↔
      ∀ a, K.ok ⟨ps, some c, con, l⟩ (.answer (.io .drain) a) → post a con l := Iff.rfl

theorem wp_touch (h : con.freed = false)
    {post : Con S → Con S → List (Event (Con S) Empty ConCall) → Prop} :
    (touch : ConCode S F (Con S)).wp K c ps post con l ↔ post con con l := by
  unfold touch
  rw [wp_bind, wp_read, h]
  exact Iff.rfl

theorem wp_allSent_open (h : con.freed = false) (hc : A.closing con.app = false)
    {post : Int → Con S → List (Event (Con S) Empty ConCall) → Prop} :
    A.allSent.wp K c ps post con l ↔ post 0 con l := by
  unfold App.allSent
  rw [wp_bind, wp_touch h, hc]
  exact Iff.rfl

/-- A method the servers have. -/
theorem wp_callIf_own (h : con.freed = false) {present : StreamVmt → Bool} {m : Method}
    (hp : present con.stream.s.vmt = true)
    {post : Unit → Con S → List (Event (Con S) Empty ConCall) → Prop} :
    ((callIf present m).inside (A.host recv)).wp K c ps post con l ↔
      ((A.host recv).method m).wp K c ps (fun _ => post ()) con l := by
  unfold callIf
  rw [wp_inside_bind, wp_streamRead h, if_pos hp, wp_inside_bind, wp_inside_invoke]
  exact Iff.rfl

/-- A method they do not have. -/
theorem wp_callIf_none (h : con.freed = false) {present : StreamVmt → Bool} {m : Method}
    (hp : present con.stream.s.vmt = false)
    {post : Unit → Con S → List (Event (Con S) Empty ConCall) → Prop} :
    ((callIf present m).inside (A.host recv)).wp K c ps post con l ↔ post () con l := by
  unfold callIf
  rw [wp_inside_bind, wp_streamRead h, hp]
  exact Iff.rfl

/-- `io_stream_write` after the direct `send`, while the state is not the one
to close in: what is left waits. -/
theorem wp_writeRest_inside (h : con.freed = false) (hc : A.closing con.app = false)
    (hs : Steady con.stream) {dt : List UInt8} {sent : Nat}
    (hdt : dt = [] → ioBufIsEmpty con.stream.s.out = true)
    {post : Int → Con S → List (Event (Con S) Empty ConCall) → Prop}
    (hpost : ∀ r w, Steady w → w.s.fd = con.stream.s.fd → post r (con.setStream w) l) :
    ((writeRest dt sent).inside (A.host recv)).wp K c ps post con l := by
  unfold writeRest
  by_cases hnil : dt = []
  · subst hnil
    have h₁ : (con.setStream con.stream.dropOut).freed = false := h
    have hall : (con.setStream con.stream.dropOut).stream.s.vmt.allSent = true := by
      show con.stream.s.vmt.allSent = true
      rw [hs.vmt]
      rfl
    rw [if_pos List.length_nil, wp_inside_bind, wp_streamModify h, wp_inside_bind,
      wp_callIf_own h₁ hall]
    have hclosing : A.closing (con.setStream con.stream.dropOut).app = false := hc
    exact (wp_allSent_open h₁ hclosing).mpr (hpost 0 _ (hs.drop (hdt rfl)) rfl)
  · obtain ⟨content, hholds⟩ := hs.holds
    obtain ⟨out, hw, hout⟩ := ioBufWrite_ok hholds dt
    have h₁ : (con.setStream con.stream.wantOut).freed = false := h
    have hlast : Steady (con.stream.wantOut.setOut out) :=
      ⟨hs.connected, hs.vmt, ⟨_, hout⟩, fun _ => by simp, hs.fd⟩
    have hw₁ : ioBufWrite (con.setStream con.stream.wantOut).stream.s.out dt =
        .ok (dt.length, out) := hw
    rw [if_neg (fun e => hnil (List.length_eq_zero_iff.mp e)), wp_inside_bind, wp_streamModify h,
      wp_inside_bind, wp_streamRead h₁, hw₁]
    dsimp only
    rw [wp_inside_bind, wp_streamModify h₁]
    exact hpost _ _ hlast rfl

/-- `io_stream_write` of some bytes. -/
theorem wp_write_inside (h : con.freed = false) (hc : A.closing con.app = false)
    (hs : Steady con.stream) (hf : K.mayFault (.stream .noAnswer)) {data : List UInt8}
    (hne : data ≠ []) {post : Int → Con S → List (Event (Con S) Empty ConCall) → Prop}
    (hpost : ∀ r w, Steady w → w.s.fd = con.stream.s.fd → post r (con.setStream w) l) :
    ((ioStreamWrite data).inside (A.host recv)).wp K c ps post con l := by
  unfold ioStreamWrite
  rw [wp_inside_bind, wp_streamRead h]
  by_cases hfd : con.stream.s.fd = -1
  · rw [if_pos hfd]
    exact hpost 0 con.stream hs rfl
  rw [if_neg hfd, hs.connected]
  cases he : ioBufIsEmpty con.stream.s.out with
  | false => exact wp_writeRest_inside h hc hs (absurd · hne) hpost
  | true =>
    simp only [Bool.not_false, Bool.and_self, if_true]
    rw [wp_inside_bind, wp_streamSend]
    intro answer _
    cases answer with
    | err e => exact hpost (-1) con.stream hs rfl
    | ok n =>
      dsimp only
      by_cases hn : data.length < n
      · rw [if_pos hn]
        exact hf
      · have h₁ : (con.setStream (con.stream.taken (data.take n))).freed = false := h
        have hnone : (con.setStream (con.stream.taken (data.take n))).stream.s.vmt.sent =
            false := by
          show con.stream.s.vmt.sent = false
          rw [hs.vmt]
          rfl
        have hrest : ((writeRest (data.drop n) n).inside (A.host recv)).wp K c ps post
            (con.setStream (con.stream.taken (data.take n))) l := by
          have htaken : Steady (con.setStream (con.stream.taken (data.take n))).stream :=
            ⟨hs.connected, hs.vmt, hs.holds, hs.polls, hs.fd⟩
          exact wp_writeRest_inside h₁ hc htaken (fun _ => he) hpost
        rw [if_neg hn, wp_inside_bind, wp_streamModify h]
        by_cases h0 : n = 0
        · rw [if_neg (not_not.mpr h0)]
          exact hrest
        · rw [if_pos h0, wp_inside_bind, wp_callIf_none h₁ hnone]
          exact hrest

/-! ## §4 The methods -/

theorem handed_ne_nil (mem : Nat → UInt8) {text : Text} (h : text ≠ []) :
    handed mem (some text) ≠ [] := by
  by_cases hlen : text.length ≤ msgSize - 1
  · rwa [handed_short mem hlen]
  · have hsize : msgSize = 1024 := rfl
    have hlong : msgSize ≤ (handed mem (some text)).length := handed_long mem (by omega)
    intro hnil
    rw [hnil, List.length_nil] at hlong
    omega

/-- A write of some bytes. -/
def Output.Nonempty : Output → Prop
  | .writef text => text ≠ []
  | .write data => data ≠ []

/-- What a server keeps of the state of a connection, and that it never
writes nothing: `io_stream_write` would then forget what waits. -/
structure App.Lawful (A : App S F) (inv : S → Prop) : Prop where
  exclusive : ∀ s, A.receiving s = true → A.closing s = false
  serve : ∀ s bytes r os s', inv s → A.serve s bytes = .ok (r, os, s') →
    inv s' ∧ ∀ o ∈ os, o.Nonempty
  greeting : ∀ o ∈ A.greeting, o.Nonempty

theorem wp_output (h : con.freed = false) (hc : A.closing con.app = false)
    (hs : Steady con.stream) (hf : K.mayFault (.stream .noAnswer)) {o : Output} (ho : o.Nonempty)
    {post : Int → Con S → List (Event (Con S) Empty ConCall) → Prop}
    (hpost : ∀ r w, Steady w → w.s.fd = con.stream.s.fd → post r (con.setStream w) l) :
    (A.output o).wp K c ps post con l := by
  cases o with
  | writef text => exact fun mem _ => wp_write_inside h hc hs hf (handed_ne_nil mem ho) hpost
  | write data => exact wp_write_inside h hc hs hf ho hpost

/-- By induction on the writes. -/
theorem wp_outputs (h : con.freed = false) (hc : A.closing con.app = false)
    (hs : Steady con.stream) (hf : K.mayFault (.stream .noAnswer)) {os : List Output}
    (ho : ∀ o ∈ os, o.Nonempty)
    {post : Unit → Con S → List (Event (Con S) Empty ConCall) → Prop}
    (hpost : ∀ w, Steady w → w.s.fd = con.stream.s.fd → post () (con.setStream w) l) :
    (A.outputs os).wp K c ps post con l := by
  induction os generalizing con with
  | nil => exact hpost con.stream hs rfl
  | cons o os ih =>
    obtain ⟨ho₁, hos⟩ := List.forall_mem_cons.mp ho
    rw [App.outputs, wp_bind]
    exact wp_output h hc hs hf ho₁ fun _ w hw hfd =>
      ih h hc hw hos fun w' hw' hfd' => hpost w' hw' (hfd'.trans hfd)

theorem wp_allSent (h : con.freed = false)
    {post : Int → Con S → List (Event (Con S) Empty ConCall) → Prop}
    (hopen : A.closing con.app = false → post 0 con l)
    (hclose : A.closing con.app = true → A.ending = .close → post 0 con.close l)
    (hfree : A.closing con.app = true → A.ending = .free → post 0 con.free l) :
    A.allSent.wp K c ps post con l := by
  cases hc : A.closing con.app with
  | false => exact (wp_allSent_open h hc).mpr (hopen hc)
  | true =>
    unfold App.allSent
    rw [wp_bind, wp_touch h, if_pos hc]
    cases he : A.ending with
    | close => exact hclose hc he
    | free => exact hfree hc he

/-- `recv` of a server: nothing at all, or what the server does while the
state is not the one to close in. -/
theorem wp_recv {inv : S → Prop} (hA : A.Lawful inv) (h : con.freed = false)
    (hs : Steady con.stream) (hi : inv con.app)
    (hf : A.closing con.app = false → ∀ f, K.mayFault f)
    {post : Int → Con S → List (Event (Con S) Empty ConCall) → Prop} (hsame : post 0 con l)
    (hserve : A.closing con.app = false → ∀ r con', con'.freed = false → Steady con'.stream →
      inv con'.app → post r con' l) : A.recv.wp K c ps post con l := by
  unfold App.recv
  rw [wp_bind, wp_touch h]
  cases hr : A.receiving con.app with
  | false => exact hsame
  | true =>
    have hc := hA.exclusive con.app hr
    rw [if_pos rfl, wp_bind, wp_query]
    intro answer _
    rcases answer with ⟨- | ⟨b, bytes⟩⟩ | e
    · exact hserve hc 0 _ h hs.close.1 hi
    · dsimp only
      split
      · exact hf hc _
      cases hcall : A.serve con.app (b :: bytes) with
      | error f => exact hf hc _
      | ok out =>
        obtain ⟨r, os, s'⟩ := out
        obtain ⟨hi', hos⟩ := hA.serve con.app (b :: bytes) r os s' hi hcall
        rw [wp_bind]
        refine wp_outputs h hc hs (hf hc _) hos fun w hw _ => ?_
        have h₁ : (con.setStream w).freed = false := h
        rw [wp_bind, wp_touch h₁, wp_bind]
        exact hserve hc r _ h hw hi'
    · exact hserve hc (-1) con h hs hi

/-- The `POLLIN` part of an event. -/
theorem wp_recvPart_inside {inv : S → Prop} (hA : A.Lawful inv) (h : con.freed = false)
    (hs : Steady con.stream) (hi : inv con.app)
    (hf : A.closing con.app = false → ∀ f, K.mayFault f) {events : BitVec 32}
    {post : Int → Con S → List (Event (Con S) Empty ConCall) → Prop} (hsame : post 0 con l)
    (hserve : A.closing con.app = false → ∀ r con', con'.freed = false → Steady con'.stream →
      inv con'.app → post r con' l) :
    ((recvPart events).inside (A.host A.recv)).wp K c ps post con l := by
  unfold recvPart
  rw [wp_inside_bind, wp_streamRead h]
  split
  · rw [wp_inside_bind, wp_inside_invoke]
    refine wp_recv hA h hs hi hf hsame fun hc r con' h' hs' hi' => ?_
    split
    · rw [wp_inside_bind, wp_streamModify h']
      exact hserve hc (-1) _ h' hs'.close.1 hi'
    · exact hserve hc 0 con' h' hs' hi'
  · exact hsame

end

end Nanio.Server
