/-
Nanio.Stream.PollOut — a stream that has something to wait for waits for it.

While it is connecting or has bytes to send, an open stream must have
`POLLOUT` among its events, or nothing will ever continue it; and
`all_sent`, on which a server closes the connection, must not be called
before everything is sent. Three functions set and clear the flag
(`Waiting` is kept by all of them, §2), except on two paths of
`io_stream_write`: a write of no bytes clears the flag and calls
`all_sent` whatever is pending (`zero_write_stalls`), and so does a write
that went out whole, if its `sent` method has queued more meanwhile.
-/
import Nanio.Stream.StreamRules

namespace Nanio.Stream

open Nanio.Lib Nanio.Buf

/-! ## §1 The contract -/

/-- Connected, and no byte unsent. -/
def Idle (w : World) : Prop := w.s.connecting = false ∧ Holds w.s.out []

/-- An open stream that is connecting or has unsent bytes asks for
`POLLOUT`. -/
def Waiting (w : World) : Prop :=
  ∃ content, Holds w.s.out content ∧
    (w.s.fd ≠ -1 → (w.s.connecting = true ∨ content ≠ []) → w.wants = true)

/-- `all_sent` was only called on an idle stream. -/
def AllSentIdle (l : Log) : Prop := ∀ site w, .call (.allSent site) w ∈ l → Idle w

/-- The condition: a write of no bytes finds the stream closed or idle;
when `sent` returns into a write that has nothing left the stream is idle;
when `sent` or `connected` returns elsewhere it is not connecting again. -/
def pollOk (v : View World Method Call) : Choice Query Answer Call → Prop
  | .enter (.write data) => data = [] → v.st.s.fd = -1 ∨ Idle v.st
  | .enter _ => True
  | .answer _ _ => True
  | .back _ =>
    match v.returning with
    | some (.sent _ (.write 0)) => Idle v.st
    | some (.sent _ (.drain _)) => v.st.s.connecting = false
    | some .connected => v.st.s.connecting = false
    | _ => True

def pollContract : StreamContract where
  ok := pollOk
  Inv _ w l := Waiting w ∧ AllSentIdle l
  mayFault f := f = .noAnswer

/-- `Waiting` only looks at the buffer, the flags, and whether the stream is
open. -/
theorem Waiting.congr {w w' : World} (h : Waiting w) (hout : w'.s.out = w.s.out)
    (hfd : w'.s.fd ≠ -1 → w.s.fd ≠ -1) (hc : w'.s.connecting = true → w.s.connecting = true)
    (hw : w'.wants = w.wants) : Waiting w' := by
  obtain ⟨content, hh, hwants⟩ := h
  refine ⟨content, hout ▸ hh, fun ho hp => ?_⟩
  rw [hw]
  exact hwants (hfd ho) (hp.imp hc id)

theorem Waiting.close {w : World} (h : Waiting w) : Waiting w.close :=
  h.congr (close_out w) open_of_close (by simp) (close_wants w)

theorem Idle.waiting {w : World} (h : Idle w) : Waiting w := by
  refine ⟨[], h.2, fun _ hp => ?_⟩
  rcases hp with hp | hp
  · rw [h.1] at hp
    cases hp
  · exact absurd rfl hp

theorem AllSentIdle.append {l : Log} (h : AllSentIdle l) {e : Event World Method Call}
    (he : ∀ site w, e = .call (.allSent site) w → Idle w) : AllSentIdle (l ++ [e]) := by
  intro site w hm
  rcases List.mem_append.mp hm with hm | hm
  · exact h site w hm
  · exact he site w (List.mem_singleton.mp hm).symm

theorem AllSentIdle.leave {l : Log} (h : AllSentIdle l) (c : Call) (entry exit : World) (v : Int) :
    AllSentIdle (l ++ [.leave c entry exit v]) :=
  h.append fun _ _ he => by cases he

/-! ## §2 The calls -/

section Calls

variable {c : Call} {ps : List (Pending World Method Call)} {post : Int → World → Log → Prop}
  {w : World} {l : Log}

theorem poll_callsIf {present : Bool} {m : Method} {next : World → Log → Prop} (hw : Waiting w)
    (hl : AllSentIdle l) (hm : ∀ site, m = .allSent site → Idle w)
    (hnext : ∀ r w' l', Waiting w' → AllSentIdle l' →
      pollOk ⟨⟨m, w, l ++ [.call m w]⟩ :: ps, none, w', l'⟩ (.back r) → next w' l')
    (hskip : present = false → next w l) : CallsIf pollContract ps present m next w l := by
  have hl' : AllSentIdle (l ++ [.call m w]) := hl.append fun site w' he => by
    cases he
    exact hm site rfl
  exact ⟨fun _ => ⟨⟨hw, hl'⟩, fun r w' l' hi hb => hnext r w' l' hi.1 hi.2 hb⟩, hskip⟩

/-- `all_sent` on an idle stream, and then the end of the call. -/
theorem poll_allSent {present : Bool} {site : Site} {v : Int} (hi : Idle w) (hl : AllSentIdle l)
    (hpost : ∀ v w l, Waiting w → AllSentIdle l → post v w l) :
    CallsIf pollContract ps present (.allSent site) (post v) w.dropOut l := by
  have hi' : Idle w.dropOut := hi
  exact poll_callsIf hi'.waiting hl (fun _ _ => hi') (fun r w' l' hw hl _ => hpost v w' l' hw hl)
    fun _ => hpost v _ _ hi'.waiting hl

theorem poll_writeRest {dt : List UInt8} {sent : Nat} (hw : Waiting w) (hl : AllSentIdle l)
    (hidle : dt = [] → Idle w) (hpost : ∀ v w l, Waiting w → AllSentIdle l → post v w l) :
    (writeRest dt sent).wp pollContract c ps post w l := by
  obtain ⟨content, hh, -⟩ := hw
  apply wp_writeRest hh
  · intro hdt
    exact poll_allSent (hidle hdt) hl hpost
  · intro out _ hout
    exact hpost _ _ _ ⟨_, hout, fun _ _ => by simp⟩ hl

theorem poll_write {data : List UInt8} (hw : Waiting w) (hl : AllSentIdle l)
    (hzero : data = [] → w.s.fd = -1 ∨ Idle w)
    (hpost : ∀ v w l, Waiting w → AllSentIdle l → post v w l) :
    (ioStreamWrite data).wp pollContract c ps post w l := by
  have ⟨content, hh, _⟩ := hw
  apply wp_ioStreamWrite hh rfl
  · intro _
    exact hpost _ _ _ hw hl
  · intro _
    exact hpost _ _ _ hw hl
  · intro n _ hc hnil hn _
    have hi : Idle (w.taken (data.take n)) := ⟨hc, hnil ▸ hh⟩
    apply poll_callsIf hi.waiting hl (fun _ he => by cases he)
    · -- a write that is through relies on what `sent` has left behind
      intro r w' l' hw' hl' hb
      refine poll_writeRest hw' hl' (fun hdone => ?_) hpost
      have hleft : data.length - n = 0 := by
        have hlen := congrArg List.length hdone
        simpa using hlen
      rw [hleft] at hb
      exact hb
    · intro _
      exact poll_writeRest hi.waiting hl (fun _ => hi) hpost
  · intro hopen _
    exact poll_writeRest hw hl (fun hdt => (hzero hdt).resolve_left hopen) hpost

theorem poll_connected (hw : Waiting w) (hl : AllSentIdle l) (hc : w.s.connecting = false)
    (hpost : ∀ v w l, Waiting w → AllSentIdle l → post v w l) :
    ioStreamConnected.wp pollContract c ps post w l := by
  -- clearing the flag is right once the stream is connected and empty
  have hrest : ∀ w l, Waiting w → AllSentIdle l → w.s.connecting = false →
      connectedRest.wp pollContract c ps post w l := by
    intro w l hw hl hc
    obtain ⟨content, hh, -⟩ := id hw
    apply wp_connectedRest
    · intro he
      have hi : Idle w.dropOut := ⟨hc, holds_isEmpty hh he ▸ hh⟩
      exact hpost _ _ _ hi.waiting hl
    · intro _
      exact hpost _ _ _ hw hl
  apply wp_ioStreamConnected
  · intro e _
    exact hpost _ _ _ hw hl
  · intro sa _
    have hw' : Waiting (w.setPeer sa) := hw.congr (by simp) (by simp) (by simp) (by simp)
    apply poll_callsIf hw' hl (fun _ he => by cases he)
    · intro r w'' l' hw'' hl' hb
      exact hrest w'' l' hw'' hl' hb
    · intro _
      exact hrest _ l hw' hl (by simpa using hc)

theorem poll_connecting (hw : Waiting w) (hl : AllSentIdle l)
    (hpost : ∀ v w l, Waiting w → AllSentIdle l → post v w l) :
    ioStreamConnecting.wp pollContract c ps post w l := by
  apply wp_ioStreamConnecting
  · exact hpost _ _ _ hw.close hl
  · intro _
    exact poll_connected (hw.congr rfl id (by simp) rfl) hl rfl hpost

theorem poll_recvPart {events : BitVec 32} (hw : Waiting w) (hl : AllSentIdle l)
    (hpost : ∀ v w l, Waiting w → AllSentIdle l → post v w l) :
    (recvPart events).wp pollContract c ps post w l := by
  apply wp_recvPart
  · intro _
    refine ⟨⟨hw, hl.append fun _ _ he => by cases he⟩, fun r w' l' hi _ => ?_⟩
    exact ⟨fun _ => hpost _ _ _ hi.1.close hi.2, fun _ => hpost _ _ _ hi.1 hi.2⟩
  · intro _
    exact hpost _ _ _ hw hl

theorem poll_drained {events : BitVec 32} {sent : Int} (hw : Waiting w) (hl : AllSentIdle l)
    (hc : w.s.connecting = false) (hpost : ∀ v w l, Waiting w → AllSentIdle l → post v w l) :
    (drained events sent).wp pollContract c ps post w l := by
  have hrest : ∀ w l, Waiting w → AllSentIdle l → w.s.connecting = false →
      (drainedRest events).wp pollContract c ps post w l := by
    intro w l hw hl hc
    obtain ⟨content, hh, -⟩ := id hw
    apply wp_drainedRest
    · intro he
      exact poll_allSent ⟨hc, holds_isEmpty hh he ▸ hh⟩ hl hpost
    · intro _
      exact poll_recvPart hw hl hpost
  apply wp_drained
  apply poll_callsIf hw hl (fun _ he => by cases he)
  · intro r w' l' hw' hl' hb
    exact hrest w' l' hw' hl' hb
  · intro _
    exact hrest w l hw hl hc

theorem poll_event {events : BitVec 32} {errno : Errno} (hw : Waiting w) (hl : AllSentIdle l)
    (hpost : ∀ v w l, Waiting w → AllSentIdle l → post v w l) :
    (ioStreamEventHandler events errno).wp pollContract c ps post w l := by
  have ⟨content, hh, hwants⟩ := hw
  apply wp_ioStreamEventHandler hh rfl
  · intro _
    exact poll_connecting hw hl hpost
  · intro script t hc _ ht _
    obtain ⟨used, -, -, -, hh', -⟩ := ht.moved
    have hd : Waiting ((w.taken t.bytes).setOut t.mem) := by
      refine ⟨_, hh', fun ho hp => hwants ho (.inr ?_)⟩
      -- what is left was there before
      rcases hp with hp | hp
      · exact absurd hp (by simp [hc])
      · intro hnil
        rw [hnil, List.drop_nil] at hp
        exact hp rfl
    refine ⟨fun _ _ => ?_, fun _ _ => hpost _ _ _ hd hl, fun _ => poll_drained hd hl hc hpost⟩
    exact poll_drained hd.close hl (by simpa using hc) hpost
  · intro _
    exact poll_recvPart hw hl hpost

theorem poll_connect {sa : IoSockAddr} {vmt : Option StreamVmt} {errno : Errno} (hw : Waiting w)
    (hl : AllSentIdle l) (hpost : ∀ v w l, Waiting w → AllSentIdle l → post v w l) :
    (ioStreamConnect sa vmt errno).wp pollContract c ps post w l := by
  apply wp_ioStreamConnect
  · exact hpost _ _ _ hw hl
  · intro fd _
    exact hpost _ _ _ ⟨[], connect_holds w fd sa _ true, fun _ _ => has_or _ _ (by decide)⟩ hl
  · intro fd _
    have hi : Idle (w.connect fd sa (vmt.getD ioStreamVmt) false) :=
      ⟨rfl, connect_holds w fd sa _ false⟩
    exact poll_connected hi.waiting hl rfl fun _ => hpost 1

end Calls

theorem poll_body : pollContract.Body body := by
  intro ps c w l hinv hok
  obtain ⟨hw, hl⟩ := hinv
  have hpost : ∀ v w' l', Waiting w' → AllSentIdle l' → pollContract.Post c w ps v w' l' :=
    fun v w' l' hw' hl' => ⟨hw', hl'.leave c w w' v⟩
  cases c with
  | connect sa vmt errno => exact poll_connect hw hl hpost
  | write data => exact poll_write hw hl hok hpost
  | event events errno => exact poll_event hw hl hpost
  | close => exact hpost 0 w.close l hw.close hl

/-! ## §3 Every run -/

/-- **A stream that has to wait asks for `POLLOUT`**, in every state of a
run whose steps meet the condition, and `all_sent` is only called on an
idle stream. -/
theorem pollout_kept {w : World} (hfd : w.s.fd = -1) (hout : Holds w.s.out [])
    {choices : List (Choice Query Answer Call)} (hm : Meets body pollOk (.start w) choices)
    {cfg : Config World Query Answer Method Fault Call}
    (hrun : run body (.start w) choices = some cfg) (hctl : cfg.ctl = .owner) :
    Waiting cfg.st ∧ AllSentIdle cfg.log := by
  have h0 : pollContract.Inv [] w [] :=
    ⟨⟨[], hout, fun ho => absurd hfd ho⟩, fun _ _ hm => by cases hm⟩
  exact run_inv pollContract poll_body h0 hm hrun hctl

/-- A stream that connects, is written to meanwhile, and then drained. -/
def connectAndSend : List (Choice Query Answer Call) :=
  [.enter (.connect ⟨.inet, 80, []⟩ (some ⟨true, true, true, true⟩) .EAGAIN),
    .answer .socket (.ok 5), .answer .connect (.err .EINPROGRESS), .enter (.write [1, 2]),
    .enter (.event POLLOUT .EAGAIN), .answer .soError (.ok 0),
    .answer .peerName (.ok ⟨.inet, 80, []⟩), .back 0, .enter (.event POLLOUT .EAGAIN),
    .answer .drain [.ok 2], .back 0, .back 0]

theorem pollout_kept_connectAndSend :
    ∃ cfg, run body (.start (.opened (-1) ioStreamVmt false)) connectAndSend = some cfg ∧
      Waiting cfg.st ∧ AllSentIdle cfg.log := by
  have hm : Meets body pollOk (.start (.opened (-1) ioStreamVmt false)) connectAndSend :=
    meets_cons trivial rfl <| meets_cons trivial rfl <| meets_cons trivial rfl <|
      meets_cons (fun h => by cases h) rfl <| meets_cons trivial rfl <| meets_cons trivial rfl <|
      meets_cons trivial rfl <| meets_cons rfl rfl <| meets_cons trivial rfl <|
      meets_cons trivial rfl <| meets_cons rfl rfl <| meets_cons trivial rfl meets_nil
  exact ⟨_, rfl, pollout_kept rfl (opened_holds _ _ _) hm rfl rfl⟩

/-- A write of no bytes on a stream that is still connecting. -/
def zeroWrite : List (Choice Query Answer Call) :=
  [.enter (.connect ⟨.inet, 80, []⟩ (some ⟨true, true, true, true⟩) .EAGAIN),
    .answer .socket (.ok 5), .answer .connect (.err .EINPROGRESS), .enter (.write [])]

/-- It clears `POLLOUT`, so nothing will notice that the connection is made,
and it calls `all_sent` before that. -/
theorem zero_write_stalls :
    ∃ cfg, run body (.start (.opened (-1) ioStreamVmt false)) zeroWrite = some cfg ∧
      cfg.ctl = .owner ∧ ¬ Waiting cfg.st ∧ ¬ AllSentIdle cfg.log := by
  refine ⟨_, rfl, rfl, ?_, ?_⟩
  · intro hw
    obtain ⟨content, -, hwants⟩ := hw
    have hcontra := hwants (by decide) (.inl rfl)
    exact absurd hcontra (by decide)
  · intro hl
    have hidle := hl (.write 0) _ (.tail _ (.head _))
    exact absurd hidle.1 (by decide)

end Nanio.Stream
