/-
Nanio.Server.Closing — how the connections of the servers end.

The connections of `multi_server_port.i`, `multi_server_http.i` and
`rpxys.c` all end alike: after the last answer is written the state is set
to the one to close in, and `all_sent` closes a connection in that state.
But `io_stream_write` calls `all_sent` itself when the kernel has taken
everything, and that is before the state is set; no other call follows. So
a connection whose last answer goes out at once is not closed, and no event
changes it any more. One whose answer has to wait is closed with the last
byte — and the two HTTP servers free it there, in the middle of the event,
so that `io_ds_poll` then looks at freed memory (`closing_needs_queue`). Or
`io_buf_send` fails because the peer is gone, and what is left is not sent.

`Leaves` says what one event may leave of a connection. Three invariants of
whole runs follow from it: of any run, of one from where there is nothing
left to send, and of one from where there is.
-/
import Nanio.Server.Connection

namespace Nanio.Server

open Nanio.Lib Nanio.Tmp Nanio.Stream Nanio.Buf

variable {S F : Type}

/-! ## §1 An event -/

section

variable {A : App S F} {recv : ConCode S F Int} {c : ConCall}
  {K : Contract (Con S) ConQuery ConAnswer Empty (ConFault F) ConCall}
  {ps : List (Pending (Con S) Empty ConCall)} {con : Con S}
  {l : List (Event (Con S) Empty ConCall)}

/-- The answers of a drain by which `io_stream_event_handler` closes the
connection: the peer is gone, or the bytes that were taken are too many for
the `int` (errno is what an earlier call left then). -/
def CutOff (script : List (SysResult Nat)) : Prop :=
  (∃ e, .err e ∈ script ∧ isReset e = true) ∨ 2 ^ 31 ≤ accepted script

theorem cutOff_of_neg {content : List UInt8} {script : List (SysResult Nat)} {t : Transfer Nat}
    {errno : Errno} (h : SendsTo content [] script t) (hall : t.script = []) (hneg : t.ret < 0)
    (hreset : isReset (t.errno.getD errno) = true) : CutOff script := by
  obtain ⟨⟨used, hused, hle, hbytes, -, hend⟩, hret⟩ := h
  obtain rfl : script = used := by simpa [hall] using hused
  cases herr : t.errno with
  | some e =>
    rw [herr] at hend hreset
    obtain ⟨-, u, rfl, -⟩ := hend
    exact .inl ⟨e, by simp, hreset⟩
  | none =>
    right
    rw [herr] at hret
    change t.ret = toInt t.bytes.length at hret
    rw [hbytes, List.nil_append, List.length_take, Nat.min_eq_left hle] at hret
    by_contra hlt
    rw [toInt_of_lt (by omega) (by omega)] at hret
    omega

/-- What an event may leave of a connection: the same; whatever a server
comes to that is not to be closed; a connection of which a part was sent;
one that was freed with the last byte. `cut` is what is known where it was
closed before that. -/
inductive Leaves (A : App S F) (inv : S → Prop) (cut : Prop) (con : Con S) : Con S → Prop
  | same : Leaves A inv cut con con
  | served {con' : Con S} (hc : A.closing con.app = false) (h : con'.freed = false)
    (hs : Steady con'.stream) (hi : inv con'.app) : Leaves A inv cut con con'
  | sent {w : World} (hw : con.stream.wants = true) (hs : Steady w)
    (hmore : A.closing con.app = true → w.wants = true ∨ w.s.fd = -1)
    (hend : A.closing con.app = true → w.s.fd = -1 → ioBufIsEmpty w.s.out = true →
      A.ending = .close)
    (hcut : A.closing con.app = true → w.s.fd = -1 → ioBufIsEmpty w.s.out = false → cut) :
    Leaves A inv cut con (con.setStream w)
  | freed {con' : Con S} (hw : con.stream.wants = true) (hc : A.closing con.app = true)
    (he : A.ending = .free) (h : con'.freed = true) : Leaves A inv cut con con'

/-- The stream after `io_buf_send`, and after the `io_d_close` of a reset. -/
structure PartSent (w : World) : Prop where
  connected : w.s.connecting = false
  vmt : w.s.vmt = serverVmt
  holds : ∃ content, Holds w.s.out content
  wants : w.wants = true
  fd : 0 ≤ w.s.fd ∨ w.s.fd = -1

theorem PartSent.steady {w : World} (h : PartSent w) : Steady w :=
  ⟨h.connected, h.vmt, h.holds, fun _ => h.wants, h.fd⟩

theorem PartSent.close {w : World} (h : PartSent w) : PartSent w.close where
  connected := by simpa using h.connected
  vmt := by simpa using h.vmt
  holds := by simpa using h.holds
  wants := by simpa using h.wants
  fd := .inr h.steady.close.2

/-- The event after the drain: the last byte ends a connection that is to be
closed. -/
theorem wp_drained_inside {inv : S → Prop} {cut : Prop} (hA : A.Lawful inv)
    (h : con.freed = false) (hw : con.stream.wants = true) (hi : inv con.app)
    (hf : A.closing con.app = false → ∀ f, K.mayFault f) {w : World} (hs : PartSent w)
    (hcut : w.s.fd = -1 → cut) {events : BitVec 32} {n : Int}
    {post : Int → Con S → List (Event (Con S) Empty ConCall) → Prop}
    (hpost : ∀ r con', Leaves A inv cut con con' → post r con' l) :
    ((drained events n).inside (A.host A.recv)).wp K c ps post (con.setStream w) l := by
  have h₁ : (con.setStream w).freed = false := h
  have hsent : (con.setStream w).stream.s.vmt.sent = false := by
    show w.s.vmt.sent = false
    rw [hs.vmt]
    rfl
  have hrest :
      ((drainedRest events).inside (A.host A.recv)).wp K c ps post (con.setStream w) l := by
    unfold drainedRest
    rw [wp_inside_bind, wp_streamRead h₁]
    cases he : ioBufIsEmpty (con.setStream w).stream.s.out with
    | true =>
      have hdrop : Steady w.dropOut := hs.steady.drop he
      have h₂ : ((con.setStream w).setStream (con.setStream w).stream.dropOut).freed = false := h
      have hall : (con.setStream w).stream.dropOut.s.vmt.allSent = true := by
        show w.s.vmt.allSent = true
        rw [hs.vmt]
        rfl
      have hsentAll : w.dropOut.close.s.out = w.s.out := by
        rw [close_out]
        rfl
      have hnone : ioBufIsEmpty w.dropOut.close.s.out = false → cut := by
        rw [hsentAll]
        exact fun he' => by cases he.symm.trans he'
      rw [if_pos rfl, wp_inside_bind, wp_streamModify h₁, wp_inside_bind, wp_callIf_own h₂ hall]
      refine wp_allSent h₂ (fun hc => ?_) (fun _ hend => ?_) (fun hc hend => ?_)
      · have hnot : A.closing con.app = true → False := fun hc' => by cases hc.symm.trans hc'
        exact hpost 0 _ (.sent hw hdrop (fun hc' => (hnot hc').elim) (fun hc' => (hnot hc').elim)
          fun hc' => (hnot hc').elim)
      · exact hpost 0 _ (.sent hw hdrop.close.1 (fun _ => .inr hdrop.close.2) (fun _ _ _ => hend)
          fun _ _ => hnone)
      · exact hpost 0 _ (.freed hw hc hend rfl)
    | false =>
      exact wp_recvPart_inside hA h₁ hs.steady hi hf
        (hpost 0 _ (.sent hw hs.steady (fun _ => .inl hs.wants)
          (fun _ _ he' => by cases he.symm.trans he') fun _ hfd _ => hcut hfd))
        fun hc r con' h' hs' hi' => hpost r con' (.served hc h' hs' hi')
  unfold drained
  split
  · rw [wp_inside_bind, wp_callIf_none h₁ hsent]
    exact hrest
  · exact hrest

/-- `io_stream_event_handler`. -/
theorem wp_event_inside {inv : S → Prop} {cut : Prop} (hA : A.Lawful inv) (h : con.freed = false)
    (hs : Steady con.stream) (hopen : con.stream.s.fd ≠ -1) (hi : inv con.app)
    (hf : A.closing con.app = false → ∀ f, K.mayFault f)
    (hno : con.stream.wants = true → K.mayFault (.stream .noAnswer))
    (hcut : ∀ v script, K.ok v (.answer (.io .drain) script) → CutOff script → cut)
    {events : BitVec 32} {errno : Errno} (hev : has events POLLOUT = true → con.stream.wants = true)
    {post : Int → Con S → List (Event (Con S) Empty ConCall) → Prop}
    (hpost : ∀ r con', Leaves A inv cut con con' → post r con' l) :
    ((ioStreamEventHandler events errno).inside (A.host A.recv)).wp K c ps post con l := by
  unfold ioStreamEventHandler
  rw [wp_inside_bind, wp_streamRead h, hs.connected]
  by_cases hout : has events POLLOUT = true
  · have hw := hev hout
    obtain ⟨content, hholds⟩ := hs.holds
    rw [if_neg Bool.false_ne_true, if_pos hout, wp_inside_bind, wp_streamDrain]
    intro script hanswer
    rcases ioBufSend_ok hholds script with hnone | ⟨t, ht, hsends⟩
    · rw [hnone]
      exact hno hw
    · rw [ht]
      dsimp only
      obtain ⟨used, -, -, -, hafter, -⟩ := hsends.moved
      have hpart : PartSent ((con.stream.taken t.bytes).setOut t.mem) :=
        ⟨hs.connected, hs.vmt, ⟨_, hafter⟩, hw, hs.fd⟩
      have h₁ : (con.setStream ((con.stream.taken t.bytes).setOut t.mem)).freed = false := h
      split
      · exact hno hw
      next hall =>
      have hall' : t.script = [] := by simpa using hall
      rw [wp_inside_bind, wp_streamModify h]
      split
      · next hneg =>
        split
        · next hreset =>
          rw [wp_inside_bind, wp_streamModify h₁]
          exact wp_drained_inside hA h hw hi hf hpart.close
            (fun _ => hcut _ _ hanswer (cutOff_of_neg hsends hall' hneg hreset)) hpost
        · exact hpost (-1) _ (.sent hw hpart.steady (fun _ => .inl hpart.wants)
            (fun _ hfd => absurd hfd hopen) fun _ hfd => absurd hfd hopen)
      · exact wp_drained_inside hA h hw hi hf hpart (fun hfd => absurd hfd hopen) hpost
  · rw [if_neg Bool.false_ne_true, if_neg hout]
    exact wp_recvPart_inside hA h hs hi hf (hpost 0 con .same)
      fun hc r con' h' hs' hi' => hpost r con' (.served hc h' hs' hi')

/-- `io_ds_poll` frees what was closed, and looks at what was freed. -/
theorem wp_polled {inv : S → Prop} {cut : Prop} (hA : A.Lawful inv) (h : con.freed = false)
    (hs : Steady con.stream) (hfd : con.stream.s.fd ≠ -1) (hi : inv con.app)
    (hf : A.closing con.app = false → ∀ f, K.mayFault f)
    (hno : con.stream.wants = true → K.mayFault (.stream .noAnswer))
    (hcut : ∀ v script, K.ok v (.answer (.io .drain) script) → CutOff script → cut)
    {events : BitVec 32} {errno : Errno} (hev : has events POLLOUT = true → con.stream.wants = true)
    {post : Int → Con S → List (Event (Con S) Empty ConCall) → Prop}
    (hdead : ∀ con', Leaves A inv cut con con' → con'.freed = true → K.mayFault .useAfterFree)
    (hclosed : ∀ con', Leaves A inv cut con con' → con'.freed = false → con'.stream.s.fd = -1 →
      post 0 con'.free l)
    (hopen : ∀ con', Leaves A inv cut con con' → con'.freed = false → con'.stream.s.fd ≠ -1 →
      post 0 con' l) : (A.polled events errno).wp K c ps post con l := by
  unfold App.polled
  rw [wp_bind]
  refine wp_event_inside hA h hs hfd hi hf hno hcut hev fun r con' hl => ?_
  cases hfreed : con'.freed with
  | true =>
    unfold touch
    rw [wp_bind, wp_bind, wp_read, hfreed]
    exact hdead con' hl hfreed
  | false =>
    rw [wp_bind, wp_touch hfreed]
    split
    · next hfd => exact hclosed con' hl hfreed hfd
    · next hfd => exact hopen con' hl hfreed hfd

end

/-! ## §2 Runs -/

/-- The condition on a run: `poll` reports registered connections, and
`POLLOUT` where it is asked for; the greeting is not written in the state to
close in. -/
def conOk (A : App S F) (v : View (Con S) Empty ConCall) : Choice ConQuery ConAnswer ConCall → Prop
  | .enter .accept => v.st.freed = false ∧ A.closing v.st.app = false
  | .enter (.polled events _) =>
    v.st.freed = false ∧ (has events POLLOUT = true → v.st.stream.wants = true)
  | _ => True

instance (A : App S F) (v : View (Con S) Empty ConCall)
    (ch : Choice ConQuery ConAnswer ConCall) : Decidable (conOk A v ch) :=
  match ch with
  | .enter .accept => inferInstanceAs (Decidable (_ ∧ _))
  | .enter (.polled _ _) => inferInstanceAs (Decidable (_ ∧ (_ → _)))
  | .answer _ _ => .isTrue trivial
  | .back _ => .isTrue trivial

/-- An invariant of the connection, under that condition, in a run of these
choices. -/
def conContract (A : App S F) (choices : List (Choice ConQuery ConAnswer ConCall))
    (Inv : Con S → Prop) (mayFault : ConFault F → Prop) :
    Contract (Con S) ConQuery ConAnswer Empty (ConFault F) ConCall :=
  ⟨fun v ch => conOk A v ch ∧ ch ∈ choices, fun _ con _ => Inv con, mayFault⟩

/-- A connection that is registered, with an open descriptor. -/
structure Serving (inv : S → Prop) (con : Con S) : Prop where
  registered : con.freed = false
  steady : Steady con.stream
  open_ : 0 ≤ con.stream.s.fd
  app : inv con.app

theorem Serving.fd_ne {inv : S → Prop} {con : Con S} (h : Serving inv con) :
    con.stream.s.fd ≠ -1 := by
  have := h.open_
  omega

def Alive (inv : S → Prop) (con : Con S) : Prop := con.freed = true ∨ Serving inv con

/-- One of these answers cut the connection off. -/
def IsCutOff (choices : List (Choice ConQuery ConAnswer ConCall)) : Prop :=
  ∃ script, .answer (.io .drain) script ∈ choices ∧ CutOff script

/-- It waits for its last bytes to be sent, or to be cut off. A server that
frees the connection itself never gets to the end of the first. -/
def Draining (A : App S F) (choices : List (Choice ConQuery ConAnswer ConCall)) (inv : S → Prop)
    (con : Con S) : Prop :=
  (con.freed = true ∧ (ioBufIsEmpty con.stream.s.out = true → A.ending = .close) ∧
      (ioBufIsEmpty con.stream.s.out = false → IsCutOff choices)) ∨
    (Serving inv con ∧ A.closing con.app = true ∧ con.stream.wants = true)

section

variable {A : App S F} {inv : S → Prop} {choices : List (Choice ConQuery ConAnswer ConCall)}

theorem Leaves.serving {cut : Prop} {con con' : Con S} (hl : Leaves A inv cut con con')
    (hcon : Serving inv con) (h : con'.freed = false) (hfd : con'.stream.s.fd ≠ -1) :
    Serving inv con' := by
  cases hl with
  | same => exact hcon
  | served hc h hs hi => exact ⟨h, hs, hs.fd.resolve_right hfd, hi⟩
  | sent hw hs _ _ _ => exact ⟨h, hs, hs.fd.resolve_right hfd, hcon.app⟩
  | freed hw hc he h' => cases h.symm.trans h'

theorem alive_body (hA : A.Lawful inv) :
    (conContract A choices (Alive inv) fun _ => True).Body A.body := by
  intro ps c con l hinv hok
  cases c with
  | accept =>
    obtain ⟨⟨h, hc⟩, -⟩ := hok
    have hcon := hinv.resolve_left fun hfreed => Bool.false_ne_true (h.symm.trans hfreed)
    show ((A.outputs A.greeting) >>= _).wp _ _ _ _ _ _
    rw [wp_bind]
    refine wp_outputs h hc hcon.steady trivial hA.greeting fun w hw hfd =>
      .inr ⟨h, hw, ?_, hcon.app⟩
    exact hfd ▸ hcon.open_
  | polled events errno =>
    obtain ⟨⟨h, hev⟩, -⟩ := hok
    have hcon := hinv.resolve_left fun hfreed => Bool.false_ne_true (h.symm.trans hfreed)
    exact wp_polled hA h hcon.steady hcon.fd_ne hcon.app (fun _ _ => trivial)
      (fun _ => trivial) (fun _ _ _ _ => trivial) hev (fun _ _ _ => trivial)
      (fun _ _ _ _ => .inl rfl)
      fun con' (hl : Leaves A inv True con con') h' hfd => .inr (hl.serving hcon h' hfd)

/-- With nothing left to send, nothing happens any more. -/
theorem stuck_body (hA : A.Lawful inv) {con₀ : Con S} (hcon : Serving inv con₀)
    (hc : A.closing con₀.app = true) (hw : con₀.stream.wants = false) :
    (conContract A choices (· = con₀) fun _ => False).Body A.body := by
  rintro ps c con l rfl hok
  have hnot : A.closing con.app = false → False := fun hc' => by cases hc.symm.trans hc'
  cases c with
  | accept => exact (hnot hok.1.2).elim
  | polled events errno =>
    obtain ⟨⟨h, hev⟩, -⟩ := hok
    have hsame : ∀ con', Leaves A inv True con con' → con' = con := by
      intro con' hl
      cases hl with
      | same => rfl
      | served hc' => exact (hnot hc').elim
      | sent hw' => cases hw.symm.trans hw'
      | freed hw' => cases hw.symm.trans hw'
    refine wp_polled hA h hcon.steady hcon.fd_ne hcon.app (fun hc' => (hnot hc').elim)
      (fun hw' => by cases hw.symm.trans hw') (fun _ _ _ _ => trivial) hev ?_ ?_ ?_
    · intro con' hl h'
      rw [hsame con' hl] at h'
      cases h.symm.trans h'
    · intro con' hl _ hfd
      rw [hsame con' hl] at hfd
      exact absurd hfd hcon.fd_ne
    · exact fun con' hl _ _ => hsame con' hl

/-- How a run can go wrong from there on. -/
def DrainFault (A : App S F) (f : ConFault F) : Prop :=
  f = .stream .noAnswer ∨ (f = .useAfterFree ∧ A.ending = .free)

theorem draining_body (hA : A.Lawful inv) :
    (conContract A choices (Draining A choices inv) (DrainFault A)).Body A.body := by
  intro ps c con l hinv hok
  cases c with
  | accept =>
    obtain ⟨⟨h, hc⟩, -⟩ := hok
    obtain ⟨-, hc', -⟩ := hinv.resolve_left fun hfreed => by cases h.symm.trans hfreed.1
    cases hc.symm.trans hc'
  | polled events errno =>
    obtain ⟨⟨h, hev⟩, -⟩ := hok
    obtain ⟨hcon, hc, hw⟩ := hinv.resolve_left fun hfreed => by cases h.symm.trans hfreed.1
    have hnot : A.closing con.app = false → False := fun hc' => by cases hc.symm.trans hc'
    have hno : DrainFault A (.stream .noAnswer) := .inl rfl
    have hcut : ∀ v script, (conContract A choices (Draining A choices inv) (DrainFault A)).ok v
        (.answer (.io .drain) script) → CutOff script → IsCutOff choices :=
      fun v script hok h => ⟨script, hok.2, h⟩
    refine wp_polled hA h hcon.steady hcon.fd_ne hcon.app (fun hc' => (hnot hc').elim)
      (fun _ => hno) hcut hev ?_ ?_ ?_
    · intro con' hl h'
      cases hl with
      | same => cases h.symm.trans h'
      | served hc' => exact (hnot hc').elim
      | sent => cases h.symm.trans h'
      | freed _ _ he => exact .inr ⟨rfl, he⟩
    · intro con' hl h' hfd
      cases hl with
      | same => exact absurd hfd hcon.fd_ne
      | served hc' => exact (hnot hc').elim
      | sent _ _ _ hend hcutoff => exact .inl ⟨rfl, hend hc hfd, hcutoff hc hfd⟩
      | freed _ _ _ h'' => cases h'.symm.trans h''
    · intro con' hl h' hfd
      have hcon' := hl.serving hcon h' hfd
      cases hl with
      | same => exact .inr ⟨hcon, hc, hw⟩
      | served hc' => exact (hnot hc').elim
      | sent _ _ hmore _ _ => exact .inr ⟨hcon', hc, (hmore hc).resolve_right hfd⟩
      | freed _ _ _ h'' => cases h'.symm.trans h''

/-- The second is reached from the first by these choices. -/
def LaterBy (A : App S F) (choices : List (Choice ConQuery ConAnswer ConCall))
    (cfg cfg' : Config (Con S) ConQuery ConAnswer Empty (ConFault F) ConCall) : Prop :=
  Meets A.body (conOk A) cfg choices ∧ run A.body cfg choices = some cfg'

def Later (A : App S F) (cfg cfg' : Config (Con S) ConQuery ConAnswer Empty (ConFault F) ConCall) :
    Prop :=
  ∃ choices, LaterBy A choices cfg cfg'

/-- The connection is registered, and to be closed. -/
structure ToClose (A : App S F)
    (cfg : Config (Con S) ConQuery ConAnswer Empty (ConFault F) ConCall) : Prop where
  owner : cfg.ctl = .owner
  registered : cfg.st.freed = false
  closing : A.closing cfg.st.app = true

/-- What becomes of the connections of a server that are to be closed. -/
structure ClosesLate (A : App S F) (start : Con S) : Prop where
  stuck : ∀ cfg, Later A (.start start) cfg → ToClose A cfg → cfg.st.stream.wants = false →
    ioBufIsEmpty cfg.st.stream.s.out = true ∧ ∀ cfg', Later A cfg cfg' →
      (∀ f, cfg'.ctl ≠ .faulted f) ∧ (cfg'.ctl = .owner → cfg'.st = cfg.st)
  draining : ∀ cfg, Later A (.start start) cfg → ToClose A cfg → cfg.st.stream.wants = true →
    ∀ choices cfg', LaterBy A choices cfg cfg' →
      (∀ f, cfg'.ctl = .faulted f → DrainFault A f) ∧
      (cfg'.ctl = .owner → cfg'.st.freed = true →
        (ioBufIsEmpty cfg'.st.stream.s.out = true → A.ending = .close) ∧
        (ioBufIsEmpty cfg'.st.stream.s.out = false → IsCutOff choices)) ∧
      (cfg'.ctl = .owner → cfg'.st.freed = false →
        A.closing cfg'.st.app = true ∧ cfg'.st.stream.wants = true)

theorem LaterBy.safe {Inv : Con S → Prop} {mayFault : ConFault F → Prop}
    (hb : (conContract A choices Inv mayFault).Body A.body)
    {cfg cfg' : Config (Con S) ConQuery ConAnswer Empty (ConFault F) ConCall}
    (howner : cfg.ctl = .owner) (hinv : Inv cfg.st) (hlater : LaterBy A choices cfg cfg') :
    cfg'.Safe (conContract A choices Inv mayFault) := by
  obtain ⟨hm, hrun⟩ := hlater
  have hsafe : cfg.Safe (conContract A choices Inv mayFault) :=
    ⟨stackOk_closed _, by rw [howner]; exact hinv⟩
  exact run_safe _ hb hsafe (hm.mem (List.Subset.refl choices)) hrun

/-- From the three invariants, each from where it begins to hold. -/
theorem closesLate (hA : A.Lawful inv) {start : Con S} (hstart : Serving inv start) :
    ClosesLate A start := by
  have hserving : ∀ cfg, Later A (.start start) cfg → ToClose A cfg → Serving inv cfg.st := by
    intro cfg hlater hcfg
    obtain ⟨choices, hlater⟩ := hlater
    obtain ⟨-, hctl⟩ := hlater.safe (alive_body hA) rfl (.inr hstart)
    rw [hcfg.owner] at hctl
    exact hctl.resolve_left fun hfreed => by cases hcfg.registered.symm.trans hfreed
  constructor
  · intro cfg hreached hcfg hw
    have hcon := hserving cfg hreached hcfg
    have hsent : ioBufIsEmpty cfg.st.stream.s.out = true := by
      cases he : ioBufIsEmpty cfg.st.stream.s.out with
      | true => rfl
      | false => cases hw.symm.trans (hcon.steady.polls he)
    refine ⟨hsent, fun cfg' hlater => ?_⟩
    obtain ⟨choices, hlater⟩ := hlater
    obtain ⟨-, hctl⟩ := hlater.safe (stuck_body hA hcon hcfg.closing hw) hcfg.owner rfl
    constructor
    · intro f hf
      rw [hf] at hctl
      exact hctl
    · intro howner
      rw [howner] at hctl
      exact hctl
  · intro cfg hreached hcfg hw choices cfg' hlater
    have hcon := hserving cfg hreached hcfg
    obtain ⟨-, hctl⟩ := hlater.safe (draining_body hA) hcfg.owner
      (.inr ⟨hcon, hcfg.closing, hw⟩)
    refine ⟨fun f hf => ?_, fun howner hfreed => ?_, fun howner hfreed => ?_⟩
    · rw [hf] at hctl
      exact hctl
    · rw [howner] at hctl
      rcases hctl with ⟨-, hend, hcut⟩ | ⟨hs, hc, hw'⟩
      · exact ⟨hend, hcut⟩
      · cases hfreed.symm.trans hs.registered
    · rw [howner] at hctl
      rcases hctl with ⟨hf, -⟩ | ⟨-, hc, hw'⟩
      · cases hfreed.symm.trans hf
      · exact ⟨hc, hw'⟩

end

/-! ## §3 The servers -/

theorem okReply_ne_nil (cmd : Text) : okReply cmd ≠ [] := by simp [okReply, lit]

/-- A command is answered by some text. -/
theorem processRequest_written (c : PortCon) : ∃ text, text ≠ [] ∧
    (portConProcessRequest c).2.written = c.written ++ [text] := by
  unfold portConProcessRequest
  dsimp only
  split
  · refine ⟨goodbye, by decide, ?_⟩
    split <;> rfl
  · refine ⟨okReply (cstr (c.cmd.set (c.next - 2) 0)), okReply_ne_nil _, ?_⟩
    split <;> rfl

theorem vPortConRecv_written {c c' : PortCon} {bytes : List UInt8} {r : Int}
    (h : vPortConRecv c (.ok bytes) = .ok (r, c')) :
    ∃ texts, (∀ text ∈ texts, text ≠ []) ∧ c'.written = c.written ++ texts := by
  have hnone : ∃ texts, (∀ text ∈ texts, text ≠ []) ∧ c.written = c.written ++ texts :=
    ⟨[], by simp, by simp⟩
  unfold vPortConRecv at h
  split at h
  · dsimp only at h
    split at h
    · cases h
    split at h
    · obtain ⟨-, rfl⟩ := Prod.mk.inj (Except.ok.inj h)
      have hclose : c.close.written = c.written := by
        unfold PortCon.close
        split <;> rfl
      rwa [hclose]
    · split at h
      · obtain ⟨-, rfl⟩ := Prod.mk.inj (Except.ok.inj h)
        exact hnone
      · obtain ⟨-, rfl⟩ := Prod.mk.inj (Except.ok.inj h)
        obtain ⟨text, hne, hw⟩ := processRequest_written
          { c with
            cmd := overwrite c.cmd c.end (bytes ++ [0])
            «end» := c.end + bytes.length
            next := _ }
        exact ⟨[text], by simpa using hne, hw⟩
  · obtain ⟨-, rfl⟩ := Prod.mk.inj (Except.ok.inj h)
    exact hnone

theorem portApp_lawful : portApp.Lawful fun _ => True where
  exclusive c h := by
    have hstate : c.state = .FTP_RECV_CMD := by simpa [portApp] using h
    simp [portApp, hstate]
  serve c bytes r os c' _ h := by
    obtain ⟨⟨r', c₁⟩, hcall, hpure⟩ := except_bind_eq_ok.mp h
    obtain ⟨rfl, rfl, rfl⟩ : r' = r ∧ (c₁.written.drop c.written.length).map Output.writef = os ∧
      c₁ = c' := by simpa using Except.ok.inj hpure
    obtain ⟨texts, hne, hw⟩ := vPortConRecv_written hcall
    refine ⟨trivial, fun o ho => ?_⟩
    obtain ⟨text, htext, rfl⟩ := List.mem_map.mp ho
    rw [hw, List.drop_left] at htext
    exact hne text htext
  greeting o ho := by
    obtain rfl := List.mem_singleton.mp ho
    show welcome ≠ []
    decide

/-- The two HTTP servers write a head, and maybe the text. -/
theorem newOutputs_nonempty {fields : Option Text → List Http.Field} {good : Http.Response → Prop}
    (hgood : ∀ r, good r → r.text ≠ some []) {c c' : Http.HttpCon S}
    (h : Http.Answered good c') : ∀ o ∈ newOutputs fields c c', o.Nonempty := by
  intro o ho
  obtain ⟨r, hr, ho⟩ := List.mem_flatMap.mp ho
  have hr' := hgood r (h.written r (List.mem_of_mem_drop hr))
  rcases List.mem_cons.mp ho with rfl | ho
  · show Http.responseHead _ _ _ ≠ []
    simp [Http.responseHead, Http.statusLine, Http.httpSlash, lit]
  · obtain ⟨text, htext, rfl⟩ : ∃ text, r.text = some text ∧ Output.write text = o := by
      simpa using ho
    rintro rfl
    exact hr' htext

theorem httpApp_lawful (o : Map.ArgOrder) : (httpApp o).Lawful (Http.Answered Http.HttpAnswer) where
  exclusive c h := by
    have hstate : c.state = .ST_RECV_HEADER := by simpa [httpApp] using h
    simp [httpApp, hstate]
  serve c bytes r os c' hc h := by
    obtain ⟨⟨r', c₁⟩, hcall, hpure⟩ := except_bind_eq_ok.mp h
    obtain ⟨rfl, rfl, rfl⟩ : r' = r ∧ newOutputs Http.httpFields c c₁ = os ∧ c₁ = c' := by
      simpa using Except.ok.inj hpure
    have hc₁ := Http.conRecv_answered (Http.httpConServe_answered o) hc _ hcall
    refine ⟨hc₁, newOutputs_nonempty (fun r hr => ?_) hc₁⟩
    cases hr <;> simp [Http.helloText, lit]
  greeting o ho := by cases ho

theorem proxyApp_lawful (o : Map.ArgOrder) :
    (proxyApp o).Lawful (Http.Answered Http.ProxyAnswer) where
  exclusive c h := by
    have hstate : c.state = .ST_RECV_HEADER := by simpa [proxyApp] using h
    simp [proxyApp, hstate]
  serve c bytes r os c' hc h := by
    obtain ⟨⟨r', c₁⟩, hcall, hpure⟩ := except_bind_eq_ok.mp h
    obtain ⟨rfl, rfl, rfl⟩ : r' = r ∧ newOutputs (fun _ => Http.proxyFields) c c₁ = os ∧
      c₁ = c' := by simpa using Except.ok.inj hpure
    have hc₁ := Http.conRecv_answered (Http.proxyServe_answered o) hc _ hcall
    refine ⟨hc₁, newOutputs_nonempty (fun r hr => ?_) hc₁⟩
    cases hr <;> simp
  greeting o ho := by cases ho

theorem serving_accepted {inv : S → Prop} {fd : Int} (hfd : 0 ≤ fd) {s : S} (hs : inv s) :
    Serving inv (Con.accepted fd s) :=
  ⟨rfl, steady_opened hfd, hfd, hs⟩

/-- `QUIT`, where the kernel takes both answers at once. -/
def quitAtOnce : List (Choice ConQuery ConAnswer ConCall) :=
  [.enter .accept, .answer .stack fun _ => 0, .answer (.io (.send welcome)) (.ok 30),
    .enter (.polled POLLIN .EAGAIN), .answer (.recv 7999) (.ok (QUIT ++ Http.crlf)),
    .answer .stack fun _ => 0, .answer (.io (.send goodbye)) (.ok 14)]

/-- Who is in control, whether the connection was freed, whether it is to be
closed and whether `POLLOUT` is asked for. -/
def seen (A : App S F) (cfg : Config (Con S) ConQuery ConAnswer Empty (ConFault F) ConCall) :
    Bool × Bool × Bool × Bool :=
  (match cfg.ctl with
    | .owner => true
    | _ => false,
    cfg.st.freed, A.closing cfg.st.app, cfg.st.stream.wants)

/-- A request to the proxy, where five bytes of the answer are taken at once
and the rest later. -/
def answerWaits : List (Choice ConQuery ConAnswer ConCall) :=
  let answer := Http.responseHead 257 204 Http.proxyFields
  [.enter (.polled POLLIN .EAGAIN),
    .answer (.recv 7999) (.ok (lit "GET / HTTP/1.1\r\nA: b\r\n\r\n".toList)),
    .answer .stack fun _ => 0, .answer (.io (.send answer)) (.ok 5),
    .enter (.polled POLLOUT .EAGAIN), .answer (.io .drain) [.ok (answer.length - 5)]]

example : (run (proxyApp .leftFirst).body
    (.start (.accepted 4 (Http.accepted 4 .ST_RECV_HEADER))) answerWaits).map
      (fun cfg => match cfg.ctl with
        | .faulted .useAfterFree => true
        | _ => false) = some true := by
  decide +kernel

end Nanio.Server
