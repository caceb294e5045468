/-
Nanio.Stream.SentCount — progress is reported as it is made.

`sent` is called with the bytes of a direct `send` and with the bytes of a
drain. At every call, and whenever the owner is in control, the sizes
reported so far add up to what the kernel has accepted (`Counted`). The
condition leaves out a drain that fails: what it has sent before the error
is never reported, and after ECONNRESET, ENOTCONN or EPIPE the -1 itself
is (`drain_reset_counts`).
-/
import Nanio.Stream.StreamRules

namespace Nanio.Stream

open Nanio.Lib Nanio.Buf

/-! ## §1 The contract -/

/-- The bytes an event reports. -/
def reported : Event World Method Call → Nat
  | .call (.sent size _) _ => size
  | _ => 0

def total (l : Log) : Nat := (l.map reported).sum

/-- At every call of `sent`, the sizes reported up to it are what the kernel
has accepted: the call reports what was accepted since the one before. -/
def Counted (l : Log) : Prop :=
  ∀ l₁ size site w l₂, l = l₁ ++ .call (.sent size site) w :: l₂ → total l₁ + size = w.wire.length

/-- The condition: the stream has a `sent` method and is connected once at
most; the kernel takes less than 2^32 bytes at a time and less than 2^31 in
a drain; a drain does not fail, or it fails before it has sent anything and
not with one of the errors that close the stream. -/
def sentOk (v : View World Method Call) : Choice Query Answer Call → Prop
  | .enter (.connect _ vmt _) => v.log = [] ∧ (vmt.getD ioStreamVmt).sent = true
  | .enter _ => True
  | .answer (.send _) a => ∀ n, a = .ok n → n < 2 ^ 32
  | .answer .drain script =>
    accepted script < 2 ^ 31 ∧
      ∀ e, .err e ∈ script → e = .EINTR ∨ (accepted script = 0 ∧ isReset e = false)
  | .answer _ _ => True
  | .back _ => True

structure Reporting (w : World) (l : Log) : Prop where
  buf : ∃ content, Holds w.s.out content
  present : w.s.vmt.sent = true
  total_eq : total l = w.wire.length
  counted : Counted l

def sentContract : StreamContract where
  ok := sentOk
  Inv _ := Reporting
  mayFault f := f = .noAnswer

@[simp] theorem total_append (l l' : Log) : total (l ++ l') = total l + total l' := by simp [total]

/-- An event that reports nothing. -/
theorem Counted.other {l : Log} (h : Counted l) {e : Event World Method Call}
    (he : ∀ size site w, e ≠ .call (.sent size site) w) : Counted (l ++ [e]) := by
  intro l₁ size site w l₂ hsplit
  rcases snoc_split hsplit with ⟨-, hlast⟩ | ⟨l₃, hl⟩
  · exact absurd hlast.symm (he size site w)
  · exact h l₁ size site w l₃ hl

theorem Counted.sent {l : Log} (h : Counted l) {size : Nat} {site : Site} {w : World}
    (hw : total l + size = w.wire.length) : Counted (l ++ [.call (.sent size site) w]) := by
  intro l₁ size' site' w' l₂ hsplit
  rcases snoc_split hsplit with ⟨hl, hlast⟩ | ⟨l₃, hl⟩
  · cases hlast
    rw [hl]
    exact hw
  · exact h l₁ size' site' w' l₃ hl

section Calls

variable {c : Call} {ps : List (Pending World Method Call)} {post : Int → World → Log → Prop}
  {w w' : World} {l : Log}

theorem Reporting.congr (h : Reporting w l) (hbuf : ∃ content, Holds w'.s.out content)
    (hv : w'.s.vmt = w.s.vmt) (hwire : w'.wire = w.wire) : Reporting w' l :=
  ⟨hbuf, hv ▸ h.present, hwire ▸ h.total_eq, h.counted⟩

theorem Reporting.other (h : Reporting w l) {e : Event World Method Call}
    (he : ∀ size site w, e ≠ .call (.sent size site) w) : Reporting w (l ++ [e]) := by
  have hzero : reported e = 0 := by
    cases e with
    | leave => rfl
    | call m w' =>
      cases m with
      | sent size site => exact absurd rfl (he size site w')
      | _ => rfl
  refine ⟨h.buf, h.present, ?_, h.counted.other he⟩
  rw [total_append, h.total_eq]
  simp [total, hzero]

theorem Reporting.close (h : Reporting w l) : Reporting w.close l :=
  h.congr (by simpa using h.buf) (close_vmt w) (close_wire w)

/-! ## §2 The calls -/

/-- A method other than `sent`. -/
theorem count_callsIf {present : Bool} {m : Method} {next : World → Log → Prop}
    (h : Reporting w l) (hm : ∀ size site, m ≠ .sent size site)
    (hnext : ∀ w l, Reporting w l → next w l) : CallsIf sentContract ps present m next w l := by
  refine ⟨fun _ => ⟨h.other ?_, fun _ w' l' hi _ => hnext w' l' hi⟩, fun _ => hnext w l h⟩
  intro size site w' he
  cases he
  exact hm size site rfl

/-- `size` more bytes are on the wire, and `sent` reports them. -/
theorem count_sent {size : Nat} {site : Site} {next : World → Log → Prop} {b : Bool}
    (hbuf : ∃ content, Holds w.s.out content) (hv : w.s.vmt.sent = true)
    (htotal : total l + size = w.wire.length) (hl : Counted l) (hb : b = false → size = 0)
    (hnext : ∀ w l, Reporting w l → next w l) :
    CallsIf sentContract ps (b && w.s.vmt.sent) (.sent size site) next w l := by
  refine ⟨fun _ => ⟨⟨hbuf, hv, ?_, hl.sent htotal⟩, fun _ w' l' hi _ => hnext w' l' hi⟩,
    fun hno => ?_⟩
  · rw [total_append, ← htotal]
    simp [total, reported]
  · rw [hv, Bool.and_true] at hno
    have hsize := hb hno
    exact hnext w l ⟨hbuf, hv, by omega, hl⟩

theorem count_writeRest {dt : List UInt8} {sent : Nat} (h : Reporting w l)
    (hpost : ∀ v w l, Reporting w l → post v w l) :
    (writeRest dt sent).wp sentContract c ps post w l := by
  obtain ⟨content, hh⟩ := h.buf
  apply wp_writeRest hh
  · intro _
    exact count_callsIf (h.congr h.buf rfl rfl) (fun _ _ he => by cases he) (hpost 0)
  · intro out _ hout
    exact hpost _ _ _ (h.congr ⟨_, hout⟩ rfl rfl)

theorem count_write {data : List UInt8} (h : Reporting w l)
    (hpost : ∀ v w l, Reporting w l → post v w l) :
    (ioStreamWrite data).wp sentContract c ps post w l := by
  obtain ⟨content, hh⟩ := h.buf
  apply wp_ioStreamWrite hh rfl
  · exact fun _ => hpost _ _ _ h
  · exact fun _ => hpost _ _ _ h
  · intro n _ _ _ hn hok
    have hsize : toUnsigned n = n := toUnsigned_natCast (hok n rfl)
    apply count_sent (w := w.taken (data.take n)) h.buf h.present _ h.counted
    · intro hb
      have hn0 : n = 0 := by simpa using hb
      rw [hsize, hn0]
    · exact fun w' l' hi => count_writeRest hi hpost
    · rw [hsize, h.total_eq, taken_wire, List.length_append, List.length_take]
      omega
  · exact fun _ _ => count_writeRest h hpost

theorem count_connected (h : Reporting w l) (hpost : ∀ v w l, Reporting w l → post v w l) :
    ioStreamConnected.wp sentContract c ps post w l := by
  apply wp_ioStreamConnected
  · exact fun _ _ => hpost _ _ _ h
  · intro sa _
    have h' : Reporting (w.setPeer sa) l :=
      h.congr (by simpa using h.buf) (setPeer_vmt w sa) (setPeer_wire w sa)
    apply count_callsIf h' (fun _ _ he => by cases he)
    intro w' l' hi
    exact wp_connectedRest (fun _ => hpost _ _ _ (hi.congr hi.buf rfl rfl)) fun _ => hpost _ _ _ hi

theorem count_recvPart {events : BitVec 32} (h : Reporting w l)
    (hpost : ∀ v w l, Reporting w l → post v w l) :
    (recvPart events).wp sentContract c ps post w l := by
  apply wp_recvPart
  · intro _
    refine ⟨h.other fun _ _ _ he => (by cases he), fun r w' l' hi _ => ?_⟩
    have hi' : Reporting w' l' := hi
    exact ⟨fun _ => hpost _ _ _ hi'.close, fun _ => hpost _ _ _ hi'⟩
  · exact fun _ => hpost _ _ _ h

theorem count_drainedRest {events : BitVec 32} (h : Reporting w l)
    (hpost : ∀ v w l, Reporting w l → post v w l) :
    (drainedRest events).wp sentContract c ps post w l := by
  apply wp_drainedRest
  · intro _
    exact count_callsIf (h.congr h.buf rfl rfl) (fun _ _ he => by cases he) (hpost 0)
  · exact fun _ => count_recvPart h hpost

theorem count_event {events : BitVec 32} {errno : Errno} (h : Reporting w l)
    (hpost : ∀ v w l, Reporting w l → post v w l) :
    (ioStreamEventHandler events errno).wp sentContract c ps post w l := by
  obtain ⟨content, hh⟩ := h.buf
  apply wp_ioStreamEventHandler hh rfl
  · intro _
    apply wp_ioStreamConnecting (hpost _ _ _ h.close)
    intro _
    exact count_connected (h.congr h.buf rfl rfl) hpost
  · intro script t _ hok ht hs
    obtain ⟨hlen, herrs⟩ := hok
    obtain ⟨used, -, -, -, hh', -⟩ := ht.moved
    obtain ⟨hbytes, hret⟩ := sendsTo_ret ht hs hlen
    rcases hret with ⟨he, hret⟩ | ⟨e, he, hret, hne, hmem⟩
    · refine ⟨fun hneg => by omega, fun hneg => by omega, fun _ => wp_drained ?_⟩
      have hsize : toUnsigned t.ret = accepted script := by
        rw [hret]
        exact toUnsigned_natCast (by omega)
      refine count_sent ⟨_, hh'⟩ h.present ?_ h.counted ?_ fun w' l' hi =>
        count_drainedRest hi hpost
      · rw [hsize, h.total_eq, setOut_wire, taken_wire, List.length_append, hbytes]
      · intro hb
        have hret0 : t.ret = 0 := by simpa using hb
        omega
    · -- the drain failed before it sent anything, and the handler returns
      obtain ⟨hzero, hreset⟩ := (herrs e hmem).resolve_left hne
      have hnil : t.bytes = [] := List.length_eq_zero_iff.mp (hbytes.trans hzero)
      refine ⟨fun _ hr => ?_, fun _ _ => ?_, fun hpos => by omega⟩
      · rw [he, Option.getD_some, hreset] at hr
        cases hr
      · exact hpost _ _ _ (h.congr ⟨_, hh'⟩ rfl (by simp [hnil]))
  · exact fun _ => count_recvPart h hpost

theorem count_connect {sa : IoSockAddr} {vmt : Option StreamVmt} {errno : Errno}
    (h : Reporting w []) (hv : (vmt.getD ioStreamVmt).sent = true)
    (hpost : ∀ v w l, Reporting w l → post v w l) :
    (ioStreamConnect sa vmt errno).wp sentContract c ps post w [] := by
  have hnew : ∀ fd inProgress,
      Reporting (w.connect fd sa (vmt.getD ioStreamVmt) inProgress) [] := fun fd inProgress =>
    ⟨⟨[], connect_holds w fd sa _ inProgress⟩, hv, rfl, h.counted⟩
  apply wp_ioStreamConnect
  · exact hpost _ _ _ h
  · exact fun fd _ => hpost _ _ _ (hnew fd true)
  · exact fun fd _ => count_connected (hnew fd false) fun _ => hpost 1

end Calls

theorem count_body : sentContract.Body body := by
  intro ps c w l hinv hok
  have hpost : ∀ v w' l', Reporting w' l' → sentContract.Post c w ps v w' l' :=
    fun v w' l' h => h.other fun _ _ _ he => by cases he
  cases c with
  | connect sa vmt errno =>
    obtain ⟨hl, hv⟩ := hok
    obtain rfl : l = [] := hl
    exact count_connect hinv hv hpost
  | write data => exact count_write hinv hpost
  | event events errno => exact count_event hinv hpost
  | close => exact hpost 0 w.close l (Reporting.close hinv)

/-! ## §3 Every run -/

/-- **The sizes reported are the bytes accepted**, in every state of a run
whose steps meet the condition, and at every single report. -/
theorem sent_counts {w : World} {content : List UInt8} (hout : Holds w.s.out content)
    (hv : w.s.vmt.sent = true) (hwire : w.wire = []) {choices : List (Choice Query Answer Call)}
    (hm : Meets body sentOk (.start w) choices)
    {cfg : Config World Query Answer Method Fault Call}
    (hrun : run body (.start w) choices = some cfg) (hctl : cfg.ctl = .owner) :
    total cfg.log = cfg.st.wire.length ∧ Counted cfg.log := by
  have h0 : Reporting w [] := by
    refine ⟨⟨content, hout⟩, hv, by rw [hwire]; rfl, ?_⟩
    intro l₁ size site w' l₂ he
    simp at he
  have hinv : Reporting cfg.st cfg.log := run_inv sentContract count_body h0 hm hrun hctl
  exact ⟨hinv.total_eq, hinv.counted⟩

/-- A byte goes out directly, the next at an event, after an interruption. -/
def twoBytes : List (Choice Query Answer Call) :=
  [.enter (.write [1, 2]), .answer (.send [1, 2]) (.ok 1), .back 0,
    .enter (.event POLLOUT .EAGAIN), .answer .drain [.err .EINTR, .ok 1], .back 0, .back 0]

theorem sent_counts_twoBytes :
    ∃ cfg, run body (.start (.opened 5 ⟨true, true, true, true⟩ false)) twoBytes = some cfg ∧
      total cfg.log = cfg.st.wire.length ∧ Counted cfg.log := by
  have hdrain : ∀ e, .err e ∈ [SysResult.err .EINTR, SysResult.ok 1] →
      e = .EINTR ∨ (accepted [.err .EINTR, .ok 1] = 0 ∧ isReset e = false) := by
    intro e he
    left
    simpa using he
  have hm : Meets body sentOk (.start (.opened 5 ⟨true, true, true, true⟩ false)) twoBytes :=
    meets_cons trivial rfl <| meets_cons (fun n hn => by cases hn; decide) rfl <|
      meets_cons trivial rfl <| meets_cons trivial rfl <| meets_cons ⟨by decide, hdrain⟩ rfl <|
      meets_cons trivial rfl <| meets_cons trivial rfl meets_nil
  exact ⟨_, rfl, sent_counts (opened_holds _ _ _) rfl rfl hm rfl rfl⟩

/-- A byte goes out, then the connection is gone. -/
def brokenPipe : List (Choice Query Answer Call) :=
  [.enter (.write [1, 2]), .answer (.send [1, 2]) (.ok 1), .back 0,
    .enter (.event POLLOUT .EAGAIN), .answer .drain [.err .EPIPE]]

/-- One byte was accepted, and 4294967296 are reported. -/
theorem drain_reset_counts :
    ∃ cfg, run body (.start (.opened 5 ⟨true, true, true, true⟩ false)) brokenPipe = some cfg ∧
      cfg.ctl = .owner ∧ cfg.st.wire.length = 1 ∧ total cfg.log = 4294967296 := by
  exact ⟨_, rfl, rfl, rfl, rfl⟩

end Nanio.Stream
