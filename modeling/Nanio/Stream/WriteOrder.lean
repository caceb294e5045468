/-
Nanio.Stream.WriteOrder — what a stream is for: the bytes written to it
reach the kernel, all of them, once, and in order.

The invariant (`Ordered`) is that the bytes the kernel has taken, followed
by the bytes of the out buffer, are the data of the writes made so far. A
write in progress breaks it until it returns, so it is claimed where no
callback is pending, and a callback that is pending promises only that its
owner has not touched the stream (`orderContract`).
-/
import Nanio.Stream.StreamRules

namespace Nanio.Stream

open Nanio.Lib Nanio.Buf

/-! ## §1 The contract -/

/-- The data of a write on the open stream that returned a non-negative
value. -/
def written : Event World Method Call → List UInt8
  | .leave (.write data) entry _ v => if entry.s.fd ≠ -1 ∧ 0 ≤ v then data else []
  | _ => []

/-- Writes that fit an `int`, events and closing, none of them from inside
a method. -/
def orderOk (v : View World Method Call) : Choice Query Answer Call → Prop
  | .enter (.write data) => v.pending = [] ∧ data.length < 2 ^ 31
  | .enter (.connect _ _ _) => False
  | .enter _ => v.pending = []
  | .answer _ _ => True
  | .back _ => True

/-- While the stream is open, nothing written is lost, doubled or moved. -/
def Ordered (w : World) (l : Log) : Prop :=
  ∃ content, Holds w.s.out content ∧ (w.s.fd ≠ -1 → w.wire ++ content = l.flatMap written)

def orderContract : StreamContract where
  ok := orderOk
  Inv ps w l :=
    match ps with
    | [] => Ordered w l
    | p :: _ => w = p.st ∧ l = p.log
  mayFault f := f = .noAnswer

/-- A method that is called changes neither the stream nor what was written. -/
theorem order_callsIf {ps : List (Pending World Method Call)} {present : Bool} {m : Method}
    {next : World → Log → Prop} {w : World} {l : Log}
    (h : ∀ l', l'.flatMap written = l.flatMap written → next w l') :
    CallsIf orderContract ps present m next w l := by
  refine ⟨fun _ => ⟨⟨rfl, rfl⟩, fun r w' l' hi _ => ?_⟩, fun _ => h l rfl⟩
  obtain ⟨rfl, rfl⟩ := hi
  exact h _ (by simp [written])

/-- `Ordered` only looks at the buffer, the wire, and whether the stream is
open. -/
theorem Ordered.congr {w w' : World} {l l' : Log} (h : Ordered w l) (hout : w'.s.out = w.s.out)
    (hwire : w'.wire = w.wire) (hfd : w'.s.fd ≠ -1 → w.s.fd ≠ -1)
    (hl : l'.flatMap written = l.flatMap written) : Ordered w' l' := by
  obtain ⟨content, hh, heq⟩ := h
  exact ⟨content, hout ▸ hh, fun ho => by rw [hwire, hl, heq (hfd ho)]⟩

theorem Ordered.close {w : World} {l : Log} (h : Ordered w l) : Ordered w.close l :=
  h.congr (close_out w) (close_wire w) open_of_close rfl

/-! ## §2 The calls -/

theorem order_writeRest {entry w : World} {l : Log} {content data dt : List UInt8} {sent : Nat}
    (hh : Holds w.s.out content) (hopen : entry.s.fd ≠ -1)
    (heq : w.wire ++ content ++ dt = l.flatMap written ++ data) (hlen : dt.length + sent < 2 ^ 31) :
    (writeRest dt sent).wp orderContract (.write data) []
      (orderContract.Post (.write data) entry []) w l := by
  apply wp_writeRest hh
  · intro hdt
    subst hdt
    apply order_callsIf
    intro l' hl
    refine ⟨content, hh, fun _ => ?_⟩
    rw [List.append_nil] at heq
    rw [dropOut_wire, heq, List.flatMap_append, hl]
    simp [written, hopen]
  · intro out _ hout
    have hv : (0 : Int) ≤ toInt (dt.length + sent) := by
      rw [toInt_of_lt (by omega) (by omega)]
      omega
    refine ⟨content ++ dt, hout, fun _ => ?_⟩
    rw [setOut_wire, wantOut_wire, ← List.append_assoc, heq, List.flatMap_append]
    simp [written, hopen, hv]

theorem order_write {w : World} {l : Log} {data : List UInt8} (hw : Ordered w l)
    (hlen : data.length < 2 ^ 31) :
    (ioStreamWrite data).wp orderContract (.write data) []
      (orderContract.Post (.write data) w []) w l := by
  obtain ⟨content, hh, heq⟩ := hw
  apply wp_ioStreamWrite hh rfl
  · intro hclosed
    exact ⟨content, hh, fun ho => absurd hclosed ho⟩
  · intro hopen
    refine ⟨content, hh, fun _ => ?_⟩
    rw [heq hopen, List.flatMap_append]
    simp [written]
  · intro n hopen _ hnil hn _
    apply order_callsIf
    intro l' hl
    refine order_writeRest (by simpa [hnil] using hh) hopen ?_ (by rw [List.length_drop]; omega)
    have hwire : w.wire = l.flatMap written := by
      have h := heq hopen
      rwa [hnil, List.append_nil] at h
    rw [taken_wire, hl, List.append_nil, List.append_assoc, List.take_append_drop, hwire]
  · intro hopen _
    refine order_writeRest hh hopen ?_ (by omega)
    rw [heq hopen]

/-- Where an event handler may stop. -/
theorem order_post {entry w : World} {l : Log} {events : BitVec 32} {errno : Errno} (v : Int)
    (hw : Ordered w l) : orderContract.Post (.event events errno) entry [] v w l :=
  hw.congr rfl rfl id (by simp [written])

theorem order_recvPart {entry w : World} {l : Log} {revents events : BitVec 32} {errno : Errno}
    (hw : Ordered w l) :
    (recvPart revents).wp orderContract (.event events errno) []
      (orderContract.Post (.event events errno) entry []) w l := by
  apply wp_recvPart
  · intro _
    refine ⟨⟨rfl, rfl⟩, fun r w' l' hi _ => ?_⟩
    obtain ⟨hw', hl'⟩ := hi
    subst hw' hl'
    have hw'' : Ordered w' (l ++ [.call .recv w']) := hw.congr rfl rfl id (by simp [written])
    exact ⟨fun _ => order_post _ hw''.close, fun _ => order_post _ hw''⟩
  · intro _
    exact order_post _ hw

theorem order_drained {entry w : World} {l : Log} {revents events : BitVec 32} {errno : Errno}
    {sent : Int} (hw : Ordered w l) :
    (drained revents sent).wp orderContract (.event events errno) []
      (orderContract.Post (.event events errno) entry []) w l := by
  apply wp_drained
  apply order_callsIf
  intro l' hl
  have hw' : Ordered w l' := hw.congr rfl rfl id hl
  apply wp_drainedRest
  · intro _
    apply order_callsIf
    intro l'' hl'
    exact order_post _ (hw'.congr rfl rfl id hl')
  · intro _
    exact order_recvPart hw'

theorem order_connecting {entry w : World} {l : Log} {events : BitVec 32} {errno : Errno}
    (hw : Ordered w l) :
    ioStreamConnecting.wp orderContract (.event events errno) []
      (orderContract.Post (.event events errno) entry []) w l := by
  apply wp_ioStreamConnecting
  · exact order_post _ hw.close
  · intro _
    have hw₁ : Ordered w.setConnected l := hw.congr rfl rfl id rfl
    apply wp_ioStreamConnected
    · intro e _
      exact order_post _ hw₁
    · intro sa _
      have hw₂ : Ordered (w.setConnected.setPeer sa) l :=
        hw₁.congr (setPeer_out _ sa) (setPeer_wire _ sa) (by simp) rfl
      apply order_callsIf
      intro l' hl
      have hw₃ : Ordered (w.setConnected.setPeer sa) l' := hw₂.congr rfl rfl id hl
      apply wp_connectedRest
      · intro _
        exact order_post _ (hw₃.congr rfl rfl id rfl)
      · intro _
        exact order_post _ hw₃

/-- A drain moves bytes from the buffer to the wire. -/
theorem Ordered.drain {w : World} {l : Log} {content : List UInt8} {script : List (SysResult Nat)}
    {t : Transfer Nat} (heq : w.s.fd ≠ -1 → w.wire ++ content = l.flatMap written)
    (ht : SendsTo content [] script t) : Ordered ((w.taken t.bytes).setOut t.mem) l := by
  obtain ⟨used, -, -, hb, hh, -⟩ := ht.moved
  refine ⟨_, hh, fun ho => ?_⟩
  rw [setOut_wire, taken_wire, hb, List.nil_append, List.append_assoc, List.take_append_drop]
  exact heq ho

theorem order_event {w : World} {l : Log} {events : BitVec 32} {errno : Errno} (hw : Ordered w l) :
    (ioStreamEventHandler events errno).wp orderContract (.event events errno) []
      (orderContract.Post (.event events errno) w []) w l := by
  have ⟨content, hh, heq⟩ := hw
  apply wp_ioStreamEventHandler hh rfl
  · intro _
    exact order_connecting hw
  · intro script t _ _ ht _
    have hd := Ordered.drain heq ht
    exact ⟨fun _ _ => order_drained hd.close, fun _ _ => order_post _ hd, fun _ => order_drained hd⟩
  · intro _
    exact order_recvPart hw

theorem order_body : orderContract.Body body := by
  intro ps c w l hinv hok
  cases c with
  | connect sa vmt errno => exact absurd hok id
  | write data =>
    obtain ⟨hps, hlen⟩ := hok
    obtain rfl : ps = [] := hps
    exact order_write hinv hlen
  | event events errno =>
    obtain rfl : ps = [] := hok
    exact order_event hinv
  | close =>
    obtain rfl : ps = [] := hok
    exact (Ordered.close hinv).congr rfl rfl id (by simp [written])

/-! ## §3 Every run -/

/-- **Nothing is lost, doubled or reordered.** Whenever no call is under way
in a run that starts with an empty out buffer, and the stream is open, the
bytes the kernel has accepted and the bytes still pending are together the
data of the writes, in the order they were made. -/
theorem write_order {w : World} (hout : Holds w.s.out []) (hwire : w.wire = [])
    {choices : List (Choice Query Answer Call)} (hm : Meets body orderOk (.start w) choices)
    {cfg : Config World Query Answer Method Fault Call}
    (hrun : run body (.start w) choices = some cfg) (hctl : cfg.ctl = .owner)
    (hstack : cfg.stack = []) (hopen : cfg.st.s.fd ≠ -1) :
    ∃ content, Holds cfg.st.s.out content ∧ cfg.st.wire ++ content = cfg.log.flatMap written := by
  have h0 : orderContract.Inv [] w [] := ⟨[], hout, fun _ => by rw [hwire]; rfl⟩
  have hinv := run_inv orderContract order_body h0 hm hrun hctl
  rw [hstack] at hinv
  obtain ⟨content, hh, heq⟩ := hinv
  exact ⟨content, hh, heq hopen⟩

/-- Two of three bytes go out at once, the third at the next event. -/
def threeBytes : List (Choice Query Answer Call) :=
  [.enter (.write [1, 2, 3]), .answer (.send [1, 2, 3]) (.ok 2), .back 0,
    .enter (.event POLLOUT .EAGAIN), .answer .drain [.ok 1], .back 0, .back 0]

theorem write_order_threeBytes :
    ∃ cfg content,
      run body (.start (.opened 5 ⟨true, true, true, true⟩ false)) threeBytes = some cfg ∧
        Holds cfg.st.s.out content ∧ cfg.st.wire ++ content = [1, 2, 3] := by
  have hm : Meets body orderOk (.start (.opened 5 ⟨true, true, true, true⟩ false)) threeBytes :=
    meets_cons ⟨rfl, by decide⟩ rfl <| meets_cons trivial rfl <| meets_cons trivial rfl <|
      meets_cons rfl rfl <| meets_cons trivial rfl <| meets_cons trivial rfl <|
      meets_cons trivial rfl meets_nil
  obtain ⟨content, hh, heq⟩ :=
    write_order (opened_holds 5 ⟨true, true, true, true⟩ false) rfl hm rfl rfl rfl (by decide)
  exact ⟨_, content, rfl, hh, heq⟩

end Nanio.Stream
