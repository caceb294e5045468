/-
Nanio.Server.PortCon — `multi_server_port.i`: a server of commands that end
with CR LF.

`v_port_con_recv` looks for CR LF in the bytes that have just come, and
handles one command a call at most. What is behind the command is kept, but
not looked at again: a command that came together with the one before it
waits for the next CR LF and is then taken as one with what has come since.
No byte is lost or taken twice (`port_con_run_eq`).
-/
import Nanio.Http.HttpParse
import Nanio.Server.SockEcho

namespace Nanio.Server

open Nanio.Lib Nanio.Tmp Nanio.Map
open Nanio.Http (crlf)

/-! ## §1 The connection -/

/-- `enum ftp_state`. -/
inductive FtpState where
  | FTP_RECV_CMD | FTP_CLOSE
  deriving DecidableEq, Repr

/-- `port_con_t`, with `end` and `next` as indices of `cmd`, and what was
passed to `io_stream_writef`. -/
structure PortCon where
  fd : Int
  state : FtpState
  «end» : Nat
  next : Nat
  cmd : List UInt8
  written : List Text
  deriving DecidableEq, Repr

/-- `sizeof c->cmd`. -/
def cmdSize : Nat := 8000

def QUIT : Text := lit ['Q', 'U', 'I', 'T']

def welcome : Text := lit "220 welcome to my FTP server\r\n".toList
def goodbye : Text := lit "221 Goodbye.\r\n".toList
def okReply (cmd : Text) : Text := lit "200-".toList ++ cmd ++ lit "\r\n200 OK.\r\n".toList

/-- `io_stream_writef`. -/
def PortCon.writef (c : PortCon) (text : Text) : PortCon :=
  { c with written := c.written ++ [text] }

/-- `io_stream_close`. -/
def PortCon.close (c : PortCon) : PortCon := if 0 ≤ c.fd then { c with fd := -1 } else c

/-- `port_con_process_request`. -/
def portConProcessRequest (c : PortCon) : Int × PortCon :=
  let reqLen := c.next
  let c : PortCon := { c with cmd := c.cmd.set (c.next - 2) 0 }
  let c : PortCon :=
    if strcaseEq (cstr c.cmd) QUIT then { c.writef goodbye with state := .FTP_CLOSE }
    else c.writef (okReply (cstr c.cmd))
  if c.next < c.end then
    let cmd := overwrite c.cmd 0 (slice c.cmd c.next c.end)
    (0, { c with cmd, «end» := c.end - reqLen })
  else (0, { c with «end» := 0 })

/-- `to_recv`. -/
def PortCon.toRecv (c : PortCon) : Nat := toUnsigned (cmdSize - 1 - toUnsigned c.end)

/-- `v_port_con_recv`, with what `io_stream_recv` comes to if it is called. -/
def vPortConRecv (c : PortCon) (answer : SysResult (List UInt8)) :
    Except PortFault (Int × PortCon) :=
  if c.state = .FTP_RECV_CMD then
    match answer with
    | .err _ => .ok (-1, c)
    | .ok bytes =>
      if c.toRecv < bytes.length then .error .noAnswer
      else if bytes = [] then .ok (0, c.close)
      else
        let cmd := overwrite c.cmd c.end (bytes ++ [0])
        let text := cstr (cmd.drop c.end)
        let s := strstr crlf text
        let old := c.end
        let c := { c with cmd, «end» := c.end + bytes.length }
        match s with
        | none => .ok (0, c)
        | some s =>
          .ok (0, (portConProcessRequest { c with next := old + (text.length - s.length) + 2 }).2)
  else .ok (0, c)

/-- `calloc`, and `port_accept` once the stream is accepted. -/
def portConAccept (fd : Int) : PortCon where
  fd := fd
  state := .FTP_RECV_CMD
  «end» := 0
  next := 0
  cmd := List.replicate cmdSize 0
  written := [welcome]

/-- `POLLIN` in `io_stream_event_handler`, for a connection that is open. -/
def portConReadable (c : PortCon) (answer : SysResult (List UInt8)) : Except PortFault PortCon := do
  if c.fd = -1 then pure c
  else
    let (r, c) ← vPortConRecv c answer
    pure (if r < 0 then c.close else c)

/-- A run: one readable event after the other. -/
def portConRun (c : PortCon) (answers : List (SysResult (List UInt8))) : Except PortFault PortCon :=
  answers.foldlM portConReadable c

/-! ## §2 Commands of a stream -/

/-- Where CR LF is in the bytes of a read, as `strstr` sees it: in front of
the first NUL. -/
def crlfAt (bytes : List UInt8) : Option Nat :=
  (strstr crlf (cstr bytes)).map fun s => (cstr bytes).length - s.length

/-- `QUIT`, of any case. -/
def IsQuit (raw : Text) : Prop := strcaseEq (cstr raw) QUIT = true

instance (raw : Text) : Decidable (IsQuit raw) := inferInstanceAs (Decidable (_ = true))

/-- What is written for a command. -/
def reply (raw : Text) : Text := if IsQuit raw then goodbye else okReply (cstr raw)

/-- The commands that are handled, as they are in the stream, and the bytes
that are kept, for reads after some kept bytes. -/
def portCommands : Text → List (List UInt8) → List Text × Text
  | held, [] => ([], held)
  | held, c :: cs =>
    match crlfAt c with
    | none => portCommands (held ++ c) cs
    | some k =>
      if IsQuit (held ++ c.take k) then ([held ++ c.take k], c.drop (k + 2))
      else
        ((held ++ c.take k) :: (portCommands (c.drop (k + 2)) cs).1,
          (portCommands (c.drop (k + 2)) cs).2)

/-- Commands with CR LF behind each. -/
def commandBytes (raws : List Text) : List UInt8 := raws.flatMap fun raw => raw ++ crlf

theorem cstr_prefix (bytes : List UInt8) : cstr bytes <+: bytes := List.takeWhile_prefix _

/-- CR LF is at the place that is found. -/
theorem crlfAt_some {bytes : List UInt8} {k : Nat} (h : crlfAt bytes = some k) :
    bytes = bytes.take k ++ crlf ++ bytes.drop (k + 2) ∧ k + 2 ≤ bytes.length ∧
      ¬ crlf <:+: bytes.take k ++ [Http.cr] := by
  obtain ⟨s, hs, rfl⟩ := Option.map_eq_some_iff.mp h
  obtain ⟨v, htext, ⟨rest, rfl⟩, hno⟩ := (strstr_eq_some_iff (by decide) _ _).mp hs
  obtain ⟨behind, hbytes⟩ := cstr_prefix bytes
  have hwhole : bytes = v ++ (crlf ++ (rest ++ behind)) := by
    rw [← hbytes, htext]
    simp
  have hk : (cstr bytes).length - (crlf ++ rest).length = v.length := by
    rw [htext, List.length_append, Nat.add_sub_cancel]
  have hlen : crlf.length = 2 := rfl
  have htake : bytes.take v.length = v := by rw [hwhole, List.take_left]
  have hdrop : bytes.drop (v.length + 2) = rest ++ behind := by
    rw [hwhole, ← List.drop_drop, List.drop_left, ← hlen, List.drop_left]
  rw [hk, htake, hdrop]
  refine ⟨by simpa using hwhole, ?_, hno⟩
  rw [hwhole, List.length_append, List.length_append, hlen]
  omega

/-- Every byte is in a command that was handled, or kept, or not looked at
after `QUIT`. -/
theorem portCommands_bytes (held : Text) (cs : List (List UInt8)) :
    commandBytes (portCommands held cs).1 ++ (portCommands held cs).2 <+: held ++ cs.flatten ∧
      ((∀ raw ∈ (portCommands held cs).1, ¬ IsQuit raw) →
        commandBytes (portCommands held cs).1 ++ (portCommands held cs).2 =
          held ++ cs.flatten) := by
  induction cs generalizing held with
  | nil => simp [portCommands, commandBytes]
  | cons c cs ih =>
    rw [portCommands, List.flatten_cons]
    cases hk : crlfAt c with
    | none =>
      have hrest := ih (held ++ c)
      rwa [List.append_assoc] at hrest
    | some k =>
      obtain ⟨hc, -, -⟩ := crlfAt_some hk
      have hfront : held ++ (c ++ cs.flatten) =
          (held ++ c.take k ++ crlf) ++ (c.drop (k + 2) ++ cs.flatten) := by
        conv => lhs; rw [hc]
        simp
      by_cases hq : IsQuit (held ++ c.take k)
      · simp only [if_pos hq]
        refine ⟨?_, fun h => absurd hq (h _ List.mem_cons_self)⟩
        rw [hfront, commandBytes, List.flatMap_singleton, ← List.append_assoc (_ ++ crlf)]
        exact List.prefix_append _ _
      · obtain ⟨hpre, heq⟩ := ih (c.drop (k + 2))
        simp only [if_neg hq]
        rw [hfront, commandBytes, List.flatMap_cons, List.append_assoc (held ++ c.take k ++ crlf)]
        refine ⟨(List.prefix_append_right_inj _).mpr hpre, fun h => ?_⟩
        rw [List.append_cancel_left_eq]
        exact heq (List.forall_mem_cons.mp h).2

/-! ## §3 Commands and lines -/

/-- The text between two CR LF. -/
def OneLine (text : Text) : Prop := ¬ crlf <:+: text

/-- The commands, and the bytes kept behind them, are the lines of the
stream. -/
def AreLines (r : List Text × Text) : Prop := (∀ raw ∈ r.1, OneLine raw) ∧ OneLine r.2

/-- A CR LF is not cut in two. -/
def NotCut (held c : Text) : Prop := ¬ (held.getLast? = some Http.cr ∧ c.head? = some Http.lf)

/-- Each read brings one CR LF at most, whole, and in front of its first NUL:
`strstr` does not look behind that. -/
def Lockstep : Text → List (List UInt8) → Prop
  | _, [] => True
  | held, c :: cs =>
    NotCut held c ∧
      match crlfAt c with
      | none => OneLine c ∧ Lockstep (held ++ c) cs
      | some k =>
        OneLine (c.drop (k + 2)) ∧ (¬ IsQuit (held ++ c.take k) → Lockstep (c.drop (k + 2)) cs)

/-- CR LF is in one of two texts, or across them. -/
theorem oneLine_append (a b : Text) : OneLine (a ++ b) ↔ OneLine a ∧ OneLine b ∧ NotCut a b := by
  induction a with
  | nil => simp [OneLine, NotCut, crlf]
  | cons x a ih =>
    have hcons : ∀ t : Text, OneLine (x :: t) ↔ ¬ crlf <+: x :: t ∧ OneLine t := by
      intro t
      rw [OneLine, List.infix_cons_iff, not_or]
      rfl
    have hcut : NotCut (x :: a) b ↔
        NotCut a b ∧ (a = [] → ¬ (x = Http.cr ∧ b.head? = some Http.lf)) := by
      cases a with
      | nil => simp [NotCut]
      | cons y a => simp [NotCut]
    have hfirst : crlf <+: x :: (a ++ b) ↔
        crlf <+: x :: a ∨ a = [] ∧ x = Http.cr ∧ b.head? = some Http.lf := by
      cases a with
      | nil => cases b <;> simp [crlf, List.cons_prefix_cons, eq_comm]
      | cons y a => simp [crlf, List.cons_prefix_cons]
    rw [List.cons_append, hcons, hcons, ih, hcut, hfirst]
    tauto

/-- A text that is not one line stays so. -/
theorem portCommands_not_lines {held : Text} (h : ¬ OneLine held) (cs : List (List UInt8)) :
    ¬ AreLines (portCommands held cs) := by
  induction cs generalizing held with
  | nil => exact fun hl => h hl.2
  | cons c cs ih =>
    have happ : ∀ t : Text, ¬ OneLine (held ++ t) := fun t hl => h ((oneLine_append held t).mp hl).1
    rw [portCommands]
    cases crlfAt c with
    | none => exact ih (happ c)
    | some k =>
      show ¬ AreLines (if _ then _ else _)
      split
      · exact fun hl => happ _ (hl.1 _ List.mem_cons_self)
      · exact fun hl => happ _ (hl.1 _ List.mem_cons_self)

/-- **Commands are lines** just if each read brings one CR LF at most, where
it is seen. -/
theorem areLines_iff {held : Text} (h : OneLine held) (cs : List (List UInt8)) :
    AreLines (portCommands held cs) ↔ Lockstep held cs := by
  induction cs generalizing held with
  | nil => simp [portCommands, AreLines, Lockstep, h]
  | cons c cs ih =>
    rw [portCommands, Lockstep]
    cases hk : crlfAt c with
    | none =>
      by_cases hc : NotCut held c ∧ OneLine c
      · have hjoin := (oneLine_append held c).mpr ⟨h, hc.2, hc.1⟩
        simp only [ih hjoin]
        tauto
      · have hjoin : ¬ OneLine (held ++ c) := fun hl => hc ((oneLine_append held c).mp hl).2.symm
        have hno := portCommands_not_lines hjoin cs
        simp only
        tauto
    | some k =>
      obtain ⟨hc, -, hfirst⟩ := crlfAt_some hk
      -- there is no CR LF in front of the one that is found
      have hfront : OneLine (c.take k) :=
        fun hin => hfirst (hin.trans (List.prefix_append _ _).isInfix)
      have hcut : NotCut held (c.take k) ↔ NotCut held c := by
        cases htake : c.take k with
        | nil =>
          have hhead : c.head? = some Http.cr := by
            rw [hc, htake]
            rfl
          simp [NotCut, hhead, Http.cr, Http.lf, ascii]
        | cons x t =>
          have hhead : c.head? = some x := by
            rw [hc, htake]
            rfl
          simp [NotCut, hhead]
      have hraw : OneLine (held ++ c.take k) ↔ NotCut held c := by
        rw [oneLine_append, ← hcut]
        exact ⟨fun hl => hl.2.2, fun hl => ⟨h, hfront, hl⟩⟩
      by_cases hq : IsQuit (held ++ c.take k)
      · simp [AreLines, hraw, hq]
      · by_cases hrest : OneLine (c.drop (k + 2))
        · have hlines := ih hrest
          simp only [if_neg hq, AreLines, List.forall_mem_cons, hraw] at hlines ⊢
          tauto
        · have hno := portCommands_not_lines hrest cs
          simp only [if_neg hq, AreLines, List.forall_mem_cons, hraw] at hno ⊢
          tauto

/-! ## §4 Reads and runs -/

/-- The connection is open and its buffer starts with `held`. -/
structure ConHolds (c : PortCon) (held : Text) : Prop where
  isOpen : 0 ≤ c.fd
  size : c.cmd.length = cmdSize
  stop : c.end = held.length
  fits : held.length ≤ cmdSize - 1
  front : slice c.cmd 0 c.end = held

theorem conHolds_accept {fd : Int} (hfd : 0 ≤ fd) : ConHolds (portConAccept fd) [] where
  isOpen := hfd
  size := List.length_replicate
  stop := rfl
  fits := Nat.zero_le _
  front := rfl

section

variable {c : PortCon} {held bytes : Text}

theorem ConHolds.room (h : ConHolds c held) : c.toRecv = cmdSize - 1 - held.length := by
  have hfits := h.fits
  have hsize : cmdSize = 8000 := rfl
  unfold PortCon.toRecv toUnsigned
  rw [h.stop]
  omega

/-- The buffer once bytes have come, and the NUL behind them. -/
theorem ConHolds.received (h : ConHolds c held) (hroom : bytes.length ≤ c.toRecv) :
    let cmd := overwrite c.cmd c.end (bytes ++ [0])
    cmd.length = cmdSize ∧ (held ++ bytes).length ≤ cmdSize - 1 ∧
      cstr (cmd.drop c.end) = cstr bytes ∧
      slice cmd 0 (c.end + bytes.length) = held ++ bytes := by
  have hfits := h.fits
  have hin : c.end ≤ c.cmd.length := by
    rw [h.stop, h.size]
    omega
  have hpos : cmdSize = 8000 := rfl
  rw [h.room] at hroom
  have hwritten := slice_overwrite c.cmd hin (bytes ++ [0])
  refine ⟨?_, ?_, ?_, ?_⟩
  · rw [length_overwrite _ hin, h.size, h.stop, List.length_append, List.length_singleton]
    omega
  · rw [List.length_append]
    omega
  · rw [drop_overwrite _ hin, List.append_assoc]
    show cstr (bytes ++ 0 :: _) = cstr bytes
    rw [cstr_zero]
    rfl
  · have hbefore := slice_overwrite_before (k := 0) c.cmd hin (bytes ++ [0])
    have hcut := slice_append (overwrite c.cmd c.end (bytes ++ [0])) (i := c.end)
      (j := c.end + bytes.length) (k := c.end + (bytes ++ [0]).length) (by omega) (by simp)
    rw [hwritten] at hcut
    have hlen : (slice (overwrite c.cmd c.end (bytes ++ [0])) c.end (c.end + bytes.length)).length =
        bytes.length := by
      rw [length_slice, Nat.add_sub_cancel_left]
      rw [length_overwrite _ hin, List.length_append, List.length_singleton]
      omega
    have hbytes := List.append_inj_left hcut hlen.symm
    rw [slice_append _ (Nat.zero_le c.end) (Nat.le_add_right _ _), hbefore, h.front, ← hbytes]

/-- A command is answered, and what is behind it is moved to the front. -/
theorem processRequest_ends {raw left : Text} (hopen : 0 ≤ c.fd) (hsize : c.cmd.length = cmdSize)
    (hfront : slice c.cmd 0 c.end = raw ++ crlf ++ left) (hfits : c.end ≤ cmdSize - 1)
    (hnext : c.next = raw.length + 2) :
    let c' := (portConProcessRequest c).2
    ConHolds c' left ∧ c'.written = c.written ++ [reply raw] ∧
      c'.state = if IsQuit raw then .FTP_CLOSE else c.state := by
  have hpos : cmdSize = 8000 := rfl
  have hcrlf : crlf.length = 2 := rfl
  have hin : c.end ≤ c.cmd.length := by omega
  have hlen : c.end = raw.length + 2 + left.length := by
    have heq := congrArg List.length hfront
    rw [length_slice hin, List.length_append, List.length_append, hcrlf] at heq
    omega
  have htake : c.cmd.take c.end = raw ++ crlf ++ left := hfront
  have hcmd : c.cmd = raw ++ (crlf ++ (left ++ c.cmd.drop c.end)) := by
    conv => lhs; rw [← List.take_append_drop c.end c.cmd, htake]
    simp
  -- the CR becomes the NUL behind the command
  have htext : cstr (c.cmd.set (c.next - 2) 0) = cstr raw := by
    have hset : c.cmd.set (c.next - 2) 0 = raw ++ 0 :: (Http.lf :: (left ++ c.cmd.drop c.end)) := by
      rw [hnext, Nat.add_sub_cancel]
      conv => lhs; rw [hcmd]
      simp [crlf]
    rw [hset, cstr_zero]
    rfl
  have hleft : slice (c.cmd.set (c.next - 2) 0) c.next c.end = left := by
    rw [slice_set_of_lt (by omega), slice, htake, hnext, ← hcrlf, ← List.length_append,
      List.drop_left]
  have hslen : (c.cmd.set (c.next - 2) 0).length = cmdSize := by
    rw [List.length_set, hsize]
  have hmoved : slice (overwrite (c.cmd.set (c.next - 2) 0) 0 left) 0 left.length = left := by
    have hback := slice_overwrite (c.cmd.set (c.next - 2) 0) (Nat.zero_le _) left
    rwa [Nat.zero_add] at hback
  have hend : c.end - c.next = left.length := by omega
  have hmove : (overwrite (c.cmd.set (c.next - 2) 0) 0 left).length = cmdSize := by
    rw [length_overwrite _ (Nat.zero_le _), hslen]
    omega
  have hnil : ¬ c.next < c.end → left = [] := fun hlt => List.length_eq_zero_iff.mp (by omega)
  unfold reply IsQuit
  by_cases hq : strcaseEq (cstr raw) QUIT = true
  · simp only [portConProcessRequest, htext, if_pos hq, PortCon.writef]
    split
    · simp only [hleft, hend]
      exact ⟨⟨hopen, hmove, rfl, by omega, hmoved⟩, by simp [hq], by simp [hq]⟩
    · next hlt =>
      rw [hnil hlt]
      exact ⟨⟨hopen, hslen, rfl, Nat.zero_le _, rfl⟩, by simp [hq], by simp [hq]⟩
  · simp only [portConProcessRequest, htext, if_neg hq, PortCon.writef]
    split
    · simp only [hleft, hend]
      exact ⟨⟨hopen, hmove, rfl, by omega, hmoved⟩, by simp [hq], by simp [hq]⟩
    · next hlt =>
      rw [hnil hlt]
      exact ⟨⟨hopen, hslen, rfl, Nat.zero_le _, rfl⟩, by simp [hq], by simp [hq]⟩

end

/-- What the handler makes of bytes. -/
theorem vPortConRecv_ends {c : PortCon} {held bytes : Text} (h : ConHolds c held)
    (hstate : c.state = .FTP_RECV_CMD) (hne : bytes ≠ []) (hroom : bytes.length ≤ c.toRecv) :
    ∃ c', vPortConRecv c (.ok bytes) = .ok (0, c') ∧
      match crlfAt bytes with
      | none => ConHolds c' (held ++ bytes) ∧ c'.written = c.written ∧ c'.state = c.state
      | some k => ConHolds c' (bytes.drop (k + 2)) ∧
        c'.written = c.written ++ [reply (held ++ bytes.take k)] ∧
        c'.state = if IsQuit (held ++ bytes.take k) then .FTP_CLOSE else .FTP_RECV_CMD := by
  obtain ⟨hsize, hfits, htext, hfront⟩ := h.received hroom
  have hend : c.end + bytes.length = (held ++ bytes).length := by
    rw [h.stop, List.length_append]
  rw [vPortConRecv, if_pos hstate]
  simp only [if_neg (Nat.not_lt.mpr hroom), if_neg hne, htext]
  cases hs : strstr crlf (cstr bytes) with
  | none =>
    have hk : crlfAt bytes = none := by rw [crlfAt, hs, Option.map_none]
    rw [hk]
    exact ⟨_, rfl, ⟨h.isOpen, hsize, hend, hfits, hfront⟩, rfl, rfl⟩
  | some s =>
    have hk : crlfAt bytes = some ((cstr bytes).length - s.length) := by
      rw [crlfAt, hs, Option.map_some]
    obtain ⟨hc, hle, -⟩ := crlfAt_some hk
    rw [hk]
    dsimp only
    generalize (cstr bytes).length - s.length = k at hc hle ⊢
    have hlen : (held ++ bytes.take k).length = c.end + k := by
      rw [List.length_append, List.length_take, h.stop]
      omega
    have hended := @processRequest_ends
      { c with
        cmd := overwrite c.cmd c.end (bytes ++ [0]), «end» := c.end + bytes.length,
        next := c.end + k + 2 } (held ++ bytes.take k) (bytes.drop (k + 2)) h.isOpen hsize
      (by rw [hfront, List.append_assoc held, List.append_assoc held, ← hc])
      (by rw [hend]; exact hfits) (by rw [hlen])
    refine ⟨_, rfl, hended.1, hended.2.1, ?_⟩
    rw [hended.2.2, hstate]

/-- No read brings more than there is room for behind the bytes that are
kept. After `QUIT` nothing is read. -/
def RoomFor : Text → List (List UInt8) → Prop
  | _, [] => True
  | held, c :: cs =>
    c.length ≤ cmdSize - 1 - held.length ∧
      match crlfAt c with
      | none => RoomFor (held ++ c) cs
      | some k => ¬ IsQuit (held ++ c.take k) → RoomFor (c.drop (k + 2)) cs

instance decidableRoomFor : (held : Text) → (cs : List (List UInt8)) → Decidable (RoomFor held cs)
  | _, [] => isTrue trivial
  | held, c :: cs =>
    match h : crlfAt c with
    | none =>
      have := decidableRoomFor (held ++ c) cs
      decidable_of_iff (c.length ≤ cmdSize - 1 - held.length ∧ RoomFor (held ++ c) cs)
        (by rw [RoomFor, h])
    | some k =>
      have := decidableRoomFor (c.drop (k + 2)) cs
      decidable_of_iff (c.length ≤ cmdSize - 1 - held.length ∧
        (¬ IsQuit (held ++ c.take k) → RoomFor (c.drop (k + 2)) cs)) (by rw [RoomFor, h])

/-- What a run comes to that started with some bytes: the commands are
answered, the bytes kept are in the buffer, and after `QUIT` the connection
waits to be closed. -/
structure ConEnds (c c' : PortCon) (raws : List Text) (kept : Text) : Prop where
  holds : ConHolds c' kept
  written : c'.written = c.written ++ raws.map reply
  state : c'.state = if ∃ raw ∈ raws, IsQuit raw then .FTP_CLOSE else .FTP_RECV_CMD

theorem portConRun_cons {c c' : PortCon} {held : Text} {a : SysResult (List UInt8)}
    {answers : List (SysResult (List UInt8))} (h : ConHolds c held)
    (hr : vPortConRecv c a = .ok (0, c')) :
    portConRun c (a :: answers) = portConRun c' answers := by
  have hfd : c.fd ≠ -1 := by
    have hopen := h.isOpen
    omega
  rw [portConRun, List.foldlM_cons, portConReadable, if_neg hfd, hr]
  rfl

/-- Once it is to be closed the connection reads nothing. -/
theorem portConRun_closing {c : PortCon} {held : Text} (h : ConHolds c held)
    (hstate : c.state = .FTP_CLOSE) (answers : List (SysResult (List UInt8))) :
    portConRun c answers = .ok c := by
  induction answers with
  | nil => rfl
  | cons a answers ih =>
    have hread : vPortConRecv c a = .ok (0, c) := by
      simp [vPortConRecv, hstate]
    rw [portConRun_cons h hread, ih]

theorem portConRun_ends {c : PortCon} {held : Text} (h : ConHolds c held)
    (hstate : c.state = .FTP_RECV_CMD) {reads : List (List UInt8)} (hne : ∀ r ∈ reads, r ≠ [])
    (hroom : RoomFor held reads) :
    ∃ c', portConRun c (reads.map .ok) = .ok c' ∧
      ConEnds c c' (portCommands held reads).1 (portCommands held reads).2 := by
  induction reads generalizing c held with
  | nil => exact ⟨c, rfl, h, by simp [portCommands], by simp [portCommands, hstate]⟩
  | cons r reads ih =>
    obtain ⟨hr, hrest⟩ := List.forall_mem_cons.mp hne
    obtain ⟨hfit, hroom⟩ := hroom
    rw [← h.room] at hfit
    obtain ⟨c', hcall, hends⟩ := vPortConRecv_ends h hstate hr hfit
    rw [List.map_cons, portConRun_cons h hcall, portCommands]
    cases hk : crlfAt r with
    | none =>
      rw [hk] at hends hroom
      obtain ⟨hholds, hw, hst⟩ := hends
      obtain ⟨c'', hrun, hends'⟩ := ih hholds (hst.trans hstate) hrest hroom
      exact ⟨c'', hrun, hends'.holds, by rw [hends'.written, hw], hends'.state⟩
    | some k =>
      rw [hk] at hends hroom
      obtain ⟨hholds, hw, hst⟩ := hends
      by_cases hq : IsQuit (held ++ r.take k)
      · rw [if_pos hq] at hst
        simp only [if_pos hq]
        exact ⟨c', portConRun_closing hholds hst _, hholds, by simpa using hw,
          by simpa [hq] using hst⟩
      · rw [if_neg hq] at hst
        simp only [if_neg hq]
        obtain ⟨c'', hrun, hends'⟩ := ih hholds hst hrest (hroom hq)
        refine ⟨c'', hrun, hends'.holds, by simp [hends'.written, hw], ?_⟩
        rw [hends'.state]
        simp [hq]

/-- **The server over a whole connection.** Each command is answered once,
in order; the commands and the bytes kept are the stream, up to what comes
after `QUIT`, which is not read. The commands are the lines of the stream
just if each read brings one CR LF at most, no CR LF in two parts and none
behind a NUL. -/
theorem port_con_run_eq {fd : Int} (hfd : 0 ≤ fd) {reads : List (List UInt8)}
    (hne : ∀ r ∈ reads, r ≠ []) (hroom : RoomFor [] reads) :
    ∃ c raws kept, portConRun (portConAccept fd) (reads.map .ok) = .ok c ∧
      c.written = welcome :: raws.map reply ∧
      (c.cmd.length = cmdSize ∧ slice c.cmd 0 c.end = kept) ∧
      commandBytes raws ++ kept <+: reads.flatten ∧
      (c.state = .FTP_RECV_CMD → commandBytes raws ++ kept = reads.flatten) ∧
      (c.state = .FTP_CLOSE ↔ ∃ raw ∈ raws, IsQuit raw) ∧
      (AreLines (raws, kept) ↔ Lockstep [] reads) := by
  obtain ⟨c, hrun, hends⟩ := portConRun_ends (conHolds_accept hfd) rfl hne hroom
  have hempty : OneLine [] := by simp [OneLine, crlf]
  have hlines := areLines_iff hempty reads
  obtain ⟨hpre, heq⟩ := portCommands_bytes [] reads
  have hstate := hends.state
  refine ⟨c, (portCommands [] reads).1, (portCommands [] reads).2, hrun, hends.written,
    ⟨hends.holds.size, hends.holds.front⟩, hpre, fun hopen => heq fun raw hraw hq => ?_, ?_, hlines⟩
  · rw [hopen, if_pos ⟨raw, hraw, hq⟩] at hstate
    cases hstate
  · rw [hstate]
    split <;> simp_all

/-- Two commands in one read: the second is taken as one with the third. -/
def pipelined : List (List UInt8) :=
  [lit ['A', '\r', '\n', 'B', '\r', '\n'], lit ['C', '\r', '\n']]

theorem port_con_run_eq_pipelined :
    ∃ c raws kept, portConRun (portConAccept 4) (pipelined.map .ok) = .ok c ∧
      c.written = welcome :: raws.map reply ∧ ¬ AreLines (raws, kept) := by
  obtain ⟨c, raws, kept, hrun, hw, -, -, -, -, hlines⟩ :=
    port_con_run_eq (by decide : (0 : Int) ≤ 4) (by decide : ∀ r ∈ pipelined, r ≠ []) (by decide)
  refine ⟨c, raws, kept, hrun, hw, fun h => ?_⟩
  have hstep : OneLine (lit ['B', '\r', '\n']) := (hlines.mp h).2.1
  exact hstep (by decide)

end Nanio.Server
