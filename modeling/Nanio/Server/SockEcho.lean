/-
Nanio.Server.SockEcho — `sock-echo.c`: a server of commands that end with a
line feed.

`port_stream_recv` puts what it receives behind what it holds, cuts it at
the line feeds and calls `port_cmd` on each line. It looks for a line feed
in the new bytes only, and of bytes without one it keeps the new bytes
alone: the beginning of a line is lost if the next read does not end it
(`port_run_eq`). `quit` frees the connection under the loop.
-/
import Nanio.Lib.Lines
import Nanio.Tmp.TmpStr

namespace Nanio.Server

open Nanio.Lib Nanio.Tmp

/-! ## §1 The connection -/

def LF : UInt8 := ascii '\n'
def CR : UInt8 := ascii '\r'

/-- `struct io_port`: the stream's `fd` and what was passed to
`io_stream_writef` for it, `end` as an index of `request`, and the texts of
the two addresses that the answers name. -/
structure IoPort where
  fd : Int
  request : List UInt8
  «end» : Nat
  sid : Text
  peer : Text
  written : List Text
  freed : Bool
  deriving DecidableEq, Repr

/-- `noAnswer`: more bytes than `recv` was asked for; no kernel does that.
`useAfterFree`: the connection is used after `io_d_free`. -/
inductive PortFault where
  | noAnswer
  | useAfterFree
  deriving DecidableEq, Repr

/-- `sizeof p->request`. -/
def requestSize : Nat := 200

/-- `io_stream_close`. -/
def IoPort.close (p : IoPort) : IoPort := if 0 ≤ p.fd then { p with fd := -1 } else p

/-- `io_stream_writef`. -/
def IoPort.writef (p : IoPort) (text : Text) : IoPort := { p with written := p.written ++ [text] }

def quit : Text := lit ['q', 'u', 'i', 't']

def bye (sid : Text) : Text := sid ++ lit ": bye!\r\n".toList

def unknownCommand (sid cmd : Text) : Text :=
  sid ++ lit ": unknown command: '".toList ++ cmd ++ lit "'\r\n".toList

def hello (sid peer : Text) : Text := sid ++ lit ": hello, ".toList ++ peer ++ lit "!\r\n".toList

/-- `port_cmd`. -/
def portCmd (p : IoPort) (cmd : Text) : IoPort :=
  if cmd = quit then { p.writef (bye p.sid) with freed := true }
  else p.writef (unknownCommand p.sid cmd)

/-- The line that ends at `lf`, as a C string: the line feed and the first
carriage return are overwritten with NUL. -/
def cutLine (request : List UInt8) (cmd lf : Nat) : List UInt8 :=
  let request := request.set lf 0
  match memchr request CR cmd (lf + 1) with
  | some cr => request.set cr 0
  | none => request

/-- The loop over the line feeds from `data` on, up to `stop`. It ends with
`data` and the connection. -/
def portLines (p : IoPort) (cmd data stop : Nat) : Except PortFault (Nat × IoPort) :=
  if data < stop then
    match h : memchr p.request LF data stop with
    | none => .ok (data, p)
    | some lf =>
      let request := cutLine p.request cmd lf
      let p := portCmd { p with request } (cstr (request.drop cmd))
      if p.freed then .error .useAfterFree
      else portLines { p with «end» := lf + 1 } (lf + 1) (lf + 1) stop
  else .ok (data, p)
termination_by stop - data
decreasing_by
  obtain ⟨v, w, -, -, rfl⟩ := memchr_eq_some_iff.mp h
  omega

/-- `to_recv`. -/
def toRecv (p : IoPort) : Nat := toUnsignedLong (requestSize - toUnsigned p.end)

/-- `port_stream_recv`, with what `io_stream_recv` comes to. -/
def portStreamRecv (p : IoPort) : SysResult (List UInt8) → Except PortFault (Int × IoPort)
  | .err _ => .ok (-1, p)
  | .ok bytes =>
    if toRecv p < bytes.length then .error .noAnswer
    else if bytes = [] then .ok (0, p.close)
    else do
      let stop := p.end + bytes.length
      let (data, p) ← portLines { p with request := overwrite p.request p.end bytes } 0 p.end stop
      if data < stop then
        let request := overwrite p.request 0 (slice p.request data stop)
        pure (0, { p with request, «end» := stop - data })
      else pure (0, { p with «end» := 0 })

/-- `calloc`, and `port_accept` once the stream is accepted. -/
def portAccept (fd : Int) (sid peer : Text) : IoPort where
  fd := fd
  request := List.replicate requestSize 0
  «end» := 0
  sid := sid
  peer := peer
  written := [hello sid peer]
  freed := false

/-- `POLLIN` in `io_stream_event_handler`, for a connection that is open. -/
def portReadable (p : IoPort) (answer : SysResult (List UInt8)) : Except PortFault IoPort := do
  if p.fd = -1 then pure p
  else
    let (r, p) ← portStreamRecv p answer
    pure (if r < 0 then p.close else p)

/-- A run: one readable event after the other. -/
def portRun (p : IoPort) (answers : List (SysResult (List UInt8))) : Except PortFault IoPort :=
  answers.foldlM portReadable p

/-! ## §2 One line -/

/-- What `port_cmd` sees of a line. -/
def command (line : Text) : Text := line.takeWhile fun c => c != CR && c != 0

theorem cstr_zero (v rest : List UInt8) : cstr (v ++ 0 :: rest) = v.takeWhile (· != 0) := by
  induction v with
  | nil => rfl
  | cons c v ih =>
    rw [cstr] at ih
    simp only [cstr, List.cons_append, List.takeWhile_cons, ih]

theorem command_of_notMem {line : Text} (h : CR ∉ line) :
    command line = line.takeWhile (· != 0) := by
  induction line with
  | nil => rfl
  | cons c line ih =>
    simp only [List.mem_cons, not_or] at h
    rw [command] at ih
    simp [command, List.takeWhile_cons, ih h.2, Ne.symm h.1]

theorem command_cr {v : Text} (h : CR ∉ v) (w : Text) :
    command (v ++ CR :: w) = v.takeWhile (· != 0) := by
  induction v with
  | nil => rfl
  | cons c v ih =>
    simp only [List.mem_cons, not_or] at h
    rw [command] at ih
    simp [command, List.takeWhile_cons, ih h.2, Ne.symm h.1]

section

variable {request : List UInt8} {cmd lf : Nat}

theorem cutLine_none (h : memchr (request.set lf 0) CR cmd (lf + 1) = none) :
    cutLine request cmd lf = request.set lf 0 := by
  simp only [cutLine, h]

theorem cutLine_some {cr : Nat} (h : memchr (request.set lf 0) CR cmd (lf + 1) = some cr) :
    cutLine request cmd lf = (request.set lf 0).set cr 0 := by
  simp only [cutLine, h]

theorem length_cutLine : (cutLine request cmd lf).length = request.length := by
  cases h : memchr (request.set lf 0) CR cmd (lf + 1) with
  | none => simp [cutLine_none h]
  | some cr => simp [cutLine_some h]

/-- The line is cut before what is behind it. -/
theorem slice_cutLine {stop : Nat} :
    slice (cutLine request cmd lf) (lf + 1) stop = slice request (lf + 1) stop := by
  have hset := @slice_set_of_lt request (lf + 1) stop lf (Nat.lt_succ_self lf) 0
  cases h : memchr (request.set lf 0) CR cmd (lf + 1) with
  | none => rw [cutLine_none h, hset]
  | some cr =>
    obtain ⟨v, w, hs, -, rfl⟩ := memchr_eq_some_iff.mp h
    have hlen : (slice (request.set lf 0) cmd (lf + 1)).length ≤ lf + 1 - cmd := by
      simp [slice]
      omega
    rw [hs, List.length_append, List.length_cons] at hlen
    have hcr : cmd + v.length < lf + 1 := by omega
    rw [cutLine_some h, slice_set_of_lt hcr, hset]

theorem cstr_cutLine (hcmd : cmd ≤ lf) (hlf : lf < request.length) :
    cstr ((cutLine request cmd lf).drop cmd) = command (slice request cmd lf) := by
  -- the buffer around the line and the byte that ends it
  have hdrop : (request.set lf 0).drop cmd =
      slice request cmd lf ++ 0 :: request.drop (lf + 1) := by
    rw [List.set_eq_take_append_cons_drop, if_pos hlf,
      List.drop_append_of_le_length (by simp; omega), slice]
  have hslice : slice (request.set lf 0) cmd (lf + 1) = slice request cmd lf ++ [0] := by
    have htake : (request.set lf 0).take (lf + 1) = request.take lf ++ [0] := by
      rw [List.set_eq_take_append_cons_drop, if_pos hlf, List.take_append]
      simp [Nat.min_eq_left hlf.le, List.take_take]
    rw [slice, htake, List.drop_append_of_le_length (by simp; omega), slice]
  cases h : memchr (request.set lf 0) CR cmd (lf + 1) with
  | none =>
    rw [cutLine_none h]
    rw [memchr_eq_none_iff, hslice, List.mem_append, not_or] at h
    rw [hdrop, cstr_zero, command_of_notMem h.1]
  | some cr =>
    obtain ⟨v, w, hs, hno, rfl⟩ := memchr_eq_some_iff.mp h
    rw [hslice] at hs
    obtain ⟨w', hline⟩ : ∃ w', slice request cmd lf = v ++ CR :: w' := by
      rcases List.eq_nil_or_concat' w with rfl | ⟨w', z, rfl⟩
      · exact absurd (List.append_inj' hs rfl).2 (by decide)
      · refine ⟨w', (List.append_inj' (?_ : _ ++ [0] = (v ++ CR :: w') ++ [z]) rfl).1⟩
        rw [hs]
        simp
    have hbehind : ((request.set lf 0).set (cmd + v.length) 0).drop cmd =
        v ++ 0 :: (w' ++ 0 :: request.drop (lf + 1)) := by
      rw [List.drop_set, if_neg (by omega), hdrop, hline, Nat.add_sub_cancel_left]
      simp
    rw [cutLine_some h, hbehind, cstr_zero, hline, command_cr hno]

end

/-! ## §3 The lines of a read -/

/-- What is written for lines, none of which is `quit`. -/
def answersTo (sid : Text) (lines : List Text) : List Text :=
  lines.map fun line => unknownCommand sid (command line)

/-- One of the lines is `quit`. -/
def Quits (lines : List Text) : Prop := ∃ line ∈ lines, command line = quit

instance (lines : List Text) : Decidable (Quits lines) :=
  inferInstanceAs (Decidable (∃ line ∈ lines, command line = quit))

/-- The connection after lines that were answered. -/
def IoPort.answered (p : IoPort) (request : List UInt8) («end» : Nat) (lines : List Text) :
    IoPort :=
  { p with request, «end», written := p.written ++ answersTo p.sid lines }

/-- What the loop makes of lines: `tail` is behind the last line feed, or
from `data` on if there is none. -/
def LoopEnds (p : IoPort) (lines : List Text) (tail : Text) (stop : Nat)
    (r : Except PortFault (Nat × IoPort)) : Prop :=
  if Quits lines then r = .error .useAfterFree
  else ∃ data request «end», r = .ok (data, p.answered request «end» lines) ∧ data ≤ stop ∧
    request.length = p.request.length ∧ slice request data stop = tail

theorem portCmd_quit {p : IoPort} {cmd : Text} (h : cmd = quit) : (portCmd p cmd).freed = true := by
  simp [portCmd, h]

theorem portCmd_other {p : IoPort} {cmd : Text} (h : cmd ≠ quit) :
    portCmd p cmd = p.writef (unknownCommand p.sid cmd) := by
  simp [portCmd, h]

/-- Behind the last line feed, or everything. -/
theorem rest_eq (t : Text) : (if LF ∈ t then (cutAt LF t).2 else t) = (cutAt LF t).2 := by
  split
  · rfl
  · next h => rw [cutAt_of_notMem h]

/-- A line that is not `quit` in front of others. -/
theorem LoopEnds.cons {p : IoPort} {line : Text} {lines : List Text} {tail request : Text}
    {stop e : Nat}
    {r : Except PortFault (Nat × IoPort)} (hq : command line ≠ quit)
    (hlen : request.length = p.request.length)
    (h : LoopEnds { p with
      request, «end» := e, written := p.written ++ [unknownCommand p.sid (command line)] }
      lines tail stop r) : LoopEnds p (line :: lines) tail stop r := by
  have hquits : Quits (line :: lines) ↔ Quits lines := by simp [Quits, hq]
  unfold LoopEnds at h ⊢
  rw [if_congr hquits rfl rfl]
  split at h
  · rwa [if_pos (by assumption)]
  · obtain ⟨data, request', e', hr, hle, hlen', htail⟩ := h
    rw [if_neg (by assumption)]
    refine ⟨data, request', e', ?_, hle, hlen'.trans hlen, htail⟩
    rw [hr]
    simp [IoPort.answered, answersTo]

/-- The loop goes through the lines of what is there from `cmd` on, when
there is no line feed before `data`. -/
theorem portLines_ends {p : IoPort} {cmd data stop : Nat} (hcmd : cmd ≤ data) (hdata : data ≤ stop)
    (hstop : stop ≤ p.request.length) (hno : LF ∉ slice p.request cmd data)
    (hfreed : p.freed = false) :
    LoopEnds p (cutAt LF (slice p.request cmd stop)).1
      (if LF ∈ slice p.request data stop then (cutAt LF (slice p.request cmd stop)).2
        else slice p.request data stop) stop (portLines p cmd data stop) := by
  induction hn : stop - data using Nat.strong_induction_on generalizing p cmd data with
  | h n ih =>
    have hwhole := slice_append p.request hcmd hdata
    rw [portLines]
    cases hfind : memchr p.request LF data stop with
    | none =>
      -- no line feed: nothing is answered
      have hnone := memchr_eq_none_iff.mp hfind
      have hall : LF ∉ slice p.request cmd stop := by
        rw [hwhole, List.mem_append, not_or]
        exact ⟨hno, hnone⟩
      rw [if_neg hnone, cutAt_of_notMem hall, LoopEnds, if_neg (by simp [Quits])]
      refine ⟨data, p.request, p.end, ?_, hdata, rfl, rfl⟩
      have hsame : p.answered p.request p.end [] = p := by simp [IoPort.answered, answersTo]
      rw [hsame]
      split <;> rfl
    | some lf =>
      obtain ⟨hfrom, hlt, hv, hs⟩ := memchr_split hstop hfind
      have hline := slice_append p.request hcmd hfrom
      have hlineNo : LF ∉ slice p.request cmd lf := by
        rw [hline, List.mem_append, not_or]
        exact ⟨hno, hv⟩
      have hcuts : cutAt LF (slice p.request cmd stop) =
          (slice p.request cmd lf :: (cutAt LF (slice p.request (lf + 1) stop)).1,
            (cutAt LF (slice p.request (lf + 1) stop)).2) := by
        rw [hwhole, hs, ← List.append_assoc, ← hline, cutAt_append_cons hlineNo]
      have hmem : LF ∈ slice p.request data stop := by simp [hs]
      have hseen : cstr ((cutLine p.request cmd lf).drop cmd) = command (slice p.request cmd lf) :=
        cstr_cutLine (hcmd.trans hfrom) (hlt.trans_le hstop)
      simp only [if_pos (hfrom.trans_lt hlt), if_pos hmem, hcuts, hseen]
      by_cases hq : command (slice p.request cmd lf) = quit
      · rw [LoopEnds, if_pos ⟨_, List.mem_cons_self, hq⟩, if_pos (portCmd_quit hq)]
      · -- the line is answered, and the loop goes on behind its line feed
        rw [portCmd_other hq, if_neg (by simp [IoPort.writef, hfreed])]
        have hrest := @ih (stop - (lf + 1)) (by omega)
          { ({ p with request := cutLine p.request cmd lf }.writef
              (unknownCommand p.sid (command (slice p.request cmd lf)))) with «end» := lf + 1 }
          (lf + 1) (lf + 1) (le_refl _) (by omega)
          (by simpa [IoPort.writef, length_cutLine] using hstop) (by simp [slice]) hfreed rfl
        simp only [IoPort.writef, slice_cutLine, rest_eq] at hrest
        exact hrest.cons hq length_cutLine

/-! ## §4 Reads -/

/-- An open connection with the beginning of a line. -/
structure PortHolds (p : IoPort) (held : Text) : Prop where
  isOpen : 0 ≤ p.fd
  live : p.freed = false
  size : p.request.length = requestSize
  stop : p.end = held.length
  fits : held.length ≤ requestSize
  front : slice p.request 0 p.end = held
  noLf : LF ∉ held

theorem portHolds_accept {fd : Int} (hfd : 0 ≤ fd) (sid peer : Text) :
    PortHolds (portAccept fd sid peer) [] where
  isOpen := hfd
  live := rfl
  size := List.length_replicate
  stop := rfl
  fits := Nat.zero_le _
  front := rfl
  noLf := by simp

theorem PortHolds.room {p : IoPort} {held : Text} (h : PortHolds p held) :
    toRecv p = requestSize - held.length := by
  have hfits := h.fits
  have hsize : requestSize = 200 := rfl
  unfold toRecv toUnsigned toUnsignedLong
  rw [h.stop]
  omega

/-- What the handler makes of bytes: the lines that end in them are
answered, and the new rest is held. -/
def ReadEnds (p : IoPort) (lines : List Text) (held : Text) (r : Except PortFault (Int × IoPort)) :
    Prop :=
  if Quits lines then r = .error .useAfterFree
  else ∃ p', r = .ok (0, p') ∧ PortHolds p' held ∧ p'.written = p.written ++ answersTo p.sid lines ∧
    p'.sid = p.sid

section

variable {p : IoPort} {held bytes : Text}

/-- The buffer with bytes behind what is held. -/
theorem PortHolds.received (h : PortHolds p held) (hroom : bytes.length ≤ toRecv p) :
    (overwrite p.request p.end bytes).length = requestSize ∧
      p.end + bytes.length ≤ requestSize ∧
      slice (overwrite p.request p.end bytes) 0 p.end = held ∧
      slice (overwrite p.request p.end bytes) p.end (p.end + bytes.length) = bytes := by
  have hfits := h.fits
  have hin : p.end ≤ p.request.length := by
    rw [h.stop, h.size]
    exact h.fits
  rw [h.room] at hroom
  refine ⟨?_, ?_, ?_, slice_overwrite p.request hin bytes⟩
  · rw [length_overwrite _ hin, h.size, h.stop]
    omega
  · rw [h.stop]
    omega
  · rw [slice_overwrite_before _ hin, h.front]

/-- What is left behind the loop is moved to the front. -/
theorem portHolds_moved {request tail : Text} {data stop : Nat} (hopen : 0 ≤ p.fd)
    (hlive : p.freed = false) (hsize : request.length = requestSize) (hstop : stop ≤ requestSize)
    (htail : slice request data stop = tail) (hno : LF ∉ tail) (lines : List Text) (e : Nat) :
    PortHolds
      (if data < stop then
        { p.answered (overwrite request 0 tail) (stop - data) lines with «end» := stop - data }
      else { p.answered request e lines with «end» := 0 }) tail := by
  have hlen : tail.length = stop - data := by
    rw [← htail, length_slice (by omega)]
  split
  · next hlt =>
    refine ⟨hopen, hlive, ?_, hlen.symm, by omega, ?_, hno⟩
    · show (overwrite request 0 tail).length = requestSize
      rw [length_overwrite _ (Nat.zero_le _), hsize, hlen]
      omega
    · have hback := slice_overwrite request (Nat.zero_le _) tail
      rwa [Nat.zero_add, hlen] at hback
  · next hlt =>
    have hnil : tail = [] := List.length_eq_zero_iff.mp (by omega)
    subst hnil
    exact ⟨hopen, hlive, hsize, rfl, Nat.zero_le _, rfl, hno⟩

theorem portStreamRecv_ends (h : PortHolds p held) (hne : bytes ≠ [])
    (hroom : bytes.length ≤ toRecv p) :
    ReadEnds p (forgetStep LF held bytes).1 (forgetStep LF held bytes).2
      (portStreamRecv p (.ok bytes)) := by
  obtain ⟨hlen, hstop, hold, hnew⟩ := h.received hroom
  have hall : slice (overwrite p.request p.end bytes) 0 (p.end + bytes.length) = held ++ bytes := by
    rw [slice_append _ (Nat.zero_le p.end) (Nat.le_add_right _ bytes.length), hold, hnew]
  have hloop := @portLines_ends { p with request := overwrite p.request p.end bytes } 0 p.end
    (p.end + bytes.length) (Nat.zero_le _) (Nat.le_add_right _ _) (hlen ▸ hstop)
    (by rw [hold]; exact h.noLf) h.live
  have hrest := notMem_forgetStep LF held bytes
  simp only [hall, hnew] at hloop
  rw [forgetStep_eq h.noLf] at hrest ⊢
  generalize (cutAt LF (held ++ bytes)).1 = lines at hloop hrest ⊢
  generalize (if LF ∈ bytes then (cutAt LF (held ++ bytes)).2 else bytes) = tail at hloop hrest ⊢
  unfold ReadEnds
  unfold LoopEnds at hloop
  simp only [portStreamRecv, if_neg (Nat.not_lt.mpr hroom), if_neg hne]
  split
  · next hq =>
    rw [if_pos hq] at hloop
    rw [hloop]
    rfl
  · next hq =>
    rw [if_neg hq] at hloop
    obtain ⟨data, request, e, hr, hle, hsize, htail⟩ := hloop
    have hmoved := portHolds_moved h.isOpen h.live (hsize.trans hlen) hstop htail hrest lines e
    rw [hr, except_ok_bind]
    by_cases hlt : data < p.end + bytes.length
    · rw [if_pos hlt] at hmoved
      simp only [IoPort.answered, if_pos hlt, htail]
      exact ⟨_, rfl, hmoved, rfl, rfl⟩
    · rw [if_neg hlt] at hmoved
      simp only [IoPort.answered, if_neg hlt]
      exact ⟨_, rfl, hmoved, rfl, rfl⟩

end

/-! ## §5 Runs -/

/-- The bytes that come in before the connection ends, read by read. -/
def incoming : List (SysResult (List UInt8)) → List (List UInt8)
  | .ok (b :: bytes) :: answers => (b :: bytes) :: incoming answers
  | _ => []

/-- The connection ends: an error, or the end of the stream. -/
def Ends (answers : List (SysResult (List UInt8))) : Prop :=
  ∃ a ∈ answers, a = .ok [] ∨ ∃ e, a = .err e

/-- Nothing is read from a connection that is closed. -/
theorem portRun_closed {p : IoPort} (h : p.fd = -1) (answers : List (SysResult (List UInt8))) :
    portRun p answers = .ok p := by
  induction answers with
  | nil => rfl
  | cons a answers ih =>
    rw [portRun, List.foldlM_cons, portReadable, if_pos h]
    exact ih

/-- No read brings more than there is room for behind what is held: what
`recv` is asked for. -/
def Fits : Text → List (List UInt8) → Prop
  | _, [] => True
  | held, c :: cs => c.length ≤ requestSize - held.length ∧ Fits (forgetStep LF held c).2 cs

instance decidableFits : (held : Text) → (cs : List (List UInt8)) → Decidable (Fits held cs)
  | _, [] => isTrue trivial
  | held, c :: cs =>
    have := decidableFits (forgetStep LF held c).2 cs
    inferInstanceAs (Decidable (c.length ≤ requestSize - held.length ∧ _))

/-- What a run comes to that started with the beginning of a line: `lines`
were complete, and `rest` is held. -/
structure RunEnds (p p' : IoPort) (lines : List Text) (rest : Text) (ends : Prop) : Prop where
  written : p'.written = p.written ++ answersTo p.sid lines
  size : p'.request.length = requestSize
  closed : ends → p'.fd = -1
  holds : ¬ ends → PortHolds p' rest

theorem close_fd {p : IoPort} (h : 0 ≤ p.fd) : p.close.fd = -1 := by
  simp [IoPort.close, h]

theorem close_rest {p : IoPort} : p.close.written = p.written ∧ p.close.request = p.request := by
  unfold IoPort.close
  split <;> exact ⟨rfl, rfl⟩

/-- A run that closes the connection at once. -/
theorem runEnds_close {p : IoPort} {held : Text} (h : PortHolds p held) {ends : Prop}
    (hends : ends) :
    RunEnds p p.close [] held ends where
  written := by simp [close_rest.1, answersTo]
  size := by rw [close_rest.2, h.size]
  closed _ := close_fd h.isOpen
  holds hno := absurd hends hno

theorem quits_append (lines more : List Text) :
    Quits (lines ++ more) ↔ Quits lines ∨ Quits more := by
  simp only [Quits, List.mem_append, or_and_right, exists_or]

theorem portRun_cons {p p' : IoPort} {a : SysResult (List UInt8)}
    {answers : List (SysResult (List UInt8))} (h : portReadable p a = .ok p') :
    portRun p (a :: answers) = portRun p' answers := by
  rw [portRun, List.foldlM_cons, h]
  rfl

theorem portRun_fault {p : IoPort} {a : SysResult (List UInt8)} {f : PortFault}
    {answers : List (SysResult (List UInt8))} (h : portReadable p a = .error f) :
    portRun p (a :: answers) = .error f := by
  rw [portRun, List.foldlM_cons, h]
  rfl

/-- A run is the reads one after the other, until the connection ends. -/
theorem portRun_ends {p : IoPort} {held : Text} (h : PortHolds p held)
    {answers : List (SysResult (List UInt8))} (hfits : Fits held (incoming answers)) :
    if Quits (forget LF held (incoming answers)).1 then portRun p answers = .error .useAfterFree
    else ∃ p', portRun p answers = .ok p' ∧
      RunEnds p p' (forget LF held (incoming answers)).1 (forget LF held (incoming answers)).2
        (Ends answers) := by
  have hfd : p.fd ≠ -1 := by
    have hopen := h.isOpen
    omega
  induction answers generalizing p held with
  | nil =>
    refine ⟨p, rfl, ⟨by simp [answersTo, incoming, forget], h.size, ?_, fun _ => h⟩⟩
    rintro ⟨a, ha, -⟩
    simp at ha
  | cons a answers ih =>
    rcases a with ⟨- | ⟨b, bytes⟩⟩ | e
    · -- the end of the stream
      have hread : portReadable p (.ok []) = .ok p.close := by
        rw [portReadable, if_neg hfd]
        rfl
      rw [portRun_cons hread, portRun_closed (close_fd h.isOpen)]
      exact ⟨p.close, rfl, runEnds_close h ⟨_, List.mem_cons_self, .inl rfl⟩⟩
    · -- a read: its lines come before those of the rest of the run
      obtain ⟨hroom, hfits⟩ := hfits
      rw [← h.room] at hroom
      have hends := portStreamRecv_ends h (List.cons_ne_nil b bytes) hroom
      rw [incoming, forget]
      simp only [quits_append]
      unfold ReadEnds at hends
      split at hends
      · next hq =>
        rw [if_pos (.inl hq)]
        refine portRun_fault ?_
        rw [portReadable, if_neg hfd, hends]
        rfl
      · next hq =>
        obtain ⟨p', hr, hholds, hwritten, hsid⟩ := hends
        have hread : portReadable p (.ok (b :: bytes)) = .ok p' := by
          rw [portReadable, if_neg hfd, hr]
          rfl
        have hends' : Ends (.ok (b :: bytes) :: answers) ↔ Ends answers := by
          simp [Ends]
        rw [portRun_cons hread]
        have hfd' : p'.fd ≠ -1 := by
          have hopen := hholds.isOpen
          omega
        have hrun := ih hholds hfits hfd'
        rw [if_congr (or_iff_right hq) rfl rfl]
        split at hrun
        · rwa [if_pos (by assumption)]
        · rw [if_neg (by assumption)]
          obtain ⟨p'', hr'', hw, hsz, hcl, hho⟩ := hrun
          refine ⟨p'', hr'', ?_, hsz, fun he => hcl (hends'.mp he),
            fun he => hho (mt hends'.mpr he)⟩
          rw [hw, hwritten, hsid, List.append_assoc, answersTo, answersTo, ← List.map_append]
          rfl
    · -- an error: `io_stream_event_handler` closes the connection
      have hread : portReadable p (.err e) = .ok p.close := by
        rw [portReadable, if_neg hfd]
        rfl
      rw [portRun_cons hread, portRun_closed (close_fd h.isOpen)]
      exact ⟨p.close, rfl, runEnds_close h ⟨_, List.mem_cons_self, .inr ⟨e, rfl⟩⟩⟩

/-- The lines that a connection sees of its reads. -/
def linesSeen (answers : List (SysResult (List UInt8))) : List Text :=
  (cutAt LF (kept LF [] (incoming answers))).1

/-- **The server over a whole connection.** It answers the lines of what is
kept of the stream, in order, and nothing is dropped from the stream just if
every read without a line feed comes when no line has been begun. A `quit`
among the lines, and nothing else, leads to a use of the connection after it
was freed. The buffer never grows, and the connection is closed if and as
soon as a read fails or has nothing. -/
theorem port_run_eq {fd : Int} (hfd : 0 ≤ fd) (sid peer : Text)
    {answers : List (SysResult (List UInt8))} (hfits : Fits [] (incoming answers)) :
    (portRun (portAccept fd sid peer) answers = .error .useAfterFree ↔ Quits (linesSeen answers)) ∧
    (¬ Quits (linesSeen answers) → ∃ p, portRun (portAccept fd sid peer) answers = .ok p ∧
      p.written = hello sid peer :: answersTo sid (linesSeen answers) ∧
      p.request.length = requestSize ∧ (p.fd = -1 ↔ Ends answers)) ∧
    (kept LF [] (incoming answers) = (incoming answers).flatten ↔
      NoneLost LF [] (incoming answers)) := by
  have hseen : linesSeen answers = (forget LF [] (incoming answers)).1 := by
    rw [forget_eq (by simp)]
    rfl
  have hrun := portRun_ends (portHolds_accept hfd sid peer) hfits
  rw [← hseen] at hrun
  refine ⟨?_, ?_, by simpa using kept_eq_iff LF [] (incoming answers)⟩
  · split at hrun
    · next hq => simp [hrun, hq]
    · next hq =>
      obtain ⟨p, hr, -⟩ := hrun
      simp [hr, hq]
  · intro hno
    rw [if_neg hno] at hrun
    obtain ⟨p, hr, hends⟩ := hrun
    refine ⟨p, hr, hends.written, hends.size, ?_, hends.closed⟩
    intro hclosed
    by_contra hno
    have hopen := (hends.holds hno).isOpen
    omega

/-- Two commands in three reads: the second is begun, then lost to a read
without a line feed. -/
def threeReads : List (SysResult (List UInt8)) :=
  [.ok (lit ['h', 'i', '\r', '\n', 'f']), .ok (lit ['o']), .ok (lit ['o', '\n'])]

theorem port_run_eq_threeReads :
    (∃ p, portRun (portAccept 4 [] []) threeReads = .ok p ∧ p.fd ≠ -1) ∧
      ¬ NoneLost LF [] (incoming threeReads) := by
  obtain ⟨-, hends, hlost⟩ :=
    port_run_eq (by decide : (0 : Int) ≤ 4) [] [] (by decide : Fits [] (incoming threeReads))
  obtain ⟨p, hrun, -, -, hclosed⟩ := hends (by decide)
  have hopen : ¬ Ends threeReads := by
    simp [Ends, threeReads, lit]
  exact ⟨⟨p, hrun, fun hfd => hopen (hclosed.mp hfd)⟩, fun h => absurd (hlost.mpr h) (by decide)⟩

end Nanio.Server
