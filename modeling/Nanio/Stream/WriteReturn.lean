/-
Nanio.Stream.WriteReturn — what `io_stream_write` tells its caller.

A write without a send error is taken over completely: the kernel has a
part of it, and the rest stands at the end of the out buffer
(`ioStreamWrite_play`). The value it returns is the size of the data in
every case but one: when the kernel has taken all of it at once, the
function leaves through the branch that reports `all_sent`, and returns 0
(`takesAll_iff`). The methods of the owner may do anything that leaves the
buffer in order.
-/
import Nanio.Stream.StreamRules

namespace Nanio.Stream

open Nanio.Lib Nanio.Buf

/-- What an owner leaves behind: an out buffer in order, and all that the
kernel has taken. -/
structure KeepsStream (owner : Owner World Method) : Prop where
  buffer : ∀ ms m w content, Holds w.s.out content →
    ∃ content', Holds (owner ms m w).2.s.out content'
  wire : ∀ ms m w, w.wire <+: (owner ms m w).2.wire

/-- `!s->connecting && io_buf_is_empty(&s->out)`: the data goes to the
kernel first. -/
def World.idle (w : World) : Bool := !w.s.connecting && ioBufIsEmpty w.s.out

/-- The bytes of a write that the direct `send` takes, if it takes `n` of
those it is given. -/
def World.sentDirect (w : World) (n : Nat) : Nat := if w.idle then n else 0

section Play

variable (ans : ∀ q, Answer q) {owner : Owner World Method} {w : World}

theorem callIf_play (hk : KeepsStream owner) {content : List UInt8} (hh : Holds w.s.out content)
    (present : StreamVmt → Bool) (m : Method) (ms : List Method) :
    ∃ w' ms' content', (callIf present m).play ans owner w ms = .ok ((), w', ms') ∧
      w.wire <+: w'.wire ∧ Holds w'.s.out content' := by
  cases hp : present w.s.vmt with
  | false =>
    refine ⟨w, ms, content, ?_, List.prefix_rfl, hh⟩
    simp [callIf, hp, Except.bind]
  | true =>
    obtain ⟨content', hh'⟩ := hk.buffer ms m w content hh
    refine ⟨(owner ms m w).2, ms ++ [m], content', ?_, hk.wire ms m w, hh'⟩
    simp [callIf, hp, Except.bind]

/-- The end of a write: what is left stands at the end of the buffer. -/
theorem writeRest_play (hk : KeepsStream owner) {content : List UInt8} (hh : Holds w.s.out content)
    (dt : List UInt8) (sent : Nat) (ms : List Method) :
    ∃ w' ms' content', (writeRest dt sent).play ans owner w ms =
        .ok (if dt = [] then 0 else toInt (dt.length + sent), w', ms') ∧
      w.wire <+: w'.wire ∧ Holds w'.s.out (content' ++ dt) := by
  by_cases hdt : dt = []
  · have hh' : Holds w.dropOut.s.out content := hh
    obtain ⟨w', ms', content', hcall, hwire, hout⟩ :=
      callIf_play ans hk hh' (·.allSent) (.allSent (.write 0)) ms
    refine ⟨w', ms', content', ?_, hwire, by simpa [hdt] using hout⟩
    simp [writeRest, hdt, hcall, Except.bind]
  · obtain ⟨out, hw, hout⟩ := ioBufWrite_ok hh dt
    refine ⟨w.wantOut.setOut out, ms, content, ?_, List.prefix_rfl, hout⟩
    simp [writeRest, hdt, hw, Except.bind]

/-- A write to a stream that is not idle is queued. -/
theorem ioStreamWrite_queue (data : List UInt8) (ms : List Method) (hopen : w.s.fd ≠ -1)
    (hidle : w.idle = false) :
    (ioStreamWrite data).play ans owner w ms = (writeRest data 0).play ans owner w ms := by
  have hbranch : (!w.s.connecting && ioBufIsEmpty w.s.out) = false := hidle
  rw [ioStreamWrite, play_bind_ok play_read]
  simp only [if_neg hopen, hbranch, Bool.false_eq_true, if_false]

/-- A write to an idle stream sends, reports what is gone, and queues the rest. -/
theorem ioStreamWrite_direct {data : List UInt8} {n : Nat} (ms : List Method)
    (hopen : w.s.fd ≠ -1) (hidle : w.idle = true) (hn : n ≤ data.length)
    (hans : ans (.send data) = .ok n) :
    (ioStreamWrite data).play ans owner w ms =
      ((if n ≠ 0 then
          callIf (·.sent) (.sent (toUnsigned n) (.write (data.length - n)))
        else pure () : Code Unit).play ans owner (w.taken (data.take n)) ms).bind fun r =>
        (writeRest (data.drop n) n).play ans owner r.2.1 r.2.2 := by
  have hbranch : (!w.s.connecting && ioBufIsEmpty w.s.out) = true := hidle
  have hanswered : ¬ data.length < n := by omega
  rw [ioStreamWrite, play_bind_ok play_read]
  simp only [if_neg hopen, hbranch, if_true]
  rw [send, play_bind_ok (play_query _), hans]
  simp only [if_neg hanswered]
  rw [play_bind_ok (play_modify _)]
  by_cases hn0 : n = 0
  · simp [hn0, Except.bind]
  · simp [hn0, Except.bind]

/-- The value of a write of `data` of which the kernel takes `n` at once. -/
def writeValue (w : World) (data : List UInt8) (n : Nat) : Int :=
  if w.sentDirect n = data.length then 0 else toInt data.length

/-- A write without a send error takes all its data over. -/
theorem ioStreamWrite_play (hk : KeepsStream owner) {content data : List UInt8} {n : Nat}
    (hh : Holds w.s.out content) (hopen : w.s.fd ≠ -1) (hdata : data ≠ []) (hn : n ≤ data.length)
    (hans : ans (.send data) = .ok n) :
    ∃ w' ms content', (ioStreamWrite data).play ans owner w [] = .ok (writeValue w data n, w', ms) ∧
      w.wire ++ data.take (w.sentDirect n) <+: w'.wire ∧
      Holds w'.s.out (content' ++ data.drop (w.sentDirect n)) := by
  have hlen : 0 ≠ data.length := fun e => hdata (List.length_eq_zero_iff.mp e.symm)
  cases hidle : w.idle with
  | false =>
    have hsent : w.sentDirect n = 0 := by simp [World.sentDirect, hidle]
    obtain ⟨w', ms, content', hrest, hwire, hout⟩ := writeRest_play ans hk hh data 0 []
    refine ⟨w', ms, content', ?_, by simpa [hsent] using hwire, by simpa [hsent] using hout⟩
    rw [ioStreamWrite_queue ans data [] hopen hidle, hrest]
    simp [writeValue, hsent, hdata, hlen]
  | true =>
    have hsent : w.sentDirect n = n := by simp [World.sentDirect, hidle]
    obtain ⟨w₁, ms₁, content₁, hcall, hwire₁, hout₁⟩ :
        ∃ w₁ ms₁ content₁, (if n ≠ 0 then callIf (·.sent) (.sent (toUnsigned n)
            (.write (data.length - n))) else pure () : Code Unit).play ans owner
              (w.taken (data.take n)) [] = .ok ((), w₁, ms₁) ∧
          w.wire ++ data.take n <+: w₁.wire ∧ Holds w₁.s.out content₁ := by
      by_cases hn0 : n = 0
      · exact ⟨w.taken (data.take n), [], content, by simp [hn0], List.prefix_rfl, hh⟩
      · rw [if_pos hn0]
        have hh' : Holds (w.taken (data.take n)).s.out content := hh
        exact callIf_play ans hk hh' (·.sent) _ []
    obtain ⟨w', ms, content', hrest, hwire, hout⟩ := writeRest_play ans hk hout₁ (data.drop n) n ms₁
    refine ⟨w', ms, content', ?_, by simpa [hsent] using hwire₁.trans hwire,
      by simpa [hsent] using hout⟩
    rw [ioStreamWrite_direct ans [] hopen hidle hn hans, hcall]
    simp only [Except.bind, hrest, writeValue, hsent]
    by_cases hall : n = data.length
    · simp [hall]
    · have hleft : data.drop n ≠ [] := by
        rw [Ne, List.drop_eq_nil_iff]
        omega
      have hsum : ((data.drop n).length : Int) + n = data.length := by
        rw [List.length_drop]
        omega
      rw [if_neg hleft, if_neg hall, hsum]

end Play

/-- The call takes responsibility for all of `data`, the kernel having taken
`n` bytes if it was asked, and returns the size of the data. -/
def TakesAll (ans : ∀ q, Answer q) (owner : Owner World Method) (w : World) (data : List UInt8)
    (n : Nat) : Prop :=
  ∃ w' ms content, (ioStreamWrite data).play ans owner w [] = .ok ((data.length : Int), w', ms) ∧
    w.wire ++ data.take (w.sentDirect n) <+: w'.wire ∧
    Holds w'.s.out (content ++ data.drop (w.sentDirect n))

/-- The value is the size of the data if and only if the kernel does not take
all of it at once, and an `int` can hold it. -/
theorem takesAll_iff (ans : ∀ q, Answer q) (owner : Owner World Method) (w : World)
    (data content : List UInt8) (n : Nat) (hk : KeepsStream owner) (hh : Holds w.s.out content)
    (hopen : w.s.fd ≠ -1) (hdata : data ≠ []) (hn : n ≤ data.length)
    (hans : ans (.send data) = .ok n) :
    TakesAll ans owner w data n ↔
      ¬ (w.idle = true ∧ n = data.length) ∧ data.length < 2 ^ 31 := by
  have hpos : 0 < data.length := List.length_pos_iff.mpr hdata
  have hall : w.sentDirect n = data.length ↔ w.idle = true ∧ n = data.length := by
    unfold World.sentDirect
    cases w.idle with
    | false => simp [hpos.ne]
    | true => simp
  obtain ⟨w', ms, content', hplay, hwire, hout⟩ :=
    ioStreamWrite_play ans hk hh hopen hdata hn hans
  rw [← hall]
  constructor
  · rintro ⟨w'', ms'', content'', hplay', -, -⟩
    rw [hplay, Except.ok.injEq, Prod.mk.injEq] at hplay'
    have hvalue := hplay'.1
    unfold writeValue at hvalue
    split at hvalue
    · omega
    · next hne =>
      refine ⟨hne, ?_⟩
      unfold toInt at hvalue
      omega
  · rintro ⟨hne, h31⟩
    refine ⟨w', ms, content', ?_, hwire, hout⟩
    rw [hplay, writeValue, if_neg hne, toInt_of_lt (by omega) (by omega)]

/-- An owner whose methods return at once. -/
def returnsAtOnce : Owner World Method := fun _ _ w => (0, w)

theorem keeps_returnsAtOnce : KeepsStream returnsAtOnce where
  buffer _ _ _ content hh := ⟨content, hh⟩
  wire _ _ _ := List.prefix_rfl

/-- A kernel that takes `n` bytes of a `send`. -/
def takes (n : Nat) : ∀ q, Answer q
  | .socket => .err .EINVAL
  | .connect => .err .EINPROGRESS
  | .send _ => .ok n
  | .drain => []
  | .soError => .ok 0
  | .peerName => .err .ENOTCONN

/-- An open, idle stream with all methods. -/
def idleStream : World := .opened 5 ⟨true, true, true, true⟩ false

theorem takesAll_two_of_three :
    TakesAll (takes 2) returnsAtOnce idleStream [1, 2, 3] 2 ↔
      ¬ (idleStream.idle = true ∧ 2 = ([1, 2, 3] : List UInt8).length) ∧
        ([1, 2, 3] : List UInt8).length < 2 ^ 31 :=
  takesAll_iff (takes 2) returnsAtOnce idleStream [1, 2, 3] [] 2 keeps_returnsAtOnce
    (opened_holds 5 ⟨true, true, true, true⟩ false) (by decide) (by decide) (by decide) rfl

/-- Three bytes, all taken at once: the call returns 0. -/
theorem not_takesAll_three :
    (takes 3 (.send [1, 2, 3]) = .ok 3 ∧ idleStream.s.fd ≠ -1) ∧
      ¬ TakesAll (takes 3) returnsAtOnce idleStream [1, 2, 3] 3 := by
  refine ⟨⟨rfl, by decide⟩, ?_⟩
  rintro ⟨w', ms, content, hplay, -, -⟩
  obtain ⟨w'', ms', -, hplay', -, -⟩ := ioStreamWrite_play (takes 3) keeps_returnsAtOnce
    (opened_holds 5 ⟨true, true, true, true⟩ false) (show idleStream.s.fd ≠ -1 by decide)
    (show ([1, 2, 3] : List UInt8) ≠ [] by decide) (n := 3) (by decide) rfl
  have hvalue : (([1, 2, 3] : List UInt8).length : Int) = 0 := by
    have h := hplay.symm.trans hplay'
    rw [Except.ok.injEq, Prod.mk.injEq] at h
    exact h.1
  exact absurd hvalue (by decide)

end Nanio.Stream
