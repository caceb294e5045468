/-
Nanio.Stream.Writef — formatted writing.

`io_stream_vwritef` formats into `msg`, of which `vsnprintf` fills 1023 bytes
at most, and passes on the number that `vsnprintf` returns, which is the
length of the whole text. For a text of 1024 bytes or more that is past what
was stored, and soon past `msg` (`long_text_leaks`). §2 says for which texts
a call is right, and what comes out of a run of such calls.
-/
import Nanio.Stream.Contiguous

namespace Nanio.Stream

open Nanio.Lib Nanio.Buf

/-! ## §1 `io_stream_vwritef` -/

/-- What a format and its arguments come to: the whole text, or nothing where
a conversion fails. -/
abbrev Formatted := Option (List UInt8)

/-- `vsnprintf(s, size, …)`: its result and the memory from `s` on, which was
`mem`. As much of the text as fits is stored, and a NUL behind it; a text
that is too long for the `int` is a failure. -/
def vsnprintf (mem : Nat → UInt8) (size : Nat) : Formatted → Int × (Nat → UInt8)
  | some text =>
    if (text.length : Int) ≤ INT_MAX then
      (text.length, fun i => ((text.take (size - 1) ++ [0])[i]?).getD (mem i))
    else (-1, mem)
  | none => (-1, mem)

/-- `sizeof msg`. -/
def msgSize : Nat := 1024

/-- The `len` bytes from `msg` on, `mem` being what the stack holds there
before the call. -/
def handed (mem : Nat → UInt8) (f : Formatted) : List UInt8 :=
  let (n, msg) := vsnprintf mem msgSize f
  (List.range (toUnsignedLong n)).map msg

/-- `io_stream_vwritef`. -/
def ioStreamVwritef (mem : Nat → UInt8) (f : Formatted) : Code Int := ioStreamWrite (handed mem f)

/-- `io_stream_writef`. -/
def ioStreamWritef (mem : Nat → UInt8) (f : Formatted) : Code Int := ioStreamVwritef mem f

/-- The call as one of those of a run. -/
def Call.vwritef (mem : Nat → UInt8) (f : Formatted) : Call := .write (handed mem f)

theorem body_vwritef (mem : Nat → UInt8) (f : Formatted) :
    body (.vwritef mem f) = ioStreamVwritef mem f := rfl

/-! ## §2 What is handed on -/

/-- The bytes are the front of the text, and no more than what `vsnprintf`
stored of it. -/
structure HandsText (f : Formatted) (bytes : List UInt8) : Prop where
  front : bytes <+: f.getD []
  stored : bytes.length ≤ msgSize - 1

theorem handed_short (mem : Nat → UInt8) {text : List UInt8} (h : text.length ≤ msgSize - 1) :
    handed mem (some text) = text := by
  have hsize : msgSize - 1 = 1023 := rfl
  have hmax : INT_MAX = 2 ^ 31 - 1 := rfl
  have hfits : (text.length : Int) ≤ INT_MAX := by omega
  have hlen : toUnsignedLong text.length = text.length := toUnsignedLong_natCast (by omega)
  simp only [handed, vsnprintf, if_pos hfits, hlen, List.take_of_length_le h]
  refine List.ext_getElem (by simp) fun i hi _ => ?_
  have hi' : i < text.length := by simpa using hi
  simp [List.getElem?_append_left hi', hi']

theorem handed_long (mem : Nat → UInt8) {text : List UInt8} (h : msgSize ≤ text.length) :
    msgSize ≤ (handed mem (some text)).length := by
  have hsize : msgSize = 1024 := rfl
  by_cases hfits : (text.length : Int) ≤ INT_MAX
  · have hmax : INT_MAX = 2 ^ 31 - 1 := rfl
    have hlen : toUnsignedLong text.length = text.length := toUnsignedLong_natCast (by omega)
    simpa [handed, vsnprintf, hfits, hlen] using h
  · have hlen : toUnsignedLong (-1) = 2 ^ 64 - 1 := rfl
    simp only [handed, vsnprintf, if_neg hfits, hlen, List.length_map, List.length_range]
    omega

/-- For a text that does not fit, memory behind `msg` is handed on. -/
theorem handed_behind (mem : Nat → UInt8) {text : List UInt8} (h : msgSize < text.length)
    (hmax : (text.length : Int) ≤ INT_MAX) :
    (handed mem (some text))[msgSize]? = some (mem msgSize) := by
  have hval : INT_MAX = 2 ^ 31 - 1 := rfl
  have hlen : toUnsignedLong text.length = text.length := toUnsignedLong_natCast (by omega)
  have hstored : (text.take (msgSize - 1) ++ [0])[msgSize]? = none := by
    have hsize : msgSize = 1024 := rfl
    rw [List.getElem?_eq_none_iff, List.length_append, List.length_take, List.length_singleton]
    omega
  simp only [handed, vsnprintf, if_pos hmax, hlen, List.getElem?_map, List.getElem?_range h,
    Option.map_some, hstored, Option.getD_none]

/-- Text is handed on just when the whole of it is in `msg`. -/
theorem handsText_iff (mem : Nat → UInt8) (f : Formatted) :
    HandsText f (handed mem f) ↔ ∃ text, f = some text ∧ text.length ≤ msgSize - 1 := by
  have hsize : msgSize = 1024 := rfl
  constructor
  · intro h
    have hstored := h.stored
    cases f with
    | none =>
      have hlen : (handed mem none).length = 2 ^ 64 - 1 := by
        simp only [handed, vsnprintf, List.length_map, List.length_range]
        rfl
      omega
    | some text =>
      refine ⟨text, rfl, ?_⟩
      by_contra hlong
      have hleak : msgSize ≤ (handed mem (some text)).length := handed_long mem (by omega)
      omega
  · rintro ⟨text, rfl, hlen⟩
    rw [handed_short mem hlen]
    exact ⟨List.prefix_refl text, hlen⟩

/-! ## §3 Runs -/

/-- The condition on a run: it writes by `io_stream_vwritef` only, texts of
which each is in `msg` as a whole, and under the condition for contiguous
writes. -/
def writefOk (texts : List UInt8 → Prop) (v : View World Method Call)
    (ch : Choice Query Answer Call) : Prop :=
  contiguousOk v ch ∧ ∀ data, ch = .enter (.write data) →
    ∃ mem text, texts text ∧ text.length ≤ msgSize - 1 ∧ Call.write data = .vwritef mem (some text)

/-- **Only formatted text goes out.** One call hands on the front of its text
and nothing past what was stored of it, just when the text has 1023 bytes at
most. In every state of a run of such calls the output is made of fronts of
the formatted texts, with the whole text of each call that has returned a
non-negative value among them. -/
theorem vwritef_hands_text (texts : List UInt8 → Prop) {w : World} (hout : Holds w.s.out [])
    (hwire : w.wire = []) {choices : List (Choice Query Answer Call)}
    (hm : Meets body (writefOk texts) (.start w) choices)
    {cfg : Config World Query Answer Method Fault Call}
    (hrun : run body (.start w) choices = some cfg) (hctl : cfg.ctl = .owner) :
    (∀ mem f, HandsText f (handed mem f) ↔ ∃ text, f = some text ∧ text.length ≤ msgSize - 1) ∧
    ∃ content blocks, Holds cfg.st.s.out content ∧ cfg.st.wire ++ content = blocks.flatten ∧
      (∀ b ∈ blocks, ∃ text, texts text ∧ b <+: text) ∧
      (cfg.log.flatMap returned).Subperm blocks := by
  have hm' : Meets body (contiguousContract texts).ok (.start w) choices := by
    refine hm.mono fun v ch h => ⟨h.1, fun data hch => ?_⟩
    obtain ⟨mem, text, htext, hlen, hcall⟩ := h.2 data hch
    obtain rfl : data = handed mem (some text) := by simpa [Call.vwritef] using hcall
    rwa [handed_short mem hlen]
  have h0 : Contiguous texts [] w [] :=
    ⟨⟨[], ⟨[], hout, by simp [hwire]⟩, by simp, by simp⟩, by simp, by simp⟩
  obtain ⟨⟨blocks, ⟨content, hh, heq⟩, hsub, hsrc⟩, -, -⟩ :=
    run_inv _ (contiguous_body texts) h0 hm' hrun hctl
  exact ⟨handsText_iff, content, blocks, hh, heq, hsrc, hsub⟩

/-- Two bytes of text, of which the kernel takes one. -/
def writeText : List (Choice Query Answer Call) :=
  [.enter (.vwritef (fun _ => 7) (some [65, 10])), .answer (.send [65, 10]) (.ok 1), .back 0]

theorem vwritef_hands_text_writeText :
    ∃ cfg content, ∃ blocks : List (List UInt8),
      run body (.start (.opened 5 ⟨false, false, true, false⟩ false)) writeText = some cfg ∧
        Holds cfg.st.s.out content ∧ cfg.st.wire ++ content = blocks.flatten ∧
        ∀ b ∈ blocks, b <+: [65, 10] := by
  have hm : Meets body (writefOk (· = [65, 10]))
      (.start (.opened 5 ⟨false, false, true, false⟩ false)) writeText := by
    refine meets_cons ⟨fun _ _ => rfl, fun data hch => ?_⟩ rfl <|
      meets_cons ⟨trivial, fun _ h => by cases h⟩ rfl <|
      meets_cons ⟨trivial, fun _ h => by cases h⟩ rfl meets_nil
    exact ⟨_, [65, 10], rfl, by decide, (Choice.enter.inj hch).symm⟩
  obtain ⟨-, content, blocks, hh, heq, hfronts, -⟩ :=
    vwritef_hands_text (· = [65, 10])
      (opened_holds 5 ⟨false, false, true, false⟩ false) rfl hm rfl rfl
  refine ⟨_, content, blocks, rfl, hh, heq, fun b hb => ?_⟩
  obtain ⟨text, rfl, hfront⟩ := hfronts b hb
  exact hfront

/-- A text of 1025 bytes: the last byte handed on lies behind `msg`. -/
theorem long_text_leaks :
    ∃ text : List UInt8, (handed (fun _ => 7) (some text))[1024]? = some 7 ∧ 7 ∉ text ∧
      ¬HandsText (some text) (handed (fun _ => 7) (some text)) := by
  have hlen : (List.replicate 1025 (65 : UInt8)).length = 1025 := List.length_replicate
  have hbehind : msgSize < (List.replicate 1025 (65 : UInt8)).length := by
    rw [hlen]
    decide
  refine ⟨List.replicate 1025 65, ?_, ?_, fun h => ?_⟩
  · refine handed_behind (fun _ => 7) hbehind ?_
    rw [hlen]
    decide
  · exact fun h => absurd (List.eq_of_mem_replicate h) (by decide)
  · have hlong := handed_long (fun _ => 7) hbehind.le
    have hstored := h.stored
    have hsize : msgSize = 1024 := rfl
    omega

end Nanio.Stream
