/-
Nanio.Stream.Contiguous — the bytes of one write stay together.

The output of a stream is what the kernel has taken followed by what is
pending. `sent` is called in the middle of a write, when a part of the data
is out and the rest is not yet queued, and a write from there goes in
between (`nested_write_splits`). The condition leaves that out. A write on a
closed stream returns 0 and puts nothing anywhere, so it is not counted.

The invariant is that the output is a sequence of blocks, with one for each
write that has returned (`Whole`). Against the moment a pending callback was
called, blocks have only been added (`GrowsBy`), and while a write has bytes
left nothing has (`Still`), so the block of that write is still the last
one when the rest of it is queued.
-/
import Nanio.Stream.StreamRules
import Mathlib.Data.List.Perm.Subperm
import Mathlib.Data.List.Infix

namespace Nanio.Stream

open Nanio.Lib Nanio.Buf

/-! ## §1 The output and its blocks -/

/-- The bytes the kernel has accepted and the bytes still pending. -/
def Output (w : World) (out : List UInt8) : Prop :=
  ∃ content, Holds w.s.out content ∧ w.wire ++ content = out

/-- The data of a write on the open stream that returned a non-negative
value. -/
def returned : Event World Method Call → List (List UInt8)
  | .leave (.write data) entry _ v => if entry.s.fd ≠ -1 ∧ 0 ≤ v then [data] else []
  | _ => []

/-- `sent`, called by a write that has bytes left. -/
def midWrite : Method → Bool
  | .sent _ (.write left) => left ≠ 0
  | _ => false

/-- A write with bytes left waits for its `sent`. -/
def writing (ps : List (Pending World Method Call)) : Bool := ps.any fun p => midWrite p.method

/-- The condition: no data is written to the open stream while a write with
bytes left waits for its `sent`. A stream is connected before anything else. -/
def contiguousOk (v : View World Method Call) : Choice Query Answer Call → Prop
  | .enter (.write data) => data ≠ [] → v.st.s.fd ≠ -1 → writing v.pending = false
  | .enter (.connect _ _ _) => v.pending = [] ∧ v.log = []
  | _ => True

section Output

variable {src : List UInt8 → Prop} {w w₁ w₂ w₃ : World} {l l₁ l₂ l₃ : Log} {out : List UInt8}

theorem Output.unique {out' : List UInt8} (h : Output w out) (h' : Output w out') : out = out' := by
  obtain ⟨content, hh, rfl⟩ := h
  obtain ⟨content', hh', rfl⟩ := h'
  rw [hh.unique hh']

/-- A piece of the data of a write: the front of it. -/
def Piece (src : List UInt8 → Prop) (b : List UInt8) : Prop := ∃ data, src data ∧ b <+: data

/-- The output is made of blocks, and each write that returned has its own. -/
def Whole (src : List UInt8 → Prop) (w : World) (l : Log) : Prop :=
  ∃ blocks, Output w blocks.flatten ∧ (l.flatMap returned).Subperm blocks ∧
    ∀ b ∈ blocks, Piece src b

/-- From `w` to `w'` blocks were added, with one for each write that returned
in between and one for each of `extra`. -/
def GrowsBy (src : List UInt8 → Prop) (extra : List (List UInt8)) (w : World) (l : Log)
    (w' : World) (l' : Log) : Prop :=
  ∀ out, Output w out → ∃ new, Output w' (out ++ new.flatten) ∧
    (l'.flatMap returned ++ extra).Subperm (l.flatMap returned ++ new) ∧ ∀ b ∈ new, Piece src b

/-- The output is the same. -/
def Still (w w' : World) : Prop := ∀ out, Output w out → Output w' out

theorem Still.grows (h : Still w w₁) (hl : l₁.flatMap returned = l.flatMap returned) :
    GrowsBy src [] w l w₁ l₁ := by
  intro out hout
  refine ⟨[], by simpa using h out hout, ?_, by simp⟩
  rw [hl]

theorem GrowsBy.trans {e e' : List (List UInt8)} (h : GrowsBy src e w l w₁ l₁)
    (h' : GrowsBy src e' w₁ l₁ w₂ l₂) : GrowsBy src (e ++ e') w l w₂ l₂ := by
  intro out hout
  obtain ⟨new, hout₁, hsub, hsrc⟩ := h out hout
  obtain ⟨new', hout₂, hsub', hsrc'⟩ := h' _ hout₁
  refine ⟨new ++ new', by simpa using hout₂, ?_, List.forall_mem_append.mpr ⟨hsrc, hsrc'⟩⟩
  -- the block of each of `e` was added on the way to `w₁`, that of each of `e'` after it
  have hswap : (l₂.flatMap returned ++ (e ++ e')).Perm (l₂.flatMap returned ++ e' ++ e) := by
    rw [List.append_assoc]
    exact List.perm_append_comm.append_left _
  have hswap' : (l₁.flatMap returned ++ new' ++ e).Perm (l₁.flatMap returned ++ e ++ new') := by
    rw [List.append_assoc, List.append_assoc]
    exact List.perm_append_comm.append_left _
  have hmid : (l₂.flatMap returned ++ e' ++ e).Subperm (l₁.flatMap returned ++ e ++ new') :=
    ((List.subperm_append_right e).mpr hsub').trans hswap'.subperm
  have hlast :
      (l₁.flatMap returned ++ e ++ new').Subperm (l.flatMap returned ++ (new ++ new')) := by
    rw [← List.append_assoc]
    exact (List.subperm_append_right new').mpr hsub
  exact hswap.subperm.trans (hmid.trans hlast)

theorem Whole.grows (h : Whole src w l) (hg : GrowsBy src [] w l w₁ l₁) : Whole src w₁ l₁ := by
  obtain ⟨blocks, hout, hsub, hsrc⟩ := h
  obtain ⟨new, hout₁, hsub₁, hsrc₁⟩ := hg _ hout
  rw [List.append_nil] at hsub₁
  refine ⟨blocks ++ new, by simpa using hout₁, ?_, List.forall_mem_append.mpr ⟨hsrc, hsrc₁⟩⟩
  exact hsub₁.trans ((List.subperm_append_right new).mpr hsub)

theorem Still.refl (w : World) : Still w w := fun _ h => h

/-- Only the buffer and the wire matter. -/
theorem Still.of_eq (hout : w₁.s.out = w.s.out) (hwire : w₁.wire = w.wire) : Still w w₁ := by
  rintro out ⟨content, hh, rfl⟩
  exact ⟨content, hout ▸ hh, by rw [hwire]⟩

end Output

/-! ## §2 The contract -/

structure Contiguous (src : List UInt8 → Prop) (ps : List (Pending World Method Call)) (w : World)
    (l : Log) : Prop where
  whole : Whole src w l
  grows : ∀ p ∈ ps, GrowsBy src [] p.st p.log w l
  still : ∀ p ∈ ps, midWrite p.method = true → Still p.st w

/-- What is written is one of `src`. -/
def contiguousContract (src : List UInt8 → Prop) : StreamContract where
  ok v ch := contiguousOk v ch ∧ ∀ data, ch = .enter (.write data) → src data
  Inv := Contiguous src
  mayFault f := f = .noAnswer

section Calls

variable {src : List UInt8 → Prop} {c : Call} {ps : List (Pending World Method Call)}
  {post : Int → World → Log → Prop} {w w₀ w₁ : World} {l l₀ l₁ : Log} {data dt taken : List UInt8}

theorem Contiguous.go (h : Contiguous src ps w l) (hg : GrowsBy src [] w l w₁ l₁)
    (hs : ∀ p ∈ ps, midWrite p.method = true → Still p.st w₁) : Contiguous src ps w₁ l₁ :=
  ⟨h.whole.grows hg, fun p hp => (h.grows p hp).trans hg, hs⟩

theorem Contiguous.same (h : Contiguous src ps w l) (hs : Still w w₁)
    (hl : l₁.flatMap returned = l.flatMap returned) : Contiguous src ps w₁ l₁ :=
  h.go (hs.grows hl) fun p hp hm out hout => hs out (h.still p hp hm out hout)

theorem not_midWrite (h : writing ps = false) {p : Pending World Method Call} (hp : p ∈ ps) :
    ¬midWrite p.method = true := by
  simpa using List.any_eq_false.mp h p hp

/-- A method is called. -/
theorem Contiguous.call (h : Contiguous src ps w l) (m : Method) :
    Contiguous src (⟨m, w, l ++ [.call m w]⟩ :: ps) w (l ++ [.call m w]) := by
  have h' : Contiguous src ps w (l ++ [.call m w]) := h.same (.refl w) (by simp [returned])
  refine ⟨h'.whole, List.forall_mem_cons.mpr ⟨(Still.refl w).grows rfl, h'.grows⟩, ?_⟩
  exact List.forall_mem_cons.mpr ⟨fun _ => .refl w, h'.still⟩

/-- While a method runs, blocks are added, and none if it is the `sent` of a
write with bytes left. -/
theorem contiguous_callsIf {present : Bool} {m : Method} {next : World → Log → Prop}
    (h : Contiguous src ps w l)
    (hnext : ∀ w₁ l₁, Contiguous src ps w₁ l₁ → GrowsBy src [] w l w₁ l₁ →
      (midWrite m = true → Still w w₁) → next w₁ l₁) :
    CallsIf (contiguousContract src) ps present m next w l := by
  refine ⟨fun _ => ⟨h.call m, fun r w₁ l₁ hi _ => ?_⟩, fun _ => ?_⟩
  · obtain ⟨hwhole, hgrows, hstill⟩ := hi
    obtain ⟨hg, hgrows⟩ := List.forall_mem_cons.mp hgrows
    obtain ⟨hs, hstill⟩ := List.forall_mem_cons.mp hstill
    have hcall : GrowsBy src [] w l w (l ++ [.call m w]) :=
      (Still.refl w).grows (by simp [returned])
    exact hnext w₁ l₁ ⟨hwhole, hgrows, hstill⟩ (hcall.trans hg) hs
  · exact hnext w l h ((Still.refl w).grows rfl) fun _ => .refl w

/-- A call that is not a write, or a write that fails, adds no block. -/
theorem contiguous_leave {entry : World} {v : Int} (h : Contiguous src ps w l)
    (hnone : returned (.leave c entry w v) = []) :
    (contiguousContract src).Post c entry ps v w l :=
  h.same (.refl w) (by simp [hnone])

/-! ## §3 Writing -/

/-- A write that has added its block may return. -/
theorem contiguous_written {v : Int} (h₀ : Contiguous src ps w₀ l₀)
    (hg : GrowsBy src [data] w₀ l₀ w l)
    (hs : ∀ p ∈ ps, midWrite p.method = true → Still p.st w) :
    (contiguousContract src).Post (.write data) w₀ ps v w l := by
  refine h₀.go (fun out hout => ?_) hs
  obtain ⟨new, hnew, hsub, hsrc⟩ := hg out hout
  refine ⟨new, hnew, ?_, hsrc⟩
  by_cases hv : w₀.s.fd ≠ -1 ∧ 0 ≤ v
  · simpa [returned, hv] using hsub
  · simpa [returned, hv] using (List.sublist_append_left _ _).subperm.trans hsub

/-- The rest of a write, `taken` of the data having gone out between `w₀`
and `w₁`, and `sent` having run from `w₁` to `w`. -/
theorem contiguous_writeRest {sent : Nat} (hdata : taken ++ dt = data) (hsrc : src data)
    (h₀ : Contiguous src ps w₀ l₀) (htaken : ∀ out, Output w₀ out → Output w₁ (out ++ taken))
    (h : Contiguous src ps w l) (hg : GrowsBy src [] w₁ l₀ w l) (hstill : dt ≠ [] → Still w₁ w)
    (hmid : dt ≠ [] → writing ps = false) :
    (writeRest dt sent).wp (contiguousContract src) (.write data) ps
      ((contiguousContract src).Post (.write data) w₀ ps) w l := by
  obtain ⟨blocks, ⟨content, hh, hcontent⟩, -⟩ := h.whole
  apply wp_writeRest hh
  · intro hdt
    -- everything has gone out: the block was whole before `sent` was called
    have hall : taken = data := by simpa [hdt] using hdata
    have hblock : GrowsBy src [data] w₀ l₀ w₁ l₀ := fun out hout =>
      ⟨[data], by simpa [hall] using htaken out hout, List.Subperm.refl _, by
        simpa using ⟨data, hsrc, List.prefix_refl data⟩⟩
    have hdrop : Still w w.dropOut := .of_eq rfl rfl
    apply contiguous_callsIf (h.same hdrop rfl)
    intro w₂ l₂ h₂ hg₂ _
    have hsofar : GrowsBy src [data] w₀ l₀ w₂ l₂ := by
      simpa using (hblock.trans hg).trans ((hdrop.grows rfl).trans hg₂)
    exact contiguous_written h₀ hsofar h₂.still
  · intro out hdt hout
    apply contiguous_written h₀
    · intro before hbefore
      obtain ⟨new, hnew, hsub, hnewsrc⟩ := hg _ (htaken before hbefore)
      -- `sent` has added empty blocks only, so the rest comes right behind `taken`
      have hsame : Output w (before ++ taken) := hstill hdt _ (htaken before hbefore)
      have hnil : new.flatten = [] := by simpa using hnew.unique hsame
      have hwire : w.wire ++ content = before ++ taken := Output.unique ⟨content, hh, rfl⟩ hsame
      refine ⟨new ++ [data], ⟨content ++ dt, hout, ?_⟩, ?_, ?_⟩
      · rw [setOut_wire, wantOut_wire, ← List.append_assoc, hwire, ← hdata]
        simp [hnil]
      · rw [← List.append_assoc]
        exact (List.subperm_append_right [data]).mpr (by simpa using hsub)
      · refine List.forall_mem_append.mpr ⟨hnewsrc, ?_⟩
        simpa using ⟨data, hsrc, List.prefix_refl data⟩
    · exact fun p hp hm => absurd hm (not_midWrite (hmid hdt) hp)

theorem contiguous_write (h : Contiguous src ps w l) (hsrc : src data)
    (hok : data ≠ [] → w.s.fd ≠ -1 → writing ps = false) :
    (ioStreamWrite data).wp (contiguousContract src) (.write data) ps
      ((contiguousContract src).Post (.write data) w ps) w l := by
  obtain ⟨blocks, ⟨content, hh, hcontent⟩, -⟩ := h.whole
  have hrefl : GrowsBy src [] w l w l := (Still.refl w).grows rfl
  apply wp_ioStreamWrite hh rfl
  · intro hclosed
    exact contiguous_leave h (by simp [returned, hclosed])
  · intro _
    exact contiguous_leave h (by simp [returned])
  · intro n hopen _ hnil hn _
    have htaken : ∀ out, Output w out → Output (w.taken (data.take n)) (out ++ data.take n) := by
      rintro out ⟨content', hh', rfl⟩
      obtain rfl := hh'.unique hh
      exact ⟨content', hh', by simp [hnil]⟩
    have hpiece : GrowsBy src [] w l (w.taken (data.take n)) l := by
      intro out hout
      refine ⟨[data.take n], by simpa using htaken out hout, ?_, ?_⟩
      · simpa using (List.sublist_append_left _ _).subperm
      · simpa using ⟨data, hsrc, List.take_prefix n data⟩
    have h' : Contiguous src ps (w.taken (data.take n)) l := by
      refine h.go hpiece fun p hp hm => ?_
      have hdata : data = [] := by
        by_contra hne
        exact not_midWrite (hok hne hopen) hp hm
      intro out hout
      simpa [hdata] using htaken out (h.still p hp hm out hout)
    apply contiguous_callsIf h'
    intro w₁ l₁ h₁ hg hs
    have hrest : data.drop n ≠ [] → data.length - n ≠ 0 := by
      rw [ne_eq, List.drop_eq_nil_iff]
      omega
    refine contiguous_writeRest (List.take_append_drop n data) hsrc h htaken h₁ hg ?_ ?_
    · exact fun hne => hs (by simpa [midWrite] using hrest hne)
    · exact fun hne => hok (fun hdata => hne (by simp [hdata])) hopen
  · intro hopen _
    exact contiguous_writeRest (List.nil_append data) hsrc h (by simp) h hrefl (fun _ => .refl w)
      fun hne => hok hne hopen

/-! ## §4 Connecting and events -/

theorem contiguous_connected (h : Contiguous src ps w l)
    (hpost : ∀ v w l, Contiguous src ps w l → post v w l) :
    ioStreamConnected.wp (contiguousContract src) c ps post w l := by
  apply wp_ioStreamConnected
  · exact fun _ _ => hpost _ _ _ h
  · intro sa _
    apply contiguous_callsIf (h.same (.of_eq (setPeer_out w sa) (setPeer_wire w sa)) rfl)
    intro w₁ l₁ h₁ _ _
    exact wp_connectedRest (fun _ => hpost _ _ _ (h₁.same (.of_eq rfl rfl) rfl))
      fun _ => hpost _ _ _ h₁

theorem Contiguous.close (h : Contiguous src ps w l) : Contiguous src ps w.close l :=
  h.same (.of_eq (close_out w) (close_wire w)) rfl

theorem contiguous_recvPart {events : BitVec 32} (h : Contiguous src ps w l)
    (hpost : ∀ v w l, Contiguous src ps w l → post v w l) :
    (recvPart events).wp (contiguousContract src) c ps post w l := by
  apply wp_recvPart
  · intro _
    refine ⟨h.call .recv, fun r w₁ l₁ hi _ => ?_⟩
    have h₁ : Contiguous src ps w₁ l₁ :=
      ⟨hi.whole, (List.forall_mem_cons.mp hi.grows).2, (List.forall_mem_cons.mp hi.still).2⟩
    exact ⟨fun _ => hpost _ _ _ h₁.close, fun _ => hpost _ _ _ h₁⟩
  · exact fun _ => hpost _ _ _ h

theorem contiguous_drained {events : BitVec 32} {sent : Int} (h : Contiguous src ps w l)
    (hpost : ∀ v w l, Contiguous src ps w l → post v w l) :
    (drained events sent).wp (contiguousContract src) c ps post w l := by
  apply wp_drained
  apply contiguous_callsIf h
  intro w₁ l₁ h₁ _ _
  apply wp_drainedRest
  · intro _
    exact contiguous_callsIf (h₁.same (.of_eq rfl rfl) rfl) fun w₂ l₂ h₂ _ _ => hpost _ _ _ h₂
  · exact fun _ => contiguous_recvPart h₁ hpost

/-- A drain moves bytes from the buffer to the wire. -/
theorem still_drain {content : List UInt8} {script : List (SysResult Nat)} {t : Transfer Nat}
    (hh : Holds w.s.out content) (ht : SendsTo content [] script t) :
    Still w ((w.taken t.bytes).setOut t.mem) := by
  obtain ⟨used, -, -, hb, hh', -⟩ := ht.moved
  rintro out ⟨content', hc, rfl⟩
  obtain rfl := hc.unique hh
  refine ⟨_, hh', ?_⟩
  rw [setOut_wire, taken_wire, hb, List.nil_append, List.append_assoc, List.take_append_drop]

theorem contiguous_event {events : BitVec 32} {errno : Errno} (h : Contiguous src ps w l)
    (hpost : ∀ v w l, Contiguous src ps w l → post v w l) :
    (ioStreamEventHandler events errno).wp (contiguousContract src) c ps post w l := by
  obtain ⟨blocks, ⟨content, hh, hcontent⟩, -⟩ := h.whole
  apply wp_ioStreamEventHandler hh rfl
  · intro _
    apply wp_ioStreamConnecting (hpost _ _ _ h.close)
    intro _
    exact contiguous_connected (h.same (.of_eq rfl rfl) rfl) hpost
  · intro script t _ _ ht _
    have hd : Contiguous src ps ((w.taken t.bytes).setOut t.mem) l :=
      h.same (still_drain hh ht) rfl
    exact ⟨fun _ _ => contiguous_drained hd.close hpost, fun _ _ => hpost _ _ _ hd,
      fun _ => contiguous_drained hd hpost⟩
  · exact fun _ => contiguous_recvPart h hpost

theorem contiguous_connect {sa : IoSockAddr} {vmt : Option StreamVmt} {errno : Errno}
    (h : Contiguous src [] w []) (hpost : ∀ v w l, Contiguous src [] w l → post v w l) :
    (ioStreamConnect sa vmt errno).wp (contiguousContract src) c [] post w [] := by
  have hnew : ∀ fd inProgress,
      Contiguous src [] (w.connect fd sa (vmt.getD ioStreamVmt) inProgress) [] :=
    fun fd inProgress => ⟨⟨[], ⟨[], connect_holds w fd sa _ inProgress, rfl⟩, by simp, by simp⟩,
      by simp, by simp⟩
  apply wp_ioStreamConnect
  · exact hpost _ _ _ h
  · exact fun fd _ => hpost _ _ _ (hnew fd true)
  · exact fun fd _ => contiguous_connected (hnew fd false) fun _ => hpost 1

end Calls

theorem contiguous_body (src : List UInt8 → Prop) : (contiguousContract src).Body body := by
  intro ps c w l hinv hok
  obtain ⟨hok, hsrc⟩ := hok
  have hinv : Contiguous src ps w l := hinv
  cases c with
  | connect sa vmt errno =>
    obtain ⟨hps, hl⟩ := hok
    obtain rfl : ps = [] := hps
    obtain rfl : l = [] := hl
    exact contiguous_connect hinv fun v w' l' h => contiguous_leave h rfl
  | write data => exact contiguous_write hinv (hsrc data rfl) hok
  | event events errno => exact contiguous_event hinv fun v w' l' h => contiguous_leave h rfl
  | close => exact contiguous_leave hinv.close rfl

/-! ## §5 Every run -/

/-- **Writes stay contiguous.** In every state of a run whose steps meet the
condition, the output is a sequence of blocks, among them one for each write
on the open stream that has returned a non-negative value, which is the data
of that write. -/
theorem writes_contiguous {w : World} {content : List UInt8} (hout : Holds w.s.out content)
    {choices : List (Choice Query Answer Call)} (hm : Meets body contiguousOk (.start w) choices)
    {cfg : Config World Query Answer Method Fault Call}
    (hrun : run body (.start w) choices = some cfg) (hctl : cfg.ctl = .owner) :
    ∃ content blocks, Holds cfg.st.s.out content ∧ cfg.st.wire ++ content = blocks.flatten ∧
      (cfg.log.flatMap returned).Subperm blocks := by
  have hm' : Meets body (contiguousContract fun _ => True).ok (.start w) choices :=
    hm.mono fun v ch h => ⟨h, fun _ _ => trivial⟩
  have h0 : Contiguous (fun _ => True) [] w [] := by
    refine ⟨⟨[w.wire ++ content], ⟨content, hout, by simp⟩, by simp, ?_⟩, by simp, by simp⟩
    simpa using ⟨w.wire ++ content, trivial, List.prefix_refl (w.wire ++ content)⟩
  obtain ⟨⟨blocks, ⟨content', hh, heq⟩, hsub, -⟩, -, -⟩ :=
    run_inv _ (contiguous_body _) h0 hm' hrun hctl
  exact ⟨content', blocks, hh, heq, hsub⟩

/-- The kernel takes two of three bytes, and `all_sent` writes one more. -/
def writeFromAllSent : List (Choice Query Answer Call) :=
  [.enter (.write [1, 2, 3]), .answer (.send [1, 2, 3]) (.ok 2), .back 0,
    .enter (.event POLLOUT .EAGAIN), .answer .drain [.ok 1], .back 0, .enter (.write [4]),
    .answer (.send [4]) (.ok 1), .back 0, .back 0, .back 0]

theorem writes_contiguous_fromAllSent :
    ∃ cfg content blocks,
      run body (.start (.opened 5 ⟨true, true, true, true⟩ false)) writeFromAllSent = some cfg ∧
        Holds cfg.st.s.out content ∧ cfg.st.wire ++ content = blocks.flatten ∧
        [[1, 2, 3], [4]].Subperm blocks := by
  have hm : Meets body contiguousOk (.start (.opened 5 ⟨true, true, true, true⟩ false))
      writeFromAllSent :=
    meets_cons (fun _ _ => rfl) rfl <| meets_cons trivial rfl <|
      meets_cons trivial rfl <| meets_cons trivial rfl <| meets_cons trivial rfl <|
      meets_cons trivial rfl <| meets_cons (fun _ _ => rfl) rfl <|
      meets_cons trivial rfl <| meets_cons trivial rfl <| meets_cons trivial rfl <|
      meets_cons trivial rfl meets_nil
  obtain ⟨content, blocks, hh, heq, hsub⟩ :=
    writes_contiguous (opened_holds 5 ⟨true, true, true, true⟩ false) hm rfl rfl
  exact ⟨_, content, blocks, rfl, hh, heq, hsub⟩

/-- The kernel takes one of two bytes, `sent` writes another one, and the rest
goes out at an event. -/
def writeFromSent : List (Choice Query Answer Call) :=
  [.enter (.write [1, 2]), .answer (.send [1, 2]) (.ok 1), .enter (.write [3]),
    .answer (.send [3]) (.ok 1), .back 0, .back 0, .enter (.event POLLOUT .EAGAIN),
    .answer .drain [.ok 1], .back 0]

/-- Both writes have returned 0 or more, and the output is 1, 3, 2. -/
theorem nested_write_splits :
    ∃ cfg, run body (.start (.opened 5 ⟨false, false, true, false⟩ false)) writeFromSent =
      some cfg ∧
      cfg.ctl = .owner ∧ Holds cfg.st.s.out [] ∧ cfg.st.wire = [1, 3, 2] ∧
      cfg.log.flatMap returned = [[3], [1, 2]] ∧
      ¬∃ blocks : List (List UInt8), cfg.st.wire ++ [] = blocks.flatten ∧
        (cfg.log.flatMap returned).Subperm blocks := by
  refine ⟨_, rfl, rfl, ⟨[], segs_nil _, rfl⟩, rfl, rfl, ?_⟩
  rintro ⟨blocks, heq, hsub⟩
  have hmem : [1, 2] ∈ blocks := hsub.subset (List.mem_cons_of_mem [3] List.mem_cons_self)
  have hinfix : [1, 2] <:+: ([1, 3, 2] : List UInt8) := by
    have h := List.infix_of_mem_flatten hmem
    rwa [← heq] at h
  exact absurd hinfix (by decide)

end Nanio.Stream
