/-
Nanio.Http.HeaderSound — what an accepted header block is.

`Lines p fields q` cuts a text into header lines, each a name and a trimmed
value, up to the pointer `q`. `Accepts` follows the loop of
`io_http_header_parse` through a run that returns 0, and the loop returns 0
exactly there (`ioHttpHeaderParse_zero_iff`). Every line pays for its own
copies, so a heap as long as the text never runs out, and the table then
holds exactly the fields of the lines.

The one thing that can go wrong is the length of a value, which is passed
on as an `unsigned`: from 2^32 characters on a value is stored cut, or with
all that follows it (`headerParse_sound_iff`).
-/
import Nanio.Http.RequestSafety
import Nanio.Map.HmapTheorems

namespace Nanio.Http

open Nanio.Lib Nanio.Map

/-! ## §1 Lines -/

/-- The text from `p` is these lines, and then comes `q`. -/
inductive Lines : Text → List (Text × Text) → Text → Prop
  | nil (p : Text) : Lines p [] p
  | cons {p name w next q : Text} {k : Nat} {fields : List (Text × Text)}
      (hf : HeaderField p name w k next) (hr : Lines next fields q) :
      Lines p ((name, w) :: fields) q

/-- A line says where its name and its value are. -/
theorem FieldHead.cut {p name value : Text} (h : FieldHead p name value) :
    name = (ioAfterSpace p).takeWhile isHttpTokenChar ∧
      value =
        ioAfterSpace ((ioAfterSpace ((ioAfterSpace p).dropWhile isHttpTokenChar)).drop 1) := by
  obtain ⟨rest, tail, hname, htok, hcolon, hvalue⟩ := h.cuts
  constructor
  · have hsplit := List.takeWhile_append_dropWhile (p := isHttpTokenChar) (l := name ++ rest)
    rw [htok] at hsplit
    rw [hname, List.append_cancel_right hsplit]
  · rw [hname, htok, hcolon, List.drop_one, List.tail_cons, hvalue]

theorem append_spaces_inj {v w : Text} {j k : Nat} (hv : v.getLast? ≠ some sp)
    (hw : w.getLast? ≠ some sp) (h : v ++ spaces j = w ++ spaces k) : v = w := by
  have hrev : spaces j ++ v.reverse = spaces k ++ w.reverse := by
    simpa [spaces] using congrArg List.reverse h
  have heq := spaces_append_inj (by simpa using hv) (by simpa using hw) hrev
  simpa using heq

/-- There is one way to read a line. -/
theorem HeaderField.unique {p name w next name' w' next' : Text} {k k' : Nat}
    (h : HeaderField p name w k next) (h' : HeaderField p name' w' k' next') :
    name = name' ∧ w = w' ∧ next = next' := by
  have hvalue : w ++ (spaces k ++ (crlf ++ next)) = w' ++ (spaces k' ++ (crlf ++ next')) :=
    h.head.cut.2.trans h'.head.cut.2.symm
  have hstr : strstr crlf (w ++ (spaces k ++ (crlf ++ next))) = some (crlf ++ next) := by
    rw [← List.append_assoc]
    exact strstr_crlf_first (by simpa using h.first_end)
  have hstr' : strstr crlf (w' ++ (spaces k' ++ (crlf ++ next'))) = some (crlf ++ next') := by
    rw [← List.append_assoc]
    exact strstr_crlf_first (by simpa using h'.first_end)
  have hend : crlf ++ next = crlf ++ next' := by
    rw [hvalue, hstr'] at hstr
    exact (Option.some.inj hstr).symm
  have hsame : w ++ spaces k ++ (crlf ++ next') = w' ++ spaces k' ++ (crlf ++ next') := by
    rw [List.append_assoc, List.append_assoc, ← hvalue, hend]
  have hw := append_spaces_inj h.value_last h'.value_last (List.append_cancel_right hsame)
  exact ⟨h.head.cut.1.trans h'.head.cut.1.symm, hw, List.append_cancel_left hend⟩

/-- A line does not start with CR. -/
theorem FieldHead.not_cr {p name value : Text} (h : FieldHead p name value) :
    p.head? ≠ some cr := by
  obtain ⟨a, b, c, rfl⟩ := h.text_eq
  cases a with
  | zero =>
    cases hname : name with
    | nil => exact absurd hname h.name_ne
    | cons ch name =>
      have htoken := h.token ch (by simp [hname])
      intro hcr
      obtain rfl : ch = cr := by simpa [spaces] using hcr
      exact absurd htoken (by decide)
  | succ a =>
    intro hcr
    have hsp : sp = cr := by simpa [spaces, List.replicate_succ] using hcr
    exact absurd hsp (by decide)

/-- Lines up to a blank line are all the lines there are. -/
theorem Lines.leads {p q q' : Text} {fields fields' : List (Text × Text)}
    (h : Lines p fields q) (h' : Lines p fields' q') (hcr : q'.head? = some cr) :
    fields <+: fields' := by
  induction h generalizing fields' with
  | nil p => exact List.nil_prefix
  | cons hf hr ih =>
    cases h' with
    | nil => exact absurd hcr hf.head.not_cr
    | cons hf' hr' =>
      obtain ⟨rfl, rfl, rfl⟩ := hf.unique hf'
      exact (List.prefix_cons_inj _).mpr (ih hr')

/-! ## §2 The accepted runs -/

/-- The loop, at `p` with the table `h`, goes on to return 0 with the table
`h'` and the pointer `q`. -/
inductive Accepts (o : ArgOrder) : IoHmap → Text → IoHmap → Text → Prop
  | last {h h' : IoHmap} {p name w next : Text} {k : Nat} (hf : HeaderField p name w k next)
      (ha : addField o h p name w k next = .ok (none, h')) (hend : crlf <+: next) :
      Accepts o h p h' next
  | line {h h₁ h' : IoHmap} {p name w next q : Text} {k : Nat}
      (hf : HeaderField p name w k next) (ha : addField o h p name w k next = .ok (none, h₁))
      (hcr : next.head? ≠ some cr) (hr : Accepts o h₁ next h' q) : Accepts o h p h' q

/-- A line that is followed by the blank one. -/
theorem headerLoop_blank {o : ArgOrder} {header p next : Text} {fuel : Nat} {h h' : IoHmap}
    (hround : headerRound o h p = .ok (.line next, h')) (hend : crlf <+: next) :
    headerLoop o header (fuel + 1) h p = .ok (0, h', next) := by
  obtain ⟨rest, rfl⟩ := hend
  rw [headerLoop_round, hround]
  have hcr : deref (crlf ++ rest) 0 = .ok cr := rfl
  have hlf : deref (crlf ++ rest) 1 = .ok lf := by simp [crlf]
  simp only [hcr, hlf, bind, Except.bind, bne_self_eq_false, Bool.false_eq_true, if_false]
  rfl

/-- What the last line is followed by when 0 is returned. -/
theorem headerLoop_last_zero {o : ArgOrder} {header p next q : Text} {fuel : Nat}
    {h h' h'' : IoHmap}
    (hround : headerRound o h p = .ok (.line next, h')) (hcr : next.head? = some cr)
    (hrun : headerLoop o header (fuel + 1) h p = .ok (0, h'', q)) :
    h'' = h' ∧ q = next ∧ crlf <+: next := by
  cases next with
  | nil => simp at hcr
  | cons c next =>
    obtain rfl : c = cr := by simpa using hcr
    by_cases hlf : next.head? = some lf
    · obtain ⟨rest, rfl⟩ : ∃ rest, next = lf :: rest := by
        cases next with
        | nil => simp at hlf
        | cons d rest => exact ⟨rest, by simpa using hlf⟩
      have hend : crlf <+: cr :: lf :: rest := ⟨rest, rfl⟩
      rw [headerLoop_blank hround hend] at hrun
      cases hrun
      exact ⟨rfl, rfl, hend⟩
    · have hd : ∃ c, deref (cr :: next) 1 = .ok c ∧ c ≠ lf := by
        rw [deref_succ_cons]
        cases next with
        | nil => exact ⟨0, rfl, by decide⟩
        | cons d next => exact ⟨d, rfl, by simpa using hlf⟩
      obtain ⟨c, hc, hne⟩ := hd
      rw [headerLoop_round, hround] at hrun
      simp only [bind, Except.bind, deref_zero_cons, bne_self_eq_false, Bool.false_eq_true,
        if_false, hc, bne_iff_ne, ne_eq, hne, not_false_eq_true, if_true] at hrun
      cases hrun

theorem Accepts.of_loop {o : ArgOrder} {header : Text} {fuel : Nat} {h h' : IoHmap} {p q : Text}
    (hrun : headerLoop o header fuel h p = .ok (0, h', q)) : Accepts o h p h' q := by
  induction fuel generalizing h p with
  | zero => cases hrun
  | succ fuel ih =>
    by_cases hf : ∃ name value, FieldHead p name value
    · obtain ⟨name, value, hf⟩ := hf
      by_cases hin : crlf <:+: value
      · rcases hf.complete hin with ⟨next, rfl⟩ | ⟨w, k, next, hfield⟩
        · rw [headerLoop_round, hf.emptyValue] at hrun
          cases hrun
        · have hround := hfield.round o h
          cases ha : addField o h p name w k next with
          | error f =>
            rw [headerLoop_round, hround, ha] at hrun
            cases hrun
          | ok r =>
            obtain ⟨e, h₁⟩ := r
            rw [ha] at hround
            cases e with
            | some e =>
              have hstop : headerRound o h p = .ok (.stop (-4), h₁) := hround
              rw [headerLoop_round, hstop] at hrun
              cases hrun
            | none =>
              by_cases hcr : next.head? = some cr
              · obtain ⟨rfl, rfl, hend⟩ := headerLoop_last_zero hround hcr hrun
                exact .last hfield ha hend
              · rw [headerLoop_line hround hcr] at hrun
                exact .line hfield ha hcr (ih hrun)
      · rw [headerLoop_round, hf.unterminated hin] at hrun
        cases hrun
    · obtain ⟨code, hc, -, hneg⟩ := headerRound_stop (fun name value h => hf ⟨name, value, h⟩) o h
      rw [headerLoop_round, hc] at hrun
      cases hrun
      omega

theorem Accepts.loop {o : ArgOrder} {h h' : IoHmap} {p q : Text} (ha : Accepts o h p h' q)
    (header : Text) {fuel : Nat} (hfuel : p.length < fuel) :
    headerLoop o header fuel h p = .ok (0, h', q) := by
  induction ha generalizing fuel with
  | @last h h' p name w next k hf ha hend =>
    cases fuel with
    | zero => omega
    | succ fuel =>
      have hround := hf.round o h
      rw [ha] at hround
      exact headerLoop_blank hround hend
  | @line h h₁ h' p name w next q k hf ha hcr _ ih =>
    cases fuel with
    | zero => omega
    | succ fuel =>
      have hround := hf.round o h
      rw [ha] at hround
      have hlen := hf.next_length
      rw [headerLoop_line hround hcr]
      exact ih (by omega)

/-- The loop returns 0 in these runs and no others. -/
theorem ioHttpHeaderParse_zero_iff {o : ArgOrder} {h h' : IoHmap} {header q : Text} :
    ioHttpHeaderParse o h header = .ok (0, h', q) ↔ Accepts o h header h' q :=
  ⟨Accepts.of_loop, fun ha => ha.loop header (Nat.lt_succ_self _)⟩

/-! ## §3 A line and the table -/

/-- The call made for a line. -/
def lineCall (p name w : Text) (k : Nat) (next : Text) : HmapCall :=
  .addl (ioAfterSpace p) name.length (w ++ (spaces k ++ (crlf ++ next))) (w.length % 2 ^ 32)

theorem zero_notMem_ioAfterSpace {p : Text} (h0 : 0 ∉ p) : 0 ∉ ioAfterSpace p :=
  fun h => h0 ((List.dropWhile_suffix _).subset h)

section Line

variable {o : ArgOrder} {p name w next : Text} {k : Nat}

theorem HeaderField.text_eq (hf : HeaderField p name w k next) :
    ∃ a b c, p = spaces a ++ (name ++ (spaces b ++ ascii ':' ::
      (spaces c ++ (w ++ (spaces k ++ (crlf ++ next)))))) := hf.head.text_eq

theorem HeaderField.zero_notMem (hf : HeaderField p name w k next) (h0 : 0 ∉ p) :
    0 ∉ w ++ (spaces k ++ (crlf ++ next)) ∧ 0 ∉ next := by
  obtain ⟨a, b, c, rfl⟩ := hf.text_eq
  simp only [List.mem_append, List.mem_cons, not_or] at h0 ⊢
  tauto

theorem HeaderField.valid (hf : HeaderField p name w k next) (h0 : 0 ∉ p) :
    (lineCall p name w k next).Valid where
  keyText := zero_notMem_ioAfterSpace h0
  valueText := (hf.zero_notMem h0).1
  keyEnd := hf.head.leads.length_le
  valueEnd := by
    have hmod := Nat.mod_le w.length (2 ^ 32)
    simp only [lineCall, HmapCall.valueLen, HmapCall.value, List.length_append]
    omega

theorem HeaderField.call_name (hf : HeaderField p name w k next) :
    (lineCall p name w k next).name = name :=
  (List.prefix_iff_eq_take.mp hf.head.leads).symm

theorem HeaderField.field_fst (hf : HeaderField p name w k next) :
    (lineCall p name w k next).field.1 = name := by
  have hne : name.length ≠ 0 := by simpa using hf.head.name_ne
  have htake : copied (ioAfterSpace p) name.length = (ioAfterSpace p).take name.length :=
    if_neg hne
  exact htake.trans hf.call_name

theorem HeaderField.field_snd (hf : HeaderField p name w k next) (hshort : w.length < 2 ^ 32) :
    (lineCall p name w k next).field.2 = w := by
  have hne : w.length ≠ 0 := by simpa using hf.value_ne
  show copied (w ++ (spaces k ++ (crlf ++ next))) (w.length % 2 ^ 32) = w
  rw [Nat.mod_eq_of_lt hshort, copied, if_neg hne, List.take_left]

/-- A line pays for its copies. -/
theorem HeaderField.bytes_le (hf : HeaderField p name w k next) (hshort : w.length < 2 ^ 32) :
    (lineCall p name w k next).bytes + next.length ≤ p.length := by
  rw [HmapCall.bytes, hf.field_fst, hf.field_snd hshort]
  obtain ⟨a, b, c, rfl⟩ := hf.text_eq
  simp only [List.length_append, List.length_cons, crlf, List.length_nil]
  omega

/-- A line that was accepted has a new name and found room for an entry. -/
theorem HeaderField.accepted (hf : HeaderField p name w k next) (h0 : 0 ∉ p) {h h₁ : IoHmap}
    {old : List (Text × Text)} (hh : HmapHolds h old)
    (ha : addField o h p name w k next = .ok (none, h₁)) :
    fieldValue old name = none ∧ old.length < h.map.keysLimit := by
  have hstep : (lineCall p name w k next).step o h = .ok (none, h₁) := ha
  have hv := hf.valid h0
  have hname := hf.call_name
  cases hfound : fieldValue old name with
  | some v =>
    rw [HmapCall.step_present o hv hh (hname.symm ▸ hfound)] at hstep
    cases hstep
  | none =>
    rcases Nat.lt_or_ge old.length h.map.keysLimit with hroom | hfull
    · exact ⟨rfl, hroom⟩
    · obtain ⟨⟨key, value, heap⟩, hdup⟩ := strdupBoth_ok o h.heap hv.keyEnd hv.valueEnd
      rw [HmapCall.step_full o hv hh (hname.symm ▸ hfound) hfull hdup] at hstep
      cases hstep

/-- A short value that was accepted is stored. -/
theorem HeaderField.stored (hf : HeaderField p name w k next) (h0 : 0 ∉ p)
    (hshort : w.length < 2 ^ 32) {h h₁ : IoHmap} {old : List (Text × Text)} (hh : HmapHolds h old)
    (hfree : p.length ≤ h.heap.free) (ha : addField o h p name w k next = .ok (none, h₁)) :
    HmapHolds h₁ (old ++ [(name, w)]) ∧ next.length ≤ h₁.heap.free := by
  have hstep : (lineCall p name w k next).step o h = .ok (none, h₁) := ha
  have hbytes := hf.bytes_le hshort
  obtain ⟨hnew, hroom⟩ := hf.accepted h0 hh ha
  obtain ⟨m', hm', hholds, -, hspent⟩ :=
    HmapCall.step_fits o (hf.valid h0) hh (hf.call_name.symm ▸ hnew) hroom (by omega)
  rw [hm'] at hstep
  cases hstep
  have hfield : (lineCall p name w k next).field = (name, w) :=
    Prod.ext hf.field_fst (hf.field_snd hshort)
  rw [hfield] at hholds
  exact ⟨hholds, by omega⟩

/-- What is copied for a value of 2^32 characters or more is not the value:
it is shorter, or it is all that follows. -/
theorem lineCall_long (hlong : 2 ^ 32 ≤ w.length) :
    (lineCall p name w k next).field.2 ≠ w := by
  intro heq
  have hlen := congrArg List.length heq
  have hmod : w.length % 2 ^ 32 < 2 ^ 32 := Nat.mod_lt _ (by decide)
  have hdef : (lineCall p name w k next).field.2 =
      copied (w ++ (spaces k ++ (crlf ++ next))) (w.length % 2 ^ 32) := rfl
  rw [hdef, copied] at hlen
  split at hlen
  · simp only [List.length_append, crlf, List.length_cons] at hlen
    omega
  · rw [List.length_take] at hlen
    omega

/-- So a table that has the value in the end was given a short one. -/
theorem HeaderField.short (hf : HeaderField p name w k next) (h0 : 0 ∉ p) {h h₁ h' : IoHmap}
    {old rest : List (Text × Text)} (hh : HmapHolds h old)
    (ha : addField o h p name w k next = .ok (none, h₁)) (hkvs : h₁.map.kvs <+: h'.map.kvs)
    (hgrow : h₁.heap.Grows h'.heap) (hholds : HmapHolds h' (old ++ (name, w) :: rest)) :
    w.length < 2 ^ 32 := by
  have hstep : (lineCall p name w k next).step o h = .ok (none, h₁) := ha
  have hv := hf.valid h0
  obtain ⟨hnew, hroom⟩ := hf.accepted h0 hh ha
  have hname : fieldValue old (lineCall p name w k next).name = none := hf.call_name.symm ▸ hnew
  by_contra hlong
  rcases Nat.lt_or_ge h.heap.free (lineCall p name w k next).bytes with hfull | hfit
  · obtain ⟨key, value, heap, hm', hnull⟩ := HmapCall.step_short o hv hh hname hroom hfull
    rw [hm'] at hstep
    cases hstep
    have hentry := hholds.ne_none (hkvs.subset (by simp : IoKv.mk key value ∈ _))
    exact hnull.elim hentry.1 hentry.2
  · obtain ⟨m', hm', hholds', -, -⟩ := HmapCall.step_fits o hv hh hname hroom hfit
    rw [hm'] at hstep
    cases hstep
    have hsame := hholds'.agree hholds hkvs hgrow
    exact lineCall_long (Nat.le_of_not_lt hlong) (congrArg Prod.snd hsame)

end Line

/-- Names that differ even ignoring case. -/
def Distinct (fields : List (Text × Text)) : Prop :=
  fields.Pairwise fun f g => strcaseEq g.1 f.1 = false

theorem Distinct.snoc {fields : List (Text × Text)} (h : Distinct fields) {name value : Text}
    (hnew : fieldValue fields name = none) : Distinct (fields ++ [(name, value)]) := by
  refine List.pairwise_append.mpr ⟨h, List.pairwise_singleton _ _, fun f hf g hg => ?_⟩
  obtain rfl := List.mem_singleton.mp hg
  exact fieldValue_eq_none.mp hnew f hf

/-- What 0 promises. -/
structure Sound (header : Text) (h' : IoHmap) (q : Text) (fields : List (Text × Text)) : Prop where
  some_line : fields ≠ []
  lines : Lines header fields q
  blank : crlf <+: q
  holds : HmapHolds h' fields
  distinct : Distinct fields
  /-- no length that is passed on is 0 -/
  lengths : ∀ f ∈ fields, f.1.length ≠ 0 ∧ f.2.length % 2 ^ 32 ≠ 0

/-- Every value of the lines of the text is below 2^32 characters. -/
def ShortValues (p : Text) : Prop :=
  ∀ fields q, Lines p fields q → ∀ f ∈ fields, f.2.length < 2 ^ 32

theorem ShortValues.head {p name w next : Text} {k : Nat} (h : ShortValues p)
    (hf : HeaderField p name w k next) : w.length < 2 ^ 32 ∧ ShortValues next :=
  ⟨h _ _ (.cons hf (.nil next)) (name, w) (by simp),
    fun fields q hl f hm => h _ q (.cons hf hl) f (List.mem_cons_of_mem _ hm)⟩

/-- By induction on the run: the table holds what was there and the lines. -/
theorem Accepts.sound {o : ArgOrder} {h h' : IoHmap} {p q : Text} (ha : Accepts o h p h' q)
    {old : List (Text × Text)} (hh : HmapHolds h old) (hd : Distinct old) (h0 : 0 ∉ p)
    (hfree : p.length ≤ h.heap.free) (hshort : ShortValues p) :
    ∃ fields, fields ≠ [] ∧ Lines p fields q ∧ crlf <+: q ∧ HmapHolds h' (old ++ fields) ∧
      Distinct (old ++ fields) := by
  induction ha generalizing old with
  | @last h h' p name w next k hf ha hend =>
    obtain ⟨hnew, -⟩ := hf.accepted h0 hh ha
    obtain ⟨hholds, -⟩ := hf.stored h0 (hshort.head hf).1 hh hfree ha
    exact ⟨[(name, w)], by simp, .cons hf (.nil next), hend, hholds, hd.snoc hnew⟩
  | @line h h₁ h' p name w next q k hf ha hcr _ ih =>
    obtain ⟨hw, hnext⟩ := hshort.head hf
    obtain ⟨hnew, -⟩ := hf.accepted h0 hh ha
    obtain ⟨hholds, hleft⟩ := hf.stored h0 hw hh hfree ha
    obtain ⟨fields, -, hlines, hend, hholds', hd'⟩ :=
      ih hholds (hd.snoc hnew) (hf.zero_notMem h0).2 hleft hnext
    rw [List.append_assoc] at hholds' hd'
    exact ⟨(name, w) :: fields, by simp, .cons hf hlines, hend, hholds', hd'⟩

theorem Lines.nonempty {p q : Text} {fields : List (Text × Text)} (h : Lines p fields q) :
    ∀ f ∈ fields, f.1 ≠ [] ∧ f.2 ≠ [] := by
  induction h with
  | nil p => simp
  | cons hf hr ih =>
    intro f hm
    rcases List.mem_cons.mp hm with rfl | hm
    · exact ⟨hf.head.name_ne, hf.value_ne⟩
    · exact ih f hm

/-! ## §4 Exactly the short values -/

theorem Accepts.grows {o : ArgOrder} {h h' : IoHmap} {p q : Text} (ha : Accepts o h p h' q) :
    h.map.kvs <+: h'.map.kvs ∧ h.heap.Grows h'.heap := by
  induction ha with
  | last _ ha _ => exact ioHmapAddl_grows ha
  | line _ ha _ _ ih =>
    obtain ⟨hkvs, hgrow⟩ := ioHmapAddl_grows ha
    exact ⟨hkvs.trans ih.1, hgrow.trans ih.2⟩

/-- By induction on the run: if the table has the fields in the end, no
value was long. -/
theorem Accepts.short {o : ArgOrder} {h h' : IoHmap} {p q : Text} (ha : Accepts o h p h' q)
    {old fields : List (Text × Text)} (hh : HmapHolds h old) (h0 : 0 ∉ p)
    (hfree : p.length ≤ h.heap.free) {q' : Text} (hlines : Lines p fields q')
    (hblank : q'.head? = some cr) (hholds : HmapHolds h' (old ++ fields)) :
    ∀ f ∈ fields, f.2.length < 2 ^ 32 := by
  induction ha generalizing old fields with
  | @last h h' p name w next k hf ha hend =>
    cases hlines with
    | nil => exact absurd hblank hf.head.not_cr
    | cons hf' hr =>
      obtain ⟨rfl, rfl, rfl⟩ := hf.unique hf'
      obtain ⟨rest, rfl⟩ := hend
      have hw := hf.short h0 hh ha (List.prefix_refl _) (.refl _) hholds
      cases hr with
      | nil => simpa using hw
      | cons hf'' _ => exact absurd rfl hf''.head.not_cr
  | @line h h₁ h' p name w next q k hf ha hcr hr ih =>
    cases hlines with
    | nil => exact absurd hblank hf.head.not_cr
    | cons hf' hr' =>
      obtain ⟨rfl, rfl, rfl⟩ := hf.unique hf'
      have hw := hf.short h0 hh ha hr.grows.1 hr.grows.2 hholds
      obtain ⟨hholds₁, hleft⟩ := hf.stored h0 hw hh hfree ha
      intro f hm
      rcases List.mem_cons.mp hm with rfl | hm
      · exact hw
      · exact ih hholds₁ (hf.zero_notMem h0).2 hleft hr' (by simpa using hholds) f hm

/-- **Soundness.** When 0 is returned for a text in a fresh table with as
much heap, the text is lines, `*header` is at the blank line, and the table
holds their fields, exactly when no value is of 2^32 characters or more. -/
theorem headerParse_sound_iff (o : ArgOrder) (keysLimit heapSize : Nat) (header : Text)
    (h0 : 0 ∉ header) (hheap : header.length ≤ heapSize) (h' : IoHmap) (q : Text)
    (hret : ioHttpHeaderParse o (ioHmapCreate keysLimit heapSize) header = .ok (0, h', q)) :
    (∃ fields, Sound header h' q fields) ↔ ShortValues header := by
  have hrun := ioHttpHeaderParse_zero_iff.mp hret
  have hempty := hmapHolds_create keysLimit heapSize
  have hfree : header.length ≤ (ioHmapCreate keysLimit heapSize).heap.free := hheap
  constructor
  · rintro ⟨fields, hs⟩ fields' q' hlines'
    obtain ⟨rest, hq⟩ := hs.blank
    have hcr : q.head? = some cr := hq ▸ rfl
    have hleads := hlines'.leads hs.lines hcr
    intro f hm
    exact hrun.short hempty h0 hfree hs.lines hcr hs.holds f (hleads.subset hm)
  · intro hshort
    obtain ⟨fields, hne, hlines, hblank, hholds, hdistinct⟩ :=
      hrun.sound hempty List.Pairwise.nil h0 hfree hshort
    refine ⟨fields, hne, hlines, hblank, hholds, hdistinct, fun f hm => ?_⟩
    obtain ⟨hname, hvalue⟩ := hlines.nonempty f hm
    rw [Nat.mod_eq_of_lt (hshort fields q hlines f hm)]
    exact ⟨by simpa using hname, by simpa using hvalue⟩

def oneField : Text := lit ['a', ':', ' ', 'b', '\r', '\n', '\r', '\n']

theorem headerParse_sound_iff_oneField :
    ∃ h' q, ioHttpHeaderParse .leftFirst (ioHmapCreate 1 8) oneField = .ok (0, h', q) ∧
      ((∃ fields, Sound oneField h' q fields) ↔ ShortValues oneField) :=
  ⟨_, _, rfl, headerParse_sound_iff .leftFirst 1 8 oneField (by decide) (by decide) _ _ rfl⟩

/-! ## §5 A long value -/

/-- A field `a` whose value is `n` times the letter x. -/
def repeated (n : Nat) : Text := lit ['a', ':'] ++ (List.replicate n (ascii 'x') ++ (crlf ++ crlf))

theorem repeated_field {n : Nat} (hn : 0 < n) :
    HeaderField (repeated n) (lit ['a']) (List.replicate n (ascii 'x')) 0 crlf := by
  have hne : n ≠ 0 := Nat.pos_iff_ne_zero.mp hn
  refine ⟨⟨⟨0, 0, 0, rfl⟩, by decide, ?_, ?_⟩, by simpa using hne, ?_, ?_⟩
  · intro ch hch
    obtain rfl := List.mem_singleton.mp hch
    decide
  · obtain ⟨m, rfl⟩ := Nat.exists_eq_succ_of_ne_zero hne
    simp [List.replicate_succ]
    decide
  · rw [List.getLast?_replicate, if_neg hne]
    decide
  · intro hin
    have hlf : lf ∈ List.replicate n (ascii 'x') ++ (spaces 0 ++ [cr]) := hin.subset (by decide)
    have hx : lf ≠ ascii 'x' := by decide
    have hcr : lf ≠ cr := by decide
    simp [spaces, hx, hcr] at hlf

theorem zero_notMem_repeated (n : Nat) : 0 ∉ repeated n := by
  have hx : (0 : UInt8) ≠ ascii 'x' := by decide
  have hhead : (0 : UInt8) ∉ lit ['a', ':'] := by decide
  have hend : (0 : UInt8) ∉ crlf ++ crlf := by decide
  simp only [repeated, List.mem_append, List.mem_replicate, not_or] at hend ⊢
  exact ⟨hhead, fun h => hx h.2, hend⟩

theorem repeated_accepted {n : Nat} (hn : n % 2 ^ 32 ≠ 0) (o : ArgOrder) :
    ∃ h', Accepts o (ioHmapCreate 1 (repeated n).length) (repeated n) h' crlf := by
  have hpos : 0 < n := Nat.pos_of_ne_zero fun h => hn (by simp [h])
  have hf := repeated_field hpos
  have h0 := zero_notMem_repeated n
  have hmod : n % 2 ^ 32 ≤ n := Nat.mod_le _ _
  have hvalue : (lineCall (repeated n) (lit ['a']) (List.replicate n (ascii 'x')) 0 crlf).field.2 =
      copied (List.replicate n (ascii 'x') ++ (spaces 0 ++ (crlf ++ crlf)))
        ((List.replicate n (ascii 'x')).length % 2 ^ 32) := rfl
  have hlen : (lineCall (repeated n) (lit ['a']) (List.replicate n (ascii 'x')) 0
      crlf).field.2.length = n % 2 ^ 32 := by
    rw [hvalue, List.length_replicate, copied, if_neg hn, List.length_take]
    simp only [List.length_append, List.length_replicate]
    omega
  have hroom : (lineCall (repeated n) (lit ['a']) (List.replicate n (ascii 'x')) 0 crlf).bytes ≤
      (ioHmapCreate 1 (repeated n).length).heap.free := by
    have hfree : (ioHmapCreate 1 (repeated n).length).heap.free = (repeated n).length := rfl
    rw [HmapCall.bytes, hf.field_fst, hlen, hfree]
    simp only [repeated, List.length_append, List.length_replicate, lit, List.length_map,
      List.length_cons, List.length_nil, crlf]
    omega
  obtain ⟨h', hm', -, -, -⟩ := HmapCall.step_fits o (hf.valid h0)
    (hmapHolds_create 1 (repeated n).length) rfl Nat.zero_lt_one hroom
  exact ⟨h', .last hf hm' (List.prefix_refl _)⟩

/-- 0 is returned, but what is stored is not the value. -/
theorem repeated_unsound {n : Nat} (hn : n % 2 ^ 32 ≠ 0) (hlong : 2 ^ 32 ≤ n) (o : ArgOrder) :
    ∃ h' q, ioHttpHeaderParse o (ioHmapCreate 1 (repeated n).length) (repeated n) =
        .ok (0, h', q) ∧ ¬ ∃ fields, Sound (repeated n) h' q fields := by
  obtain ⟨h', hrun⟩ := repeated_accepted hn o
  refine ⟨h', crlf, ioHttpHeaderParse_zero_iff.mpr hrun, ?_⟩
  rintro ⟨fields, hs⟩
  have hline := Lines.cons (repeated_field (Nat.lt_of_lt_of_le (by decide) hlong)) (.nil crlf)
  have hmem := (hline.leads hs.lines rfl).subset List.mem_cons_self
  have hshort := hrun.short (hmapHolds_create _ _) (zero_notMem_repeated n) (Nat.le_refl _) hs.lines
    rfl hs.holds _ hmem
  rw [List.length_replicate] at hshort
  omega

/-- A value of 2^32 + 1 characters is stored as one of a single character. -/
theorem headerParse_long :
    ∃ h' q, ioHttpHeaderParse .leftFirst (ioHmapCreate 1 (repeated (2 ^ 32 + 1)).length)
        (repeated (2 ^ 32 + 1)) = .ok (0, h', q) ∧
      ¬ ∃ fields, Sound (repeated (2 ^ 32 + 1)) h' q fields :=
  repeated_unsound (by decide) (by decide) .leftFirst

end Nanio.Http
