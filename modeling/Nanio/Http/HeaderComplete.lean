/-
Nanio.Http.HeaderComplete — a header block that is written out is read
back.

A field is a name, the spaces after the colon, and a value; `headerText`
writes a list of them. A field with a value is a line of the text
(`Field.line`), so the loop goes from field to field and leaves the
trimmed values in the table, where a name in any letter case finds its
own. A field whose value is blank is refused.
-/
import Nanio.Http.HeaderSound

namespace Nanio.Http

open Nanio.Lib Nanio.Map

/-! ## §1 Fields -/

structure Field where
  name : Text
  pad : Nat
  value : Text
  deriving DecidableEq, Repr

/-- The fields line by line, and the blank line. -/
def headerText : List Field → Text
  | [] => crlf
  | f :: rest => f.name ++ ascii ':' :: (spaces f.pad ++ (f.value ++ (crlf ++ headerText rest)))

/-- The text without the spaces around it. -/
def trimmed (v : Text) : Text := (ioAfterSpace (ioAfterSpace v).reverse).reverse

/-- A token for a name, and a value in one line. -/
structure Field.Valid (f : Field) : Prop where
  name_ne : f.name ≠ []
  token : ∀ ch ∈ f.name, isHttpTokenChar ch = true
  no_cr : cr ∉ f.value
  no_lf : lf ∉ f.value
  text : 0 ∉ f.value

theorem Field.valid_iff {f : Field} :
    f.Valid ↔ f.name ≠ [] ∧ f.name.all isHttpTokenChar = true ∧ cr ∉ f.value ∧ lf ∉ f.value ∧
      0 ∉ f.value := by
  constructor
  · intro h
    exact ⟨h.name_ne, List.all_eq_true.mpr h.token, h.no_cr, h.no_lf, h.text⟩
  · rintro ⟨hne, htoken, hcr, hlf, htext⟩
    exact ⟨hne, List.all_eq_true.mp htoken, hcr, hlf, htext⟩

instance (f : Field) : Decidable f.Valid := decidable_of_iff _ Field.valid_iff.symm

/-- What the table needs for a field: both strings, with their NULs. -/
def Field.bytes (f : Field) : Nat := f.name.length + (trimmed f.value).length + 2

theorem spaces_zero : spaces 0 = [] := rfl

theorem spaces_add (a b : Nat) : spaces (a + b) = spaces a ++ spaces b := List.replicate_add ..

theorem trimmed_split (v : Text) :
    ∃ a k, v = spaces a ++ (trimmed v ++ spaces k) ∧ (trimmed v ++ spaces k).head? ≠ some sp ∧
      (trimmed v).getLast? ≠ some sp := by
  obtain ⟨a, q, hv, hq, hskip⟩ := ioAfterSpace_split v
  obtain ⟨k, r, hrev, hr, hback⟩ := ioAfterSpace_split q.reverse
  have htrim : trimmed v = r.reverse := by rw [trimmed, hskip, hback]
  have hsplit : q = r.reverse ++ spaces k := by
    simpa [spaces] using congrArg List.reverse hrev
  refine ⟨a, k, ?_, ?_, ?_⟩
  · rw [htrim, ← hsplit]
    exact hv
  · rw [htrim, ← hsplit]
    exact hq
  · simpa [htrim] using hr

theorem zero_notMem_headerText {fields : List Field} (h : ∀ f ∈ fields, f.Valid) :
    0 ∉ headerText fields := by
  induction fields with
  | nil => decide
  | cons f rest ih =>
    have hf := h f List.mem_cons_self
    have hname : (0 : UInt8) ∉ f.name := fun hm => absurd (hf.token 0 hm) (by decide)
    have hcolon : (0 : UInt8) ≠ ascii ':' := by decide
    have hsp : (0 : UInt8) ∉ spaces f.pad := fun hm =>
      absurd (List.eq_of_mem_replicate hm) (by decide)
    have hend : (0 : UInt8) ∉ crlf := by decide
    have hrest := ih fun g hg => h g (List.mem_cons_of_mem f hg)
    simp [headerText, hname, hcolon, hsp, hf.text, hend, hrest]

/-- The text of some fields does not start with CR. -/
theorem headerText_head {f : Field} (hf : f.Valid) (rest : List Field) :
    (headerText (f :: rest)).head? ≠ some cr := by
  cases hname : f.name with
  | nil => exact absurd hname hf.name_ne
  | cons ch name =>
    have htoken := hf.token ch (by simp [hname])
    intro hcr
    obtain rfl : ch = cr := by simpa [headerText, hname] using hcr
    exact absurd htoken (by decide)

/-- A field with a value is a line. -/
theorem Field.line {f : Field} (hf : f.Valid) (hvalue : trimmed f.value ≠ []) (rest : List Field) :
    ∃ k, HeaderField (headerText (f :: rest)) f.name (trimmed f.value) k (headerText rest) := by
  obtain ⟨a, k, hsplit, hhead, hlast⟩ := trimmed_split f.value
  refine ⟨k, ⟨⟨0, 0, f.pad + a, ?_⟩, hf.name_ne, hf.token, ?_⟩, hvalue, hlast, ?_⟩
  · rw [headerText]
    nth_rewrite 1 [hsplit]
    simp [spaces_zero, spaces_add]
  · rw [List.head?_append_of_ne_nil _ hvalue] at hhead ⊢
    exact hhead
  · intro hin
    have hlf : lf ∈ trimmed f.value ++ (spaces k ++ [cr]) := hin.subset (by decide)
    have hno : lf ∉ trimmed f.value ++ spaces k := fun hm => hf.no_lf (by
      rw [hsplit]
      exact List.mem_append_right _ hm)
    have hcr : lf ≠ cr := by decide
    rw [← List.append_assoc, List.mem_append, List.mem_singleton] at hlf
    exact hlf.elim hno hcr

/-- A field with a blank value has nothing between its colon and the line
end but spaces. -/
theorem Field.blank {f : Field} (hf : f.Valid) (hvalue : trimmed f.value = []) (rest : List Field) :
    FieldHead (headerText (f :: rest)) f.name (crlf ++ headerText rest) := by
  obtain ⟨a, k, hsplit, -, -⟩ := trimmed_split f.value
  have hhead : (crlf ++ headerText rest).head? = some cr := rfl
  refine ⟨⟨0, 0, f.pad + a + k, ?_⟩, hf.name_ne, hf.token, by rw [hhead]; decide⟩
  rw [headerText]
  nth_rewrite 1 [hsplit]
  simp [hvalue, spaces_zero, spaces_add]

/-! ## §2 A table with room -/

/-- The table holds `old`, and there is room for the fields. -/
structure Fits (h : IoHmap) (old : List (Text × Text)) (fields : List Field) : Prop where
  holds : HmapHolds h old
  valid : ∀ f ∈ fields, f.Valid
  new : ∀ f ∈ fields, fieldValue old f.name = none
  distinct : fields.Pairwise fun f g => strcaseEq g.name f.name = false
  short : ∀ f ∈ fields, (trimmed f.value).length < 2 ^ 32
  room : old.length + fields.length ≤ h.map.keysLimit
  heap : (fields.map Field.bytes).sum ≤ h.heap.free

/-- A field with a value goes into the table. -/
theorem Fits.line {h : IoHmap} {old : List (Text × Text)} {f : Field} {rest : List Field}
    (hfits : Fits h old (f :: rest)) (hvalue : trimmed f.value ≠ []) (o : ArgOrder) :
    ∃ k h₁, HeaderField (headerText (f :: rest)) f.name (trimmed f.value) k (headerText rest) ∧
      addField o h (headerText (f :: rest)) f.name (trimmed f.value) k (headerText rest) =
        .ok (none, h₁) ∧
      Fits h₁ (old ++ [(f.name, trimmed f.value)]) rest := by
  have hvalid := hfits.valid f List.mem_cons_self
  have hshort := hfits.short f List.mem_cons_self
  have hnew := hfits.new f List.mem_cons_self
  have hroom := hfits.room
  have hheap := hfits.heap
  obtain ⟨k, hline⟩ := Field.line hvalid hvalue rest
  simp only [List.length_cons, List.map_cons, List.sum_cons] at hroom hheap
  have hfield : (lineCall (headerText (f :: rest)) f.name (trimmed f.value) k
      (headerText rest)).field = (f.name, trimmed f.value) :=
    Prod.ext hline.field_fst (hline.field_snd hshort)
  have hbytes : (lineCall (headerText (f :: rest)) f.name (trimmed f.value) k
      (headerText rest)).bytes = f.bytes := by
    rw [HmapCall.bytes, hfield, Field.bytes]
  obtain ⟨h₁, hadd, hholds, hlimit, hfree⟩ := HmapCall.step_fits o
    (hline.valid (zero_notMem_headerText hfits.valid)) hfits.holds (hline.call_name.symm ▸ hnew)
    (by omega) (by omega)
  rw [hfield] at hholds
  obtain ⟨hdistinct, hpair⟩ := List.pairwise_cons.mp hfits.distinct
  refine ⟨k, h₁, hline, hadd, hholds, ?_, ?_, hpair, ?_, ?_, by omega⟩
  · exact fun g hg => hfits.valid g (List.mem_cons_of_mem f hg)
  · intro g hg
    have hold := fieldValue_eq_none.mp (hfits.new g (List.mem_cons_of_mem f hg))
    refine fieldValue_eq_none.mpr fun e he => ?_
    rcases List.mem_append.mp he with he | he
    · exact hold e he
    · obtain rfl := List.mem_singleton.mp he
      exact hdistinct g hg
  · exact fun g hg => hfits.short g (List.mem_cons_of_mem f hg)
  · simp only [List.length_append, List.length_cons, List.length_nil]
    omega

/-- By induction on the fields: with a value in each, the loop accepts
them all. -/
theorem Fits.accepts {fields : List Field} {h : IoHmap} {old : List (Text × Text)}
    (hfits : Fits h old fields) (hne : fields ≠ []) (hvalues : ∀ f ∈ fields, trimmed f.value ≠ [])
    (o : ArgOrder) :
    ∃ h', Accepts o h (headerText fields) h' crlf ∧
      HmapHolds h' (old ++ fields.map fun f => (f.name, trimmed f.value)) := by
  induction fields generalizing h old with
  | nil => exact absurd rfl hne
  | cons f rest ih =>
    obtain ⟨k, h₁, hline, hadd, hrest⟩ := hfits.line (hvalues f List.mem_cons_self) o
    cases rest with
    | nil => exact ⟨h₁, .last hline hadd (List.prefix_refl _), by simpa using hrest.holds⟩
    | cons g rest =>
      obtain ⟨h', haccepts, hholds⟩ := ih hrest (by simp) fun f' hf' =>
        hvalues f' (List.mem_cons_of_mem f hf')
      have hcr := headerText_head (hrest.valid g List.mem_cons_self) rest
      exact ⟨h', .line hline hadd hcr haccepts, by simpa using hholds⟩

/-- By induction on the fields: the first blank value stops the loop. -/
theorem Fits.refuses {fields : List Field} {h : IoHmap} {old : List (Text × Text)}
    (hfits : Fits h old fields) (hblank : ∃ f ∈ fields, trimmed f.value = []) (o : ArgOrder)
    (header : Text) {fuel : Nat} (hfuel : (headerText fields).length < fuel) :
    ∃ h', headerLoop o header fuel h (headerText fields) = .ok (-3, h', header) := by
  induction fields generalizing h old fuel with
  | nil => simp at hblank
  | cons f rest ih =>
    cases fuel with
    | zero => omega
    | succ fuel =>
      by_cases hvalue : trimmed f.value = []
      · have hempty := (Field.blank (hfits.valid f List.mem_cons_self) hvalue rest).emptyValue o h
        rw [headerLoop_round, hempty]
        exact ⟨h, rfl⟩
      · obtain ⟨k, h₁, hline, hadd, hrest⟩ := hfits.line hvalue o
        have hround := hline.round o h
        rw [hadd] at hround
        have hlater : ∃ g ∈ rest, trimmed g.value = [] := by
          obtain ⟨g, hg, hgv⟩ := hblank
          rcases List.mem_cons.mp hg with rfl | hg
          · exact absurd hgv hvalue
          · exact ⟨g, hg, hgv⟩
        have hcr : (headerText rest).head? ≠ some cr := by
          obtain ⟨g, hg, -⟩ := hlater
          cases rest with
          | nil => cases hg
          | cons g' rest => exact headerText_head (hrest.valid g' List.mem_cons_self) rest
        have hlen := hline.next_length
        rw [headerLoop_line hround hcr]
        exact ih hrest hlater (by omega)

/-! ## §3 Looking up -/

theorem strcaseEq_eq {a b : Text} : strcaseEq a b = true ↔ a.map tolower = b.map tolower := by
  simp [strcaseEq]

/-- Among distinct names each one finds its own value. -/
theorem fieldValue_of_mem {fields : List (Text × Text)} (hd : Distinct fields) {f : Text × Text}
    (hf : f ∈ fields) {name : Text} (hname : strcaseEq name f.1 = true) :
    fieldValue fields name = some f.2 := by
  induction fields with
  | nil => cases hf
  | cons g fields ih =>
    obtain ⟨hhead, htail⟩ := List.pairwise_cons.mp hd
    rcases List.mem_cons.mp hf with rfl | hf
    · simp [fieldValue, hname]
    · have hne : strcaseEq name g.1 = false := by
        cases hc : strcaseEq name g.1 with
        | false => rfl
        | true =>
          have hsame : strcaseEq f.1 g.1 = true :=
            strcaseEq_eq.mpr ((strcaseEq_eq.mp hname).symm.trans (strcaseEq_eq.mp hc))
          rw [hhead f hf] at hsame
          cases hsame
      have hrest := ih htail hf
      simpa [fieldValue, hne] using hrest

/-- **Completeness.** Fields that fit the table are accepted when each has a
value, and each name, in any letter case, then finds its value without the
spaces around it; with a blank value among them the parser returns -3. -/
theorem headerParse_complete (o : ArgOrder) (keysLimit heapSize : Nat) (fields : List Field)
    (hne : fields ≠ []) (hvalid : ∀ f ∈ fields, f.Valid)
    (hdistinct : fields.Pairwise fun f g => strcaseEq g.name f.name = false)
    (hshort : ∀ f ∈ fields, (trimmed f.value).length < 2 ^ 32)
    (hroom : fields.length ≤ keysLimit) (hheap : (fields.map Field.bytes).sum ≤ heapSize) :
    ((∀ f ∈ fields, trimmed f.value ≠ []) →
      ∃ h', ioHttpHeaderParse o (ioHmapCreate keysLimit heapSize) (headerText fields) =
          .ok (0, h', crlf) ∧
        ∀ f ∈ fields, ∀ name, strcaseEq name f.name = true →
          ∃ p, ioHmapGetc h' name = .ok (some p) ∧ h'.heap.text p = trimmed f.value) ∧
    ((∃ f ∈ fields, trimmed f.value = []) →
      ∃ h', ioHttpHeaderParse o (ioHmapCreate keysLimit heapSize) (headerText fields) =
          .ok (-3, h', headerText fields)) := by
  have hfits : Fits (ioHmapCreate keysLimit heapSize) [] fields :=
    ⟨hmapHolds_create _ _, hvalid, fun _ _ => rfl, hdistinct, hshort,
      (Nat.zero_add fields.length).symm ▸ hroom, hheap⟩
  refine ⟨fun hvalues => ?_, fun hblank => hfits.refuses hblank o _ (Nat.lt_succ_self _)⟩
  obtain ⟨h', haccepts, hholds⟩ := hfits.accepts hne hvalues o
  refine ⟨h', ioHttpHeaderParse_zero_iff.mpr haccepts, fun f hf name hname => ?_⟩
  have hd : Distinct ([] ++ fields.map fun f => (f.name, trimmed f.value)) :=
    List.pairwise_map.mpr hdistinct
  have hmem : (f.name, trimmed f.value) ∈ [] ++ fields.map fun f => (f.name, trimmed f.value) :=
    List.mem_map_of_mem hf
  obtain ⟨found, hget, htext⟩ := hholds.getc name
  rw [fieldValue_of_mem hd hmem hname] at htext
  obtain ⟨p, rfl, hp⟩ := Option.map_eq_some_iff.mp htext
  exact ⟨p, hget, hp⟩

/-- A field, with a space on either side of its value. -/
def spacedField : Field := ⟨lit ['A'], 1, lit ['b', ' ']⟩

def noValue : Field := ⟨lit ['a'], 0, []⟩

theorem headerParse_complete_spaced :
    ∃ h', ioHttpHeaderParse .leftFirst (ioHmapCreate 1 4) (headerText [spacedField]) =
        .ok (0, h', crlf) ∧
      ∃ p, ioHmapGetc h' (lit ['a']) = .ok (some p) ∧ h'.heap.text p = lit ['b'] := by
  obtain ⟨hvalues, -⟩ := headerParse_complete .leftFirst 1 4 [spacedField] (by decide)
    (by decide) (by decide) (by decide) (by decide) (by decide)
  obtain ⟨h', hparse, hget⟩ := hvalues (by decide)
  obtain ⟨p, hp, htext⟩ := hget spacedField List.mem_cons_self (lit ['a']) (by decide)
  exact ⟨h', hparse, p, hp, htext⟩

/-- A field without a value is refused, whatever room there is for it. -/
theorem headerParse_noValue :
    noValue.Valid ∧ ([noValue].map Field.bytes).sum ≤ 8 ∧
      ¬ ∃ h' q, ioHttpHeaderParse .leftFirst (ioHmapCreate 1 8) (headerText [noValue]) =
        .ok (0, h', q) := by
  refine ⟨by decide, by decide, ?_⟩
  rintro ⟨h', q, hparse⟩
  have hrefused : ioHttpHeaderParse .leftFirst (ioHmapCreate 1 8) (headerText [noValue]) =
      .ok (-3, ioHmapCreate 1 8, headerText [noValue]) := rfl
  rw [hrefused] at hparse
  cases hparse

end Nanio.Http
