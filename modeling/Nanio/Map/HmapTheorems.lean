/-
Nanio.Map.HmapTheorems — what `io_hmap_t` holds, and what one add does.

A string is stored when its bytes and a NUL stand in the written part of
the heap (`IoOheap.stores`); the heap only grows, so it stays stored. The
table holds a list of fields when its entries store them one by one
(`HmapHolds`). Whatever a call is passed, it takes nothing back
(`ioHmapAddl_grows`). What it does is said case by case: the name is present
(`step_present`), everything fits (`step_fits`), a string does not fit
(`step_short`), or there is no entry left for the copies (`step_full`).
-/
import Mathlib.Data.List.Forall2
import Nanio.Map.IoMapTheorems

namespace Nanio.Map

open Nanio.Lib

/-! ## §1 The heap -/

/-- The bytes left in the area. -/
def IoOheap.free (h : IoOheap) : Nat := h.size - h.mem.length

/-- The heap with one more string. -/
def IoOheap.push (h : IoOheap) (t : Text) : IoOheap := { h with mem := h.mem ++ (t ++ [0]) }

/-- The text and its NUL stand at this pointer. -/
def IoOheap.stores (h : IoOheap) (p : Option Nat) (t : Text) : Prop :=
  ∃ k, p = some k ∧ 0 ∉ t ∧ t ++ [0] <+: h.mem.drop k

/-- Everything written stays where it is. -/
def IoOheap.Grows (h h' : IoOheap) : Prop := h.mem <+: h'.mem ∧ h'.size = h.size

theorem IoOheap.Grows.refl (h : IoOheap) : h.Grows h := ⟨List.prefix_refl _, rfl⟩

theorem IoOheap.Grows.trans {a b c : IoOheap} (hab : a.Grows b) (hbc : b.Grows c) : a.Grows c :=
  ⟨hab.1.trans hbc.1, hbc.2.trans hab.2⟩

theorem IoOheap.grows_push (h : IoOheap) (t : Text) : h.Grows (h.push t) :=
  ⟨List.prefix_append _ _, rfl⟩

theorem IoOheap.free_push (h : IoOheap) (t : Text) :
    (h.push t).free = h.free - (t.length + 1) := by
  simp [IoOheap.free, IoOheap.push]
  omega

theorem IoOheap.stores_push (h : IoOheap) {t : Text} (h0 : 0 ∉ t) :
    (h.push t).stores (some h.mem.length) t :=
  ⟨_, rfl, h0, by simp [IoOheap.push]⟩

theorem IoOheap.stores.mono {h h' : IoOheap} {p : Option Nat} {t : Text} (hs : h.stores p t)
    (hg : h.Grows h') : h'.stores p t := by
  obtain ⟨k, rfl, h0, hpre⟩ := hs
  exact ⟨k, rfl, h0, hpre.trans (hg.1.drop k)⟩

theorem IoOheap.stores.text {h : IoOheap} {k : Nat} {t : Text} (hs : h.stores (some k) t) :
    h.text k = t := by
  obtain ⟨k, hk, h0, rest, hrest⟩ := hs
  obtain rfl := Option.some.inj hk
  have hall : ∀ c ∈ t, (c != 0) = true := by
    intro c hc
    have hne : c ≠ 0 := fun e => h0 (e ▸ hc)
    simpa using hne
  rw [IoOheap.text, ← hrest, List.append_assoc, List.takeWhile_append_of_pos hall]
  simp

/-- The copy that `io_oheap_strdup` is asked for. -/
def copied (v : Text) (length : Nat) : Text := if length = 0 then v else v.take length

theorem zero_notMem_copied {v : Text} (h0 : 0 ∉ v) (length : Nat) : 0 ∉ copied v length := by
  unfold copied
  split
  · exact h0
  · exact fun h => h0 (List.mem_of_mem_take h)

theorem ioOheapStrdup_eq (h : IoOheap) {v : Text} {length : Nat} (hl : length ≤ v.length) :
    ioOheapStrdup h v length =
      if h.free < (copied v length).length + 1 then .ok (none, h)
      else .ok (some h.mem.length, h.push (copied v length)) := by
  unfold ioOheapStrdup copied IoOheap.free IoOheap.push
  by_cases h0 : length = 0
  · simp [h0]
  · have hlen : (v.take length).length = length := by simp [hl]
    have hle : length ≤ v.length + 1 := Nat.le_succ_of_le hl
    simp [h0, hl, hle, List.take_append_of_le_length]

theorem ioOheapStrdup_fits {h : IoOheap} {v : Text} {length : Nat} (hl : length ≤ v.length)
    (hfit : (copied v length).length + 1 ≤ h.free) :
    ioOheapStrdup h v length = .ok (some h.mem.length, h.push (copied v length)) := by
  rw [ioOheapStrdup_eq h hl, if_neg (by omega)]

theorem ioOheapStrdup_full {h : IoOheap} {v : Text} {length : Nat} (hl : length ≤ v.length)
    (hfull : h.free < (copied v length).length + 1) :
    ioOheapStrdup h v length = .ok (none, h) := by
  rw [ioOheapStrdup_eq h hl, if_pos hfull]

/-! ## §2 The two copies of an add -/

section

variable {key value : Text} {keyLen valueLen : Nat}

/-- The two copies, one after the other. -/
theorem strdupBoth_left {h h' : IoOheap} {k v : Option Nat} :
    strdupBoth .leftFirst h key keyLen value valueLen = .ok (k, v, h') ↔
      ∃ h₁, ioOheapStrdup h key keyLen = .ok (k, h₁) ∧
        ioOheapStrdup h₁ value valueLen = .ok (v, h') := by
  constructor
  · intro e
    cases e₁ : ioOheapStrdup h key keyLen with
    | error f => simp [strdupBoth, e₁, bind, Except.bind] at e
    | ok r =>
      cases e₂ : ioOheapStrdup r.2 value valueLen with
      | error f => simp [strdupBoth, e₁, e₂, bind, Except.bind] at e
      | ok s =>
        simp only [strdupBoth, e₁, e₂, bind, Except.bind] at e
        cases e
        exact ⟨_, rfl, e₂⟩
  · rintro ⟨h₁, e₁, e₂⟩
    simp only [strdupBoth, e₁, e₂, bind, Except.bind]
    rfl

/-- The other order copies the same strings the other way round. -/
theorem strdupBoth_right {h h' : IoOheap} {k v : Option Nat} :
    strdupBoth .rightFirst h key keyLen value valueLen = .ok (k, v, h') ↔
      strdupBoth .leftFirst h value valueLen key keyLen = .ok (v, k, h') := by
  cases e₁ : ioOheapStrdup h value valueLen with
  | error f => simp [strdupBoth, e₁, bind, Except.bind]
  | ok r =>
    cases e₂ : ioOheapStrdup r.2 key keyLen with
    | error f => simp [strdupBoth, e₁, e₂, bind, Except.bind]
    | ok s =>
      simp only [strdupBoth, e₁, e₂, bind, Except.bind, pure, Except.pure, Except.ok.injEq,
        Prod.mk.injEq]
      tauto

theorem strdupLeft_fits {h : IoOheap} (hk : keyLen ≤ key.length) (hv : valueLen ≤ value.length)
    (h0k : 0 ∉ key) (h0v : 0 ∉ value)
    (hfit : (copied key keyLen).length + (copied value valueLen).length + 2 ≤ h.free) :
    ∃ k v h', strdupBoth .leftFirst h key keyLen value valueLen = .ok (k, v, h') ∧ h.Grows h' ∧
      h'.stores k (copied key keyLen) ∧ h'.stores v (copied value valueLen) ∧
      h'.free = h.free - ((copied key keyLen).length + (copied value valueLen).length + 2) := by
  have hfree := h.free_push (copied key keyLen)
  have hfree' := (h.push (copied key keyLen)).free_push (copied value valueLen)
  have e₁ := ioOheapStrdup_fits (h := h) hk (by omega)
  have e₂ := ioOheapStrdup_fits (h := h.push (copied key keyLen)) hv (by omega)
  refine ⟨_, _, _, strdupBoth_left.mpr ⟨_, e₁, e₂⟩, ?_, ?_, ?_, ?_⟩
  · exact (h.grows_push _).trans (IoOheap.grows_push _ _)
  · exact (h.stores_push (zero_notMem_copied h0k keyLen)).mono (IoOheap.grows_push _ _)
  · exact IoOheap.stores_push _ (zero_notMem_copied h0v valueLen)
  · omega

theorem strdupBoth_fits (o : ArgOrder) {h : IoOheap} (hk : keyLen ≤ key.length)
    (hv : valueLen ≤ value.length) (h0k : 0 ∉ key) (h0v : 0 ∉ value)
    (hfit : (copied key keyLen).length + (copied value valueLen).length + 2 ≤ h.free) :
    ∃ k v h', strdupBoth o h key keyLen value valueLen = .ok (k, v, h') ∧ h.Grows h' ∧
      h'.stores k (copied key keyLen) ∧ h'.stores v (copied value valueLen) ∧
      h'.free = h.free - ((copied key keyLen).length + (copied value valueLen).length + 2) := by
  cases o with
  | leftFirst => exact strdupLeft_fits hk hv h0k h0v hfit
  | rightFirst =>
    obtain ⟨v, k, h', e, hgrow, hsv, hsk, hfree⟩ :=
      strdupLeft_fits (h := h) hv hk h0v h0k (by omega)
    exact ⟨k, v, h', strdupBoth_right.mpr e, hgrow, hsk, hsv, by omega⟩

theorem strdupLeft_short {h : IoOheap} (hk : keyLen ≤ key.length) (hv : valueLen ≤ value.length)
    (hshort : h.free < (copied key keyLen).length + (copied value valueLen).length + 2) :
    ∃ k v h', strdupBoth .leftFirst h key keyLen value valueLen = .ok (k, v, h') ∧
      (k = none ∨ v = none) := by
  rcases Nat.lt_or_ge h.free ((copied key keyLen).length + 1) with hfull | hfit
  · obtain ⟨⟨v, h'⟩, e₂⟩ := ioOheapStrdup_ok h hv
    have e₁ := ioOheapStrdup_full hk hfull
    exact ⟨none, v, h', strdupBoth_left.mpr ⟨h, e₁, e₂⟩, .inl rfl⟩
  · have hfree := h.free_push (copied key keyLen)
    have e₁ := ioOheapStrdup_fits hk hfit
    have e₂ := ioOheapStrdup_full (h := h.push (copied key keyLen)) hv (by omega)
    exact ⟨_, none, _, strdupBoth_left.mpr ⟨_, e₁, e₂⟩, .inr rfl⟩

/-- One of two strings does not fit: the call that needs it gets a null
pointer. -/
theorem strdupBoth_short (o : ArgOrder) {h : IoOheap} (hk : keyLen ≤ key.length)
    (hv : valueLen ≤ value.length)
    (hshort : h.free < (copied key keyLen).length + (copied value valueLen).length + 2) :
    ∃ k v h', strdupBoth o h key keyLen value valueLen = .ok (k, v, h') ∧
      (k = none ∨ v = none) := by
  cases o with
  | leftFirst => exact strdupLeft_short hk hv hshort
  | rightFirst =>
    obtain ⟨v, k, h', e, hnull⟩ := strdupLeft_short (h := h) hv hk (by omega)
    exact ⟨k, v, h', strdupBoth_right.mpr e, hnull.symm⟩

theorem strdupBoth_neither (o : ArgOrder) {h : IoOheap} (hk : keyLen ≤ key.length)
    (hv : valueLen ≤ value.length) (hfullk : h.free < (copied key keyLen).length + 1)
    (hfullv : h.free < (copied value valueLen).length + 1) :
    strdupBoth o h key keyLen value valueLen = .ok (none, none, h) := by
  have e₁ := ioOheapStrdup_full hk hfullk
  have e₂ := ioOheapStrdup_full hv hfullv
  cases o with
  | leftFirst => exact strdupBoth_left.mpr ⟨h, e₁, e₂⟩
  | rightFirst => exact strdupBoth_right.mpr (strdupBoth_left.mpr ⟨h, e₂, e₁⟩)

/-- A copy never gives bytes back. -/
theorem ioOheapStrdup_free (h : IoOheap) {v : Text} {length : Nat} (hl : length ≤ v.length) :
    ∃ p h', ioOheapStrdup h v length = .ok (p, h') ∧ h'.free ≤ h.free ∧
      ((copied v length).length + 1 ≤ h.free → h'.free < h.free) := by
  rcases Nat.lt_or_ge h.free ((copied v length).length + 1) with hfull | hfit
  · exact ⟨none, h, ioOheapStrdup_full hl hfull, Nat.le_refl _, fun hfit => by omega⟩
  · have hfree := h.free_push (copied v length)
    exact ⟨_, _, ioOheapStrdup_fits hl hfit, by omega, fun _ => by omega⟩

theorem strdupLeft_spends {h : IoOheap} (hk : keyLen ≤ key.length) (hv : valueLen ≤ value.length)
    (hone : (copied key keyLen).length + 1 ≤ h.free ∨ (copied value valueLen).length + 1 ≤ h.free) :
    ∃ k v h', strdupBoth .leftFirst h key keyLen value valueLen = .ok (k, v, h') ∧
      h'.free < h.free := by
  obtain ⟨k, h₁, e₁, hle₁, hlt₁⟩ := ioOheapStrdup_free h hk
  obtain ⟨v, h₂, e₂, hle₂, hlt₂⟩ := ioOheapStrdup_free h₁ hv
  refine ⟨k, v, h₂, strdupBoth_left.mpr ⟨h₁, e₁, e₂⟩, ?_⟩
  rcases hone with hone | hone
  · have := hlt₁ hone
    omega
  · rcases Nat.lt_or_ge h₁.free h.free with hlt | hge
    · omega
    · have := hlt₂ (by omega)
      omega

theorem strdupBoth_spends (o : ArgOrder) {h : IoOheap} (hk : keyLen ≤ key.length)
    (hv : valueLen ≤ value.length)
    (hone : (copied key keyLen).length + 1 ≤ h.free ∨ (copied value valueLen).length + 1 ≤ h.free) :
    ∃ k v h', strdupBoth o h key keyLen value valueLen = .ok (k, v, h') ∧ h'.free < h.free := by
  cases o with
  | leftFirst => exact strdupLeft_spends hk hv hone
  | rightFirst =>
    obtain ⟨v, k, h', e, hlt⟩ := strdupLeft_spends (h := h) hv hk hone.symm
    exact ⟨k, v, h', strdupBoth_right.mpr e, hlt⟩

end

/-! ## §3 The table -/

/-- The entries store these fields, one by one. -/
structure HmapHolds (m : IoHmap) (fields : List (Text × Text)) : Prop where
  entries : List.Forall₂ (fun kv f => m.heap.stores kv.key f.1 ∧ m.heap.stores kv.value f.2)
    m.map.kvs fields
  room : fields.length ≤ m.map.keysLimit

theorem hmapHolds_create (keysLimit heapSize : Nat) :
    HmapHolds (ioHmapCreate keysLimit heapSize) [] where
  entries := List.Forall₂.nil
  room := Nat.zero_le _

theorem HmapHolds.length {m : IoHmap} {fields : List (Text × Text)} (h : HmapHolds m fields) :
    m.map.kvs.length = fields.length :=
  h.entries.length_eq

/-- The value of the first field with this name, ignoring case. -/
def fieldValue (fields : List (Text × Text)) (name : Text) : Option Text :=
  (fields.find? fun f => strcaseEq name f.1).map Prod.snd

theorem fieldValue_eq_none {fields : List (Text × Text)} {name : Text} :
    fieldValue fields name = none ↔ ∀ f ∈ fields, strcaseEq name f.1 = false := by
  simp [fieldValue]

theorem HmapHolds.getc {m : IoHmap} {fields : List (Text × Text)} (h : HmapHolds m fields)
    (name : Text) :
    ∃ found, ioHmapGetc m name = .ok found ∧ found.map m.heap.text = fieldValue fields name := by
  obtain ⟨hentries, -⟩ := h
  unfold ioHmapGetc ioMapGetc
  generalize m.map.kvs = kvs at hentries
  induction hentries with
  | nil => exact ⟨none, rfl, rfl⟩
  | @cons kv f kvs fields hkv _ ih =>
    obtain ⟨k, hkey, -, -⟩ := hkv.1
    obtain ⟨v, hvalue, -, -⟩ := hkv.2
    have hkt : m.heap.text k = f.1 := (hkey ▸ hkv.1).text
    have hvt : m.heap.text v = f.2 := (hvalue ▸ hkv.2).text
    simp only [getcLoop, hkey, hkt, fieldValue, List.find?_cons]
    cases hc : strcaseEq name f.1 with
    | true => exact ⟨some v, by simp [hvalue], by simp [hvt]⟩
    | false =>
      obtain ⟨found, hfound, htext⟩ := ih
      exact ⟨found, by simpa using hfound, by simpa [fieldValue] using htext⟩

theorem HmapHolds.getcs {m : IoHmap} {key : Text} {size : Nat} (hsize : size ≤ key.length) :
    ioHmapGetcs m key size = ioHmapGetc m (key.take size) :=
  getcsLoop_eq_getcLoop m.heap.zero_notMem_text hsize m.map.kvs

theorem HmapHolds.grow {m : IoHmap} {fields : List (Text × Text)} (h : HmapHolds m fields)
    {heap : IoOheap} (hg : m.heap.Grows heap) : HmapHolds ⟨heap, m.map⟩ fields where
  entries := h.entries.imp fun _ _ hs => ⟨hs.1.mono hg, hs.2.mono hg⟩
  room := h.room

theorem IoOheap.stores.unique {h : IoOheap} {p : Option Nat} {t u : Text} (ht : h.stores p t)
    (hu : h.stores p u) : t = u := by
  obtain ⟨k, rfl, -, -⟩ := id ht
  exact ht.text.symm.trans hu.text

/-- What was stored last in one table is what a later one has there. -/
theorem HmapHolds.agree {m m' : IoHmap} {old rest : List (Text × Text)} {f g : Text × Text}
    (h : HmapHolds m (old ++ [f])) (h' : HmapHolds m' (old ++ g :: rest))
    (hkvs : m.map.kvs <+: m'.map.kvs) (hgrow : m.heap.Grows m'.heap) : f = g := by
  have hlen : m.map.kvs.length = old.length + 1 := by simp [h.length]
  have hlt : old.length < m.map.kvs.length := by omega
  have hlt' : old.length < m'.map.kvs.length := Nat.lt_of_lt_of_le hlt hkvs.length_le
  have hf := h.entries.get hlt (by simp)
  have hg := h'.entries.get hlt' (by simp)
  have hsame : m'.map.kvs[old.length] = m.map.kvs[old.length] := (hkvs.getElem hlt).symm
  simp only [List.get_eq_getElem, hsame, List.getElem_append_right (Nat.le_refl _), Nat.sub_self,
    List.getElem_cons_zero] at hf hg
  exact Prod.ext ((hf.1.mono hgrow).unique hg.1) ((hf.2.mono hgrow).unique hg.2)

/-- A table with fields has no null pointer in its entries. -/
theorem HmapHolds.ne_none {m : IoHmap} {fields : List (Text × Text)} (h : HmapHolds m fields)
    {kv : IoKv Nat} (hkv : kv ∈ m.map.kvs) : kv.key ≠ none ∧ kv.value ≠ none := by
  obtain ⟨hentries, -⟩ := h
  generalize m.map.kvs = kvs at hentries hkv
  induction hentries with
  | nil => cases hkv
  | cons hs _ ih =>
    rcases List.mem_cons.mp hkv with rfl | hkv
    · obtain ⟨k, hk, -⟩ := hs.1
      obtain ⟨v, hv, -⟩ := hs.2
      simp [hk, hv]
    · exact ih hkv

/-! ## §4 What every call keeps -/

theorem ioOheapStrdup_grows {h h' : IoOheap} {v : Text} {length : Nat} {p : Option Nat}
    (e : ioOheapStrdup h v length = .ok (p, h')) : h.Grows h' := by
  simp only [ioOheapStrdup] at e
  generalize (if length = 0 then v.length else length) = n at e
  split at e
  · cases e
    exact .refl h
  · split at e
    · cases e
      exact ⟨by simp, rfl⟩
    · cases e

theorem strdupBoth_grows {o : ArgOrder} {h h' : IoOheap} {key value : Text} {keyLen valueLen : Nat}
    {k v : Option Nat} (e : strdupBoth o h key keyLen value valueLen = .ok (k, v, h')) :
    h.Grows h' := by
  cases o with
  | leftFirst =>
    obtain ⟨h₁, e₁, e₂⟩ := strdupBoth_left.mp e
    exact (ioOheapStrdup_grows e₁).trans (ioOheapStrdup_grows e₂)
  | rightFirst =>
    obtain ⟨h₁, e₁, e₂⟩ := strdupBoth_left.mp (strdupBoth_right.mp e)
    exact (ioOheapStrdup_grows e₁).trans (ioOheapStrdup_grows e₂)

/-- Whatever it finds and whatever it is passed, `io_hmap_addl` takes
nothing back. -/
theorem ioHmapAddl_grows {o : ArgOrder} {m m' : IoHmap} {key value : Text} {keyLen valueLen : Nat}
    {r : Option Errno} (e : ioHmapAddl o m key keyLen value valueLen = .ok (r, m')) :
    m.map.kvs <+: m'.map.kvs ∧ m.heap.Grows m'.heap := by
  cases hget : ioHmapGetcs m key keyLen with
  | error f => simp [ioHmapAddl, hget, bind, Except.bind] at e
  | ok found =>
    cases found with
    | some v =>
      simp only [ioHmapAddl, hget, bind, Except.bind] at e
      cases e
      exact ⟨List.prefix_refl _, .refl _⟩
    | none =>
      cases hdup : strdupBoth o m.heap key keyLen value valueLen with
      | error f => simp [ioHmapAddl, hget, hdup, bind, Except.bind] at e
      | ok s =>
        obtain ⟨k, v, heap⟩ := s
        simp only [ioHmapAddl, hget, hdup, bind, Except.bind] at e
        cases e
        refine ⟨?_, strdupBoth_grows hdup⟩
        unfold ioMapNewKv
        split
        · exact List.prefix_refl _
        · exact List.prefix_append _ _

/-! ## §5 One call -/

/-- A call of `io_hmap_add` or `io_hmap_addl`. -/
inductive HmapCall where
  | add (key value : Text)
  | addl (key : Text) (keyLen : Nat) (value : Text) (valueLen : Nat)
  deriving DecidableEq, Repr

namespace HmapCall

def step (o : ArgOrder) (m : IoHmap) : HmapCall → Except TextFault (Option Errno × IoHmap)
  | .add key value => ioHmapAdd o m key value
  | .addl key keyLen value valueLen => ioHmapAddl o m key keyLen value valueLen

def key : HmapCall → Text
  | .add key _ => key
  | .addl key _ _ _ => key

def keyLen : HmapCall → Nat
  | .add _ _ => 0
  | .addl _ keyLen _ _ => keyLen

def value : HmapCall → Text
  | .add _ value => value
  | .addl _ _ value _ => value

def valueLen : HmapCall → Nat
  | .add _ _ => 0
  | .addl _ _ _ valueLen => valueLen

/-- The name that is looked up first. -/
def name : HmapCall → Text
  | .add key _ => key
  | .addl key keyLen _ _ => key.take keyLen

/-- The strings that are copied. -/
def field (c : HmapCall) : Text × Text := (copied c.key c.keyLen, copied c.value c.valueLen)

/-- The bytes that both copies take, NULs included. -/
def bytes (c : HmapCall) : Nat := c.field.1.length + c.field.2.length + 2

/-- What `io_hmap_addl` is promised: NUL-terminated strings, and lengths
that do not go past their end. -/
structure Valid (c : HmapCall) : Prop where
  keyText : 0 ∉ c.key
  valueText : 0 ∉ c.value
  keyEnd : c.keyLen ≤ c.key.length
  valueEnd : c.valueLen ≤ c.value.length

variable {c : HmapCall} {m : IoHmap} {fields : List (Text × Text)}

/-- A lookup that finds a value: the call is refused, and nothing is copied. -/
theorem step_found (o : ArgOrder) (hv : c.Valid) {p : Nat}
    (hget : ioHmapGetc m c.name = .ok (some p)) : c.step o m = .ok (some .EEXIST, m) := by
  cases c with
  | add key value =>
    have hget' : ioHmapGetc m key = .ok (some p) := hget
    simp only [step, ioHmapAdd, hget']
    rfl
  | addl key keyLen value valueLen =>
    have hend : keyLen ≤ key.length := hv.keyEnd
    have hgetcs : ioHmapGetcs m key keyLen = .ok (some p) := (HmapHolds.getcs hend).trans hget
    simp only [step, ioHmapAddl, hgetcs]
    rfl

/-- One that finds none: the two copies and the new entry. -/
theorem step_notFound (o : ArgOrder) (hv : c.Valid) (hget : ioHmapGetc m c.name = .ok none)
    {k v : Option Nat} {heap : IoOheap}
    (hdup : strdupBoth o m.heap c.key c.keyLen c.value c.valueLen = .ok (k, v, heap)) :
    c.step o m = .ok ((ioMapNewKv m.map k v).1, ⟨heap, (ioMapNewKv m.map k v).2⟩) := by
  cases c with
  | add key value =>
    have hget' : ioHmapGetc m key = .ok none := hget
    have hdup' : strdupBoth o m.heap key 0 value 0 = .ok (k, v, heap) := hdup
    simp only [step, ioHmapAdd, hget', hdup', bind, Except.bind]
    rfl
  | addl key keyLen value valueLen =>
    have hend : keyLen ≤ key.length := hv.keyEnd
    have hgetcs : ioHmapGetcs m key keyLen = .ok none := (HmapHolds.getcs hend).trans hget
    have hdup' : strdupBoth o m.heap key keyLen value valueLen = .ok (k, v, heap) := hdup
    simp only [step, ioHmapAddl, hgetcs, hdup', bind, Except.bind]
    rfl

theorem step_error (o : ArgOrder) (hv : c.Valid) {f : TextFault}
    (hget : ioHmapGetc m c.name = .error f) : c.step o m = .error f := by
  cases c with
  | add key value =>
    have hget' : ioHmapGetc m key = .error f := hget
    simp only [step, ioHmapAdd, hget']
    rfl
  | addl key keyLen value valueLen =>
    have hend : keyLen ≤ key.length := hv.keyEnd
    have hgetcs : ioHmapGetcs m key keyLen = .error f := (HmapHolds.getcs hend).trans hget
    simp only [step, ioHmapAddl, hgetcs]
    rfl

/-- A present name is refused. -/
theorem step_present (o : ArgOrder) (hv : c.Valid) (h : HmapHolds m fields) {v : Text}
    (hname : fieldValue fields c.name = some v) : c.step o m = .ok (some .EEXIST, m) := by
  obtain ⟨found, hget, htext⟩ := h.getc c.name
  obtain ⟨p, rfl, -⟩ := Option.map_eq_some_iff.mp (htext.trans hname)
  exact step_found o hv hget

/-- An absent name goes on to the two copies and the new entry. -/
theorem step_absent (o : ArgOrder) (hv : c.Valid) (h : HmapHolds m fields)
    (hname : fieldValue fields c.name = none) {k v : Option Nat} {heap : IoOheap}
    (hdup : strdupBoth o m.heap c.key c.keyLen c.value c.valueLen = .ok (k, v, heap)) :
    c.step o m = .ok ((ioMapNewKv m.map k v).1, ⟨heap, (ioMapNewKv m.map k v).2⟩) := by
  obtain ⟨found, hget, htext⟩ := h.getc c.name
  obtain rfl := Option.map_eq_none_iff.mp (htext.trans hname)
  exact step_notFound o hv hget hdup

/-- Room for the entry and for both strings: the field is added. -/
theorem step_fits (o : ArgOrder) (hv : c.Valid) (h : HmapHolds m fields)
    (hname : fieldValue fields c.name = none) (hroom : fields.length < m.map.keysLimit)
    (hfit : c.bytes ≤ m.heap.free) :
    ∃ m', c.step o m = .ok (none, m') ∧ HmapHolds m' (fields ++ [c.field]) ∧
      m'.map.keysLimit = m.map.keysLimit ∧ m'.heap.free = m.heap.free - c.bytes := by
  obtain ⟨k, v, heap, hdup, hgrow, hk, hval, hfree⟩ :=
    strdupBoth_fits o hv.keyEnd hv.valueEnd hv.keyText hv.valueText hfit
  have hnew : ioMapNewKv m.map k v = (none, { m.map with kvs := m.map.kvs ++ [⟨k, v⟩] }) := by
    have hlt : ¬ m.map.keysLimit ≤ m.map.kvs.length := by rw [h.length]; omega
    rw [ioMapNewKv, if_neg hlt]
  have hstep := step_absent o hv h hname hdup
  rw [hnew] at hstep
  refine ⟨_, hstep, ⟨?_, by simp; omega⟩, rfl, hfree⟩
  exact List.rel_append (h.grow hgrow).entries (List.Forall₂.cons ⟨hk, hval⟩ List.Forall₂.nil)

/-- Room for the entry but not for both strings: the entry has a null
pointer in it. -/
theorem step_short (o : ArgOrder) (hv : c.Valid) (h : HmapHolds m fields)
    (hname : fieldValue fields c.name = none) (hroom : fields.length < m.map.keysLimit)
    (hshort : m.heap.free < c.bytes) :
    ∃ k v heap, c.step o m = .ok (none, ⟨heap, { m.map with kvs := m.map.kvs ++ [⟨k, v⟩] }⟩) ∧
      (k = none ∨ v = none) := by
  obtain ⟨k, v, heap, hdup, hnull⟩ := strdupBoth_short o hv.keyEnd hv.valueEnd hshort
  have hlt : ¬ m.map.keysLimit ≤ m.map.kvs.length := by rw [h.length]; omega
  refine ⟨k, v, heap, ?_, hnull⟩
  rw [step_absent o hv h hname hdup, ioMapNewKv, if_neg hlt]

theorem step_full (o : ArgOrder) (hv : c.Valid) (h : HmapHolds m fields)
    (hname : fieldValue fields c.name = none) (hfull : m.map.keysLimit ≤ fields.length)
    {k v : Option Nat} {heap : IoOheap}
    (hdup : strdupBoth o m.heap c.key c.keyLen c.value c.valueLen = .ok (k, v, heap)) :
    c.step o m = .ok (some .ENOMEM, ⟨heap, m.map⟩) := by
  have hle : m.map.keysLimit ≤ m.map.kvs.length := by rw [h.length]; exact hfull
  rw [step_absent o hv h hname hdup, ioMapNewKv, if_pos hle]

end HmapCall

end Nanio.Map
