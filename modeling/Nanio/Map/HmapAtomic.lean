/-
Nanio.Map.HmapAtomic — when an add to an `io_hmap_t` is all or nothing.

`io_hmap_add` and `io_hmap_addl` copy both strings before they know that
the table has an entry for them, and store what the copies return without
looking at it. So a call is all or nothing exactly when its name is
present, or everything fits, or the table is full and not even one of the
strings fits (`HmapCall.Fits`). Otherwise it stores a null pointer and
returns 0, or uses up heap and returns -1.
-/
import Nanio.Map.HmapTheorems

namespace Nanio.Map

open Nanio.Lib

/-! ## §1 All or nothing -/

/-- The bindings as strings, with none for a null pointer. -/
def IoHmap.bindings (m : IoHmap) : List (Option Text × Option Text) :=
  m.map.kvs.map fun kv => (kv.key.map m.heap.text, kv.value.map m.heap.text)

/-- Either 0 and one more binding, both strings of it there, or -1 with
the bindings and the free heap as before. -/
def AllOrNothing (m : IoHmap) (r : Option Errno) (m' : IoHmap) : Prop :=
  (r = none ∧ ∃ key value, m'.bindings = m.bindings ++ [(some key, some value)]) ∨
  (r ≠ none ∧ m'.bindings = m.bindings ∧ m'.heap.free = m.heap.free)

/-- The table has this name, ignoring case. -/
def IoHmap.binds (m : IoHmap) (name : Text) : Prop :=
  ∃ b ∈ m.bindings, ∃ key, b.1 = some key ∧ strcaseEq name key = true

def HmapCall.Fits (m : IoHmap) (c : HmapCall) : Prop :=
  m.binds c.name ∨
  (m.map.kvs.length < m.map.keysLimit ∧ c.bytes ≤ m.heap.free) ∨
  (m.map.keysLimit ≤ m.map.kvs.length ∧ m.heap.free < c.field.1.length + 1 ∧
    m.heap.free < c.field.2.length + 1)

theorem HmapHolds.bindings {m : IoHmap} {fields : List (Text × Text)} (h : HmapHolds m fields) :
    m.bindings = fields.map fun f => (some f.1, some f.2) := by
  obtain ⟨hentries, -⟩ := h
  unfold IoHmap.bindings
  generalize m.map.kvs = kvs at hentries
  induction hentries with
  | nil => rfl
  | @cons kv f kvs fields hkv _ ih =>
    obtain ⟨k, hkey, -, -⟩ := hkv.1
    obtain ⟨v, hvalue, -, -⟩ := hkv.2
    have hkt : m.heap.text k = f.1 := (hkey ▸ hkv.1).text
    have hvt : m.heap.text v = f.2 := (hvalue ▸ hkv.2).text
    simp [hkey, hvalue, hkt, hvt, ih]

theorem HmapHolds.binds_iff {m : IoHmap} {fields : List (Text × Text)} (h : HmapHolds m fields)
    (name : Text) : m.binds name ↔ fieldValue fields name ≠ none := by
  unfold IoHmap.binds
  rw [Ne, fieldValue_eq_none, h.bindings]
  simp

/-! ## §2 One call -/

/-- The last binding decides: one with a null pointer is no whole binding. -/
theorem not_allOrNothing_of_null {m : IoHmap} {heap : IoOheap} {k v : Option Nat}
    (hnull : k = none ∨ v = none) :
    ¬ AllOrNothing m none ⟨heap, { m.map with kvs := m.map.kvs ++ [⟨k, v⟩] }⟩ := by
  rintro (⟨-, key, value, hb⟩ | ⟨hr, -, -⟩)
  · simp only [IoHmap.bindings, List.map_append, List.map_cons, List.map_nil] at hb
    have hlast := List.append_inj_right' hb rfl
    rcases hnull with rfl | rfl <;> simp at hlast
  · exact hr rfl

/-- In a table without null pointers a call is all or nothing exactly when
it fits, and leaves such a table then. -/
theorem HmapHolds.step {m : IoHmap} {fields : List (Text × Text)} (h : HmapHolds m fields)
    (o : ArgOrder) {c : HmapCall} (hv : c.Valid) :
    ∃ r m', c.step o m = .ok (r, m') ∧ (AllOrNothing m r m' ↔ c.Fits m) ∧
      (c.Fits m → ∃ fields', HmapHolds m' fields' ∧
        fields' = if r = none then fields ++ [c.field] else fields) := by
  have hlen := h.length
  have hsame : AllOrNothing m (some .EEXIST) m := .inr ⟨by simp, rfl, rfl⟩
  cases hname : fieldValue fields c.name with
  | some v =>
    have hbinds : m.binds c.name := (h.binds_iff _).mpr (by simp [hname])
    refine ⟨_, m, HmapCall.step_present o hv h hname, ?_, fun _ => ⟨fields, h, rfl⟩⟩
    exact iff_of_true hsame (.inl hbinds)
  | none =>
    have hno : ¬ m.binds c.name := fun hb => (h.binds_iff _).mp hb hname
    rcases Nat.lt_or_ge fields.length m.map.keysLimit with hroom | hfull
    · rcases Nat.lt_or_ge m.heap.free c.bytes with hshort | hfit
      · -- a null pointer is stored
        obtain ⟨k, v, heap, hstep, hnull⟩ := HmapCall.step_short o hv h hname hroom hshort
        have hnofit : ¬ c.Fits m := by
          rintro (hb | ⟨-, hb⟩ | ⟨hb, -, -⟩)
          · exact hno hb
          · omega
          · omega
        refine ⟨_, _, hstep, ?_, fun hb => absurd hb hnofit⟩
        exact iff_of_false (not_allOrNothing_of_null hnull) hnofit
      · obtain ⟨m', hstep, hholds, -, -⟩ := HmapCall.step_fits o hv h hname hroom hfit
        refine ⟨none, m', hstep, ?_, fun _ => ⟨_, hholds, rfl⟩⟩
        refine iff_of_true (.inl ⟨rfl, c.field.1, c.field.2, ?_⟩) (.inr (.inl ⟨by omega, hfit⟩))
        rw [hholds.bindings, h.bindings]
        simp
    · by_cases hone : c.field.1.length + 1 ≤ m.heap.free ∨ c.field.2.length + 1 ≤ m.heap.free
      · -- a copy is made for an entry there is no room for
        obtain ⟨k, v, heap, hdup, hfree⟩ := strdupBoth_spends o hv.keyEnd hv.valueEnd hone
        have hnofit : ¬ c.Fits m := by
          rintro (hb | ⟨hb, -⟩ | ⟨-, hk, hv⟩)
          · exact hno hb
          · omega
          · omega
        refine ⟨_, _, HmapCall.step_full o hv h hname hfull hdup, ?_, fun hb => absurd hb hnofit⟩
        refine iff_of_false ?_ hnofit
        rintro (⟨hr, -⟩ | ⟨-, -, hsame⟩)
        · simp at hr
        · exact Nat.ne_of_lt hfree hsame
      · have hneither : m.heap.free < c.field.1.length + 1 ∧ m.heap.free < c.field.2.length + 1 :=
          by omega
        have hdup := strdupBoth_neither o hv.keyEnd hv.valueEnd hneither.1 hneither.2
        refine ⟨_, _, HmapCall.step_full o hv h hname hfull hdup, ?_, fun _ => ⟨fields, h, rfl⟩⟩
        exact iff_of_true (.inr ⟨by simp, rfl, rfl⟩) (.inr (.inr ⟨by omega, hneither⟩))

/-! ## §3 Every run -/

/-- A run of adds; the compiler may choose anew for each call which
argument is evaluated first. -/
def hmapRun : IoHmap → List (ArgOrder × HmapCall) → Except TextFault IoHmap
  | m, [] => pure m
  | m, (o, c) :: calls => do
    let (_, m) ← c.step o m
    hmapRun m calls

/-- Every call of the run fits when it is made. -/
def FitsAlong : IoHmap → List (ArgOrder × HmapCall) → Prop
  | _, [] => True
  | m, (o, c) :: calls => c.Fits m ∧ ∀ r m', c.step o m = .ok (r, m') → FitsAlong m' calls

theorem HmapHolds.run (calls : List (ArgOrder × HmapCall)) {m : IoHmap}
    {fields : List (Text × Text)} (h : HmapHolds m fields) (hvalid : ∀ c ∈ calls, c.2.Valid)
    (hfits : FitsAlong m calls) :
    ∃ m' fields', hmapRun m calls = .ok m' ∧ HmapHolds m' fields' := by
  induction calls generalizing m fields with
  | nil => exact ⟨m, fields, rfl, h⟩
  | cons c calls ih =>
    obtain ⟨r, m₁, hstep, -, hkeep⟩ := h.step c.1 (hvalid c List.mem_cons_self)
    obtain ⟨fields₁, h₁, -⟩ := hkeep hfits.1
    have hvalid₁ : ∀ c ∈ calls, c.2.Valid := fun d hd => hvalid d (List.mem_cons_of_mem c hd)
    obtain ⟨m₂, fields₂, hrun, h₂⟩ := ih h₁ hvalid₁ (hfits.2 r m₁ hstep)
    refine ⟨m₂, fields₂, ?_, h₂⟩
    simpa only [hmapRun, hstep, bind, Except.bind] using hrun

/-- After any run of calls that fit, nothing stored is NULL, and a further
call is all or nothing if and only if it fits. -/
theorem ioHmap_allOrNothing_iff (keysLimit heapSize : Nat) (calls : List (ArgOrder × HmapCall))
    (hvalid : ∀ c ∈ calls, c.2.Valid) (hfits : FitsAlong (ioHmapCreate keysLimit heapSize) calls) :
    ∃ m, hmapRun (ioHmapCreate keysLimit heapSize) calls = .ok m ∧
      (∀ b ∈ m.bindings, b.1.isSome ∧ b.2.isSome) ∧
      ∀ (o : ArgOrder) (c : HmapCall), c.Valid →
        ∃ r m', c.step o m = .ok (r, m') ∧ (AllOrNothing m r m' ↔ c.Fits m) ∧
        (c.Fits m → r = none → m'.bindings = m.bindings ++ [(some c.field.1, some c.field.2)]) := by
  obtain ⟨m, fields, hrun, h⟩ := (hmapHolds_create keysLimit heapSize).run calls hvalid hfits
  refine ⟨m, hrun, ?_, ?_⟩
  · rw [h.bindings]
    intro b hb
    obtain ⟨f, -, rfl⟩ := List.mem_map.mp hb
    exact ⟨rfl, rfl⟩
  · intro o c hv
    obtain ⟨r, m', hstep, hiff, hkeep⟩ := h.step o hv
    refine ⟨r, m', hstep, hiff, ?_⟩
    rintro hfit rfl
    obtain ⟨fields', h', rfl⟩ := hkeep hfit
    rw [h'.bindings, h.bindings]
    simp

theorem ioHmap_allOrNothing_iff_once :
    (HmapCall.add (lit ['a']) (lit ['b'])).Valid ∧
    FitsAlong (ioHmapCreate 1 4) [(.leftFirst, .add (lit ['a']) (lit ['b']))] ∧
    ∃ m, hmapRun (ioHmapCreate 1 4) [(.leftFirst, .add (lit ['a']) (lit ['b']))] = .ok m ∧
      ∀ b ∈ m.bindings, b.1.isSome ∧ b.2.isSome := by
  have hvalid : (HmapCall.add (lit ['a']) (lit ['b'])).Valid :=
    ⟨by decide, by decide, by decide, by decide⟩
  have hfits : FitsAlong (ioHmapCreate 1 4) [(.leftFirst, .add (lit ['a']) (lit ['b']))] :=
    ⟨.inr (.inl ⟨by decide, by decide⟩), fun _ _ _ => trivial⟩
  obtain ⟨m, hrun, hnull, -⟩ := ioHmap_allOrNothing_iff 1 4
    [(.leftFirst, .add (lit ['a']) (lit ['b']))] (by simpa using hvalid) hfits
  exact ⟨hvalid, hfits, m, hrun, hnull⟩

/-- Three bytes for `a` and `b`: 0 is returned and one string is NULL. No
slot and four bytes: -1 is returned and the four bytes are gone. -/
theorem ioHmapAdd_halfDone :
    (HmapCall.add (lit ['a']) (lit ['b'])).Valid ∧
    (∃ m', ioHmapAdd .leftFirst (ioHmapCreate 1 3) (lit ['a']) (lit ['b']) = .ok (none, m') ∧
      m'.bindings = [(some (lit ['a']), none)] ∧ ¬ AllOrNothing (ioHmapCreate 1 3) none m') ∧
    (∃ m', ioHmapAdd .rightFirst (ioHmapCreate 1 3) (lit ['a']) (lit ['b']) = .ok (none, m') ∧
      m'.bindings = [(none, some (lit ['b']))] ∧ ¬ AllOrNothing (ioHmapCreate 1 3) none m') ∧
    ∃ m', ioHmapAdd .leftFirst (ioHmapCreate 0 4) (lit ['a']) (lit ['b']) =
        .ok (some .ENOMEM, m') ∧
      m'.heap.free = 0 ∧ ¬ AllOrNothing (ioHmapCreate 0 4) (some .ENOMEM) m' := by
  refine ⟨⟨by decide, by decide, by decide, by decide⟩, ?_, ?_, ?_⟩
  · exact ⟨⟨⟨lit ['a'] ++ [0], 3⟩, ⟨[⟨some 0, none⟩], 1⟩⟩, by rfl, by decide,
      not_allOrNothing_of_null (.inr rfl)⟩
  · exact ⟨⟨⟨lit ['b'] ++ [0], 3⟩, ⟨[⟨none, some 0⟩], 1⟩⟩, by rfl, by decide,
      not_allOrNothing_of_null (.inl rfl)⟩
  · refine ⟨⟨⟨lit ['a'] ++ [0] ++ (lit ['b'] ++ [0]), 4⟩, ⟨[], 0⟩⟩, by rfl, by decide, ?_⟩
    rintro (⟨hr, -⟩ | ⟨-, -, hfree⟩)
    · simp at hr
    · exact absurd hfree (by decide)

end Nanio.Map
