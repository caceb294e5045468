/-
Nanio.Map.HmapRanges — what a lookup gives back after `io_hmap_addl` has
been passed two ranges of a text.

`io_oheap_strdup` takes a length of 0 for a request to measure the string,
so an empty range copies everything up to the end of the text
(`copied_eq_take_iff`). All other ranges come back as they were passed, in
every table that a run of adds can leave, also one that has null pointers
in it. What a lookup has returned stays: every pointer in the table is to a
text with its NUL in the written part of the heap (`IoHmap.Sound`), and the
heap only grows.
-/
import Nanio.Map.HmapAtomic

namespace Nanio.Map

open Nanio.Lib

/-! ## §1 What a call can do -/

/-- Every pointer in the table that is not null is to a text in the heap. -/
def IoHmap.Sound (m : IoHmap) : Prop :=
  ∀ kv ∈ m.map.kvs, ∀ p, kv.key = some p ∨ kv.value = some p → ∃ t, m.heap.stores (some p) t

/-- A call refuses a present name and changes nothing, or it makes both
copies and passes them on. -/
theorem HmapCall.step_cases {o : ArgOrder} {c : HmapCall} (hv : c.Valid) {m m' : IoHmap}
    {r : Option Errno} (e : c.step o m = .ok (r, m')) :
    (r = some .EEXIST ∧ m' = m) ∨
    ∃ k v heap, ioHmapGetc m c.name = .ok none ∧
      strdupBoth o m.heap c.key c.keyLen c.value c.valueLen = .ok (k, v, heap) ∧
      r = (ioMapNewKv m.map k v).1 ∧ m' = ⟨heap, (ioMapNewKv m.map k v).2⟩ := by
  cases hget : ioHmapGetc m c.name with
  | error f => simp [HmapCall.step_error o hv hget] at e
  | ok found =>
    cases found with
    | some p =>
      rw [HmapCall.step_found o hv hget] at e
      cases e
      exact .inl ⟨rfl, rfl⟩
    | none =>
      obtain ⟨⟨k, v, heap⟩, hdup⟩ := strdupBoth_ok o m.heap hv.keyEnd hv.valueEnd
      rw [HmapCall.step_notFound o hv hget hdup] at e
      cases e
      exact .inr ⟨k, v, heap, rfl, hdup, rfl, rfl⟩

/-- A copy that is made is there. -/
theorem ioOheapStrdup_stores {h h' : IoOheap} {v : Text} {length k : Nat} (h0 : 0 ∉ v)
    (hl : length ≤ v.length) (e : ioOheapStrdup h v length = .ok (some k, h')) :
    h'.stores (some k) (copied v length) := by
  rw [ioOheapStrdup_eq h hl] at e
  split at e
  · cases e
  · cases e
    exact h.stores_push (zero_notMem_copied h0 length)

theorem strdupLeft_stores {h h' : IoOheap} {key value : Text} {keyLen valueLen : Nat}
    {k v : Option Nat} (h0k : 0 ∉ key) (h0v : 0 ∉ value) (hk : keyLen ≤ key.length)
    (hv : valueLen ≤ value.length)
    (e : strdupBoth .leftFirst h key keyLen value valueLen = .ok (k, v, h')) :
    (∀ p, k = some p → h'.stores (some p) (copied key keyLen)) ∧
      ∀ p, v = some p → h'.stores (some p) (copied value valueLen) := by
  obtain ⟨h₁, e₁, e₂⟩ := strdupBoth_left.mp e
  constructor
  · rintro p rfl
    exact (ioOheapStrdup_stores h0k hk e₁).mono (ioOheapStrdup_grows e₂)
  · rintro p rfl
    exact ioOheapStrdup_stores h0v hv e₂

theorem HmapCall.Valid.stores {o : ArgOrder} {c : HmapCall} (hv : c.Valid) {h h' : IoOheap}
    {k v : Option Nat}
    (e : strdupBoth o h c.key c.keyLen c.value c.valueLen = .ok (k, v, h')) :
    (∀ p, k = some p → h'.stores (some p) c.field.1) ∧
      ∀ p, v = some p → h'.stores (some p) c.field.2 := by
  cases o with
  | leftFirst => exact strdupLeft_stores hv.keyText hv.valueText hv.keyEnd hv.valueEnd e
  | rightFirst =>
    exact (strdupLeft_stores hv.valueText hv.keyText hv.valueEnd hv.keyEnd
      (strdupBoth_right.mp e)).symm

/-! ## §2 What every run keeps -/

theorem IoHmap.Sound.grow {m : IoHmap} (h : m.Sound) {heap : IoOheap} (hg : m.heap.Grows heap) :
    IoHmap.Sound ⟨heap, m.map⟩ := by
  intro kv hkv p hp
  obtain ⟨t, ht⟩ := h kv hkv p hp
  exact ⟨t, ht.mono hg⟩

theorem IoHmap.Sound.step {o : ArgOrder} {c : HmapCall} (hv : c.Valid) {m m' : IoHmap}
    (h : m.Sound) {r : Option Errno} (e : c.step o m = .ok (r, m')) :
    m'.Sound ∧ m.heap.Grows m'.heap := by
  obtain ⟨-, rfl⟩ | ⟨k, v, heap, -, hdup, -, rfl⟩ := HmapCall.step_cases hv e
  · exact ⟨h, .refl _⟩
  · have hg := strdupBoth_grows hdup
    obtain ⟨hk, hval⟩ := hv.stores hdup
    refine ⟨?_, hg⟩
    unfold ioMapNewKv
    split
    · exact h.grow hg
    · intro kv hkv p hp
      rcases List.mem_append.mp hkv with hold | hnew
      · exact h.grow hg kv hold p hp
      · obtain rfl := List.mem_singleton.mp hnew
        rcases hp with hp | hp
        · exact ⟨_, hk p hp⟩
        · exact ⟨_, hval p hp⟩

theorem sound_create (keysLimit heapSize : Nat) : (ioHmapCreate keysLimit heapSize).Sound := by
  simp [IoHmap.Sound, ioHmapCreate, ioMapCreate]

theorem IoHmap.Sound.run (calls : List (ArgOrder × HmapCall)) {m m' : IoHmap} (h : m.Sound)
    (hvalid : ∀ c ∈ calls, c.2.Valid) (e : hmapRun m calls = .ok m') :
    m'.Sound ∧ m.heap.Grows m'.heap := by
  induction calls generalizing m with
  | nil =>
    cases e
    exact ⟨h, .refl _⟩
  | cons c calls ih =>
    cases hstep : c.2.step c.1 m with
    | error f => simp [hmapRun, hstep, bind, Except.bind] at e
    | ok s =>
      obtain ⟨r, m₁⟩ := s
      simp only [hmapRun, hstep, bind, Except.bind] at e
      obtain ⟨h₁, hg₁⟩ := h.step (hvalid c List.mem_cons_self) hstep
      obtain ⟨h₂, hg₂⟩ := ih h₁ (fun d hd => hvalid d (List.mem_cons_of_mem c hd)) e
      exact ⟨h₂, hg₁.trans hg₂⟩

/-! ## §3 Lookups -/

/-- What a lookup returns is the value of an entry. -/
theorem mem_of_getcLoop {P : Type} {rd : P → Text} {name : Text} {kvs : List (IoKv P)} {p : P}
    (h : getcLoop rd name kvs = .ok (some p)) : ∃ kv ∈ kvs, kv.value = some p := by
  induction kvs with
  | nil => simp [getcLoop] at h
  | cons kv rest ih =>
    cases hk : kv.key with
    | none => simp [getcLoop, hk] at h
    | some k =>
      simp only [getcLoop, hk] at h
      split at h
      · exact ⟨kv, List.mem_cons_self, Except.ok.inj h⟩
      · obtain ⟨kv', hmem, hval⟩ := ih h
        exact ⟨kv', List.mem_cons_of_mem kv hmem, hval⟩

/-- A text in the heap is the same in one that has grown. -/
theorem IoOheap.stores.text_grow {h h' : IoOheap} {p : Nat} {t : Text} (hs : h.stores (some p) t)
    (hg : h.Grows h') : h'.text p = h.text p := by
  rw [hs.text, (hs.mono hg).text]

theorem IoHmap.Sound.getcLoop_grow {m : IoHmap} (h : m.Sound) {heap : IoOheap}
    (hg : m.heap.Grows heap) (name : Text) :
    getcLoop heap.text name m.map.kvs = getcLoop m.heap.text name m.map.kvs := by
  unfold IoHmap.Sound at h
  generalize m.map.kvs = kvs at h
  induction kvs with
  | nil => rfl
  | cons kv rest ih =>
    have hrest := ih fun kv' hkv => h kv' (List.mem_cons_of_mem kv hkv)
    cases hk : kv.key with
    | none => simp [getcLoop, hk]
    | some k =>
      obtain ⟨t, ht⟩ := h kv List.mem_cons_self k (.inl hk)
      simp only [getcLoop, hk, ht.text_grow hg, hrest]

/-- Behind a search that found nothing: an entry more is come to when no
key before it is this name. One that is has no value. -/
theorem getcLoop_snoc {P : Type} {rd : P → Text} {name : Text} {kvs : List (IoKv P)}
    (h : getcLoop rd name kvs = .ok none) (kv : IoKv P) :
    ((∃ e ∈ kvs, ∃ k, e.key = some k ∧ strcaseEq name (rd k) = true) ∧
      getcLoop rd name (kvs ++ [kv]) = .ok none) ∨
    (¬ (∃ e ∈ kvs, ∃ k, e.key = some k ∧ strcaseEq name (rd k) = true) ∧
      getcLoop rd name (kvs ++ [kv]) = getcLoop rd name [kv]) := by
  induction kvs with
  | nil => simp
  | cons e rest ih =>
    cases hk : e.key with
    | none => simp [getcLoop, hk] at h
    | some k =>
      simp only [getcLoop, hk] at h
      by_cases hmatch : strcaseEq name (rd k) = true
      · rw [if_pos hmatch] at h
        exact .inl ⟨⟨e, List.mem_cons_self, k, hk, hmatch⟩, by simpa [getcLoop, hk, hmatch] using h⟩
      · rw [if_neg hmatch] at h
        simpa [getcLoop, hk, hmatch] using ih h

theorem IoHmap.binds_iff (m : IoHmap) (name : Text) :
    m.binds name ↔
      ∃ e ∈ m.map.kvs, ∃ k, e.key = some k ∧ strcaseEq name (m.heap.text k) = true := by
  simp [IoHmap.binds, IoHmap.bindings]

theorem IoHmap.Sound.binds_grow {m : IoHmap} (h : m.Sound) {heap : IoOheap}
    (hg : m.heap.Grows heap) (name : Text) :
    IoHmap.binds ⟨heap, m.map⟩ name ↔ m.binds name := by
  have hsame : ∀ e ∈ m.map.kvs, ∀ k, e.key = some k → heap.text k = m.heap.text k := by
    intro e he k hk
    obtain ⟨t, ht⟩ := h e he k (.inl hk)
    exact ht.text_grow hg
  rw [IoHmap.binds_iff, IoHmap.binds_iff]
  constructor
  · rintro ⟨e, he, k, hk, hname⟩
    rw [hsame e he k hk] at hname
    exact ⟨e, he, k, hk, hname⟩
  · rintro ⟨e, he, k, hk, hname⟩
    rw [← hsame e he k hk] at hname
    exact ⟨e, he, k, hk, hname⟩

/-! ## §4 The range that was added -/

/-- An empty range is copied as such only at the end of the text. -/
theorem copied_eq_take_iff (v : Text) (length : Nat) :
    copied v length = v.take length ↔ length ≠ 0 ∨ v = [] := by
  unfold copied
  by_cases h0 : length = 0
  · simp [h0]
  · simp [h0]

/-- The lookup of the name that was added: the copies that were stored, if
they are of that name, and no entry before has it. -/
theorem IoHmap.Sound.getc_added {m m' : IoHmap} (h : m.Sound) {o : ArgOrder} {c : HmapCall}
    (hv : c.Valid) (e : c.step o m = .ok (none, m')) (t : Text) :
    (∃ p, ioHmapGetc m' c.name = .ok (some p) ∧ m'.heap.text p = t) ↔
      ¬ m.binds c.name ∧ ∃ k v heap,
        strdupBoth o m.heap c.key c.keyLen c.value c.valueLen = .ok (some k, some v, heap) ∧
        strcaseEq c.name c.field.1 = true ∧ c.field.2 = t := by
  obtain ⟨hr, -⟩ | ⟨k, v, heap, hget, hdup, hr, rfl⟩ := HmapCall.step_cases hv e
  · cases hr
  have hg := strdupBoth_grows hdup
  obtain ⟨hk, hval⟩ := hv.stores hdup
  have hnew : (ioMapNewKv m.map k v).2.kvs = m.map.kvs ++ [⟨k, v⟩] := by
    unfold ioMapNewKv at hr ⊢
    split at hr
    · cases hr
    · rename_i hroom
      rw [if_neg hroom]
  have hsearch : getcLoop heap.text c.name m.map.kvs = .ok none :=
    (h.getcLoop_grow hg c.name).trans hget
  rw [← h.binds_grow hg, IoHmap.binds_iff, hdup]
  simp only [ioHmapGetc, ioMapGetc, hnew]
  obtain ⟨hb, hadded⟩ | ⟨hb, hadded⟩ := getcLoop_snoc hsearch ⟨k, v⟩
  · -- the search stops at an entry that has the name and a null value
    simp [hadded, hb]
  · rw [hadded]
    simp only [hb, not_false_eq_true, true_and]
    cases k with
    | none => simp [getcLoop]
    | some k =>
      have hkt := (hk k rfl).text
      simp only [getcLoop, hkt]
      cases v with
      | none => simp
      | some v =>
        have hvt := (hval v rfl).text
        by_cases hname : strcaseEq c.name c.field.1 = true
        · simp [hname, hvt]
        · simp [hname]

/-- Two ranges that fit are found again exactly when no entry had the name
and neither range is empty before the end of its text. -/
theorem IoHmap.Sound.getcs_added_iff {m m' : IoHmap} (h : m.Sound) {o : ArgOrder}
    {key value : Text} {keyLen valueLen : Nat}
    (hv : (HmapCall.addl key keyLen value valueLen).Valid)
    (hbytes : keyLen + valueLen + 2 ≤ m.heap.free)
    (e : ioHmapAddl o m key keyLen value valueLen = .ok (none, m')) :
    (∃ p, ioHmapGetcs m' key keyLen = .ok (some p) ∧ m'.heap.text p = value.take valueLen) ↔
      ¬ m.binds (key.take keyLen) ∧ (keyLen ≠ 0 ∨ key = []) ∧ (valueLen ≠ 0 ∨ value = []) := by
  have hkend : keyLen ≤ key.length := hv.keyEnd
  have hvend : valueLen ≤ value.length := hv.valueEnd
  have hname : strcaseEq (key.take keyLen) (copied key keyLen) = true ↔ keyLen ≠ 0 ∨ key = [] := by
    rw [← copied_eq_take_iff]
    constructor
    · intro hc
      have hl := strcaseEq_length hc
      have htake : (copied key keyLen).length = (key.take keyLen).length := hl.symm
      by_cases h0 : keyLen = 0
      · simpa [copied, h0] using htake
      · simp [copied, h0]
    · intro hc
      simp [hc, strcaseEq]
  rw [HmapHolds.getcs hkend]
  refine (h.getc_added hv e _).trans (and_congr_right fun _ => ?_)
  rw [← hname, ← copied_eq_take_iff]
  constructor
  · rintro ⟨k, v, heap, -, hk, hval⟩
    exact ⟨hk, hval⟩
  · rintro ⟨hk, hval⟩
    have hkl := (copied_eq_take_iff key keyLen).mpr (hname.mp hk)
    have hfit : (copied key keyLen).length + (copied value valueLen).length + 2 ≤ m.heap.free := by
      rw [hkl, hval, List.length_take, List.length_take]
      omega
    obtain ⟨k, v, heap, hdup, -, ⟨k', rfl, -⟩, ⟨v', rfl, -⟩, -⟩ :=
      strdupBoth_fits o hkend hvend hv.keyText hv.valueText hfit
    exact ⟨k', v', heap, hdup, hk, hval⟩

/-! ## §5 Every run -/

/-- A string a lookup has returned is the same after any run. -/
theorem IoHmap.Sound.returned_stays {m m' : IoHmap} (h : m.Sound)
    {calls : List (ArgOrder × HmapCall)} (hvalid : ∀ c ∈ calls, c.2.Valid)
    (e : hmapRun m calls = .ok m') {name : Text} {p : Nat}
    (hp : ioHmapGetc m name = .ok (some p)) : m'.heap.text p = m.heap.text p := by
  obtain ⟨kv, hkv, hval⟩ := mem_of_getcLoop hp
  obtain ⟨t, ht⟩ := h kv hkv p (.inr hval)
  exact ht.text_grow (h.run calls hvalid e).2

/-- After any run of adds, and with heap for both ranges of a text: what
`io_hmap_addl` has stored is found again exactly when no entry had the name
and an empty range is at the end of the text; and what any lookup has
returned is never written to. -/
theorem ioHmapAddl_ranges_iff (keysLimit heapSize : Nat) (earlier : List (ArgOrder × HmapCall))
    (hearlier : ∀ c ∈ earlier, c.2.Valid) (m : IoHmap)
    (hrun : hmapRun (ioHmapCreate keysLimit heapSize) earlier = .ok m) :
    (∀ (o : ArgOrder) (text : Text) (keyAt keyLen valueAt valueLen : Nat) (m' : IoHmap),
      0 ∉ text → keyAt + keyLen ≤ text.length → valueAt + valueLen ≤ text.length →
      keyLen + valueLen + 2 ≤ m.heap.free →
      ioHmapAddl o m (text.drop keyAt) keyLen (text.drop valueAt) valueLen = .ok (none, m') →
      ((∃ p, ioHmapGetcs m' (text.drop keyAt) keyLen = .ok (some p) ∧
          m'.heap.text p = (text.drop valueAt).take valueLen) ↔
        ¬ m.binds ((text.drop keyAt).take keyLen) ∧
        (keyLen = 0 → keyAt = text.length) ∧ (valueLen = 0 → valueAt = text.length))) ∧
    ∀ (name : Text) (size p : Nat), size ≤ name.length → ioHmapGetcs m name size = .ok (some p) →
      ∀ (later : List (ArgOrder × HmapCall)) (m' : IoHmap), (∀ c ∈ later, c.2.Valid) →
        hmapRun m later = .ok m' → m'.heap.text p = m.heap.text p := by
  have hsound := ((sound_create keysLimit heapSize).run earlier hearlier hrun).1
  constructor
  · intro o text keyAt keyLen valueAt valueLen m' h0 hkey hvalue hbytes e
    have hv : (HmapCall.addl (text.drop keyAt) keyLen (text.drop valueAt) valueLen).Valid :=
      { keyText := fun hm => h0 (List.mem_of_mem_drop hm)
        valueText := fun hm => h0 (List.mem_of_mem_drop hm)
        keyEnd := by simp only [HmapCall.keyLen, HmapCall.key, List.length_drop]; omega
        valueEnd := by simp only [HmapCall.valueLen, HmapCall.value, List.length_drop]; omega }
    have hend : ∀ {start len : Nat}, start + len ≤ text.length →
        ((len ≠ 0 ∨ text.drop start = []) ↔ (len = 0 → start = text.length)) := by
      intro start len hle
      rw [List.drop_eq_nil_iff]
      omega
    rw [hsound.getcs_added_iff hv hbytes e, hend hkey, hend hvalue]
  · intro name size p hsize hp later m' hlater hrun'
    rw [HmapHolds.getcs hsize] at hp
    exact hsound.returned_stays hlater hrun' hp

theorem ioHmapAddl_ranges_iff_kv :
    (∀ c ∈ [(ArgOrder.leftFirst, HmapCall.add (lit ['a']) (lit ['b']))], c.2.Valid) ∧
    ∃ m m', hmapRun (ioHmapCreate 2 8) [(.leftFirst, .add (lit ['a']) (lit ['b']))] = .ok m ∧
      ioHmapAddl .leftFirst m (lit ['k', '=', 'v']) 1 (lit ['v']) 1 = .ok (none, m') ∧
      (∃ p, ioHmapGetcs m' (lit ['k', '=', 'v']) 1 = .ok (some p) ∧ m'.heap.text p = lit ['v']) ∧
      ioHmapGetcs m (lit ['a']) 1 = .ok (some 2) ∧ m'.heap.text 2 = m.heap.text 2 := by
  have hvalid : ∀ c ∈ [(ArgOrder.leftFirst, HmapCall.add (lit ['a']) (lit ['b']))], c.2.Valid := by
    intro c hc
    obtain rfl := List.mem_singleton.mp hc
    exact ⟨by decide, by decide, by decide, by decide⟩
  have hlater : ∀ c ∈ [(ArgOrder.leftFirst,
      HmapCall.addl (lit ['k', '=', 'v']) 1 (lit ['v']) 1)], c.2.Valid := by
    intro c hc
    obtain rfl := List.mem_singleton.mp hc
    exact ⟨by decide, by decide, by decide, by decide⟩
  let m : IoHmap := ⟨⟨lit ['a'] ++ [0] ++ (lit ['b'] ++ [0]), 8⟩, ⟨[⟨some 0, some 2⟩], 2⟩⟩
  let m' : IoHmap :=
    ⟨⟨lit ['a'] ++ [0] ++ (lit ['b'] ++ [0]) ++ (lit ['k'] ++ [0]) ++ (lit ['v'] ++ [0]), 8⟩,
      ⟨[⟨some 0, some 2⟩, ⟨some 4, some 6⟩], 2⟩⟩
  obtain ⟨hadded, hstays⟩ := ioHmapAddl_ranges_iff 2 8 _ hvalid m rfl
  refine ⟨hvalid, m, m', rfl, rfl, ?_, rfl, ?_⟩
  · refine (hadded .leftFirst (lit ['k', '=', 'v']) 0 1 2 1 m' (by decide) (by decide) (by decide)
      (by decide) rfl).mpr ⟨?_, by decide, by decide⟩
    rw [IoHmap.binds_iff]
    decide
  · exact hstays (lit ['a']) 1 2 (by decide) rfl
      [(.leftFirst, .addl (lit ['k', '=', 'v']) 1 (lit ['v']) 1)] m' hlater rfl

/-- The empty value of `k` in `k=&x` is found as `&x`; the empty name in
`=v` is not found. -/
theorem ioHmapAddl_emptyRange :
    hmapRun (ioHmapCreate 1 10) [] = .ok (ioHmapCreate 1 10) ∧
    (∃ m', ioHmapAddl .leftFirst (ioHmapCreate 1 10) (lit ['k', '=', '&', 'x']) 1
        (lit ['&', 'x']) 0 = .ok (none, m') ∧
      ioHmapGetcs (ioHmapCreate 1 10) (lit ['k', '=', '&', 'x']) 1 = .ok none ∧
      ioHmapGetcs m' (lit ['k', '=', '&', 'x']) 1 = .ok (some 2) ∧
      m'.heap.text 2 = lit ['&', 'x'] ∧ m'.heap.text 2 ≠ (lit ['&', 'x']).take 0) ∧
    ∃ m', ioHmapAddl .leftFirst (ioHmapCreate 1 10) (lit ['=', 'v']) 0 (lit ['v']) 1 =
        .ok (none, m') ∧
      ioHmapGetcs (ioHmapCreate 1 10) (lit ['=', 'v']) 0 = .ok none ∧
      ioHmapGetcs m' (lit ['=', 'v']) 0 = .ok none := by
  refine ⟨rfl, ⟨⟨⟨lit ['k'] ++ [0] ++ (lit ['&', 'x'] ++ [0]), 10⟩, ⟨[⟨some 0, some 2⟩], 1⟩⟩,
    rfl, rfl, rfl, by decide, by decide⟩, ?_⟩
  exact ⟨⟨⟨lit ['=', 'v'] ++ [0] ++ (lit ['v'] ++ [0]), 10⟩, ⟨[⟨some 0, some 3⟩], 1⟩⟩,
    rfl, rfl, rfl⟩

end Nanio.Map
