/-
Nanio.Map.MapRefinement — `io_map_t` is a case-insensitive insert-once map.

After any run of `io_map_add` calls the table holds exactly the pairs of
the accepted calls, in order, with keys that differ in more than the case
of their letters (`OnceTable`). A search of such a table is a search of
that list, so the table answers every call as the abstract map
`Lib.OnceMap` of capacity `keys_limit` does, whose names are the keys with
their letters lowered (`Refines`).
-/
import Nanio.Map.IoMapTheorems
import Nanio.Lib.OnceMap

namespace Nanio.Map

open Nanio.Lib

variable {P : Type} {rd : P → Text}

/-! ## §1 What a table holds -/

/-- The name a key stands for. -/
def foldCase (key : Text) : Text := key.map tolower

theorem strcaseEq_iff (a b : Text) : strcaseEq a b = true ↔ foldCase a = foldCase b := by
  simp [strcaseEq, foldCase]

/-- The table holds these pairs, and no two of their keys are equal
ignoring case. -/
structure OnceTable (rd : P → Text) (added : List (P × P)) (m : IoMap P) : Prop where
  stored : m.kvs = added.map fun c => ⟨some c.1, some c.2⟩
  room : added.length ≤ m.keysLimit
  distinct : added.Pairwise fun a b => strcaseEq (rd a.1) (rd b.1) = false

/-- The pair whose key is this one, ignoring case. -/
def lookupCase (rd : P → Text) (added : List (P × P)) (key : Text) : Option P :=
  (added.find? fun c => strcaseEq key (rd c.1)).map Prod.snd

theorem OnceTable.getc {added : List (P × P)} {m : IoMap P} (h : OnceTable rd added m)
    (key : Text) : ioMapGetc rd m key = .ok (lookupCase rd added key) := by
  rw [ioMapGetc, h.stored]
  clear h
  induction added with
  | nil => rfl
  | cons c added ih =>
    simp only [List.map_cons, getcLoop, lookupCase, List.find?_cons, ih]
    cases strcaseEq key (rd c.1) <;> rfl

theorem lookupCase_eq_none {added : List (P × P)} {key : Text} :
    lookupCase rd added key = none ↔ ∀ c ∈ added, strcaseEq key (rd c.1) = false := by
  simp [lookupCase]

theorem strcaseEq_symm {a b : Text} (h : strcaseEq a b = true) : strcaseEq b a = true := by
  rw [strcaseEq_iff] at h ⊢
  exact h.symm

/-- A name is found exactly with the value of a pair that has it. -/
theorem lookupCase_eq_some {added : List (P × P)}
    (h : added.Pairwise fun a b => strcaseEq (rd a.1) (rd b.1) = false) {key : Text} {v : P} :
    lookupCase rd added key = some v ↔ ∃ c ∈ added, strcaseEq key (rd c.1) = true ∧ c.2 = v := by
  induction added with
  | nil => simp [lookupCase]
  | cons a added ih =>
    rw [List.pairwise_cons] at h
    simp only [lookupCase, List.find?_cons, List.mem_cons, exists_eq_or_imp]
    cases hc : strcaseEq key (rd a.1) with
    | false => simpa [lookupCase] using ih h.2
    | true =>
      have hother : ∀ c ∈ added, ¬ strcaseEq key (rd c.1) = true := by
        intro c hm hk
        have hac : strcaseEq (rd a.1) (rd c.1) = true := by
          rw [strcaseEq_iff] at hc hk ⊢
          exact hc.symm.trans hk
        simp [h.1 c hm] at hac
      simp only [Option.map_some, Option.some.injEq, true_and]
      constructor
      · intro hv
        exact Or.inl hv
      · rintro (hv | ⟨c, hm, hk, -⟩)
        · exact hv
        · exact absurd hk (hother c hm)

/-! ## §2 One add -/

/-- The errno of a refusal. -/
def refusalErrno : Refusal → Errno
  | .present => .EEXIST
  | .full => .ENOMEM

theorem OnceTable.empty (keysLimit : Nat) :
    OnceTable rd [] (ioMapCreate keysLimit : IoMap P) where
  stored := rfl
  room := Nat.zero_le _
  distinct := List.Pairwise.nil

theorem OnceTable.add_present {added : List (P × P)} {m : IoMap P} (h : OnceTable rd added m)
    {key w : P} (hk : lookupCase rd added (rd key) = some w) (value : P) :
    ioMapAdd rd m key (some value) = .ok (some .EEXIST, m) := by
  rw [ioMapAdd, h.getc, hk]
  rfl

theorem OnceTable.add_full {added : List (P × P)} {m : IoMap P} (h : OnceTable rd added m)
    {key : P} (hk : lookupCase rd added (rd key) = none) (hfull : m.keysLimit ≤ added.length)
    (value : P) : ioMapAdd rd m key (some value) = .ok (some .ENOMEM, m) := by
  have hlen : m.keysLimit ≤ m.kvs.length := by simpa [h.stored] using hfull
  rw [ioMapAdd, h.getc, hk]
  simp [bind, Except.bind, pure, Except.pure, ioMapNewKv, hlen]

theorem OnceTable.add_new {added : List (P × P)} {m : IoMap P} (h : OnceTable rd added m)
    {key : P} (hk : lookupCase rd added (rd key) = none) (hroom : added.length < m.keysLimit)
    (value : P) :
    ∃ m', ioMapAdd rd m key (some value) = .ok (none, m') ∧ m'.keysLimit = m.keysLimit ∧
      OnceTable rd (added ++ [(key, value)]) m' := by
  have hlen : ¬ m.keysLimit ≤ m.kvs.length := by simpa [h.stored] using hroom
  refine ⟨{ m with kvs := m.kvs ++ [⟨some key, some value⟩] }, ?_, rfl, ?_⟩
  · rw [ioMapAdd, h.getc, hk]
    simp [bind, Except.bind, pure, Except.pure, ioMapNewKv, hlen]
  · refine ⟨by simp [h.stored], by simp; omega, ?_⟩
    rw [List.pairwise_append]
    refine ⟨h.distinct, List.pairwise_singleton _ _, ?_⟩
    intro a ha b hb
    obtain rfl := List.mem_singleton.mp hb
    have hno := lookupCase_eq_none.mp hk a ha
    rw [Bool.eq_false_iff] at hno ⊢
    exact fun hc => hno (strcaseEq_symm hc)

/-- 0 for an absent key while there is room, EEXIST for a present one,
ENOMEM for an absent one in a full table, and a failure changes nothing. -/
theorem OnceTable.add_spec {added : List (P × P)} {m : IoMap P} (h : OnceTable rd added m)
    (key value : P) :
    ∃ r m', ioMapAdd rd m key (some value) = .ok (r, m') ∧
      (r = none ↔ (∀ c ∈ added, strcaseEq (rd key) (rd c.1) = false) ∧
        m.kvs.length < m.keysLimit) ∧
      (r = some .EEXIST ↔ ∃ c ∈ added, strcaseEq (rd key) (rd c.1) = true) ∧
      (r = some .ENOMEM ↔ (∀ c ∈ added, strcaseEq (rd key) (rd c.1) = false) ∧
        m.kvs.length = m.keysLimit) ∧
      (r ≠ none → m' = m) := by
  have hlen : m.kvs.length = added.length := by rw [h.stored, List.length_map]
  cases hk : lookupCase rd added (rd key) with
  | some w =>
    obtain ⟨c, hc, hkey, -⟩ := (lookupCase_eq_some h.distinct).mp hk
    have hno : ¬ ∀ c ∈ added, strcaseEq (rd key) (rd c.1) = false :=
      fun hall => by simp [hall c hc] at hkey
    have hyes : ∃ c ∈ added, strcaseEq (rd key) (rd c.1) = true := ⟨c, hc, hkey⟩
    refine ⟨_, m, h.add_present hk value, ?_⟩
    simp only [hno, hyes, false_and]
    simp
  | none =>
    have hall := lookupCase_eq_none.mp hk
    have hno : ¬ ∃ c ∈ added, strcaseEq (rd key) (rd c.1) = true :=
      fun ⟨c, hc, hkey⟩ => by simp [hall c hc] at hkey
    have hle := h.room
    rcases Nat.lt_or_ge m.kvs.length m.keysLimit with hroom | hfull
    · have hne : m.kvs.length ≠ m.keysLimit := Nat.ne_of_lt hroom
      obtain ⟨m', hadd, -, -⟩ := h.add_new hk (by omega) value
      refine ⟨none, m', hadd, ?_⟩
      simp only [hno, hroom, hne, and_true, and_false]
      simpa using fun a b => hall (a, b)
    · have heq : m.kvs.length = m.keysLimit := by omega
      refine ⟨_, m, h.add_full hk (by omega) value, ?_⟩
      simp only [hno, heq, Nat.lt_irrefl, and_true, and_false]
      simpa using fun a b => hall (a, b)

/-! ## §3 The abstract map -/

/-- The table answers as the abstract map: the same value for every key,
and as many names as entries. -/
structure Refines (rd : P → Text) (m : IoMap P) {cap : Nat} (a : OnceMap Text P cap) : Prop where
  limit : m.keysLimit = cap
  lookup : ∀ key, ioMapGetc rd m key = .ok (a.get (foldCase key))
  count : m.kvs.length = a.names.card

theorem refines_empty (keysLimit : Nat) :
    Refines rd (ioMapCreate keysLimit) (OnceMap.empty : OnceMap Text P keysLimit) where
  limit := rfl
  lookup _ := rfl
  count := rfl

theorem lookupCase_snoc {added : List (P × P)} {c : P × P}
    (hc : lookupCase rd added (rd c.1) = none) (key : Text) :
    lookupCase rd (added ++ [c]) key =
      if foldCase key = foldCase (rd c.1) then some c.2 else lookupCase rd added key := by
  by_cases hk : foldCase key = foldCase (rd c.1)
  · have hnone : added.find? (fun d => strcaseEq key (rd d.1)) = none := by
      have hall := lookupCase_eq_none.mp hc
      simp only [List.find?_eq_none]
      intro d hd hkd
      rw [strcaseEq_iff, hk, ← strcaseEq_iff, hall d hd] at hkd
      simp at hkd
    have heq := (strcaseEq_iff _ _).mpr hk
    simp [lookupCase, List.find?_append, hnone, heq, hk]
  · have hne : strcaseEq key (rd c.1) = false := by
      rw [Bool.eq_false_iff]
      exact fun h => hk ((strcaseEq_iff _ _).mp h)
    simp [lookupCase, List.find?_append, hne, hk]

/-- One `io_map_add` and one add of the abstract map: the same answer, and
the two still agree. -/
theorem OnceTable.add_refines {added : List (P × P)} {m : IoMap P} (h : OnceTable rd added m)
    {cap : Nat} {a : OnceMap Text P cap} (hr : Refines rd m a) (key value : P) :
    ∃ m', ioMapAdd rd m key (some value) =
        .ok ((a.add (foldCase (rd key)) value).1.map refusalErrno, m') ∧
      Refines rd m' (a.add (foldCase (rd key)) value).2 ∧
      OnceTable rd (if (a.add (foldCase (rd key)) value).1 = none then added ++ [(key, value)]
        else added) m' := by
  have hget : lookupCase rd added (rd key) = a.get (foldCase (rd key)) := by
    have he := h.getc (rd key)
    rw [hr.lookup] at he
    exact (Except.ok.inj he).symm
  have hcount : added.length = a.names.card := by
    have hc := hr.count
    rwa [h.stored, List.length_map] at hc
  cases hk : a.get (foldCase (rd key)) with
  | some w =>
    rw [hk] at hget
    rw [OnceMap.add_present hk]
    exact ⟨m, h.add_present hget value, hr, h⟩
  | none =>
    rw [hk] at hget
    rcases Nat.lt_or_ge a.names.card cap with hroom | hfull
    · have hroom' : added.length < m.keysLimit := by rw [hr.limit, hcount]; exact hroom
      obtain ⟨m', hadd, hlim, htab⟩ := h.add_new hget hroom' value
      rw [OnceMap.add_new hk hroom]
      refine ⟨m', hadd, ⟨hlim.trans hr.limit, ?_, ?_⟩, htab⟩
      · intro s
        rw [htab.getc, lookupCase_snoc (c := (key, value)) hget]
        by_cases hs : foldCase s = foldCase (rd key)
        · rw [if_pos hs, hs, OnceMap.put_get_self]
        · have he := h.getc s
          rw [hr.lookup] at he
          rw [if_neg hs, OnceMap.put_get_of_ne a hs, Except.ok.inj he]
      · rw [OnceMap.card_put hk hroom, ← hcount, htab.stored]
        simp
    · rw [OnceMap.add_full hk hfull]
      exact ⟨m, h.add_full hget (by rw [hr.limit, hcount]; exact hfull) value, hr, h⟩

/-! ## §4 A run of adds -/

/-- A run of `io_map_add` calls: what each answers, and the table in the end. -/
def addAll (rd : P → Text) :
    IoMap P → List (P × P) → Except TextFault (List (Option Errno) × IoMap P)
  | m, [] => pure ([], m)
  | m, (key, value) :: calls => do
    let (r, m) ← ioMapAdd rd m key (some value)
    let (rs, m) ← addAll rd m calls
    pure (r :: rs, m)

/-- The calls that returned 0. -/
def accepted : List (P × P) → List (Option Errno) → List (P × P)
  | c :: calls, r :: rs => if r = none then c :: accepted calls rs else accepted calls rs
  | _, _ => []

theorem OnceTable.addAll_refines {cap : Nat} (calls : List (P × P)) {added : List (P × P)}
    {m : IoMap P} (h : OnceTable rd added m) {a : OnceMap Text P cap} (hr : Refines rd m a) :
    let run := a.addAll (calls.map fun c => (foldCase (rd c.1), c.2))
    let rs := run.1.map (Option.map refusalErrno)
    ∃ m', addAll rd m calls = .ok (rs, m') ∧ Refines rd m' run.2 ∧
      OnceTable rd (added ++ accepted calls rs) m' := by
  induction calls generalizing added m a with
  | nil => exact ⟨m, rfl, hr, by simpa [OnceMap.addAll, accepted] using h⟩
  | cons c calls ih =>
    obtain ⟨m₁, hadd, hr₁, h₁⟩ := h.add_refines hr c.1 c.2
    obtain ⟨m₂, hrun, hr₂, h₂⟩ := ih h₁ hr₁
    refine ⟨m₂, ?_, hr₂, ?_⟩
    · simp only [addAll, hadd, bind, Except.bind, hrun, pure, Except.pure]
      rfl
    · simp only [List.map_cons, OnceMap.addAll, accepted, Option.map_eq_none_iff]
      split at h₂ <;> simp_all

/-- `io_map_t` refines the insert-once map of capacity `keys_limit` whose
names are keys without case. -/
theorem ioMap_refines_onceMap (rd : P → Text) (h0 : ∀ p, 0 ∉ rd p) (keysLimit : Nat)
    (calls : List (P × P)) :
    let run := (OnceMap.empty : OnceMap Text P keysLimit).addAll
      (calls.map fun c => (foldCase (rd c.1), c.2))
    ∃ rs m, addAll rd (ioMapCreate keysLimit) calls = .ok (rs, m) ∧
      rs = run.1.map (Option.map refusalErrno) ∧ Refines rd m run.2 ∧
      -- the entries are those of the accepted calls, under different keys
      OnceTable rd (accepted calls rs) m ∧
      -- what a further add does
      (∀ key value, ∃ r m', ioMapAdd rd m key (some value) = .ok (r, m') ∧
        (r = none ↔ (∀ c ∈ accepted calls rs, strcaseEq (rd key) (rd c.1) = false) ∧
          m.kvs.length < keysLimit) ∧
        (r = some .EEXIST ↔ ∃ c ∈ accepted calls rs, strcaseEq (rd key) (rd c.1) = true) ∧
        (r = some .ENOMEM ↔ (∀ c ∈ accepted calls rs, strcaseEq (rd key) (rd c.1) = false) ∧
          m.kvs.length = keysLimit) ∧
        (r ≠ none → m' = m)) ∧
      -- what a lookup finds
      (∀ key, ∃ found, ioMapGetc rd m key = .ok found ∧
        (∀ v, found = some v ↔ ∃ c ∈ accepted calls rs, strcaseEq key (rd c.1) = true ∧ c.2 = v) ∧
        (found = none ↔ ∀ c ∈ accepted calls rs, strcaseEq key (rd c.1) = false)) ∧
      ∀ s n, n ≤ s.length → ioMapGetcs rd m s n = ioMapGetc rd m (s.take n) := by
  intro run
  have hempty : OnceTable rd [] (ioMapCreate keysLimit) := OnceTable.empty keysLimit
  obtain ⟨m, hrun, hr, htab⟩ := hempty.addAll_refines calls (refines_empty keysLimit)
  rw [List.nil_append] at htab
  have hlim : m.keysLimit = keysLimit := hr.limit
  refine ⟨_, m, hrun, rfl, hr, htab, ?_, ?_, ?_⟩
  · intro key value
    obtain ⟨r, m', hadd, hspec⟩ := htab.add_spec key value
    rw [hlim] at hspec
    exact ⟨r, m', hadd, hspec⟩
  · intro key
    exact ⟨_, htab.getc key, fun v => lookupCase_eq_some htab.distinct, lookupCase_eq_none⟩
  · intro s n hn
    exact getcsLoop_eq_getcLoop h0 hn m.kvs

/-- The two spellings of one letter. -/
def spelling (upper : Bool) : Text := if upper then lit ['A'] else lit ['a']

theorem ioMap_refines_onceMap_twoSpellings :
    (∀ b, 0 ∉ spelling b) ∧
    ∃ rs m, addAll spelling (ioMapCreate 2) [(true, false), (false, true)] = .ok (rs, m) ∧
      rs = [none, some .EEXIST] ∧ ioMapGetcs spelling m (lit ['a', 'b']) 1 = .ok (some false) := by
  have h0 : ∀ b, 0 ∉ spelling b := by decide
  obtain ⟨rs, m, hrun, -, -, -, -, -, hgetcs⟩ :=
    ioMap_refines_onceMap spelling h0 2 [(true, false), (false, true)]
  have hres : (rs, m) = ([none, some .EEXIST], ⟨[⟨some true, some false⟩], 2⟩) := by
    have hcalls : addAll spelling (ioMapCreate 2) [(true, false), (false, true)] =
        .ok ([none, some .EEXIST], ⟨[⟨some true, some false⟩], 2⟩) := by rfl
    exact Except.ok.inj (hrun.symm.trans hcalls)
  obtain ⟨rfl, rfl⟩ := Prod.mk.inj hres
  refine ⟨h0, _, _, hrun, rfl, ?_⟩
  rw [hgetcs _ 1 (by decide)]
  rfl

end Nanio.Map
