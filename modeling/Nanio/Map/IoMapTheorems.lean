/-
Nanio.Map.IoMapTheorems — when `io_hmap_addl` can be called safely.

A lookup reads the key of every entry it passes. The heap answers a string
that does not fit with a null pointer, `io_hmap_addl` stores it as a key,
and the next lookup that gets that far reads through it
(`ioHmapAddl_nullKey`). Nothing else can go wrong (`ioHmapAddl_ok`).
-/
import Nanio.Map.IoMap

namespace Nanio.Map

open Nanio.Lib

/-! ## §1 The lookup -/

/-- The lookup of `name` gets to an entry without a key. -/
def meetsNullKey {P : Type} (rd : P → Text) (name : Text) : List (IoKv P) → Bool
  | [] => false
  | kv :: rest =>
    match kv.key with
    | none => true
    | some k => !strcaseEq name (rd k) && meetsNullKey rd name rest

theorem strcaseEq_length {a b : Text} (h : strcaseEq a b = true) : a.length = b.length := by
  have he : a.map tolower = b.map tolower := by simpa [strcaseEq] using h
  simpa using congrArg List.length he

/-- The two tests of the loop together compare the whole key with the
first `size` characters at `key`. -/
theorem getcsLoop_cons {P : Type} {rd : P → Text} {key : Text} {size : Nat}
    (hsize : size ≤ key.length) {kv : IoKv P} {k : P} (hk : kv.key = some k) (h0 : 0 ∉ rd k)
    (rest : List (IoKv P)) :
    getcsLoop rd key size (kv :: rest) =
      if strcaseEq (key.take size) (rd k) then .ok kv.value else getcsLoop rd key size rest := by
  rw [getcsLoop, hk]
  by_cases hn : strncaseEq key (rd k) size = true
  · have hlen : size ≤ (rd k).length := by
      have hl := strcaseEq_length hn
      rw [List.length_take, List.length_take] at hl
      omega
    simp only [if_pos hn]
    rcases Nat.lt_or_ge size (rd k).length with hlt | hge
    · -- the key goes on after `size` characters
      have hd : deref (rd k) size = .ok (rd k)[size] := by simp [deref, hlt]
      have hne : (rd k)[size] ≠ 0 := fun e => h0 (e ▸ List.getElem_mem hlt)
      have hno : strcaseEq (key.take size) (rd k) = false := by
        rw [Bool.eq_false_iff]
        intro hc
        have hl := strcaseEq_length hc
        rw [List.length_take] at hl
        omega
      rw [hd, hno]
      simp [bind, Except.bind, hne]
    · have hl : (rd k).length = size := by omega
      have hd : deref (rd k) size = .ok 0 := by simp [deref, hl]
      have hyes : strcaseEq (key.take size) (rd k) = true := by
        rw [strncaseEq, ← hl, List.take_length] at hn
        rwa [← hl]
      rw [hd, if_pos hyes]
      rfl
  · have hno : strcaseEq (key.take size) (rd k) = false := by
      rw [Bool.eq_false_iff]
      intro hc
      have hl := strcaseEq_length hc
      rw [List.length_take, Nat.min_eq_left hsize] at hl
      apply hn
      rwa [strncaseEq, hl, List.take_length, ← hl]
    simp only [if_neg hn, hno]
    rfl

theorem getcsLoop_nullKey {P : Type} {rd : P → Text} (h0 : ∀ k, 0 ∉ rd k) {key : Text} {size : Nat}
    (hsize : size ≤ key.length) {kvs : List (IoKv P)}
    (h : meetsNullKey rd (key.take size) kvs = true) :
    getcsLoop rd key size kvs = .error .nullPointer := by
  induction kvs with
  | nil => simp [meetsNullKey] at h
  | cons kv rest ih =>
    cases hk : kv.key with
    | none => simp [getcsLoop, hk]
    | some k =>
      simp only [meetsNullKey, hk, Bool.and_eq_true, Bool.not_eq_true'] at h
      rw [getcsLoop_cons hsize hk (h0 k), h.1, ih h.2]
      rfl

theorem getcsLoop_ok {P : Type} {rd : P → Text} (h0 : ∀ k, 0 ∉ rd k) {key : Text} {size : Nat}
    (hsize : size ≤ key.length) {kvs : List (IoKv P)}
    (h : meetsNullKey rd (key.take size) kvs = false) :
    ∃ v, getcsLoop rd key size kvs = .ok v := by
  induction kvs with
  | nil => exact ⟨none, rfl⟩
  | cons kv rest ih =>
    cases hk : kv.key with
    | none => simp [meetsNullKey, hk] at h
    | some k =>
      rw [getcsLoop_cons hsize hk (h0 k)]
      simp only [meetsNullKey, hk, Bool.and_eq_false_iff, Bool.not_eq_false'] at h
      cases hc : strcaseEq (key.take size) (rd k) with
      | true => exact ⟨kv.value, rfl⟩
      | false => exact ih (h.resolve_left (by simp [hc]))

/-- The bounded search of `n` characters is the search of the text they
make. -/
theorem getcsLoop_eq_getcLoop {P : Type} {rd : P → Text} (h0 : ∀ k, 0 ∉ rd k) {key : Text}
    {size : Nat} (hsize : size ≤ key.length) (kvs : List (IoKv P)) :
    getcsLoop rd key size kvs = getcLoop rd (key.take size) kvs := by
  induction kvs with
  | nil => rfl
  | cons kv rest ih =>
    cases hk : kv.key with
    | none => simp [getcsLoop, getcLoop, hk]
    | some k => rw [getcsLoop_cons hsize hk (h0 k), ih, getcLoop, hk]

/-! ## §2 Adding -/

theorem IoOheap.zero_notMem_text (h : IoOheap) (k : Nat) : 0 ∉ h.text k := by
  intro hm
  have hall : (h.text k).all (· != 0) = true := List.all_takeWhile
  have hne := List.all_eq_true.mp hall 0 hm
  simp at hne

theorem ioOheapStrdup_ok (h : IoOheap) {v : Text} {length : Nat} (hl : length ≤ v.length) :
    ∃ r, ioOheapStrdup h v length = .ok r := by
  unfold ioOheapStrdup
  by_cases h0 : length = 0
  · rw [if_pos h0]
    by_cases hroom : h.size - h.mem.length < v.length + 1
    · exact ⟨_, if_pos hroom⟩
    · exact ⟨_, by rw [if_neg hroom, if_pos (Nat.le_succ _)]⟩
  · rw [if_neg h0]
    by_cases hroom : h.size - h.mem.length < length + 1
    · exact ⟨_, if_pos hroom⟩
    · exact ⟨_, by rw [if_neg hroom, if_pos (Nat.le_succ_of_le hl)]⟩

theorem strdupBoth_ok (o : ArgOrder) (h : IoOheap) {key value : Text} {keyLen valueLen : Nat}
    (hk : keyLen ≤ key.length) (hv : valueLen ≤ value.length) :
    ∃ r, strdupBoth o h key keyLen value valueLen = .ok r := by
  cases o with
  | leftFirst =>
    obtain ⟨⟨k, h₁⟩, e₁⟩ := ioOheapStrdup_ok h hk
    obtain ⟨⟨v, h₂⟩, e₂⟩ := ioOheapStrdup_ok h₁ hv
    exact ⟨(k, v, h₂), by simp [strdupBoth, e₁, e₂, bind, Except.bind, pure, Except.pure]⟩
  | rightFirst =>
    obtain ⟨⟨v, h₁⟩, e₁⟩ := ioOheapStrdup_ok h hv
    obtain ⟨⟨k, h₂⟩, e₂⟩ := ioOheapStrdup_ok h₁ hk
    exact ⟨(k, v, h₂), by simp [strdupBoth, e₁, e₂, bind, Except.bind, pure, Except.pure]⟩

/-- The table cannot be searched for this name. -/
def IoHmap.blocked (m : IoHmap) (name : Text) : Bool := meetsNullKey m.heap.text name m.map.kvs

theorem ioHmapAddl_nullKey (o : ArgOrder) {m : IoHmap} {key : Text} {keyLen : Nat}
    (hk : keyLen ≤ key.length) (h : m.blocked (key.take keyLen) = true) (value : Text)
    (valueLen : Nat) : ioHmapAddl o m key keyLen value valueLen = .error .nullPointer := by
  have hget : ioHmapGetcs m key keyLen = .error .nullPointer :=
    getcsLoop_nullKey m.heap.zero_notMem_text hk h
  rw [ioHmapAddl, hget]
  rfl

theorem ioHmapAddl_ok (o : ArgOrder) {m : IoHmap} {key : Text} {keyLen : Nat}
    (hk : keyLen ≤ key.length) (h : m.blocked (key.take keyLen) = false) {value : Text}
    {valueLen : Nat} (hv : valueLen ≤ value.length) :
    ∃ r, ioHmapAddl o m key keyLen value valueLen = .ok r := by
  obtain ⟨v, hget⟩ : ∃ v, ioHmapGetcs m key keyLen = .ok v :=
    getcsLoop_ok m.heap.zero_notMem_text hk h
  rw [ioHmapAddl, hget]
  cases v with
  | some v => exact ⟨_, rfl⟩
  | none =>
    obtain ⟨⟨k, v, heap⟩, e⟩ := strdupBoth_ok o m.heap hk hv
    exact ⟨_, by simp only [bind, Except.bind, e]; rfl⟩

end Nanio.Map
