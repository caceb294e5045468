/-
Nanio.Map.IoMap — `io_heap.c` and `io_map.c`: the bump allocator, the
case-insensitive key table, and the table that owns copies of its strings.

The key table is generic in the pointers it stores (`P`, read by `rd`):
`io_map_t` stores the caller's pointers, `io_hmap_t` offsets into its own
heap. A stored pointer may be null, because `io_oheap_strdup` answers a
full heap with a null pointer that `io_hmap_addl` stores unchecked.
-/
import Nanio.Base
import Nanio.Lib.CString

namespace Nanio.Map

open Nanio.Lib

/-! ## io_heap.c -/

/-- `io_oheap_t`: the bytes below `data`, and `end` as the size of the
area. Nothing above `data` has been written yet. -/
structure IoOheap where
  mem : List UInt8
  size : Nat
  deriving DecidableEq, Repr

def ioOheapInit (size : Nat) : IoOheap := ⟨[], size⟩

/-- `io_oheap_strdup`; the pointer it returns is an offset into the area.
A length of 0 asks for the whole text up to its NUL. -/
def ioOheapStrdup (h : IoOheap) (v : Text) (length : Nat) :
    Except TextFault (Option Nat × IoOheap) :=
  let length := if length = 0 then v.length else length
  if h.size - h.mem.length < length + 1 then .ok (none, h)
  else if length ≤ v.length + 1 then
    .ok (some h.mem.length, { h with mem := h.mem ++ (v ++ [0]).take length ++ [0] })
  else .error .outOfText

/-- The text at an offset of the area. -/
def IoOheap.text (h : IoOheap) (offset : Nat) : Text :=
  (h.mem.drop offset).takeWhile (· != 0)

/-! ## io_map.c -/

/-- `tolower` in the C locale. -/
def tolower (c : UInt8) : UInt8 :=
  if ascii 'A' ≤ c ∧ c ≤ ascii 'Z' then c + 32 else c

/-- `!strcasecmp(a, b)`. -/
def strcaseEq (a b : Text) : Bool := a.map tolower == b.map tolower

/-- `!strncasecmp(a, b, n)`. -/
def strncaseEq (a b : Text) (n : Nat) : Bool := strcaseEq (a.take n) (b.take n)

structure IoKv (P : Type) where
  key : Option P
  value : Option P
  deriving DecidableEq, Repr

/-- `io_map_t`: the entries below `last`, and `kend - kvs`. -/
structure IoMap (P : Type) where
  kvs : List (IoKv P)
  keysLimit : Nat
  deriving DecidableEq, Repr

variable {P : Type}

def ioMapCreate (keysLimit : Nat) : IoMap P := ⟨[], keysLimit⟩

/-- The loop of `io_map_getc`. -/
def getcLoop (rd : P → Text) (key : Text) : List (IoKv P) → Except TextFault (Option P)
  | [] => .ok none
  | kv :: rest =>
    match kv.key with
    | none => .error .nullPointer
    | some k => if strcaseEq key (rd k) then .ok kv.value else getcLoop rd key rest

def ioMapGetc (rd : P → Text) (m : IoMap P) (key : Text) : Except TextFault (Option P) :=
  getcLoop rd key m.kvs

/-- The loop of `io_map_getcs`. -/
def getcsLoop (rd : P → Text) (key : Text) (size : Nat) :
    List (IoKv P) → Except TextFault (Option P)
  | [] => .ok none
  | kv :: rest =>
    match kv.key with
    | none => .error .nullPointer
    | some k => do
      if strncaseEq key (rd k) size then
        if (← deref (rd k) size) == 0 then pure kv.value else getcsLoop rd key size rest
      else getcsLoop rd key size rest

def ioMapGetcs (rd : P → Text) (m : IoMap P) (key : Text) (size : Nat) :
    Except TextFault (Option P) :=
  getcsLoop rd key size m.kvs

/-- `io_map_new_kv`: 0, or -1 with errno. -/
def ioMapNewKv (m : IoMap P) (key value : Option P) : Option Errno × IoMap P :=
  if m.keysLimit ≤ m.kvs.length then (some .ENOMEM, m)
  else (none, { m with kvs := m.kvs ++ [⟨key, value⟩] })

/-- `io_map_add`: 0, or -1 with errno. -/
def ioMapAdd (rd : P → Text) (m : IoMap P) (key : P) (value : Option P) :
    Except TextFault (Option Errno × IoMap P) := do
  match ← ioMapGetc rd m (rd key) with
  | some _ => pure (some .EEXIST, m)
  | none => pure (ioMapNewKv m (some key) value)

/-! ## io_hmap_t -/

structure IoHmap where
  heap : IoOheap
  map : IoMap Nat
  deriving DecidableEq, Repr

def ioHmapCreate (keysLimit heapSize : Nat) : IoHmap where
  heap := ioOheapInit heapSize
  map := ioMapCreate keysLimit

def ioHmapGetcs (m : IoHmap) (key : Text) (size : Nat) : Except TextFault (Option Nat) :=
  ioMapGetcs m.heap.text m.map key size

def ioHmapGetc (m : IoHmap) (key : Text) : Except TextFault (Option Nat) :=
  ioMapGetc m.heap.text m.map key

/-- C leaves it to the compiler which argument of a call is evaluated first. -/
inductive ArgOrder where
  | leftFirst
  | rightFirst
  deriving DecidableEq, Repr

/-- The two `io_oheap_strdup` calls in the arguments of `io_map_new_kv`. -/
def strdupBoth (o : ArgOrder) (h : IoOheap) (key : Text) (keyLen : Nat) (value : Text)
    (valueLen : Nat) : Except TextFault (Option Nat × Option Nat × IoOheap) :=
  match o with
  | .leftFirst => do
    let (k, h) ← ioOheapStrdup h key keyLen
    let (v, h) ← ioOheapStrdup h value valueLen
    pure (k, v, h)
  | .rightFirst => do
    let (v, h) ← ioOheapStrdup h value valueLen
    let (k, h) ← ioOheapStrdup h key keyLen
    pure (k, v, h)

/-- `io_hmap_add`: 0, or -1 with errno. -/
def ioHmapAdd (o : ArgOrder) (m : IoHmap) (key value : Text) :
    Except TextFault (Option Errno × IoHmap) := do
  match ← ioHmapGetc m key with
  | some _ => pure (some .EEXIST, m)
  | none => do
    let (k, v, heap) ← strdupBoth o m.heap key 0 value 0
    let (r, map) := ioMapNewKv m.map k v
    pure (r, ⟨heap, map⟩)

/-- `io_hmap_addl`: 0, or -1 with errno. -/
def ioHmapAddl (o : ArgOrder) (m : IoHmap) (key : Text) (keyLen : Nat) (value : Text)
    (valueLen : Nat) : Except TextFault (Option Errno × IoHmap) := do
  match ← ioHmapGetcs m key keyLen with
  | some _ => pure (some .EEXIST, m)
  | none => do
    let (k, v, heap) ← strdupBoth o m.heap key keyLen value valueLen
    let (r, map) := ioMapNewKv m.map k v
    pure (r, ⟨heap, map⟩)

end Nanio.Map
