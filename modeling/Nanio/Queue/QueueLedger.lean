/-
Nanio.Queue.QueueLedger — who frees what the queue has allocated or taken
over.

A `Ledger` counts, for every object, how often the queue has got hold of it
(a segment or a copy that it made, a dynamic buffer that was put) and how
often it has freed it: an object is freed by an operation that finds it
there and leaves it gone. The data is always in balance: what was taken and
not yet freed is what the blocks still in the queue own (`Booked`), and
`io_queue_free` frees that. The segments are not: the ones still chained are
reset by `io_queue_free` and never freed, and from the first put on there is
one.
-/
import Nanio.Queue.QueueFifo

namespace Nanio.Queue

open Nanio.Lib

/-! ## §1 The ledger -/

inductive Obj where
  | seg (s : SegId)
  | data (p : DataPtr)
  deriving DecidableEq, Repr

def QueueMem.live (m : QueueMem) : Obj → Bool
  | .seg s => (m.seg s).isSome
  | .data p => (m.buf p).isSome

/-- The object was allocated between `m` and `m'`. -/
def allocated (m m' : QueueMem) : Obj → Bool
  | .seg s => m.freshSeg ≤ s && s < m'.freshSeg
  | .data (.copy n) => m.freshCopy ≤ n && n < m'.freshCopy
  | .data (.own _) => false

/-- The object was there in `m` and is gone in `m'`. -/
def gone (m m' : QueueMem) (o : Obj) : Bool := m.live o && !m'.live o

theorem gone_self (m : QueueMem) (o : Obj) : gone m m o = false := by
  cases h : m.live o <;> simp [gone, h]

/-- The data of an `IOQB_DYNAMIC` block is the queue's from the put on. -/
def QueueOp.takes : QueueOp → Obj → Bool
  | .put _ data _ .DYNAMIC, .data (.own n) => n == data
  | _, _ => false

/-- How often the queue got hold of an object, and how often it freed it. -/
structure Ledger where
  taken : Obj → Nat
  freed : Obj → Nat

def Ledger.empty : Ledger := ⟨fun _ => 0, fun _ => 0⟩

/-- A call of the queue that led from `m` to `m'`. -/
def Ledger.note (r : Ledger) (takes : Obj → Bool) (m m' : QueueMem) : Ledger where
  taken o := r.taken o + (allocated m m' o).toNat + (takes o).toNat
  freed o := r.freed o + (gone m m' o).toNat

/-- What the program does to its own buffers is not the queue's. -/
def Ledger.op (r : Ledger) (op : QueueOp) (m m' : QueueMem) : Ledger :=
  match op with
  | .own _ _ => r
  | op => r.note op.takes m m'

def QueueMem.runLedger (m : QueueMem) (r : Ledger) :
    List QueueOp → Except QueueStop (QueueMem × Ledger)
  | [] => .ok (m, r)
  | op :: ops => do
    let (_, m') ← m.step op
    m'.runLedger (r.op op m m') ops

/-- Some operations, and `io_queue_free` at the end. -/
def runAndFree (m : QueueMem) (ops : List QueueOp) : Except QueueStop (QueueMem × Ledger) := do
  let (m, r) ← m.runLedger .empty ops
  let m' ← ioQueueFree m
  pure (m', r.note (fun _ => false) m m')

/-! ## §2 Freeing blocks -/

/-- The block is to be freed, and this is its data. -/
def IoQueueBlock.owns (b : IoQueueBlock) (p : DataPtr) : Bool := b.type_ ≠ .STATIC && b.data == p

/-- How many of the blocks own `p`. -/
def owed (blocks : List IoQueueBlock) (p : DataPtr) : Nat := blocks.countP (·.owns p)

@[simp] theorem owed_nil (p : DataPtr) : owed [] p = 0 := rfl

@[simp] theorem owed_cons (b : IoQueueBlock) (blocks : List IoQueueBlock) (p : DataPtr) :
    owed (b :: blocks) p = owed blocks p + (b.owns p).toNat := by
  rw [owed, List.countP_cons, owed]
  cases b.owns p <;> rfl

@[simp] theorem owed_append (l₁ l₂ : List IoQueueBlock) (p : DataPtr) :
    owed (l₁ ++ l₂) p = owed l₁ p + owed l₂ p := List.countP_append

/-- The buffers when some blocks have been freed. -/
def freedBufs (buf : DataPtr → Option (List UInt8)) :
    List IoQueueBlock → Option (DataPtr → Option (List UInt8))
  | [] => some buf
  | b :: blocks => (freedBuf buf b).bind (freedBufs · blocks)

/-- A block that owns `p` frees it; any other leaves it alone. -/
theorem freedBuf_owns {buf buf' : DataPtr → Option (List UInt8)} {b : IoQueueBlock}
    (h : freedBuf buf b = some buf') (p : DataPtr) :
    if b.owns p then (buf p).isSome ∧ buf' p = none else buf' p = buf p := by
  unfold freedBuf at h
  by_cases ht : b.type_ = .STATIC
  · rw [if_pos ht] at h
    cases h
    simp [IoQueueBlock.owns, ht]
  · rw [if_neg ht] at h
    by_cases hlive : (buf b.data).isSome
    · rw [if_pos hlive] at h
      cases h
      by_cases hp : b.data = p
      · subst hp
        simp [IoQueueBlock.owns, ht, hlive]
      · simp [IoQueueBlock.owns, ht, hp, Function.update_of_ne (Ne.symm hp)]
    · rw [if_neg hlive] at h
      cases h

/-- Freeing blocks frees what they own, each once: a second block that owns
the same data would find it gone. -/
theorem freedBufs_owed {blocks : List IoQueueBlock} {buf buf' : DataPtr → Option (List UInt8)}
    (h : freedBufs buf blocks = some buf') (p : DataPtr) :
    (owed blocks p = 0 ∧ buf' p = buf p) ∨
    (owed blocks p = 1 ∧ (buf p).isSome ∧ buf' p = none) := by
  induction blocks generalizing buf with
  | nil =>
    cases h
    exact .inl ⟨rfl, rfl⟩
  | cons b blocks ih =>
    obtain ⟨buf₁, hb, hrest⟩ := Option.bind_eq_some_iff.mp h
    have hown := freedBuf_owns hb p
    rw [owed_cons]
    by_cases ho : b.owns p = true
    · rw [if_pos ho] at hown
      rcases ih hrest with ⟨hzero, hsame⟩ | ⟨-, hlive, -⟩
      · exact .inr ⟨by rw [hzero, ho]; rfl, hown.1, hsame.trans hown.2⟩
      · rw [hown.2] at hlive
        cases hlive
    · rw [if_neg ho] at hown
      simpa [ho, hown] using ih hrest

theorem freedBufs_gone {blocks : List IoQueueBlock} {m m' : QueueMem}
    (h : freedBufs m.buf blocks = some m'.buf) (p : DataPtr) :
    (gone m m' (.data p)).toNat = owed blocks p := by
  rcases freedBufs_owed h p with ⟨hzero, hsame⟩ | ⟨hone, hlive, hdead⟩
  · simp [gone, QueueMem.live, hzero, hsame]
  · simp [gone, QueueMem.live, hone, hlive, hdead]

theorem ioQueueBlocksFree_eq (m : QueueMem) (blocks : List IoQueueBlock) :
    ioQueueBlocksFree m blocks =
      match freedBufs m.buf blocks with
      | some buf => .ok { m with buf := buf }
      | none => .error .badBuffer := by
  induction blocks generalizing m with
  | nil => rfl
  | cons b blocks ih =>
    rw [ioQueueBlocksFree, ioQueueBlockFree_eq, freedBufs]
    cases freedBuf m.buf b with
    | none => rfl
    | some buf => exact ih { m with buf := buf }

/-! ## §3 The segments -/

/-- What a put does to the segments: it makes those of `made`, behind the
others. -/
structure Extends (m m' : QueueMem) (made : List SegId) : Prop where
  chain : ∀ ids, Chain m.next m.q.first ids → m.q.last = ids.getLast? →
    (∀ s ∈ ids, s < m.freshSeg) →
      Chain m'.next m'.q.first (ids ++ made) ∧ m'.q.last = (ids ++ made).getLast?
  made_iff : ∀ s, s ∈ made ↔ m.freshSeg ≤ s ∧ s < m'.freshSeg
  nodup : made.Nodup
  fresh_le : m.freshSeg ≤ m'.freshSeg
  live : ∀ s, (m.seg s).isSome → (m'.seg s).isSome

theorem getSeg_ok {m : QueueMem} {s : SegId} {g : IoQueueSeg} (h : m.getSeg s = .ok g) :
    m.seg s = some g := by
  unfold QueueMem.getSeg at h
  cases hs : m.seg s with
  | none => simp [hs] at h
  | some g' => simp_all

/-- Nothing made: the same links, the same segments there. -/
theorem extends_nil {m m' : QueueMem} (hq : m'.q = m.q) (hnext : m'.next = m.next)
    (hfresh : m'.freshSeg = m.freshSeg) (hlive : ∀ s, (m.seg s).isSome → (m'.seg s).isSome) :
    Extends m m' [] := by
  refine ⟨fun ids hc hl _ => ?_, fun s => ?_, List.nodup_nil, Nat.le_of_eq hfresh.symm, hlive⟩
  · rw [hq, hnext, List.append_nil]
    exact ⟨hc, hl⟩
  · rw [hfresh]
    exact iff_of_false List.not_mem_nil fun h => Nat.not_lt.mpr h.1 h.2

theorem Extends.then_ {m m₁ m' : QueueMem} {made : List SegId} (h : Extends m m₁ made)
    (hq : m'.q = m₁.q) (hnext : m'.next = m₁.next) (hfresh : m'.freshSeg = m₁.freshSeg)
    (hlive : ∀ s, (m₁.seg s).isSome → (m'.seg s).isSome) : Extends m m' made := by
  refine ⟨fun ids hc hl hlt => ?_, fun s => ?_, h.nodup, hfresh ▸ h.fresh_le,
    fun s hs => hlive s (h.live s hs)⟩
  · rw [hq, hnext]
    exact h.chain ids hc hl hlt
  · rw [hfresh]
    exact h.made_iff s

/-- A new segment, not yet linked, is in no chain. -/
theorem fresh_notMem {m : QueueMem} {ids : List SegId} (hlt : ∀ s ∈ ids, s < m.freshSeg) :
    m.freshSeg ∉ ids := fun hm => Nat.lt_irrefl _ (hlt _ hm)

theorem made_one_iff (m : QueueMem) (s : SegId) :
    s ∈ [m.freshSeg] ↔ m.freshSeg ≤ s ∧ s < m.freshSeg + 1 := by
  rw [List.mem_singleton]
  exact ⟨fun h => h ▸ ⟨Nat.le_refl _, Nat.lt_succ_self _⟩,
    fun h => Nat.le_antisymm (Nat.lt_succ_iff.mp h.2) h.1⟩

theorem ioQueueSegNew_extends {m m' : QueueMem} {s : SegId} (h : ioQueueSegNew m = .ok (s, m')) :
    Extends m m' [m.freshSeg] := by
  have hlive : ∀ x, (m.seg x).isSome →
      (Function.update m.seg m.freshSeg (some ⟨0, 0, noBlocks⟩) x).isSome := by
    intro x hx
    by_cases he : x = m.freshSeg
    · subst he
      simp
    · rwa [Function.update_of_ne he]
  unfold ioQueueSegNew at h
  cases hlast : m.q.last with
  | none =>
    simp only [hlast] at h
    cases h
    refine ⟨fun ids hc hl hlt => ?_, made_one_iff m, List.nodup_singleton _, Nat.le_succ _, hlive⟩
    obtain rfl : ids = [] := List.getLast?_eq_none_iff.mp (hl.symm.trans hlast)
    exact ⟨⟨rfl, Function.update_self ..⟩, rfl⟩
  | some l =>
    simp only [hlast] at h
    obtain ⟨g, hg, h⟩ := except_bind_eq_ok.mp h
    cases h
    refine ⟨fun ids hc hl hlt => ?_, made_one_iff m, List.nodup_singleton _, Nat.le_succ _, hlive⟩
    have hfresh := fresh_notMem hlt
    rcases List.eq_nil_or_concat ids with rfl | ⟨pre, x, rfl⟩
    · rw [hlast] at hl
      cases hl
    · rw [List.concat_eq_append] at hc hl hfresh ⊢
      obtain rfl : l = x := by simpa [hlast] using hl
      refine ⟨Chain.snoc ((chain_update _ _ _ _ _ hfresh).mpr hc) hfresh ?_, by simp⟩
      exact Function.update_self ..

theorem segWithRoom_extends {m m' : QueueMem} {s : SegId} (h : segWithRoom m = .ok (s, m')) :
    ∃ made, Extends m m' made := by
  have hsame : Extends m m [] := extends_nil rfl rfl rfl fun _ hs => hs
  unfold segWithRoom at h
  cases hlast : m.q.last with
  | none =>
    simp only [hlast] at h
    exact ⟨_, ioQueueSegNew_extends h⟩
  | some l =>
    simp only [hlast] at h
    obtain ⟨g, -, h⟩ := except_bind_eq_ok.mp h
    by_cases hfull : IO_QUEUE_PART_BLOCKS_LENGTH ≤ g.end_
    · rw [if_pos hfull] at h
      exact ⟨_, ioQueueSegNew_extends h⟩
    · rw [if_neg hfull] at h
      cases h
      exact ⟨[], hsame⟩

theorem setSeg_live (m : QueueMem) (s : SegId) (g : IoQueueSeg) (x : SegId)
    (hx : (m.seg x).isSome) : ((m.setSeg s g).seg x).isSome := by
  show (Function.update m.seg s (some g) x).isSome
  by_cases he : x = s
  · subst he
    simp
  · rwa [Function.update_of_ne he]

theorem ioQueueNewBlock_extends {m m' : QueueMem} {s : SegId} {i : Nat}
    (h : ioQueueNewBlock m = .ok (s, i, m')) : ∃ made, Extends m m' made := by
  obtain ⟨⟨s', m₁⟩, hroom, h⟩ := except_bind_eq_ok.mp h
  obtain ⟨g, -, h⟩ := except_bind_eq_ok.mp h
  cases h
  obtain ⟨made, hext⟩ := segWithRoom_extends hroom
  exact ⟨made, hext.then_ rfl rfl rfl (setSeg_live m₁ s { g with end_ := g.end_ + 1 })⟩

theorem putData_extends {m m₁ m' : QueueMem} {made : List SegId} (h : Extends m m₁ made)
    {type_ : BlockType} {data d : DataPtr} {size : Nat}
    (hput : m₁.putData type_ data size = .ok (d, m')) : Extends m m' made := by
  unfold QueueMem.putData QueueMem.copyData at hput
  split at hput
  · split at hput
    · cases hput
      exact h.then_ rfl rfl rfl fun _ hs => hs
    · cases hput
  · cases hput
    exact h

theorem Extends.setBlock {m m₁ m' : QueueMem} {made : List SegId} (h : Extends m m₁ made)
    {s : SegId} {i : Nat} {b : IoQueueBlock} (hset : m₁.setBlock s i b = .ok m') :
    Extends m m' made := by
  obtain ⟨g, -, hset⟩ := except_bind_eq_ok.mp hset
  split at hset
  · cases hset
    exact h.then_ rfl rfl rfl (setSeg_live m₁ s _)
  · cases hset

theorem ioQueuePutBlock_extends {m m' : QueueMem} {tag : Nat} {data : DataPtr} {size : Nat}
    {type_ : BlockType} {ret : Int} (h : ioQueuePutBlock m tag data size type_ = .ok (ret, m')) :
    ∃ made, Extends m m' made := by
  obtain ⟨⟨s, i, m₁⟩, hnew, h⟩ := except_bind_eq_ok.mp h
  obtain ⟨⟨d, m₂⟩, hdata, h⟩ := except_bind_eq_ok.mp h
  obtain ⟨m₃, hset, h⟩ := except_bind_eq_ok.mp h
  simp only [pure, Except.pure, Except.ok.injEq, Prod.mk.injEq] at h
  obtain ⟨-, rfl⟩ := h
  obtain ⟨made, hext⟩ := ioQueueNewBlock_extends hnew
  exact ⟨made, (putData_extends hext hdata).setBlock hset⟩

/-! ## §4 Dropping and freeing -/

theorem ioQueueBlockFree_frame {m m' : QueueMem} {b : IoQueueBlock}
    (h : ioQueueBlockFree m b = .ok m') : ∃ buf, m' = { m with buf := buf } := by
  rw [ioQueueBlockFree_eq] at h
  split at h
  · next buf _ =>
    cases h
    exact ⟨buf, rfl⟩
  · cases h

theorem ioQueueSegFree_frame {m m' : QueueMem} {s : SegId} (h : ioQueueSegFree m s = .ok m') :
    ∃ buf g, m' = { m.setSeg s g with buf := buf } := by
  obtain ⟨g, -, h⟩ := except_bind_eq_ok.mp h
  obtain ⟨m₁, hfree, h⟩ := except_bind_eq_ok.mp h
  rw [ioQueueBlocksFree_eq] at hfree
  split at hfree
  · next buf _ =>
    cases hfree
    cases h
    exact ⟨buf, _, rfl⟩
  · cases hfree

/-- Rewriting a segment that is there. -/
theorem setSeg_isSome {m : QueueMem} {s : SegId} (hs : (m.seg s).isSome) (g : IoQueueSeg)
    (x : SegId) : ((m.setSeg s g).seg x).isSome = (m.seg x).isSome := by
  show (Function.update m.seg s (some g) x).isSome = _
  by_cases he : x = s
  · subst he
    simp [hs]
  · rw [Function.update_of_ne he]

/-- What a drop does to the segments: it frees none, or the first. -/
structure DropsSegs (m m' : QueueMem) : Prop where
  freshSeg : m'.freshSeg = m.freshSeg
  freshCopy : m'.freshCopy = m.freshCopy
  chain : ∀ ids, Chain m.next m.q.first ids → ∃ ids', Chain m'.next m'.q.first ids' ∧
    (∀ s, ids'.count s + (gone m m' (.seg s)).toNat = ids.count s) ∧ (ids' = [] ↔ ids = [])

/-- The links as before, the same segments there. -/
theorem dropsSegs_none {m m' : QueueMem} (hq : m'.q.first = m.q.first) (hnext : m'.next = m.next)
    (hseg : m'.freshSeg = m.freshSeg) (hcopy : m'.freshCopy = m.freshCopy)
    (hlive : ∀ x, (m'.seg x).isSome = (m.seg x).isSome) : DropsSegs m m' := by
  refine ⟨hseg, hcopy, fun ids hc => ⟨ids, by rw [hq, hnext]; exact hc, fun s => ?_, Iff.rfl⟩⟩
  cases h : (m.seg s).isSome <;> simp [gone, QueueMem.live, hlive, h]

/-- The first segment freed, the one behind it now the first. -/
theorem dropsSegs_first {m m' : QueueMem} {s n : SegId} (hfirst : m.q.first = some s)
    (hn : m.next s = some n) (hq : m'.q.first = some n) (hnext : m'.next = m.next)
    (hseg : m'.freshSeg = m.freshSeg) (hcopy : m'.freshCopy = m.freshCopy)
    (hs : (m.seg s).isSome) (hgone : m'.seg s = none)
    (hlive : ∀ x, x ≠ s → (m'.seg x).isSome = (m.seg x).isSome) : DropsSegs m m' := by
  refine ⟨hseg, hcopy, fun ids hc => ?_⟩
  rw [hfirst] at hc
  cases ids with
  | nil => cases hc
  | cons a rest =>
    obtain ⟨ha, hrest⟩ := hc
    obtain rfl : s = a := Option.some.inj ha
    have hrest' : Chain m'.next m'.q.first rest := by
      rw [hq, hnext, ← hn]
      exact hrest
    refine ⟨rest, hrest', fun x => ?_, ?_⟩
    · by_cases hx : x = s
      · subst hx
        simp [gone, QueueMem.live, hs, hgone]
      · cases hsome : (m.seg x).isSome <;>
          simp [gone, QueueMem.live, hlive x hx, hsome, List.count_cons_of_ne (Ne.symm hx)]
    · refine iff_of_false ?_ (List.cons_ne_nil _ _)
      rintro rfl
      rw [hq] at hrest'
      cases hrest'

theorem ioQueueBlockDrop_segs {m m' : QueueMem} {ret : Int}
    (h : ioQueueBlockDrop m = .ok (ret, m')) : DropsSegs m m' := by
  unfold ioQueueBlockDrop at h
  cases hfirst : m.q.first with
  | none =>
    simp only [hfirst] at h
    cases h
    exact dropsSegs_none rfl rfl rfl rfl fun _ => rfl
  | some s =>
    simp only [hfirst] at h
    obtain ⟨g, hg, h⟩ := except_bind_eq_ok.mp h
    have hs : (m.seg s).isSome := by rw [getSeg_ok hg]; rfl
    by_cases hlt : g.begin_ < g.end_
    · rw [if_pos hlt] at h
      obtain ⟨m₁, hfree, h⟩ := except_bind_eq_ok.mp h
      obtain ⟨buf, rfl⟩ := ioQueueBlockFree_frame hfree
      by_cases hlast : g.end_ ≤ g.begin_ + 1
      · rw [if_pos hlast] at h
        obtain ⟨m₂, hreset, h⟩ := except_bind_eq_ok.mp h
        obtain ⟨buf₂, g₂, rfl⟩ := ioQueueSegFree_frame hreset
        have hs₁ : ((m.setSeg s { g with begin_ := g.begin_ + 1 }).seg s).isSome :=
          setSeg_live m s _ s hs
        let m₁ : QueueMem := { m.setSeg s { g with begin_ := g.begin_ + 1 } with buf := buf }
        have hlive : ∀ x, ((m₁.setSeg s g₂).seg x).isSome = (m.seg x).isSome := fun x =>
          (setSeg_isSome (m := m₁) hs₁ g₂ x).trans (setSeg_isSome hs _ x)
        split at h
        · next n hn =>
          cases h
          refine dropsSegs_first hfirst hn rfl rfl rfl rfl hs (Function.update_self ..)
            fun x hx => ?_
          rw [← hlive x]
          exact congrArg Option.isSome (Function.update_of_ne hx ..)
        · cases h
          exact dropsSegs_none rfl rfl rfl rfl hlive
      · rw [if_neg hlast] at h
        cases h
        exact dropsSegs_none rfl rfl rfl rfl (setSeg_isSome hs _)
    · rw [if_neg hlt] at h
      cases h
      exact dropsSegs_none rfl rfl rfl rfl fun _ => rfl

/-- `io_queue_free` frees what the blocks own, leaves every segment where it
is, and the queue empty. -/
structure Emptied (m m' : QueueMem) (blocks : List IoQueueBlock) : Prop where
  buf : freedBufs m.buf blocks = some m'.buf
  q : m'.q = ⟨none, none⟩
  freshSeg : m'.freshSeg = m.freshSeg
  freshCopy : m'.freshCopy = m.freshCopy
  live : ∀ s, (m'.seg s).isSome = (m.seg s).isSome

theorem freedBufs_append {buf : DataPtr → Option (List UInt8)} (l₁ l₂ : List IoQueueBlock) :
    freedBufs buf (l₁ ++ l₂) = (freedBufs buf l₁).bind (freedBufs · l₂) := by
  induction l₁ generalizing buf with
  | nil => rfl
  | cons b l₁ ih =>
    rw [List.cons_append, freedBufs, freedBufs]
    cases freedBuf buf b with
    | none => rfl
    | some buf => exact ih

/-- The data of the blocks of `s` is freed, and the segment counts as empty. -/
structure SegReset (m m₁ : QueueMem) (s : SegId) (buf : DataPtr → Option (List UInt8)) :
    Prop where
  buf : m₁.buf = buf
  q : m₁.q = m.q
  next : m₁.next = m.next
  freshSeg : m₁.freshSeg = m.freshSeg
  freshCopy : m₁.freshCopy = m.freshCopy
  others : ∀ t, t ≠ s → m₁.seg t = m.seg t
  live : ∀ t, (m₁.seg t).isSome = (m.seg t).isSome

theorem ioQueueSegFree_reset {m : QueueMem} {s : SegId} {seg : IoQueueSeg}
    (hs : m.seg s = some seg) {buf : DataPtr → Option (List UInt8)}
    (hbuf : freedBufs m.buf seg.queued = some buf) :
    ∃ m₁, ioQueueSegFree m s = .ok m₁ ∧ SegReset m m₁ s buf := by
  refine ⟨({ m with buf } : QueueMem).setSeg s { seg with begin_ := 0, end_ := 0 }, ?_,
    rfl, rfl, rfl, rfl, rfl, fun t ht => Function.update_of_ne ht .., fun t => ?_⟩
  · simp only [ioQueueSegFree, QueueMem.getSeg, hs, bind, Except.bind, ioQueueBlocksFree_eq, hbuf]
    rfl
  · exact setSeg_isSome (m := { m with buf }) (by rw [hs]; rfl) _ t

/-- The loop, over the segments of a chain. -/
theorem ioQueueSegsFree_chain {segs : List (SegId × IoQueueSeg)} {fuel : Nat} {m : QueueMem}
    {s : SegId} (hc : Chain m.next (some s) (segs.map Prod.fst))
    (hlive : ∀ x ∈ segs, m.seg x.1 = some x.2) (hfuel : segs.length ≤ fuel)
    (hq : m.q = ⟨none, none⟩) {buf : DataPtr → Option (List UInt8)}
    (hbuf : freedBufs m.buf (blocksOf segs) = some buf) :
    ∃ m', ioQueueSegsFree fuel m s = .ok m' ∧ m'.buf = buf ∧ Emptied m m' (blocksOf segs) := by
  induction segs generalizing fuel m s with
  | nil => cases hc
  | cons x segs ih =>
    have hnd := List.nodup_cons.mp hc.nodup
    obtain ⟨hs, hrest⟩ := hc
    obtain rfl : s = x.1 := Option.some.inj hs
    cases fuel with
    | zero => simp at hfuel
    | succ fuel =>
      have hall := hbuf
      rw [blocksOf_cons, freedBufs_append] at hbuf
      obtain ⟨buf₁, hhead, htail⟩ := Option.bind_eq_some_iff.mp hbuf
      obtain ⟨hx, hliverest⟩ := List.forall_mem_cons.mp hlive
      have hget : m.getSeg x.1 = .ok x.2 := by rw [QueueMem.getSeg, hx]
      obtain ⟨m₁, hreset, h₁⟩ := ioQueueSegFree_reset hx hhead
      cases segs with
      | nil =>
        have hnext : m.next x.1 = none := hrest
        have hend : buf₁ = buf := Option.some.inj htail
        have hbuf₁ : m₁.buf = buf := h₁.buf.trans hend
        refine ⟨m₁, ?_, hbuf₁, ⟨by rw [hbuf₁]; exact hall, h₁.q.trans hq, h₁.freshSeg,
          h₁.freshCopy, h₁.live⟩⟩
        simp only [ioQueueSegsFree, hget, bind, Except.bind, hreset, hnext]
        rfl
      | cons y segs =>
        have hnext : m.next x.1 = some y.1 := hrest.1
        have hlive₁ : ∀ z ∈ y :: segs, m₁.seg z.1 = some z.2 := by
          intro z hz
          have hne : z.1 ≠ x.1 := fun he => hnd.1 (he ▸ List.mem_map_of_mem hz)
          exact (h₁.others z.1 hne).trans (hliverest z hz)
        rw [hnext, ← h₁.next] at hrest
        rw [← h₁.buf] at htail
        obtain ⟨m', hloop, hbuf', hdone⟩ :=
          ih hrest hlive₁ (Nat.le_of_succ_le_succ hfuel) (h₁.q.trans hq) htail
        refine ⟨m', ?_, hbuf', ⟨by rw [hbuf']; exact hall, hdone.q,
          hdone.freshSeg.trans h₁.freshSeg, hdone.freshCopy.trans h₁.freshCopy,
          fun z => (hdone.live z).trans (h₁.live z)⟩⟩
        simp only [ioQueueSegsFree, hget, bind, Except.bind, hreset, hnext]
        exact hloop

theorem Emptied.holds {m m' : QueueMem} {blocks : List IoQueueBlock} (h : Emptied m m' blocks) :
    Holds m' [] := by
  refine ⟨[], ⟨?_, by simp, by simp⟩, rfl⟩
  rw [h.q]
  exact NodeChain.nil

theorem ioQueueFree_holds {m : QueueMem} {blocks : List IoQueueBlock} (h : Holds m blocks)
    {buf : DataPtr → Option (List UInt8)} (hbuf : freedBufs m.buf blocks = some buf) :
    ∃ m', ioQueueFree m = .ok m' ∧ m'.buf = buf ∧ Emptied m m' blocks := by
  obtain ⟨segs, hs, rfl⟩ := h
  unfold ioQueueFree
  cases hfirst : m.q.first with
  | none =>
    obtain rfl := hs.nodes.first_eq_none.mp hfirst
    have hq : m.q = ⟨none, none⟩ := congrArg₂ IoQueue.mk hfirst hs.nodes.last_eq
    cases hbuf
    exact ⟨m, rfl, rfl, ⟨rfl, hq, rfl, rfl, fun _ => rfl⟩⟩
  | some s =>
    let m₀ : QueueMem := { m with q := ⟨none, none⟩ }
    have hchain : Chain m₀.next (some s) (segs.map Prod.fst) := hfirst ▸ hs.nodes.chain
    obtain ⟨m', hloop, hbuf', hdone⟩ := ioQueueSegsFree_chain (m := m₀) hchain hs.nodes.mem_live
      hs.nodes.length_le rfl hbuf
    exact ⟨m', hloop, hbuf', ⟨hdone.buf, hdone.q, hdone.freshSeg, hdone.freshCopy, hdone.live⟩⟩

/-! ## §5 The balance -/

/-- What was taken and not freed: the segments in the chain, and the data
that the blocks own. -/
structure Booked (m : QueueMem) (r : Ledger) : Prop where
  segs : ∃ ids, Chain m.next m.q.first ids ∧
    ∀ s, r.freed (.seg s) + ids.count s = r.taken (.seg s)
  data : ∃ blocks, Holds m blocks ∧ ∀ p, r.freed (.data p) + owed blocks p = r.taken (.data p)

theorem booked_init (m : QueueMem) : Booked (ioQueueInit m) .empty :=
  ⟨⟨[], rfl, fun _ => rfl⟩, ⟨[], holds_init m, fun _ => rfl⟩⟩

/-- A chain of segments is one of a `Holds`: its last is `last`, and all of
them are older than `freshSeg`. -/
theorem Holds.chain {m : QueueMem} {blocks : List IoQueueBlock} (h : Holds m blocks)
    {ids : List SegId} (hc : Chain m.next m.q.first ids) :
    m.q.last = ids.getLast? ∧ ∀ s ∈ ids, s < m.freshSeg := by
  obtain ⟨segs, hs, -⟩ := h
  obtain rfl := hc.unique hs.nodes.chain
  refine ⟨hs.nodes.last_eq, fun s hm => ?_⟩
  obtain ⟨x, hx, rfl⟩ := List.mem_map.mp hm
  exact hs.nodes.lt_fresh x hx

theorem allocated_none {m m' : QueueMem} (hseg : m'.freshSeg = m.freshSeg)
    (hcopy : m'.freshCopy = m.freshCopy) (o : Obj) : allocated m m' o = false := by
  cases o with
  | seg s => simp [allocated, hseg]
  | data p => cases p <;> simp [allocated, hcopy]

/-- The segments after a put. -/
theorem Booked.put_segs {m m' : QueueMem} {r : Ledger} (h : Booked m r) {tag data size : Nat}
    {type_ : BlockType} {ret : Int}
    (hput : ioQueuePutBlock m tag (.own data) size type_ = .ok (ret, m')) (takes : Obj → Bool)
    (htakes : ∀ s, takes (.seg s) = false) :
    ∃ ids, Chain m'.next m'.q.first ids ∧
      ∀ s, (r.note takes m m').freed (.seg s) + ids.count s =
        (r.note takes m m').taken (.seg s) := by
  obtain ⟨ids, hc, hbal⟩ := h.segs
  obtain ⟨blocks, hholds, -⟩ := h.data
  obtain ⟨hlast, hlt⟩ := hholds.chain hc
  obtain ⟨made, hext⟩ := ioQueuePutBlock_extends hput
  refine ⟨ids ++ made, (hext.chain ids hc hlast hlt).1, fun s => ?_⟩
  have hgone : gone m m' (.seg s) = false := by
    cases hs : (m.seg s).isSome with
    | true => simp [gone, QueueMem.live, hs, hext.live s hs]
    | false => simp [gone, QueueMem.live, hs]
  have hmade : (allocated m m' (.seg s)).toNat = made.count s := by
    by_cases hm : s ∈ made
    · have hin := (hext.made_iff s).mp hm
      simp [allocated, hin, List.count_eq_one_of_mem hext.nodup hm]
    · have hout := mt (hext.made_iff s).mpr hm
      rw [List.count_eq_zero_of_not_mem hm]
      simpa [allocated] using hout
  have := hbal s
  simp only [Ledger.note, hgone, hmade, htakes, List.count_append, Bool.toNat_false]
  omega

/-- The data after a put of a pointer. -/
theorem put_pointer_balance {m m' : QueueMem} (hbuf : m'.buf = m.buf)
    (hcopy : m'.freshCopy = m.freshCopy) {type_ : BlockType} (ht : type_ ≠ .LOCAL)
    (tag data size : Nat) (p : DataPtr) :
    gone m m' (.data p) = false ∧ allocated m m' (.data p) = false ∧
      QueueOp.takes (.put tag data size type_) (.data p) =
        IoQueueBlock.owns ⟨type_, size % 2 ^ 16, tag, .own data⟩ p := by
  refine ⟨?_, ?_, ?_⟩
  · cases h : (m.buf p).isSome <;> simp [gone, QueueMem.live, hbuf, h]
  · cases p <;> simp [allocated, hcopy]
  · cases type_ with
    | STATIC => cases p <;> rfl
    | LOCAL => exact absurd rfl ht
    | DYNAMIC =>
      cases p with
      | copy n => rfl
      | own n =>
        by_cases h : n = data
        · subst h
          simp [QueueOp.takes, IoQueueBlock.owns]
        · have h' : DataPtr.own data ≠ .own n := by simpa using Ne.symm h
          simp [QueueOp.takes, IoQueueBlock.owns, h, h']

/-- The data after a put of a copy. -/
theorem put_copy_balance {m m' : QueueMem} {bytes : List UInt8}
    (hbuf : m'.buf = Function.update m.buf (.copy m.freshCopy) (some bytes))
    (hcopy : m'.freshCopy = m.freshCopy + 1) (tag data size : Nat) (p : DataPtr) :
    gone m m' (.data p) = false ∧ QueueOp.takes (.put tag data size .LOCAL) (.data p) = false ∧
      allocated m m' (.data p) =
        IoQueueBlock.owns ⟨.LOCAL, size % 2 ^ 16, tag, .copy m.freshCopy⟩ p := by
  refine ⟨?_, ?_, ?_⟩
  · by_cases hp : p = .copy m.freshCopy
    · subst hp
      simp [gone, QueueMem.live, hbuf]
    · cases h : (m.buf p).isSome <;>
        simp [gone, QueueMem.live, hbuf, Function.update_of_ne hp, h]
  · cases p <;> rfl
  · cases p with
    | own n => rfl
    | copy n =>
      simp only [allocated, IoQueueBlock.owns, hcopy]
      by_cases hn : m.freshCopy = n
      · subst hn
        simp
      · have hne : DataPtr.copy m.freshCopy ≠ .copy n := by simpa using hn
        have hout : ¬(m.freshCopy ≤ n ∧ n < m.freshCopy + 1) := by omega
        simp only [hne, beq_eq_false_iff_ne.mpr, Bool.and_false, ne_eq, not_false_eq_true]
        simpa using hout

theorem Booked.put {m m' : QueueMem} {r : Ledger} (h : Booked m r) {tag data size : Nat}
    {type_ : BlockType} {ret : Int}
    (hput : ioQueuePutBlock m tag (.own data) size type_ = .ok (ret, m')) :
    Booked m' (r.op (.put tag data size type_) m m') := by
  refine ⟨h.put_segs hput _ fun s => by cases type_ <;> rfl, ?_⟩
  obtain ⟨blocks, hholds, hbal⟩ := h.data
  by_cases ht : type_ = .LOCAL
  · subst ht
    by_cases hsize : size ≤ (m.bytes (.own data)).length
    · obtain ⟨m'', hput', hholds', hbuf, hcopy⟩ := ioQueuePutBlock_copy hholds tag (.own data) hsize
      obtain ⟨-, rfl⟩ : ret = toInt size ∧ m' = m'' := by simpa using hput.symm.trans hput'
      refine ⟨_, hholds', fun p => ?_⟩
      obtain ⟨hgone, htakes, halloc⟩ := put_copy_balance hbuf hcopy tag data size p
      have := hbal p
      simp only [Ledger.op, Ledger.note, hgone, htakes, halloc, owed_append, owed_cons, owed_nil,
        Bool.toNat_false]
      omega
    · rw [ioQueuePutBlock_short hholds tag (.own data) (Nat.lt_of_not_le hsize)] at hput
      cases hput
  · obtain ⟨m'', hput', hholds', hbuf, hcopy⟩ :=
      ioQueuePutBlock_pointer hholds tag (.own data) size ht
    obtain ⟨-, rfl⟩ : ret = toInt size ∧ m' = m'' := by simpa using hput.symm.trans hput'
    refine ⟨_, hholds', fun p => ?_⟩
    obtain ⟨hgone, halloc, htakes⟩ := put_pointer_balance hbuf hcopy ht tag data size p
    have := hbal p
    simp only [Ledger.op, Ledger.note, hgone, htakes, halloc, owed_append, owed_cons, owed_nil,
      Bool.toNat_false]
    omega

theorem Booked.drop {m m' : QueueMem} {r : Ledger} (h : Booked m r) {ret : Int}
    (hdrop : ioQueueBlockDrop m = .ok (ret, m')) : Booked m' (r.op .drop m m') := by
  have hsegs := ioQueueBlockDrop_segs hdrop
  refine ⟨?_, ?_⟩
  · obtain ⟨ids, hc, hbal⟩ := h.segs
    obtain ⟨ids', hc', hcount, -⟩ := hsegs.chain ids hc
    refine ⟨ids', hc', fun s => ?_⟩
    have hs := hbal s
    have hcs := hcount s
    simp only [Ledger.op, Ledger.note, allocated_none hsegs.freshSeg hsegs.freshCopy,
      QueueOp.takes, Bool.toNat_false]
    omega
  · obtain ⟨blocks, hholds, hbal⟩ := h.data
    have hnone := allocated_none hsegs.freshSeg hsegs.freshCopy
    cases blocks with
    | nil =>
      rw [ioQueueBlockDrop_nil hholds] at hdrop
      obtain ⟨-, rfl⟩ : -1 = ret ∧ m = m' := by simpa using hdrop
      refine ⟨[], hholds, fun p => ?_⟩
      have := hbal p
      simp only [Ledger.op, Ledger.note, hnone, gone_self, QueueOp.takes, Bool.toNat_false]
      omega
    | cons b rest =>
      cases hb : freedBuf m.buf b with
      | none =>
        rw [ioQueueBlockDrop_bad hholds hb] at hdrop
        cases hdrop
      | some buf =>
        obtain ⟨m'', hdrop', hholds', hbuf, -⟩ := ioQueueBlockDrop_cons hholds hb
        obtain ⟨-, rfl⟩ : ret = 0 ∧ m' = m'' := by simpa using hdrop.symm.trans hdrop'
        refine ⟨rest, hholds', fun p => ?_⟩
        have hone : freedBufs m.buf [b] = some m'.buf := by simp [freedBufs, hb, hbuf]
        have hgone := freedBufs_gone hone p
        have := hbal p
        simp only [owed_cons, owed_nil] at hgone this
        simp only [Ledger.op, Ledger.note, hnone, QueueOp.takes, Bool.toNat_false, hgone]
        omega

/-- What the program does to its own buffers leaves the books as they are. -/
theorem Booked.own {m : QueueMem} {r : Ledger} (h : Booked m r) (n : Nat)
    (content : Option (List UInt8)) :
    Booked { m with buf := Function.update m.buf (.own n) content } r := by
  obtain ⟨blocks, ⟨segs, hs, hblocks⟩, hbal⟩ := h.data
  exact ⟨h.segs, blocks, ⟨segs, hs.congr rfl rfl rfl rfl, hblocks⟩, hbal⟩

theorem Booked.get {m : QueueMem} {r : Ledger} (h : Booked m r) : Booked m (r.op .get m m) := by
  have hsame : ∀ o, (r.op .get m m).taken o = r.taken o ∧ (r.op .get m m).freed o = r.freed o := by
    intro o
    simp [Ledger.op, Ledger.note, allocated_none, gone_self, QueueOp.takes]
  obtain ⟨ids, hc, hsegs⟩ := h.segs
  obtain ⟨blocks, hholds, hdata⟩ := h.data
  refine ⟨⟨ids, hc, fun s => ?_⟩, ⟨blocks, hholds, fun p => ?_⟩⟩
  · rw [(hsame _).1, (hsame _).2, hsegs s]
  · rw [(hsame _).1, (hsame _).2, hdata p]

theorem Booked.step {m m' : QueueMem} {r : Ledger} (h : Booked m r) {op : QueueOp} {out : QueueOut}
    (hstep : m.step op = .ok (out, m')) : Booked m' (r.op op m m') := by
  cases op with
  | put tag data size type_ =>
    obtain ⟨⟨ret, m₁⟩, hput, hout⟩ := except_bind_eq_ok.mp hstep
    cases hout
    exact h.put hput
  | get =>
    obtain ⟨b, -, hout⟩ := except_bind_eq_ok.mp hstep
    cases hout
    exact h.get
  | drop =>
    obtain ⟨⟨ret, m₁⟩, hdrop, hout⟩ := except_bind_eq_ok.mp hstep
    cases hout
    exact h.drop hdrop
  | own n content =>
    cases hstep
    exact h.own n content

/-! ## §6 Whole runs -/

theorem Sim.first_none {m : QueueMem} {f : Fifo} (h : Sim m f) (hn : m.q.first = none) :
    f.dropped = f.put.length := by
  refine h.queueIs.get_null.mp ?_
  simp [ioQueueGetBlock, hn]

theorem chain_eq_none {next : SegId → Option SegId} {p : Option SegId} {ids : List SegId}
    (h : Chain next p ids) : p = none ↔ ids = [] := by
  cases ids with
  | nil => exact iff_of_true h rfl
  | cons s ids => simp [h.1]

/-- `first` is null just as long as nothing was put: a drop keeps the last
segment. -/
theorem Sim.step_first {m m' : QueueMem} {f f' : Fifo} (h : Sim m f)
    (hfirst : m.q.first = none ↔ f.put = []) {op : QueueOp} {out : QueueOut}
    (hf : f.step op = some f') (hstep : m.step op = .ok (out, m')) (h' : Sim m' f') :
    m'.q.first = none ↔ f'.put = [] := by
  cases op with
  | put tag data size type_ =>
    obtain ⟨it, -, rfl⟩ := Option.map_eq_some_iff.mp hf
    refine iff_of_false (fun hn => ?_) (by simp)
    have hall := h'.first_none hn
    have hle := h.dropped_le
    simp only [List.length_append, List.length_singleton] at hall
    omega
  | get =>
    cases hf
    obtain ⟨b, -, hout⟩ := except_bind_eq_ok.mp hstep
    cases hout
    exact hfirst
  | drop =>
    have hput : f'.put = f.put := by
      simp only [Fifo.step] at hf
      split at hf
      · cases hf
        rfl
      · obtain ⟨own, -, rfl⟩ := Option.map_eq_some_iff.mp hf
        rfl
    obtain ⟨⟨ret, m₁⟩, hdrop, hout⟩ := except_bind_eq_ok.mp hstep
    cases hout
    obtain ⟨blocks, ⟨segs, hs, -⟩, -⟩ := h.blocks
    obtain ⟨ids', hc', -, hnil⟩ := (ioQueueBlockDrop_segs hdrop).chain _ hs.nodes.chain
    rw [hput, ← hfirst, chain_eq_none hc', hnil, chain_eq_none hs.nodes.chain]
  | own n content =>
    cases hf
    cases hstep
    exact hfirst

/-- The program's buffers when the items have been released, in order; none
when one of them is not there any more. -/
def releaseAll : List Item → (Nat → Option (List UInt8)) → Option (Nat → Option (List UInt8))
  | [], own => some own
  | it :: items, own => (it.release own).bind (releaseAll items)

/-- Freeing the blocks of a queue and releasing its items come to the same. -/
theorem freedBufs_releaseAll {blocks : List IoQueueBlock} {items : List Item} {m : QueueMem}
    {own own' : Nat → Option (List UInt8)} (hall : List.Forall₂ (Shows m) blocks items)
    (hsep : SeparateCopies blocks) (hown : ∀ n, m.buf (.own n) = own n)
    (h : releaseAll items own = some own') :
    ∃ buf, freedBufs m.buf blocks = some buf ∧ ∀ n, buf (.own n) = own' n := by
  induction blocks generalizing items m own with
  | nil =>
    cases hall
    cases h
    exact ⟨m.buf, rfl, hown⟩
  | cons b blocks ih =>
    cases hall with
    | @cons _ it _ items hshow hrest =>
      obtain ⟨own₁, hrel, htail⟩ := Option.bind_eq_some_iff.mp h
      have hfreed := freedBuf_release hshow hown
      rw [hrel] at hfreed
      obtain ⟨buf₁, hbuf₁, hown₁, hcopy⟩ := hfreed
      obtain ⟨hother, hsep'⟩ := List.pairwise_cons.mp hsep
      let m₁ : QueueMem := { m with buf := buf₁ }
      have hboth : List.Forall₂ (fun a it => (∀ n, b.data = .copy n → a.data ≠ .copy n) ∧
          Shows m a it) blocks items := (List.forall₂_and_left _ _).mpr ⟨hother, hrest⟩
      have hrest₁ : List.Forall₂ (Shows m₁) blocks items :=
        hboth.imp fun a it hs => hs.2.mono (fun n hn _ => hcopy n fun hb => hs.1 n hb hn)
          (Nat.le_refl _)
      obtain ⟨buf, hbuf, hown'⟩ := ih (m := m₁) hrest₁ hsep' hown₁ htail
      exact ⟨buf, by rw [freedBufs, hbuf₁]; exact hbuf, hown'⟩

/-- A run with its books, and the FIFO beside it. -/
theorem runLedger_booked (ops : List QueueOp) {m : QueueMem} {r : Ledger} {f f' : Fifo}
    (hsim : Sim m f) (hbook : Booked m r) (hfirst : m.q.first = none ↔ f.put = [])
    (hf : f.run ops = some f') :
    ∃ m' r', m.runLedger r ops = .ok (m', r') ∧ Sim m' f' ∧ Booked m' r' ∧
      (m'.q.first = none ↔ f'.put = []) := by
  induction ops generalizing m r f with
  | nil =>
    cases hf
    exact ⟨m, r, rfl, hsim, hbook, hfirst⟩
  | cons op ops ih =>
    obtain ⟨f₁, hf₁, hrest⟩ := Option.bind_eq_some_iff.mp hf
    obtain ⟨out, m₁, hstep, hsim₁⟩ := (hsim.step op).2 f₁ hf₁
    obtain ⟨m', r', hrun, hdone⟩ :=
      ih hsim₁ (hbook.step hstep) (hsim.step_first hfirst hf₁ hstep hsim₁) hrest
    exact ⟨m', r', by simp only [QueueMem.runLedger, hstep, bind, Except.bind]; exact hrun, hdone⟩

/-- The books are only kept beside the run. -/
theorem runLedger_run (ops : List QueueOp) {m m' : QueueMem} {r r' : Ledger}
    (h : m.runLedger r ops = .ok (m', r')) : m.run ops = .ok m' := by
  induction ops generalizing m r with
  | nil =>
    cases h
    rfl
  | cons op ops ih =>
    obtain ⟨⟨out, m₁⟩, hstep, hrest⟩ := except_bind_eq_ok.mp h
    exact except_bind_eq_ok.mpr ⟨(out, m₁), hstep, ih hrest⟩

/-- Every object that the queue got hold of was freed exactly once for each
time, and a buffer that was only put as `IOQB_STATIC` (or to be copied) was
not freed. -/
structure Balanced (ops : List QueueOp) (r : Ledger) : Prop where
  freed : ∀ o, r.freed o = r.taken o
  static : ∀ n, (∀ tag size, .put tag n size .DYNAMIC ∉ ops) → r.freed (.data (.own n)) = 0

/-- What a queue holds is determined by its memory. -/
theorem Holds.unique {m : QueueMem} {blocks₁ blocks₂ : List IoQueueBlock} (h₁ : Holds m blocks₁)
    (h₂ : Holds m blocks₂) : blocks₁ = blocks₂ := by
  obtain ⟨segs₁, hs₁, rfl⟩ := h₁
  obtain ⟨segs₂, hs₂, rfl⟩ := h₂
  rw [hs₁.nodes.unique hs₂.nodes]

theorem taken_own {m m' : QueueMem} (takes : Obj → Bool) (r : Ledger) {n : Nat}
    (h : takes (.data (.own n)) = false) :
    (r.note takes m m').taken (.data (.own n)) = r.taken (.data (.own n)) := by
  simp [Ledger.note, allocated, h]

/-- Only a dynamic put takes a buffer over. -/
theorem runLedger_taken_own {ops : List QueueOp} {n : Nat}
    (h : ∀ tag size, .put tag n size .DYNAMIC ∉ ops) {m m' : QueueMem} {r r' : Ledger}
    (hrun : m.runLedger r ops = .ok (m', r')) :
    r'.taken (.data (.own n)) = r.taken (.data (.own n)) := by
  induction ops generalizing m r with
  | nil =>
    cases hrun
    rfl
  | cons op ops ih =>
    obtain ⟨⟨out, m₁⟩, -, hrest⟩ := except_bind_eq_ok.mp hrun
    refine (ih (fun tag size hm => h tag size (List.mem_cons_of_mem _ hm)) hrest).trans ?_
    have hop : ∀ tag size, op ≠ .put tag n size .DYNAMIC := fun tag size he =>
      h tag size (he ▸ List.mem_cons_self)
    cases op with
    | put tag data size type_ =>
      refine taken_own _ r ?_
      cases type_ with
      | DYNAMIC =>
        have hne : n ≠ data := fun he => hop tag size (he ▸ rfl)
        simp [QueueOp.takes, hne]
      | _ => rfl
    | get => exact taken_own _ r rfl
    | drop => exact taken_own _ r rfl
    | own => rfl

/-- Freeing the queue settles the data, and adds nothing to what was taken. -/
theorem Booked.free {m m' : QueueMem} {r : Ledger} (h : Booked m r) {blocks : List IoQueueBlock}
    (hholds : Holds m blocks) (hdone : Emptied m m' blocks) :
    (∀ o, (r.note (fun _ => false) m m').taken o = r.taken o) ∧
      (∀ p, (r.note (fun _ => false) m m').freed (.data p) = r.taken (.data p)) ∧
      ∀ s, (r.note (fun _ => false) m m').freed (.seg s) = r.freed (.seg s) := by
  have hnone := allocated_none hdone.freshSeg hdone.freshCopy
  refine ⟨fun o => by simp [Ledger.note, hnone], fun p => ?_, fun s => ?_⟩
  · obtain ⟨blocks', hholds', hbal⟩ := h.data
    obtain rfl := hholds.unique hholds'
    rw [← hbal p, ← freedBufs_gone hdone.buf p]
    rfl
  · have hgone : gone m m' (.seg s) = false := by
      cases hs : (m.seg s).isSome <;> simp [gone, QueueMem.live, hdone.live, hs]
    simp [Ledger.note, hgone]

/-- **The books of a queue that is freed at the end.** The data balances in
every run: each copy and each dynamic buffer is freed exactly once for each
time it was taken, and no other buffer is. The segments balance just when
nothing was ever put. -/
theorem queue_balanced_iff (m : QueueMem) (ops : List QueueOp) {f : Fifo}
    (hf : Fifo.run ⟨fun n => m.buf (.own n), [], 0⟩ ops = some f)
    {own : Nat → Option (List UInt8)}
    (hrel : releaseAll (f.put.drop f.dropped) f.own = some own) :
    ∃ m' r, runAndFree (ioQueueInit m) ops = .ok (m', r) ∧
      (∀ p, r.freed (.data p) = r.taken (.data p)) ∧ (Balanced ops r ↔ f.put = []) := by
  obtain ⟨m₁, r₁, hrun, hsim, hbook, hfirst⟩ :=
    runLedger_booked ops (sim_init m) (booked_init m) (iff_of_true rfl rfl) hf
  obtain ⟨blocks, hholds, hall, hsep⟩ := hsim.blocks
  obtain ⟨buf, hbuf, -⟩ := freedBufs_releaseAll hall hsep hsim.own hrel
  obtain ⟨m', hfree, -, hdone⟩ := ioQueueFree_holds hholds hbuf
  obtain ⟨htaken, hdata, hsegs⟩ := hbook.free hholds hdone
  refine ⟨m', r₁.note (fun _ => false) m₁ m', ?_, fun p => (hdata p).trans (htaken _).symm, ?_⟩
  · simp only [runAndFree, hrun, bind, Except.bind, hfree]
    rfl
  · obtain ⟨ids, hc, hbal⟩ := hbook.segs
    constructor
    · intro hb
      refine hfirst.mp ((chain_eq_none hc).mpr ?_)
      by_contra hne
      obtain ⟨s, hs⟩ := List.exists_mem_of_ne_nil ids hne
      -- a segment in the chain was taken once more than it was freed
      have hfreed := hb.freed (.seg s)
      rw [hsegs s, htaken] at hfreed
      have hcount := List.count_pos_iff.mpr hs
      have := hbal s
      omega
    · intro hput
      obtain rfl : ids = [] := (chain_eq_none hc).mp (hfirst.mpr hput)
      refine ⟨fun o => ?_, fun n hn => ?_⟩
      · cases o with
        | seg s => rw [hsegs s, htaken]; exact hbal s
        | data p => exact (hdata p).trans (htaken _).symm
      · exact (hdata _).trans (runLedger_taken_own hn hrun)

/-- A program with one buffer. -/
def oneBuffer (bytes : List UInt8) : QueueMem where
  q := ⟨none, none⟩
  seg _ := none
  next _ := none
  freshSeg := 0
  buf p := if p = .own 0 then some bytes else none
  freshCopy := 0

/-- A copy is put and dropped, and the buffer itself is put to be freed. -/
def copyThenGive : List QueueOp := [.put 0 0 2 .LOCAL, .drop, .put 0 0 2 .DYNAMIC]

theorem queue_balanced_iff_copyThenGive :
    ∃ m' r, runAndFree (ioQueueInit (oneBuffer [1, 2])) copyThenGive = .ok (m', r) ∧
      (∀ p, r.freed (.data p) = r.taken (.data p)) ∧
      (Balanced copyThenGive r ↔
        (⟨.LOCAL, 0, 2, .copy [1, 2]⟩ :: [⟨.DYNAMIC, 0, 2, .pointer 0⟩] : List Item) = []) :=
  queue_balanced_iff (oneBuffer [1, 2]) copyThenGive rfl rfl

/-- One block put and the queue freed: its segment is not. -/
theorem queue_leaks : ¬∀ (m : QueueMem) (ops : List QueueOp) (f : Fifo)
    (own : Nat → Option (List UInt8)), Fifo.run ⟨fun n => m.buf (.own n), [], 0⟩ ops = some f →
      releaseAll (f.put.drop f.dropped) f.own = some own →
      ∃ m' r, runAndFree (ioQueueInit m) ops = .ok (m', r) ∧ Balanced ops r := by
  intro h
  obtain ⟨m', r, hrun, hb⟩ := h (oneBuffer [1, 2]) [.put 0 0 2 .STATIC] _ _ rfl rfl
  have hseg := hb.freed (.seg 0)
  cases hrun
  exact absurd hseg (by decide)

end Nanio.Queue
