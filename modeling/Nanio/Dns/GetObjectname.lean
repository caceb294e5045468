/-
Nanio.Dns.GetObjectname — `get_objectname` of `oi_dns.c`, the reader of
compressed names.

A name is a chain of labels and compression pointers that ends in a zero
byte (`NameAt`, §2). The reader walks along it: a step goes over a label or
to where a pointer leads (`NameStep`). The length of the text bounds the
labels, nothing bounds the pointers, so the walk ends exactly if it comes
to no pointers that lead back to each other (§4); it stays inside the
message if every place it comes to does (§5).
-/
import Nanio.Base
import Nanio.Lib.CString
import Nanio.Lib.Acyclic

namespace Nanio.Dns

open Nanio.Lib Relation

/-! ## §1 The code -/

def RR_NAMESIZE : Nat := 512

/-- A read outside the message, a write outside a buffer, a walk that does
not end in its rounds, an `int` that is counted past its largest value. -/
inductive DnsFault where
  | outOfMessage
  | overflow
  | endless
  | intOverflow
  deriving DecidableEq, Repr

/-- The byte at an index of the message. -/
def byteAt (msg : List UInt8) (i : Nat) : Except DnsFault UInt8 :=
  match msg[i]? with
  | some b => .ok b
  | none => .error .outOfMessage

/-- `n` bytes of the message from index `i` on. -/
def bytesAt (msg : List UInt8) (i n : Nat) : Except DnsFault (List UInt8) :=
  if i + n ≤ msg.length then .ok ((msg.drop i).take n) else .error .outOfMessage

/-- Characters written behind those of `string`, an array of `RR_NAMESIZE`. -/
def putName (string more : Text) : Except DnsFault Text :=
  if string.length + more.length ≤ RR_NAMESIZE then .ok (string ++ more) else .error .overflow

def dot : UInt8 := ascii '.'

/-- `((len & ~0xc0) << 8) + **here` -/
def pointerOffset (len low : UInt8) : Nat := ((len &&& ~~~0xC0).toNat <<< 8) + low.toNat

/-- Behind the loop: `*here += 1; string[k] = 0; return k`. -/
def nameEnd (here : Nat) (string : Text) : Except DnsFault (Int × Nat × Text) := do
  let _ ← putName string [0]
  pure (string.length, here + 1, string)

/-- The rounds of `get_objectname`, those of its calls of itself included:
what it returns, `*here`, and the characters in `string`, whose number is
`k`. -/
def nameLoop (msg : List UInt8) :
    Nat → Nat → Nat → Text → Except DnsFault (Int × Nat × Text)
  | 0, _, _, _ => .error .endless
  | fuel + 1, strlen, here, string => do
    let len ← byteAt msg here
    if len = 0 then nameEnd here string
    else if msg.length ≤ here + 1 then pure (-1, here + 1, string)
    else if len &&& 0xC0 ≠ 0 then do
      let low ← byteAt msg (here + 1)
      let p := pointerOffset len low
      if msg.length ≤ p then pure (-1, here + 1, string)
      else if p = here then pure (-2, here + 1, string)
      -- the call for the name at `p`, which tests `p` and `k` first
      else if msg.length ≤ p ∨ RR_NAMESIZE ≤ string.length then pure (-1, here + 1, string)
      else do
        let (k, _, string) ← nameLoop msg fuel RR_NAMESIZE p string
        if k < 0 then pure (-1, here + 1, string) else nameEnd (here + 1) string
    else if msg.length < here + 1 + len.toNat ∨ strlen < len.toNat + string.length + 2 then
      pure (-1, here + 1, string)
    else do
      let label ← bytesAt msg (here + 1) len.toNat
      let string ← putName string (label ++ [dot])
      nameLoop msg fuel strlen (here + 1 + len.toNat) string

/-- `get_objectname`. -/
def getObjectname (msg : List UInt8) (fuel strlen here : Nat) (string : Text) :
    Except DnsFault (Int × Nat × Text) :=
  if msg.length ≤ here ∨ strlen ≤ string.length then .ok (-1, here, string)
  else nameLoop msg fuel strlen here string

/-! ## §2 Names in a message -/

/-- A label with its length before it. -/
structure Label (msg : List UInt8) (here : Nat) (label : Text) : Prop where
  byte : msg[here]? = some (UInt8.ofNat label.length)
  ne_nil : label ≠ []
  lt : label.length < 64
  text : label <+: msg.drop (here + 1)

/-- A pointer that the reader follows. -/
def Jump (msg : List UInt8) (here p : Nat) : Prop :=
  ∃ len low, msg[here]? = some len ∧ len &&& 0xC0 ≠ 0 ∧ msg[here + 1]? = some low ∧
    p = pointerOffset len low ∧ p < msg.length ∧ p ≠ here

/-- A step of the walk, from a place in the message with `k` characters
read: over a label that still fits, or to where a pointer leads. -/
inductive NameStep (msg : List UInt8) : Nat × Nat → Nat × Nat → Prop where
  | label {here k : Nat} {label : Text} (h : Label msg here label)
      (hfit : label.length + k + 2 ≤ RR_NAMESIZE) :
      NameStep msg (here, k) (here + 1 + label.length, k + label.length + 1)
  | jump {here k p : Nat} (h : Jump msg here p) (hk : k < RR_NAMESIZE) :
      NameStep msg (here, k) (p, k)

/-- The places the walk for a name at `here` comes to. -/
def Reaches (msg : List UInt8) (here k : Nat) (c : Nat × Nat) : Prop :=
  ReflTransGen (NameStep msg) (here, k) c

/-- A place from which pointers lead back to it. -/
def OnCycle (msg : List UInt8) (p : Nat) : Prop := TransGen (Jump msg) p p

/-- The name at a place with `k` characters before it: its text, and the
place behind it. -/
inductive NameAt (msg : List UInt8) : Nat → Nat → Text → Nat → Prop where
  | zero {k here : Nat} (h : msg[here]? = some 0) : NameAt msg k here [] (here + 1)
  | label {k here next : Nat} {label text : Text} (h : Label msg here label)
      (hfit : label.length + k + 2 ≤ RR_NAMESIZE)
      (hrest : NameAt msg (k + label.length + 1) (here + 1 + label.length) text next) :
      NameAt msg k here (label ++ dot :: text) next
  | jump {k here p next : Nat} {text : Text} (h : Jump msg here p)
      (hrest : NameAt msg k p text next) : NameAt msg k here text (here + 2)

/-! ## §3 One round -/

theorem and_c0_iff (b : UInt8) : b &&& 0xC0 = 0 ↔ b.toNat < 64 := by
  have key : ∀ n : Fin 256, UInt8.ofFin n &&& 0xC0 = 0 ↔ n.val < 64 := by decide +kernel
  exact key b.toFin

section

variable {msg : List UInt8} {here : Nat} {string : Text}

theorem nameEnd_eq (hk : string.length < RR_NAMESIZE) :
    nameEnd here string = .ok (string.length, here + 1, string) := by
  have hfit : string.length + [(0 : UInt8)].length ≤ RR_NAMESIZE := hk
  rw [nameEnd, putName, if_pos hfit]
  rfl

theorem nameLoop_outside (h : msg.length ≤ here) (fuel strlen : Nat) (string : Text) :
    nameLoop msg (fuel + 1) strlen here string = .error .outOfMessage := by
  rw [nameLoop, byteAt, List.getElem?_eq_none h]
  rfl

theorem nameLoop_zero (h : msg[here]? = some 0) (hk : string.length < RR_NAMESIZE)
    (fuel strlen : Nat) :
    nameLoop msg (fuel + 1) strlen here string = .ok (string.length, here + 1, string) := by
  rw [nameLoop, byteAt, h]
  simp only [bind, Except.bind, if_true]
  exact nameEnd_eq hk

theorem Label.length_pos {label : Text} (h : Label msg here label) : 0 < label.length :=
  List.length_pos_iff.mpr h.ne_nil

/-- The length byte of a label, and the label inside the message. -/
theorem Label.spec {label : Text} (h : Label msg here label) :
    UInt8.ofNat label.length ≠ 0 ∧ UInt8.ofNat label.length &&& 0xC0 = 0 ∧
      (UInt8.ofNat label.length).toNat = label.length ∧
      here + 1 + label.length ≤ msg.length ∧
      (msg.drop (here + 1)).take label.length = label := by
  have hpos := h.length_pos
  have hlt := h.lt
  have hbyte : (UInt8.ofNat label.length).toNat = label.length := by
    rw [UInt8.toNat_ofNat']
    omega
  have hlen := h.text.length_le
  rw [List.length_drop] at hlen
  refine ⟨?_, (and_c0_iff _).mpr (by omega), hbyte, by omega, ?_⟩
  · intro hzero
    rw [hzero] at hbyte
    change 0 = _ at hbyte
    omega
  · exact (List.prefix_iff_eq_take.mp h.text).symm

theorem nameLoop_label {label : Text} (h : Label msg here label)
    (hfit : label.length + string.length + 2 ≤ RR_NAMESIZE) (fuel : Nat) :
    nameLoop msg (fuel + 1) RR_NAMESIZE here string =
      nameLoop msg fuel RR_NAMESIZE (here + 1 + label.length) (string ++ (label ++ [dot])) := by
  obtain ⟨hne, hand, hbyte, hin, htake⟩ := h.spec
  have hpos := h.length_pos
  have hmore : ¬ msg.length ≤ here + 1 := by omega
  have hroom : ¬ (msg.length < here + 1 + label.length ∨
      RR_NAMESIZE < label.length + string.length + 2) := by omega
  have hput : string.length + (label ++ [dot]).length ≤ RR_NAMESIZE := by
    rw [List.length_append, List.length_singleton]
    omega
  rw [nameLoop, byteAt, h.byte]
  simp only [bind, Except.bind, if_neg hne, if_neg hmore, hand, hbyte, if_neg hroom, ne_eq,
    not_true_eq_false, if_false, bytesAt, if_pos hin, htake, putName, if_pos hput]

theorem nameLoop_jump {p : Nat} (h : Jump msg here p) (hk : string.length < RR_NAMESIZE)
    (fuel strlen : Nat) :
    nameLoop msg (fuel + 1) strlen here string = (do
      let (k, _, string) ← nameLoop msg fuel RR_NAMESIZE p string
      if k < 0 then pure (-1, here + 1, string) else nameEnd (here + 1) string) := by
  obtain ⟨len, low, hlen, hand, hlow, rfl, hin, hself⟩ := h
  have hne : len ≠ 0 := by
    rintro rfl
    exact hand rfl
  have hmore : ¬ msg.length ≤ here + 1 :=
    Nat.not_le_of_lt (List.getElem?_eq_some_iff.mp hlow).1
  have htest : ¬ (msg.length ≤ pointerOffset len low ∨ RR_NAMESIZE ≤ string.length) := by omega
  rw [nameLoop, byteAt, hlen]
  simp only [bind, Except.bind, if_neg hne, if_neg hmore, ne_eq, hand, not_false_eq_true, if_true,
    byteAt, hlow, if_neg (Nat.not_le_of_lt hin), if_neg hself, if_neg htest]

/-- A length byte below 64 that is not 0, with as many bytes behind it. -/
theorem label_of_byte {len : UInt8} (hlen : msg[here]? = some len) (hzero : len ≠ 0)
    (hand : len &&& 0xC0 = 0) (hin : here + 1 + len.toNat ≤ msg.length) :
    ((msg.drop (here + 1)).take len.toNat).length = len.toNat ∧
      Label msg here ((msg.drop (here + 1)).take len.toNat) := by
  have htake : ((msg.drop (here + 1)).take len.toNat).length = len.toNat := by
    rw [List.length_take, List.length_drop]
    omega
  have hlt := (and_c0_iff len).mp hand
  have hpos : 0 < len.toNat := Nat.pos_of_ne_zero fun h => hzero (UInt8.toNat_inj.mp h)
  constructor
  · exact htake
  · exact
      { byte := by rw [htake, UInt8.ofNat_toNat, hlen]
        ne_nil := List.ne_nil_of_length_pos (by omega)
        lt := by omega
        text := List.take_prefix _ _ }

/-- What a round can do: leave the message, end the name, take a step of
the walk, or give up. -/
theorem nameLoop_cases (msg : List UInt8) (here : Nat) (string : Text) :
    msg.length ≤ here ∨ msg[here]? = some 0 ∨
    (∃ label, Label msg here label ∧ label.length + string.length + 2 ≤ RR_NAMESIZE) ∨
    (∃ p, Jump msg here p) ∨
    ∃ r, r < 0 ∧ ∀ fuel,
      nameLoop msg (fuel + 1) RR_NAMESIZE here string = .ok (r, here + 1, string) := by
  by_cases hout : msg.length ≤ here
  · exact .inl hout
  obtain ⟨len, hlen⟩ : ∃ len, msg[here]? = some len :=
    ⟨_, List.getElem?_eq_getElem (Nat.lt_of_not_le hout)⟩
  by_cases hzero : len = 0
  · exact .inr (.inl (hzero ▸ hlen))
  by_cases hmore : msg.length ≤ here + 1
  · refine .inr (.inr (.inr (.inr ⟨-1, by decide, fun fuel => ?_⟩)))
    rw [nameLoop, byteAt, hlen]
    simp [bind, Except.bind, hzero, hmore, pure, Except.pure]
  by_cases hand : len &&& 0xC0 = 0
  · by_cases hroom : msg.length < here + 1 + len.toNat ∨
        RR_NAMESIZE < len.toNat + string.length + 2
    · refine .inr (.inr (.inr (.inr ⟨-1, by decide, fun fuel => ?_⟩)))
      rw [nameLoop, byteAt, hlen]
      simp only [bind, Except.bind, if_neg hzero, if_neg hmore, hand, ne_eq, not_true_eq_false,
        if_false, if_pos hroom]
      rfl
    · obtain ⟨htake, hlabel⟩ := label_of_byte hlen hzero hand (by omega)
      exact .inr (.inr (.inl ⟨_, hlabel, by omega⟩))
  · obtain ⟨low, hlow⟩ : ∃ low, msg[here + 1]? = some low :=
      ⟨_, List.getElem?_eq_getElem (Nat.lt_of_not_le hmore)⟩
    by_cases hin : msg.length ≤ pointerOffset len low
    · refine .inr (.inr (.inr (.inr ⟨-1, by decide, fun fuel => ?_⟩)))
      rw [nameLoop, byteAt, hlen]
      simp [bind, Except.bind, hzero, hmore, hand, byteAt, hlow, hin, pure, Except.pure]
    · by_cases hself : pointerOffset len low = here
      · refine .inr (.inr (.inr (.inr ⟨-2, by decide, fun fuel => ?_⟩)))
        rw [nameLoop, byteAt, hlen]
        simp only [bind, Except.bind, if_neg hzero, if_neg hmore, ne_eq, hand, not_false_eq_true,
          if_true, byteAt, hlow, if_neg hin, if_pos hself]
        rfl
      · exact .inr (.inr (.inr (.inl ⟨_, len, low, hlen, hand, hlow, rfl, by omega, hself⟩)))

end

/-- What the reader returns: a name that stands in the message, behind the
characters there were, or a failure. The text fits with its NUL. -/
theorem nameLoop_ok {msg : List UInt8} {fuel here : Nat} {string : Text}
    (hk : string.length < RR_NAMESIZE) {k : Int} {next : Nat} {s : Text}
    (h : nameLoop msg fuel RR_NAMESIZE here string = .ok (k, next, s)) :
    s.length < RR_NAMESIZE ∧ (k < 0 ∨
      k = s.length ∧ ∃ text, NameAt msg string.length here text next ∧ s = string ++ text) := by
  induction fuel generalizing here string k next s with
  | zero => cases h
  | succ fuel ih =>
    rcases nameLoop_cases msg here string with
      hout | hzero | ⟨label, hlabel, hfit⟩ | ⟨p, hjump⟩ | ⟨r, hr, hstuck⟩
    · rw [nameLoop_outside hout] at h
      cases h
    · rw [nameLoop_zero hzero hk] at h
      cases h
      exact ⟨hk, .inr ⟨rfl, [], .zero hzero, (List.append_nil _).symm⟩⟩
    · rw [nameLoop_label hlabel hfit] at h
      have hlen : (string ++ (label ++ [dot])).length = string.length + label.length + 1 := by
        simp [Nat.add_assoc]
      obtain ⟨hs, hname⟩ := ih (by omega) h
      refine ⟨hs, hname.imp_right fun ⟨hks, text, hat, htext⟩ =>
        ⟨hks, label ++ dot :: text, ?_, ?_⟩⟩
      · exact .label hlabel hfit (hlen ▸ hat)
      · simp [htext]
    · rw [nameLoop_jump hjump hk] at h
      obtain ⟨⟨k', next', s'⟩, hcall, h⟩ := except_bind_eq_ok.mp h
      obtain ⟨hs', hname⟩ := ih hk hcall
      by_cases hneg : k' < 0
      · simp only [if_pos hneg] at h
        cases h
        exact ⟨hs', .inl (by decide)⟩
      · simp only [if_neg hneg] at h
        rw [nameEnd_eq hs'] at h
        cases h
        obtain ⟨-, text, hat, htext⟩ := hname.resolve_left hneg
        exact ⟨hs', .inr ⟨rfl, text, .jump hjump hat, htext⟩⟩
    · rw [hstuck] at h
      cases h
      exact ⟨hk, .inl hr⟩

/-! ## §4 Where the walk ends -/

/-- A result of the whole walk is that of its first round and of the walk
from the next place: it fails only if that walk fails. -/
theorem nameLoop_step {msg : List UInt8} {here : Nat} {string : Text} {c : Nat × Nat}
    (h : NameStep msg (here, string.length) c) :
    ∃ string', string'.length = c.2 ∧
      ∃ back : Int × Nat × Text → Except DnsFault (Int × Nat × Text),
      ∀ fuel, nameLoop msg (fuel + 1) RR_NAMESIZE here string =
          nameLoop msg fuel RR_NAMESIZE c.1 string' >>= back ∧
        ∀ r, nameLoop msg fuel RR_NAMESIZE c.1 string' = .ok r → ∃ r', back r = .ok r' := by
  cases h with
  | @label _ _ label h hfit =>
    refine ⟨string ++ (label ++ [dot]), by simp [Nat.add_assoc], .ok, fun fuel => ⟨?_, ?_⟩⟩
    · rw [nameLoop_label h hfit]
      cases nameLoop msg fuel RR_NAMESIZE (here + 1 + label.length)
        (string ++ (label ++ [dot])) <;> rfl
    · exact fun r _ => ⟨r, rfl⟩
  | @jump _ _ p h hk =>
    refine ⟨string, rfl, _, fun fuel => ⟨nameLoop_jump h hk fuel RR_NAMESIZE, ?_⟩⟩
    rintro ⟨k, next, s⟩ hcall
    have hs := (nameLoop_ok hk hcall).1
    by_cases hneg : k < 0
    · exact ⟨_, if_pos hneg⟩
    · exact ⟨_, (if_neg hneg).trans (nameEnd_eq hs)⟩

/-- The reader runs out of any number of rounds. -/
def Endless (msg : List UInt8) (c : Nat × Nat) : Prop :=
  ∀ (fuel : Nat) (string : Text), string.length = c.2 →
    nameLoop msg fuel RR_NAMESIZE c.1 string = .error .endless

theorem Endless.of_step {msg : List UInt8} {c c' : Nat × Nat} (h : NameStep msg c c')
    (hend : Endless msg c') : Endless msg c := by
  obtain ⟨here, k⟩ := c
  rintro (_ | fuel) string rfl
  · rfl
  · obtain ⟨string', hlen, back, hround⟩ := nameLoop_step h
    rw [(hround fuel).1, hend fuel string' hlen]
    rfl

/-- On a cycle of pointers every round leads to the next. -/
theorem endless_of_cycle {msg : List UInt8} {p k : Nat} (h : OnCycle msg p) (hk : k < RR_NAMESIZE) :
    Endless msg (p, k) := by
  intro fuel string hlen
  induction fuel generalizing p with
  | zero => rfl
  | succ fuel ih =>
    obtain ⟨q, hjump, hcycle⟩ := exists_next_of_cycle h
    rw [nameLoop_jump hjump (by omega), ih hcycle hlen]
    rfl

theorem NameStep.lt {msg : List UInt8} {c c' : Nat × Nat} (h : NameStep msg c c') :
    c.2 ≤ c'.2 ∧ c'.2 < RR_NAMESIZE ∧ c'.1 ≤ msg.length := by
  cases h with
  | @label here k label h hfit =>
    have hin := h.spec.2.2.2.1
    simp only []
    omega
  | jump h hk =>
    obtain ⟨len, low, -, -, -, -, hin, -⟩ := h
    simp only []
    omega

/-- A step that reads no character follows a pointer. -/
theorem NameStep.jump_of_eq {msg : List UInt8} {c c' : Nat × Nat} (h : NameStep msg c c')
    (hk : c'.2 = c.2) : Jump msg c.1 c'.1 := by
  cases h with
  | @label here k label h hfit =>
    simp only [] at hk
    omega
  | jump h _ => exact h

theorem Reaches.lt {msg : List UInt8} {here k : Nat} {c : Nat × Nat} (h : Reaches msg here k c)
    (hk : k < RR_NAMESIZE) : c.2 < RR_NAMESIZE ∧ c.1 ≤ max here msg.length := by
  induction h with
  | refl => exact ⟨hk, Nat.le_max_left _ _⟩
  | tail _ hstep _ =>
    obtain ⟨-, hlt, hin⟩ := hstep.lt
    exact ⟨hlt, by omega⟩

theorem transGen_nameStep {msg : List UInt8} {c c' : Nat × Nat} (h : TransGen (NameStep msg) c c') :
    c.2 ≤ c'.2 ∧ (c'.2 = c.2 → TransGen (Jump msg) c.1 c'.1) := by
  induction h with
  | single hstep => exact ⟨hstep.lt.1, fun hk => .single (hstep.jump_of_eq hk)⟩
  | tail _ hstep ih =>
    have hle := hstep.lt.1
    refine ⟨by omega, fun hk => ?_⟩
    exact .tail (ih.2 (by omega)) (hstep.jump_of_eq (by omega))

/-- A walk that comes to no cycle of pointers ends. -/
theorem acc_of_no_cycle {msg : List UInt8} {here k : Nat} (hk : k < RR_NAMESIZE)
    (h : ∀ c, Reaches msg here k c → ¬ OnCycle msg c.1) :
    Acc (fun c c' => NameStep msg c' c) (here, k) := by
  apply acc_of_acyclic
  · apply ((Set.finite_le_nat (max here msg.length)).prod (Set.finite_lt_nat RR_NAMESIZE)).subset
    intro c hc
    exact ⟨(Reaches.lt hc hk).2, (Reaches.lt hc hk).1⟩
  · intro c hc hcycle
    exact h c hc ((transGen_nameStep hcycle).2 rfl)

/-- The reader ends, with a result if the walk stays inside the message. -/
theorem nameLoop_ends {msg : List UInt8} {c : Nat × Nat}
    (hacc : Acc (fun c c' => NameStep msg c' c) c) {string : Text} (hlen : string.length = c.2)
    (hk : c.2 < RR_NAMESIZE) :
    ∃ fuel, nameLoop msg fuel RR_NAMESIZE c.1 string ≠ .error .endless ∧
      ((∀ c', ReflTransGen (NameStep msg) c c' → c'.1 < msg.length) →
        ∃ r, nameLoop msg fuel RR_NAMESIZE c.1 string = .ok r) := by
  induction hacc generalizing string with
  | intro c _ ih =>
    obtain ⟨here, k⟩ := c
    simp only [] at hlen hk ⊢
    subst hlen
    -- a step of the walk: the rounds of the rest, and one more
    have hstep : ∀ c', NameStep msg (here, string.length) c' →
        ∃ fuel, nameLoop msg fuel RR_NAMESIZE here string ≠ .error .endless ∧
          ((∀ d, ReflTransGen (NameStep msg) (here, string.length) d → d.1 < msg.length) →
            ∃ r, nameLoop msg fuel RR_NAMESIZE here string = .ok r) := by
      intro c' h
      obtain ⟨string', hlen', back, hround⟩ := nameLoop_step h
      obtain ⟨fuel, hne, hok⟩ := ih c' h hlen' h.lt.2.1
      obtain ⟨hcode, hback⟩ := hround fuel
      refine ⟨fuel + 1, ?_, fun hin => ?_⟩
      · rw [hcode]
        cases hrest : nameLoop msg fuel RR_NAMESIZE c'.1 string' with
        | error f =>
          rw [hrest] at hne
          exact fun he => hne he
        | ok r =>
          obtain ⟨r', hr'⟩ := hback r hrest
          simp [bind, Except.bind, hr']
      · obtain ⟨r, hr⟩ := hok fun d hd => hin d (.head h hd)
        obtain ⟨r', hr'⟩ := hback r hr
        exact ⟨r', by rw [hcode, hr]; exact hr'⟩
    rcases nameLoop_cases msg here string with
      hout | hzero | ⟨label, hlabel, hfit⟩ | ⟨p, hjump⟩ | ⟨r, hr, hstuck⟩
    · refine ⟨1, by simp [nameLoop_outside hout], fun hin => ?_⟩
      have hlt := hin _ .refl
      simp only [] at hlt
      omega
    · exact ⟨1, by simp [nameLoop_zero hzero hk], fun _ => ⟨_, nameLoop_zero hzero hk 0 _⟩⟩
    · exact hstep _ (.label hlabel hfit)
    · exact hstep _ (.jump hjump hk)
    · exact ⟨1, by simp [hstuck], fun _ => ⟨_, hstuck 0⟩⟩

theorem Endless.of_reaches {msg : List UInt8} {c c' : Nat × Nat}
    (h : ReflTransGen (NameStep msg) c c') (hend : Endless msg c') : Endless msg c := by
  induction h using ReflTransGen.head_induction_on with
  | refl => exact hend
  | head hstep _ ih => exact .of_step hstep ih

theorem not_nameStep_outside {msg : List UInt8} {here k : Nat} (h : msg.length ≤ here)
    (c : Nat × Nat) : ¬ NameStep msg (here, k) c := by
  have hnone := List.getElem?_eq_none h
  intro hstep
  cases hstep with
  | label hlabel =>
    have hbyte := hlabel.byte
    simp [hnone] at hbyte
  | jump hjump =>
    obtain ⟨len, low, hlen, -⟩ := hjump
    simp [hnone] at hlen

theorem getObjectname_inside {msg : List UInt8} {here : Nat} (h : here < msg.length) (fuel : Nat) :
    getObjectname msg fuel RR_NAMESIZE here [] = nameLoop msg fuel RR_NAMESIZE here [] := by
  have htest : ¬ (msg.length ≤ here ∨ RR_NAMESIZE ≤ ([] : Text).length) := by
    simp [RR_NAMESIZE, h]
  rw [getObjectname, if_neg htest]

theorem getObjectname_outside {msg : List UInt8} {here : Nat} (h : msg.length ≤ here) (fuel : Nat) :
    getObjectname msg fuel RR_NAMESIZE here [] = .ok (-1, here, []) := by
  rw [getObjectname, if_pos (.inl h)]

/-- The reader ends exactly if the name comes to no pointers that lead back
to each other. -/
theorem getObjectname_ends_iff (msg : List UInt8) (here : Nat) :
    (∃ fuel, getObjectname msg fuel RR_NAMESIZE here [] ≠ .error .endless) ↔
      ∀ c, Reaches msg here 0 c → ¬ OnCycle msg c.1 := by
  by_cases hin : here < msg.length
  · simp only [getObjectname_inside hin]
    constructor
    · rintro ⟨fuel, hends⟩ c hc hcycle
      have hk := (Reaches.lt hc (by decide)).1
      exact hends (Endless.of_reaches hc (endless_of_cycle hcycle hk) fuel [] rfl)
    · intro h
      have hk : 0 < RR_NAMESIZE := by decide
      obtain ⟨fuel, hends, -⟩ := nameLoop_ends (acc_of_no_cycle hk h)
        (rfl : ([] : Text).length = 0) hk
      exact ⟨fuel, hends⟩
  · have hout := Nat.le_of_not_lt hin
    refine iff_of_true ⟨0, by simp [getObjectname_outside hout]⟩ ?_
    intro c hc hcycle
    rcases ReflTransGen.cases_head hc with rfl | ⟨c', hstep, -⟩
    · obtain ⟨q, hjump, -⟩ := exists_next_of_cycle hcycle
      exact not_nameStep_outside hout _ (.jump (k := 0) hjump (by decide))
    · exact not_nameStep_outside hout _ hstep

/-- A header, and two pointers to each other. -/
def circling : List UInt8 := List.replicate 12 0 ++ [0xC0, 14, 0xC0, 12]

theorem getObjectname_circling :
    ¬ ∀ (msg : List UInt8) (here : Nat), here < msg.length →
      ∃ fuel, getObjectname msg fuel RR_NAMESIZE here [] ≠ .error .endless := by
  intro h
  obtain ⟨fuel, hends⟩ := h circling 12 (by decide)
  rw [getObjectname_inside (by decide)] at hends
  have hjump : Jump circling 12 14 :=
    ⟨0xC0, 14, by decide, by decide, by decide, by decide, by decide, by decide⟩
  have hback : Jump circling 14 12 :=
    ⟨0xC0, 12, by decide, by decide, by decide, by decide, by decide, by decide⟩
  have hcycle : OnCycle circling 12 := .tail (.single hjump) hback
  exact hends (endless_of_cycle hcycle (by decide : 0 < RR_NAMESIZE) fuel [] rfl)

/-! ## §5 Where the walk stays inside -/

/-- The walk for the name at `here` stays inside the message and ends. -/
def Sound (msg : List UInt8) (here : Nat) : Prop :=
  ∀ c, Reaches msg here 0 c → c.1 < msg.length ∧ ¬ OnCycle msg c.1

theorem inside_of_ok {msg : List UInt8} {c c' : Nat × Nat}
    (h : ReflTransGen (NameStep msg) c c') {fuel : Nat} {string : Text} (hlen : string.length = c.2)
    {r : Int × Nat × Text} (hok : nameLoop msg fuel RR_NAMESIZE c.1 string = .ok r) :
    c'.1 < msg.length := by
  induction h using ReflTransGen.head_induction_on generalizing fuel string r with
  | refl =>
    by_contra hout
    cases fuel with
    | zero => cases hok
    | succ fuel => simp [nameLoop_outside (Nat.le_of_not_lt hout)] at hok
  | @head a b hstep _ ih =>
    cases fuel with
    | zero => cases hok
    | succ fuel =>
      obtain ⟨here, k⟩ := a
      simp only [] at hlen hok
      subst hlen
      obtain ⟨string', hlen', back, hround⟩ := nameLoop_step hstep
      rw [(hround fuel).1] at hok
      obtain ⟨r', hrest, -⟩ := except_bind_eq_ok.mp hok
      exact ih hlen' hrest

/-- The reader returns exactly if its walk is sound, or it starts outside. -/
theorem getObjectname_ok_iff (msg : List UInt8) (here : Nat) :
    (∃ fuel r, getObjectname msg fuel RR_NAMESIZE here [] = .ok r) ↔
      (here < msg.length → Sound msg here) := by
  by_cases hin : here < msg.length
  · simp only [getObjectname_inside hin, hin, true_implies]
    constructor
    · rintro ⟨fuel, r, hok⟩ c hc
      refine ⟨inside_of_ok hc rfl hok, fun hcycle => ?_⟩
      have hk := (Reaches.lt hc (by decide)).1
      have hend := Endless.of_reaches hc (endless_of_cycle hcycle hk) fuel [] rfl
      rw [hok] at hend
      cases hend
    · intro h
      have hk : 0 < RR_NAMESIZE := by decide
      obtain ⟨fuel, -, hok⟩ := nameLoop_ends (acc_of_no_cycle hk fun c hc => (h c hc).2)
        (rfl : ([] : Text).length = 0) hk
      exact ⟨fuel, hok fun c hc => (h c hc).1⟩
  · simp only [getObjectname_outside (Nat.le_of_not_lt hin), hin, false_implies, iff_true]
    exact ⟨0, _, rfl⟩

/-- With more rounds the result is the same. -/
theorem nameLoop_mono {msg : List UInt8} {fuel here : Nat} {string : Text}
    (hk : string.length < RR_NAMESIZE)
    (h : nameLoop msg fuel RR_NAMESIZE here string ≠ .error .endless) {fuel' : Nat}
    (hle : fuel ≤ fuel') : nameLoop msg fuel' RR_NAMESIZE here string =
      nameLoop msg fuel RR_NAMESIZE here string := by
  induction fuel generalizing here string fuel' with
  | zero => exact absurd rfl h
  | succ fuel ih =>
    obtain ⟨fuel', rfl⟩ : ∃ n, fuel' = n + 1 := ⟨fuel' - 1, by omega⟩
    rcases nameLoop_cases msg here string with
      hout | hzero | ⟨label, hlabel, hfit⟩ | ⟨p, hjump⟩ | ⟨r, hr, hstuck⟩
    · rw [nameLoop_outside hout, nameLoop_outside hout]
    · rw [nameLoop_zero hzero hk, nameLoop_zero hzero hk]
    · rw [nameLoop_label hlabel hfit] at h ⊢
      rw [nameLoop_label hlabel hfit]
      refine ih ?_ h (by omega)
      simp only [List.length_append, List.length_singleton]
      omega
    · rw [nameLoop_jump hjump hk] at h ⊢
      rw [nameLoop_jump hjump hk]
      have hcall : nameLoop msg fuel RR_NAMESIZE p string ≠ .error .endless := by
        intro he
        rw [he] at h
        exact h rfl
      rw [ih hk hcall (by omega)]
    · rw [hstuck, hstuck]

theorem getObjectname_mono {msg : List UInt8} {fuel here : Nat}
    (h : getObjectname msg fuel RR_NAMESIZE here [] ≠ .error .endless) {fuel' : Nat}
    (hle : fuel ≤ fuel') : getObjectname msg fuel' RR_NAMESIZE here [] =
      getObjectname msg fuel RR_NAMESIZE here [] := by
  by_cases hin : here < msg.length
  · rw [getObjectname_inside hin] at h ⊢
    rw [getObjectname_inside hin]
    exact nameLoop_mono (by decide) h hle
  · rw [getObjectname_outside (Nat.le_of_not_lt hin), getObjectname_outside (Nat.le_of_not_lt hin)]

/-- A name in the message is read, whatever stands in `string` before it. -/
theorem nameLoop_nameAt {msg : List UInt8} {k here next : Nat} {text : Text}
    (h : NameAt msg k here text next) (hk : k < RR_NAMESIZE) {string : Text}
    (hlen : string.length = k) :
    ∃ n, ∀ fuel, n ≤ fuel → nameLoop msg fuel RR_NAMESIZE here string =
      .ok ((string ++ text).length, next, string ++ text) := by
  induction h generalizing string with
  | zero hzero =>
    refine ⟨1, fun fuel hfuel => ?_⟩
    obtain ⟨fuel, rfl⟩ : ∃ n, fuel = n + 1 := ⟨fuel - 1, by omega⟩
    rw [nameLoop_zero hzero (by omega), List.append_nil]
  | @label k here next label text hlabel hfit _ ih =>
    have hlen' : (string ++ (label ++ [dot])).length = k + label.length + 1 := by
      simp [hlen, Nat.add_assoc]
    obtain ⟨n, hn⟩ := ih (by omega) hlen'
    refine ⟨n + 1, fun fuel hfuel => ?_⟩
    obtain ⟨fuel, rfl⟩ : ∃ n, fuel = n + 1 := ⟨fuel - 1, by omega⟩
    rw [nameLoop_label hlabel (by omega), hn fuel (by omega)]
    simp [List.append_assoc]
  | @jump k here p next text hjump _ ih =>
    obtain ⟨n, hn⟩ := ih hk hlen
    refine ⟨n + 1, fun fuel hfuel => ?_⟩
    obtain ⟨fuel, rfl⟩ : ∃ n, fuel = n + 1 := ⟨fuel - 1, by omega⟩
    have hrest := hn fuel (by omega)
    have hs := (nameLoop_ok (by omega) hrest).1
    have hneg : ¬ (((string ++ text).length : Nat) : Int) < 0 := by omega
    rw [nameLoop_jump hjump (by omega), hrest]
    simp only [bind, Except.bind, if_neg hneg]
    exact nameEnd_eq hs

theorem NameAt.inside {msg : List UInt8} {k here next : Nat} {text : Text}
    (h : NameAt msg k here text next) : here < msg.length := by
  cases h with
  | zero hzero => exact (List.getElem?_eq_some_iff.mp hzero).1
  | label hlabel => exact (List.getElem?_eq_some_iff.mp hlabel.byte).1
  | jump hjump =>
    obtain ⟨len, low, hlen, -⟩ := hjump
    exact (List.getElem?_eq_some_iff.mp hlen).1

/-- A name is what the reader returns, in any number of rounds that lets it
end. -/
theorem getObjectname_nameAt {msg : List UInt8} {here next : Nat} {text : Text}
    (h : NameAt msg 0 here text next) :
    (∃ n, ∀ fuel, n ≤ fuel →
      getObjectname msg fuel RR_NAMESIZE here [] = .ok (text.length, next, text)) ∧
    ∀ fuel r, getObjectname msg fuel RR_NAMESIZE here [] = .ok r →
      r = ((text.length : Int), next, text) := by
  have hk : 0 < RR_NAMESIZE := by decide
  obtain ⟨n, hn⟩ := nameLoop_nameAt h hk (rfl : ([] : Text).length = 0)
  simp only [getObjectname_inside h.inside]
  refine ⟨⟨n, hn⟩, fun fuel r hr => ?_⟩
  have hends : nameLoop msg fuel RR_NAMESIZE here [] ≠ .error .endless := by simp [hr]
  have hmono := nameLoop_mono (by decide) hends (Nat.le_max_left fuel n)
  rw [hn _ (Nat.le_max_right fuel n), hr] at hmono
  exact (Except.ok.inj hmono).symm

/-- What is returned for a message: a name, or a failure. -/
theorem getObjectname_ok {msg : List UInt8} {fuel here : Nat} {k : Int} {next : Nat} {s : Text}
    (h : getObjectname msg fuel RR_NAMESIZE here [] = .ok (k, next, s)) :
    k < 0 ∨ (k = s.length ∧ s.length < RR_NAMESIZE ∧ NameAt msg 0 here s next) := by
  by_cases hin : here < msg.length
  · rw [getObjectname_inside hin] at h
    obtain ⟨hs, hname⟩ := nameLoop_ok (by decide) h
    refine hname.imp_right fun ⟨hk, text, hat, htext⟩ => ⟨hk, hs, ?_⟩
    rw [htext]
    exact hat
  · rw [getObjectname_outside (Nat.le_of_not_lt hin)] at h
    cases h
    exact .inl (by decide)

end Nanio.Dns
