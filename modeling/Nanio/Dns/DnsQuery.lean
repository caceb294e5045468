/-
Nanio.Dns.DnsQuery — `mk_dns_query` of `oi_dns.c`, and its question read
back.

The host name is copied with one byte of room before it, and the length of
each label is written over the dot before it (`mkDnsQuery_eq`). Nothing is
tested on the way: not the size of the buffer, not the length of a label,
not that there is one. Labels are read back exactly if they have one to 63
characters (§3); a dot at the end of the host is an empty label more, with
type and class one byte too far (§4).
-/
import Nanio.Dns.GetObjectname
import Nanio.Lib.Bytes

namespace Nanio.Dns

open Nanio.Lib

/-! ## §1 The code -/

/-- Bytes written to the buffer from index `i` on. -/
def putAt (buf : List UInt8) (i : Nat) (bytes : List UInt8) : Except DnsFault (List UInt8) :=
  if i + bytes.length ≤ buf.length then .ok (overwrite buf i bytes) else .error .overflow

/-- The loop over the copied name, with `left` characters up to `end`, `i`
of the label before `p`; and `p[-i-1] = i` behind it. -/
def labelsLoop : Nat → Nat → Nat → List UInt8 → Except DnsFault (List UInt8)
  | 0, p, i, buf => putAt buf (p - i - 1) [UInt8.ofNat i]
  | left + 1, p, i, buf => do
    if (← byteAt buf p) ≠ dot then
      if 2 ^ 31 ≤ i + 1 then .error .intOverflow else labelsLoop left (p + 1) (i + 1) buf
    else do
      let buf ← putAt buf (p - i - 1) [UInt8.ofNat i]
      labelsLoop left (p + 1) 0 buf

/-- `sizeof(dns_query_header_t)` -/
def headerSize : Nat := 12

/-- `mk_dns_query` for a buffer of `size` bytes: what it returns, and the
buffer. The `id` is in the order of the host, the other fields are not. -/
def mkDnsQuery (size : Nat) (domain : Text) : Except DnsFault (Int × List UInt8) := do
  let buf := List.replicate size 0
  let buf ← putAt buf 0 [1, 0, 1, 0, 0, 1, 0, 0]
  let p := headerSize + 1
  let buf ← putAt buf p domain
  let buf ← labelsLoop domain.length p 0 buf
  let buf ← putAt buf (p + domain.length + 1) [0, 1, 0, 1]
  pure (toInt (headerSize + 4 + domain.length + 2 : Nat), buf)

/-! ## §2 The message -/

/-- Labels with a length byte before each. -/
def labelBytes (labels : List Text) : List UInt8 :=
  labels.flatMap fun l => UInt8.ofNat l.length :: l

theorem length_labelBytes (labels : List Text) :
    (labelBytes labels).length = (terminated dot labels).length := by
  induction labels with
  | nil => rfl
  | cons l labels ih =>
    have hbytes : labelBytes (l :: labels) = UInt8.ofNat l.length :: l ++ labelBytes labels := rfl
    have htext : terminated dot (l :: labels) = l ++ [dot] ++ terminated dot labels := rfl
    rw [hbytes, htext]
    simp only [List.length_append, List.length_cons, List.length_nil, ih]

theorem putAt_middle (before after : List UInt8) {old bytes : List UInt8}
    (h : old.length = bytes.length) :
    putAt (before ++ (old ++ after)) before.length bytes = .ok (before ++ (bytes ++ after)) := by
  have hin : before.length + bytes.length ≤ (before ++ (old ++ after)).length := by
    simp only [List.length_append]
    omega
  rw [putAt, if_pos hin, overwrite_middle before after h]

theorem putAt_byte (before after : List UInt8) (x b : UInt8) :
    putAt (before ++ ([x] ++ after)) before.length [b] = .ok (before ++ ([b] ++ after)) := by
  have hsame : [x].length = [b].length := rfl
  exact putAt_middle before after hsame

theorem putAt_zeros (before bytes after : List UInt8) :
    putAt (before ++ (List.replicate bytes.length 0 ++ after)) before.length bytes =
      .ok (before ++ (bytes ++ after)) :=
  putAt_middle before after List.length_replicate

theorem byteAt_middle (before : List UInt8) (c : UInt8) (after : List UInt8) :
    byteAt (before ++ c :: after) before.length = .ok c := by
  simp [byteAt]

/-- Labels whose length is an `int`. -/
def IntLabels (domain : Text) : Prop := ∀ l ∈ domain.splitOn dot, l.length < 2 ^ 31

instance (domain : Text) : Decidable (IntLabels domain) :=
  inferInstanceAs (Decidable (∀ l ∈ domain.splitOn dot, l.length < 2 ^ 31))

/-- A text without a dot is the start of a label. -/
theorem exists_label {cur : Text} (hcur : dot ∉ cur) (todo : Text) :
    ∃ l ∈ (cur ++ todo).splitOn dot, cur.length ≤ l.length := by
  rcases splitOn_cases dot (cur ++ todo) with ⟨-, hone⟩ | ⟨e, rest, -, htext, hmore⟩
  · exact ⟨cur ++ todo, by simp [hone], by simp⟩
  · refine ⟨e, by simp [hmore], ?_⟩
    by_contra hlt
    have hin := Nat.lt_of_not_le hlt
    have hdot : (cur ++ todo)[e.length]? = some dot := by simp [htext]
    rw [List.getElem?_append_left hin] at hdot
    exact hcur (List.mem_of_getElem? hdot)

section

variable (before : List UInt8) (x : UInt8) (cur rest : Text)

theorem place_eq : before.length + 1 + cur.length - cur.length - 1 = before.length := by
  omega

/-- The byte behind the label that is under way. -/
theorem byteAt_label (c : UInt8) :
    byteAt (before ++ ([x] ++ (cur ++ (c :: rest)))) (before.length + 1 + cur.length) = .ok c := by
  have hmiddle := byteAt_middle (before ++ ([x] ++ cur)) c rest
  have hindex : (before ++ ([x] ++ cur)).length = before.length + 1 + cur.length := by
    simp only [List.length_append, List.length_singleton]
    omega
  rw [hindex] at hmiddle
  simpa [List.append_assoc] using hmiddle

theorem labelsLoop_end :
    labelsLoop 0 (before.length + 1 + cur.length) cur.length (before ++ ([x] ++ (cur ++ rest))) =
      .ok (before ++ ([UInt8.ofNat cur.length] ++ (cur ++ rest))) := by
  rw [labelsLoop, place_eq, putAt_byte]

/-- A dot ends a label, and it is the place for the length of the next. -/
theorem labelsLoop_dot (left : Nat) :
    labelsLoop (left + 1) (before.length + 1 + cur.length) cur.length
        (before ++ ([x] ++ (cur ++ (dot :: rest)))) =
      labelsLoop left (before.length + 1 + cur.length + 1) 0
        (before ++ ([UInt8.ofNat cur.length] ++ (cur ++ (dot :: rest)))) := by
  rw [labelsLoop, byteAt_label, except_ok_bind, if_neg (not_not.mpr rfl), place_eq, putAt_byte,
    except_ok_bind]

theorem labelsLoop_char {c : UInt8} (hc : c ≠ dot) (left : Nat) :
    labelsLoop (left + 1) (before.length + 1 + cur.length) cur.length
        (before ++ ([x] ++ (cur ++ (c :: rest)))) =
      if 2 ^ 31 ≤ cur.length + 1 then .error .intOverflow
      else labelsLoop left (before.length + 1 + cur.length + 1) (cur.length + 1)
        (before ++ ([x] ++ (cur ++ (c :: rest)))) := by
  rw [labelsLoop, byteAt_label, except_ok_bind, if_pos hc]

end

/-- The loop makes length bytes of the dots: `before` is done, `x` the
place for the length of the label `cur` that is under way. -/
theorem labelsLoop_eq (todo : Text) (before : List UInt8) (x : UInt8) {cur : Text}
    (hcur : dot ∉ cur) (hint : cur.length < 2 ^ 31) (after : List UInt8) :
    labelsLoop todo.length (before.length + 1 + cur.length) cur.length
        (before ++ ([x] ++ (cur ++ (todo ++ after)))) =
      if IntLabels (cur ++ todo) then
        .ok (before ++ (labelBytes ((cur ++ todo).splitOn dot) ++ after))
      else .error .intOverflow := by
  induction todo generalizing before x cur with
  | nil =>
    have hone := List.splitOn_eq_singleton hcur
    have hlabels : IntLabels cur := by simpa [IntLabels, hone] using hint
    rw [List.append_nil, if_pos hlabels, hone]
    refine (labelsLoop_end before x cur after).trans ?_
    simp [labelBytes]
  | cons c todo ih =>
    by_cases hdot : c = dot
    · subst hdot
      have hrest := ih (before ++ (UInt8.ofNat cur.length :: cur)) dot
        (List.not_mem_nil (a := dot)) (by decide : ([] : Text).length < 2 ^ 31)
      have hsplit := List.splitOn_append_cons_self (a := dot) cur todo
      rw [List.splitOn_eq_singleton hcur] at hsplit
      have hlabels : IntLabels (cur ++ dot :: todo) ↔ IntLabels todo := by
        rw [IntLabels, hsplit, List.singleton_append, List.forall_mem_cons]
        exact and_iff_right hint
      have hindex : before.length + 1 + cur.length + 1 =
          (before ++ (UInt8.ofNat cur.length :: cur)).length + 1 + ([] : Text).length := by
        simp only [List.length_append, List.length_cons, List.length_nil]
        omega
      refine (labelsLoop_dot before x cur (todo ++ after) todo.length).trans ?_
      simp only [hindex, hlabels, hsplit]
      simpa [labelBytes, List.append_assoc] using hrest
    · have hcur' : dot ∉ cur ++ [c] := by
        rw [List.mem_append, List.mem_singleton, not_or]
        exact ⟨hcur, fun he => hdot he.symm⟩
      have hlen : (cur ++ [c]).length = cur.length + 1 := by simp
      refine (labelsLoop_char before x cur (todo ++ after) hdot todo.length).trans ?_
      by_cases hlong : 2 ^ 31 ≤ cur.length + 1
      · obtain ⟨l, hl, hle⟩ := exists_label hcur' todo
        have hnot : ¬ IntLabels (cur ++ c :: todo) := by
          intro hlabels
          rw [List.append_cons] at hlabels
          have hlt := hlabels l hl
          omega
        rw [if_pos hlong, if_neg hnot]
      · have hrest := ih before x hcur' (by omega)
        rw [if_neg hlong]
        simpa [List.append_assoc, Nat.add_assoc] using hrest

theorem length_putAt {buf : List UInt8} {i : Nat} {bytes buf' : List UInt8}
    (h : putAt buf i bytes = .ok buf') :
    i + bytes.length ≤ buf.length ∧ buf'.length = buf.length := by
  by_cases hin : i + bytes.length ≤ buf.length
  · rw [putAt, if_pos hin] at h
    obtain rfl := Except.ok.inj h
    rw [length_overwrite _ (by omega)]
    omega
  · rw [putAt, if_neg hin] at h
    cases h

theorem length_labelsLoop {left p i : Nat} {buf buf' : List UInt8}
    (h : labelsLoop left p i buf = .ok buf') : buf'.length = buf.length := by
  induction left generalizing p i buf with
  | zero => exact (length_putAt h).2
  | succ left ih =>
    rw [labelsLoop] at h
    obtain ⟨c, -, h⟩ := except_bind_eq_ok.mp h
    split at h
    · split at h
      · cases h
      · exact ih h
    · obtain ⟨buf₁, hput, h⟩ := except_bind_eq_ok.mp h
      exact (ih h).trans (length_putAt hput).2

/-- The fields of the header that are written, and the ones that stay 0. -/
def queryHeader : List UInt8 := [1, 0, 1, 0, 0, 1, 0, 0, 0, 0, 0, 0]

/-- The header, the labels, a zero byte, and type and class. -/
def queryMessage (domain : Text) : List UInt8 :=
  queryHeader ++ (labelBytes (domain.splitOn dot) ++ [0, 0, 1, 0, 1])

theorem length_queryMessage (domain : Text) :
    (queryMessage domain).length = domain.length + 18 := by
  have hlen := length_labelBytes (domain.splitOn dot)
  rw [(terminated_splitOn dot domain).1] at hlen
  simp only [queryMessage, queryHeader, List.length_append, List.length_cons,
    List.length_nil] at hlen ⊢
  omega

/-- The buffer with the header in it, in the pieces that are written next. -/
theorem putAt_header (domain : Text) (room : Nat) :
    putAt (List.replicate (domain.length + 18 + room) 0) 0 [1, 0, 1, 0, 0, 1, 0, 0] =
      .ok (queryHeader ++ ([0] ++ (List.replicate domain.length 0 ++
        ([0] ++ (List.replicate 4 0 ++ List.replicate room 0))))) := by
  have hzeros : List.replicate (domain.length + 18 + room) (0 : UInt8) =
      List.replicate 8 0 ++ (List.replicate 4 0 ++ ([0] ++ (List.replicate domain.length 0 ++
        ([0] ++ (List.replicate 4 0 ++ List.replicate room 0))))) := by
    have hone : [(0 : UInt8)] = List.replicate 1 0 := rfl
    simp only [hone, List.replicate_append_replicate]
    congr 1
    omega
  rw [hzeros]
  exact putAt_zeros [] [1, 0, 1, 0, 0, 1, 0, 0] _

/-- With room for it the message is built, at the start of the buffer. -/
theorem mkDnsQuery_eq {size : Nat} {domain : Text} (h : domain.length + 18 ≤ size) :
    mkDnsQuery size domain =
      if IntLabels domain then .ok (toInt (domain.length + 18 : Nat),
        queryMessage domain ++ List.replicate (size - (domain.length + 18)) 0)
      else .error .intOverflow := by
  obtain ⟨room, rfl⟩ := Nat.exists_eq_add_of_le h
  have hdomain := putAt_zeros (queryHeader ++ [0]) domain
    ([0] ++ (List.replicate 4 0 ++ List.replicate room 0))
  have hlabels := labelsLoop_eq domain queryHeader 0 (List.not_mem_nil (a := dot)) (by decide)
    ([0] ++ (List.replicate 4 0 ++ List.replicate room 0))
  have hfields := putAt_zeros (queryHeader ++ (labelBytes (domain.splitOn dot) ++ [0])) [0, 1, 0, 1]
    (List.replicate room 0)
  have hlen := length_labelBytes (domain.splitOn dot)
  rw [(terminated_splitOn dot domain).1, List.length_append, List.length_singleton] at hlen
  have hplace : (queryHeader ++ (labelBytes (domain.splitOn dot) ++ [0])).length =
      headerSize + 1 + domain.length + 1 := by
    simp only [List.length_append, hlen, queryHeader, headerSize, List.length_cons, List.length_nil]
    omega
  rw [hplace] at hfields
  rw [List.append_assoc, List.append_assoc] at hdomain
  simp only [List.append_assoc] at hfields
  change putAt _ (headerSize + 1) domain = _ at hdomain
  change labelsLoop domain.length (headerSize + 1) 0 (queryHeader ++ ([0] ++ (domain ++ _))) =
    if IntLabels domain then .ok (queryHeader ++ (labelBytes (domain.splitOn dot) ++ _)) else _
      at hlabels
  change putAt (_ ++ (_ ++ ([0] ++ (List.replicate 4 0 ++ _)))) _ _ = _ at hfields
  have hroom : domain.length + 18 + room - (domain.length + 18) = room :=
    Nat.add_sub_cancel_left _ _
  have hsize : headerSize + 4 + domain.length + 2 = domain.length + 18 := by
    simp only [headerSize]
    omega
  rw [mkDnsQuery, putAt_header]
  simp only [bind, Except.bind, hdomain, hlabels, hsize]
  by_cases hint : IntLabels domain
  · simp only [if_pos hint, hfields, hroom, queryMessage, List.append_assoc]
    rfl
  · simp only [if_neg hint]

/-- Without room for it something is written behind the buffer. -/
theorem mkDnsQuery_overflow {size : Nat} {domain : Text} {r : Int} {buf : List UInt8}
    (h : mkDnsQuery size domain = .ok (r, buf)) : domain.length + 18 ≤ size := by
  obtain ⟨buf₁, h₁, h⟩ := except_bind_eq_ok.mp h
  obtain ⟨buf₂, h₂, h⟩ := except_bind_eq_ok.mp h
  obtain ⟨buf₃, h₃, h⟩ := except_bind_eq_ok.mp h
  obtain ⟨buf₄, h₄, h⟩ := except_bind_eq_ok.mp h
  obtain ⟨hin, -⟩ := length_putAt h₄
  rw [length_labelsLoop h₃, (length_putAt h₂).2, (length_putAt h₁).2, List.length_replicate] at hin
  simp only [headerSize, List.length_cons, List.length_nil] at hin
  omega

/-! ## §3 Reading it back -/

theorem NameAt.first_dot {msg : List UInt8} {k here next : Nat} {text : Text}
    (h : NameAt msg k here text next) :
    text = [] ∨ ∃ label rest, text = label ++ dot :: rest ∧ label.length ≤ 63 := by
  induction h with
  | zero => exact .inl rfl
  | @label _ _ _ label text hlabel =>
    have hlt := hlabel.lt
    exact .inr ⟨label, text, rfl, by omega⟩
  | jump _ _ ih => exact ih

/-- A label with a length byte at the start of what is left. -/
theorem drop_label {msg : List UInt8} {here : Nat} {l : Text} {rest : List UInt8}
    (hmsg : msg.drop here = UInt8.ofNat l.length :: (l ++ rest)) :
    msg[here]? = some (UInt8.ofNat l.length) ∧ msg.drop (here + 1) = l ++ rest ∧
      msg.drop (here + 1 + l.length) = rest := by
  have hnext : msg.drop (here + 1) = l ++ rest := by
    rw [← List.drop_drop, hmsg, List.drop_one, List.tail_cons]
  refine ⟨?_, hnext, ?_⟩
  · rw [← List.head?_drop, hmsg, List.head?_cons]
  · rw [← List.drop_drop, hnext, List.drop_left]

theorem drop_zero {msg : List UInt8} {here : Nat} {rest : List UInt8}
    (hmsg : msg.drop here = 0 :: rest) : msg[here]? = some 0 := by
  rw [← List.head?_drop, hmsg, List.head?_cons]

theorem labelBytes_cons (l : Text) (labels : List Text) (rest : List UInt8) :
    labelBytes (l :: labels) ++ rest =
      UInt8.ofNat l.length :: (l ++ (labelBytes labels ++ rest)) := by
  simp [labelBytes]

theorem terminated_cons (l : Text) (labels : List Text) :
    terminated dot (l :: labels) = l ++ dot :: terminated dot labels := by
  simp [terminated]

/-- Labels of one to 63 characters are read back. -/
theorem nameAt_labelBytes {msg : List UInt8} {labels : List Text}
    (hlabels : ∀ l ∈ labels, 1 ≤ l.length ∧ l.length ≤ 63) {k here : Nat} {rest : List UInt8}
    (hmsg : msg.drop here = labelBytes labels ++ 0 :: rest)
    (hfit : k + (terminated dot labels).length < RR_NAMESIZE) :
    NameAt msg k here (terminated dot labels) (here + (terminated dot labels).length + 1) := by
  induction labels generalizing k here with
  | nil => exact .zero (drop_zero hmsg)
  | cons l labels ih =>
    rw [labelBytes_cons] at hmsg
    rw [terminated_cons] at hfit ⊢
    simp only [List.length_append, List.length_cons] at hfit ⊢
    obtain ⟨hpos, hlt⟩ := hlabels l List.mem_cons_self
    obtain ⟨hbyte, htext, hnext⟩ := drop_label hmsg
    have hlabel : Label msg here l :=
      { byte := hbyte
        ne_nil := List.ne_nil_of_length_pos hpos
        lt := by omega
        text := ⟨_, htext.symm⟩ }
    have hrest := ih (fun d hd => hlabels d (List.mem_cons_of_mem _ hd)) hnext
      (k := k + l.length + 1) (by omega)
    have hplace : here + 1 + l.length + (terminated dot labels).length + 1 =
        here + (l.length + ((terminated dot labels).length + 1)) + 1 := by omega
    exact .label hlabel (by omega) (hplace ▸ hrest)

/-- A label in the message with the length byte and the text of another is
that one. -/
theorem Label.eq_of_text {msg : List UInt8} {here : Nat} {l label rest rest' : Text}
    (hlabel : Label msg here label) (hbyte : msg[here]? = some (UInt8.ofNat l.length))
    (htext : l ++ dot :: rest = label ++ dot :: rest') (hno : dot ∉ l) :
    l = label ∧ rest = rest' := by
  have hle := length_le_of_not_mem htext.symm hno
  have hlt := hlabel.lt
  have heq := congrArg UInt8.toNat (Option.some.inj (hbyte.symm.trans hlabel.byte))
  rw [UInt8.toNat_ofNat', UInt8.toNat_ofNat'] at heq
  obtain ⟨hl, htail⟩ := List.append_inj htext (by omega)
  exact ⟨hl, (List.cons.inj htail).2⟩

/-- Wherever pointers lead, a label that is read has no more than 63
characters. -/
theorem NameAt.label_le {msg : List UInt8} {k here next : Nat} {l rest : Text}
    (h : NameAt msg k here (l ++ dot :: rest) next) (hno : dot ∉ l) : l.length ≤ 63 := by
  rcases h.first_dot with hnil | ⟨label, tail, hfirst, hshort⟩
  · simp at hnil
  · exact (length_le_of_not_mem hfirst.symm hno).trans hshort

theorem Jump.byte_ge {msg : List UInt8} {here p n : Nat} (h : Jump msg here p)
    (hbyte : msg[here]? = some (UInt8.ofNat n)) : 63 < n := by
  obtain ⟨len, low, hlen, hand, -⟩ := h
  rw [hbyte] at hlen
  obtain rfl := Option.some.inj hlen
  rw [ne_eq, and_c0_iff, UInt8.toNat_ofNat'] at hand
  omega

/-- Labels that are read back have one to 63 characters. -/
theorem labelBytes_nameAt {msg : List UInt8} {labels : List Text} (hdots : ∀ l ∈ labels, dot ∉ l)
    {k here next : Nat} {rest : List UInt8}
    (hmsg : msg.drop here = labelBytes labels ++ 0 :: rest)
    (h : NameAt msg k here (terminated dot labels) next) :
    (∀ l ∈ labels, 1 ≤ l.length ∧ l.length ≤ 63) ∧
      next = here + (terminated dot labels).length + 1 := by
  induction labels generalizing k here with
  | nil =>
    have hzero := drop_zero hmsg
    generalize htext : terminated dot [] = text at h
    cases h with
    | zero => simp
    | label => simp [terminated] at htext
    | jump hjump => exact absurd (hjump.byte_ge (n := 0) hzero) (by omega)
  | cons l labels ih =>
    rw [labelBytes_cons] at hmsg
    obtain ⟨hbyte, -, hnext⟩ := drop_label hmsg
    obtain ⟨hno, hdots⟩ := List.forall_mem_cons.mp hdots
    rw [terminated_cons] at h ⊢
    generalize htext : l ++ dot :: terminated dot labels = text at h
    cases h with
    | zero => simp at htext
    | label hlabel _ hrest =>
      obtain ⟨rfl, rfl⟩ := hlabel.eq_of_text hbyte htext hno
      obtain ⟨hall, rfl⟩ := ih hdots hnext hrest
      have hpos := hlabel.length_pos
      have hlt := hlabel.lt
      refine ⟨List.forall_mem_cons.mpr ⟨by omega, hall⟩, ?_⟩
      simp only [List.length_append, List.length_cons]
      omega
    | jump hjump hrest =>
      subst htext
      exact absurd (hrest.label_le hno) (Nat.not_le_of_lt (hjump.byte_ge hbyte))

/-! ## §4 What a caller can rely on -/

/-- The host with one dot at its end. -/
def withDot (domain : Text) : Text :=
  if domain.getLast? = some dot then domain else domain ++ [dot]

/-- A failure, or a message that fits and is read back: the name with one
dot at its end, and behind it type 1 and class 1. -/
def QueryOk (size : Nat) (domain : Text) (r : Int) (buf : List UInt8) : Prop :=
  r < 0 ∨ (r ≤ size ∧ ∃ fuel next,
    getObjectname (buf.take r.toNat) fuel RR_NAMESIZE headerSize [] =
        .ok ((withDot domain).length, next, withDot domain) ∧
      (buf.take r.toNat).drop next = [0, 1, 0, 1])

/-- The question behind the header: the host's labels, up to a zero byte. -/
theorem drop_queryMessage (domain : Text) :
    (queryMessage domain).drop headerSize =
      labelBytes (domain.splitOn dot) ++ 0 :: [0, 1, 0, 1] := by
  have hheader : headerSize = queryHeader.length := rfl
  rw [queryMessage, hheader, List.drop_left]

theorem nameAt_query {domain : Text} {next : Nat} (hend : domain.getLast? ≠ some dot)
    (h : NameAt (queryMessage domain) 0 headerSize (withDot domain) next) :
    ∀ l ∈ domain.splitOn dot, 1 ≤ l.length ∧ l.length ≤ 63 := by
  obtain ⟨htext, hdots⟩ := terminated_splitOn dot domain
  rw [withDot, if_neg hend, ← htext] at h
  exact (labelBytes_nameAt hdots (drop_queryMessage domain) h).1

theorem splitOn_dot_end (init : Text) : (init ++ [dot]).splitOn dot = init.splitOn dot ++ [[]] :=
  List.splitOn_append_cons_self init []

/-- A dot at the end of the host is one zero byte more: type and class are
not behind the name. -/
theorem nameAt_query_dot {domain : Text} {next : Nat} (hend : domain.getLast? = some dot)
    (h : NameAt (queryMessage domain) 0 headerSize (withDot domain) next) :
    (queryMessage domain).drop next ≠ [0, 1, 0, 1] := by
  obtain ⟨init, rfl⟩ := List.getLast?_eq_some_iff.mp hend
  obtain ⟨htext, hdots⟩ := terminated_splitOn dot init
  have hmsg := drop_queryMessage (init ++ [dot])
  have hlabels : labelBytes (init.splitOn dot ++ [[]]) = labelBytes (init.splitOn dot) ++ [0] := by
    simp [labelBytes]
  rw [splitOn_dot_end, hlabels, List.append_assoc] at hmsg
  rw [withDot, if_pos hend] at h
  have hname : NameAt (queryMessage (init ++ [dot])) 0 headerSize
      (terminated dot (init.splitOn dot)) next := by
    rw [htext]
    exact h
  obtain ⟨-, rfl⟩ := labelBytes_nameAt hdots hmsg hname
  intro hfields
  have hlen := congrArg List.length hfields
  rw [List.length_drop, length_queryMessage, htext] at hlen
  simp only [List.length_append, List.length_cons, List.length_nil, headerSize] at hlen
  omega

theorem query_nameAt {domain : Text}
    (hlabels : ∀ l ∈ domain.splitOn dot, 1 ≤ l.length ∧ l.length ≤ 63)
    (hlen : domain.length ≤ 510) :
    NameAt (queryMessage domain) 0 headerSize (withDot domain) (domain.length + 14) ∧
      (queryMessage domain).drop (domain.length + 14) = [0, 1, 0, 1] := by
  obtain ⟨htext, -⟩ := terminated_splitOn dot domain
  have hend : domain.getLast? ≠ some dot := by
    intro hend
    obtain ⟨init, rfl⟩ := List.getLast?_eq_some_iff.mp hend
    have hnil := hlabels [] (by simp [splitOn_dot_end])
    simp at hnil
  have hfit : 0 + (terminated dot (domain.splitOn dot)).length < RR_NAMESIZE := by
    rw [htext, List.length_append, List.length_singleton]
    simp only [RR_NAMESIZE]
    omega
  have hname := nameAt_labelBytes hlabels (drop_queryMessage domain) hfit
  have hplace : headerSize + (terminated dot (domain.splitOn dot)).length + 1 =
      domain.length + 14 := by
    rw [htext, List.length_append, List.length_singleton]
    simp only [headerSize]
    omega
  rw [hplace, htext] at hname
  constructor
  · rw [withDot, if_neg hend]
    exact hname
  · have hlen := length_labelBytes (domain.splitOn dot)
    rw [← hlen] at hplace
    rw [← hplace, Nat.add_assoc, ← List.drop_drop, drop_queryMessage, ← List.drop_drop,
      List.drop_left]
    rfl

theorem take_queryMessage (domain : Text) (room : List UInt8) :
    (queryMessage domain ++ room).take (domain.length + 18) = queryMessage domain := by
  rw [← length_queryMessage, List.take_left]

/-- What is right about a result is right about the message, of a host that
the reader has room for. -/
theorem queryOk_nameAt {size : Nat} {domain : Text} {r : Int} {buf : List UInt8}
    (hok : mkDnsQuery size domain = .ok (r, buf)) (hquery : QueryOk size domain r buf) :
    domain.length + 18 ≤ size ∧ IntLabels domain ∧
      (toInt (domain.length + 18 : Nat) < 0 ∨
        ((withDot domain).length < RR_NAMESIZE ∧ ∃ next,
          NameAt (queryMessage domain) 0 headerSize (withDot domain) next ∧
            (queryMessage domain).drop next = [0, 1, 0, 1])) := by
  have hsize := mkDnsQuery_overflow hok
  rw [mkDnsQuery_eq hsize] at hok
  by_cases hint : IntLabels domain
  · rw [if_pos hint] at hok
    obtain ⟨rfl, rfl⟩ := Prod.mk.inj (Except.ok.inj hok)
    refine ⟨hsize, hint, hquery.imp_right fun hread => ?_⟩
    obtain ⟨-, fuel, next, hname, hfields⟩ := hread
    obtain ⟨-, hshort, hat⟩ := (getObjectname_ok hname).resolve_left (by omega)
    have hlen : domain.length ≤ (withDot domain).length := by
      rw [withDot]
      split <;> simp
    have hret : (toInt (domain.length + 18 : Nat)).toNat = domain.length + 18 := by
      simp only [RR_NAMESIZE] at hshort
      rw [toInt_of_lt (by omega) (by omega)]
      omega
    rw [hret, take_queryMessage] at hat hfields
    exact ⟨hshort, next, hat, hfields⟩
  · rw [if_neg hint] at hok
    cases hok

/-- What is built is right exactly if the buffer is large enough, each
label has one to 63 characters, and the reader has room for the name; a
host so long that the result is negative is a failure. -/
theorem mkDnsQuery_ok_iff (size : Nat) (domain : Text) :
    (∃ r buf, mkDnsQuery size domain = .ok (r, buf) ∧ QueryOk size domain r buf) ↔
      domain.length + 18 ≤ size ∧
        ((toInt (domain.length + 18 : Nat) < 0 ∧ IntLabels domain) ∨
          ((∀ l ∈ domain.splitOn dot, 1 ≤ l.length ∧ l.length ≤ 63) ∧ domain.length ≤ 510)) := by
  constructor
  · rintro ⟨r, buf, hok, hquery⟩
    obtain ⟨hsize, hint, hread⟩ := queryOk_nameAt hok hquery
    refine ⟨hsize, hread.imp (fun hneg => ⟨hneg, hint⟩) fun hread => ?_⟩
    obtain ⟨hshort, next, hat, hfields⟩ := hread
    by_cases hend : domain.getLast? = some dot
    · exact absurd hfields (nameAt_query_dot hend hat)
    · rw [withDot, if_neg hend, List.length_append, List.length_singleton] at hshort
      simp only [RR_NAMESIZE] at hshort
      exact ⟨nameAt_query hend hat, by omega⟩
  · rintro ⟨hsize, ⟨hneg, hint⟩ | ⟨hlabels, hshort⟩⟩
    · exact ⟨_, _, (mkDnsQuery_eq hsize).trans (if_pos hint), .inl hneg⟩
    · have hint : IntLabels domain := fun l hl => by
        have hlen := hlabels l hl
        omega
      refine ⟨_, _, (mkDnsQuery_eq hsize).trans (if_pos hint), .inr ?_⟩
      have hret : toInt (domain.length + 18 : Nat) = (domain.length + 18 : Nat) :=
        toInt_of_lt (by omega) (by omega)
      rw [hret, Int.toNat_natCast, take_queryMessage]
      obtain ⟨hname, hfields⟩ := query_nameAt hlabels hshort
      obtain ⟨⟨fuel, hread⟩, -⟩ := getObjectname_nameAt hname
      exact ⟨by omega, fuel, _, hread fuel le_rfl, hfields⟩

/-- A host with a dot at its end, and room for more. -/
theorem mkDnsQuery_dot_at_end :
    ¬ ∀ (size : Nat) (domain : Text), domain ≠ [] →
      ∃ r buf, mkDnsQuery size domain = .ok (r, buf) ∧ QueryOk size domain r buf := by
  intro h
  obtain ⟨r, buf, hok, hquery⟩ := h 1024 (lit ['a', '.']) (by decide)
  obtain ⟨-, -, hneg | ⟨-, next, hat, hfields⟩⟩ := queryOk_nameAt hok hquery
  · revert hneg
    decide
  · exact nameAt_query_dot (by decide) hat hfields

end Nanio.Dns
