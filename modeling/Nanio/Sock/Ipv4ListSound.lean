/-
Nanio.Sock.Ipv4ListSound — what `ipv4_ltoi` makes of any text.

The elements of a list are what stands between its commas. A list should
yield the addresses of its leading elements that are addresses (`Run`,
§1). The loop reads such an element whole, but it stores one word for any
other element too, since `ipv4_strtoi` has no way to report an error: only
a list that ends behind a comma, or the empty text, stops without one
(§2). So the result is right exactly for the lists that hold nothing else
within the limit.
-/
import Nanio.Sock.Ipv4List
import Nanio.Lib.Bytes

namespace Nanio.Sock

open Nanio.Lib

/-! ## §1 The elements of a list -/

/-- What stands between the commas of a text. -/
def elements (text : Text) : List Text := text.splitOn comma

/-- An element that is an address, with any number of spaces around it. -/
def Element (e : Text) (ip : UInt32) : Prop :=
  ∃ before a after, e = blanks before ++ (a ++ blanks after) ∧ Quad a ip

/-- The addresses of the longest leading run of elements that are addresses. -/
inductive Run : List Text → List UInt32 → Prop where
  | nil : Run [] []
  | stop {e : Text} {es : List Text} (h : ¬ ∃ ip, Element e ip) : Run (e :: es) []
  | more {e : Text} {es : List Text} {ip : UInt32} {ips : List UInt32} (h : Element e ip)
      (hes : Run es ips) : Run (e :: es) (ip :: ips)

/-- Among the first `limit` elements each one is an address, but for an
empty one that nothing follows. -/
def Clean (limit : Nat) (es : List Text) : Prop :=
  ∀ pre e post, es = pre ++ e :: post → pre.length < limit →
    (∃ ip, Element e ip) ∨ (e = [] ∧ post = [])

theorem exists_run (es : List Text) : ∃ ips, Run es ips := by
  induction es with
  | nil => exact ⟨[], .nil⟩
  | cons e es ih =>
    by_cases h : ∃ ip, Element e ip
    · obtain ⟨ip, h⟩ := h
      obtain ⟨ips, hips⟩ := ih
      exact ⟨ip :: ips, .more h hips⟩
    · exact ⟨[], .stop h⟩

theorem Element.ne_nil {e : Text} {ip : UInt32} (h : Element e ip) : e ≠ [] := by
  obtain ⟨before, a, after, rfl, hq⟩ := h
  obtain ⟨c, p, hc, -⟩ := hq.blanks_head before (blanks after)
  rw [hc]
  exact List.cons_ne_nil c p

theorem clean_zero (es : List Text) : Clean 0 es := by
  intro pre e post _ hlt
  exact absurd hlt (Nat.not_lt_zero _)

theorem clean_nil (limit : Nat) : Clean limit [] := by simp [Clean]

theorem clean_cons {limit : Nat} {e : Text} {es : List Text} :
    Clean (limit + 1) (e :: es) ↔ ((∃ ip, Element e ip) ∨ (e = [] ∧ es = [])) ∧ Clean limit es := by
  constructor
  · intro h
    refine ⟨h [] e es rfl (Nat.succ_pos limit), ?_⟩
    intro pre d post hes hlt
    exact h (e :: pre) d post (by rw [hes, List.cons_append]) (by simpa using hlt)
  · rintro ⟨hhead, htail⟩ pre d post hes hlt
    cases pre with
    | nil =>
      obtain ⟨rfl, rfl⟩ := List.cons.inj hes
      exact hhead
    | cons f pre =>
      obtain ⟨-, hes⟩ := List.cons.inj hes
      exact htail pre d post hes (by simpa using hlt)

/-! ## §2 The loop -/

/-- A round that reads an address with spaces around it. -/
theorem Element.round {e : Text} {ip : UInt32} (h : Element e ip) (limit : Nat) {q : Text}
    (hq : ∀ c ∈ q.head?, isDigit c = false ∧ c ≠ ascii ' ') :
    ltoiLoop (limit + 1) (e ++ q) =
      if q.headD 0 != comma then .ok [ip] else (ltoiLoop limit (q.drop 1)).map (ip :: ·) := by
  obtain ⟨before, a, after, rfl, ha⟩ := h
  have hhead : q.head? ≠ some (ascii ' ') := by
    intro hc
    exact (hq _ hc).2 rfl
  have hrest : ∀ c ∈ (blanks after ++ q).head?, isDigit c = false := by
    cases after with
    | zero => exact fun c hc => (hq c hc).1
    | succ n =>
      intro c hc
      obtain rfl := Option.some.inj hc
      decide
  have hread := ha.strtoi before hrest
  have hskip : skipBlanks (blanks after ++ q) = q := skipBlanks_blanks after hhead
  have hagain : skipBlanks q = q := skipBlanks_blanks 0 hhead
  have htext : blanks before ++ (a ++ blanks after) ++ q =
      blanks before ++ (a ++ (blanks after ++ q)) := by
    simp [List.append_assoc]
  obtain ⟨c, p, hc, -⟩ := ha.blanks_head before (blanks after ++ q)
  rw [htext]
  rw [hc] at hread ⊢
  rw [ltoiLoop, hread]
  simp only [bind, Except.bind, Option.getD_some, hskip, hagain, deref_zero]
  split
  · rfl
  · cases ltoiLoop limit (q.drop 1) <;> rfl

theorem Element.last {e : Text} {ip : UInt32} (h : Element e ip) (limit : Nat) :
    ltoiLoop (limit + 1) e = .ok [ip] := by
  have hround := h.round limit (q := []) (by simp)
  have hend : ((0 : UInt8) != comma) = true := by decide
  simpa [hend] using hround

theorem Element.comma {e : Text} {ip : UInt32} (h : Element e ip) (limit : Nat) (rest : Text) :
    ltoiLoop (limit + 1) (e ++ Sock.comma :: rest) = (ltoiLoop limit rest).map (ip :: ·) := by
  have hhead : isDigit Sock.comma = false ∧ Sock.comma ≠ ascii ' ' := by decide
  have hround := h.round limit (q := Sock.comma :: rest) (by simpa using hhead)
  simpa using hround

/-- Whatever the text starts with, a round stores a word. -/
theorem ltoiLoop_ne_nil (limit : Nat) (c : UInt8) (p : Text) :
    Sock.ltoiLoop (limit + 1) (c :: p) ≠ .ok [] := by
  rw [ltoiLoop]
  intro h
  obtain ⟨⟨num, after⟩, -, h⟩ := except_bind_eq_ok.mp h
  obtain ⟨d, -, h⟩ := except_bind_eq_ok.mp h
  split at h
  · cases h
  · obtain ⟨rest, -, h⟩ := except_bind_eq_ok.mp h
    cases h

/-- The loop stores the addresses of the leading run exactly if no other
element lies within the limit. -/
theorem ltoiLoop_run (limit : Nat) (text : Text) {ips : List UInt32} (h : Run (elements text) ips) :
    ltoiLoop limit text = .ok (ips.take limit) ↔ Clean limit (elements text) := by
  induction limit generalizing text ips with
  | zero => exact ⟨fun _ => clean_zero _, fun _ => rfl⟩
  | succ limit ih =>
    cases text with
    | nil =>
      have hno : ¬ ∃ ip, Element [] ip := fun ⟨_, he⟩ => he.ne_nil rfl
      have hnil : elements [] = [[]] := rfl
      rw [hnil] at h ⊢
      cases h with
      | stop => simp [ltoiLoop, clean_cons, clean_nil]
      | more he => exact absurd ⟨_, he⟩ hno
    | cons c p =>
      rcases splitOn_cases comma (c :: p) with ⟨-, hone⟩ | ⟨e, rest, -, htext, hmore⟩
      · rw [elements, hone] at h ⊢
        cases h with
        | stop hno => simp [ltoiLoop_ne_nil, clean_cons, hno]
        | more he hes =>
          cases hes
          simp [he.last, clean_cons, clean_nil, Exists.intro _ he]
      · have hsplit : elements (c :: p) = e :: elements rest := hmore
        rw [hsplit] at h ⊢
        cases h with
        | stop hno =>
          have hne : elements rest ≠ [] := List.splitOn_ne_nil comma rest
          simp [ltoiLoop_ne_nil, clean_cons, hno, hne]
        | @more _ _ ip ips he hes =>
          rw [htext, he.comma, clean_cons, ← ih rest hes, List.take_succ_cons]
          cases ltoiLoop limit rest with
          | error f => simp [Except.map]
          | ok l => simp [Except.map, Exists.intro _ he]

/-- The addresses of the leading run are stored and counted exactly if no
other element lies within the limit and an `int` can hold their number. -/
theorem ipv4Ltoi_run (limit : Nat) (text : Text) :
    (∃ ips, Run (elements text) ips ∧ ipv4Ltoi limit (some text) =
      .ok (((min limit ips.length : Nat) : Int), ips.take limit)) ↔
    Clean limit (elements text) ∧
      ∀ ips, Run (elements text) ips → min limit ips.length < 2 ^ 31 := by
  have hltoi : ∀ ips : List UInt32, ltoiLoop limit text = .ok (ips.take limit) →
      ipv4Ltoi limit (some text) = .ok (toInt (min limit ips.length : Nat), ips.take limit) := by
    intro ips hloop
    rw [ipv4Ltoi]
    simp only [hloop, bind, Except.bind, List.length_take]
    rfl
  constructor
  · rintro ⟨ips, hrun, hok⟩
    have hloop : ltoiLoop limit text = .ok (ips.take limit) := by
      rw [ipv4Ltoi] at hok
      obtain ⟨stored, hloop, hret⟩ := except_bind_eq_ok.mp hok
      rw [hloop, (Prod.mk.inj (Except.ok.inj hret)).2]
    refine ⟨(ltoiLoop_run limit text hrun).mp hloop, fun ips' hrun' => ?_⟩
    have hclean := (ltoiLoop_run limit text hrun).mp hloop
    have hloop' := (ltoiLoop_run limit text hrun').mpr hclean
    have hlen : min limit ips'.length = min limit ips.length := by
      have htake := Except.ok.inj (hloop'.symm.trans hloop)
      simpa using congrArg List.length htake
    have hint := (Prod.mk.inj (Except.ok.inj ((hltoi ips hloop).symm.trans hok))).1
    unfold toInt at hint
    omega
  · rintro ⟨hclean, hlt⟩
    obtain ⟨ips, hrun⟩ := exists_run (elements text)
    have hloop := (ltoiLoop_run limit text hrun).mpr hclean
    have hfit := hlt ips hrun
    exact ⟨ips, hrun, by rw [hltoi ips hloop, toInt_of_lt (by omega) (by omega)]⟩

/-- `1.2.3.4,,5.6.7.8`: the empty element is stored as 0.0.0.0, and the
address behind it too. -/
theorem ipv4Ltoi_empty_element :
    ¬ ∀ (limit : Nat) (text : Text), ∃ ips, Run (elements text) ips ∧
      ipv4Ltoi limit (some text) = .ok (((min limit ips.length : Nat) : Int), ips.take limit) := by
  intro h
  obtain ⟨ips, hrun, hok⟩ := h 8 (lit ['1', '.', '2', '.', '3', '.', '4', ',', ',', '5', '.', '6',
    '.', '7', '.', '8'])
  have hstored : ipv4Ltoi 8 (some (lit ['1', '.', '2', '.', '3', '.', '4', ',', ',', '5', '.', '6',
      '.', '7', '.', '8'])) = .ok (3, [0x01020304, 0, 0x05060708]) := by decide +kernel
  have hsplit : elements (lit ['1', '.', '2', '.', '3', '.', '4', ',', ',', '5', '.', '6', '.', '7',
      '.', '8']) = [lit ['1', '.', '2', '.', '3', '.', '4'], [],
        lit ['5', '.', '6', '.', '7', '.', '8']] := by decide +kernel
  rw [hstored] at hok
  rw [hsplit] at hrun
  have hlen : ips.length ≤ 1 := by
    cases hrun with
    | stop => simp
    | more _ hes =>
      cases hes with
      | stop => simp
      | more he => exact absurd rfl he.ne_nil
  have hmin := (Prod.mk.inj (Except.ok.inj hok)).1
  omega

end Nanio.Sock
