/-
Nanio.Sock.Ipv4Numbers — which texts `ipv4_isip` and `ipv4_strtoi` accept.

Both take each of their four numbers with `strtoul`, so a number may have
white space and a sign in front of its digits (`Number`, §1). What either
loop accepts are such numbers below 256 with single dots between them
(`Dotted`, §2). The two loops stop at the same places, so `ipv4_strtoi`
stores its end pointer exactly for the texts of `ipv4_isip`, unless the
text starts with a dot.
-/
import Nanio.Sock.Ipv4Text
import Mathlib.Data.List.TakeWhile

namespace Nanio.Sock

open Nanio.Lib

/-! ## §1 What strtoul reads -/

inductive Sign where
  | none | plus | minus
  deriving DecidableEq, Repr

def Sign.text : Sign → Text
  | .none => []
  | .plus => [ascii '+']
  | .minus => [ascii '-']

/-- The `unsigned long` for digits of value `n`: a value that does not fit
is `ULONG_MAX`, and a minus negates a value that fits. -/
def Sign.value (s : Sign) (n : Nat) : Nat :=
  if 2 ^ 64 ≤ n then 2 ^ 64 - 1 else if s = .minus then toUnsignedLong (-n) else n

/-- White space, a sign and digits: the number they are to `strtoul`. -/
inductive Number : Text → Nat → Prop where
  | mk {space ds : Text} (sign : Sign) {n : Nat} (hspace : ∀ c ∈ space, isSpace c = true)
      (h : Numeral ds n) : Number (space ++ (sign.text ++ ds)) (sign.value n)

theorem digit_of_isDigit {c : UInt8} (h : isDigit c = true) : ∃ d < 10, c = digit d := by
  have key : ∀ n : Fin 256, isDigit (.ofFin n) = true → ∃ d < 10, UInt8.ofFin n = digit d := by
    decide +kernel
  exact key c.toFin h

/-- No character of the text's start that is left satisfies the test. -/
theorem head?_dropWhile (f : UInt8 → Bool) (p : Text) :
    ∀ c ∈ (p.dropWhile f).head?, f c = false := by
  intro c hc
  have hnot := List.head?_dropWhile_not f p
  rw [Option.mem_def.mp hc] at hnot
  simpa using hnot

/-- The digits at the start of a text. -/
theorem numeral_takeWhile {p : Text} (h : p.takeWhile isDigit ≠ []) :
    Numeral (p.takeWhile isDigit) (digitsValue (p.takeWhile isDigit)) where
  digits _ hc := digit_of_isDigit (List.mem_takeWhile_imp hc)
  ne_nil := h
  value := rfl

/-- What `signOf` takes off a text. -/
theorem signOf_split (p : Text) :
    ∃ space sign, (∀ c ∈ space, isSpace c = true) ∧ p = space ++ (Sign.text sign ++ (signOf p).2) ∧
      ((signOf p).1 = true ↔ sign = .minus) := by
  have hp := List.takeWhile_append_dropWhile (p := isSpace) (l := p)
  have hspace : ∀ c ∈ p.takeWhile isSpace, isSpace c = true := fun c hc =>
    List.mem_takeWhile_imp hc
  unfold signOf
  cases hq : p.dropWhile isSpace with
  | nil => exact ⟨_, .none, hspace, by rw [hq] at hp; simpa [Sign.text] using hp.symm, by simp⟩
  | cons c rest =>
    rw [hq] at hp
    by_cases hminus : c = ascii '-'
    · exact ⟨_, .minus, hspace, by simpa [Sign.text, hminus] using hp.symm, by simp [hminus]⟩
    · by_cases hplus : c = ascii '+'
      · have hne : (ascii '+' == ascii '-') = false := by decide
        exact ⟨_, .plus, hspace, by simpa [Sign.text, hplus, hne] using hp.symm,
          by simp [hplus, hne]⟩
      · exact ⟨_, .none, hspace, by simpa [Sign.text, hminus, hplus] using hp.symm,
          by simp [hminus, hplus]⟩

/-- White space and a sign in front of digits are taken off. -/
theorem Numeral.signOf_sign {ds : Text} {n : Nat} (h : Numeral ds n) {space : Text}
    (hspace : ∀ c ∈ space, isSpace c = true) (sign : Sign) (rest : Text) :
    Sock.signOf (space ++ (sign.text ++ (ds ++ rest))) = (decide (sign = .minus), ds ++ rest) := by
  have hminus : isSpace (ascii '-') = false ∧ isSpace (ascii '+') = false ∧
      (ascii '+' == ascii '-') = false := by decide
  have hskip : Sock.signOf (space ++ (sign.text ++ (ds ++ rest))) =
      Sock.signOf (sign.text ++ (ds ++ rest)) := by
    unfold Sock.signOf
    rw [List.dropWhile_append_of_pos hspace]
  rw [hskip]
  cases sign with
  | none => exact h.signOf rest
  | plus => simp [Sign.text, Sock.signOf, hminus]
  | minus => simp [Sign.text, Sock.signOf, hminus]

/-- A number is read up to the character behind its last digit. -/
theorem Number.strtoul {t : Text} {n : Nat} (h : Number t n) {rest : Text}
    (hrest : ∀ c ∈ rest.head?, isDigit c = false) : Sock.strtoul (t ++ rest) = (n, rest) := by
  cases h with
  | @mk space ds sign n hspace h =>
    have hassoc : space ++ (sign.text ++ ds) ++ rest = space ++ (sign.text ++ (ds ++ rest)) := by
      simp [List.append_assoc]
    rw [hassoc]
    simp only [Sock.strtoul, h.signOf_sign hspace, h.takeWhile hrest, h.value, if_neg h.ne_nil,
      List.drop_left, Sign.value, decide_eq_true_iff]
    split <;> rfl

/-- Where `strtoul` moves its pointer it has read a number, with no digit
left behind it. -/
theorem strtoul_number {p : Text} (hmoved : (strtoul p).2.length ≠ p.length) :
    ∃ t, Number t (strtoul p).1 ∧ p = t ++ (strtoul p).2 ∧
      ∀ c ∈ (strtoul p).2.head?, isDigit c = false := by
  obtain ⟨space, sign, hspace, hp, hsign⟩ := signOf_split p
  by_cases hds : (signOf p).2.takeWhile isDigit = []
  · simp [strtoul, hds] at hmoved
  have hnum := numeral_takeWhile hds
  have hcut := List.takeWhile_append_dropWhile (p := isDigit) (l := (signOf p).2)
  have hread : strtoul p = (sign.value (digitsValue ((signOf p).2.takeWhile isDigit)),
      (signOf p).2.dropWhile isDigit) := by
    have hdrop : (signOf p).2.drop ((signOf p).2.takeWhile isDigit).length =
        (signOf p).2.dropWhile isDigit := by
      nth_rewrite 2 [← hcut]
      exact List.drop_left
    simp only [strtoul, if_neg hds, hdrop, Sign.value, hsign]
    split <;> rfl
  rw [hread]
  refine ⟨_, .mk sign hspace hnum, ?_, head?_dropWhile isDigit _⟩
  conv_lhs => rw [hp, ← hcut]
  simp [List.append_assoc]

/-! ## §2 Numbers with dots between them -/

/-- The text starts with numbers from 0 to 255 joined by dots, and `rest`
is what stands behind the last. -/
inductive Dotted : List Nat → Text → Text → Prop where
  | last {t rest : Text} {n : Nat} (h : Number t n) (hn : n < 256)
      (hrest : ∀ c ∈ rest.head?, isDigit c = false) : Dotted [n] (t ++ rest) rest
  | dot {t p rest : Text} {n : Nat} {ns : List Nat} (h : Number t n) (hn : n < 256)
      (hp : Dotted ns p rest) : Dotted (n :: ns) (t ++ dot :: p) rest

theorem Number.length_pos {t : Text} {n : Nat} (h : Number t n) : 0 < t.length := by
  cases h with
  | mk sign hspace h =>
    have hpos := List.length_pos_iff.mpr h.ne_nil
    simp only [List.length_append]
    omega

/-- The test of both loops lets a number below 256 pass. -/
theorem Number.octet {t : Text} {n : Nat} (h : Number t n) (hn : n < 256) {rest : Text}
    (hrest : ∀ c ∈ rest.head?, isDigit c = false) :
    Sock.strtoul (t ++ rest) = (n, rest) ∧ ¬ (rest.length = (t ++ rest).length ∨ 256 ≤ n) := by
  have hpos := h.length_pos
  refine ⟨h.strtoul hrest, ?_⟩
  rw [List.length_append]
  omega

/-- The octets of an address, from the highest on. -/
def pushOctets (num : UInt32) (ns : List Nat) : UInt32 :=
  ns.foldl (fun num n => num <<< 8 ||| UInt32.ofNat n) num

section

variable {p : Text} (c : Nat) (num : UInt32)

/-- A number that is missing or too large stops both loops. -/
theorem loops_bad (hbad : (strtoul p).2.length = p.length ∨ 256 ≤ (strtoul p).1) :
    isipLoop (c + 1) p = .ok false ∧ strtoiAfterLoop false (c + 1) num p = .ok (0, none) := by
  rw [isipLoop, strtoiAfterLoop]
  simp [hbad, pure, Except.pure]

variable (hgo : ¬ ((strtoul p).2.length = p.length ∨ 256 ≤ (strtoul p).1))

include hgo

/-- So does anything but a dot behind a number that is not the last. -/
theorem loops_no_dot (hdot : (strtoul p).2.head? ≠ some dot) :
    isipLoop (c + 1 + 1) p = .ok false ∧
      strtoiAfterLoop false (c + 1 + 1) num p = .ok (0, none) := by
  rw [isipLoop, strtoiAfterLoop]
  simp only [if_neg hgo]
  cases hq : (strtoul p).2 with
  | nil =>
    have hend : ((0 : UInt8) != dot) = true := by decide
    simp [hend, bind, Except.bind, pure, Except.pure]
  | cons d q =>
    have hne : d ≠ dot := by simpa [hq] using hdot
    simp [hne, bind, Except.bind, pure, Except.pure]

/-- Behind a number and a dot both loops go on. -/
theorem loops_dot {q : Text} (hq : (strtoul p).2 = dot :: q) :
    isipLoop (c + 1 + 1) p = isipLoop (c + 1) q ∧
      strtoiAfterLoop false (c + 1 + 1) num p =
        strtoiAfterLoop false (c + 1) (num <<< 8 ||| UInt32.ofNat (strtoul p).1) q := by
  rw [isipLoop, strtoiAfterLoop]
  simp only [if_neg hgo]
  simp [hq, bind, Except.bind]

end

/-- Numbers with dots between them are read by both loops. -/
theorem Dotted.loops {ns : List Nat} {p rest : Text} (h : Dotted ns p rest) (num : UInt32) :
    isipLoop ns.length p = .ok true ∧
      strtoiAfterLoop false ns.length num p = .ok (pushOctets num ns, some rest) := by
  induction h generalizing num with
  | last h hn hrest =>
    obtain ⟨hread, hgo⟩ := h.octet hn hrest
    constructor
    · rw [List.length_singleton, isipLoop]
      simp only [hread, if_neg hgo, if_true]
      rfl
    · rw [List.length_singleton, strtoiAfterLoop]
      simp only [hread, if_neg hgo, if_true]
      rfl
  | @dot t p rest n ns h hn hp ih =>
    obtain ⟨hread, hgo⟩ := h.octet hn (@dot_head p)
    obtain ⟨c, hc⟩ : ∃ c, ns.length = c + 1 := by
      cases hp with
      | last => exact ⟨0, rfl⟩
      | dot => exact ⟨_, rfl⟩
    have hnext : (strtoul (t ++ Sock.dot :: p)).2 = Sock.dot :: p := congrArg Prod.snd hread
    have hvalue : (strtoul (t ++ Sock.dot :: p)).1 = n := congrArg Prod.fst hread
    obtain ⟨hisip, hstrtoi⟩ := ih (num <<< 8 ||| UInt32.ofNat n)
    obtain ⟨hisip', hstrtoi'⟩ := loops_dot c num (by rw [hnext, hvalue]; exact hgo) hnext
    rw [hvalue] at hstrtoi'
    rw [List.length_cons, hc, hisip', hstrtoi', ← hc]
    exact ⟨hisip, hstrtoi⟩

/-- Neither loop faults. What `ipv4_isip` accepts are numbers with dots
between them, and `ipv4_strtoi` leaves its end pointer alone for the rest. -/
theorem loops_total (c : Nat) (num : UInt32) (p : Text) :
    ((∃ ns rest, ns.length = c + 1 ∧ Dotted ns p rest) ∧ isipLoop (c + 1) p = .ok true) ∨
      (isipLoop (c + 1) p = .ok false ∧ strtoiAfterLoop false (c + 1) num p = .ok (0, none)) := by
  induction c generalizing num p with
  | zero =>
    by_cases hgo : (strtoul p).2.length = p.length ∨ 256 ≤ (strtoul p).1
    · exact .inr (loops_bad 0 num hgo)
    · obtain ⟨hmoved, hn⟩ := not_or.mp hgo
      obtain ⟨t, ht, hp, hrest⟩ := strtoul_number hmoved
      have hd : Dotted [(strtoul p).1] p (strtoul p).2 := by
        nth_rewrite 2 [hp]
        exact .last ht (Nat.lt_of_not_le hn) hrest
      exact .inl ⟨⟨_, _, rfl, hd⟩, (hd.loops num).1⟩
  | succ c ih =>
    by_cases hgo : (strtoul p).2.length = p.length ∨ 256 ≤ (strtoul p).1
    · exact .inr (loops_bad (c + 1) num hgo)
    by_cases hdot : (strtoul p).2.head? = some dot
    · obtain ⟨q, hq⟩ := List.head?_eq_some_iff.mp hdot
      obtain ⟨hmoved, hn⟩ := not_or.mp hgo
      obtain ⟨t, ht, hp, -⟩ := strtoul_number hmoved
      obtain ⟨hisip, hstrtoi⟩ := loops_dot c num hgo hq
      rw [hq] at hp
      rcases ih (num <<< 8 ||| UInt32.ofNat (strtoul p).1) q with ⟨⟨ns, rest, hlen, hd⟩, hok⟩ | hno
      · have hcons : Dotted ((strtoul p).1 :: ns) p rest := by
          nth_rewrite 2 [hp]
          exact .dot ht (Nat.lt_of_not_le hn) hd
        exact .inl ⟨⟨_, rest, by simp [hlen], hcons⟩, hisip.trans hok⟩
      · exact .inr ⟨hisip.trans hno.1, hstrtoi.trans hno.2⟩
    · exact .inr (loops_no_dot c num hgo hdot)

theorem Dotted.lt {ns : List Nat} {p rest : Text} (h : Dotted ns p rest) : ∀ n ∈ ns, n < 256 := by
  induction h with
  | last h hn hrest => simpa using hn
  | dot h hn hp ih => simpa using ⟨hn, ih⟩

theorem exists_four {p : List Nat → Prop} :
    (∃ ns, ns.length = 4 ∧ p ns) ↔ ∃ n₁ n₂ n₃ n₄, p [n₁, n₂, n₃, n₄] := by
  constructor
  · rintro ⟨ns, hlen, h⟩
    obtain ⟨n₁, n₂, n₃, n₄, rfl⟩ := List.length_eq_four.mp hlen
    exact ⟨n₁, n₂, n₃, n₄, h⟩
  · rintro ⟨n₁, n₂, n₃, n₄, h⟩
    exact ⟨_, rfl, h⟩

/-- The loop of `ipv4_isip` over all four numbers. -/
theorem ipv4Isip_cases (text : Text) :
    ((∃ n₁ n₂ n₃ n₄ rest, Dotted [n₁, n₂, n₃, n₄] text rest) ∧ ipv4Isip text = .ok true) ∨
      (ipv4Isip text = .ok false ∧ strtoiAfterLoop false 4 0 text = .ok (0, none)) := by
  rcases loops_total 3 0 text with ⟨⟨ns, rest, hlen, hd⟩, hok⟩ | hno
  · have hfour := exists_four (p := fun ns => ∃ rest, Dotted ns text rest)
    exact .inl ⟨hfour.mp ⟨ns, hlen, rest, hd⟩, hok⟩
  · exact .inr hno

/-- The four numbers of a text, read by `ipv4_isip` and by `ipv4_strtoi`. -/
theorem Dotted.four {n₁ n₂ n₃ n₄ : Nat} {text rest : Text}
    (h : Dotted [n₁, n₂, n₃, n₄] text rest) :
    ipv4Isip text = .ok true ∧
      strtoiAfterLoop false 4 0 text = .ok (quadAddr n₁ n₂ n₃ n₄, some rest) := by
  have hlt := h.lt
  simp only [List.mem_cons, forall_eq_or_imp] at hlt
  obtain ⟨h₁, h₂, h₃, h₄, -⟩ := hlt
  obtain ⟨hisip, hstrtoi⟩ := h.loops 0
  have hpush : pushOctets 0 [n₁, n₂, n₃, n₄] = quadAddr n₁ n₂ n₃ n₄ := pushOctets_eq h₁ h₂ h₃ h₄
  rw [hpush] at hstrtoi
  exact ⟨hisip, hstrtoi⟩

theorem ipv4Strtoi_not_dot {text : Text} (h : text.head? ≠ some dot) :
    ipv4Strtoi text = strtoiAfterLoop false 4 0 text := by
  cases text with
  | nil => rfl
  | cons c p =>
    have hc : (c == dot) = false := by simpa using h
    rw [ipv4Strtoi, deref_zero_cons]
    simp only [bind, Except.bind, hc, Bool.false_eq_true, if_false]

/-- `ipv4_isip` accepts the texts that start with four numbers of 0 to 255,
as `strtoul` takes them, with single dots between them; on a text that does
not start with a dot `ipv4_strtoi` stores its end pointer exactly then, and
returns the address of the numbers. -/
theorem ipv4Isip_ipv4Strtoi (text : Text) :
    (∃ b, ipv4Isip text = .ok b) ∧
    (ipv4Isip text = .ok true ↔ ∃ n₁ n₂ n₃ n₄ rest, Dotted [n₁, n₂, n₃, n₄] text rest) ∧
    (text.head? ≠ some dot → ∃ num after, ipv4Strtoi text = .ok (num, after) ∧
      (after.isSome = true ↔ ipv4Isip text = .ok true) ∧
      ∀ n₁ n₂ n₃ n₄ rest, Dotted [n₁, n₂, n₃, n₄] text rest →
        num = quadAddr n₁ n₂ n₃ n₄ ∧ after = some rest) := by
  rcases ipv4Isip_cases text with ⟨⟨n₁, n₂, n₃, n₄, rest, hd⟩, hok⟩ | ⟨hno, hstrtoi⟩
  · refine ⟨⟨true, hok⟩, ⟨fun _ => ⟨_, _, _, _, _, hd⟩, fun _ => hok⟩, fun hdot => ?_⟩
    refine ⟨_, _, (ipv4Strtoi_not_dot hdot).trans hd.four.2, by simp [hok], ?_⟩
    intro m₁ m₂ m₃ m₄ rest' hd'
    have heq := hd.four.2.symm.trans hd'.four.2
    simpa using heq
  · have hnone : ¬ ∃ n₁ n₂ n₃ n₄ rest, Dotted [n₁, n₂, n₃, n₄] text rest := by
      rintro ⟨n₁, n₂, n₃, n₄, rest, hd⟩
      simp [hd.four.1] at hno
    refine ⟨⟨false, hno⟩, ⟨fun hok => by simp [hno] at hok, fun h => absurd h hnone⟩,
      fun hdot => ?_⟩
    refine ⟨_, _, (ipv4Strtoi_not_dot hdot).trans hstrtoi, by simp [hno], ?_⟩
    intro n₁ n₂ n₃ n₄ rest hd
    exact absurd ⟨n₁, n₂, n₃, n₄, rest, hd⟩ hnone

/-- ` 1.-0.+3.004/`, as far as the slash. -/
theorem ipv4Isip_ipv4Strtoi_signs :
    (lit [' ', '1', '.', '-', '0', '.', '+', '3', '.', '0', '0', '4', '/']).head? ≠ some dot ∧
    ipv4Strtoi (lit [' ', '1', '.', '-', '0', '.', '+', '3', '.', '0', '0', '4', '/']) =
      .ok (0x01000304, some (lit ['/'])) := by
  have hdot : (lit [' ', '1', '.', '-', '0', '.', '+', '3', '.', '0', '0', '4', '/']).head? ≠
      some dot := by decide
  obtain ⟨num, after, hstrtoi, -, hval⟩ := (ipv4Isip_ipv4Strtoi _).2.2 hdot
  have hd : Dotted [1, 0, 3, 4] (lit [' ', '1', '.', '-', '0', '.', '+', '3', '.', '0', '0', '4',
      '/']) (lit ['/']) := by
    have hblank : ∀ c ∈ lit [' '], isSpace c = true := by
      intro c hc
      obtain rfl := List.mem_singleton.mp hc
      decide
    have hslash : ∀ c ∈ (lit ['/']).head?, isDigit c = false := by
      intro c hc
      obtain rfl := Option.some.inj hc
      decide
    have hnil : ∀ c ∈ ([] : Text), isSpace c = true := by simp
    have hzero := (numeral_digit (by omega : 0 < 10))
    have h₁ : Number (lit [' ', '1']) 1 := .mk .none hblank (numeral_digit (by omega : 1 < 10))
    have h₂ : Number (lit ['-', '0']) 0 := .mk .minus hnil hzero
    have h₃ : Number (lit ['+', '3']) 3 := .mk .plus hnil (numeral_digit (by omega : 3 < 10))
    have h₄ : Number (lit ['0', '0', '4']) 4 :=
      .mk .none hnil ((hzero.snoc (by omega : 0 < 10)).snoc (by omega : 4 < 10))
    exact .dot h₁ (by omega) (.dot h₂ (by omega) (.dot h₃ (by omega)
      (.last h₄ (by omega) hslash)))
  obtain ⟨rfl, rfl⟩ := hval _ _ _ _ _ hd
  exact ⟨hdot, hstrtoi⟩

/-- A space before the first number is accepted too. -/
theorem ipv4Isip_space :
    ¬ ∀ text, ipv4Isip text = .ok true ↔
      ∃ a rest ip, text = a ++ rest ∧ Quad a ip ∧ ∀ c ∈ rest.head?, isDigit c = false := by
  intro h
  obtain ⟨a, rest, ip, ha, hq, -⟩ :=
    (h (lit [' ', '1', '.', '2', '.', '3', '.', '4'])).mp (by decide +kernel)
  obtain ⟨d, hd, tail, rfl⟩ := hq.head
  rw [List.cons_append] at ha
  obtain ⟨hhead, -⟩ := List.cons.inj ha
  have hspace := (digit_spec d hd).2.2.1
  rw [← hhead] at hspace
  exact absurd hspace (by decide)

end Nanio.Sock
