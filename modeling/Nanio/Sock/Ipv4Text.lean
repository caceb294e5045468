/-
Nanio.Sock.Ipv4Text — decimal numbers and dotted addresses as texts.

What the printers write is `Numeral`s, and `strtoul` and `atoi` read them
back (§1, §2). The two loops of `io_ipv4.c` over four numbers, `ipv4_isip`
and `ipv4_strtoi`, take one number after the other (§3), so each reads a
`Quad` whole and stops behind it (§4). `ipv4_atoi` is `ipv4_strtoi` without
the end pointer (`ipv4Atoi_eq`), and what `ipv4_itostr` writes is a `Quad`.
-/
import Nanio.Sock.SockAddr

namespace Nanio.Sock

open Nanio.Lib

/-! ## §1 Decimal numbers -/

theorem digit_spec (d : Nat) (h : d < 10) :
    isDigit (digit d) = true ∧ digitValue (digit d) = d ∧ isSpace (digit d) = false ∧
      digit d ≠ ascii '-' ∧ digit d ≠ ascii '+' ∧ digit d ≠ dot ∧ digit d ≠ colon ∧
      digit d ≠ ascii '/' ∧ digit d ≠ ascii '[' ∧ digit d ≠ ascii ']' := by
  have hall : ∀ d : Fin 10,
      isDigit (digit d) = true ∧ digitValue (digit d) = d ∧ isSpace (digit d) = false ∧
      digit d ≠ ascii '-' ∧ digit d ≠ ascii '+' ∧ digit d ≠ dot ∧ digit d ≠ colon ∧
      digit d ≠ ascii '/' ∧ digit d ≠ ascii '[' ∧ digit d ≠ ascii ']' := by decide
  exact hall ⟨d, h⟩

/-- The text is digits that make this number. -/
structure Numeral (ds : Text) (n : Nat) : Prop where
  digits : ∀ c ∈ ds, ∃ d < 10, c = digit d
  ne_nil : ds ≠ []
  value : digitsValue ds = n

theorem digitsValue_snoc (ds : Text) (c : UInt8) :
    digitsValue (ds ++ [c]) = digitsValue ds * 10 + digitValue c := by
  simp [digitsValue]

theorem numeral_digit {d : Nat} (h : d < 10) : Numeral [digit d] d where
  digits c hc := ⟨d, h, List.mem_singleton.mp hc⟩
  ne_nil := by simp
  value := by simp [digitsValue, (digit_spec d h).2.1]

/-- One more digit at the end. -/
theorem Numeral.snoc {ds : Text} {n d : Nat} (h : Numeral ds n) (hd : d < 10) :
    Numeral (ds ++ [digit d]) (n * 10 + d) where
  digits c hc := by
    rcases List.mem_append.mp hc with hc | hc
    · exact h.digits c hc
    · exact ⟨d, hd, List.mem_singleton.mp hc⟩
  ne_nil := by simp
  value := by rw [digitsValue_snoc, h.value, (digit_spec d hd).2.1]

theorem decimalLoop_numeral (fuel : Nat) {n : Nat} (hf : n < fuel) (acc : Text) :
    ∃ ds, decimalLoop fuel n acc = ds ++ acc ∧ Numeral ds n := by
  induction fuel generalizing n acc with
  | zero => omega
  | succ fuel ih =>
    rw [decimalLoop]
    by_cases hn : n < 10
    · exact ⟨[digit n], by rw [if_pos hn]; rfl, numeral_digit hn⟩
    · obtain ⟨ds, he, hnum⟩ := ih (n := n / 10) (by omega) (digit (n % 10) :: acc)
      refine ⟨ds ++ [digit (n % 10)], by rw [if_neg hn, he, List.append_assoc]; rfl, ?_⟩
      have hsnoc := hnum.snoc (Nat.mod_lt n (by omega : 0 < 10))
      rwa [show n / 10 * 10 + n % 10 = n by omega] at hsnoc

theorem decimal_numeral (n : Nat) : Numeral (decimal n) n := by
  obtain ⟨ds, he, hnum⟩ := decimalLoop_numeral (n + 1) (Nat.lt_succ_self n) []
  rw [decimal, he, List.append_nil]
  exact hnum

theorem bput_numeral (byte : Nat) : Numeral (bput byte) (byte % 256) := by
  have hlt := Nat.mod_lt byte (by omega : 0 < 256)
  unfold bput
  generalize byte % 256 = b at hlt
  simp only
  split
  · have h₂ := (numeral_digit (by omega : b / 100 < 10)).snoc (by omega : b % 100 / 10 < 10)
    have h₃ := h₂.snoc (by omega : b % 100 % 10 < 10)
    rwa [show (b / 100 * 10 + b % 100 / 10) * 10 + b % 100 % 10 = b by omega] at h₃
  · split
    · have h₂ := (numeral_digit (by omega : b / 10 < 10)).snoc (by omega : b % 10 < 10)
      rwa [show b / 10 * 10 + b % 10 = b by omega] at h₂
    · exact numeral_digit (by omega)

/-! ## §2 Reading numbers -/

theorem Numeral.isDigit {ds : Text} {n : Nat} (h : Numeral ds n) :
    ∀ c ∈ ds, isDigit c = true := by
  intro c hc
  obtain ⟨d, hd, rfl⟩ := h.digits c hc
  exact (digit_spec d hd).1

/-- A number starts with a digit: no space and no sign is skipped. -/
theorem Numeral.signOf {ds : Text} {n : Nat} (h : Numeral ds n) (rest : Text) :
    signOf (ds ++ rest) = (false, ds ++ rest) := by
  cases ds with
  | nil => exact absurd rfl h.ne_nil
  | cons c ds =>
    obtain ⟨d, hd, rfl⟩ := h.digits c List.mem_cons_self
    obtain ⟨-, -, hspace, hminus, hplus, -⟩ := digit_spec d hd
    simp [Sock.signOf, hspace, hminus, hplus]

theorem Numeral.head {ds : Text} {n : Nat} (h : Numeral ds n) :
    ∃ d < 10, ∃ rest, ds = digit d :: rest := by
  cases ds with
  | nil => exact absurd rfl h.ne_nil
  | cons c rest =>
    obtain ⟨d, hd, rfl⟩ := h.digits c List.mem_cons_self
    exact ⟨d, hd, rest, rfl⟩

theorem Numeral.takeWhile {ds : Text} {n : Nat} (h : Numeral ds n) {rest : Text}
    (hrest : ∀ c ∈ rest.head?, Sock.isDigit c = false) :
    (ds ++ rest).takeWhile Sock.isDigit = ds := by
  rw [List.takeWhile_append_of_pos h.isDigit]
  cases rest with
  | nil => simp
  | cons c rest => simp [hrest c rfl]

/-- `n` spaces. -/
def blanks (n : Nat) : Text := List.replicate n (ascii ' ')

/-- A number behind spaces. -/
theorem Numeral.strtoul_blanks {ds : Text} {n : Nat} (h : Numeral ds n) {rest : Text}
    (hrest : ∀ c ∈ rest.head?, Sock.isDigit c = false) (hn : n < 2 ^ 64) (b : Nat) :
    Sock.strtoul (blanks b ++ (ds ++ rest)) = (n, rest) := by
  have hblank : isSpace (ascii ' ') = true := by decide
  have hskip : Sock.signOf (blanks b ++ (ds ++ rest)) = Sock.signOf (ds ++ rest) := by
    unfold Sock.signOf blanks
    rw [List.dropWhile_append_of_pos]
    intro c hc
    rw [List.eq_of_mem_replicate hc]
    exact hblank
  have hlt : ¬ 2 ^ 64 ≤ n := Nat.not_le_of_lt hn
  simp only [Sock.strtoul, hskip, h.signOf, h.takeWhile hrest, h.value, if_neg h.ne_nil, if_neg hlt]
  simp

theorem Numeral.atoi {ds : Text} {n : Nat} (h : Numeral ds n) {rest : Text}
    (hrest : ∀ c ∈ rest.head?, Sock.isDigit c = false) (hn : n < 2 ^ 31) :
    atoi (ds ++ rest) = n := by
  have hmin : min (n : Int) (2 ^ 63 - 1) = n := by omega
  simp only [Sock.atoi, h.signOf, h.takeWhile hrest, h.value, Bool.false_eq_true, if_false, hmin]
  exact toInt_of_lt (by omega) (by omega)

/-! ## §3 The loops over four numbers -/

/-- The loop of `ipv4_strtoi` from `_start` on, with `c` numbers to come:
the number, and the pointer it stores at `after`, if it stores one. -/
def strtoiAfterLoop (sub : Bool) : Nat → UInt32 → Text → Except TextFault (UInt32 × Option Text)
  | 0, num, ip => .ok (num, some ip)
  | c + 1, num, ip => do
    let (n, next) := strtoul ip
    if next.length = ip.length ∨ 256 ≤ n then pure (0, none)
    else
      let num := num <<< 8 ||| UInt32.ofNat n
      if c = 0 then pure (num, some next)
      else if (← deref next 0) != dot then pure (if sub then (num, some next) else (0, none))
      else strtoiAfterLoop sub c num (next.drop 1)

/-- `ipv4_strtoi`. -/
def ipv4Strtoi (ip : Text) : Except TextFault (UInt32 × Option Text) := do
  if (← deref ip 0) == dot then strtoiAfterLoop true 3 0 (ip.drop 1)
  else strtoiAfterLoop false 4 0 ip

/-- Without the end pointer it is the parser of `ipv4_atoi`. -/
theorem strtoiLoop_eq (sub : Bool) (c : Nat) (num : UInt32) (ip : Text) :
    strtoiLoop sub c num ip = (strtoiAfterLoop sub c num ip).map (·.1) := by
  induction c generalizing num ip with
  | zero => rfl
  | succ c ih =>
    rw [strtoiLoop, strtoiAfterLoop]
    simp only []
    split
    · rfl
    · split
      · rfl
      · cases hd : deref (strtoul ip).2 0 with
        | error f => rfl
        | ok d =>
          simp only [bind, Except.bind]
          split
          · cases sub <;> rfl
          · exact ih _ _

theorem ipv4Atoi_eq (ip : Text) : ipv4Atoi ip = (ipv4Strtoi ip).map (·.1) := by
  rw [ipv4Atoi, ipv4Strtoi]
  cases deref ip 0 with
  | error f => rfl
  | ok c =>
    simp only [bind, Except.bind]
    split
    · exact strtoiLoop_eq ..
    · exact strtoiLoop_eq ..

theorem dot_head {rest : Text} : ∀ c ∈ (dot :: rest).head?, isDigit c = false := by
  intro c hc
  obtain rfl := Option.some.inj hc
  decide

theorem colon_head {rest : Text} : ∀ c ∈ (colon :: rest).head?, isDigit c = false := by
  intro c hc
  obtain rfl := Option.some.inj hc
  decide

/-- An octet behind spaces: the number is read and passes the test of both
loops. -/
theorem Numeral.octet {ds : Text} {n : Nat} (h : Numeral ds n) (hn : n < 256) {rest : Text}
    (hrest : ∀ c ∈ rest.head?, Sock.isDigit c = false) (b : Nat) :
    Sock.strtoul (blanks b ++ (ds ++ rest)) = (n, rest) ∧
      ¬ (rest.length = (blanks b ++ (ds ++ rest)).length ∨ 256 ≤ n) := by
  have hpos := List.length_pos_iff.mpr h.ne_nil
  refine ⟨h.strtoul_blanks hrest (by omega) b, ?_⟩
  simp only [List.length_append]
  omega

theorem isipLoop_dot {ds : Text} {n : Nat} (h : Numeral ds n) (hn : n < 256) (c : Nat)
    (rest : Text) : isipLoop (c + 2) (ds ++ dot :: rest) = isipLoop (c + 1) rest := by
  obtain ⟨hread, hgo⟩ := h.octet hn dot_head 0
  change strtoul (ds ++ dot :: rest) = _ at hread
  change ¬ ((dot :: rest).length = (ds ++ dot :: rest).length ∨ _) at hgo
  rw [isipLoop]
  simp only [hread, if_neg hgo, Nat.succ_ne_zero, if_false, deref_zero_cons, bind, Except.bind]
  simp

theorem isipLoop_last {ds : Text} {n : Nat} (h : Numeral ds n) (hn : n < 256) {rest : Text}
    (hrest : ∀ c ∈ rest.head?, isDigit c = false) : isipLoop 1 (ds ++ rest) = .ok true := by
  obtain ⟨hread, hgo⟩ := h.octet hn hrest 0
  change strtoul (ds ++ rest) = _ at hread
  change ¬ (rest.length = (ds ++ rest).length ∨ _) at hgo
  rw [isipLoop]
  simp only [hread, if_neg hgo, if_true]
  rfl

/-- A number, after spaces, with a dot behind it. -/
theorem strtoiAfterLoop_dot {ds : Text} {n : Nat} (h : Numeral ds n) (hn : n < 256) (b c : Nat)
    (num : UInt32) (rest : Text) :
    strtoiAfterLoop false (c + 2) num (blanks b ++ (ds ++ dot :: rest)) =
      strtoiAfterLoop false (c + 1) (num <<< 8 ||| UInt32.ofNat n) rest := by
  have hdot : ∀ c ∈ (dot :: rest).head?, isDigit c = false := dot_head
  obtain ⟨hread, hgo⟩ := h.octet hn hdot b
  rw [strtoiAfterLoop]
  simp only [hread, if_neg hgo, Nat.succ_ne_zero, if_false, deref_zero_cons, bind, Except.bind]
  simp

/-- The last number: the pointer behind it is stored. -/
theorem strtoiAfterLoop_last {ds : Text} {n : Nat} (h : Numeral ds n) (hn : n < 256)
    (num : UInt32) {rest : Text} (hrest : ∀ c ∈ rest.head?, isDigit c = false) :
    strtoiAfterLoop false 1 num (ds ++ rest) = .ok (num <<< 8 ||| UInt32.ofNat n, some rest) := by
  obtain ⟨hread, hgo⟩ := h.octet hn hrest 0
  change strtoul (ds ++ rest) = _ at hread
  change ¬ (rest.length = (ds ++ rest).length ∨ _) at hgo
  rw [strtoiAfterLoop]
  simp only [hread, if_neg hgo, if_true]
  rfl

/-! ## §4 Addresses -/

/-- The address of four octets. -/
def quadAddr (n₁ n₂ n₃ n₄ : Nat) : UInt32 := UInt32.ofNat (((n₁ * 256 + n₂) * 256 + n₃) * 256 + n₄)

/-- Four decimal numbers from 0 to 255 joined by dots. -/
def Quad (text : Text) (ip : UInt32) : Prop :=
  ∃ d₁ d₂ d₃ d₄ n₁ n₂ n₃ n₄, text = d₁ ++ dot :: (d₂ ++ dot :: (d₃ ++ dot :: d₄)) ∧
    (Numeral d₁ n₁ ∧ n₁ < 256) ∧ (Numeral d₂ n₂ ∧ n₂ < 256) ∧ (Numeral d₃ n₃ ∧ n₃ < 256) ∧
    (Numeral d₄ n₄ ∧ n₄ < 256) ∧ ip = quadAddr n₁ n₂ n₃ n₄

/-- One more octet at the low end. -/
theorem toNat_pushOctet (x : UInt32) {n : Nat} (hn : n < 256) :
    (x <<< 8 ||| UInt32.ofNat n).toNat = x.toNat % 2 ^ 24 * 256 + n := by
  have hshift : (x <<< 8).toNat = (x.toNat % 2 ^ 24) <<< 8 := by
    rw [UInt32.toNat_shiftLeft, Nat.shiftLeft_eq, Nat.shiftLeft_eq]
    show x.toNat * 2 ^ 8 % 2 ^ 32 = _
    omega
  have hofNat : (UInt32.ofNat n).toNat = n := UInt32.toNat_ofNat_of_lt' (by
    show n < 2 ^ 32
    omega)
  rw [UInt32.toNat_or, hshift, hofNat, ← Nat.shiftLeft_add_eq_or_of_lt (by omega : n < 2 ^ 8),
    Nat.shiftLeft_eq]

/-- The octets that are pushed one after the other make the address. -/
theorem pushOctets_eq {n₁ n₂ n₃ n₄ : Nat} (h₁ : n₁ < 256) (h₂ : n₂ < 256) (h₃ : n₃ < 256)
    (h₄ : n₄ < 256) :
    ((((0 : UInt32) <<< 8 ||| UInt32.ofNat n₁) <<< 8 ||| UInt32.ofNat n₂) <<< 8 |||
      UInt32.ofNat n₃) <<< 8 ||| UInt32.ofNat n₄ = quadAddr n₁ n₂ n₃ n₄ := by
  have hzero : (0 : UInt32).toNat = 0 := rfl
  have hofNat : (quadAddr n₁ n₂ n₃ n₄).toNat = ((n₁ * 256 + n₂) * 256 + n₃) * 256 + n₄ :=
    UInt32.toNat_ofNat_of_lt' (by
      show _ < 2 ^ 32
      omega)
  apply UInt32.toNat_inj.mp
  rw [hofNat, toNat_pushOctet _ h₄, toNat_pushOctet _ h₃, toNat_pushOctet _ h₂,
    toNat_pushOctet _ h₁, hzero]
  omega

/-- The octets of an address make the address again. -/
theorem quadAddr_octets (ip : UInt32) :
    quadAddr ((ip >>> 24).toNat % 256) ((ip >>> 16).toNat % 256) ((ip >>> 8).toNat % 256)
      (ip.toNat % 256) = ip := by
  have hlt := ip.toNat_lt
  have hshift : ∀ k : UInt32, (ip >>> k).toNat = ip.toNat / 2 ^ (k.toNat % 32) := by
    intro k
    rw [UInt32.toNat_shiftRight, Nat.shiftRight_eq_div_pow]
  have h₂₄ : (ip >>> 24).toNat = ip.toNat / 2 ^ 24 := hshift 24
  have h₁₆ : (ip >>> 16).toNat = ip.toNat / 2 ^ 16 := hshift 16
  have h₈ : (ip >>> 8).toNat = ip.toNat / 2 ^ 8 := hshift 8
  have hsum : (((ip >>> 24).toNat % 256 * 256 + (ip >>> 16).toNat % 256) * 256 +
      (ip >>> 8).toNat % 256) * 256 + ip.toNat % 256 = ip.toNat := by
    rw [h₂₄, h₁₆, h₈]
    omega
  rw [quadAddr, hsum, UInt32.ofNat_toNat]

theorem quad_ipv4Itostr (ip : UInt32) : Quad (ipv4Itostr ip) ip := by
  have hoctet : ∀ byte, Numeral (bput byte) (byte % 256) ∧ byte % 256 < 256 :=
    fun byte => ⟨bput_numeral byte, Nat.mod_lt byte (by omega)⟩
  refine ⟨_, _, _, _, _, _, _, _, ?_, hoctet _, hoctet _, hoctet _, hoctet _,
    (quadAddr_octets ip).symm⟩
  simp [ipv4Itostr, List.append_assoc]

section Quad

variable {a rest : Text} {ip : UInt32}

theorem Quad.head (h : Quad a ip) : ∃ d < 10, ∃ rest, a = digit d :: rest := by
  obtain ⟨d₁, d₂, d₃, d₄, n₁, n₂, n₃, n₄, rfl, ⟨h₁, -⟩, -⟩ := h
  obtain ⟨d, hd, rest, rfl⟩ := h₁.head
  exact ⟨d, hd, _, rfl⟩

theorem Quad.isip (h : Quad a ip) (hrest : ∀ c ∈ rest.head?, isDigit c = false) :
    ipv4Isip (a ++ rest) = .ok true := by
  obtain ⟨d₁, d₂, d₃, d₄, n₁, n₂, n₃, n₄, rfl, ⟨h₁, hn₁⟩, ⟨h₂, hn₂⟩, ⟨h₃, hn₃⟩, ⟨h₄, hn₄⟩, -⟩ := h
  simp only [List.append_assoc, List.cons_append]
  rw [ipv4Isip, isipLoop_dot h₁ hn₁, isipLoop_dot h₂ hn₂, isipLoop_dot h₃ hn₃,
    isipLoop_last h₄ hn₄ hrest]

/-- The first character of an address with spaces before it. -/
theorem Quad.blanks_head (h : Quad a ip) (b : Nat) (rest : Text) :
    ∃ c p, blanks b ++ (a ++ rest) = c :: p ∧ c ≠ dot := by
  cases b with
  | zero =>
    obtain ⟨d, hd, q, rfl⟩ := h.head
    exact ⟨digit d, q ++ rest, rfl, (digit_spec d hd).2.2.2.2.2.1⟩
  | succ b => exact ⟨ascii ' ', blanks b ++ (a ++ rest), rfl, by decide⟩

/-- An address is read, and the pointer is left behind it. -/
theorem Quad.strtoi (h : Quad a ip) (b : Nat) (hrest : ∀ c ∈ rest.head?, isDigit c = false) :
    ipv4Strtoi (blanks b ++ (a ++ rest)) = .ok (ip, some rest) := by
  obtain ⟨c, p, hc, hdot⟩ := h.blanks_head b rest
  obtain ⟨d₁, d₂, d₃, d₄, n₁, n₂, n₃, n₄, ha, ⟨h₁, hn₁⟩, ⟨h₂, hn₂⟩, ⟨h₃, hn₃⟩, ⟨h₄, hn₄⟩, hip⟩ := h
  have htext : a ++ rest = d₁ ++ dot :: (d₂ ++ dot :: (d₃ ++ dot :: (d₄ ++ rest))) := by
    simp [ha, List.append_assoc]
  have hb : ∀ q : Text, q = blanks 0 ++ q := fun _ => rfl
  have hloop : strtoiAfterLoop false 4 0 (blanks b ++ (a ++ rest)) = .ok (ip, some rest) := by
    rw [htext, strtoiAfterLoop_dot h₁ hn₁ b, hb (d₂ ++ _), strtoiAfterLoop_dot h₂ hn₂ 0,
      hb (d₃ ++ _), strtoiAfterLoop_dot h₃ hn₃ 0, strtoiAfterLoop_last h₄ hn₄ _ hrest,
      pushOctets_eq hn₁ hn₂ hn₃ hn₄, hip]
  rw [hc] at hloop ⊢
  rw [ipv4Strtoi, deref_zero_cons]
  simp only [bind, Except.bind, beq_eq_false_iff_ne.mpr hdot, Bool.false_eq_true, if_false, hloop]

theorem Quad.atoi (h : Quad a ip) (hrest : ∀ c ∈ rest.head?, isDigit c = false) :
    ipv4Atoi (a ++ rest) = .ok ip := by
  have hread : ipv4Strtoi (a ++ rest) = .ok (ip, some rest) := h.strtoi 0 hrest
  rw [ipv4Atoi_eq, hread]
  rfl

theorem Quad.not_colon (h : Quad a ip) : ∀ c ∈ a, (c != colon) = true := by
  obtain ⟨d₁, d₂, d₃, d₄, n₁, n₂, n₃, n₄, rfl, ⟨h₁, -⟩, ⟨h₂, -⟩, ⟨h₃, -⟩, ⟨h₄, -⟩, -⟩ := h
  have hnum : ∀ {ds : Text} {n : Nat}, Numeral ds n → ∀ c ∈ ds, (c != colon) = true := by
    intro ds n hds c hc
    obtain ⟨d, hd, rfl⟩ := hds.digits c hc
    simpa using (digit_spec d hd).2.2.2.2.2.2.1
  have hdot : (dot != colon) = true := by decide
  intro c hc
  simp only [List.mem_append, List.mem_cons] at hc
  rcases hc with hc | rfl | hc | rfl | hc | rfl | hc
  · exact hnum h₁ c hc
  · exact hdot
  · exact hnum h₂ c hc
  · exact hdot
  · exact hnum h₃ c hc
  · exact hdot
  · exact hnum h₄ c hc

end Quad

end Nanio.Sock
