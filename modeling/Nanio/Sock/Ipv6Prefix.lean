/-
Nanio.Sock.Ipv6Prefix — IPv6 addresses with the length of a prefix, in
`io_ipv6.c`.

A text is an address, a slash and a number. Up to 40 characters before the
slash are given to `inet_pton`; the number may have white space and a sign
before it and anything behind it, and it need not be a length of a prefix.
What is printed is read back unless the text of the address is longer
(`ipv6_prefix_iff`). In a temporary buffer it is alone as long as it fits
there; `ipv6_nptoa` does not see to that.
-/
import Nanio.Sock.HostAddr
import Nanio.Tmp.TmpStr

namespace Nanio.Sock

open Nanio.Lib Nanio.Tmp

/-! ## §1 The functions -/

def slash : UInt8 := ascii '/'

/-- `%d`. -/
def printInt (n : Int) : Text :=
  if n < 0 then ascii '-' :: decimal n.natAbs else decimal n.natAbs

/-- `%d` of `sscanf`, which is `strtol` where that finds a digit. -/
def scanInt (p : Text) : Option Int :=
  if (signOf p).2.takeWhile isDigit = [] then none else some (atoi p)

/-- `sscanf(a, "%40[^/]/%d", ip, prefix_len)`, if it stores both. -/
def scanPrefix (a : Text) : Option (Text × Int) :=
  let ip := (a.takeWhile (· != slash)).take 40
  if ip = [] then none
  else if a[ip.length]? ≠ some slash then none
  else (scanInt (a.drop (ip.length + 1))).map (ip, ·)

/-- The size `inet_ntop` is given. It writes the text of an address only if
that is shorter, as all are. -/
def INET6_ADDRSTRLEN : Nat := 46

/-- The text of `ipv6_nptostr`, in a buffer of the caller. -/
def ipv6Nptostr (net : Inet) (n : List UInt8) (prefixLen : Int) : Text :=
  net.ntop n ++ slash :: printInt prefixLen

/-- `ipv6_nptoa`: where the text stands in the temporary buffers. The number
is printed at the NUL of the address. -/
def ipv6Nptoa (net : Inet) (s : TmpStr) (n : List UInt8) (prefixLen : Int) :
    Except TmpFault (Nat × TmpStr) := do
  let (base, s) := getTmpStr s
  let s ← store s base (net.ntop n ++ [0])
  let s ← store s (base + (textAt s base).length) (slash :: printInt prefixLen ++ [0])
  pure (base, s)

/-- `ipv6_atonp`: what it returns, `n` and `*prefix_len`. -/
def ipv6Atonp (net : Inet) (n : List UInt8) (prefixLen : Int) (a : Text) :
    Int × List UInt8 × Int :=
  match scanPrefix a with
  | none => (-1, n, prefixLen)
  | some (ip, len) =>
    match net.pton ip with
    | some n => (0, n, len)
    | none => (-1, n, len)

/-- `ipv6_atohp`: what it returns, `h` and `*prefix_len`. -/
def ipv6Atohp (net : Inet) (h : Vector UInt16 8) (prefixLen : Int) (a : Text) :
    Int × Vector UInt16 8 × Int :=
  match scanPrefix a with
  | none => (-1, h, prefixLen)
  | some (ip, len) => ((ipv6Atoh net ip).1, (ipv6Atoh net ip).2, len)

/-! ## §2 Signed numbers -/

/-- The `int` for digits of value `n`, over a `long` that stays at its ends. -/
def Sign.int (s : Sign) (n : Nat) : Int :=
  toInt (if s = .minus then max (-n) (-2 ^ 63) else min n (2 ^ 63 - 1))

/-- White space, a sign and digits: the `int` they are to `sscanf`. -/
inductive IntText : Text → Int → Prop where
  | mk {space ds : Text} (sign : Sign) {n : Nat} (hspace : ∀ c ∈ space, isSpace c = true)
      (h : Numeral ds n) : IntText (space ++ (sign.text ++ ds)) (sign.int n)

/-- A number is read up to the character behind its last digit. -/
theorem IntText.scanInt {t : Text} {n : Int} (h : IntText t n) {rest : Text}
    (hrest : ∀ c ∈ rest.head?, isDigit c = false) : Sock.scanInt (t ++ rest) = some n := by
  cases h with
  | @mk space ds sign n hspace h =>
    have hassoc : space ++ (sign.text ++ ds) ++ rest = space ++ (sign.text ++ (ds ++ rest)) := by
      simp [List.append_assoc]
    rw [hassoc]
    simp [Sock.scanInt, atoi, h.signOf_sign hspace, h.takeWhile hrest, h.value, h.ne_nil, Sign.int]

/-- What is read is such a number, with no digit left behind it. -/
theorem scanInt_intText {p : Text} {n : Int} (h : scanInt p = some n) :
    ∃ t rest, p = t ++ rest ∧ IntText t n ∧ ∀ c ∈ rest.head?, isDigit c = false := by
  obtain ⟨space, sign, hspace, hp, hsign⟩ := signOf_split p
  by_cases hds : (signOf p).2.takeWhile isDigit = []
  · simp [scanInt, hds] at h
  have hnum := numeral_takeWhile hds
  have hcut := List.takeWhile_append_dropWhile (p := isDigit) (l := (signOf p).2)
  have hn : n = sign.int (digitsValue ((signOf p).2.takeWhile isDigit)) := by
    simp only [scanInt, if_neg hds, Option.some.injEq] at h
    rw [← h, atoi, Sign.int]
    simp only [hsign]
  rw [hn]
  refine ⟨_, (signOf p).2.dropWhile isDigit, ?_, .mk sign hspace hnum, head?_dropWhile isDigit _⟩
  conv_lhs => rw [hp, ← hcut]
  simp [List.append_assoc]

theorem intText_printInt {n : Int} (hlow : -2 ^ 31 ≤ n) (hhigh : n < 2 ^ 31) :
    IntText (printInt n) n := by
  have hnum := decimal_numeral n.natAbs
  have hnil : ∀ c ∈ ([] : Text), isSpace c = true := by simp
  by_cases hneg : n < 0
  · have hint : Sign.minus.int n.natAbs = n := by
      have hmax : max (-(n.natAbs : Int)) (-2 ^ 63) = n := by omega
      rw [Sign.int, if_pos rfl, hmax]
      exact toInt_of_lt hlow hhigh
    have htext := IntText.mk .minus hnil hnum
    rw [hint] at htext
    rw [printInt, if_pos hneg]
    exact htext
  · have hint : Sign.none.int n.natAbs = n := by
      have hmin : min (n.natAbs : Int) (2 ^ 63 - 1) = n := by omega
      rw [Sign.int, if_neg (by decide), hmin]
      exact toInt_of_lt hlow hhigh
    have htext := IntText.mk .none hnil hnum
    rw [hint] at htext
    rw [printInt, if_neg hneg]
    exact htext

/-! ## §3 Addresses with a prefix -/

/-- The text starts with an address, a slash and a number. -/
def PrefixText (a ip : Text) (len : Int) : Prop :=
  ∃ num rest, a = ip ++ slash :: (num ++ rest) ∧ ip ≠ [] ∧ ip.length ≤ 40 ∧ slash ∉ ip ∧
    IntText num len ∧ ∀ c ∈ rest.head?, isDigit c = false

theorem takeWhile_slash {ip : Text} (hno : slash ∉ ip) (rest : Text) :
    (ip ++ slash :: rest).takeWhile (· != slash) = ip := by
  have hall : ∀ c ∈ ip, (c != slash) = true := fun c hc => by
    simp only [bne_iff_ne]
    rintro rfl
    exact hno hc
  rw [List.takeWhile_append_of_pos hall, List.takeWhile_cons_of_neg (by simp), List.append_nil]

/-- Both are stored for such texts. -/
theorem scanPrefix_eq_some_iff {a ip : Text} {len : Int} :
    scanPrefix a = some (ip, len) ↔ PrefixText a ip len := by
  constructor
  · intro h
    have hsplit := List.takeWhile_append_dropWhile (p := (· != slash)) (l := a)
    unfold scanPrefix at h
    dsimp only at h
    generalize hip : (a.takeWhile (· != slash)).take 40 = ip' at h
    by_cases hne : ip' = []
    · simp [hne] at h
    by_cases hslash : a[ip'.length]? = some slash
    · simp only [if_neg hne, hslash, ne_eq, not_true_eq_false, if_false, Option.map_eq_some_iff,
        Prod.mk.injEq] at h
      obtain ⟨n, hscan, rfl, rfl⟩ := h
      obtain ⟨num, rest, hnum, htext, hrest⟩ := scanInt_intText hscan
      have hpre : ip' <+: a := by
        rw [← hip]
        exact (List.take_prefix 40 _).trans (List.takeWhile_prefix _)
      obtain ⟨more, rfl⟩ := hpre
      obtain ⟨more, rfl⟩ : ∃ q, more = slash :: q := by
        rw [List.getElem?_append_right (Nat.le_refl _), Nat.sub_self,
          ← List.head?_eq_getElem?] at hslash
        exact List.head?_eq_some_iff.mp hslash
      have hdrop : (ip' ++ slash :: more).drop (ip'.length + 1) = more := by
        rw [← List.drop_drop, List.drop_left, List.drop_one, List.tail_cons]
      rw [hdrop] at hnum
      refine ⟨num, rest, by rw [hnum], hne, ?_, ?_, htext, hrest⟩
      · rw [← hip]
        exact List.length_take_le 40 _
      · intro hmem
        rw [← hip] at hmem
        have hno := List.mem_takeWhile_imp (List.mem_of_mem_take hmem)
        simp at hno
    · simp [hne, hslash] at h
  · rintro ⟨num, rest, rfl, hne, hlen, hno, htext, hrest⟩
    have hip : ((ip ++ slash :: (num ++ rest)).takeWhile (· != slash)).take 40 = ip := by
      rw [takeWhile_slash hno, List.take_of_length_le hlen]
    have hdrop : (ip ++ slash :: (num ++ rest)).drop (ip.length + 1) = num ++ rest := by
      rw [← List.drop_drop, List.drop_left, List.drop_one, List.tail_cons]
    have hslash : (ip ++ slash :: (num ++ rest))[ip.length]? = some slash := by simp
    simp only [scanPrefix, hip, if_neg hne, hslash, ne_eq, not_true_eq_false, if_false, hdrop,
      htext.scanInt hrest, Option.map_some]

theorem prefixText_printInt {ip : Text} {len : Int} (hne : ip ≠ []) (hno : slash ∉ ip)
    (hlow : -2 ^ 31 ≤ len) (hhigh : len < 2 ^ 31) {len' : Int} :
    PrefixText (ip ++ slash :: printInt len) ip len' ↔ ip.length ≤ 40 ∧ len' = len := by
  have hnum := intText_printInt hlow hhigh
  constructor
  · rintro ⟨num, rest, htext, -, hlen, -, hint, hrest⟩
    have hmore : printInt len = num ++ rest := by simpa using htext
    have hread := hint.scanInt hrest
    have hback : scanInt (printInt len ++ []) = some len := hnum.scanInt (by simp)
    rw [List.append_nil, hmore, hread] at hback
    exact ⟨hlen, Option.some.inj hback⟩
  · rintro ⟨hlen, rfl⟩
    exact ⟨printInt len', [], by simp, hne, hlen, hno, hnum, by simp⟩

theorem ipv6Atonp_eq_zero_iff (net : Inet) (n₀ : List UInt8) (len₀ : Int) {a : Text}
    {n : List UInt8} {len : Int} : ipv6Atonp net n₀ len₀ a = (0, n, len) ↔
      ∃ ip, PrefixText a ip len ∧ net.pton ip = some n := by
  simp only [← scanPrefix_eq_some_iff]
  unfold ipv6Atonp
  cases hscan : scanPrefix a with
  | none => simp
  | some found =>
    obtain ⟨ip, len'⟩ := found
    cases hpton : net.pton ip with
    | none => simp [hpton]
    | some n' => simp [hpton]; tauto

theorem ipv6Atohp_eq_zero_iff (net : Inet) (h₀ : Vector UInt16 8) (len₀ : Int) {a : Text}
    {h : Vector UInt16 8} {len : Int} : ipv6Atohp net h₀ len₀ a = (0, h, len) ↔
      ∃ ip n, PrefixText a ip len ∧ net.pton ip = some n ∧ h = ipv6Ntoh n := by
  simp only [← scanPrefix_eq_some_iff]
  unfold ipv6Atohp ipv6Atoh
  cases hscan : scanPrefix a with
  | none => simp
  | some found =>
    obtain ⟨ip, len'⟩ := found
    obtain ⟨-, -, -, hne, -⟩ := scanPrefix_eq_some_iff.mp hscan
    cases hpton : net.pton ip with
    | none => simp [hpton]
    | some n' =>
      simp [hpton, hne]
      tauto

/-! ## §4 There and back -/

section

variable {net : Inet} {h : Vector UInt16 8} (hnet : net.Ipv6Text h) {len : Int}
  (hlow : -2 ^ 31 ≤ len) (hhigh : len < 2 ^ 31)

include hnet hlow hhigh

/-- What stands in the text of an address with a prefix. -/
theorem prefixText_nptostr {ip : Text} {len' : Int} :
    PrefixText (ipv6Nptostr net (ipv6Hton h) len) ip len' ↔
      ip = net.ntop (ipv6Hton h) ∧ ip.length ≤ 40 ∧ len' = len := by
  have hne : net.ntop (ipv6Hton h) ≠ [] := by
    obtain ⟨front, rest, htext, -⟩ := hnet.colon
    simp [htext]
  constructor
  · rintro ⟨num, rest, htext, hne', hlen, hno, hint, hrest⟩
    have hip : net.ntop (ipv6Hton h) = ip := by
      rw [← takeWhile_slash hnet.noSlash (printInt len), ← takeWhile_slash hno (num ++ rest),
        ← htext, ipv6Nptostr]
    subst hip
    have hsame := (prefixText_printInt hne hnet.noSlash hlow hhigh).mp
      ⟨num, rest, htext, hne', hlen, hno, hint, hrest⟩
    exact ⟨rfl, hsame⟩
  · rintro ⟨rfl, hlen, rfl⟩
    exact (prefixText_printInt hne hnet.noSlash hlow hhigh).mpr ⟨hlen, rfl⟩

theorem ipv6Atonp_nptostr_iff (n₀ : List UInt8) (len₀ : Int) :
    ipv6Atonp net n₀ len₀ (ipv6Nptostr net (ipv6Hton h) len) = (0, ipv6Hton h, len) ↔
      (net.ntop (ipv6Hton h)).length ≤ 40 := by
  simp only [ipv6Atonp_eq_zero_iff, prefixText_nptostr hnet hlow hhigh]
  constructor
  · rintro ⟨ip, ⟨rfl, hlen, -⟩, -⟩
    exact hlen
  · intro hlen
    exact ⟨_, ⟨rfl, hlen, trivial⟩, hnet.back⟩

theorem ipv6Atohp_nptostr_iff (h₀ : Vector UInt16 8) (len₀ : Int) :
    ipv6Atohp net h₀ len₀ (ipv6Nptostr net (ipv6Hton h) len) = (0, h, len) ↔
      (net.ntop (ipv6Hton h)).length ≤ 40 := by
  simp only [ipv6Atohp_eq_zero_iff, prefixText_nptostr hnet hlow hhigh]
  constructor
  · rintro ⟨ip, n, ⟨rfl, hlen, -⟩, -⟩
    exact hlen
  · intro hlen
    exact ⟨_, _, ⟨rfl, hlen, trivial⟩, hnet.back, (ipv6Ntoh_ipv6Hton h).symm⟩

end

/-! ## §5 In a temporary buffer -/

/-- The text of a call of `ipv6_nptoa`: alone in its buffer, or longer and
with its end in the next one, or behind the last buffer. -/
def NptoaShows (net : Inet) (s : TmpStr) (n : List UInt8) (len : Int) : Prop :=
  let base := slot s * TMP_STR_SIZE
  let text := ipv6Nptostr net n len
  if base + text.length < 8 * TMP_STR_SIZE then
    ∃ s', ipv6Nptoa net s n len = .ok (base, s') ∧ textAt s' base = text ∧
      if text.length < TMP_STR_SIZE then ∀ k, k ≠ slot s → SameBuffer (k * TMP_STR_SIZE) s s'
      else textAt s' (base + TMP_STR_SIZE) = text.drop TMP_STR_SIZE
  else ipv6Nptoa net s n len = .error .overflow

theorem zero_not_mem_printInt (n : Int) : 0 ∉ printInt n := by
  have hdigits : 0 ∉ decimal n.natAbs := fun h =>
    absurd ((decimal_numeral n.natAbs).digits 0 h) (by decide)
  rw [printInt]
  split
  · simpa using ⟨by decide, hdigits⟩
  · exact hdigits

theorem nptoa_shows {net : Inet} {n : List UInt8} (h0 : 0 ∉ net.ntop n) (s : TmpStr) (len : Int) :
    NptoaShows net s n len := by
  have hslot := slot_lt s
  have hnul : 0 ∉ ipv6Nptostr net n len := by
    simp only [ipv6Nptostr, List.mem_append, List.mem_cons, not_or]
    exact ⟨h0, by decide, zero_not_mem_printInt len⟩
  obtain ⟨base, hbase⟩ : ∃ base, base = slot s * TMP_STR_SIZE := ⟨_, rfl⟩
  have hlen : (ipv6Nptostr net n len).length =
      (net.ntop n).length + ((printInt len).length + 1) := by
    rw [ipv6Nptostr, List.length_append, List.length_cons]
  have hin : base ≤ 8 * TMP_STR_SIZE := by
    rw [hbase]
    exact Nat.mul_le_mul_right _ (Nat.le_of_lt hslot)
  have hrun : ipv6Nptoa net s n len = (do
      let s₁ ← store (getTmpStr s).2 base (net.ntop n ++ [0])
      let s₂ ← store s₁ (base + (textAt s₁ base).length) (slash :: printInt len ++ [0])
      pure (base, s₂)) := by rw [hbase]; rfl
  unfold NptoaShows
  dsimp only
  rw [← hbase, hrun]
  split
  · next hroom =>
    have haddr : base + (net.ntop n ++ [0]).length ≤ 8 * TMP_STR_SIZE := by simp; omega
    obtain ⟨s₁, hs₁, -, hbuf₁⟩ := store_eq (getTmpStr s).2 haddr
    have htext := textAt_store h0 hin hbuf₁ (Nat.zero_le _)
    rw [Nat.add_zero, List.drop_zero] at htext
    have hnumber : base + (net.ntop n).length + (slash :: printInt len ++ [0]).length ≤
        8 * TMP_STR_SIZE := by simp; omega
    obtain ⟨s₂, hs₂, -, hbuf₂⟩ := store_eq s₁ hnumber
    -- the number and its NUL stand behind the address, over its NUL
    rw [hbuf₁, overwrite_behind _ (by rwa [Vector.length_toList]) (by simp),
      ← List.append_assoc] at hbuf₂
    have hat := fun k (hk : k ≤ (ipv6Nptostr net n len).length) => textAt_store hnul hin hbuf₂ hk
    refine ⟨s₂, ?_, hat 0 (Nat.zero_le _), ?_⟩
    · simp only [hs₁, htext, hs₂, bind, Except.bind]
      rfl
    · split
      · next hfits =>
        intro k hk
        refine sameBuffer_store (s := s) hin hbuf₂ ?_
        have hbytes : (net.ntop n ++ slash :: printInt len ++ [0]).length =
            (ipv6Nptostr net n len).length + 1 := List.length_append
        rw [hbytes, hbase]
        unfold TMP_STR_SIZE at *
        omega
      · exact hat TMP_STR_SIZE (by omega)
  · next hroom =>
    by_cases hfirst : base + (net.ntop n ++ [0]).length ≤ 8 * TMP_STR_SIZE
    · obtain ⟨s₁, hs₁, -, hbuf₁⟩ := store_eq (getTmpStr s).2 hfirst
      have htext := textAt_store h0 hin hbuf₁ (Nat.zero_le _)
      rw [Nat.add_zero, List.drop_zero] at htext
      have hout : store s₁ (base + (net.ntop n).length) (slash :: printInt len ++ [0]) =
          .error .overflow := if_neg (by simp; omega)
      simp only [hs₁, htext, hout, bind, Except.bind]
    · have hout : store (getTmpStr s).2 base (net.ntop n ++ [0]) = .error .overflow := if_neg hfirst
      simp only [hout, bind, Except.bind]

end Nanio.Sock
