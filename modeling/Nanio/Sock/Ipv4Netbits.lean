/-
Nanio.Sock.Ipv4Netbits — `ipv4_netbits` of `io_ipv4.c`: how many leading
bits of an address are its network.

The network is that of the class of the address, or a special block. A
block that is larger than the networks of its class takes their place; the
one in class A, 100.64.0.0/10, is set apart inside a network. So the
addresses of the network that an address reports all report the same, but
for those of that block (`ipv4Netbits_network`). Four blocks are found for
a part of their addresses only (`CutBlock`), and from there it is
otherwise (`ipv4Netbits_network_iff`).
-/
import Nanio.Sock.Ipv4Text
import Nanio.Lib.Fields

namespace Nanio.Sock

open Nanio.Lib

/-! ## §1 The code -/

/-- The `switch` on the first octet, for the classes other than A. -/
def specialNetbits (ip : UInt32) (bits : Nat) : Nat :=
  match (ip >>> 24).toNat with
  | 169 => if ip &&& 0xFF0000 == 0xFE0000 then 16 else bits
  | 172 => if ip &&& 0xF00000 == 0x100000 then 12 else bits
  | 192 => if ip &&& 0xFFFF00 == 0xA80000 then 16 else bits
  | 198 => if ip &&& 0xFFFF00 == 0x120000 then 15 else bits
  | 224 => 4
  | 240 => 4
  | 255 => if ip &&& 0xFFFFFF == 0xFFFFFF then 1 else bits
  | _ => bits

/-- `ipv4_netbits`. -/
def ipv4Netbits (ip : UInt32) : Nat :=
  let bits := if ip >>> 29 < 4 then 8 else if ip >>> 29 < 5 then 16 else 24
  if bits = 8 then if ip &&& 0xFFC00000 == 0x64400000 then 10 else bits
  else specialNetbits ip bits

/-! ## §2 Blocks of addresses -/

/-- Two addresses with the same first `w` bits. -/
def Agree (w : Nat) (a b : UInt32) : Prop := a.toNat / 2 ^ (32 - w) = b.toNat / 2 ^ (32 - w)

instance (w : Nat) (a b : UInt32) : Decidable (Agree w a b) := inferInstanceAs (Decidable (_ = _))

/-- The broadcast address, 255.255.255.255. -/
def broadcast : UInt32 := quadAddr 255 255 255 255

/-- 100.64.0.0/10, which is a part of the network 100.0.0.0/8. -/
def SharedBlock (ip : UInt32) : Prop := Agree 10 (quadAddr 100 64 0 0) ip

/-- What the `switch` finds of 192.168.0.0/16, 198.18.0.0/15, 224.0.0.0/4
and 240.0.0.0/4: the first 256 addresses of the one and the other, and the
first octet of the last two. -/
def CutBlock (ip : UInt32) : Prop :=
  Agree 24 (quadAddr 192 168 0 0) ip ∨ Agree 24 (quadAddr 198 18 0 0) ip ∨
    Agree 8 (quadAddr 224 0 0 0) ip ∨ Agree 8 (quadAddr 240 0 0 0) ip

instance (ip : UInt32) : Decidable (SharedBlock ip) := inferInstanceAs (Decidable (Agree _ _ _))

instance (ip : UInt32) : Decidable (CutBlock ip) := inferInstanceAs (Decidable (_ ∨ _))

/-- A mask of `w` bits at bit `s` takes a field out. -/
theorem and_beq_field (w s v : Nat) (mask val : UInt32)
    (hmask : mask.toNat = (2 ^ w - 1) * 2 ^ s) (hval : val.toNat = v * 2 ^ s) (ip : UInt32) :
    (ip &&& mask == val) = decide (ip.toNat / 2 ^ s % 2 ^ w = v) := by
  rw [Bool.eq_iff_iff, beq_iff_eq, decide_eq_true_iff, ← UInt32.toNat_inj, UInt32.toNat_and, hmask,
    hval, and_field]
  exact Nat.mul_left_inj (Nat.two_pow_pos s).ne'

theorem toNat_shiftRight_24 (ip : UInt32) : (ip >>> 24).toNat = ip.toNat / 2 ^ 24 := by
  rw [UInt32.toNat_shiftRight, Nat.shiftRight_eq_div_pow]
  rfl

theorem shiftRight_29_lt (ip k : UInt32) : ip >>> 29 < k ↔ ip.toNat / 2 ^ 29 < k.toNat := by
  rw [UInt32.lt_iff_toNat_lt, UInt32.toNat_shiftRight, Nat.shiftRight_eq_div_pow]
  rfl

/-- A block is where the front of the address is a number. -/
theorem agree_iff {w n : Nat} {q : UInt32} (hq : q.toNat / 2 ^ (32 - w) = n) (ip : UInt32) :
    Agree w q ip ↔ ip.toNat / 2 ^ (32 - w) = n := by
  rw [Agree, hq]
  exact eq_comm

theorem linkLocal_iff (ip : UInt32) :
    Agree 16 (quadAddr 169 254 0 0) ip ↔ ip.toNat / 2 ^ 16 = 169 * 256 + 254 :=
  agree_iff (by decide) ip

theorem privateUse_iff (ip : UInt32) :
    Agree 12 (quadAddr 172 16 0 0) ip ↔ ip.toNat / 2 ^ 20 = 172 * 16 + 1 :=
  agree_iff (by decide) ip

theorem sharedBlock_iff (ip : UInt32) : SharedBlock ip ↔ ip.toNat / 2 ^ 22 = 100 * 4 + 1 :=
  agree_iff (by decide) ip

theorem localCut_iff (ip : UInt32) :
    Agree 24 (quadAddr 192 168 0 0) ip ↔ ip.toNat / 2 ^ 8 = (192 * 256 + 168) * 256 :=
  agree_iff (by decide) ip

theorem benchmarkCut_iff (ip : UInt32) :
    Agree 24 (quadAddr 198 18 0 0) ip ↔ ip.toNat / 2 ^ 8 = (198 * 256 + 18) * 256 :=
  agree_iff (by decide) ip

theorem octetCut_iff (ip : UInt32) :
    Agree 8 (quadAddr 224 0 0 0) ip ∨ Agree 8 (quadAddr 240 0 0 0) ip ↔
      ip.toNat / 2 ^ 24 = 224 ∨ ip.toNat / 2 ^ 24 = 240 :=
  or_congr (agree_iff (by decide) ip) (agree_iff (by decide) ip)

theorem cutBlock_iff (ip : UInt32) :
    CutBlock ip ↔ ip.toNat / 2 ^ 8 = (192 * 256 + 168) * 256 ∨
      ip.toNat / 2 ^ 8 = (198 * 256 + 18) * 256 ∨ ip.toNat / 2 ^ 24 = 224 ∨
      ip.toNat / 2 ^ 24 = 240 :=
  or_congr (localCut_iff ip) (or_congr (benchmarkCut_iff ip) (octetCut_iff ip))

/-- More bits in common are fewer in common. -/
theorem Agree.mono {w w' : Nat} {a b : UInt32} (h : Agree w' a b) (hw : w ≤ w') : Agree w a b := by
  obtain ⟨k, hk⟩ := Nat.exists_eq_add_of_le (by omega : 32 - w' ≤ 32 - w)
  have hsame : a.toNat / 2 ^ (32 - w') = b.toNat / 2 ^ (32 - w') := h
  rw [Agree, hk, Nat.pow_add, ← Nat.div_div_eq_div_mul, ← Nat.div_div_eq_div_mul, hsame]

theorem CutBlock.of_agree {a b : UInt32} (hb : CutBlock b) (h : Agree 24 a b) : CutBlock a := by
  have hoctet : Agree 8 a b := h.mono (by decide)
  rcases hb with hb | hb | hb | hb
  · exact .inl (hb.trans h.symm)
  · exact .inr (.inl (hb.trans h.symm))
  · exact .inr (.inr (.inl (hb.trans hoctet.symm)))
  · exact .inr (.inr (.inr (hb.trans hoctet.symm)))

/-- The `switch`, with the blocks in the order they are looked for. -/
theorem specialNetbits_eq (ip : UInt32) (bits : Nat) :
    specialNetbits ip bits =
      if Agree 16 (quadAddr 169 254 0 0) ip then 16
      else if Agree 12 (quadAddr 172 16 0 0) ip then 12
      else if Agree 24 (quadAddr 192 168 0 0) ip then 16
      else if Agree 24 (quadAddr 198 18 0 0) ip then 15
      else if Agree 8 (quadAddr 224 0 0 0) ip ∨ Agree 8 (quadAddr 240 0 0 0) ip then 4
      else if ip = broadcast then 1 else bits := by
  have h169 := and_beq_field 8 16 254 0xFF0000 0xFE0000 (by decide) (by decide) ip
  have h172 := and_beq_field 4 20 1 0xF00000 0x100000 (by decide) (by decide) ip
  have h192 := and_beq_field 16 8 (168 * 256) 0xFFFF00 0xA80000 (by decide) (by decide) ip
  have h198 := and_beq_field 16 8 (18 * 256) 0xFFFF00 0x120000 (by decide) (by decide) ip
  have h255 := and_beq_field 24 0 (2 ^ 24 - 1) 0xFFFFFF 0xFFFFFF (by decide) (by decide) ip
  have hlink : Agree 16 (quadAddr 169 254 0 0) ip ↔
      ip.toNat / 2 ^ 24 = 169 ∧ ip.toNat / 2 ^ 16 % 2 ^ 8 = 254 := by
    rw [linkLocal_iff]
    omega
  have hprivate : Agree 12 (quadAddr 172 16 0 0) ip ↔
      ip.toNat / 2 ^ 24 = 172 ∧ ip.toNat / 2 ^ 20 % 2 ^ 4 = 1 := by
    rw [privateUse_iff]
    omega
  have hlocal : Agree 24 (quadAddr 192 168 0 0) ip ↔
      ip.toNat / 2 ^ 24 = 192 ∧ ip.toNat / 2 ^ 8 % 2 ^ 16 = 168 * 256 := by
    rw [localCut_iff]
    omega
  have hbench : Agree 24 (quadAddr 198 18 0 0) ip ↔
      ip.toNat / 2 ^ 24 = 198 ∧ ip.toNat / 2 ^ 8 % 2 ^ 16 = 18 * 256 := by
    rw [benchmarkCut_iff]
    omega
  have hbroadcast : ip = broadcast ↔
      ip.toNat / 2 ^ 24 = 255 ∧ ip.toNat / 2 ^ 0 % 2 ^ 24 = 2 ^ 24 - 1 := by
    rw [← UInt32.toNat_inj]
    have hall : broadcast.toNat = 2 ^ 32 - 1 := rfl
    omega
  simp only [specialNetbits, h169, h172, h192, h198, h255, toNat_shiftRight_24, decide_eq_true_eq,
    hlink, hprivate, hlocal, hbench, octetCut_iff, hbroadcast]
  generalize ip.toNat / 2 ^ 24 = octet
  split
  case h_8 =>
    -- no octet that the `switch` names
    simp only [imp_false] at *
    simp [*]
  all_goals simp

/-- Class A, the `switch`, and the other classes. -/
theorem ipv4Netbits_eq (ip : UInt32) :
    ipv4Netbits ip =
      if ip.toNat / 2 ^ 31 = 0 then if SharedBlock ip then 10 else 8
      else specialNetbits ip (if ip.toNat / 2 ^ 29 = 4 then 16 else 24) := by
  have hlt := ip.toNat_lt
  have hshared := and_beq_field 10 22 401 0xFFC00000 0x64400000 (by decide) (by decide) ip
  have hfour : (4 : UInt32).toNat = 4 := rfl
  have hfive : (5 : UInt32).toNat = 5 := rfl
  simp only [ipv4Netbits, sharedBlock_iff, hshared, shiftRight_29_lt, decide_eq_true_eq, hfour,
    hfive]
  split_ifs <;> omega

/-! ## §3 The network of an address -/

/-- Where an address lies, and the bits of its network. -/
inductive Place (ip : UInt32) : Nat → Prop where
  | classA (h : ip.toNat / 2 ^ 31 = 0) (hshared : ¬ SharedBlock ip) : Place ip 8
  | shared (h : SharedBlock ip) : Place ip 10
  | linkLocal (h : Agree 16 (quadAddr 169 254 0 0) ip) : Place ip 16
  | privateUse (h : Agree 12 (quadAddr 172 16 0 0) ip) : Place ip 12
  | classB (h : ip.toNat / 2 ^ 29 = 4) : Place ip 16
  | other (h : 5 ≤ ip.toNat / 2 ^ 29) (hlink : ¬ Agree 16 (quadAddr 169 254 0 0) ip)
      (hprivate : ¬ Agree 12 (quadAddr 172 16 0 0) ip) (hcut : ¬ CutBlock ip) : Place ip 24

/-- Outside the blocks only the class counts. -/
theorem specialNetbits_class {ip : UInt32} (hip : ip ≠ broadcast)
    (hlink : ¬ Agree 16 (quadAddr 169 254 0 0) ip) (hprivate : ¬ Agree 12 (quadAddr 172 16 0 0) ip)
    (hcut : ¬ CutBlock ip) (bits : Nat) : specialNetbits ip bits = bits := by
  obtain ⟨hlocal, hbench, hoctet⟩ : ¬ Agree 24 (quadAddr 192 168 0 0) ip ∧
      ¬ Agree 24 (quadAddr 198 18 0 0) ip ∧
      ¬ (Agree 8 (quadAddr 224 0 0 0) ip ∨ Agree 8 (quadAddr 240 0 0 0) ip) := by
    simpa only [CutBlock, not_or] using hcut
  rw [specialNetbits_eq, if_neg hlink, if_neg hprivate, if_neg hlocal, if_neg hbench,
    if_neg hoctet, if_neg hip]

theorem place_ipv4Netbits {ip : UInt32} (hip : ip ≠ broadcast) (hcut : ¬ CutBlock ip) :
    Place ip (ipv4Netbits ip) := by
  rw [ipv4Netbits_eq]
  by_cases hA : ip.toNat / 2 ^ 31 = 0
  · rw [if_pos hA]
    by_cases hshared : SharedBlock ip
    · rw [if_pos hshared]
      exact .shared hshared
    · rw [if_neg hshared]
      exact .classA hA hshared
  · rw [if_neg hA]
    by_cases hlink : Agree 16 (quadAddr 169 254 0 0) ip
    · rw [specialNetbits_eq, if_pos hlink]
      exact .linkLocal hlink
    · by_cases hprivate : Agree 12 (quadAddr 172 16 0 0) ip
      · rw [specialNetbits_eq, if_neg hlink, if_pos hprivate]
        exact .privateUse hprivate
      · rw [specialNetbits_class hip hlink hprivate hcut]
        by_cases hB : ip.toNat / 2 ^ 29 = 4
        · rw [if_pos hB]
          exact .classB hB
        · rw [if_neg hB]
          exact .other (by omega) hlink hprivate hcut

theorem Place.unique {ip : UInt32} {w : Nat} (hip : ip ≠ broadcast) (h : Place ip w) :
    ipv4Netbits ip = w := by
  rw [ipv4Netbits_eq]
  cases h with
  | classA h hshared => rw [if_pos h, if_neg hshared]
  | shared h =>
    have hfront := (sharedBlock_iff ip).mp h
    have hA : ip.toNat / 2 ^ 31 = 0 := by omega
    rw [if_pos hA, if_pos h]
  | linkLocal h =>
    have hfront := (linkLocal_iff ip).mp h
    have hA : ip.toNat / 2 ^ 31 ≠ 0 := by omega
    rw [if_neg hA, specialNetbits_eq, if_pos h]
  | privateUse h =>
    have hfront := (privateUse_iff ip).mp h
    have hA : ip.toNat / 2 ^ 31 ≠ 0 := by omega
    have hlink : ¬ Agree 16 (quadAddr 169 254 0 0) ip := by
      rw [linkLocal_iff]
      omega
    rw [if_neg hA, specialNetbits_eq, if_neg hlink, if_pos h]
  | classB h =>
    have hA : ip.toNat / 2 ^ 31 ≠ 0 := by omega
    have hlink : ¬ Agree 16 (quadAddr 169 254 0 0) ip := by
      rw [linkLocal_iff]
      omega
    have hprivate : ¬ Agree 12 (quadAddr 172 16 0 0) ip := by
      rw [privateUse_iff]
      omega
    have hcut : ¬ CutBlock ip := by
      rw [cutBlock_iff]
      omega
    rw [if_neg hA, specialNetbits_class hip hlink hprivate hcut, if_pos h]
  | other h hlink hprivate hcut =>
    have hA : ip.toNat / 2 ^ 31 ≠ 0 := by omega
    have hB : ip.toNat / 2 ^ 29 ≠ 4 := by omega
    rw [if_neg hA, specialNetbits_class hip hlink hprivate hcut, if_neg hB]

/-- No network is larger than an octet. -/
theorem Place.eight_le {ip : UInt32} {w : Nat} (h : Place ip w) : 8 ≤ w := by
  cases h <;> decide

theorem Place.agree {a b : UInt32} {w : Nat} (ha : Place a w) (h : Agree w a b) :
    Place b (if SharedBlock b then 10 else w) := by
  by_cases hshared : SharedBlock b
  · rw [if_pos hshared]
    exact .shared hshared
  · rw [if_neg hshared]
    cases ha with
    | classA ha hashared =>
      refine .classA ?_ hshared
      unfold Agree at h
      omega
    | shared ha => exact absurd (ha.trans h) hshared
    | linkLocal ha => exact .linkLocal (ha.trans h)
    | privateUse ha => exact .privateUse (ha.trans h)
    | classB ha =>
      refine .classB ?_
      unfold Agree at h
      omega
    | other ha hlink hprivate hcut =>
      have hsixteen : Agree 16 a b := h.mono (by decide)
      have htwelve : Agree 12 a b := h.mono (by decide)
      refine .other ?_ (fun hb => hlink (hb.trans hsixteen.symm))
        (fun hb => hprivate (hb.trans htwelve.symm)) fun hb => hcut (hb.of_agree h)
      unfold Agree at h
      omega

/-- The addresses of the network that an address reports report it too, but
for those of the block that is set apart in 100.0.0.0/8. -/
theorem ipv4Netbits_network (a b : UInt32) (ha : a ≠ broadcast) (hb : b ≠ broadcast)
    (hcut : ¬ CutBlock a) (h : Agree (ipv4Netbits a) a b) :
    ipv4Netbits b = if SharedBlock b then 10 else ipv4Netbits a := by
  have hplace := (place_ipv4Netbits ha hcut).agree h
  exact hplace.unique hb

/-- Two addresses of 100.0.0.0/8, the second in the block set apart. -/
theorem ipv4Netbits_network_shared :
    ipv4Netbits (quadAddr 100 64 0 1) =
      if SharedBlock (quadAddr 100 64 0 1) then 10 else ipv4Netbits (quadAddr 100 1 2 3) :=
  ipv4Netbits_network (quadAddr 100 1 2 3) (quadAddr 100 64 0 1) (by decide) (by decide) (by decide)
    (by decide)

theorem ipv4Netbits_not_constant :
    ¬ ∀ a b : UInt32, a ≠ broadcast → b ≠ broadcast → Agree (ipv4Netbits a) a b →
      ipv4Netbits b = ipv4Netbits a := by
  intro h
  have heq := h (quadAddr 100 1 2 3) (quadAddr 100 64 0 1) (by decide) (by decide) (by decide)
  revert heq
  decide

/-- From the part of a block that is found to an address of the rest of it. -/
theorem CutBlock.rest {a : UInt32} (ha : a ≠ broadcast) (hcut : CutBlock a) :
    ∃ w b, ipv4Netbits a = w ∧ b ≠ broadcast ∧ Agree w b a ∧ ipv4Netbits b ≠ w := by
  have hvalue := ipv4Netbits_eq a
  rw [specialNetbits_eq, if_neg ha] at hvalue
  simp only [sharedBlock_iff, linkLocal_iff, privateUse_iff, localCut_iff, benchmarkCut_iff,
    octetCut_iff] at hvalue
  rcases hcut with h | h | h | h
  · refine ⟨16, quadAddr 192 168 1 0, ?_, by decide, ?_, by decide⟩
    · rw [localCut_iff] at h
      rw [hvalue]
      split_ifs <;> omega
    · have hblock : Agree 16 (quadAddr 192 168 1 0) (quadAddr 192 168 0 0) := by decide
      exact hblock.trans (h.mono (by decide))
  · refine ⟨15, quadAddr 198 19 0 0, ?_, by decide, ?_, by decide⟩
    · rw [benchmarkCut_iff] at h
      rw [hvalue]
      split_ifs <;> omega
    · have hblock : Agree 15 (quadAddr 198 19 0 0) (quadAddr 198 18 0 0) := by decide
      exact hblock.trans (h.mono (by decide))
  · refine ⟨4, quadAddr 225 0 0 0, ?_, by decide, ?_, by decide⟩
    · have hoctet := (agree_iff (n := 224) (by decide) a).mp h
      rw [hvalue]
      split_ifs <;> omega
    · have hblock : Agree 4 (quadAddr 225 0 0 0) (quadAddr 224 0 0 0) := by decide
      exact hblock.trans (h.mono (by decide))
  · refine ⟨4, quadAddr 241 0 0 0, ?_, by decide, ?_, by decide⟩
    · have hoctet := (agree_iff (n := 240) (by decide) a).mp h
      rw [hvalue]
      split_ifs <;> omega
    · have hblock : Agree 4 (quadAddr 241 0 0 0) (quadAddr 240 0 0 0) := by decide
      exact hblock.trans (h.mono (by decide))

/-- The addresses whose network has one number of bits throughout. -/
theorem ipv4Netbits_network_iff (a : UInt32) (ha : a ≠ broadcast) :
    (∀ b ≠ broadcast, Agree (ipv4Netbits a) a b → ipv4Netbits b = ipv4Netbits a) ↔
      ¬ CutBlock a ∧ (Agree 8 (quadAddr 100 0 0 0) a → SharedBlock a) := by
  constructor
  · intro h
    constructor
    · intro hcut
      obtain ⟨w, b, hw, hb, hagree, hne⟩ := hcut.rest ha
      rw [hw] at h
      exact hne (h b hb hagree.symm)
    · intro h100
      by_contra hshared
      have hagree : Agree 8 a (quadAddr 100 64 0 0) := h100.symm.trans (by decide)
      have hfront : a.toNat / 2 ^ 24 = 100 := (agree_iff (by decide) a).mp h100
      have hA : a.toNat / 2 ^ 31 = 0 := by omega
      have height : ipv4Netbits a = 8 := (Place.classA hA hshared).unique ha
      rw [height] at h
      exact absurd (h _ (by decide) hagree) (by decide)
  · rintro ⟨hcut, hshared⟩ b hb h
    rw [ipv4Netbits_network a b ha hb hcut h]
    by_cases hb' : SharedBlock b
    · -- The shared block is in 100.0.0.0/8, so both are, and `a` is in it too.
      have hclass : Agree 8 (quadAddr 100 0 0 0) (quadAddr 100 64 0 0) := by decide
      have hb8 : Agree 8 (quadAddr 100 64 0 0) b := Agree.mono hb' (by decide)
      have hsame : Agree 8 a b := h.mono (place_ipv4Netbits ha hcut).eight_le
      rw [if_pos hb']
      exact ((Place.shared (hshared ((hclass.trans hb8).trans hsame.symm))).unique ha).symm
    · rw [if_neg hb']

end Nanio.Sock
