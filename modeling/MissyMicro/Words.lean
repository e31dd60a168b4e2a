import Mathlib.Algebra.Group.Nat.Defs
import Mathlib.Tactic.Common

/-!
# 32-bit words and 4 KB pages

The low twelve bits of a word are the offset within a page or the flags of a
table entry. Masking them off, setting flags among them and testing bit 0 are
reduced to division by the page size.
-/

abbrev U32 := BitVec 32

namespace Words

theorem getLsbD_pageMask {i : Nat} : (0xfff#32).getLsbD i = decide (i < 12) := by
  rw [BitVec.getLsbD_ofNat, show (0xfff : Nat) = 2 ^ 12 - 1 from rfl, Nat.testBit_two_pow_sub_one]
  by_cases h : i < 12
  · simp [h, show i < 32 by omega]
  · simp [h]

theorem and_not_pageMask (a : U32) : a &&& ~~~0xfff#32 = (a >>> 12) <<< 12 := by
  apply BitVec.eq_of_getLsbD_eq
  intro i hi
  rw [BitVec.getLsbD_and, BitVec.getLsbD_not, getLsbD_pageMask, BitVec.getLsbD_shiftLeft,
    BitVec.getLsbD_ushiftRight]
  by_cases h : i < 12
  · simp [h, hi]
  · simp [h, hi, show 12 + (i - 12) = i by omega]

/-- Masking the low twelve bits rounds down to a page boundary. -/
theorem toNat_and_not_pageMask (a : U32) :
    (a &&& ~~~0xfff#32).toNat = a.toNat / 4096 * 4096 := by
  have hlt := a.isLt
  rw [and_not_pageMask, BitVec.toNat_shiftLeft, BitVec.toNat_ushiftRight,
    Nat.shiftRight_eq_div_pow, Nat.shiftLeft_eq]
  omega

/-- Flags among the low twelve bits leave the page number alone. -/
theorem or_flags_div (a : U32) {flags : U32} (h : flags.toNat < 4096) :
    (a ||| flags).toNat / 4096 = a.toNat / 4096 := by
  rw [BitVec.toNat_or, show (4096 : Nat) = 2 ^ 12 from rfl, ← Nat.shiftRight_eq_div_pow,
    ← Nat.shiftRight_eq_div_pow, Nat.shiftRight_or_distrib, Nat.shiftRight_eq_div_pow flags.toNat,
    Nat.div_eq_of_lt h, Nat.or_zero]

theorem and_one_ne_zero (a : U32) : a &&& 1#32 ≠ 0#32 ↔ a.toNat % 2 = 1 := by
  have h : (a &&& 1#32).toNat = a.toNat % 2 := by
    rw [BitVec.toNat_and]
    exact Nat.and_two_pow_sub_one_eq_mod a.toNat 1
  rw [ne_eq, ← BitVec.toNat_inj, h, BitVec.toNat_ofNat]
  omega

/-- On a page address, setting flags is adding them. -/
theorem or_flags_eq_add {a flags : U32} (aligned : a.toNat % 4096 = 0)
    (h : flags.toNat < 4096) : a ||| flags = a + flags := by
  symm
  apply BitVec.add_eq_or_of_and_eq_zero
  apply BitVec.eq_of_toNat_eq
  rw [BitVec.toNat_and]
  have hflags : flags.toNat = flags.toNat &&& (2 ^ 12 - 1) := by
    rw [Nat.and_two_pow_sub_one_eq_mod, Nat.mod_eq_of_lt h]
  rw [hflags, Nat.and_comm flags.toNat, ← Nat.and_assoc, Nat.and_two_pow_sub_one_eq_mod]
  simp [aligned]

theorem or_present (a flags : U32) (h : flags &&& 1#32 ≠ 0#32) :
    (a ||| flags) &&& 1#32 ≠ 0#32 := by
  intro hz
  apply h
  apply BitVec.eq_of_getLsbD_eq
  intro i hi
  have hi' := congrArg (fun x => BitVec.getLsbD x i) hz
  simp only [BitVec.getLsbD_and, BitVec.getLsbD_or] at hi' ⊢
  cases hf : flags.getLsbD i with
  | false => simp
  | true => simpa [hf] using hi'

/-- Byte `k` of a word replaced. -/
def setByte (w : U32) (k : Nat) (x : BitVec 8) : U32 :=
  (w &&& ~~~(0xff#32 <<< (8 * k))) ||| (x.setWidth 32 <<< (8 * k))

theorem setByte_setByte (w : U32) (k : Nat) (x : BitVec 8) :
    setByte (setByte w k x) k x = setByte w k x := by
  apply BitVec.eq_of_getLsbD_eq
  intro i hi
  simp only [setByte, BitVec.getLsbD_or, BitVec.getLsbD_and, BitVec.getLsbD_not]
  cases w.getLsbD i <;> cases (0xff#32 <<< (8 * k)).getLsbD i <;>
    cases (x.setWidth 32 <<< (8 * k)).getLsbD i <;> simp [hi]

/-- Byte `k` of a word. -/
def byteOf (w : U32) (k : Nat) : BitVec 8 := (w >>> (8 * k)).setWidth 8

theorem getLsbD_byteMask {i k : Nat} (hi : i < 32) :
    (0xff#32 <<< (8 * k)).getLsbD i = decide (8 * k ≤ i ∧ i < 8 * k + 8) := by
  rw [BitVec.getLsbD_shiftLeft, BitVec.getLsbD_ofNat, show (0xff : Nat) = 2 ^ 8 - 1 from rfl,
    Nat.testBit_two_pow_sub_one]
  by_cases h : 8 * k ≤ i
  · simp [h, hi, show i - 8 * k < 32 by omega, show i - 8 * k < 8 ↔ i < 8 * k + 8 by omega]
  · simp [h, show i < 8 * k by omega]

theorem setByte_getLsbD (w v : U32) {i k : Nat} (hi : i < 32) :
    (setByte w k (byteOf v k)).getLsbD i =
      if 8 * k ≤ i ∧ i < 8 * k + 8 then v.getLsbD i else w.getLsbD i := by
  simp only [setByte, byteOf, BitVec.getLsbD_or, BitVec.getLsbD_and, BitVec.getLsbD_not,
    getLsbD_byteMask hi, BitVec.getLsbD_shiftLeft, BitVec.getLsbD_setWidth,
    BitVec.getLsbD_ushiftRight]
  by_cases inside : 8 * k ≤ i ∧ i < 8 * k + 8
  · obtain ⟨lo, hi'⟩ := inside
    simp [lo, hi', hi, show ¬ i < 8 * k by omega, show i - 8 * k < 32 by omega,
      show i - 8 * k < 8 by omega]
  · by_cases lo : 8 * k ≤ i
    · simp [hi, lo, show ¬ i - 8 * k < 8 by omega, show ¬ i < 8 * k + 8 by omega]
    · simp [hi, lo, show i < 8 * k by omega]

/-- The low `k` bytes of `w` replaced by those of `v`, one after the other. -/
def lowBytes (v w : U32) : Nat → U32
  | 0 => w
  | k + 1 => setByte (lowBytes v w k) k (byteOf v k)

theorem lowBytes_getLsbD (v w : U32) {i : Nat} (hi : i < 32) (k : Nat) :
    (lowBytes v w k).getLsbD i = if i < 8 * k then v.getLsbD i else w.getLsbD i := by
  induction k with
  | zero => simp [lowBytes]
  | succ k ih =>
    rw [lowBytes, setByte_getLsbD _ _ hi, ih]
    by_cases here : 8 * k ≤ i ∧ i < 8 * k + 8
    · rw [if_pos here, if_pos (by omega)]
    · by_cases lo : i < 8 * k
      · rw [if_neg here, if_pos lo, if_pos (by omega)]
      · rw [if_neg here, if_neg lo, if_neg (by omega)]

theorem lowBytes_four (v w : U32) : lowBytes v w 4 = v := by
  apply BitVec.eq_of_getLsbD_eq
  intro i hi
  rw [lowBytes_getLsbD v w hi, if_pos (by omega)]

theorem lowBytes_self (v : U32) (k : Nat) : lowBytes v v k = v := by
  apply BitVec.eq_of_getLsbD_eq
  intro i hi
  rw [lowBytes_getLsbD v v hi, ite_self]

end Words
