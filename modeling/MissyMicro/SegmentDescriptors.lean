import MissyMicro.GuardedTables

/-!
# The fields of a segment descriptor

The base and the limit of a segment are scattered over the descriptor, and the flags stand in two
places around the upper part of the limit. Which bit of which argument a bit of the descriptor
is, is settled once; decoding is then read off it.
-/

namespace SegmentDescriptors

open GuardedTables

/-- `_gdt` is static; a reader of an entry gets 0 for an index outside. -/
def i386GdtGetentry (gdt : Fin gdtMaxDescriptors → BitVec 64) (idx : BitVec 8) : BitVec 64 :=
  if h : idx.toNat < gdtMaxDescriptors then gdt ⟨idx.toNat, h⟩ else 0

inductive Field where
  | limit
  | base
  | access
  | nibble
  deriving DecidableEq

/-- The bits of a field. -/
def Field.Has : Field → Nat → Prop
  | .limit, i => i < 16 ∨ (48 ≤ i ∧ i < 52)
  | .base, i => (16 ≤ i ∧ i < 40) ∨ (56 ≤ i ∧ i < 64)
  | .access, i => 40 ≤ i ∧ i < 48
  | .nibble, i => 52 ≤ i ∧ i < 56

def segmentLimit (d : BitVec 64) : U32 := (d.extractLsb' 48 4 ++ d.extractLsb' 0 16).setWidth 32
def segmentBase (d : BitVec 64) : U32 := d.extractLsb' 56 8 ++ d.extractLsb' 16 24
def segmentFlags (d : BitVec 64) : BitVec 16 :=
  d.extractLsb' 52 4 ++ (0#4 ++ d.extractLsb' 40 8)

theorem Field.has_unique {field other : Field} {i : Nat} (h : field.Has i) (h' : other.Has i) :
    field = other := by
  cases field <;> cases other <;> simp only [Field.Has] at h h' <;> first | rfl | omega

theorem field_unique {i : Nat} (hi : i < 64) : ∃! field : Field, field.Has i := by
  have covered : Field.limit.Has i ∨ Field.base.Has i ∨ Field.access.Has i ∨
      Field.nibble.Has i := by
    simp only [Field.Has]
    omega
  obtain h | h | h | h := covered
  · exact ⟨.limit, h, fun other h' => Field.has_unique h' h⟩
  · exact ⟨.base, h, fun other h' => Field.has_unique h' h⟩
  · exact ⟨.access, h, fun other h' => Field.has_unique h' h⟩
  · exact ⟨.nibble, h, fun other h' => Field.has_unique h' h⟩

section Bits

variable {w : Nat}

/-- A mask of `len` ones behind `lo` zeros. -/
theorem getLsbD_run {lo len i : Nat} (hi : i < w) :
    (BitVec.ofNat w ((2 ^ len - 1) <<< lo)).getLsbD i = decide (lo ≤ i ∧ i < lo + len) := by
  rw [BitVec.getLsbD_ofNat, Nat.testBit_shiftLeft, Nat.testBit_two_pow_sub_one]
  by_cases behind : lo ≤ i
  · have same : (i - lo < len) ↔ i < lo + len := by omega
    simp [hi, behind, same]
  · simp [behind]

/-- The upper half is shifted up, the lower half is set below it. -/
theorem halves_getLsbD (upper : BitVec 64) (a b : U32) {i : Nat} (hi : i < 64) :
    ((upper <<< 32 ||| a.setWidth 64) ||| b.setWidth 64).getLsbD i =
      if i < 32 then a.getLsbD i || b.getLsbD i else upper.getLsbD (i - 32) := by
  simp only [BitVec.getLsbD_or, BitVec.getLsbD_shiftLeft, BitVec.getLsbD_setWidth]
  by_cases low : i < 32
  · simp [low, hi]
  · simp [low, hi, BitVec.getLsbD_of_ge a i (by omega), BitVec.getLsbD_of_ge b i (by omega)]

end Bits

section Round

variable (base limit : U32) (flags : BitVec 16)

/-- The upper half, before the shift. -/
theorem descriptor_upper {i : Nat} (hi : i < 32) :
    ((((limit &&& 0x000f0000).setWidth 64 : BitVec 64) |||
      (((flags.setWidth 32 : U32) <<< 8) &&& 0x00f0ff00).setWidth 64 |||
      ((base >>> 16) &&& 0x000000ff).setWidth 64 |||
      (base &&& 0xff000000).setWidth 64).getLsbD i) =
      if i < 8 then base.getLsbD (i + 16)
      else if i < 16 then flags.getLsbD (i - 8)
      else if i < 20 then limit.getLsbD i
      else if i < 24 then flags.getLsbD (i - 8)
      else base.getLsbD i := by
  have limitMask : (0x000f0000#32).getLsbD i = decide (16 ≤ i ∧ i < 20) :=
    @getLsbD_run 32 16 4 i hi
  have baseMask : (0x000000ff#32).getLsbD i = decide (0 ≤ i ∧ i < 8) :=
    @getLsbD_run 32 0 8 i hi
  have topMask : (0xff000000#32).getLsbD i = decide (24 ≤ i ∧ i < 32) :=
    @getLsbD_run 32 24 8 i hi
  have flagsMask : (0x00f0ff00#32).getLsbD i =
      (decide (8 ≤ i ∧ i < 16) || decide (20 ≤ i ∧ i < 24)) := by
    have split : (0x00f0ff00#32) = BitVec.ofNat 32 ((2 ^ 8 - 1) <<< 8) |||
        BitVec.ofNat 32 ((2 ^ 4 - 1) <<< 20) := by decide
    rw [split, BitVec.getLsbD_or, getLsbD_run hi, getLsbD_run hi]
  simp only [BitVec.getLsbD_or, BitVec.getLsbD_setWidth, BitVec.getLsbD_and,
    BitVec.getLsbD_shiftLeft, BitVec.getLsbD_ushiftRight, BitVec.ofNat_eq_ofNat, limitMask,
    baseMask, topMask, flagsMask]
  by_cases first : i < 8
  · simp [first, show i < 64 by omega, show ¬16 ≤ i by omega, show ¬8 ≤ i by omega,
      show ¬20 ≤ i by omega, show ¬24 ≤ i by omega, Nat.add_comm]
  by_cases second : i < 16
  · simp [first, second, show i < 64 by omega, hi, show ¬16 ≤ i by omega, show 8 ≤ i by omega,
      show ¬24 ≤ i by omega, show i - 8 < 32 by omega]
  by_cases third : i < 20
  · simp [first, second, third, show i < 64 by omega, show 16 ≤ i by omega,
      show ¬20 ≤ i by omega, show ¬24 ≤ i by omega]
  by_cases fourth : i < 24
  · simp [first, second, third, fourth, show i < 64 by omega, hi, show 20 ≤ i by omega,
      show ¬24 ≤ i by omega, show i - 8 < 32 by omega]
  · simp [first, second, third, fourth, show i < 64 by omega, hi, show 24 ≤ i by omega]

/-- Each bit of a descriptor is one bit of one argument. -/
theorem descriptor_getLsbD {i : Nat} (hi : i < 64) :
    (descriptor base limit flags).getLsbD i =
      if i < 16 then limit.getLsbD i
      else if i < 40 then base.getLsbD (i - 16)
      else if i < 48 then flags.getLsbD (i - 40)
      else if i < 52 then limit.getLsbD (i - 32)
      else if i < 56 then flags.getLsbD (i - 40)
      else base.getLsbD (i - 32) := by
  rw [descriptor, halves_getLsbD _ _ _ hi]
  by_cases low : i < 32
  · have limitMask : (0x0000ffff#32).getLsbD i = decide (0 ≤ i ∧ i < 16) :=
      @getLsbD_run 32 0 16 i low
    rw [if_pos low, BitVec.getLsbD_shiftLeft, BitVec.getLsbD_and, BitVec.ofNat_eq_ofNat, limitMask]
    by_cases first : i < 16
    · simp [first]
    · simp [first, low, show i < 40 by omega]
  · rw [if_neg low, descriptor_upper base limit flags (by omega),
      if_neg (show ¬i < 16 by omega)]
    by_cases first : i < 40
    · rw [if_pos (by omega), if_pos first]
      congr 1
      omega
    rw [if_neg (by omega), if_neg first]
    by_cases second : i < 48
    · rw [if_pos (by omega), if_pos second]
      congr 1
    rw [if_neg (by omega), if_neg second]
    by_cases third : i < 52
    · rw [if_pos (by omega), if_pos third]
    rw [if_neg (by omega), if_neg third]
    by_cases fourth : i < 56
    · rw [if_pos (by omega), if_pos fourth]
      congr 1
    · rw [if_neg (by omega), if_neg fourth]

theorem segmentBase_descriptor : segmentBase (descriptor base limit flags) = base := by
  apply BitVec.eq_of_getLsbD_eq
  intro i hi
  rw [segmentBase, BitVec.getLsbD_append, BitVec.getLsbD_extractLsb', BitVec.getLsbD_extractLsb']
  by_cases low : i < 24
  · rw [if_pos low, decide_eq_true low, Bool.true_and, descriptor_getLsbD _ _ _ (by omega),
      if_neg (by omega), if_pos (by omega)]
    congr 1
    omega
  · rw [if_neg low, decide_eq_true (by omega), Bool.true_and, descriptor_getLsbD _ _ _ (by omega)]
    repeat rw [if_neg (by omega)]
    congr 1
    omega

theorem segmentLimit_descriptor (hlimit : limit.toNat < 2 ^ 20) :
    segmentLimit (descriptor base limit flags) = limit := by
  apply BitVec.eq_of_getLsbD_eq
  intro i hi
  rw [segmentLimit, BitVec.getLsbD_setWidth, decide_eq_true hi, Bool.true_and,
    BitVec.getLsbD_append, BitVec.getLsbD_extractLsb', BitVec.getLsbD_extractLsb']
  by_cases low : i < 16
  · rw [if_pos low, decide_eq_true low, Bool.true_and, descriptor_getLsbD _ _ _ (by omega),
      if_pos (by omega), Nat.zero_add]
  rw [if_neg low]
  by_cases inside : i < 20
  · rw [decide_eq_true (by omega), Bool.true_and, descriptor_getLsbD _ _ _ (by omega),
      if_neg (by omega), if_neg (by omega), if_neg (by omega), if_pos (by omega)]
    congr 1
    omega
  · rw [decide_eq_false (by omega), Bool.false_and]
    refine (Nat.testBit_lt_two_pow (Nat.lt_of_lt_of_le hlimit ?_)).symm
    exact Nat.pow_le_pow_right (by decide) (by omega)

theorem segmentFlags_descriptor {flags : BitVec 16} (hflags : flags &&& 0x0f00 = 0) :
    segmentFlags (descriptor base limit flags) = flags := by
  have clear : ∀ i, 8 ≤ i → i < 12 → flags.getLsbD i = false := by
    intro i low high
    have bit := congrArg (fun x => BitVec.getLsbD x i) hflags
    have mask : (0x0f00#16).getLsbD i = decide (8 ≤ i ∧ i < 12) :=
      @getLsbD_run 16 8 4 i (by omega)
    simpa [mask, low, high] using bit
  apply BitVec.eq_of_getLsbD_eq
  intro i hi
  rw [segmentFlags, BitVec.getLsbD_append, BitVec.getLsbD_append, BitVec.getLsbD_extractLsb',
    BitVec.getLsbD_extractLsb']
  by_cases access : i < 8
  · rw [if_pos (by omega), if_pos access, decide_eq_true access, Bool.true_and,
      descriptor_getLsbD _ _ _ (by omega), if_neg (by omega), if_neg (by omega),
      if_pos (by omega)]
    congr 1
    omega
  by_cases between : i < 12
  · rw [if_pos between, if_neg access, clear i (by omega) between, BitVec.getLsbD_zero]
  · rw [if_neg between, decide_eq_true (by omega), Bool.true_and,
      descriptor_getLsbD _ _ _ (by omega)]
    rw [if_neg (by omega), if_neg (by omega), if_neg (by omega), if_neg (by omega),
      if_pos (by omega)]
    congr 1
    omega

/-- The three arguments stand in bits of their own. -/
theorem descriptor_parts :
    descriptor base limit flags =
        descriptor base 0 0 ||| descriptor 0 limit 0 ||| descriptor 0 0 flags ∧
      descriptor base 0 0 &&& descriptor 0 limit 0 = 0 ∧
      descriptor base 0 0 &&& descriptor 0 0 flags = 0 ∧
      descriptor 0 limit 0 &&& descriptor 0 0 flags = 0 := by
  refine ⟨?_, ?_, ?_, ?_⟩
  all_goals
    apply BitVec.eq_of_getLsbD_eq
    intro i hi
    simp only [BitVec.getLsbD_or, BitVec.getLsbD_and, descriptor_getLsbD _ _ _ hi,
      BitVec.ofNat_eq_ofNat, BitVec.getLsbD_zero]
    split_ifs <;> simp

theorem i386GdtSetentry_inside {gdt : Fin gdtMaxDescriptors → BitVec 64} {idx : BitVec 8}
    (hidx : idx.toNat < gdtMaxDescriptors) :
    i386GdtSetentry gdt idx base limit flags =
      some (0, Function.update gdt ⟨idx.toNat, hidx⟩ (descriptor base limit flags)) := by
  rw [i386GdtSetentry, if_neg (by omega), storeAt, dif_pos hidx]
  rfl

theorem i386GdtGetentry_update {gdt : Fin gdtMaxDescriptors → BitVec 64} {idx : BitVec 8}
    (hidx : idx.toNat < gdtMaxDescriptors) (d : BitVec 64) :
    i386GdtGetentry (Function.update gdt ⟨idx.toNat, hidx⟩ d) idx = d := by
  rw [i386GdtGetentry, dif_pos hidx, Function.update_self]

end Round

theorem segment_descriptor_round_trip (gdt : Fin gdtMaxDescriptors → BitVec 64) {idx : BitVec 8}
    (base : U32) {limit : U32} {flags : BitVec 16} (hidx : idx.toNat < gdtMaxDescriptors)
    (hlimit : limit.toNat < 2 ^ 20) (hflags : flags &&& 0x0f00 = 0) :
    (∃ gdt', i386GdtSetentry gdt idx base limit flags = some (0, gdt') ∧
      segmentBase (i386GdtGetentry gdt' idx) = base ∧
      segmentLimit (i386GdtGetentry gdt' idx) = limit ∧
      segmentFlags (i386GdtGetentry gdt' idx) = flags ∧
      (i386GdtGetentry gdt' idx =
        descriptor base 0 0 ||| descriptor 0 limit 0 ||| descriptor 0 0 flags ∧
        descriptor base 0 0 &&& descriptor 0 limit 0 = 0 ∧
        descriptor base 0 0 &&& descriptor 0 0 flags = 0 ∧
        descriptor 0 limit 0 &&& descriptor 0 0 flags = 0) ∧
      ∀ i : Fin gdtMaxDescriptors, i.val ≠ idx.toNat → gdt' i = gdt i) ∧
    ∀ i < 64, ∃! field : Field, field.Has i := by
  refine ⟨⟨_, i386GdtSetentry_inside base limit flags hidx, ?_⟩, fun i hi => field_unique hi⟩
  rw [i386GdtGetentry_update hidx]
  refine ⟨segmentBase_descriptor base limit flags, segmentLimit_descriptor base limit flags hlimit,
    segmentFlags_descriptor base limit hflags, descriptor_parts base limit flags, ?_⟩
  intro i other
  exact Function.update_of_ne (fun same => other (congrArg Fin.val same)) _ gdt

/-- The code segment of the kernel. -/
theorem segment_descriptor_round_trip_code :
    (1 : BitVec 8).toNat < gdtMaxDescriptors ∧ (0x000fffff : U32).toNat < 2 ^ 20 ∧
      (0xc09a : BitVec 16) &&& 0x0f00 = 0 ∧
      ∃ gdt', i386GdtSetentry (fun _ => 0) 1 0 0x000fffff 0xc09a = some (0, gdt') ∧
        segmentLimit (i386GdtGetentry gdt' 1) = 0x000fffff := by
  refine ⟨by decide, by decide, by decide, ?_⟩
  obtain ⟨gdt', set, _, limit, _⟩ :=
    (@segment_descriptor_round_trip (fun _ => 0) 1 0 0x000fffff 0xc09a (by decide) (by decide)
      (by decide)).1
  exact ⟨gdt', set, limit⟩

end SegmentDescriptors
