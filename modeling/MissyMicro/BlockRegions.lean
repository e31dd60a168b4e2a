import MissyMicro.BlockAccounting

/-!
# Reserving and releasing regions

A region of bytes becomes `length / 4096 + 1` blocks from block `start / 4096` on.
Reserving tests each bit before it is counted, so the order of reservations does
not matter. The rounding misses the last block of some unaligned regions, and
takes one block too many for aligned ones.
-/

namespace BlockRegions

open PackedBits BlockAllocator BlockAccounting
open BlockAllocator.Balloc

def reserveRegions (b : Balloc) (regions : List (U32 × U32)) : Balloc :=
  regions.foldl (fun b region => ballocInitRegion b region.1 region.2) b

/-- The blocks of the regions, in the order in which their bits are tested. -/
def blocksOf (regions : List (U32 × U32)) : List Nat :=
  regions.flatMap fun region => regionBlocks region.1 region.2

theorem mem_blocksOf {regions : List (U32 × U32)} {c : Nat} :
    c ∈ blocksOf regions ↔
      ∃ region ∈ regions, region.1.toNat / 4096 ≤ c ∧
        c ≤ region.1.toNat / 4096 + region.2.toNat / 4096 := by
  simp [blocksOf]

/-- A list of regions is one walk over all its blocks. -/
theorem reserveRegions_eq (b : Balloc) (regions : List (U32 × U32)) :
    reserveRegions b regions = (blocksOf regions).foldl reserveBlock b := by
  induction regions generalizing b with
  | nil => rfl
  | cons region regions ih =>
    have hcons : blocksOf (region :: regions) =
        regionBlocks region.1 region.2 ++ blocksOf regions := List.flatMap_cons
    rw [hcons, List.foldl_append]
    exact ih (ballocInitRegion b region.1 region.2)

/-- The blocks that a walk finds clear. -/
def fresh (b : Balloc) (blocks : List Nat) : Finset Nat :=
  blocks.toFinset.filter fun c => ¬ b.Used c

theorem mem_fresh {b : Balloc} {blocks : List Nat} {c : Nat} :
    c ∈ fresh b blocks ↔ c ∈ blocks ∧ ¬ b.Used c := by
  simp [fresh]

theorem fresh_cons_used {b : Balloc} {c : Nat} (blocks : List Nat) (used : b.Used c) :
    fresh b (c :: blocks) = fresh (reserveBlock b c) blocks := by
  ext d
  rw [mem_fresh, mem_fresh, List.mem_cons, reserveBlock_used]
  constructor
  · rintro ⟨rfl | hd, unused⟩
    · exact absurd used unused
    · refine ⟨hd, ?_⟩
      rintro (rfl | hused)
      · exact unused used
      · exact unused hused
  · rintro ⟨hd, unused⟩
    exact ⟨Or.inr hd, fun hused => unused (Or.inr hused)⟩

theorem fresh_cons_unused {b : Balloc} {c : Nat} (blocks : List Nat) (unused : ¬ b.Used c) :
    fresh b (c :: blocks) = insert c (fresh (reserveBlock b c) blocks) := by
  ext d
  rw [Finset.mem_insert, mem_fresh, mem_fresh, List.mem_cons, reserveBlock_used]
  by_cases heq : d = c
  · subst d
    exact ⟨fun _ => Or.inl rfl, fun _ => ⟨Or.inl rfl, unused⟩⟩
  · have hne : ¬ c = d := fun h => heq h.symm
    simp [heq, hne]

/-- The counter goes down by one for every block found clear. -/
theorem reserveAll_free (b : Balloc) (blocks : List Nat) :
    (blocks.foldl reserveBlock b).freeBlocks =
      b.freeBlocks - BitVec.ofNat 32 (fresh b blocks).card := by
  induction blocks generalizing b with
  | nil => simp [fresh]
  | cons c blocks ih =>
    rw [List.foldl_cons, ih]
    by_cases used : b.Used c
    · have htest : b.memoryBitmapTest c = true := (memoryBitmapTest_eq b c).trans used
      have hfree : (reserveBlock b c).freeBlocks = b.freeBlocks := by
        rw [reserveBlock, htest]
        rfl
      rw [fresh_cons_used blocks used, hfree]
    · have htest : b.memoryBitmapTest c = false := by
        simpa [memoryBitmapTest_eq, Used] using used
      have hfree : (reserveBlock b c).freeBlocks = b.freeBlocks - 1 := by
        rw [reserveBlock, htest]
        rfl
      have hout : c ∉ fresh (reserveBlock b c) blocks := fun h =>
        (mem_fresh.mp h).2 ((reserveBlock_used b c c).mpr (Or.inl rfl))
      have hone : BitVec.ofNat 32 1 = 1 := rfl
      rw [fresh_cons_unused blocks used, Finset.card_insert_of_notMem hout, hfree,
        BitVec.ofNat_add, hone, BitVec.sub_sub, BitVec.add_comm]

section Regions

variable (b : Balloc) (regions : List (U32 × U32))

theorem reserveRegions_used (c : Nat) :
    (reserveRegions b regions).Used c ↔
      b.Used c ∨ ∃ region ∈ regions, region.1.toNat / 4096 ≤ c ∧
        c ≤ region.1.toNat / 4096 + region.2.toNat / 4096 := by
  rw [reserveRegions_eq, reserveAll_used, mem_blocksOf]
  exact or_comm

theorem reserveRegions_capacity : (reserveRegions b regions).capacity = b.capacity := by
  rw [reserveRegions_eq]
  exact (reserveAll_bounds b _).capacity

/-- Inside the bitmap the blocks found clear are the newly marked ones. -/
theorem fresh_eq_newly (inside : ∀ c ∈ blocksOf regions, c < b.capacity) :
    fresh b (blocksOf regions) = (reserveRegions b regions).marked \ b.marked := by
  ext c
  rw [mem_fresh, Finset.mem_sdiff, mem_marked, mem_marked, MarkedUsed, MarkedUsed,
    reserveRegions_capacity, reserveRegions_eq, reserveAll_used]
  constructor
  · rintro ⟨hc, unused⟩
    exact ⟨⟨inside c hc, Or.inl hc⟩, fun h => unused h.2⟩
  · rintro ⟨⟨hlt, hc | used⟩, unmarked⟩
    · exact ⟨hc, fun used => unmarked ⟨hlt, used⟩⟩
    · exact absurd ⟨hlt, used⟩ unmarked

end Regions

/-- Whatever the order of the regions and however often they are repeated, their blocks
join the marked ones, and the counter goes down by the number of newly marked blocks. -/
theorem reservation_order_free (b : Balloc) {regions regions' : List (U32 × U32)}
    (same : ∀ region, region ∈ regions' ↔ region ∈ regions)
    (inside : ∀ c ∈ blocksOf regions, c < b.capacity) :
    (reserveRegions b regions').mBmp = (reserveRegions b regions).mBmp ∧
    (reserveRegions b regions').freeBlocks = (reserveRegions b regions).freeBlocks ∧
    (∀ c, (reserveRegions b regions').Used c ↔
      b.Used c ∨ ∃ region ∈ regions, region.1.toNat / 4096 ≤ c ∧
        c ≤ region.1.toNat / 4096 + region.2.toNat / 4096) ∧
    (reserveRegions b regions').freeBlocks = b.freeBlocks -
      BitVec.ofNat 32 ((reserveRegions b regions').marked \ b.marked).card := by
  have blocks : ∀ c, c ∈ blocksOf regions' ↔ c ∈ blocksOf regions := by
    intro c
    simp only [mem_blocksOf, same]
  have used (c : Nat) : (reserveRegions b regions').Used c ↔ (reserveRegions b regions).Used c := by
    rw [reserveRegions_eq, reserveRegions_eq, reserveAll_used, reserveAll_used, blocks]
  have hfresh : fresh b (blocksOf regions') = fresh b (blocksOf regions) := by
    ext c
    rw [mem_fresh, mem_fresh, blocks]
  refine ⟨words_ext (by omega) fun c => ?_, ?_, fun c => ?_, ?_⟩
  · exact Bool.eq_iff_iff.mpr (used c)
  · rw [reserveRegions_eq, reserveRegions_eq, reserveAll_free, reserveAll_free, hfresh]
  · exact (used c).trans (reserveRegions_used b regions c)
  · rw [← fresh_eq_newly b regions' fun c hc => inside c ((blocks c).mp hc), reserveRegions_eq,
      reserveAll_free]

theorem oneUnit_le : (1 : U32).toNat ≤ 32768 := by
  decide

/-- One word, all of it free but block 0. -/
def smallBitmap : Balloc where
  mBmpAddr := 0xC0040000
  mBmp := fun _ => 1
  memSz := 0x20000
  bmpSz := 1
  totalBlocks := 32
  freeBlocks := 31
  touched := []
  bmpSz_le := oneUnit_le

/-- Two overlapping regions, once in order and once reversed with the first one repeated. -/
theorem overlapping_pair_reversed :
    (reserveRegions smallBitmap [(0x4000, 0x1800), (0x2000, 0x3000), (0x4000, 0x1800)]).mBmp =
      (reserveRegions smallBitmap [(0x2000, 0x3000), (0x4000, 0x1800)]).mBmp := by
  have same : ∀ region : U32 × U32,
      region ∈ [((0x4000 : U32), (0x1800 : U32)), (0x2000, 0x3000), (0x4000, 0x1800)] ↔
        region ∈ [((0x2000 : U32), (0x3000 : U32)), (0x4000, 0x1800)] := by
    intro region
    simp only [List.mem_cons, List.not_mem_nil, or_false]
    tauto
  exact (reservation_order_free smallBitmap same (by decide)).1

section Rounding

variable (b : Balloc) (start length : U32)

/-- Block `c` has a byte of the region. -/
def Intersects (c : Nat) : Prop :=
  c * 4096 < start.toNat + length.toNat ∧ start.toNat < (c + 1) * 4096

instance (c : Nat) : Decidable (Intersects start length c) := inferInstanceAs (Decidable (_ ∧ _))

/-- Reserving marks every block of the region. -/
def Covers : Prop := ∀ c, Intersects start length c → (ballocInitRegion b start length).Used c

/-- Releasing clears no block outside the region. -/
def StaysInside : Prop :=
  ∀ c, ¬ Intersects start length c → b.Used c → (ballocDeinitRegion b start length).Used c

theorem releaseAll_used (blocks : List Nat) (d : Nat) :
    (blocks.foldl releaseBlock b).Used d ↔ d ∉ blocks ∧ b.Used d := by
  induction blocks generalizing b with
  | nil => simp
  | cons c blocks ih =>
    have hstep : (releaseBlock b c).Used d ↔ c ≠ d ∧ b.Used d := by
      rw [Used, releaseBlock_bits, testBit_clearBit (by omega)]
      simp [Used]
    rw [List.foldl_cons, ih, hstep, List.mem_cons, not_or]
    constructor
    · rintro ⟨hd, hne, used⟩
      exact ⟨⟨Ne.symm hne, hd⟩, used⟩
    · rintro ⟨⟨hne, hd⟩, used⟩
      exact ⟨hd, Ne.symm hne, used⟩

variable (pos : 0 < length.toNat)

include pos

/-- Only the block of the last byte can be missed. -/
theorem covers_iff :
    Covers b start length ↔ start.toNat % 4096 + length.toNat % 4096 ≤ 4096 ∨
      b.Used ((start.toNat + length.toNat - 1) / 4096) := by
  constructor
  · intro covers
    by_cases fits : start.toNat % 4096 + length.toNat % 4096 ≤ 4096
    · exact Or.inl fits
    · refine Or.inr ?_
      have hlast := covers ((start.toNat + length.toNat - 1) / 4096)
        ⟨by omega, by omega⟩
      rcases (ballocInitRegion_used b start length _).mp hlast with hmem | used
      · have hle := (mem_regionBlocks.mp hmem).2
        omega
      · exact used
  · intro fits c inter
    obtain ⟨hlo, hhi⟩ := inter
    rw [ballocInitRegion_used]
    by_cases hmem : c ∈ regionBlocks start length
    · exact Or.inl hmem
    · rw [mem_regionBlocks] at hmem
      have hlast : c = (start.toNat + length.toNat - 1) / 4096 := by omega
      rcases fits with fits | used
      · omega
      · exact Or.inr (hlast ▸ used)

/-- Only the block behind the region can be cleared with it. -/
theorem staysInside_iff :
    StaysInside b start length ↔ ¬ (start.toNat % 4096 = 0 ∧ length.toNat % 4096 = 0) ∨
      ¬ b.Used ((start.toNat + length.toNat) / 4096) := by
  have used_iff (c : Nat) : (ballocDeinitRegion b start length).Used c ↔
      c ∉ regionBlocks start length ∧ b.Used c := releaseAll_used b _ c
  constructor
  · intro inside
    by_cases aligned : start.toNat % 4096 = 0 ∧ length.toNat % 4096 = 0
    · refine Or.inr fun used => ?_
      have hout : ¬ Intersects start length ((start.toNat + length.toNat) / 4096) := by
        rintro ⟨hlo, _⟩
        omega
      have hkept := ((used_iff _).mp (inside _ hout used)).1
      rw [mem_regionBlocks] at hkept
      omega
    · exact Or.inl aligned
  · intro rounding c hout used
    refine (used_iff c).mpr ⟨fun hmem => ?_, used⟩
    obtain ⟨hlo, hhi⟩ := mem_regionBlocks.mp hmem
    rw [Intersects] at hout
    have hbehind : start.toNat % 4096 = 0 ∧ length.toNat % 4096 = 0 ∧
        c = (start.toNat + length.toNat) / 4096 := by omega
    rcases rounding with unaligned | unused
    · exact unaligned ⟨hbehind.1, hbehind.2.1⟩
    · exact unused (hbehind.2.2 ▸ used)

/-- The rounding is safe in both directions exactly for regions whose offsets do not pass a
block together and are not both zero, unless the one block in question is marked or clear
already. -/
theorem rounding_safe_iff :
    Covers b start length ∧ StaysInside b start length ↔
      (start.toNat % 4096 + length.toNat % 4096 ≤ 4096 ∨
        b.Used ((start.toNat + length.toNat - 1) / 4096)) ∧
      (¬ (start.toNat % 4096 = 0 ∧ length.toNat % 4096 = 0) ∨
        ¬ b.Used ((start.toNat + length.toNat) / 4096)) :=
  and_congr (covers_iff b start length pos) (staysInside_iff b start length pos)

end Rounding

/-- Half a page. -/
theorem half_page_safe :
    Covers smallBitmap 0x3000 0x800 ∧ StaysInside smallBitmap 0x3000 0x800 :=
  (rounding_safe_iff smallBitmap 0x3000 0x800 (by decide)).mpr (by decide)

/-- A region from the end of block 3 into block 5: block 5 stays free. -/
theorem unaligned_region_missed :
    ¬ ∀ (b : Balloc) (start length : U32), 0 < length.toNat →
      start.toNat + length.toNat ≤ b.capacity * 4096 →
        Covers b start length ∧ StaysInside b start length := by
  intro safe
  have covers := (safe smallBitmap 0x3f00 0x1200 (by decide) (by decide)).1
  have hend := covers 5 (by decide)
  revert hend
  decide

end BlockRegions
