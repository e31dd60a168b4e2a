import MissyMicro.PackedBits
import MissyMicro.Words
import Mathlib.Order.Interval.Finset.Nat

/-!
# The physical block allocator

One bit of `m_bmp` stands for each 4 KB block of physical memory, and a set bit
is a block in use. The macros index words without any bound, so the words past
`bmp_sz` belong to the state too: they are whatever memory follows the bitmap.
-/

namespace BlockAllocator

open PackedBits

def memoryBlockSize : Nat := 4096
def blocksPerUnit : Nat := 32
def blockUnitFull : U32 := 0xffffffff
def logicalAddressAdjust : U32 := 0xbff00000

/-- The linker script fixes the first virtual address of the kernel image. -/
def kernelStart : U32 := 0xC0000000

/-- `mBmpAddr` is the value of the pointer `m_bmp` and `mBmp i` is `m_bmp[i]`.
`touched` is a ghost record, latest first, of the indices at which the clearing
loop and the bitmap macros accessed `m_bmp`. Memory sizes are 32-bit, so the
bitmap never has more than `2 ^ 15` words. -/
structure Balloc where
  mBmpAddr : U32
  mBmp : Nat → U32
  memSz : U32
  bmpSz : U32
  totalBlocks : U32
  freeBlocks : U32
  touched : List Nat
  bmpSz_le : bmpSz.toNat ≤ 32768

namespace Balloc

def touch (b : Balloc) (word : Nat) : Balloc := { b with touched := word :: b.touched }

def store (b : Balloc) (word : Nat) (value : U32) : Balloc :=
  { b with mBmp := Function.update b.mBmp word value, touched := word :: b.touched }

def memoryBitmapTest (b : Balloc) (bit : Nat) : Bool :=
  b.mBmp (bit / 32) &&& (1#32 <<< (bit % 32)) ≠ 0#32

def memoryBitmapSet (b : Balloc) (bit : Nat) : Balloc :=
  b.store (bit / 32) (b.mBmp (bit / 32) ||| (1#32 <<< (bit % 32)))

def memoryBitmapClear (b : Balloc) (bit : Nat) : Balloc :=
  b.store (bit / 32) (b.mBmp (bit / 32) &&& ~~~(1#32 <<< (bit % 32)))

/-- Block `c` is marked, whether or not its word lies in the bitmap. -/
def Used (b : Balloc) (c : Nat) : Prop := testBit b.mBmp c = true

instance (b : Balloc) (c : Nat) : Decidable (b.Used c) :=
  inferInstanceAs (Decidable (testBit b.mBmp c = true))

/-- The number of bits in the bitmap. -/
def capacity (b : Balloc) : Nat := b.bmpSz.toNat * 32

theorem capacity_le (b : Balloc) : b.capacity ≤ 2 ^ 20 := by
  have := b.bmpSz_le
  rw [capacity]
  omega

/-- The bitmap as its owner reads it: block `c` is in the bitmap and marked. -/
def MarkedUsed (b : Balloc) (c : Nat) : Prop := c < b.capacity ∧ b.Used c

instance (b : Balloc) (c : Nat) : Decidable (b.MarkedUsed c) :=
  inferInstanceAs (Decidable (_ ∧ _))

end Balloc

open Balloc

/-- One turn of the loop of `balloc_init_region`. -/
def reserveBlock (b : Balloc) (currentBlock : Nat) : Balloc :=
  if !b.memoryBitmapTest currentBlock then
    let b := (b.touch (currentBlock / 32)).memoryBitmapSet currentBlock
    { b with freeBlocks := b.freeBlocks - 1 }
  else b.touch (currentBlock / 32)

/-- One turn of the loop of `balloc_deinit_region`. -/
def releaseBlock (b : Balloc) (currentBlock : Nat) : Balloc :=
  if b.memoryBitmapTest currentBlock then
    let b := (b.touch (currentBlock / 32)).memoryBitmapClear currentBlock
    { b with freeBlocks := b.freeBlocks + 1 }
  else b.touch (currentBlock / 32)

/-- The values `current_block` takes: `start_block + block_count` cannot wrap. -/
def regionBlocks (start length : U32) : List Nat :=
  List.range' (start.toNat / memoryBlockSize) (length.toNat / memoryBlockSize + 1)

def ballocInitRegion (b : Balloc) (start length : U32) : Balloc :=
  (regionBlocks start length).foldl reserveBlock b

def ballocDeinitRegion (b : Balloc) (start length : U32) : Balloc :=
  (regionBlocks start length).foldl releaseBlock b

/-- The total block count for a memory size, and the word count of its bitmap. -/
def blockCount (memorySz : U32) : U32 := memorySz / BitVec.ofNat 32 memoryBlockSize
def unitCount (memorySz : U32) : U32 := blockCount memorySz / BitVec.ofNat 32 blocksPerUnit + 1

theorem blockCount_toNat (memorySz : U32) :
    (blockCount memorySz).toNat = memorySz.toNat / 4096 := by
  simp [blockCount, memoryBlockSize]

theorem unitCount_toNat (memorySz : U32) :
    (unitCount memorySz).toNat = memorySz.toNat / 4096 / 32 + 1 := by
  have hlt := memorySz.isLt
  have hone : BitVec.toNat (1 : U32) = 1 := rfl
  have hunit : (BitVec.ofNat 32 blocksPerUnit).toNat = 32 := rfl
  rw [unitCount, BitVec.toNat_add, BitVec.toNat_udiv, blockCount_toNat, hone, hunit]
  omega

theorem unitCount_le (memorySz : U32) : (unitCount memorySz).toNat ≤ 32768 := by
  have hlt := memorySz.isLt
  rw [unitCount_toNat]
  omega

def kernelSz (kernelEnd : U32) : U32 := kernelEnd - kernelStart
def kstartPhys : U32 := kernelStart - logicalAddressAdjust

/-- The bytes reserved for the kernel and its bitmap. -/
def kernelTotalSz (kernelEnd memorySz : U32) : U32 :=
  kernelSz kernelEnd + unitCount memorySz * BitVec.ofNat 32 blocksPerUnit

/-- The state before the first region is reserved. `memory` is what the words
from `m_bmp` on held before; the pointer arithmetic counts in words. -/
def clearedBitmap (kernelEnd memorySz : U32) (memory : Nat → U32) : Balloc :=
  (List.range (unitCount memorySz).toNat).foldl (fun b i => b.store i 0x0)
    { mBmpAddr := kernelStart + 4 * kernelSz kernelEnd
      mBmp := memory
      memSz := memorySz
      bmpSz := unitCount memorySz
      totalBlocks := blockCount memorySz
      freeBlocks := blockCount memorySz
      touched := []
      bmpSz_le := unitCount_le memorySz }

/-- The returned block count is the `totalBlocks` field. -/
def ballocInitialize (kernelEnd memorySz : U32) (memory : Nat → U32) : Balloc :=
  ballocInitRegion
    (ballocInitRegion (clearedBitmap kernelEnd memorySz memory) 0x0 0x100000)
    kstartPhys (kernelTotalSz kernelEnd memorySz)

/-- Zero stands for "no free block", also when block 0 itself is free. -/
def blockAllocFirstFree (b : Balloc) : Nat :=
  ((List.range b.bmpSz.toNat).findSome? fun i =>
    if b.mBmp i ≠ blockUnitFull then
      ((List.range blocksPerUnit).find? fun j => b.mBmp i &&& (1#32 <<< j) = 0#32).map
        (i * blocksPerUnit + ·)
    else none).getD 0

def ballocGet (b : Balloc) : U32 × Balloc :=
  let blk := blockAllocFirstFree b
  if blk = 0 then (0, b)
  else
    let b := b.memoryBitmapSet blk
    (BitVec.ofNat 32 (blk * memoryBlockSize), { b with freeBlocks := b.freeBlocks - 1 })

/-- The block number of an address: `(unsigned int)(blk) / MEMORY_BLOCK_SIZE`. -/
def blockOf (addr : U32) : Nat := addr.toNat / memoryBlockSize

def ballocFree (b : Balloc) (blk : U32) : Balloc :=
  if blk = 0 then b
  else
    let b := b.memoryBitmapClear (blockOf blk)
    { b with freeBlocks := b.freeBlocks + 1 }

def ballocFreeN (b : Balloc) (blk : U32) : Nat → Balloc
  | 0 => b
  | n + 1 => ballocFreeN (ballocFree b blk) (blk + BitVec.ofNat 32 memoryBlockSize) n

def ballocFreeBlockCount (b : Balloc) : U32 := b.freeBlocks
def ballocUsedBlockCount (b : Balloc) : U32 := b.totalBlocks - b.freeBlocks
def ballocTotalBlockCount (b : Balloc) : U32 := b.totalBlocks

theorem memoryBitmapTest_eq (b : Balloc) (c : Nat) :
    b.memoryBitmapTest c = testBit b.mBmp c := by
  have h := and_mask_eq_zero (b.mBmp (c / 32)) (Nat.mod_lt c (by decide : 0 < 32))
  cases ht : testBit b.mBmp c with
  | false => simp [memoryBitmapTest, h.mpr ht]
  | true =>
    have hne : (b.mBmp (c / 32)).getLsbD (c % 32) ≠ false := by
      rw [show (b.mBmp (c / 32)).getLsbD (c % 32) = true from ht]
      decide
    simpa [memoryBitmapTest] using mt h.mp hne

theorem memoryBitmapSet_bits (b : Balloc) (c : Nat) :
    (b.memoryBitmapSet c).mBmp = setBit b.mBmp c := rfl

theorem memoryBitmapClear_bits (b : Balloc) (c : Nat) :
    (b.memoryBitmapClear c).mBmp = clearBit b.mBmp c := rfl

/-- Marking a block that is already marked changes no word. -/
theorem reserveBlock_bits (b : Balloc) (c : Nat) :
    (reserveBlock b c).mBmp = setBit b.mBmp c := by
  rw [reserveBlock, memoryBitmapTest_eq]
  cases h : testBit b.mBmp c with
  | false => simp [memoryBitmapSet_bits, Balloc.touch]
  | true => simp [Balloc.touch, setBit_of_testBit h]

theorem reserveBlock_used (b : Balloc) (c d : Nat) :
    (reserveBlock b c).Used d ↔ c = d ∨ b.Used d := by
  rw [Used, reserveBlock_bits, testBit_setBit (by decide)]
  simp [Used]

/-- What no operation after `balloc_initialize` changes. -/
structure SameBounds (b b' : Balloc) : Prop where
  mBmpAddr : b'.mBmpAddr = b.mBmpAddr
  memSz : b'.memSz = b.memSz
  bmpSz : b'.bmpSz = b.bmpSz
  totalBlocks : b'.totalBlocks = b.totalBlocks

namespace SameBounds

theorem refl (b : Balloc) : SameBounds b b := ⟨rfl, rfl, rfl, rfl⟩

theorem trans {a b c : Balloc} (hab : SameBounds a b) (hbc : SameBounds b c) :
    SameBounds a c :=
  ⟨hbc.mBmpAddr.trans hab.mBmpAddr, hbc.memSz.trans hab.memSz, hbc.bmpSz.trans hab.bmpSz,
    hbc.totalBlocks.trans hab.totalBlocks⟩

theorem capacity {b b' : Balloc} (h : SameBounds b b') : b'.capacity = b.capacity := by
  rw [Balloc.capacity, Balloc.capacity, h.bmpSz]

end SameBounds

theorem reserveBlock_bounds (b : Balloc) (c : Nat) : SameBounds b (reserveBlock b c) := by
  rw [reserveBlock]
  split <;> exact ⟨rfl, rfl, rfl, rfl⟩

theorem reserveAll_bounds (b : Balloc) (blocks : List Nat) :
    SameBounds b (blocks.foldl reserveBlock b) := by
  induction blocks generalizing b with
  | nil => exact .refl b
  | cons c blocks ih => exact (reserveBlock_bounds b c).trans (ih _)

theorem reserveAll_used (b : Balloc) (blocks : List Nat) (d : Nat) :
    (blocks.foldl reserveBlock b).Used d ↔ d ∈ blocks ∨ b.Used d := by
  induction blocks generalizing b with
  | nil => simp
  | cons c blocks ih =>
    rw [List.foldl_cons, ih, reserveBlock_used, List.mem_cons]
    constructor
    · rintro (h | rfl | h)
      · exact Or.inl (Or.inr h)
      · exact Or.inl (Or.inl rfl)
      · exact Or.inr h
    · rintro ((rfl | h) | h)
      · exact Or.inr (Or.inl rfl)
      · exact Or.inl h
      · exact Or.inr (Or.inr h)

@[simp] theorem mem_regionBlocks {start length : U32} {c : Nat} :
    c ∈ regionBlocks start length ↔
      start.toNat / 4096 ≤ c ∧ c ≤ start.toNat / 4096 + length.toNat / 4096 := by
  simp only [regionBlocks, memoryBlockSize, List.mem_range'_1]
  omega

theorem ballocInitRegion_bounds (b : Balloc) (start length : U32) :
    SameBounds b (ballocInitRegion b start length) :=
  reserveAll_bounds b _

/-- A region is added to the marked blocks as one block range. -/
theorem ballocInitRegion_used (b : Balloc) (start length : U32) (c : Nat) :
    (ballocInitRegion b start length).Used c ↔ c ∈ regionBlocks start length ∨ b.Used c :=
  reserveAll_used b _ c

theorem clearWords_bits (b : Balloc) (n i : Nat) :
    ((List.range n).foldl (fun b i => b.store i 0x0) b).mBmp i =
      if i < n then 0#32 else b.mBmp i := by
  induction n with
  | zero => simp
  | succ n ih =>
    rw [List.range_succ, List.foldl_append, List.foldl_cons, List.foldl_nil, Balloc.store]
    by_cases h : i = n
    · subst i
      simp
    · simp only [Function.update_of_ne h, ih]
      by_cases hlt : i < n
      · simp [hlt, Nat.lt_succ_of_lt hlt]
      · simp [hlt, show ¬ i < n + 1 by omega]

theorem clearWords_bounds (b : Balloc) (n : Nat) :
    SameBounds b ((List.range n).foldl (fun b i => b.store i 0x0) b) ∧
      ((List.range n).foldl (fun b i => b.store i 0x0) b).freeBlocks = b.freeBlocks := by
  induction n with
  | zero => exact ⟨.refl b, rfl⟩
  | succ n ih =>
    rw [List.range_succ, List.foldl_append, List.foldl_cons, List.foldl_nil]
    exact ⟨ih.1.trans ⟨rfl, rfl, rfl, rfl⟩, ih.2⟩

section Initialize

variable (kernelEnd memorySz : U32) (memory : Nat → U32)

theorem clearedBitmap_bounds :
    (clearedBitmap kernelEnd memorySz memory).mBmpAddr = kernelStart + 4 * kernelSz kernelEnd ∧
    (clearedBitmap kernelEnd memorySz memory).bmpSz = unitCount memorySz ∧
    (clearedBitmap kernelEnd memorySz memory).totalBlocks = blockCount memorySz ∧
    (clearedBitmap kernelEnd memorySz memory).freeBlocks = blockCount memorySz := by
  obtain ⟨hb, hf⟩ := clearWords_bounds
    { mBmpAddr := kernelStart + 4 * kernelSz kernelEnd, mBmp := memory, memSz := memorySz,
      bmpSz := unitCount memorySz, totalBlocks := blockCount memorySz,
      freeBlocks := blockCount memorySz, touched := [],
      bmpSz_le := unitCount_le memorySz } (unitCount memorySz).toNat
  exact ⟨hb.mBmpAddr, hb.bmpSz, hb.totalBlocks, hf⟩

theorem clearedBitmap_unused {c : Nat} (hc : c < (unitCount memorySz).toNat * 32) :
    ¬ (clearedBitmap kernelEnd memorySz memory).Used c := by
  have hword : c / 32 < (unitCount memorySz).toNat := by omega
  rw [Used, testBit, clearedBitmap, clearWords_bits, if_pos hword]
  simp

/-- The blocks reserved by `balloc_initialize`: low memory, then kernel and bitmap. -/
def initialBlocks : List Nat :=
  regionBlocks 0x0 0x100000 ++ regionBlocks kstartPhys (kernelTotalSz kernelEnd memorySz)

theorem ballocInitialize_eq :
    ballocInitialize kernelEnd memorySz memory =
      (initialBlocks kernelEnd memorySz).foldl reserveBlock
        (clearedBitmap kernelEnd memorySz memory) := by
  rw [initialBlocks, List.foldl_append]
  rfl

theorem ballocInitialize_bounds :
    (ballocInitialize kernelEnd memorySz memory).mBmpAddr =
      kernelStart + 4 * kernelSz kernelEnd ∧
    (ballocInitialize kernelEnd memorySz memory).bmpSz = unitCount memorySz ∧
    (ballocInitialize kernelEnd memorySz memory).totalBlocks = blockCount memorySz := by
  have hb := reserveAll_bounds (clearedBitmap kernelEnd memorySz memory)
    (initialBlocks kernelEnd memorySz)
  obtain ⟨h1, h2, h3, _⟩ := clearedBitmap_bounds kernelEnd memorySz memory
  rw [ballocInitialize_eq]
  exact ⟨hb.mBmpAddr.trans h1, hb.bmpSz.trans h2, hb.totalBlocks.trans h3⟩

theorem ballocInitialize_capacity :
    (ballocInitialize kernelEnd memorySz memory).capacity =
      (memorySz.toNat / 4096 / 32 + 1) * 32 := by
  rw [capacity, (ballocInitialize_bounds kernelEnd memorySz memory).2.1, unitCount_toNat]

/-- Inside the bitmap exactly the two initial regions are marked. -/
theorem ballocInitialize_used {c : Nat}
    (hc : c < (ballocInitialize kernelEnd memorySz memory).capacity) :
    (ballocInitialize kernelEnd memorySz memory).Used c ↔
      c ∈ initialBlocks kernelEnd memorySz := by
  rw [capacity, (ballocInitialize_bounds kernelEnd memorySz memory).2.1] at hc
  have hclear := clearedBitmap_unused kernelEnd memorySz memory hc
  rw [ballocInitialize_eq, reserveAll_used]
  simp [hclear]

attribute [irreducible] ballocInitialize

theorem initialBlocks_zero : 0 ∈ initialBlocks kernelEnd memorySz := by
  simp [initialBlocks]

theorem kstartPhys_toNat : kstartPhys.toNat = 0x100000 := by decide

/-- The two initial regions meet at block 256, so together they are one range. -/
theorem mem_initialBlocks {c : Nat} :
    c ∈ initialBlocks kernelEnd memorySz ↔
      c ≤ 256 + (kernelTotalSz kernelEnd memorySz).toNat / 4096 := by
  have hlow : BitVec.toNat (0x0 : U32) = 0 := rfl
  have hmb : BitVec.toNat (0x100000 : U32) = 0x100000 := rfl
  simp only [initialBlocks, List.mem_append, mem_regionBlocks, kstartPhys_toNat, hlow, hmb]
  omega

theorem initialBlocks_lt {bound : Nat}
    (h : 256 + (kernelTotalSz kernelEnd memorySz).toNat / 4096 < bound) :
    ∀ c ∈ initialBlocks kernelEnd memorySz, c < bound :=
  fun _ hc => ((mem_initialBlocks kernelEnd memorySz).mp hc).trans_lt h

end Initialize

theorem blockAllocFirstFree_eq (b : Balloc) :
    blockAllocFirstFree b = (firstClear b.mBmp b.bmpSz.toNat).getD 0 := rfl

theorem blockAllocFirstFree_free {b : Balloc} (h : blockAllocFirstFree b ≠ 0) :
    blockAllocFirstFree b < b.capacity ∧ ¬ b.Used (blockAllocFirstFree b) ∧
      ∀ c, c < blockAllocFirstFree b → b.Used c := by
  rw [blockAllocFirstFree_eq] at h ⊢
  cases hf : firstClear b.mBmp b.bmpSz.toNat with
  | none => simp [hf] at h
  | some c =>
    obtain ⟨hlt, hclear, hmin⟩ := firstClear_some (by decide) hf
    exact ⟨hlt, by simp [Used, hclear], hmin⟩

/-- With block 0 marked, "no free block" is a full bitmap. -/
theorem blockAllocFirstFree_full {b : Balloc} (h : blockAllocFirstFree b = 0)
    (zero : b.Used 0) {c : Nat} (hc : c < b.capacity) : b.Used c := by
  rw [blockAllocFirstFree_eq] at h
  cases hf : firstClear b.mBmp b.bmpSz.toNat with
  | none => exact firstClear_none (by decide) hf hc
  | some d =>
    obtain ⟨_, hclear, _⟩ := firstClear_some (by decide) hf
    rw [hf] at h
    subst h
    rw [Used, hclear] at zero
    cases zero

theorem blockOf_block {c : Nat} (hc : c < 2 ^ 20) :
    blockOf (BitVec.ofNat 32 (c * memoryBlockSize)) = c := by
  simp only [blockOf, memoryBlockSize, BitVec.toNat_ofNat]
  omega

theorem block_ne_zero {c : Nat} (hc : c < 2 ^ 20) (h0 : c ≠ 0) :
    BitVec.ofNat 32 (c * memoryBlockSize) ≠ 0 := by
  intro h
  have := blockOf_block hc
  rw [h] at this
  simp [blockOf] at this
  omega

/-- What one call of `balloc_get` can do: take the least free block, or, when the
search answers 0, change nothing. -/
theorem ballocGet_cases (b : Balloc) :
    (blockAllocFirstFree b = 0 ∧ ballocGet b = (0, b)) ∨
    (∃ c b', c ≠ 0 ∧ c < b.capacity ∧ ¬ b.Used c ∧ (∀ d, d < c → b.Used d) ∧
      ballocGet b = (BitVec.ofNat 32 (c * memoryBlockSize), b') ∧
      b'.mBmp = setBit b.mBmp c ∧ b'.freeBlocks = b.freeBlocks - 1 ∧ SameBounds b b') := by
  by_cases h : blockAllocFirstFree b = 0
  · exact Or.inl ⟨h, by simp [ballocGet, h]⟩
  · obtain ⟨hlt, hfree, hmin⟩ := blockAllocFirstFree_free h
    refine Or.inr ⟨_, _, h, hlt, hfree, hmin, by rw [ballocGet, if_neg h], ?_, rfl, ?_⟩
    · exact memoryBitmapSet_bits b _
    · exact ⟨rfl, rfl, rfl, rfl⟩

theorem ballocGet_null_iff (b : Balloc) : (ballocGet b).1 = 0 ↔ blockAllocFirstFree b = 0 := by
  rcases ballocGet_cases b with ⟨hnone, heq⟩ | ⟨c, b', h0, hlt, _, _, heq, _⟩
  · rw [heq]
    exact ⟨fun _ => hnone, fun _ => rfl⟩
  · have hne := block_ne_zero (lt_of_lt_of_le hlt b.capacity_le) h0
    rw [heq]
    constructor
    · intro h
      exact absurd h hne
    · intro h
      have hget : ballocGet b = (0, b) := if_pos h
      rw [heq] at hget
      exact absurd (Prod.mk.inj hget).1 hne

theorem ballocFree_null (b : Balloc) : ballocFree b 0 = b := rfl

theorem ballocFree_bits {b : Balloc} {blk : U32} (h : blk ≠ 0) :
    (ballocFree b blk).mBmp = clearBit b.mBmp (blockOf blk) := by
  rw [ballocFree, if_neg h]
  exact memoryBitmapClear_bits b _

theorem ballocFree_count {b : Balloc} {blk : U32} (h : blk ≠ 0) :
    (ballocFree b blk).freeBlocks = b.freeBlocks + 1 := by
  rw [ballocFree, if_neg h]
  rfl

theorem ballocFree_bounds (b : Balloc) (blk : U32) : SameBounds b (ballocFree b blk) := by
  rw [ballocFree]
  split <;> exact ⟨rfl, rfl, rfl, rfl⟩

theorem ballocFreeN_bounds (b : Balloc) (blk : U32) (n : Nat) :
    SameBounds b (ballocFreeN b blk n) := by
  induction n generalizing b blk with
  | zero => exact .refl b
  | succ n ih => exact (ballocFree_bounds b blk).trans (ih _ _)

theorem ballocGet_bounds (b : Balloc) : SameBounds b (ballocGet b).2 := by
  rcases ballocGet_cases b with ⟨_, hnull⟩ | ⟨c, b', _, _, _, _, heq, _, _, bounds⟩
  · rw [hnull]
    exact .refl b
  · rw [heq]
    exact bounds

theorem ballocFree_used {b : Balloc} {blk : U32} (h : blk ≠ 0) (c : Nat) :
    (ballocFree b blk).Used c ↔ c ≠ blockOf blk ∧ b.Used c := by
  rw [Used, ballocFree_bits h, testBit_clearBit (by decide), Bool.and_eq_true,
    Bool.not_eq_true', decide_eq_false_iff_not]
  exact and_congr_left' ne_comm

/-- The search ends at the least free block. -/
theorem blockAllocFirstFree_least {b : Balloc} {c : Nat} (hc : c < b.capacity) (unused : ¬ b.Used c)
    (used : ∀ d, d < c → b.Used d) : blockAllocFirstFree b = c := by
  rw [blockAllocFirstFree_eq]
  cases found : firstClear b.mBmp b.bmpSz.toNat with
  | none => exact absurd (firstClear_none (by decide) found hc) unused
  | some d =>
    obtain ⟨_, clear, before⟩ := firstClear_some (by decide) found
    rcases Nat.lt_trichotomy d c with less | same | more
    · exact absurd (used d less) (by rw [Used, clear]; decide)
    · exact same
    · exact absurd (before c more) unused

/-- In a full bitmap nothing is found. -/
theorem blockAllocFirstFree_none {b : Balloc} (full : ∀ c, c < b.capacity → b.Used c) :
    blockAllocFirstFree b = 0 := by
  by_contra found
  obtain ⟨hc, unused, _⟩ := blockAllocFirstFree_free found
  exact unused (full _ hc)

/-- The address that is returned is no higher than that of any free block. -/
theorem ballocGet_lowest {b : Balloc} (found : (ballocGet b).1 ≠ 0) :
    ∃ c, c < b.capacity ∧ ¬ b.Used c ∧ (ballocGet b).1 = BitVec.ofNat 32 (c * memoryBlockSize) ∧
      ∀ d, d < b.capacity → ¬ b.Used d →
        (ballocGet b).1 ≤ BitVec.ofNat 32 (d * memoryBlockSize) := by
  have small := b.capacity_le
  rcases ballocGet_cases b with ⟨_, null⟩ | ⟨c, b', _, hc, unused, used, taken, _⟩
  · exact absurd (congrArg Prod.fst null) found
  · refine ⟨c, hc, unused, congrArg Prod.fst taken, fun d hd unused' => ?_⟩
    have least : c ≤ d := Nat.le_of_not_lt fun less => unused' (used d less)
    rw [taken, BitVec.le_def, BitVec.toNat_ofNat, BitVec.toNat_ofNat, memoryBlockSize]
    omega

theorem first_fit (b : Balloc) :
    (∀ c, c < b.capacity → ¬ b.Used c → (∀ d, d < c → b.Used d) → blockAllocFirstFree b = c) ∧
    ((∀ c, c < b.capacity → b.Used c) → blockAllocFirstFree b = 0) ∧
    (b.Used 0 →
      ((ballocGet b).1 = 0 ↔ ∀ c, c < b.capacity → b.Used c) ∧
      ((ballocGet b).1 ≠ 0 →
        ∃ c, c < b.capacity ∧ ¬ b.Used c ∧
          (ballocGet b).1 = BitVec.ofNat 32 (c * memoryBlockSize) ∧
          ∀ d, d < b.capacity → ¬ b.Used d →
            (ballocGet b).1 ≤ BitVec.ofNat 32 (d * memoryBlockSize))) := by
  refine ⟨fun c => blockAllocFirstFree_least, blockAllocFirstFree_none,
    fun zero => ⟨?_, ballocGet_lowest⟩⟩
  rw [ballocGet_null_iff]
  constructor
  · intro none c hc
    exact blockAllocFirstFree_full none zero hc
  · exact blockAllocFirstFree_none

/-- Of 64 blocks the first 33 are marked. -/
theorem first_fit_second_word :
    let b : Balloc := ⟨0, fun i => if i = 0 then 0xffffffff else 1, 0, 2, 64, 31, [], by decide⟩
    blockAllocFirstFree b = 33 ∧ (ballocGet b).1 ≠ 0 := by
  intro b
  have used : ∀ d, d < 33 → b.Used d := by decide
  have unused : ¬ b.Used 33 := by decide
  have hc : 33 < b.capacity := by decide
  obtain ⟨least, _, got⟩ := first_fit b
  exact ⟨least 33 hc unused used, fun null => unused ((got (used 0 (by decide))).1.mp null 33 hc)⟩

theorem reserveBlock_touched (b : Balloc) (c word : Nat) :
    word ∈ (reserveBlock b c).touched ↔ word = c / 32 ∨ word ∈ b.touched := by
  rw [reserveBlock]
  split <;> simp [Balloc.touch, Balloc.memoryBitmapSet, Balloc.store]

theorem reserveAll_touched (b : Balloc) (blocks : List Nat) (word : Nat) :
    word ∈ (blocks.foldl reserveBlock b).touched ↔
      (∃ c ∈ blocks, word = c / 32) ∨ word ∈ b.touched := by
  induction blocks generalizing b with
  | nil => simp
  | cons c blocks ih =>
    rw [List.foldl_cons, ih, reserveBlock_touched]
    simp only [List.mem_cons, exists_eq_or_imp]
    rw [or_left_comm, or_assoc]

theorem clearWords_touched (b : Balloc) (n word : Nat) :
    word ∈ ((List.range n).foldl (fun b i => b.store i 0x0) b).touched ↔
      word < n ∨ word ∈ b.touched := by
  induction n with
  | zero => simp
  | succ n ih =>
    rw [List.range_succ, List.foldl_append, List.foldl_cons, List.foldl_nil, Balloc.store,
      List.mem_cons, ih, Nat.lt_succ_iff_lt_or_eq]
    tauto

/-- The marked blocks of the bitmap. -/
def Balloc.marked (b : Balloc) : Finset Nat := members b.mBmp b.capacity

theorem mem_marked {b : Balloc} {c : Nat} : c ∈ b.marked ↔ b.MarkedUsed c := mem_members

/-- The counter agrees with the bitmap, in the counter's own arithmetic. -/
def CountsUsed (b : Balloc) : Prop :=
  b.freeBlocks = b.totalBlocks - BitVec.ofNat 32 b.marked.card

theorem CountsUsed.mark {b b' : Balloc} {c : Nat} (h : CountsUsed b) (hc : c < b.capacity)
    (unused : ¬ b.Used c) (bits : b'.mBmp = setBit b.mBmp c)
    (count : b'.freeBlocks = b.freeBlocks - 1) (bounds : SameBounds b b') : CountsUsed b' := by
  have clear : testBit b.mBmp c = false := by simpa [Used] using unused
  have card : b'.marked.card = b.marked.card + 1 := by
    rw [marked, bits, bounds.capacity]
    exact card_members_setBit (by decide) hc clear
  have h1 : BitVec.ofNat 32 1 = 1 := rfl
  rw [CountsUsed, count, bounds.totalBlocks, card, BitVec.ofNat_add, h1, ← BitVec.sub_sub,
    ← (show b.freeBlocks = _ from h)]

theorem CountsUsed.unmark {b b' : Balloc} {c : Nat} (h : CountsUsed b) (hc : c < b.capacity)
    (used : b.Used c) (bits : b'.mBmp = clearBit b.mBmp c)
    (count : b'.freeBlocks = b.freeBlocks + 1) (bounds : SameBounds b b') : CountsUsed b' := by
  have card : b'.marked.card + 1 = b.marked.card := by
    rw [marked, bits, bounds.capacity, members_clearBit (by decide)]
    exact Finset.card_erase_add_one (mem_members.mpr ⟨hc, used⟩)
  have h1 : BitVec.ofNat 32 1 = 1 := rfl
  rw [CountsUsed, count, bounds.totalBlocks, (show b.freeBlocks = _ from h), ← card,
    BitVec.ofNat_add, h1, ← BitVec.sub_sub, BitVec.sub_add_cancel]

theorem reserveBlock_counts {b : Balloc} {c : Nat} (h : CountsUsed b) (hc : c < b.capacity) :
    CountsUsed (reserveBlock b c) := by
  by_cases used : b.Used c
  · have ht : b.memoryBitmapTest c = true := (memoryBitmapTest_eq b c).trans used
    rw [reserveBlock, ht]
    exact h
  · have ht : b.memoryBitmapTest c = false := by
      simpa [memoryBitmapTest_eq, Used] using used
    refine h.mark hc used (reserveBlock_bits b c) ?_ (reserveBlock_bounds b c)
    simp [reserveBlock, ht, Balloc.touch, Balloc.memoryBitmapSet, Balloc.store]

/-- A fold over blocks inside the bitmap counts right if each of its turns does. -/
theorem foldl_counts {op : Balloc → Nat → Balloc} (bounds : ∀ b c, SameBounds b (op b c))
    (counts : ∀ b c, CountsUsed b → c < b.capacity → CountsUsed (op b c)) {b : Balloc}
    (blocks : List Nat) (h : CountsUsed b) (inside : ∀ c ∈ blocks, c < b.capacity) :
    CountsUsed (blocks.foldl op b) := by
  induction blocks generalizing b with
  | nil => exact h
  | cons c blocks ih =>
    apply ih (counts b c h (inside c List.mem_cons_self))
    intro d hd
    rw [(bounds b c).capacity]
    exact inside d (List.mem_cons_of_mem c hd)

theorem reserveAll_counts {b : Balloc} (blocks : List Nat) (h : CountsUsed b)
    (inside : ∀ c ∈ blocks, c < b.capacity) : CountsUsed (blocks.foldl reserveBlock b) :=
  foldl_counts reserveBlock_bounds (fun _ _ => reserveBlock_counts) blocks h inside

theorem clearedBitmap_counts (kernelEnd memorySz : U32) (memory : Nat → U32) :
    CountsUsed (clearedBitmap kernelEnd memorySz memory) := by
  obtain ⟨_, hsz, htotal, hfree⟩ := clearedBitmap_bounds kernelEnd memorySz memory
  have hempty : (clearedBitmap kernelEnd memorySz memory).marked = ∅ := by
    apply Finset.eq_empty_of_forall_notMem
    intro c hc
    obtain ⟨hlt, used⟩ := mem_marked.mp hc
    rw [capacity, hsz] at hlt
    exact clearedBitmap_unused kernelEnd memorySz memory hlt used
  rw [CountsUsed, hempty, hfree, htotal]
  simp

theorem CountsUsed.free_toNat {b : Balloc} (h : CountsUsed b)
    (le : b.marked.card ≤ b.totalBlocks.toNat) :
    b.freeBlocks.toNat = b.totalBlocks.toNat - b.marked.card := by
  have hlt := b.totalBlocks.isLt
  rw [show b.freeBlocks = _ from h, BitVec.toNat_sub, BitVec.toNat_ofNat]
  omega

theorem ballocGet_counts {b : Balloc} (h : CountsUsed b) : CountsUsed (ballocGet b).2 := by
  rcases ballocGet_cases b with ⟨_, hnull⟩ | ⟨c, b', _, hlt, unused, _, heq, bits, count, bounds⟩
  · rw [hnull]
    exact h
  · rw [heq]
    exact h.mark hlt unused bits count bounds

theorem ballocFree_counts {b : Balloc} {blk : U32} (h : CountsUsed b) (h0 : blk ≠ 0)
    (hb : b.MarkedUsed (blockOf blk)) : CountsUsed (ballocFree b blk) :=
  h.unmark hb.1 hb.2 (ballocFree_bits h0) (ballocFree_count h0) (ballocFree_bounds b blk)

end BlockAllocator
