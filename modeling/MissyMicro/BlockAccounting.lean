import MissyMicro.BootMap
import MissyMicro.TransitionRuns

/-!
# Counting used blocks

The allocator keeps one scalar, `free_blocks`, beside the bitmap. Reserving and
releasing a region test each bit before they count it, taking and freeing a
block do not. As long as every block touched has a bit in the bitmap, and only
marked blocks are freed, the scalar and the bitmap agree.
-/

namespace BlockAccounting

open PackedBits BlockAllocator TransitionRuns
open BlockAllocator.Balloc
open BootMap (ballocStatic)

inductive Operation where
  | configure (memorySz : U32) (memory : Nat → U32)
  | initRegion (start length : U32)
  | deinitRegion (start length : U32)
  | get
  | free (blk : U32)
  | freeN (blk : U32) (n : Nat)

def perform (kernelEnd : U32) (b : Balloc) : Operation → Balloc
  | .configure memorySz memory => ballocInitialize kernelEnd memorySz memory
  | .initRegion start length => ballocInitRegion b start length
  | .deinitRegion start length => ballocDeinitRegion b start length
  | .get => (ballocGet b).2
  | .free blk => ballocFree b blk
  | .freeN blk n => ballocFreeN b blk n

/-- `balloc_free` returns at once on a null pointer. -/
def Freeable (b : Balloc) (blk : U32) : Prop := blk ≠ 0 → b.MarkedUsed (blockOf blk)

/-- The bit of every block is set when its turn comes. -/
def FreeableN (b : Balloc) (blk : U32) : Nat → Prop
  | 0 => True
  | n + 1 => Freeable b blk ∧
      FreeableN (ballocFree b blk) (blk + BitVec.ofNat 32 memoryBlockSize) n

/-- The blocks an operation touches lie in the bitmap, and those it frees are marked. -/
def Proper (kernelEnd : U32) (b : Balloc) : Operation → Prop
  | .configure memorySz _ =>
      ∀ c ∈ initialBlocks kernelEnd memorySz, c < (unitCount memorySz).toNat * 32
  | .initRegion start length => ∀ c ∈ regionBlocks start length, c < b.capacity
  | .deinitRegion start length => ∀ c ∈ regionBlocks start length, c < b.capacity
  | .get => True
  | .free blk => Freeable b blk
  | .freeN blk n => FreeableN b blk n

def Step (kernelEnd : U32) (b : Balloc) (op : Operation) (b' : Balloc) : Prop :=
  b' = perform kernelEnd b op

/-- There is no bitmap before the first call. -/
theorem static_counts (memory : Nat → U32) : CountsUsed (ballocStatic memory) := by
  have hempty : (ballocStatic memory).marked = ∅ := by
    apply Finset.eq_empty_of_forall_notMem
    intro c hc
    exact absurd (mem_marked.mp hc).1 (Nat.not_lt_zero c)
  have hfree : (ballocStatic memory).freeBlocks = 0 := rfl
  have htotal : (ballocStatic memory).totalBlocks = 0 := rfl
  rw [CountsUsed, hempty, hfree, htotal]
  simp

/-- Clearing a bit that is already clear changes no word. -/
theorem clearBit_of_clear {words : Nat → U32} {c : Nat} (h : testBit words c = false) :
    clearBit words c = words := by
  apply words_ext (by decide : 0 < 32)
  intro d
  rw [testBit_clearBit (by omega)]
  by_cases heq : c = d
  · subst d
    simp [h]
  · simp [heq]

theorem releaseBlock_bits (b : Balloc) (c : Nat) :
    (releaseBlock b c).mBmp = clearBit b.mBmp c := by
  rw [releaseBlock, memoryBitmapTest_eq]
  cases h : testBit b.mBmp c with
  | false => simp [Balloc.touch, clearBit_of_clear h]
  | true => simp [memoryBitmapClear_bits, Balloc.touch]

theorem releaseBlock_bounds (b : Balloc) (c : Nat) : SameBounds b (releaseBlock b c) := by
  rw [releaseBlock]
  split <;> exact ⟨rfl, rfl, rfl, rfl⟩

theorem releaseBlock_counts {b : Balloc} {c : Nat} (h : CountsUsed b) (hc : c < b.capacity) :
    CountsUsed (releaseBlock b c) := by
  by_cases used : b.Used c
  · have ht : b.memoryBitmapTest c = true := (memoryBitmapTest_eq b c).trans used
    refine h.unmark hc used (releaseBlock_bits b c) ?_ (releaseBlock_bounds b c)
    simp [releaseBlock, ht, Balloc.touch, Balloc.memoryBitmapClear, Balloc.store]
  · have ht : b.memoryBitmapTest c = false := by
      simpa [memoryBitmapTest_eq, Used] using used
    rw [releaseBlock, ht]
    exact h

theorem releaseAll_counts {b : Balloc} (blocks : List Nat) (h : CountsUsed b)
    (inside : ∀ c ∈ blocks, c < b.capacity) : CountsUsed (blocks.foldl releaseBlock b) :=
  foldl_counts releaseBlock_bounds (fun _ _ => releaseBlock_counts) blocks h inside

theorem free_counts {b : Balloc} {blk : U32} (h : CountsUsed b) (freeable : Freeable b blk) :
    CountsUsed (ballocFree b blk) := by
  by_cases hnull : blk = 0
  · rw [hnull, ballocFree_null]
    exact h
  · exact ballocFree_counts h hnull (freeable hnull)

theorem freeN_counts {b : Balloc} {blk : U32} {n : Nat} (h : CountsUsed b)
    (freeable : FreeableN b blk n) : CountsUsed (ballocFreeN b blk n) := by
  induction n generalizing b blk with
  | zero => exact h
  | succ n ih =>
    obtain ⟨first, rest⟩ := freeable
    exact ih (free_counts h first) rest

theorem configure_counts {kernelEnd memorySz : U32} (memory : Nat → U32)
    (inside : ∀ c ∈ initialBlocks kernelEnd memorySz, c < (unitCount memorySz).toNat * 32) :
    CountsUsed (ballocInitialize kernelEnd memorySz memory) := by
  rw [ballocInitialize_eq]
  apply reserveAll_counts _ (clearedBitmap_counts kernelEnd memorySz memory)
  rw [capacity, (clearedBitmap_bounds kernelEnd memorySz memory).2.1]
  exact inside

theorem step_counts {kernelEnd : U32} {b b' : Balloc} {op : Operation} (h : CountsUsed b)
    (step : Guarded (Proper kernelEnd) (Step kernelEnd) b op b') : CountsUsed b' := by
  obtain ⟨proper, rfl⟩ := step
  cases op with
  | configure memorySz memory => exact configure_counts memory proper
  | initRegion start length => exact reserveAll_counts _ h proper
  | deinitRegion start length => exact releaseAll_counts _ h proper
  | get => exact ballocGet_counts h
  | free blk => exact free_counts h proper
  | freeN blk n => exact freeN_counts h proper

theorem counts_used {b : Balloc} (h : CountsUsed b) :
    ballocUsedBlockCount b = BitVec.ofNat 32 b.marked.card := by
  rw [ballocUsedBlockCount, show b.freeBlocks = _ from h, BitVec.sub_eq_iff_eq_add,
    BitVec.add_comm, BitVec.sub_add_cancel]

/-- After every call of a run, `balloc_used_block_count` is the number of set bits. -/
theorem used_count_exact {kernelEnd : U32} {memory : Nat → U32} {ops : List Operation} {b : Balloc}
    (run : Run (Guarded (Proper kernelEnd) (Step kernelEnd)) (ballocStatic memory) ops b) :
    ballocUsedBlockCount b = BitVec.ofNat 32 b.marked.card :=
  counts_used (run.invariant (I := CountsUsed) (fun _ _ _ h hs => step_counts h hs)
    (static_counts memory))

/-- Right after boot, with 4 MB of memory: a region half of which is reserved already,
and a block of it given back. -/
theorem overlap_counted_once : ∃ b,
    Run (Guarded (Proper 0xC0010000) (Step 0xC0010000)) (ballocStatic fun _ => 0)
      [.configure 0x400000 (fun _ => 0), .initRegion 0x80000 0x100000,
        .deinitRegion 0x100000 0x0] b ∧
      ballocUsedBlockCount b = BitVec.ofNat 32 b.marked.card := by
  let boot := ballocInitialize 0xC0010000 0x400000 fun _ => 0
  have hcap : boot.capacity = 1056 := ballocInitialize_capacity _ _ _
  have hcap' : (ballocInitRegion boot 0x80000 0x100000).capacity = 1056 := by
    rw [(ballocInitRegion_bounds boot _ _).capacity, hcap]
  have low : Proper 0xC0010000 (ballocStatic fun _ => 0) (.configure 0x400000 fun _ => 0) :=
    initialBlocks_lt _ _ (by decide)
  have region : Proper 0xC0010000 boot (.initRegion 0x80000 0x100000) := by
    intro c hc
    rw [hcap]
    exact (mem_regionBlocks.mp hc).2.trans_lt (by decide)
  have block : Proper 0xC0010000 (ballocInitRegion boot 0x80000 0x100000)
      (.deinitRegion 0x100000 0x0) := by
    intro c hc
    rw [hcap']
    exact (mem_regionBlocks.mp hc).2.trans_lt (by decide)
  have run := @Run.cons _ _ (Guarded (Proper 0xC0010000) (Step 0xC0010000)) _ _ _ _ _ ⟨low, rfl⟩
    (.cons ⟨region, rfl⟩ (.cons ⟨block, rfl⟩ (.nil _)))
  exact ⟨_, run, used_count_exact run⟩

end BlockAccounting
