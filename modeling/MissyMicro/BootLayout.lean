import MissyMicro.Mmu
import MissyMicro.PhantomBlocks

/-!
# Kernel image, bitmap and boot stack in physical memory

The linker script places the image at 1 MB physical. `balloc_initialize` reserves
the low megabyte and a byte range after it that is meant to hold the image and
the bitmap, and the boot code maps the stack page through a table it fills upward
from `stack_physical`. Whether the reserved range covers what the kernel uses is
a question about these three computations.
-/

namespace BootLayout

open BlockAllocator PhantomBlocks Mmu

def pageDirectoryAddr : U32 := 0x7F000
def pageTable0Addr : U32 := 0x80000
def pageTable768Addr : U32 := 0x81000
def pageTableStackAddr : U32 := 0x82000
def pagePrivilege : U32 := 3
def pageTableEntries : Nat := 1024
def kernelStackPage : U32 := 0xffbff000

/-- The loop of `setup_paging` that stores `ebx` at `eax`, `ecx` times. -/
def fill (m : PhysMem) (eax ebx step : U32) : Nat → PhysMem
  | 0 => m
  | ecx + 1 => fill (store m eax ebx) (eax + 4) (ebx + step) step ecx

/-- Fill the three tables, clear the directory and install the tables in it. The
directory address is left in `cr3`. -/
def setupPaging (stackPhysical : U32) (m : PhysMem) : PhysMem :=
  let m := fill m pageTable0Addr (0x0 ||| pagePrivilege) 4096 pageTableEntries
  let m := fill m pageTable768Addr (0x100000 ||| pagePrivilege) 4096 pageTableEntries
  let m := fill m pageTableStackAddr (stackPhysical ||| pagePrivilege) 4096 pageTableEntries
  let m := fill m pageDirectoryAddr 0x0 0 pageTableEntries
  let m := store m pageDirectoryAddr (pageTable0Addr ||| pagePrivilege)
  let m := store m (pageDirectoryAddr + 768 * 4) (pageTable768Addr ||| pagePrivilege)
  let m := store m (pageDirectoryAddr + (kernelStackPage >>> 22) * 4)
    (pageTableStackAddr ||| pagePrivilege)
  store m (pageDirectoryAddr + 1023 * 4) (pageDirectoryAddr ||| pagePrivilege)

/-- Where the linker put the stack section and the end of the image: the section
is page aligned and inside the image. -/
structure KernelLayout where
  sysstack : U32
  kernelEnd : U32
  start_le : kernelStart.toNat ≤ sysstack.toNat
  le_end : sysstack.toNat ≤ kernelEnd.toNat
  aligned : sysstack.toNat % 4096 = 0

namespace KernelLayout

def stackPhysical (k : KernelLayout) : U32 := k.sysstack - logicalAddressAdjust

end KernelLayout

/-- From word `j` of frame `f` on, `n` words are written and nothing else. -/
theorem fill_word (m : PhysMem) (eax ebx step : U32) {f j n : Nat} (low : f < 2 ^ 20 - 1)
    (at_word : eax.toNat = f * 4096 + 4 * j) (room : j + n ≤ 1024) (f' w : Nat) :
    fill m eax ebx step n f' w =
      if f' = f ∧ j ≤ w ∧ w < j + n then ebx + BitVec.ofNat 32 (w - j) * step else m f' w := by
  induction n generalizing m eax ebx j with
  | zero =>
    have h : ¬ (f' = f ∧ j ≤ w ∧ w < j + 0) := by omega
    rw [fill, if_neg h]
  | succ n ih =>
    have hfour : BitVec.toNat (4 : U32) = 4 := rfl
    have hnext : (eax + 4).toNat = f * 4096 + 4 * (j + 1) := by
      rw [BitVec.toNat_add, hfour]
      omega
    have hframe : frameOf eax = f := by
      rw [frameOf]
      omega
    have hword : wordOf eax = j := by
      rw [wordOf]
      omega
    rw [fill, ih (store m eax ebx) (eax + 4) (ebx + step) hnext (by omega), store, hframe, hword]
    by_cases here : f' = f ∧ w = j
    · obtain ⟨rfl, rfl⟩ := here
      have hout : ¬ (f' = f' ∧ w + 1 ≤ w ∧ w < w + 1 + n) := by omega
      have hin : f' = f' ∧ w ≤ w ∧ w < w + (n + 1) := by omega
      rw [if_neg hout, if_pos hin, put_same, Nat.sub_self]
      simp
    · by_cases later : f' = f ∧ j + 1 ≤ w ∧ w < j + 1 + n
      · have hin : f' = f ∧ j ≤ w ∧ w < j + (n + 1) := by omega
        have hstep : w - j = (w - (j + 1)) + 1 := by omega
        rw [if_pos later, if_pos hin, hstep, BitVec.ofNat_add, BitVec.add_mul,
          BitVec.one_mul, BitVec.add_assoc, BitVec.add_comm step]
      · have hout : ¬ (f' = f ∧ j ≤ w ∧ w < j + (n + 1)) := by omega
        rw [if_neg later, if_neg hout, put, if_neg here]

/-- Filling a whole page leaves nothing of what it held. -/
theorem fill_page (m : PhysMem) (eax ebx step : U32) {f : Nat} (low : f < 2 ^ 20 - 1)
    (at_page : eax.toNat = f * 4096) (f' w : Nat) (hw : w < 1024) :
    fill m eax ebx step pageTableEntries f' w =
      if f' = f then ebx + BitVec.ofNat 32 w * step else m f' w := by
  have hfill := fill_word m eax ebx step low (j := 0) (n := 1024)
    (by simpa using at_page) (by omega) f' w
  rw [show pageTableEntries = 1024 from rfl, hfill]
  by_cases h : f' = f
  · rw [if_pos (by omega), if_pos h, Nat.sub_zero]
  · rw [if_neg (by omega), if_neg h]

theorem store_eq_put (m : PhysMem) {addr : U32} (x : U32) {f w : Nat} (hf : frameOf addr = f)
    (hw : wordOf addr = w) : store m addr x = put m f w x := by
  rw [store, hf, hw]

/-- What `setup_paging` leaves in the directory and in the three tables. -/
theorem setupPaging_word (stackPhysical : U32) (m : PhysMem) (f w : Nat) (hw : w < 1024) :
    setupPaging stackPhysical m f w =
      if f = 0x7F then
        if w = 1023 then pageDirectoryAddr ||| pagePrivilege
        else if w = 1022 then pageTableStackAddr ||| pagePrivilege
        else if w = 768 then pageTable768Addr ||| pagePrivilege
        else if w = 0 then pageTable0Addr ||| pagePrivilege
        else 0
      else if f = 0x82 then (stackPhysical ||| pagePrivilege) + BitVec.ofNat 32 w * 4096
      else if f = 0x81 then (0x100000 ||| pagePrivilege) + BitVec.ofNat 32 w * 4096
      else if f = 0x80 then (0x0 ||| pagePrivilege) + BitVec.ofNat 32 w * 4096
      else m f w := by
  simp only [setupPaging]
  rw [store_eq_put _ _ (f := 0x7F) (w := 1023) (by decide) (by decide),
    store_eq_put _ _ (f := 0x7F) (w := 1022) (by decide) (by decide),
    store_eq_put _ _ (f := 0x7F) (w := 768) (by decide) (by decide),
    store_eq_put _ _ (f := 0x7F) (w := 0) (by decide) (by decide)]
  simp only [put]
  rw [fill_page _ _ _ _ (f := 0x7F) (by omega) (by decide) _ _ hw,
    fill_page _ _ _ _ (f := 0x82) (by omega) (by decide) _ _ hw,
    fill_page _ _ _ _ (f := 0x81) (by omega) (by decide) _ _ hw,
    fill_page _ _ _ _ (f := 0x80) (by omega) (by decide) _ _ hw]
  by_cases hd : f = 0x7F
  · simp [hd]
  · simp [hd]

/-- The table entry of the stack page: the last of 1024 consecutive frames. -/
theorem walk_stack (stackPhysical : U32) (m : PhysMem)
    (present : Present ((stackPhysical ||| pagePrivilege) + 1023 * 4096)) :
    walk (setupPaging stackPhysical m) pageDirectoryAddr kernelStackPage =
      some ((stackPhysical ||| pagePrivilege) + 1023 * 4096) := by
  have hpde : setupPaging stackPhysical m (frameOf pageDirectoryAddr) (pdeIndex kernelStackPage)
      = pageTableStackAddr ||| pagePrivilege := by
    rw [setupPaging_word stackPhysical m _ _ (pdeIndex_lt kernelStackPage)]
    rfl
  rw [walk_eq_some, hpde]
  refine ⟨by decide, present, ?_⟩
  rw [setupPaging_word stackPhysical m _ _ (pteIndex_lt kernelStackPage)]
  rfl

namespace KernelLayout

variable (k : KernelLayout)

theorem kernelStart_le : 0xC0000000 ≤ k.sysstack.toNat := k.start_le

theorem kernelStart_le_end : 0xC0000000 ≤ k.kernelEnd.toNat := k.start_le.trans k.le_end

theorem stackPhysical_toNat : k.stackPhysical.toNat = k.sysstack.toNat - 0xbff00000 := by
  have hlt := k.sysstack.isLt
  have hle := k.kernelStart_le
  have hadj : logicalAddressAdjust.toNat = 0xbff00000 := rfl
  rw [stackPhysical, BitVec.toNat_sub, hadj]
  omega

theorem kernelSz_toNat : (kernelSz k.kernelEnd).toNat = k.kernelEnd.toNat - 0xC0000000 := by
  have hlt := k.kernelEnd.isLt
  have hle := k.kernelStart_le_end
  have hstart : kernelStart.toNat = 0xC0000000 := rfl
  rw [kernelSz, BitVec.toNat_sub, hstart]
  omega

/-- The image takes less than 1 GB and the bitmap at most 2 ^ 15 words, so the sum
is exact. -/
theorem kernelTotalSz_toNat (memorySz : U32) : (kernelTotalSz k.kernelEnd memorySz).toNat =
    k.kernelEnd.toNat - 0xC0000000 + (unitCount memorySz).toNat * 32 := by
  have hlt := k.kernelEnd.isLt
  have hunits := unitCount_le memorySz
  have hunit : (BitVec.ofNat 32 blocksPerUnit).toNat = 32 := rfl
  rw [kernelTotalSz, BitVec.toNat_add, BitVec.toNat_mul, hunit, k.kernelSz_toNat]
  omega

/-- The block that the boot code maps at the stack page. -/
def stackBlock : Nat := (k.sysstack.toNat - 0xbff00000) / 4096 + 1023

theorem stack_entry :
    ((k.stackPhysical ||| pagePrivilege) + 1023 * 4096).toNat =
      k.sysstack.toNat - 0xbff00000 + 0x3ff003 := by
  have hlt := k.sysstack.isLt
  have hle := k.kernelStart_le
  have hal := k.aligned
  have haligned : k.stackPhysical.toNat % 4096 = 0 := by
    rw [k.stackPhysical_toNat]
    omega
  have hflags : BitVec.toNat pagePrivilege = 3 := rfl
  have hspan : BitVec.toNat (1023 * 4096 : U32) = 0x3ff000 := rfl
  rw [Words.or_flags_eq_add haligned (by rw [hflags]; omega), BitVec.toNat_add, BitVec.toNat_add,
    k.stackPhysical_toNat, hflags, hspan]
  omega

/-- The frame of the stack page under the boot tables. -/
theorem stack_mapped (m : PhysMem) :
    (walk (setupPaging k.stackPhysical m) pageDirectoryAddr kernelStackPage).map frameOf =
      some k.stackBlock := by
  have hle := k.kernelStart_le
  have hal := k.aligned
  have hentry := k.stack_entry
  have present : Present ((k.stackPhysical ||| pagePrivilege) + 1023 * 4096) := by
    apply (Words.and_one_ne_zero _).mpr
    rw [hentry]
    omega
  have hblock : frameOf ((k.stackPhysical ||| pagePrivilege) + 1023 * 4096) = k.stackBlock := by
    rw [frameOf, hentry, stackBlock]
    omega
  rw [walk_stack k.stackPhysical m present, Option.map_some, hblock]

end KernelLayout

/-- The blocks that runs of `balloc_get` return after `balloc_initialize`. -/
theorem initialized_returns_iff (k : KernelLayout) (memorySz : U32) (memory : Nat → U32)
    (c : Nat) :
    (∃ n, ∃ r ∈ ballocGets n (ballocInitialize k.kernelEnd memorySz memory),
      r ≠ 0 ∧ blockOf r = c) ↔
      c < (unitCount memorySz).toNat * 32 ∧
        256 + (k.kernelEnd.toNat - 0xC0000000 + (unitCount memorySz).toNat * 32) / 4096 < c := by
  have hcap := ballocInitialize_capacity k.kernelEnd memorySz memory
  have hunits := unitCount_toNat memorySz
  have used := @ballocInitialize_used k.kernelEnd memorySz memory
  have zero : (ballocInitialize k.kernelEnd memorySz memory).Used 0 :=
    (used (by rw [hcap]; omega)).mpr (initialBlocks_zero k.kernelEnd memorySz)
  rw [gets_return_iff zero, hcap, ← hunits]
  refine and_congr_right (fun hc => ?_)
  rw [used (by rw [hcap, ← hunits]; exact hc), mem_initialBlocks, k.kernelTotalSz_toNat]
  omega

/-- The frame under the boot stack is reserved exactly when the kernel's byte range
reaches 1023 blocks past the stack section. -/
theorem stack_frame_protected_iff (k : KernelLayout) (memorySz : U32) (memory : Nat → U32)
    (m : PhysMem) :
    (∃ f, (walk (setupPaging k.stackPhysical m) pageDirectoryAddr kernelStackPage).map frameOf =
        some f ∧
      (ballocInitialize k.kernelEnd memorySz memory).MarkedUsed f ∧
      ∀ n, ∀ r ∈ ballocGets n (ballocInitialize k.kernelEnd memorySz memory),
        r ≠ 0 → blockOf r ≠ f) ↔
    k.stackBlock < (memorySz.toNat / 4096 / 32 + 1) * 32 ∧
      k.stackBlock ≤ 256 + (k.kernelEnd.toNat - 0xC0000000 +
        (memorySz.toNat / 4096 / 32 + 1) * 32) / 4096 := by
  have hcap := ballocInitialize_capacity k.kernelEnd memorySz memory
  have hunits := unitCount_toNat memorySz
  have used := @ballocInitialize_used k.kernelEnd memorySz memory k.stackBlock
  rw [mem_initialBlocks, k.kernelTotalSz_toNat, hunits, hcap] at used
  constructor
  · rintro ⟨f, hf, ⟨hlt, hused⟩, _⟩
    rw [k.stack_mapped m, Option.some.injEq] at hf
    subst hf
    rw [hcap] at hlt
    exact ⟨hlt, (used hlt).mp hused⟩
  · rintro ⟨hlt, hle⟩
    refine ⟨k.stackBlock, k.stack_mapped m, ⟨by rw [hcap]; exact hlt, (used hlt).mpr hle⟩, ?_⟩
    intro n r hr h0 heq
    have hret := (initialized_returns_iff k memorySz memory k.stackBlock).mp ⟨n, r, hr, h0, heq⟩
    rw [hunits] at hret
    omega

/-- A 64 KB kernel image whose last page is the stack section. -/
def smallKernel : KernelLayout where
  sysstack := 0xC000F000
  kernelEnd := 0xC0010000
  start_le := by decide
  le_end := by decide
  aligned := by decide

/-- With 32 MB the live stack frame is handed out. -/
theorem stack_frame_returned :
    ∃ f, (walk (setupPaging smallKernel.stackPhysical (fun _ _ => 0)) pageDirectoryAddr
        kernelStackPage).map frameOf = some f ∧
      ∃ n, ∃ r ∈ ballocGets n (ballocInitialize smallKernel.kernelEnd 0x2000000 (fun _ => 0)),
        r ≠ 0 ∧ blockOf r = f := by
  refine ⟨smallKernel.stackBlock, smallKernel.stack_mapped _, ?_⟩
  exact (initialized_returns_iff smallKernel 0x2000000 _ _).mpr (by decide)

/-- With the one stack page of the boot code, no memory size reserves the frame. -/
theorem stack_frame_unprotected (k : KernelLayout) (memorySz : U32) (memory : Nat → U32)
    (one_page : k.kernelEnd.toNat = k.sysstack.toNat + 4096) :
    ¬ (ballocInitialize k.kernelEnd memorySz memory).MarkedUsed k.stackBlock := by
  have hcap := ballocInitialize_capacity k.kernelEnd memorySz memory
  have hunits := unitCount_toNat memorySz
  have hle := k.kernelStart_le
  have hmem := memorySz.isLt
  rintro ⟨hlt, hused⟩
  have h := (ballocInitialize_used k.kernelEnd memorySz memory hlt).mp hused
  rw [mem_initialBlocks, k.kernelTotalSz_toNat, hunits, KernelLayout.stackBlock] at h
  omega

/-- Block `c` holds a byte of the physical range `[lo, hi)`. -/
def Meets (c lo hi : Nat) : Prop := ∃ a, lo ≤ a ∧ a < hi ∧ a / 4096 = c

/-- The physical addresses of the words of `m_bmp`. -/
def bitmapStart (b : Balloc) : Nat := (b.mBmpAddr - logicalAddressAdjust).toNat
def bitmapEnd (b : Balloc) : Nat := bitmapStart b + 4 * b.bmpSz.toNat

def imageStart : Nat := kstartPhys.toNat
def imageEnd (kernelEnd : U32) : Nat := (kernelEnd - logicalAddressAdjust).toNat

theorem KernelLayout.imageEnd_eq (k : KernelLayout) :
    imageEnd k.kernelEnd = k.kernelEnd.toNat - 0xbff00000 := by
  have hlt := k.kernelEnd.isLt
  have hle := k.kernelStart_le_end
  have hadj : logicalAddressAdjust.toNat = 0xbff00000 := rfl
  rw [imageEnd, BitVec.toNat_sub, hadj]
  omega

/-- The image is always protected; the bitmap exactly when its last block is not
past the reserved byte range, because its address counts the image in words and
the reserved length counts the bitmap's words as 32 bytes. -/
theorem image_and_bitmap_protected_iff (k : KernelLayout) (memorySz : U32)
    (memory : Nat → U32)
    (bitmap_fits : bitmapEnd (ballocInitialize k.kernelEnd memorySz memory) ≤ memorySz.toNat) :
    (∀ n, ∀ r ∈ ballocGets n (ballocInitialize k.kernelEnd memorySz memory), r ≠ 0 →
      ¬ Meets (blockOf r) imageStart (imageEnd k.kernelEnd) ∧
      ¬ Meets (blockOf r) (bitmapStart (ballocInitialize k.kernelEnd memorySz memory))
        (bitmapEnd (ballocInitialize k.kernelEnd memorySz memory))) ↔
    ((kernelStart + 4 * kernelSz k.kernelEnd - logicalAddressAdjust).toNat +
        4 * (memorySz.toNat / 4096 / 32 + 1) - 1) / 4096 ≤
      256 + (k.kernelEnd.toNat - 0xC0000000 +
        (memorySz.toNat / 4096 / 32 + 1) * 32) / 4096 := by
  have hunits := unitCount_toNat memorySz
  have himage := k.imageEnd_eq
  have hle := k.kernelStart_le_end
  have hstart : imageStart = 0x100000 := kstartPhys_toNat
  have returns := initialized_returns_iff k memorySz memory
  obtain ⟨haddr, hsz, _⟩ := ballocInitialize_bounds k.kernelEnd memorySz memory
  simp only [bitmapEnd, bitmapStart, haddr, hsz, hunits] at bitmap_fits ⊢
  simp only [hunits] at returns
  generalize (kernelStart + 4 * kernelSz k.kernelEnd - logicalAddressAdjust).toNat = lo
    at bitmap_fits ⊢
  constructor
  · intro safe
    by_contra past
    obtain ⟨n, r, hr, h0, heq⟩ := (returns
      ((lo + 4 * (memorySz.toNat / 4096 / 32 + 1) - 1) / 4096)).mpr ⟨by omega, by omega⟩
    apply (safe n r hr h0).2
    exact ⟨lo + 4 * (memorySz.toNat / 4096 / 32 + 1) - 1, by omega, by omega, heq.symm⟩
  · intro covered n r hr h0
    obtain ⟨_, hpast⟩ := (returns (blockOf r)).mp ⟨n, r, hr, h0, rfl⟩
    constructor
    · rintro ⟨a, _, ha, heq⟩
      omega
    · rintro ⟨a, _, ha, heq⟩
      omega

/-- A 64 KB kernel on 32 MB: the bitmap at 0x140000 is handed out. -/
theorem bitmap_block_returned :
    let b := ballocInitialize smallKernel.kernelEnd 0x2000000 (fun _ => 0)
    bitmapEnd b ≤ (0x2000000 : U32).toNat ∧
      ∃ n, ∃ r ∈ ballocGets n b, r ≠ 0 ∧ Meets (blockOf r) (bitmapStart b) (bitmapEnd b) := by
  intro b
  obtain ⟨haddr, hsz, _⟩ := ballocInitialize_bounds smallKernel.kernelEnd 0x2000000 (fun _ => 0)
  have hstart : bitmapStart b = 0x140000 := by
    rw [bitmapStart, haddr]
    decide
  have hend : bitmapEnd b = 0x140404 := by
    rw [bitmapEnd, hstart, hsz]
    decide
  obtain ⟨n, r, hr, h0, heq⟩ :=
    (initialized_returns_iff smallKernel 0x2000000 (fun _ => 0) 320).mpr (by decide)
  rw [hstart, hend]
  exact ⟨by decide, n, r, hr, h0, 0x140000, by decide, by decide, heq.symm⟩

/-- On 1 GB the bitmap of the same kernel is long enough for what is reserved to cover it. -/
theorem small_kernel_protected :
    let b := ballocInitialize smallKernel.kernelEnd 0x40000000 (fun _ => 0)
    ∀ n, ∀ r ∈ ballocGets n b, r ≠ 0 →
      ¬ Meets (blockOf r) imageStart (imageEnd smallKernel.kernelEnd) ∧
      ¬ Meets (blockOf r) (bitmapStart b) (bitmapEnd b) := by
  obtain ⟨haddr, hsz, _⟩ := ballocInitialize_bounds smallKernel.kernelEnd 0x40000000 (fun _ => 0)
  have fits : bitmapEnd (ballocInitialize smallKernel.kernelEnd 0x40000000 (fun _ => 0)) ≤
      (0x40000000 : U32).toNat := by
    rw [bitmapEnd, bitmapStart, haddr, hsz]
    decide
  exact (image_and_bitmap_protected_iff smallKernel 0x40000000 (fun _ => 0) fits).mpr (by decide)

end BootLayout
