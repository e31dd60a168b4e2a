import MissyMicro.BootMap
import MissyMicro.MapEntries

/-!
# From the reported memory sizes to the block count

The two sizes are added, multiplied by 1024 and divided by the block size in words of 32 bits.
The product keeps only the low 22 bits of the sum.
-/

namespace MemorySize

open LittleEndian LinkedRings Multiboot BootInformation BlockAllocator BlockRuns BootMap
  MapEntries

/-- The sizes in KB that the boot loader reports: two fields of the information block, or of
the tag that the search finds. -/
inductive Reports (mem : Bytes) (mbPtr magic lower upper : U32) : Prop
  | multiboot (isMagic : magic = multibootMagic)
      (lo : load32 mem (mbPtr.toNat + 4) = lower) (hi : load32 mem (mbPtr.toNat + 8) = upper)
  | multiboot2 (isMagic : magic = multiboot2Magic) {fuel : Nat} {msize : Search}
      (found : mboot2FindTag fuel mem mbPtr mboot2TypetagMemsz = some msize)
      (lo : load32 mem (msize.tag.toNat + 8) = lower)
      (hi : load32 mem (msize.tag.toNat + 12) = upper)

/-- `balloc_initialize` has accepted the memory size. -/
def PastBalloc : Outcome → Prop
  | .panic err _ => err ≠ "Block allocator failed to initialize!"
  | .divideError _ => True
  | .mapped _ _ => True

section Sizes

variable {mem : Bytes} {st st' : MultibootState} {mbPtr magic lower upper kernelEnd : U32}
  {memory : Nat → U32} {fuel : Nat}

theorem mboot2FindTag_stable (mem : Bytes) (mb2Start type : U32) :
    Stable (fun fuel => mboot2FindTag fuel mem mb2Start type) := by
  intro fuel r h
  dsimp only at h ⊢
  rw [mboot2FindTag] at h ⊢
  split at h
  · rename_i absent
    rwa [if_pos absent]
  · rename_i placed
    rw [if_neg placed]
    exact findTagFrom_stable mem type _ _ fuel r h

/-- The sum as `multiboot_get_memsz` returns it, and the cursor as it was. -/
theorem multibootDataInit_memsz
    (init : multibootDataInit fuel mem st mbPtr magic = some (0, st'))
    (reports : Reports mem mbPtr magic lower upper) :
    multibootGetMemsz st' = lower + upper ∧ st'.multibootCurMmap = st.multibootCurMmap := by
  cases reports with
  | multiboot isMagic lo hi =>
    subst isMagic
    simp only [multibootDataInit, if_true, lo, hi] at init
    split at init
    · cases init
    · split at init
      · cases init
      · cases init
        exact ⟨rfl, rfl⟩
  | multiboot2 isMagic found lo hi =>
    subst isMagic
    simp only [multibootDataInit, if_neg magics_ne, if_true] at init
    obtain ⟨msize, first, rest⟩ := Option.bind_eq_some_iff.mp init
    have same := (mboot2FindTag_stable _ _ _).returns first
    obtain rfl := same.unique ((mboot2FindTag_stable _ _ _).returns found)
    split at rest
    · cases rest
    · obtain ⟨mmap, _, result⟩ := Option.map_eq_some_iff.mp rest
      obtain ⟨_, rfl⟩ := Prod.mk.inj result
      exact ⟨by rw [multibootGetMemsz, lo, hi], rfl⟩

theorem mapLoop_stable (b : Balloc) (mapEntry : MmapData) (st : MultibootState) :
    Stable (fun fuel => mapLoop mem fuel b mapEntry st) := by
  intro fuel o h
  induction fuel generalizing b mapEntry st with
  | zero => cases h
  | succ fuel ih =>
    dsimp only at h ih ⊢
    rw [mapLoop] at h ⊢
    generalize multibootGetMmapNext mem st = next at h ⊢
    obtain _ | ⟨_ | entry, st'⟩ := next
    · exact h
    · exact h
    · exact ih _ _ _ h

theorem mapLoop_past {b : Balloc} {mapEntry : MmapData} {st : MultibootState} {o : Outcome}
    (h : mapLoop mem fuel b mapEntry st = some o) : PastBalloc o := by
  induction fuel generalizing b mapEntry st with
  | zero => cases h
  | succ fuel ih =>
    rw [mapLoop] at h
    generalize multibootGetMmapNext mem st = next at h
    obtain _ | ⟨_ | entry, st'⟩ := next
    · cases h
      trivial
    · cases h
      trivial
    · exact ih h

theorem kmemoryReserve_stable :
    Stable (fun fuel => kmemoryReserve fuel mem st kernelEnd memory) := by
  intro fuel o h
  dsimp only at h ⊢
  rw [kmemoryReserve] at h ⊢
  dsimp only at h ⊢
  split at h
  · rename_i zero
    rwa [if_pos zero]
  · rename_i nonzero
    rw [if_neg nonzero]
    split at h
    · rename_i empty
      rwa [if_pos empty]
    · rename_i blocks
      rw [if_neg blocks]
      generalize multibootGetMmapNext mem st = next at h ⊢
      obtain _ | ⟨_ | entry, st'⟩ := next
      · exact h
      · exact h
      · exact mapLoop_stable _ _ _ fuel o h

theorem kmemoryReserve_past {o : Outcome}
    (accepted : blockCount (multibootGetMemsz st * 1024) ≠ 0)
    (h : kmemoryReserve fuel mem st kernelEnd memory = some o) : PastBalloc o := by
  rw [kmemoryReserve_accepted accepted] at h
  generalize multibootGetMmapNext mem st = next at h
  obtain _ | ⟨_ | entry, st'⟩ := next
  · cases h
    trivial
  · cases h
    show "No memory map was provided by the bootloader!" ≠ _
    decide
  · exact mapLoop_past h

/-- A size of less than one block is refused. -/
theorem kmemoryReserve_refused {o : Outcome}
    (refused : blockCount (multibootGetMemsz st * 1024) = 0)
    (h : kmemoryReserve fuel mem st kernelEnd memory = some o) : ¬ PastBalloc o := by
  have total := (ballocInitialize_bounds kernelEnd (multibootGetMemsz st * 1024) memory).2.2
  rw [kmemoryReserve] at h
  dsimp only at h
  rw [total, if_pos refused] at h
  split at h
  · cases h
    exact fun past => past rfl
  · cases h
    exact fun past => past rfl

/-- The blocks counted are those of the low 22 bits of the sum. -/
theorem blockCount_memsz (lower upper : U32) :
    (blockCount ((lower + upper) * 1024)).toNat = (lower.toNat + upper.toNat) % 2 ^ 22 / 4 := by
  have h1024 : (1024 : U32).toNat = 1024 := rfl
  rw [blockCount_toNat, BitVec.toNat_mul, BitVec.toNat_add, h1024]
  omega

/-- Every boot that gets past `balloc_initialize` counts the blocks of the reported memory if
and only if that memory is below 4 GB, or its low 22 bits do not make up a block. -/
theorem kmemoryReserve_totalBlocks_iff (fresh : st.multibootCurMmap = 0)
    (init : multibootDataInit fuel mem st mbPtr magic = some (0, st'))
    (reports : Reports mem mbPtr magic lower upper) :
    (∀ turns o, kmemoryReserve turns mem st' kernelEnd memory = some o → PastBalloc o →
        o.balloc.totalBlocks.toNat = (lower.toNat + upper.toNat) * 1024 / 4096) ↔
      lower.toNat + upper.toNat < 2 ^ 22 ∨ (lower.toNat + upper.toNat) % 2 ^ 22 < 4 := by
  obtain ⟨memsz, cursor⟩ := multibootDataInit_memsz init reports
  have counted := blockCount_memsz lower upper
  rw [← memsz] at counted
  by_cases refused : blockCount (multibootGetMemsz st' * 1024) = 0
  · have empty : (lower.toNat + upper.toNat) % 2 ^ 22 / 4 = 0 := by
      rw [← counted, refused]
      rfl
    refine iff_of_true (fun turns o h past => ?_) (Or.inr (by omega))
    exact absurd past (kmemoryReserve_refused refused h)
  · have positive : (lower.toNat + upper.toNat) % 2 ^ 22 / 4 ≠ 0 := by
      rw [← counted, ne_eq, ← BitVec.toNat_inj] at *
      exact refused
    obtain ⟨o, ho, hb⟩ := @kmemoryReserve_reserved _ mem _ kernelEnd
      memory (cursor.trans fresh) refused (Nat.le_refl _)
    have total : o.balloc.totalBlocks.toNat = (lower.toNat + upper.toNat) % 2 ^ 22 / 4 := by
      rw [hb, reserved_bounds.2, counted]
    constructor
    · intro exactly
      have claimed := exactly _ o ho (kmemoryReserve_past refused ho)
      omega
    · intro small turns o' ho' _
      obtain rfl := (kmemoryReserve_stable.returns ho').unique (kmemoryReserve_stable.returns ho)
      omega

end Sizes

theorem oneRecord_reports :
    Reports (ofWords 0x9000 oneRecord) 0x9000 multibootMagic 640 130048 :=
  .multiboot rfl (by decide +kernel) (by decide +kernel)

/-- 640 KB below 1 MB and 127 MB above it. -/
theorem kmemoryReserve_totalBlocks_oneRecord : ∃ st',
    multibootDataInit 0 (ofWords 0x9000 oneRecord) unread 0x9000 multibootMagic = some (0, st') ∧
      ∀ turns o, kmemoryReserve turns (ofWords 0x9000 oneRecord) st' 0xC0010000 (fun _ => 0) =
          some o → PastBalloc o → o.balloc.totalBlocks.toNat = (640 + 130048) * 1024 / 4096 := by
  refine ⟨_, oneRecord_packed.init, ?_⟩
  exact (kmemoryReserve_totalBlocks_iff rfl (@PackedMap.init _ _ _ _ 0 oneRecord_packed)
    oneRecord_reports).mpr (Or.inl (by decide))

/-- 640 KB below 1 MB and 4 GB above it. -/
def fourGb : List U32 := [0x41, 640, 0x400000, 0, 0, 0, 0, 0, 0, 0, 0, 24, 0x9034,
  20, 0, 0, 0x9fc00, 0, 1]

theorem fourGb_packed : PackedMap (ofWords 0x9000 fourGb) 0x9000 1 := by
  constructor
  · decide +kernel
  · decide +kernel
  · decide +kernel
  · decide +kernel
  · intro i hi
    obtain rfl : i = 0 := by omega
    decide +kernel

/-- Only 160 blocks are counted. -/
theorem kmemoryReserve_totalBlocks_wraps : ∃ st',
    multibootDataInit 0 (ofWords 0x9000 fourGb) unread 0x9000 multibootMagic = some (0, st') ∧
      Reports (ofWords 0x9000 fourGb) 0x9000 multibootMagic 640 0x400000 ∧
      ¬ ∀ turns o, kmemoryReserve turns (ofWords 0x9000 fourGb) st' 0xC0010000 (fun _ => 0) =
          some o → PastBalloc o → o.balloc.totalBlocks.toNat = (640 + 0x400000) * 1024 / 4096 := by
  have reports : Reports (ofWords 0x9000 fourGb) 0x9000 multibootMagic 640 0x400000 :=
    .multiboot rfl (by decide +kernel) (by decide +kernel)
  have init := @PackedMap.init _ unread _ _ 0 fourGb_packed
  obtain ⟨memsz, _⟩ := multibootDataInit_memsz init reports
  refine ⟨_, init, reports, fun exactly => ?_⟩
  have accepted : blockCount ((640 + 0x400000) * 1024) ≠ 0 := by decide
  rw [← memsz] at accepted
  obtain ⟨o, ho, hb⟩ := @kmemoryReserve_reserved _ (ofWords 0x9000 fourGb) _
    0xC0010000 (fun _ => 0) rfl accepted (Nat.le_refl _)
  have claimed := exactly _ o ho (kmemoryReserve_past accepted ho)
  rw [hb, reserved_bounds.2, memsz] at claimed
  revert claimed
  decide

end MemorySize
