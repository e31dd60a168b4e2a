import MissyMicro.LittleEndian
import MissyMicro.Words

/-!
# The boot loader's memory map

The map entries lie in memory as packed records, and `multiboot_cur_mmap` counts
the entries already delivered. The information block is only read. A missing
result is the null pointer; a divide error in the entry count is a processor
exception and has no result at all.
-/

namespace Multiboot

open LittleEndian

def multibootMagic : U32 := 0x2badb002
def multiboot2Magic : U32 := 0x36d76289

def sizeofMemoryMapInf : U32 := 24
def sizeofMultiboot2TagMmap : U32 := 16
def sizeofMultiboot2EntryMmap : U32 := 24

/-- The static variables of the reader. Pointers are addresses. -/
structure MultibootState where
  bootMagic : U32
  mbMemorySz : U32
  mbInf : U32
  mbMemoryMap : U32
  multibootCurMmap : U32
  mb2MemoryMap : U32

structure MmapData where
  base : BitVec 64
  length : BitVec 64
  type : U32
  deriving DecidableEq

/-- The fields of a `memory_map_inf`, which begins with its `sz`. -/
def memoryMapInf (mem : Bytes) (entry : U32) : MmapData where
  base := load64 mem (entry.toNat + 4)
  length := load64 mem (entry.toNat + 12)
  type := load32 mem (entry.toNat + 20)

def multiboot2EntryMmap (mem : Bytes) (entry : U32) : MmapData where
  base := load64 mem entry.toNat
  length := load64 mem (entry.toNat + 8)
  type := load32 mem (entry.toNat + 16)

def multibootGetMemsz (st : MultibootState) : U32 := st.mbMemorySz

def multibootNextMmap (mem : Bytes) (st : MultibootState) : Option U32 × MultibootState :=
  let mmapLength := load32 mem (st.mbInf.toNat + 44)
  let mmapEntries := mmapLength / sizeofMemoryMapInf
  if st.multibootCurMmap < mmapEntries then
    let sz := load32 mem st.mbMemoryMap.toNat
    let entry := st.mbMemoryMap + sz + 4 + st.multibootCurMmap * sizeofMemoryMapInf
    (some entry, { st with multibootCurMmap := st.multibootCurMmap + 1 })
  else (none, st)

def mboot2NextMmap (mem : Bytes) (st : MultibootState) : Option (Option U32 × MultibootState) :=
  let tagSize := load32 mem (st.mb2MemoryMap.toNat + 4)
  let entrySz := load32 mem (st.mb2MemoryMap.toNat + 8)
  if entrySz = 0 then none
  else
    let mmapEntries := (tagSize - sizeofMultiboot2TagMmap) / entrySz
    if st.multibootCurMmap < mmapEntries then
      let entry := st.mb2MemoryMap + sizeofMultiboot2TagMmap +
        sizeofMultiboot2EntryMmap * st.multibootCurMmap
      some (some entry, { st with multibootCurMmap := st.multibootCurMmap + 1 })
    else some (none, st)

def multibootGetMmapNext (mem : Bytes) (st : MultibootState) :
    Option (Option MmapData × MultibootState) :=
  if st.bootMagic = multibootMagic then
    let (entry, st) := multibootNextMmap mem st
    some (entry.map (memoryMapInf mem), st)
  else if st.bootMagic = multiboot2Magic then
    (mboot2NextMmap mem st).map fun (entry, st) => (entry.map (multiboot2EntryMmap mem), st)
  else some (none, st)

/-- The entry count, which does not depend on the cursor. -/
def mapCount (mem : Bytes) (st : MultibootState) : Option Nat :=
  if st.bootMagic = multibootMagic then
    some ((load32 mem (st.mbInf.toNat + 44)).toNat / 24)
  else if st.bootMagic = multiboot2Magic then
    if load32 mem (st.mb2MemoryMap.toNat + 8) = 0 then none
    else some ((load32 mem (st.mb2MemoryMap.toNat + 4) - sizeofMultiboot2TagMmap).toNat /
      (load32 mem (st.mb2MemoryMap.toNat + 8)).toNat)
  else some 0

/-- The record delivered when the cursor is `i`. -/
def mapEntryAt (mem : Bytes) (st : MultibootState) (i : Nat) : MmapData :=
  if st.bootMagic = multibootMagic then
    memoryMapInf mem (st.mbMemoryMap + load32 mem st.mbMemoryMap.toNat + 4 +
      BitVec.ofNat 32 i * sizeofMemoryMapInf)
  else
    multiboot2EntryMmap mem (st.mb2MemoryMap + sizeofMultiboot2TagMmap +
      sizeofMultiboot2EntryMmap * BitVec.ofNat 32 i)

def MultibootState.at (st : MultibootState) (i : Nat) : MultibootState :=
  { st with multibootCurMmap := BitVec.ofNat 32 i }

theorem MultibootState.at_zero {st : MultibootState} (fresh : st.multibootCurMmap = 0) :
    st.at 0 = st := by
  cases st
  cases fresh
  rfl

theorem mapCount_lt {mem : Bytes} {st : MultibootState} {n : Nat}
    (h : mapCount mem st = some n) : n < 2 ^ 32 := by
  rw [mapCount] at h
  split at h
  · have := (load32 mem (st.mbInf.toNat + 44)).isLt
    cases h
    omega
  · split at h
    · split at h
      · cases h
      · cases h
        exact Nat.lt_of_le_of_lt (Nat.div_le_self _ _) (BitVec.isLt _)
    · cases h
      decide

/-- One call delivers the entry under the cursor and advances it, or ends. -/
theorem multibootGetMmapNext_at {mem : Bytes} {st : MultibootState} {n : Nat}
    (count : mapCount mem st = some n) {i : Nat} (hi : i ≤ n) :
    multibootGetMmapNext mem (st.at i) =
      if i < n then some (some (mapEntryAt mem st i), st.at (i + 1)) else some (none, st.at i) := by
  have hn := mapCount_lt count
  have hcur : (BitVec.ofNat 32 i).toNat = i := by
    rw [BitVec.toNat_ofNat]
    omega
  have hnext : BitVec.ofNat 32 i + 1 = BitVec.ofNat 32 (i + 1) := by
    rw [BitVec.ofNat_add]
    rfl
  have hsize : sizeofMemoryMapInf.toNat = 24 := rfl
  rw [mapCount] at count
  by_cases h1 : st.bootMagic = multibootMagic
  · rw [if_pos h1, Option.some.injEq] at count
    simp only [multibootGetMmapNext, multibootNextMmap, MultibootState.at, h1, if_true,
      BitVec.lt_def, BitVec.toNat_udiv, hcur, hsize, count, hnext, mapEntryAt]
    split <;> rfl
  · by_cases h2 : st.bootMagic = multiboot2Magic
    · rw [if_neg h1, if_pos h2] at count
      by_cases h0 : load32 mem (st.mb2MemoryMap.toNat + 8) = 0
      · rw [if_pos h0] at count
        cases count
      · rw [if_neg h0, Option.some.injEq] at count
        have hne : ¬ multiboot2Magic = multibootMagic := by decide
        simp only [multibootGetMmapNext, mboot2NextMmap, MultibootState.at, hne, h2, h0,
          if_false, if_true, BitVec.lt_def, BitVec.toNat_udiv, hcur, count, hnext, mapEntryAt]
        by_cases hi' : i < n
        · simp only [if_pos hi']
          rfl
        · simp only [if_neg hi']
          rfl
    · rw [if_neg h1, if_neg h2, Option.some.injEq] at count
      have hlt : ¬ i < n := by omega
      simp only [multibootGetMmapNext, MultibootState.at, h1, h2, if_false, if_neg hlt]

theorem multibootGetMmapNext_fault {mem : Bytes} {st : MultibootState}
    (count : mapCount mem st = none) : multibootGetMmapNext mem st = none := by
  rw [mapCount] at count
  split at count
  · cases count
  · rename_i h1
    split at count
    · rename_i h2
      split at count
      · rename_i h0
        simp only [multibootGetMmapNext, mboot2NextMmap, if_neg h1, if_pos h2, if_pos h0,
          Option.map_none]
      · cases count
    · cases count

/-- Every entry that the calls from cursor `i` on deliver. -/
def delivered (mem : Bytes) (st : MultibootState) (i : Nat) : List MmapData :=
  match mapCount mem st with
  | none => []
  | some n => (List.range' i (n - i)).map (mapEntryAt mem st)

theorem delivered_of_count {mem : Bytes} {st : MultibootState} {n : Nat}
    (count : mapCount mem st = some n) :
    delivered mem st 0 = (List.range n).map (mapEntryAt mem st) := by
  simp only [delivered, count, Nat.sub_zero, List.range_eq_range']

/-- The `i`-th record of the map as it lies in memory. -/
def recordAt (mem : Bytes) (st : MultibootState) (i : Nat) : MmapData :=
  if st.bootMagic = multibootMagic then
    memoryMapInf mem (st.mbMemoryMap + BitVec.ofNat 32 (24 * i))
  else multiboot2EntryMmap mem (st.mb2MemoryMap + BitVec.ofNat 32 (16 + 24 * i))

/-- A map of `n` entries as the boot loader writes it: packed entries whose `sz` is
20, or a map tag whose entries are 24 bytes long. -/
inductive WellFormedMap (mem : Bytes) (st : MultibootState) (n : Nat) : Prop
  | multiboot (magic : st.bootMagic = multibootMagic)
      (length : (load32 mem (st.mbInf.toNat + 44)).toNat = 24 * n)
      (bound : st.mbMemoryMap.toNat + 24 * n ≤ 2 ^ 32)
      (sizes : ∀ i, i < n → load32 mem (st.mbMemoryMap.toNat + 24 * i) = 20)
  | multiboot2 (magic : st.bootMagic = multiboot2Magic)
      (tagSize : (load32 mem (st.mb2MemoryMap.toNat + 4)).toNat = 16 + 24 * n)
      (entrySz : load32 mem (st.mb2MemoryMap.toNat + 8) = 24)
      (bound : st.mb2MemoryMap.toNat + 16 + 24 * n ≤ 2 ^ 32)

/-- The record that the first call delivers: Multiboot 1 starts past the first one. -/
def firstRead (st : MultibootState) : Nat := if st.bootMagic = multibootMagic then 1 else 0

theorem magics_ne : ¬ multiboot2Magic = multibootMagic := by decide

theorem WellFormedMap.count {mem : Bytes} {st : MultibootState} {n : Nat}
    (wf : WellFormedMap mem st n) : mapCount mem st = some n := by
  cases wf with
  | multiboot magic length =>
    rw [mapCount, if_pos magic, length]
    congr 1
    omega
  | multiboot2 magic tagSize entrySz =>
    have hsub : (load32 mem (st.mb2MemoryMap.toNat + 4) - sizeofMultiboot2TagMmap).toNat =
        24 * n := by
      have hsz : sizeofMultiboot2TagMmap.toNat = 16 := rfl
      rw [BitVec.toNat_sub, tagSize, hsz]
      omega
    have h24 : BitVec.toNat (24 : U32) = 24 := rfl
    rw [mapCount, magic, if_neg magics_ne, if_pos rfl, entrySz, if_neg (by decide), hsub, h24]
    congr 1
    omega

/-- A Multiboot 2 map is delivered as it is. A Multiboot 1 map is delivered without
its first entry, and ends with whatever follows it in memory. -/
theorem WellFormedMap.delivered_eq {mem : Bytes} {st : MultibootState} {n : Nat}
    (wf : WellFormedMap mem st n) :
    delivered mem st 0 = (List.range n).map fun i => recordAt mem st (firstRead st + i) := by
  rw [delivered_of_count wf.count]
  apply List.map_congr_left
  intro i hi
  rw [List.mem_range] at hi
  cases wf with
  | multiboot magic _ _ sizes =>
    have hsz := sizes 0 (by omega)
    have hentry : BitVec.ofNat 32 i * 24 = BitVec.ofNat 32 (24 * i) := by
      rw [Nat.mul_comm, BitVec.ofNat_mul]
      rfl
    have hskip : BitVec.ofNat 32 (24 * 1) = 20 + 4 := rfl
    rw [Nat.mul_zero, Nat.add_zero] at hsz
    simp only [mapEntryAt, recordAt, firstRead, if_pos magic, hsz, sizeofMemoryMapInf]
    rw [Nat.mul_add, BitVec.ofNat_add, hskip, hentry]
    simp only [BitVec.add_assoc]
  | multiboot2 magic =>
    simp only [mapEntryAt, recordAt, firstRead, magic, if_neg magics_ne, Nat.zero_add,
      sizeofMultiboot2TagMmap, sizeofMultiboot2EntryMmap]
    rw [BitVec.ofNat_add, BitVec.ofNat_mul, ← BitVec.add_assoc]
    rfl

end Multiboot
