import MissyMicro.BootLayout
import MissyMicro.Multiboot

/-!
# The map loop of `kmemory_initialize`

The loop reserves every entry the reader delivers whose type is not 1, with base
and length cut to 32 bits. The information block and the bitmap do not overlap.
-/

namespace BootMap

open LittleEndian Multiboot BlockAllocator BlockRuns TransitionRuns BootLayout
open BlockAllocator.Balloc

/-- Where `kmemory_initialize` stands before `vmmngr_initialize`. -/
inductive Outcome where
  | panic (err : String) (balloc : Balloc)
  | divideError (balloc : Balloc)
  | mapped (balloc : Balloc) (st : MultibootState)

def Outcome.balloc : Outcome → Balloc
  | .panic _ b => b
  | .divideError b => b
  | .mapped b _ => b

def reserveEntry (b : Balloc) (mapEntry : MmapData) : Balloc :=
  if mapEntry.type ≠ 1 then
    ballocInitRegion b (mapEntry.base.setWidth 32) (mapEntry.length.setWidth 32)
  else b

/-- `none` when the fuel ends before the map. -/
def mapLoop (mem : Bytes) : Nat → Balloc → MmapData → MultibootState → Option Outcome
  | 0, _, _, _ => none
  | fuel + 1, b, mapEntry, st =>
    let b := reserveEntry b mapEntry
    match multibootGetMmapNext mem st with
    | none => some (.divideError b)
    | some (none, st) => some (.mapped b st)
    | some (some mapEntry, st) => mapLoop mem fuel b mapEntry st

/-- The allocator's static data at power-up. -/
def ballocStatic (memory : Nat → U32) : Balloc where
  mBmpAddr := 0
  mBmp := memory
  memSz := 0
  bmpSz := 0
  totalBlocks := 0
  freeBlocks := 0
  touched := []
  bmpSz_le := by decide

/-- `kmemory_initialize` up to the end of the map loop. `memory` is what the words
from `m_bmp` on held. -/
def kmemoryReserve (fuel : Nat) (mem : Bytes) (st : MultibootState) (kernelEnd : U32)
    (memory : Nat → U32) : Option Outcome :=
  let memSz := multibootGetMemsz st * 1024
  if memSz = 0 then some (.panic "Block allocator failed to initialize!" (ballocStatic memory))
  else
    let b := ballocInitialize kernelEnd memSz memory
    if b.totalBlocks = 0 then some (.panic "Block allocator failed to initialize!" b)
    else
      match multibootGetMmapNext mem st with
      | none => some (.divideError b)
      | some (none, _) => some (.panic "No memory map was provided by the bootloader!" b)
      | some (some mapEntry, st) => mapLoop mem fuel b mapEntry st

/-- The regions reserved for a list of entries. -/
def bootRegions (entries : List MmapData) : List (U32 × U32) :=
  (entries.filter (fun e => e.type ≠ 1)).map
    (fun e => (e.base.setWidth 32, e.length.setWidth 32))

theorem reserveEntries (b : Balloc) (entries : List MmapData) :
    entries.foldl reserveEntry b =
      (bootRegions entries).foldl (fun b r => ballocInitRegion b r.1 r.2) b := by
  induction entries generalizing b with
  | nil => rfl
  | cons e entries ih =>
    rw [List.foldl_cons, ih, reserveEntry]
    by_cases h : e.type = 1#32
    · simp [bootRegions, h]
    · simp [bootRegions, h]

/-- From the entry before the cursor on, the loop reserves all the rest. -/
theorem mapLoop_eq {mem : Bytes} {st : MultibootState} {n : Nat} (count : mapCount mem st = some n)
    {fuel i : Nat} (hi : i ≤ n) (enough : n - i < fuel) (b : Balloc) (e : MmapData) :
    mapLoop mem fuel b e (st.at i) =
      some (.mapped ((e :: (List.range' i (n - i)).map (mapEntryAt mem st)).foldl reserveEntry b)
        (st.at n)) := by
  induction fuel generalizing i b e with
  | zero => omega
  | succ fuel ih =>
    rw [mapLoop, multibootGetMmapNext_at count hi]
    by_cases hlt : i < n
    · have hrest : n - i = (n - (i + 1)) + 1 := by omega
      rw [if_pos hlt, hrest, List.range'_succ, List.map_cons]
      exact ih hlt (by omega) _ _
    · have hnil : n - i = 0 := by omega
      have hin : i = n := by omega
      rw [if_neg hlt, hnil, hin]
      rfl

section Reserve

variable {fuel : Nat} {mem : Bytes} {st : MultibootState} {kernelEnd : U32} {memory : Nat → U32}

/-- An accepted memory size leads to the first map entry. -/
theorem kmemoryReserve_accepted (accepted : blockCount (multibootGetMemsz st * 1024) ≠ 0) :
    kmemoryReserve fuel mem st kernelEnd memory =
      match multibootGetMmapNext mem st with
      | none => some (.divideError
          (ballocInitialize kernelEnd (multibootGetMemsz st * 1024) memory))
      | some (none, _) => some (.panic "No memory map was provided by the bootloader!"
          (ballocInitialize kernelEnd (multibootGetMemsz st * 1024) memory))
      | some (some mapEntry, st') => mapLoop mem fuel
          (ballocInitialize kernelEnd (multibootGetMemsz st * 1024) memory) mapEntry st' := by
  have htotal := (ballocInitialize_bounds kernelEnd (multibootGetMemsz st * 1024) memory).2.2
  have hne : multibootGetMemsz st * 1024 ≠ 0 := by
    intro h
    rw [h] at accepted
    exact accepted rfl
  simp only [kmemoryReserve, if_neg hne, htotal, if_neg accepted]

/-- With a map the loop runs to its end. -/
theorem kmemoryReserve_mapped {n : Nat} (boot : st.multibootCurMmap = 0)
    (accepted : blockCount (multibootGetMemsz st * 1024) ≠ 0) (count : mapCount mem st = some n)
    (nonempty : 0 < n) (enough : n ≤ fuel) :
    kmemoryReserve fuel mem st kernelEnd memory =
      some (.mapped (reserved kernelEnd (multibootGetMemsz st * 1024) memory
        (bootRegions (delivered mem st 0))) (st.at n)) := by
  have hrest : n - 0 = (n - (0 + 1)) + 1 := by omega
  have hfirst := multibootGetMmapNext_at count (Nat.zero_le n)
  rw [if_pos nonempty, MultibootState.at_zero boot] at hfirst
  rw [kmemoryReserve_accepted accepted, hfirst]
  simp only [mapLoop_eq count nonempty (show n - (0 + 1) < fuel by omega), reserved,
    ← reserveEntries, delivered, count]
  rw [hrest, List.range'_succ, List.map_cons]

/-- Without one, `balloc_initialize` is all that happened. -/
theorem kmemoryReserve_unmapped (boot : st.multibootCurMmap = 0)
    (accepted : blockCount (multibootGetMemsz st * 1024) ≠ 0)
    (count : mapCount mem st = none ∨ mapCount mem st = some 0) :
    ∃ o, kmemoryReserve fuel mem st kernelEnd memory = some o ∧
      o.balloc = ballocInitialize kernelEnd (multibootGetMemsz st * 1024) memory := by
  rw [kmemoryReserve_accepted accepted]
  rcases count with count | count
  · rw [multibootGetMmapNext_fault count]
    exact ⟨_, rfl, rfl⟩
  · have hfirst := multibootGetMmapNext_at count (Nat.zero_le 0)
    rw [if_neg (lt_irrefl 0), MultibootState.at_zero boot] at hfirst
    rw [hfirst]
    exact ⟨_, rfl, rfl⟩

/-- Every accepted boot ends, and has reserved the initial regions and the entries
delivered. -/
theorem kmemoryReserve_reserved (boot : st.multibootCurMmap = 0)
    (accepted : blockCount (multibootGetMemsz st * 1024) ≠ 0) (enough : 2 ^ 32 ≤ fuel) :
    ∃ o, kmemoryReserve fuel mem st kernelEnd memory = some o ∧
      o.balloc = reserved kernelEnd (multibootGetMemsz st * 1024) memory
        (bootRegions (delivered mem st 0)) := by
  cases count : mapCount mem st with
  | none =>
    obtain ⟨o, ho, hb⟩ := kmemoryReserve_unmapped boot accepted (Or.inl count)
    refine ⟨o, ho, ?_⟩
    rw [hb, delivered, count]
    rfl
  | some n =>
    rcases Nat.eq_zero_or_pos n with rfl | nonempty
    · obtain ⟨o, ho, hb⟩ := kmemoryReserve_unmapped boot accepted (Or.inr count)
      refine ⟨o, ho, ?_⟩
      rw [hb, delivered, count]
      rfl
    · have hn := mapCount_lt count
      exact ⟨_, kmemoryReserve_mapped boot accepted count nonempty (by omega), rfl⟩

end Reserve

/-- The blocks reserved for one record: both bounds are cut to 32 bits, and the
block holding the last byte is not counted in. -/
def firstBlock (e : MmapData) : Nat := e.base.toNat % 2 ^ 32 / 4096
def lastBlock (e : MmapData) : Nat := firstBlock e + e.length.toNat % 2 ^ 32 / 4096

/-- Block `c` holds a byte of the entry's 64-bit range. -/
def InEntry (e : MmapData) (c : Nat) : Prop :=
  Meets c e.base.toNat (e.base.toNat + e.length.toNat)

theorem mem_entryBlocks {e : MmapData} {c : Nat} :
    c ∈ regionBlocks (e.base.setWidth 32) (e.length.setWidth 32) ↔
      firstBlock e ≤ c ∧ c ≤ lastBlock e := by
  rw [mem_regionBlocks, BitVec.toNat_setWidth, BitVec.toNat_setWidth]
  rfl

theorem mem_bootRegions {entries : List MmapData} {c : Nat} :
    c ∈ (bootRegions entries).flatMap (fun r => regionBlocks r.1 r.2) ↔
      ∃ e ∈ entries, e.type ≠ 1 ∧ firstBlock e ≤ c ∧ c ≤ lastBlock e := by
  simp only [bootRegions, List.mem_flatMap, List.mem_map, List.mem_filter, decide_eq_true_eq]
  constructor
  · rintro ⟨_, ⟨e, ⟨he, htype⟩, rfl⟩, hc⟩
    exact ⟨e, he, htype, mem_entryBlocks.mp hc⟩
  · rintro ⟨e, he, htype, hc⟩
    exact ⟨_, ⟨e, ⟨he, htype⟩, rfl⟩, mem_entryBlocks.mpr hc⟩

/-- An existing block starts no earlier than the entry that it meets. -/
theorem InEntry.firstBlock_le {e : MmapData} {c : Nat} (h : InEntry e c) (hc : c < 2 ^ 20) :
    firstBlock e ≤ c := by
  obtain ⟨a, hlo, _, heq⟩ := h
  rw [firstBlock]
  omega

theorem mem_mapBlocks {mem : Bytes} {st : MultibootState} {n : Nat}
    (wf : WellFormedMap mem st n) (kernelEnd memSz : U32) (c : Nat) :
    c ∈ reservedBlocks kernelEnd memSz (bootRegions (delivered mem st 0)) ↔
      c ≤ 256 + (kernelTotalSz kernelEnd memSz).toNat / 4096 ∨
        ∃ j, firstRead st ≤ j ∧ j < firstRead st + n ∧ (recordAt mem st j).type ≠ 1 ∧
          firstBlock (recordAt mem st j) ≤ c ∧ c ≤ lastBlock (recordAt mem st j) := by
  rw [reservedBlocks, List.mem_append, mem_initialBlocks, mem_bootRegions, wf.delivered_eq]
  refine or_congr_right ⟨?_, ?_⟩
  · rintro ⟨e, he, h⟩
    obtain ⟨i, hi, rfl⟩ := List.mem_map.mp he
    exact ⟨firstRead st + i, by omega, by have := List.mem_range.mp hi; omega, h⟩
  · rintro ⟨j, hlo, hhi, h⟩
    refine ⟨recordAt mem st j, List.mem_map.mpr ⟨j - firstRead st, ?_, ?_⟩, h⟩
    · rw [List.mem_range]
      omega
    · rw [Nat.add_sub_cancel' hlo]

theorem reserved_markedUsed {kernelEnd memSz : U32} {memory : Nat → U32}
    {regions : List (U32 × U32)} {c : Nat} (hc : c < (unitCount memSz).toNat * 32) :
    (reserved kernelEnd memSz memory regions).MarkedUsed c ↔
      c ∈ reservedBlocks kernelEnd memSz regions := by
  have hclear := clearedBitmap_unused kernelEnd memSz memory hc
  rw [MarkedUsed, reserved_capacity, reserved_eq, reserveAll_used]
  simp [hc, hclear]

/-- A block that is marked when the runs begin is never handed out. -/
theorem reserved_never_returned {kernelEnd memSz : U32} {memory : Nat → U32}
    {regions : List (U32 × U32)} {c : Nat} (hc : c ∈ reservedBlocks kernelEnd memSz regions)
    {calls : List BlockCall} {s : Clients}
    (run : Run Step ⟨reserved kernelEnd memSz memory regions, ∅⟩ calls s)
    (h0 : (ballocGet s.balloc).1 ≠ 0) : blockOf (ballocGet s.balloc).1 ≠ c := by
  have kept := (run_exclusive run reserved_exclusive).kept c hc
  rcases ballocGet_cases s.balloc with ⟨_, hnull⟩ | ⟨d, b', _, hlt, unused, _, heq, _, _, _⟩
  · rw [hnull] at h0
    exact absurd rfl h0
  · rw [heq, blockOf_block (lt_of_lt_of_le hlt s.balloc.capacity_le)]
    rintro rfl
    exact unused kept

/-- The map is honoured exactly when each existing block that an unavailable entry
covers, but its own reservation leaves out (the entry is skipped, its length is cut,
or only its last bytes reach the block), is reserved for another reason. -/
theorem map_honoured_iff (mem : Bytes) (st : MultibootState) (kernelEnd : U32)
    (memory : Nat → U32) {n : Nat} (boot : st.multibootCurMmap = 0)
    (accepted : blockCount (multibootGetMemsz st * 1024) ≠ 0) (wf : WellFormedMap mem st n)
    (nonempty : 0 < n) {fuel : Nat} (enough : n ≤ fuel) :
    ∃ b, kmemoryReserve fuel mem st kernelEnd memory = some (.mapped b (st.at n)) ∧
      ((∀ i, i < n → (recordAt mem st i).type ≠ 1 → ∀ c, c < b.totalBlocks.toNat →
          InEntry (recordAt mem st i) c → b.MarkedUsed c ∧
          ∀ calls s, Run Step ⟨b, ∅⟩ calls s → (ballocGet s.balloc).1 ≠ 0 →
            blockOf (ballocGet s.balloc).1 ≠ c) ↔
        ∀ i, i < n → (recordAt mem st i).type ≠ 1 →
          ∀ c, c < (multibootGetMemsz st * 1024).toNat / 4096 → InEntry (recordAt mem st i) c →
          i < firstRead st ∨ lastBlock (recordAt mem st i) < c →
          c ≤ 256 + (kernelTotalSz kernelEnd (multibootGetMemsz st * 1024)).toNat / 4096 ∨
          ∃ j, firstRead st ≤ j ∧ j < firstRead st + n ∧ (recordAt mem st j).type ≠ 1 ∧
            firstBlock (recordAt mem st j) ≤ c ∧ c ≤ lastBlock (recordAt mem st j)) := by
  refine ⟨_, kmemoryReserve_mapped boot accepted wf.count nonempty enough, ?_⟩
  have covered := mem_mapBlocks wf kernelEnd (multibootGetMemsz st * 1024)
  have units := unitCount_toNat (multibootGetMemsz st * 1024)
  have hmem := (multibootGetMemsz st * 1024).isLt
  simp only [reserved_bounds.2, blockCount_toNat]
  constructor
  · intro honoured i hi htype c hc meets _
    apply (covered c).mp
    exact (reserved_markedUsed (by omega)).mp (honoured i hi htype c hc meets).1
  · intro left_out i hi htype c hc meets
    have hmem : c ∈ reservedBlocks kernelEnd (multibootGetMemsz st * 1024)
        (bootRegions (delivered mem st 0)) := by
      by_cases hout : i < firstRead st ∨ lastBlock (recordAt mem st i) < c
      · exact (covered c).mpr (left_out i hi htype c hc meets hout)
      · obtain ⟨hread, hlast⟩ := not_or.mp hout
        exact (covered c).mpr (Or.inr ⟨i, by omega, by omega, htype,
          meets.firstBlock_le (by omega), by omega⟩)
    exact ⟨(reserved_markedUsed (by omega)).mpr hmem,
      fun calls s run h0 => reserved_never_returned hmem run h0⟩

/-- The map tag of one entry at address 0x9000, as the boot loader writes it. -/
def mapTag (base length type : U32) : Bytes :=
  ofWords 0x9000 [6, 40, 24, 0, base, 0, length, 0, type, 0]

/-- A machine with 32 MB, booted with that tag. -/
def tagBoot : MultibootState where
  bootMagic := multiboot2Magic
  mbMemorySz := 0x8000
  mbInf := 0
  mbMemoryMap := 0
  multibootCurMmap := 0
  mb2MemoryMap := 0x9000

theorem mapTag_wellFormed (base length type : U32) :
    WellFormedMap (mapTag base length type) tagBoot 1 :=
  .multiboot2 rfl (congrArg BitVec.toNat (load32_ofWords 0x9000 _ 1))
    (load32_ofWords 0x9000 _ 2) (by decide)

theorem mapTag_record (base length type : U32) : recordAt (mapTag base length type) tagBoot 0 =
    ⟨(0 : U32) ++ base, (0 : U32) ++ length, type⟩ := by
  have hbase := load32_ofWords 0x9000 [6, 40, 24, 0, base, 0, length, 0, type, 0] 4
  have hbase0 := load32_ofWords 0x9000 [6, 40, 24, 0, base, 0, length, 0, type, 0] 5
  have hlength := load32_ofWords 0x9000 [6, 40, 24, 0, base, 0, length, 0, type, 0] 6
  have hlength0 := load32_ofWords 0x9000 [6, 40, 24, 0, base, 0, length, 0, type, 0] 7
  have htype := load32_ofWords 0x9000 [6, 40, 24, 0, base, 0, length, 0, type, 0] 8
  have haddr : (0x9000 + BitVec.ofNat 32 (16 + 24 * 0) : U32).toNat = 0x9010 := rfl
  simp only [recordAt, tagBoot, if_neg magics_ne, multiboot2EntryMmap, haddr, load64, mapTag]
  exact congr (congr (congrArg MmapData.mk (congr (congrArg _ hbase0) hbase))
    (congr (congrArg _ hlength0) hlength)) htype

theorem tagBoot_accepted : blockCount (multibootGetMemsz tagBoot * 1024) ≠ 0 := by decide

/-- A reserved range that ends in the middle of block 0x301 leaves it unmarked. -/
theorem unaligned_end_unmarked :
    WellFormedMap (mapTag 0x300800 0x900 2) tagBoot 1 ∧ tagBoot.multibootCurMmap = 0 ∧
    ∃ b, kmemoryReserve 1 (mapTag 0x300800 0x900 2) tagBoot 0xC0010000 (fun _ => 0) =
        some (.mapped b (tagBoot.at 1)) ∧
      ∃ i, i < 1 ∧ (recordAt (mapTag 0x300800 0x900 2) tagBoot i).type ≠ 1 ∧
        ∃ c, c < b.totalBlocks.toNat ∧ InEntry (recordAt (mapTag 0x300800 0x900 2) tagBoot i) c ∧
          ¬ b.MarkedUsed c := by
  have wf := mapTag_wellFormed 0x300800 0x900 2
  have total : (blockCount (multibootGetMemsz tagBoot * 1024)).toNat = 8192 := by decide
  have units : (unitCount (multibootGetMemsz tagBoot * 1024)).toNat = 257 := by decide
  have size : (kernelTotalSz 0xC0010000 (multibootGetMemsz tagBoot * 1024)).toNat = 0x12020 := by
    decide
  refine ⟨wf, rfl, _, kmemoryReserve_mapped rfl tagBoot_accepted wf.count one_pos le_rfl,
    0, one_pos, ?_, 0x301, ?_, ?_, ?_⟩
  · rw [mapTag_record]
    decide
  · rw [reserved_bounds.2, total]
    decide
  · rw [mapTag_record]
    exact ⟨0x301000, by decide, by decide, by decide⟩
  · rw [reserved_markedUsed (by rw [units]; decide), mem_mapBlocks wf, size]
    rintro (h | ⟨j, _, hj, _, _, hlast⟩)
    · exact absurd h (by decide)
    · have h0 : j = 0 := by
        change j < 0 + 1 at hj
        omega
      rw [h0, mapTag_record] at hlast
      exact absurd hlast (by decide)

/-- The ROM area below 1 MB is honoured. -/
theorem rom_area_honoured :
    ∃ b, kmemoryReserve 1 (mapTag 0xF0000 0x10000 2) tagBoot 0xC0010000 (fun _ => 0) =
        some (.mapped b (tagBoot.at 1)) ∧ b.MarkedUsed 0xF0 := by
  have wf := mapTag_wellFormed 0xF0000 0x10000 2
  obtain ⟨b, hb, honoured⟩ := map_honoured_iff (mapTag 0xF0000 0x10000 2) tagBoot 0xC0010000
    (fun _ => 0) rfl tagBoot_accepted wf one_pos (le_refl 1)
  refine ⟨b, hb, ?_⟩
  have total : b.totalBlocks.toNat = 8192 := by
    rw [kmemoryReserve_mapped rfl tagBoot_accepted wf.count one_pos le_rfl] at hb
    have hbal := (Outcome.mapped.inj (Option.some.inj hb)).1
    rw [← hbal, reserved_bounds.2]
    decide
  have low : ∀ i, i < 1 → ∀ c, InEntry (recordAt (mapTag 0xF0000 0x10000 2) tagBoot i) c →
      c ≤ 0xFF := by
    intro i hi c meets
    rw [Nat.lt_one_iff.mp hi, mapTag_record] at meets
    obtain ⟨a, _, ha, heq⟩ := meets
    have hend : ((0 : U32) ++ (0xF0000 : U32)).toNat + ((0 : U32) ++ (0x10000 : U32)).toNat =
      0x100000 := by decide
    rw [hend] at ha
    omega
  refine (honoured.mpr ?_ 0 one_pos ?_ 0xF0 (by omega) ?_).1
  · intro i hi _ c _ meets _
    have := low i hi c meets
    exact Or.inl (by omega)
  · rw [mapTag_record]
    decide
  · rw [mapTag_record]
    exact ⟨0xF0000, by decide, by decide, by decide⟩

section Accesses

variable (kernelEnd memSz : U32) (memory : Nat → U32) (regions : List (U32 × U32))

/-- The allocator after `k` turns of the region loops, counted over all calls. -/
def turns (k : Nat) : Balloc :=
  ((reservedBlocks kernelEnd memSz regions).take k).foldl reserveBlock
    (clearedBitmap kernelEnd memSz memory)

theorem turns_all : turns kernelEnd memSz memory regions
    (reservedBlocks kernelEnd memSz regions).length =
      reserved kernelEnd memSz memory regions := by
  rw [turns, List.take_length, reserved_eq]

theorem turns_bounds (k : Nat) :
    (turns kernelEnd memSz memory regions k).bmpSz = unitCount memSz ∧
      (turns kernelEnd memSz memory regions k).totalBlocks = blockCount memSz := by
  have hb := reserveAll_bounds (clearedBitmap kernelEnd memSz memory)
    ((reservedBlocks kernelEnd memSz regions).take k)
  obtain ⟨_, hsz, htotal, _⟩ := clearedBitmap_bounds kernelEnd memSz memory
  exact ⟨hb.bmpSz.trans hsz, hb.totalBlocks.trans htotal⟩

theorem turns_touched (k word : Nat) :
    word ∈ (turns kernelEnd memSz memory regions k).touched ↔
      (∃ c ∈ (reservedBlocks kernelEnd memSz regions).take k, word = c / 32) ∨
        word < (unitCount memSz).toNat := by
  rw [turns, reserveAll_touched, clearedBitmap, clearWords_touched]
  simp

variable {kernelEnd memSz memory regions}

/-- While the ranges stay in the bitmap, the marked blocks are those of the ranges. -/
theorem turns_marked
    (inside : ∀ c ∈ reservedBlocks kernelEnd memSz regions, c < (unitCount memSz).toNat * 32)
    (k : Nat) :
    (turns kernelEnd memSz memory regions k).marked =
      ((reservedBlocks kernelEnd memSz regions).take k).toFinset := by
  have hcap : (turns kernelEnd memSz memory regions k).capacity = (unitCount memSz).toNat * 32 := by
    rw [capacity, (turns_bounds kernelEnd memSz memory regions k).1]
  ext c
  rw [mem_marked, MarkedUsed, hcap, List.mem_toFinset, turns, reserveAll_used]
  constructor
  · rintro ⟨hc, hmem | used⟩
    · exact hmem
    · exact absurd used (clearedBitmap_unused kernelEnd memSz memory hc)
  · exact fun hmem => ⟨inside c (List.mem_of_mem_take hmem), Or.inl hmem⟩

theorem turns_counts
    (inside : ∀ c ∈ reservedBlocks kernelEnd memSz regions, c < (unitCount memSz).toNat * 32)
    (k : Nat) : CountsUsed (turns kernelEnd memSz memory regions k) := by
  apply reserveAll_counts _ (clearedBitmap_counts kernelEnd memSz memory)
  intro c hc
  rw [capacity, (clearedBitmap_bounds kernelEnd memSz memory).2.1]
  exact inside c (List.mem_of_mem_take hc)

/-- More distinct blocks than exist make the counter wrap. -/
theorem turns_free_le_iff
    (inside : ∀ c ∈ reservedBlocks kernelEnd memSz regions, c < (unitCount memSz).toNat * 32)
    (k : Nat) :
    (turns kernelEnd memSz memory regions k).freeBlocks.toNat ≤
        (turns kernelEnd memSz memory regions k).totalBlocks.toNat ↔
      ((reservedBlocks kernelEnd memSz regions).take k).toFinset.card ≤
        (blockCount memSz).toNat := by
  have hcounts := @turns_counts _ _ memory _ inside k
  have hmarked := @turns_marked _ _ memory _ inside k
  have htotal := (turns_bounds kernelEnd memSz memory regions k).2
  have hlt := (blockCount memSz).isLt
  have hunits := unitCount_le memSz
  have hcard : ((reservedBlocks kernelEnd memSz regions).take k).toFinset.card ≤ 2 ^ 20 := by
    have hsub : ((reservedBlocks kernelEnd memSz regions).take k).toFinset ⊆
        Finset.range ((unitCount memSz).toNat * 32) := by
      intro c hc
      exact Finset.mem_range.mpr (inside c (List.mem_of_mem_take (List.mem_toFinset.mp hc)))
    have := Finset.card_le_card hsub
    rw [Finset.card_range] at this
    omega
  rw [show (turns kernelEnd memSz memory regions k).freeBlocks = _ from hcounts, hmarked, htotal,
    BitVec.toNat_sub, BitVec.toNat_ofNat]
  omega

end Accesses

/-- During boot every access stays in the bitmap and the free count stays below the
total exactly when all reserved ranges end inside the bitmap and together hold no
more blocks than exist. -/
theorem boot_accesses_inside_iff (mem : Bytes) (st : MultibootState) (kernelEnd : U32)
    (memory : Nat → U32) (boot : st.multibootCurMmap = 0)
    (accepted : blockCount (multibootGetMemsz st * 1024) ≠ 0) {fuel : Nat}
    (enough : 2 ^ 32 ≤ fuel) :
    let memSz := multibootGetMemsz st * 1024
    let regions := bootRegions (delivered mem st 0)
    ∃ o, kmemoryReserve fuel mem st kernelEnd memory = some o ∧
      o.balloc = turns kernelEnd memSz memory regions
        (reservedBlocks kernelEnd memSz regions).length ∧
      ((∀ k, (∀ word ∈ (turns kernelEnd memSz memory regions k).touched,
            word < (turns kernelEnd memSz memory regions k).bmpSz.toNat) ∧
          (turns kernelEnd memSz memory regions k).freeBlocks.toNat ≤
            (turns kernelEnd memSz memory regions k).totalBlocks.toNat) ↔
        (∀ c ∈ reservedBlocks kernelEnd memSz regions, c < (memSz.toNat / 4096 / 32 + 1) * 32) ∧
          (reservedBlocks kernelEnd memSz regions).toFinset.card ≤ memSz.toNat / 4096) := by
  intro memSz regions
  obtain ⟨o, ho, hb⟩ := kmemoryReserve_reserved boot accepted enough
  refine ⟨o, ho, hb.trans (turns_all kernelEnd memSz memory regions).symm, ?_⟩
  rw [← unitCount_toNat, ← blockCount_toNat]
  constructor
  · intro safe
    have inside : ∀ c ∈ reservedBlocks kernelEnd memSz regions,
        c < (unitCount memSz).toNat * 32 := by
      intro c hc
      have hword := (safe (reservedBlocks kernelEnd memSz regions).length).1 (c / 32)
      rw [turns_touched, List.take_length, (turns_bounds kernelEnd memSz memory regions _).1]
        at hword
      have := hword (Or.inl ⟨c, hc, rfl⟩)
      omega
    have hcard := (turns_free_le_iff inside _).mp
      (safe (reservedBlocks kernelEnd memSz regions).length).2
    rw [List.take_length] at hcard
    exact ⟨inside, hcard⟩
  · rintro ⟨inside, hcard⟩ k
    constructor
    · intro word hword
      rw [(turns_bounds kernelEnd memSz memory regions k).1]
      rcases (turns_touched kernelEnd memSz memory regions k word).mp hword with ⟨c, hc, rfl⟩ | hlt
      · have := inside c (List.mem_of_mem_take hc)
        omega
      · exact hlt
    · apply (turns_free_le_iff inside k).mpr
      refine le_trans (Finset.card_le_card ?_) hcard
      intro c hc
      exact List.mem_toFinset.mpr (List.mem_of_mem_take (List.mem_toFinset.mp hc))

/-- A firmware range near 4 GB is out of the bitmap of a 32 MB machine. -/
theorem high_range_outside :
    blockCount (multibootGetMemsz tagBoot * 1024) ≠ 0 ∧ tagBoot.multibootCurMmap = 0 ∧
    ∃ o, kmemoryReserve 1 (mapTag 0xFFFC0000 0x40000 2) tagBoot 0xC0010000 (fun _ => 0) = some o ∧
      ∃ word ∈ o.balloc.touched, ¬ word < o.balloc.bmpSz.toNat := by
  have wf := mapTag_wellFormed 0xFFFC0000 0x40000 2
  refine ⟨tagBoot_accepted, rfl, _,
    kmemoryReserve_mapped rfl tagBoot_accepted wf.count one_pos le_rfl, 0xFFFC0 / 32, ?_, ?_⟩
  · rw [Outcome.balloc, reserved_touched]
    refine Or.inl ⟨0xFFFC0, ?_, rfl⟩
    rw [mem_mapBlocks wf]
    refine Or.inr ⟨0, le_rfl, one_pos, ?_⟩
    rw [mapTag_record]
    decide
  · rw [Outcome.balloc, reserved_bounds.1]
    decide

/-- Ranges of existing blocks are always harmless. -/
theorem below_total {kernelEnd memSz : U32} {regions : List (U32 × U32)}
    (below : ∀ c ∈ reservedBlocks kernelEnd memSz regions, c < memSz.toNat / 4096) :
    (∀ c ∈ reservedBlocks kernelEnd memSz regions, c < (memSz.toNat / 4096 / 32 + 1) * 32) ∧
      (reservedBlocks kernelEnd memSz regions).toFinset.card ≤ memSz.toNat / 4096 := by
  constructor
  · intro c hc
    have := below c hc
    omega
  · have hsub : (reservedBlocks kernelEnd memSz regions).toFinset ⊆
        Finset.range (memSz.toNat / 4096) :=
      fun c hc => Finset.mem_range.mpr (below c (List.mem_toFinset.mp hc))
    simpa using Finset.card_le_card hsub

theorem rom_area_inside :
    ∃ o, kmemoryReserve (2 ^ 32) (mapTag 0xF0000 0x10000 2) tagBoot 0xC0010000 (fun _ => 0) =
        some o ∧ ∀ word ∈ o.balloc.touched, word < o.balloc.bmpSz.toNat := by
  obtain ⟨o, ho, hb, safe⟩ := boot_accesses_inside_iff (mapTag 0xF0000 0x10000 2) tagBoot
    0xC0010000 (fun _ => 0) rfl tagBoot_accepted (le_refl _)
  refine ⟨o, ho, ?_⟩
  rw [hb]
  refine (safe.mpr (below_total ?_) _).1
  intro c hc
  rw [mem_mapBlocks (mapTag_wellFormed 0xF0000 0x10000 2)] at hc
  have size : (kernelTotalSz 0xC0010000 (multibootGetMemsz tagBoot * 1024)).toNat = 0x12020 := by
    decide
  have total : (multibootGetMemsz tagBoot * 1024).toNat / 4096 = 8192 := by decide
  rw [total]
  rcases hc with hc | ⟨j, _, hj, _, _, hlast⟩
  · rw [size] at hc
    omega
  · have h0 : j = 0 := by
      change j < 0 + 1 at hj
      omega
    have hblock : lastBlock ⟨(0 : U32) ++ (0xF0000 : U32), (0 : U32) ++ (0x10000 : U32), 2⟩ =
        0x100 := by decide
    rw [h0, mapTag_record, hblock] at hlast
    omega

end BootMap
