import MissyMicro.BootInformation

/-!
# Reading the memory map entry by entry

Successive calls of `multiboot_get_mmap_next` deliver the records whose addresses the cursor
gives. The address of a Multiboot 1 entry begins behind the first record, and that of a
Multiboot 2 entry assumes records of 24 bytes, whatever the tag says.
-/

namespace MapEntries

open LittleEndian Multiboot BootInformation

/-- The bytes that the next call reads through the pointer to the map. -/
def mapReads (mem : Bytes) (st : MultibootState) : List Nat :=
  if st.bootMagic = multibootMagic then
    match (multibootNextMmap mem st).1 with
    | some entry => List.range' st.mbMemoryMap.toNat 4 ++ List.range' (entry.toNat + 4) 20
    | none => []
  else if st.bootMagic = multiboot2Magic then
    List.range' (st.mb2MemoryMap.toNat + 4) 8 ++
      match mboot2NextMmap mem st with
      | some (some entry, _) => List.range' entry.toNat 20
      | _ => []
  else []

/-- The bytes of `mmap_length`, which lie in the information block. -/
def lengthReads (st : MultibootState) : List Nat := List.range' (st.mbInf.toNat + 44) 4

/-- Successive calls deliver the records in the list and then the null pointer, at which the
cursor stays. All that they read through the map satisfies `inside`. -/
def Yields (mem : Bytes) (inside : Nat → Prop) : List MmapData → MultibootState → Prop
  | [], st => multibootGetMmapNext mem st = some (none, st) ∧ ∀ b ∈ mapReads mem st, inside b
  | entry :: entries, st => ∃ st', multibootGetMmapNext mem st = some (some entry, st') ∧
      (∀ b ∈ mapReads mem st, inside b) ∧ Yields mem inside entries st'

section Calls

variable {mem mem' : Bytes} {st : MultibootState} {inside : Nat → Prop} {n : Nat}

theorem load64_congr {a : Nat} (h : ∀ b, a ≤ b → b < a + 8 → mem b = mem' b) :
    load64 mem a = load64 mem' a := by
  rw [load64, load64, load32_congr fun b hlo hhi => h b (by omega) (by omega),
    load32_congr fun b hlo hhi => h b (by omega) (by omega)]

theorem memoryMapInf_congr {entry : U32}
    (same : ∀ b ∈ List.range' (entry.toNat + 4) 20, mem b = mem' b) :
    memoryMapInf mem' entry = memoryMapInf mem entry := by
  simp only [List.mem_range'_1] at same
  rw [memoryMapInf, memoryMapInf, MmapData.mk.injEq]
  refine ⟨?_, ?_, ?_⟩
  · exact load64_congr fun b lo hi => (same b (by omega)).symm
  · exact load64_congr fun b lo hi => (same b (by omega)).symm
  · exact load32_congr fun b lo hi => (same b (by omega)).symm

theorem multiboot2EntryMmap_congr {entry : U32}
    (same : ∀ b ∈ List.range' entry.toNat 20, mem b = mem' b) :
    multiboot2EntryMmap mem' entry = multiboot2EntryMmap mem entry := by
  simp only [List.mem_range'_1] at same
  rw [multiboot2EntryMmap, multiboot2EntryMmap, MmapData.mk.injEq]
  refine ⟨?_, ?_, ?_⟩
  · exact load64_congr fun b lo hi => (same b (by omega)).symm
  · exact load64_congr fun b lo hi => (same b (by omega)).symm
  · exact load32_congr fun b lo hi => (same b (by omega)).symm

/-- A call looks at nothing but the length field and the bytes recorded. -/
theorem multibootGetMmapNext_congr
    (same : ∀ b ∈ lengthReads st ++ mapReads mem st, mem b = mem' b) :
    multibootGetMmapNext mem' st = multibootGetMmapNext mem st := by
  obtain ⟨hlength, hmap⟩ := List.forall_mem_append.mp same
  rw [mapReads] at hmap
  by_cases h1 : st.bootMagic = multibootMagic
  · have length : load32 mem' (st.mbInf.toNat + 44) = load32 mem (st.mbInf.toNat + 44) :=
      load32_congr fun b lo hi => (hlength b (List.mem_range'_1.mpr (by omega))).symm
    simp only [if_pos h1, multibootNextMmap] at hmap
    simp only [multibootGetMmapNext, if_pos h1, multibootNextMmap, length]
    by_cases inRange : st.multibootCurMmap < load32 mem (st.mbInf.toNat + 44) / sizeofMemoryMapInf
    · simp only [if_pos inRange] at hmap ⊢
      obtain ⟨hsz, hentry⟩ := List.forall_mem_append.mp hmap
      have sz : load32 mem' st.mbMemoryMap.toNat = load32 mem st.mbMemoryMap.toNat :=
        load32_congr fun b lo hi => (hsz b (List.mem_range'_1.mpr (by omega))).symm
      rw [sz, Option.map_some, Option.map_some, memoryMapInf_congr hentry]
    · simp only [if_neg inRange, Option.map_none]
  · by_cases h2 : st.bootMagic = multiboot2Magic
    · simp only [if_neg h1, if_pos h2] at hmap
      obtain ⟨htag, hentry⟩ := List.forall_mem_append.mp hmap
      have tagSize : load32 mem' (st.mb2MemoryMap.toNat + 4) =
          load32 mem (st.mb2MemoryMap.toNat + 4) :=
        load32_congr fun b lo hi => (htag b (List.mem_range'_1.mpr (by omega))).symm
      have entrySz : load32 mem' (st.mb2MemoryMap.toNat + 8) =
          load32 mem (st.mb2MemoryMap.toNat + 8) :=
        load32_congr fun b lo hi => (htag b (List.mem_range'_1.mpr (by omega))).symm
      have next : mboot2NextMmap mem' st = mboot2NextMmap mem st := by
        simp only [mboot2NextMmap, tagSize, entrySz]
      simp only [multibootGetMmapNext, if_neg h1, if_pos h2, next]
      generalize mboot2NextMmap mem st = called at hentry ⊢
      obtain _ | ⟨_ | entry, st'⟩ := called
      · rw [Option.map_none, Option.map_none]
      · simp only [Option.map_some, Option.map_none]
      · simp only [Option.map_some, multiboot2EntryMmap_congr hentry]
    · simp only [multibootGetMmapNext, if_neg h1, if_neg h2]

/-- The calls from cursor `i` on deliver the records under the cursor in turn. -/
theorem yields_at_iff (count : mapCount mem st = some n) {i : Nat} (hi : i ≤ n)
    {entries : List MmapData} :
    Yields mem inside entries (st.at i) ↔
      entries = (List.range' i (n - i)).map (mapEntryAt mem st) ∧
        ∀ j, i ≤ j → j ≤ n → ∀ b ∈ mapReads mem (st.at j), inside b := by
  have call := multibootGetMmapNext_at count hi
  induction entries generalizing i with
  | nil =>
    rw [Yields, call]
    by_cases more : i < n
    · rw [if_pos more]
      obtain ⟨k, hk⟩ : ∃ k, n - i = k + 1 := ⟨n - i - 1, by omega⟩
      rw [hk, List.range'_succ, List.map_cons]
      constructor
      · rintro ⟨h, _⟩
        cases h
      · rintro ⟨h, _⟩
        cases h
    · obtain rfl : i = n := by omega
      rw [if_neg more, Nat.sub_self, List.range'_zero, List.map_nil]
      constructor
      · rintro ⟨_, reads⟩
        refine ⟨rfl, fun j hij hji => ?_⟩
        obtain rfl : i = j := by omega
        exact reads
      · rintro ⟨_, reads⟩
        exact ⟨rfl, reads i (Nat.le_refl i) (Nat.le_refl i)⟩
  | cons entry entries ih =>
    rw [Yields, call]
    by_cases more : i < n
    · rw [if_pos more]
      have rest := ih (i := i + 1) (by omega) (multibootGetMmapNext_at count (by omega))
      have hlen : n - i = (n - (i + 1)) + 1 := by omega
      rw [hlen, List.range'_succ, List.map_cons, List.cons.injEq]
      constructor
      · rintro ⟨st', h, reads, yields⟩
        obtain ⟨hentry, rfl⟩ := Prod.mk.inj (Option.some.inj h)
        obtain ⟨hentries, later⟩ := rest.mp yields
        refine ⟨⟨(Option.some.inj hentry).symm, hentries⟩, fun j hij hjn => ?_⟩
        rcases Nat.lt_or_ge i j with hlt | hge
        · exact later j hlt hjn
        · obtain rfl : i = j := by omega
          exact reads
      · rintro ⟨⟨rfl, hentries⟩, reads⟩
        refine ⟨_, rfl, reads i (Nat.le_refl i) hi, rest.mpr ⟨hentries, fun j hij hjn => ?_⟩⟩
        exact reads j (by omega) hjn
    · obtain rfl : i = n := by omega
      rw [if_neg more, Nat.sub_self, List.range'_zero, List.map_nil]
      constructor
      · rintro ⟨st', h, _⟩
        cases h
      · rintro ⟨h, _⟩
        cases h

theorem toNat_cursor (count : mapCount mem st = some n) {j : Nat} (hj : j ≤ n) :
    (BitVec.ofNat 32 j).toNat = j := by
  have hn := mapCount_lt count
  rw [BitVec.toNat_ofNat]
  omega

theorem mapReads_multiboot (magic : st.bootMagic = multibootMagic)
    (count : mapCount mem st = some n) {j : Nat} (hj : j ≤ n) :
    mapReads mem (st.at j) = if j < n then
        List.range' st.mbMemoryMap.toNat 4 ++
          List.range' ((st.mbMemoryMap + load32 mem st.mbMemoryMap.toNat + 4 +
            BitVec.ofNat 32 j * sizeofMemoryMapInf).toNat + 4) 20
      else [] := by
  have cursor := toNat_cursor count hj
  have hsize : sizeofMemoryMapInf.toNat = 24 := rfl
  rw [mapCount, if_pos magic, Option.some.injEq] at count
  simp only [mapReads, multibootNextMmap, MultibootState.at, magic, if_true, BitVec.lt_def,
    BitVec.toNat_udiv, cursor, hsize, count]
  by_cases more : j < n
  · simp only [if_pos more]
  · simp only [if_neg more]

theorem mapReads_multiboot2 (magic : st.bootMagic = multiboot2Magic)
    (count : mapCount mem st = some n) {j : Nat} (hj : j ≤ n) :
    mapReads mem (st.at j) = List.range' (st.mb2MemoryMap.toNat + 4) 8 ++
      if j < n then
        List.range' (st.mb2MemoryMap + sizeofMultiboot2TagMmap +
          sizeofMultiboot2EntryMmap * BitVec.ofNat 32 j).toNat 20
      else [] := by
  have cursor := toNat_cursor count hj
  rw [mapCount, magic, if_neg magics_ne, if_pos rfl] at count
  by_cases zero : load32 mem (st.mb2MemoryMap.toNat + 8) = 0
  · rw [if_pos zero] at count
    cases count
  · rw [if_neg zero, Option.some.injEq] at count
    simp only [mapReads, mboot2NextMmap, MultibootState.at, magic, magics_ne, if_false, if_true,
      if_neg zero, BitVec.lt_def, BitVec.toNat_udiv, cursor, count]
    by_cases more : j < n
    · simp only [if_pos more]
    · simp only [if_neg more]

end Calls

section Multiboot1

variable {mem : Bytes} {st st' : MultibootState} {mbPtr : U32} {n fuel : Nat}

def mmapAddr (mem : Bytes) (mbPtr : U32) : U32 := load32 mem (mbPtr.toNat + 48)

/-- An information block with both flags, and a map of `n` packed records of 24 bytes. -/
structure PackedMap (mem : Bytes) (mbPtr : U32) (n : Nat) : Prop where
  memsz : load32 mem mbPtr.toNat &&& memszPresent ≠ 0
  mmap : load32 mem mbPtr.toNat &&& mmapPresent ≠ 0
  length : (load32 mem (mbPtr.toNat + 44)).toNat = 24 * n
  bound : (mmapAddr mem mbPtr).toNat + 24 * n ≤ 2 ^ 32
  sizes : ∀ i, i < n → load32 mem ((mmapAddr mem mbPtr).toNat + 24 * i) = 20

theorem PackedMap.init (packed : PackedMap mem mbPtr n) :
    multibootDataInit fuel mem st mbPtr multibootMagic = some (0, { st with
      bootMagic := multibootMagic
      mbInf := mbPtr
      mbMemorySz := load32 mem (mbPtr.toNat + 4) + load32 mem (mbPtr.toNat + 8)
      mbMemoryMap := mmapAddr mem mbPtr }) := by
  simp only [multibootDataInit, if_true, if_neg packed.memsz, if_neg packed.mmap, mmapAddr]

/-- The `i`-th record of the map as it lies in memory. -/
def packedRecord (mem : Bytes) (mbPtr : U32) (i : Nat) : MmapData :=
  memoryMapInf mem (mmapAddr mem mbPtr + BitVec.ofNat 32 (24 * i))

def InsideMap (mem : Bytes) (mbPtr : U32) (n b : Nat) : Prop :=
  (mmapAddr mem mbPtr).toNat ≤ b ∧ b < (mmapAddr mem mbPtr).toNat + 24 * n

/-- The records are delivered in order, without a read outside the map, if and only if there
are none: the calls start at the second record, and the last of them reads past the end. -/
theorem multibootGetMmapNext_packed_iff (fresh : st.multibootCurMmap = 0)
    (packed : PackedMap mem mbPtr n)
    (init : multibootDataInit fuel mem st mbPtr multibootMagic = some (0, st')) :
    Yields mem (InsideMap mem mbPtr n) ((List.range n).map (packedRecord mem mbPtr)) st' ↔
      n = 0 := by
  rw [packed.init, Option.some.injEq, Prod.mk.injEq] at init
  obtain ⟨_, rfl⟩ := init
  generalize hst : MultibootState.mk _ _ _ _ _ _ = ready
  have magic : ready.bootMagic = multibootMagic := by rw [← hst]
  have map : ready.mbMemoryMap = mmapAddr mem mbPtr := by rw [← hst]
  have unread : ready.multibootCurMmap = 0 := by
    rw [← hst]
    exact fresh
  have start := MultibootState.at_zero unread
  have wf : WellFormedMap mem ready n := by
    refine .multiboot magic ?_ (map ▸ packed.bound) (map ▸ packed.sizes)
    rw [← hst]
    exact packed.length
  rw [← start, yields_at_iff wf.count (Nat.zero_le n)]
  constructor
  · rintro ⟨_, reads⟩
    by_contra nonempty
    have sz := packed.sizes 0 (by omega)
    rw [Nat.mul_zero, Nat.add_zero] at sz
    have hread := reads (n - 1) (Nat.zero_le _) (by omega)
    rw [mapReads_multiboot magic wf.count (by omega), if_pos (by omega), map, sz] at hread
    have bound := packed.bound
    have entry : (mmapAddr mem mbPtr + 20 + 4 + BitVec.ofNat 32 (n - 1) * sizeofMemoryMapInf).toNat
        = ((mmapAddr mem mbPtr).toNat + 24 * n) % 2 ^ 32 := by
      have hsize : sizeofMemoryMapInf.toNat = 24 := rfl
      rw [BitVec.toNat_add, BitVec.toNat_add, BitVec.toNat_add, BitVec.toNat_mul,
        toNat_cursor wf.count (by omega), hsize]
      have h20 : (20 : U32).toNat = 20 := rfl
      have h4 : (4 : U32).toNat = 4 := rfl
      omega
    have past := hread _ (List.mem_append_right _ (List.mem_range'_1.mpr ⟨Nat.le_refl _, by omega⟩))
    rw [entry, InsideMap] at past
    omega
  · rintro rfl
    refine ⟨rfl, fun j _ hj => ?_⟩
    rw [mapReads_multiboot magic wf.count hj, if_neg (by omega)]
    exact List.forall_mem_nil _

end Multiboot1

/-- The static variables before `multiboot_data_init`. -/
def unread : MultibootState := ⟨0, 0, 0, 0, 0, 0⟩

/-- An information block with 640 KB at 0 in a map of one record, right behind it. -/
def oneRecord : List U32 := [0x41, 640, 130048, 0, 0, 0, 0, 0, 0, 0, 0, 24, 0x9034,
  20, 0, 0, 0x9fc00, 0, 1]

theorem oneRecord_packed : PackedMap (ofWords 0x9000 oneRecord) 0x9000 1 := by
  constructor
  · decide +kernel
  · decide +kernel
  · decide +kernel
  · decide +kernel
  · intro i hi
    obtain rfl : i = 0 := by omega
    decide +kernel

theorem multibootGetMmapNext_packed_one : ∃ st',
    multibootDataInit 0 (ofWords 0x9000 oneRecord) unread 0x9000 multibootMagic = some (0, st') ∧
      ¬ Yields (ofWords 0x9000 oneRecord) (InsideMap (ofWords 0x9000 oneRecord) 0x9000 1)
        ((List.range 1).map (packedRecord (ofWords 0x9000 oneRecord) 0x9000)) st' := by
  refine ⟨_, oneRecord_packed.init, fun yields => ?_⟩
  have empty := (multibootGetMmapNext_packed_iff rfl oneRecord_packed
    (@PackedMap.init _ _ _ _ 0 oneRecord_packed)).mp yields
  exact absurd empty (by decide)

/-- The only record is of type 1, and the first call delivers a record of type 0. -/
theorem multibootGetMmapNext_skips : ∃ st',
    PackedMap (ofWords 0x9000 oneRecord) 0x9000 1 ∧
      multibootDataInit 0 (ofWords 0x9000 oneRecord) unread 0x9000 multibootMagic = some (0, st') ∧
      ¬ Yields (ofWords 0x9000 oneRecord) (InsideMap (ofWords 0x9000 oneRecord) 0x9000 1)
        ((List.range 1).map (packedRecord (ofWords 0x9000 oneRecord) 0x9000)) st' := by
  refine ⟨_, oneRecord_packed, oneRecord_packed.init, ?_⟩
  generalize hst : MultibootState.mk _ _ _ _ _ _ = ready
  rintro ⟨st', call, _⟩
  have first : (multibootGetMmapNext (ofWords 0x9000 oneRecord) ready).map
      (fun result => result.1.map MmapData.type) = some (some 0) := by
    subst hst
    decide +kernel
  rw [call] at first
  have type : (packedRecord (ofWords 0x9000 oneRecord) 0x9000 0).type = 0 :=
    Option.some.inj (Option.some.inj first)
  exact absurd type (by decide +kernel)

section Multiboot2

variable {mem : Bytes} {st : MultibootState} {tag : U32} {n : Nat}

def entrySz (mem : Bytes) (tag : U32) : U32 := load32 mem (tag.toNat + 8)

/-- The first three fields of the `i`-th entry, whose size the tag gives. -/
def tagRecord (mem : Bytes) (tag : U32) (i : Nat) : MmapData :=
  multiboot2EntryMmap mem (tag + BitVec.ofNat 32 (16 + i * (entrySz mem tag).toNat))

/-- The record at the place where the `i`-th of the entries of 24 bytes would be. -/
def strideRecord (mem : Bytes) (tag : U32) (i : Nat) : MmapData :=
  multiboot2EntryMmap mem (tag + BitVec.ofNat 32 (16 + 24 * i))

def InsideTag (mem : Bytes) (tag : U32) (b : Nat) : Prop :=
  tag.toNat ≤ b ∧ b < tag.toNat + (tagSize mem tag).toNat

theorem mboot2NextMmap_eq_none :
    mboot2NextMmap mem st = none ↔ entrySz mem st.mb2MemoryMap = 0 := by
  rw [mboot2NextMmap, entrySz]
  by_cases zero : load32 mem (st.mb2MemoryMap.toNat + 8) = 0
  · rw [if_pos zero]
    exact iff_of_true rfl zero
  · rw [if_neg zero]
    refine iff_of_false (fun h => ?_) zero
    dsimp only at h
    split at h <;> cases h

theorem mapCount_tag (magic : st.bootMagic = multiboot2Magic)
    (size : (tagSize mem st.mb2MemoryMap).toNat = 16 + n * (entrySz mem st.mb2MemoryMap).toNat)
    (divides : entrySz mem st.mb2MemoryMap ≠ 0) : mapCount mem st = some n := by
  have positive : 0 < (entrySz mem st.mb2MemoryMap).toNat := by
    rw [Nat.pos_iff_ne_zero, ne_eq, ← BitVec.toNat_inj] at *
    exact divides
  have header : sizeofMultiboot2TagMmap.toNat = 16 := rfl
  have body : (tagSize mem st.mb2MemoryMap - sizeofMultiboot2TagMmap).toNat =
      n * (entrySz mem st.mb2MemoryMap).toNat := by
    have hlt := (tagSize mem st.mb2MemoryMap).isLt
    rw [BitVec.toNat_sub, header]
    omega
  rw [tagSize] at body
  rw [entrySz] at divides body positive
  rw [mapCount, magic, if_neg magics_ne, if_pos rfl, if_neg divides, body,
    Nat.mul_div_cancel n positive]

theorem mapEntryAt_tag (magic : st.bootMagic = multiboot2Magic) (i : Nat) :
    mapEntryAt mem st i = strideRecord mem st.mb2MemoryMap i := by
  rw [mapEntryAt, magic, if_neg magics_ne, strideRecord, BitVec.ofNat_add, BitVec.ofNat_mul,
    ← BitVec.add_assoc]
  rfl

/-- The reads of the calls lie in the tag, since its entries are not shorter than 24 bytes. -/
theorem mapReads_tag (magic : st.bootMagic = multiboot2Magic) (count : mapCount mem st = some n)
    (bound : st.mb2MemoryMap.toNat + (tagSize mem st.mb2MemoryMap).toNat ≤ 2 ^ 32)
    (size : (tagSize mem st.mb2MemoryMap).toNat = 16 + n * (entrySz mem st.mb2MemoryMap).toNat)
    (long : 24 ≤ (entrySz mem st.mb2MemoryMap).toNat) {j : Nat} (hj : j ≤ n) :
    ∀ b ∈ mapReads mem (st.at j), InsideTag mem st.mb2MemoryMap b := by
  have entries := Nat.mul_le_mul_left n long
  rw [mapReads_multiboot2 magic count hj]
  refine List.forall_mem_append.mpr ⟨fun b hb => ?_, fun b hb => ?_⟩
  · rw [List.mem_range'_1] at hb
    rw [InsideTag]
    omega
  · split at hb
    · rename_i more
      have header : sizeofMultiboot2TagMmap.toNat = 16 := rfl
      have stride : sizeofMultiboot2EntryMmap.toNat = 24 := rfl
      have entry : (st.mb2MemoryMap + sizeofMultiboot2TagMmap +
          sizeofMultiboot2EntryMmap * BitVec.ofNat 32 j).toNat =
            st.mb2MemoryMap.toNat + 16 + 24 * j := by
        rw [BitVec.toNat_add, BitVec.toNat_add, BitVec.toNat_mul, toNat_cursor count hj, header,
          stride]
        omega
      rw [entry, List.mem_range'_1] at hb
      rw [InsideTag]
      omega
    · exact absurd hb List.not_mem_nil

/-- The count never divides by zero, and the entries of a tag are delivered as they are, if
and only if the entry size is not zero and, where it is above 24, the records at a stride of
24 bytes are the entries all the same. -/
theorem multibootGetMmapNext_tag_iff (magic : st.bootMagic = multiboot2Magic)
    (fresh : st.multibootCurMmap = 0) (map : st.mb2MemoryMap = tag)
    (bound : tag.toNat + (tagSize mem tag).toNat ≤ 2 ^ 32) :
    ((∀ cursor, mboot2NextMmap mem { st with multibootCurMmap := cursor } ≠ none) ∧
        (24 ≤ (entrySz mem tag).toNat →
          ∀ n, (tagSize mem tag).toNat = 16 + n * (entrySz mem tag).toNat →
            Yields mem (InsideTag mem tag) ((List.range n).map (tagRecord mem tag)) st)) ↔
      entrySz mem tag ≠ 0 ∧
        (24 < (entrySz mem tag).toNat →
          ∀ n, (tagSize mem tag).toNat = 16 + n * (entrySz mem tag).toNat →
            ∀ i, 0 < i → i < n → strideRecord mem tag i = tagRecord mem tag i) := by
  subst map
  have divides : (∀ cursor, mboot2NextMmap mem { st with multibootCurMmap := cursor } ≠ none) ↔
      entrySz mem st.mb2MemoryMap ≠ 0 := by
    simp only [ne_eq, mboot2NextMmap_eq_none, forall_const]
  have start := MultibootState.at_zero fresh
  have yields {n : Nat} (long : 24 ≤ (entrySz mem st.mb2MemoryMap).toNat)
      (size : (tagSize mem st.mb2MemoryMap).toNat =
        16 + n * (entrySz mem st.mb2MemoryMap).toNat) :
      Yields mem (InsideTag mem st.mb2MemoryMap)
          ((List.range n).map (tagRecord mem st.mb2MemoryMap)) st ↔
        ∀ i, i < n → tagRecord mem st.mb2MemoryMap i = strideRecord mem st.mb2MemoryMap i := by
    have nonzero : entrySz mem st.mb2MemoryMap ≠ 0 := by
      intro zero
      rw [zero] at long
      exact absurd long (by decide)
    have count := mapCount_tag magic size nonzero
    have delivered : mapEntryAt mem st = strideRecord mem st.mb2MemoryMap :=
      funext (mapEntryAt_tag magic)
    rw [← start, yields_at_iff count (Nat.zero_le n), start, Nat.sub_zero,
      ← List.range_eq_range', delivered, List.map_inj_left]
    simp only [List.mem_range]
    constructor
    · rintro ⟨same, _⟩
      exact same
    · intro same
      exact ⟨same, fun j _ hj => mapReads_tag magic count bound size long hj⟩
  rw [divides]
  constructor
  · rintro ⟨nonzero, entries⟩
    refine ⟨nonzero, fun long n size i _ hi => ?_⟩
    exact ((yields (by omega) size).mp (entries (by omega) n size) i hi).symm
  · rintro ⟨nonzero, entries⟩
    refine ⟨nonzero, fun long n size => (yields long size).mpr fun i hi => ?_⟩
    rcases Nat.eq_or_lt_of_le long with exact24 | longer
    · rw [tagRecord, strideRecord, ← exact24, Nat.mul_comm i 24]
    · rcases Nat.eq_zero_or_pos i with rfl | later
      · rw [tagRecord, strideRecord, Nat.zero_mul, Nat.mul_zero]
      · exact (entries longer n size i later hi).symm

end Multiboot2

/-- The reader of a map tag at `0x9000` that has delivered nothing. -/
def atMapTag : MultibootState := ⟨multiboot2Magic, 0, 0, 0, 0, 0x9000⟩

/-- A map tag of two entries of 24 bytes. -/
def tag24 : List U32 := [6, 64, 24, 0, 0, 0, 0x9fc00, 0, 1, 0, 0x100000, 0, 0x7f00000, 0, 1, 0]

theorem multibootGetMmapNext_tag24 :
    Yields (ofWords 0x9000 tag24) (InsideTag (ofWords 0x9000 tag24) 0x9000)
      [tagRecord (ofWords 0x9000 tag24) 0x9000 0, tagRecord (ofWords 0x9000 tag24) 0x9000 1]
      atMapTag := by
  have size : (entrySz (ofWords 0x9000 tag24) 0x9000).toNat = 24 := by decide +kernel
  have bound : (0x9000 : U32).toNat + (tagSize (ofWords 0x9000 tag24) 0x9000).toNat ≤ 2 ^ 32 := by
    decide +kernel
  have nonzero : entrySz (ofWords 0x9000 tag24) 0x9000 ≠ 0 := by decide +kernel
  have magic : atMapTag.bootMagic = multiboot2Magic := rfl
  have fresh : atMapTag.multibootCurMmap = 0 := rfl
  have map : atMapTag.mb2MemoryMap = 0x9000 := rfl
  obtain ⟨_, yields⟩ := (multibootGetMmapNext_tag_iff magic fresh map bound).mpr
    ⟨nonzero, fun long => absurd (size ▸ long) (lt_irrefl 24)⟩
  exact yields size.ge 2 (by decide +kernel)

/-- Two entries of 32 bytes. -/
def tag32 : List U32 := [6, 80, 32, 0, 0, 0, 0x9fc00, 0, 1, 0, 0, 0,
  0x100000, 0, 0x7f00000, 0, 1, 0, 0, 0]

/-- The second entry is at 1 MB, and the second call delivers a record at 0. -/
theorem multibootGetMmapNext_strides :
    ¬ ((∀ cursor, mboot2NextMmap (ofWords 0x9000 tag32)
        { atMapTag with multibootCurMmap := cursor } ≠ none) ∧
      (24 ≤ (entrySz (ofWords 0x9000 tag32) 0x9000).toNat →
        ∀ n, (tagSize (ofWords 0x9000 tag32) 0x9000).toNat =
            16 + n * (entrySz (ofWords 0x9000 tag32) 0x9000).toNat →
          Yields (ofWords 0x9000 tag32) (InsideTag (ofWords 0x9000 tag32) 0x9000)
            ((List.range n).map (tagRecord (ofWords 0x9000 tag32) 0x9000)) atMapTag)) := by
  rintro ⟨_, yields⟩
  have two := yields (by decide +kernel) 2 (by decide +kernel)
  have count : mapCount (ofWords 0x9000 tag32) atMapTag = some 2 := by decide +kernel
  rw [← @MultibootState.at_zero atMapTag rfl, yields_at_iff count (by decide)] at two
  have bases := congrArg (List.map MmapData.base) two.1
  revert bases
  decide +kernel

end MapEntries
