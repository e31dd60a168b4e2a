import MissyMicro.BlockAllocator
import MissyMicro.TransitionRuns

/-!
# Whole runs of the block allocator

A run starts with `balloc_initialize`, reserves the regions of the boot map and
then takes and frees blocks in any order. Clients free only blocks they hold.
The set of held blocks is part of the state, so that "not handed out twice" is a
statement about one state.
-/

namespace BlockRuns

open PackedBits BlockAllocator TransitionRuns
open BlockAllocator.Balloc

/-- The allocator and the blocks its clients hold. -/
structure Clients where
  balloc : Balloc
  live : Finset Nat

/-- `get` carries the pointer that `balloc_get` returned. -/
inductive BlockCall where
  | get (result : U32)
  | free (blk : U32)
  | freeN (blk : U32) (n : Nat)

/-- Every one of the `n` blocks from `blk` on is held when its turn comes. -/
def HeldN (live : Finset Nat) (blk : U32) : Nat → Prop
  | 0 => True
  | n + 1 => blockOf blk ∈ live ∧
      HeldN (live.erase (blockOf blk)) (blk + BitVec.ofNat 32 memoryBlockSize) n

def eraseN (live : Finset Nat) (blk : U32) : Nat → Finset Nat
  | 0 => live
  | n + 1 => eraseN (live.erase (blockOf blk)) (blk + BitVec.ofNat 32 memoryBlockSize) n

def liveAfterGet (live : Finset Nat) (result : U32) : Finset Nat :=
  if result = 0 then live else insert (blockOf result) live

inductive Step : Clients → BlockCall → Clients → Prop
  | get (s : Clients) : Step s (.get (ballocGet s.balloc).1)
      ⟨(ballocGet s.balloc).2, liveAfterGet s.live (ballocGet s.balloc).1⟩
  | free {s : Clients} {blk : U32} : blockOf blk ∈ s.live →
      Step s (.free blk) ⟨ballocFree s.balloc blk, s.live.erase (blockOf blk)⟩
  | freeN {s : Clients} {blk : U32} {n : Nat} : HeldN s.live blk n →
      Step s (.freeN blk n) ⟨ballocFreeN s.balloc blk n, eraseN s.live blk n⟩

/-- The state in which the runs start: the initial regions and those of the map. -/
def reserved (kernelEnd memorySz : U32) (memory : Nat → U32) (regions : List (U32 × U32)) :
    Balloc :=
  regions.foldl (fun b r => ballocInitRegion b r.1 r.2)
    (ballocInitialize kernelEnd memorySz memory)

def reservedBlocks (kernelEnd memorySz : U32) (regions : List (U32 × U32)) : List Nat :=
  initialBlocks kernelEnd memorySz ++ regions.flatMap (fun r => regionBlocks r.1 r.2)

theorem reserved_eq (kernelEnd memorySz : U32) (memory : Nat → U32)
    (regions : List (U32 × U32)) :
    reserved kernelEnd memorySz memory regions =
      (reservedBlocks kernelEnd memorySz regions).foldl reserveBlock
        (clearedBitmap kernelEnd memorySz memory) := by
  rw [reservedBlocks, List.foldl_append, ← ballocInitialize_eq, reserved, List.foldl_flatMap]
  rfl

theorem zero_mem_reservedBlocks (kernelEnd memorySz : U32) (regions : List (U32 × U32)) :
    0 ∈ reservedBlocks kernelEnd memorySz regions :=
  List.mem_append_left _ (initialBlocks_zero kernelEnd memorySz)

/-- What a run keeps: held blocks are marked blocks of the bitmap, reserved
blocks stay marked and are never held. -/
structure Exclusive (keep : List Nat) (s : Clients) : Prop where
  zero : 0 ∈ keep
  kept : ∀ c ∈ keep, s.balloc.Used c
  held : ∀ c ∈ s.live, s.balloc.MarkedUsed c
  apart : ∀ c ∈ s.live, c ∉ keep

/-- Every access so far stayed in the bitmap. -/
def Inside (b : Balloc) : Prop := ∀ word ∈ b.touched, word < b.bmpSz.toNat

theorem Exclusive.live_ne_zero {keep : List Nat} {s : Clients} (inv : Exclusive keep s)
    {blk : U32} (h : blockOf blk ∈ s.live) : blk ≠ 0 := by
  rintro rfl
  exact inv.apart _ h inv.zero

theorem word_lt {b : Balloc} {c : Nat} (hc : c < b.capacity) : c / 32 < b.bmpSz.toNat := by
  rw [capacity] at hc
  omega

theorem ballocGet_touched (b : Balloc) (word : Nat) (h : word ∈ (ballocGet b).2.touched) :
    word < b.bmpSz.toNat ∨ word ∈ b.touched := by
  rw [ballocGet] at h
  split at h
  · exact Or.inr h
  · rename_i hfound
    rcases List.mem_cons.mp h with rfl | h
    · exact Or.inl (word_lt (blockAllocFirstFree_free hfound).1)
    · exact Or.inr h

theorem get_exclusive {keep : List Nat} {s : Clients} (inv : Exclusive keep s) :
    Exclusive keep ⟨(ballocGet s.balloc).2, liveAfterGet s.live (ballocGet s.balloc).1⟩ := by
  rcases ballocGet_cases s.balloc with
    ⟨_, hnull⟩ | ⟨c, b', h0, hlt, unused, _, heq, bits, _, bounds⟩
  · rw [hnull]
    exact inv
  · rw [heq]
    have hc : c < 2 ^ 20 := lt_of_lt_of_le hlt s.balloc.capacity_le
    have used : ∀ d, b'.Used d ↔ c = d ∨ s.balloc.Used d := by
      intro d
      rw [Used, bits, testBit_setBit (by decide)]
      simp [Used]
    have hlive : liveAfterGet s.live (BitVec.ofNat 32 (c * memoryBlockSize)) =
        insert c s.live := by
      rw [liveAfterGet, if_neg (block_ne_zero hc h0), blockOf_block hc]
    refine ⟨inv.zero, fun d hd => (used d).mpr (Or.inr (inv.kept d hd)), ?_, ?_⟩
    · intro d hd
      rw [hlive] at hd
      rcases Finset.mem_insert.mp hd with rfl | hd
      · exact ⟨by rwa [bounds.capacity], (used d).mpr (Or.inl rfl)⟩
      · obtain ⟨hdlt, hdused⟩ := inv.held d hd
        exact ⟨by rwa [bounds.capacity], (used d).mpr (Or.inr hdused)⟩
    · intro d hd
      rw [hlive] at hd
      rcases Finset.mem_insert.mp hd with rfl | hd
      · exact fun hkeep => unused (inv.kept d hkeep)
      · exact inv.apart d hd

theorem ballocFree_touched {b : Balloc} {blk : U32} (h0 : blk ≠ 0) :
    (ballocFree b blk).touched = blockOf blk / 32 :: b.touched := by
  rw [ballocFree, if_neg h0]
  rfl

theorem free_exclusive {keep : List Nat} {s : Clients} (inv : Exclusive keep s) {blk : U32}
    (h : blockOf blk ∈ s.live) :
    Exclusive keep ⟨ballocFree s.balloc blk, s.live.erase (blockOf blk)⟩ := by
  have h0 := inv.live_ne_zero h
  have bounds := ballocFree_bounds s.balloc blk
  refine ⟨inv.zero, ?_, ?_, ?_⟩
  · intro c hc
    have hne : c ≠ blockOf blk := fun heq => inv.apart _ h (heq ▸ hc)
    exact (ballocFree_used h0 c).mpr ⟨hne, inv.kept c hc⟩
  · intro c hc
    obtain ⟨hne, hc⟩ := Finset.mem_erase.mp hc
    obtain ⟨hlt, used⟩ := inv.held c hc
    exact ⟨by rwa [bounds.capacity], (ballocFree_used h0 c).mpr ⟨hne, used⟩⟩
  · exact fun c hc => inv.apart c (Finset.mem_erase.mp hc).2

theorem free_inside {keep : List Nat} {s : Clients} (inv : Exclusive keep s)
    (inside : Inside s.balloc) {blk : U32} (h : blockOf blk ∈ s.live) :
    Inside (ballocFree s.balloc blk) := by
  intro word hword
  rw [(ballocFree_bounds s.balloc blk).bmpSz]
  rw [ballocFree_touched (inv.live_ne_zero h)] at hword
  rcases List.mem_cons.mp hword with rfl | hword
  · exact word_lt (inv.held _ h).1
  · exact inside word hword

theorem freeN_exclusive {keep : List Nat} {s : Clients} (inv : Exclusive keep s) {blk : U32}
    {n : Nat} (held : HeldN s.live blk n) :
    Exclusive keep ⟨ballocFreeN s.balloc blk n, eraseN s.live blk n⟩ := by
  induction n generalizing s blk with
  | zero => exact inv
  | succ n ih => exact ih (free_exclusive inv held.1) held.2

theorem freeN_inside {keep : List Nat} {s : Clients} (inv : Exclusive keep s)
    (inside : Inside s.balloc) {blk : U32} {n : Nat} (held : HeldN s.live blk n) :
    Inside (ballocFreeN s.balloc blk n) := by
  induction n generalizing s blk with
  | zero => exact inside
  | succ n ih => exact ih (free_exclusive inv held.1) (free_inside inv inside held.1) held.2

theorem get_inside {b : Balloc} (inside : Inside b) : Inside (ballocGet b).2 := by
  intro word hword
  rw [(ballocGet_bounds b).bmpSz]
  exact (ballocGet_touched b word hword).elim id (inside word)

theorem step_exclusive {keep : List Nat} {s t : Clients} {call : BlockCall}
    (inv : Exclusive keep s) (h : Step s call t) : Exclusive keep t := by
  cases h with
  | get => exact get_exclusive inv
  | free held => exact free_exclusive inv held
  | freeN held => exact freeN_exclusive inv held

theorem step_inside {keep : List Nat} {s t : Clients} {call : BlockCall}
    (inv : Exclusive keep s) (inside : Inside s.balloc) (h : Step s call t) :
    Inside t.balloc := by
  cases h with
  | get => exact get_inside inside
  | free held => exact free_inside inv inside held
  | freeN held => exact freeN_inside inv inside held

theorem run_exclusive {keep : List Nat} {s t : Clients} {calls : List BlockCall}
    (run : Run Step s calls t) (inv : Exclusive keep s) : Exclusive keep t :=
  run.invariant (I := Exclusive keep) (fun _ _ _ => step_exclusive) inv

theorem run_inside {keep : List Nat} {s t : Clients} {calls : List BlockCall}
    (run : Run Step s calls t) (inv : Exclusive keep s) (inside : Inside s.balloc) :
    Inside t.balloc :=
  (run.invariant (I := fun s => Exclusive keep s ∧ Inside s.balloc)
    (fun _ _ _ h hs => ⟨step_exclusive h.1 hs, step_inside h.1 h.2 hs⟩) ⟨inv, inside⟩).2

section Start

variable {kernelEnd memorySz : U32} {memory : Nat → U32} {regions : List (U32 × U32)}

theorem reserved_bounds :
    (reserved kernelEnd memorySz memory regions).bmpSz = unitCount memorySz ∧
    (reserved kernelEnd memorySz memory regions).totalBlocks = blockCount memorySz := by
  have hb := reserveAll_bounds (clearedBitmap kernelEnd memorySz memory)
    (reservedBlocks kernelEnd memorySz regions)
  obtain ⟨_, hsz, htotal, _⟩ := clearedBitmap_bounds kernelEnd memorySz memory
  rw [reserved_eq]
  exact ⟨hb.bmpSz.trans hsz, hb.totalBlocks.trans htotal⟩

theorem reserved_capacity :
    (reserved kernelEnd memorySz memory regions).capacity =
      (unitCount memorySz).toNat * 32 := by
  rw [capacity, reserved_bounds.1]

theorem reserved_used {c : Nat} (hc : c ∈ reservedBlocks kernelEnd memorySz regions) :
    (reserved kernelEnd memorySz memory regions).Used c := by
  rw [reserved_eq, reserveAll_used]
  exact Or.inl hc

theorem reserved_exclusive : Exclusive (reservedBlocks kernelEnd memorySz regions)
    ⟨reserved kernelEnd memorySz memory regions, ∅⟩ :=
  ⟨zero_mem_reservedBlocks _ _ _, fun _ => reserved_used, by simp, by simp⟩

theorem reserved_touched {word : Nat} :
    word ∈ (reserved kernelEnd memorySz memory regions).touched ↔
      (∃ c ∈ reservedBlocks kernelEnd memorySz regions, word = c / 32) ∨
        word < (unitCount memorySz).toNat := by
  rw [reserved_eq, reserveAll_touched, clearedBitmap, clearWords_touched]
  simp

theorem reserved_inside
    (inside : ∀ c ∈ reservedBlocks kernelEnd memorySz regions,
      c < (unitCount memorySz).toNat * 32) :
    Inside (reserved kernelEnd memorySz memory regions) := by
  intro word hword
  rw [reserved_bounds.1]
  rcases reserved_touched.mp hword with ⟨c, hc, rfl⟩ | hword
  · have := inside c hc
    omega
  · exact hword

end Start

/-- In every run the next block handed out is free, not block 0 and outside all
reserved ranges; nothing is handed out only when the bitmap is full. -/
theorem block_exclusivity (kernelEnd memorySz : U32) (memory : Nat → U32)
    (regions : List (U32 × U32))
    (fits : ∀ c ∈ initialBlocks kernelEnd memorySz, c < (unitCount memorySz).toNat * 32)
    (inside : ∀ r ∈ regions, ∀ c ∈ regionBlocks r.1 r.2, c < (unitCount memorySz).toNat * 32)
    {calls : List BlockCall} {s : Clients}
    (run : Run Step ⟨reserved kernelEnd memorySz memory regions, ∅⟩ calls s) :
    ((ballocGet s.balloc).1 ≠ 0 →
      (ballocGet s.balloc).1 =
        BitVec.ofNat 32 (blockOf (ballocGet s.balloc).1 * memoryBlockSize) ∧
      blockOf (ballocGet s.balloc).1 ∉ s.live ∧ blockOf (ballocGet s.balloc).1 ≠ 0 ∧
      blockOf (ballocGet s.balloc).1 ∉ reservedBlocks kernelEnd memorySz regions) ∧
    ((ballocGet s.balloc).1 = 0 →
      (ballocGet s.balloc).2 = s.balloc ∧ ∀ c, c < s.balloc.capacity → s.balloc.Used c) ∧
    ∀ word ∈ (ballocGet s.balloc).2.touched, word < s.balloc.bmpSz.toNat := by
  have all : ∀ c ∈ reservedBlocks kernelEnd memorySz regions,
      c < (unitCount memorySz).toNat * 32 := by
    intro c hc
    rcases List.mem_append.mp hc with hc | hc
    · exact fits c hc
    · obtain ⟨r, hr, hc⟩ := List.mem_flatMap.mp hc
      exact inside r hr c hc
  have inv := run_exclusive run reserved_exclusive
  have inside := get_inside (run_inside run reserved_exclusive (reserved_inside all))
  rw [Inside, (ballocGet_bounds s.balloc).bmpSz] at inside
  rcases ballocGet_cases s.balloc with ⟨hnone, hnull⟩ | ⟨c, b', h0, hlt, unused, _, heq, _, _, _⟩
  · rw [hnull] at inside ⊢
    refine ⟨fun h => absurd rfl h, fun _ => ⟨rfl, fun c hc => ?_⟩, inside⟩
    exact blockAllocFirstFree_full hnone (inv.kept 0 inv.zero) hc
  · rw [heq] at inside ⊢
    have hc : c < 2 ^ 20 := lt_of_lt_of_le hlt s.balloc.capacity_le
    refine ⟨fun _ => ?_, fun h => absurd h (block_ne_zero hc h0), inside⟩
    rw [blockOf_block hc]
    exact ⟨rfl, fun hlive => unused (inv.held c hlive).2, h0,
      fun hkeep => unused (inv.kept c hkeep)⟩

/-- The second block of a 32 MB machine whose ROM area is reserved by the boot map. -/
theorem second_block_exclusive :
    let start : Clients :=
      ⟨reserved 0xC0010000 0x2000000 (fun _ => 0) [(0xF0000, 0x10000)], ∅⟩
    let next : Clients :=
      ⟨(ballocGet start.balloc).2, liveAfterGet start.live (ballocGet start.balloc).1⟩
    (ballocGet next.balloc).1 = 0 ∨ blockOf (ballocGet next.balloc).1 ∉ next.live := by
  intro start next
  have fits : ∀ c ∈ initialBlocks 0xC0010000 0x2000000,
      c < (unitCount 0x2000000).toNat * 32 :=
    initialBlocks_lt _ _ (by decide)
  have inside : ∀ r ∈ [((0xF0000 : U32), (0x10000 : U32))], ∀ c ∈ regionBlocks r.1 r.2,
      c < (unitCount 0x2000000).toNat * 32 := by
    intro r hr c hc
    rw [List.mem_singleton.mp hr, mem_regionBlocks] at hc
    have hlast : BitVec.toNat (0xF0000 : U32) / 4096 + BitVec.toNat (0x10000 : U32) / 4096 = 256 :=
      by decide
    have hunits : (unitCount 0x2000000).toNat = 257 := by decide
    have hle := hc.2.trans_eq hlast
    omega
  have first : Run Step start [.get (ballocGet start.balloc).1] next := .cons (.get start) (.nil _)
  have h := block_exclusivity 0xC0010000 0x2000000 (fun _ => 0) _ fits inside first
  by_cases h0 : (ballocGet next.balloc).1 = 0
  · exact Or.inl h0
  · exact Or.inr (h.1 h0).2.1

end BlockRuns
