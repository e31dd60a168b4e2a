import Mathlib.Order.Nat
import Mathlib.Data.Nat.Count
import MissyMicro.BlockAllocator
import MissyMicro.LinkedRings

/-!
# Allocating contiguous blocks

`balloc_get_n` looks for a run of free blocks and marks it. The bitmap macros paste
their argument without parentheses, and both of its loops pass them a sum: the second
summand alone is divided by 32, so the first one counts words, not bits. The run is
looked for and marked far from where it starts.
-/

namespace ContiguousBlocks

open PackedBits BlockAllocator LinkedRings
open BlockAllocator.Balloc

/-- The word `m_bmp[a+c/32]`. The byte offset of a word wraps at 32 bits. -/
def sumWord (a c : U32) : Nat := (a + c / 32).toNat % 2 ^ 30

/-- The mask `1 << (a+c%32)`. The processor takes the shift count modulo 32. -/
def sumMask (a c : U32) : U32 := 1#32 <<< ((a + c % 32).toNat % 32)

def memoryBitmapTestSum (b : Balloc) (a c : U32) : Bool :=
  b.mBmp (sumWord a c) &&& sumMask a c ≠ 0#32

def memoryBitmapSetSum (b : Balloc) (a c : U32) : Balloc :=
  b.store (sumWord a c) (b.mBmp (sumWord a c) ||| sumMask a c)

/-- The loop over `count`. The last argument and result are the words read, latest first;
with `nunits` the largest size the loop has no end of its own. -/
def countFree (b : Balloc) (nunits startBit : U32) :
    Nat → U32 → U32 → List Nat → Option (Bool × List Nat)
  | 0, _, _, _ => none
  | fuel + 1, count, free, reads =>
    if count ≤ nunits then
      let free := if memoryBitmapTestSum b startBit count = false then free + 1 else free
      let reads := sumWord startBit count :: reads
      if free = nunits then some (true, reads)
      else countFree b nunits startBit fuel (count + 1) free reads
    else some (false, reads)

/-- The loop over the bits of word `i`. -/
def searchBits (b : Balloc) (nunits : U32) (fuel i : Nat) :
    List Nat → List Nat → Option (Option Nat × List Nat)
  | [], reads => some (none, reads)
  | j :: js, reads =>
    if b.mBmp i &&& (1#32 <<< j) = 0#32 then
      let startBit := BitVec.ofNat 32 (i * blocksPerUnit) + 1#32 <<< j
      (countFree b nunits startBit fuel 0 0 reads).bind fun (found, reads) =>
        if found then some (some (i * blocksPerUnit + j), reads)
        else searchBits b nunits fuel i js reads
    else searchBits b nunits fuel i js reads

/-- The loop over the words. -/
def searchUnits (b : Balloc) (nunits : U32) (fuel : Nat) :
    List Nat → List Nat → Option (Option Nat × List Nat)
  | [], reads => some (none, reads)
  | i :: is, reads =>
    if b.mBmp i ≠ blockUnitFull then
      (searchBits b nunits fuel i (List.range blocksPerUnit) reads).bind fun (blk, reads) =>
        if blk.isSome then some (blk, reads) else searchUnits b nunits fuel is reads
    else searchUnits b nunits fuel is reads

def blockAllocFirstFreeN (fuel : Nat) (b : Balloc) (nunits : U32) : Option (Nat × List Nat) :=
  if nunits = 0 then some (0, [])
  else if nunits = 1 then some (blockAllocFirstFree b, [])
  else (searchUnits b nunits fuel (List.range b.bmpSz.toNat) []).map (Prod.map (·.getD 0) id)

def markRun (b : Balloc) (blk n : U32) : Balloc :=
  (List.range n.toNat).foldl (fun b i => memoryBitmapSetSum b blk (BitVec.ofNat 32 i)) b

def ballocGetN (fuel : Nat) (b : Balloc) (n : U32) : Option (U32 × Balloc) :=
  (blockAllocFirstFreeN fuel b n).map fun (blk, reads) =>
    let b := { b with touched := reads ++ b.touched }
    if blk = 0 then (0, b)
    else
      let b := markRun b (BitVec.ofNat 32 blk) n
      (BitVec.ofNat 32 (blk * memoryBlockSize), { b with freeBlocks := b.freeBlocks - n })

/-- The number of the word and bit from which `count` starts at block `c`. -/
def startBit (c : Nat) : U32 := BitVec.ofNat 32 (c / 32 * 32) + 1#32 <<< (c % 32)

/-- The bit looked at in turn `k` from block `c` is clear. -/
def Clear (b : Balloc) (c k : Nat) : Prop :=
  memoryBitmapTestSum b (startBit c) (BitVec.ofNat 32 k) = false

instance (b : Balloc) (c : Nat) : DecidablePred (Clear b c) :=
  fun _ => inferInstanceAs (Decidable (_ = false))

section Count

variable {b : Balloc} {c : Nat} {n : U32}

theorem ofNat_succ (k : Nat) : BitVec.ofNat 32 k + 1 = BitVec.ofNat 32 (k + 1) :=
  (BitVec.ofNat_add k 1).symm

/-- One turn. -/
theorem countFree_turn {k : Nat} (inside : BitVec.ofNat 32 k ≤ n) (fuel : Nat)
    (reads : List Nat) :
    countFree b n (startBit c) (fuel + 1) (BitVec.ofNat 32 k)
        (BitVec.ofNat 32 (Nat.count (Clear b c) k)) reads =
      if BitVec.ofNat 32 (Nat.count (Clear b c) (k + 1)) = n then
        some (true, sumWord (startBit c) (BitVec.ofNat 32 k) :: reads)
      else countFree b n (startBit c) fuel (BitVec.ofNat 32 (k + 1))
        (BitVec.ofNat 32 (Nat.count (Clear b c) (k + 1)))
        (sumWord (startBit c) (BitVec.ofNat 32 k) :: reads) := by
  rw [countFree, if_pos inside]
  by_cases clear : Clear b c k
  · have test : memoryBitmapTestSum b (startBit c) (BitVec.ofNat 32 k) = false := clear
    simp only [if_pos test, Nat.count_succ, if_pos clear, ofNat_succ]
  · have test : ¬ memoryBitmapTestSum b (startBit c) (BitVec.ofNat 32 k) = false := clear
    simp only [if_neg test, Nat.count_succ, if_neg clear, ofNat_succ, Nat.add_zero]

/-- With enough clear bits before the loop ends by itself, it reports the block. -/
theorem countFree_reports {last : Nat} (inside : ∀ k, k < last → BitVec.ofNat 32 k ≤ n)
    (enough : n.toNat ≤ Nat.count (Clear b c) last) {k : Nat} (hk : k ≤ last)
    (fewer : Nat.count (Clear b c) k < n.toNat) (reads : List Nat) :
    ∃ reads', Returns (fun fuel => countFree b n (startBit c) fuel (BitVec.ofNat 32 k)
      (BitVec.ofNat 32 (Nat.count (Clear b c) k)) reads) (true, reads') := by
  have hn := n.isLt
  induction hk using Nat.decreasingInduction generalizing reads with
  | self => exact absurd fewer (not_lt.mpr enough)
  | of_succ k hk ih =>
    have turn := countFree_turn (b := b) (c := c) (inside k hk)
    have hcount := Nat.count_succ (Clear b c) k
    have hstep : Nat.count (Clear b c) (k + 1) ≤ Nat.count (Clear b c) k + 1 := by
      rw [hcount]
      split <;> omega
    by_cases reached : BitVec.ofNat 32 (Nat.count (Clear b c) (k + 1)) = n
    · refine ⟨sumWord (startBit c) (BitVec.ofNat 32 k) :: reads,
        Returns.turn (g := fun _ => some _) (fun fuel => ?_) (.of_eq fun _ => rfl)⟩
      rw [turn, if_pos reached]
    · have fewer' : Nat.count (Clear b c) (k + 1) < n.toNat := by
        refine lt_of_le_of_ne (by omega) fun heq => reached ?_
        rw [heq, BitVec.ofNat_toNat, BitVec.setWidth_eq]
      obtain ⟨reads', returns⟩ := ih fewer' (sumWord (startBit c) (BitVec.ofNat 32 k) :: reads)
      refine ⟨reads', Returns.turn (fun fuel => ?_) returns⟩
      rw [turn, if_neg reached]

/-- With fewer, it ends after `nunits + 1` turns. -/
theorem countFree_passes (small : n.toNat + 1 < 2 ^ 32)
    (few : Nat.count (Clear b c) (n.toNat + 1) < n.toNat) {k : Nat} (hk : k ≤ n.toNat + 1)
    (reads : List Nat) :
    ∃ reads', Returns (fun fuel => countFree b n (startBit c) fuel (BitVec.ofNat 32 k)
      (BitVec.ofNat 32 (Nat.count (Clear b c) k)) reads) (false, reads') := by
  induction hk using Nat.decreasingInduction generalizing reads with
  | self =>
    have outside : ¬ BitVec.ofNat 32 (n.toNat + 1) ≤ n := by
      rw [BitVec.le_def, BitVec.toNat_ofNat]
      omega
    refine ⟨reads, Returns.turn (g := fun _ => some _) (fun fuel => ?_) (.of_eq fun _ => rfl)⟩
    rw [countFree, if_neg outside]
  | of_succ k hk ih =>
    have inside : BitVec.ofNat 32 k ≤ n := by
      rw [BitVec.le_def, BitVec.toNat_ofNat]
      omega
    have hle : Nat.count (Clear b c) (k + 1) ≤ Nat.count (Clear b c) (n.toNat + 1) :=
      Nat.count_monotone _ hk
    have missed : ¬ BitVec.ofNat 32 (Nat.count (Clear b c) (k + 1)) = n := by
      intro heq
      have htoNat := congrArg BitVec.toNat heq
      rw [BitVec.toNat_ofNat] at htoNat
      omega
    obtain ⟨reads', returns⟩ := ih (sumWord (startBit c) (BitVec.ofNat 32 k) :: reads)
    refine ⟨reads', Returns.turn (fun fuel => ?_) returns⟩
    rw [countFree_turn inside, if_neg missed]

/-- The largest size: one clear bit is enough, since the count goes around. -/
theorem clear_often {k : Nat} (clear : Clear b c k) (m : Nat) :
    m ≤ Nat.count (Clear b c) (m * 2 ^ 32) := by
  have period (j : Nat) : Clear b c (2 ^ 32 + j) ↔ Clear b c j := by
    rw [Clear, Clear, BitVec.ofNat_add]
    simp
  have low : Clear b c (k % 2 ^ 32) := by
    have hmod : BitVec.ofNat 32 (k % 2 ^ 32) = BitVec.ofNat 32 k := by
      apply BitVec.eq_of_toNat_eq
      rw [BitVec.toNat_ofNat, BitVec.toNat_ofNat, Nat.mod_mod]
    rwa [Clear, hmod]
  have once : 0 < Nat.count (Clear b c) (2 ^ 32) :=
    lt_of_le_of_lt (Nat.zero_le _) (Nat.count_strict_mono low (Nat.mod_lt k (by omega)))
  induction m with
  | zero => exact Nat.zero_le _
  | succ m ih =>
    have hsplit : (m + 1) * 2 ^ 32 = 2 ^ 32 + m * 2 ^ 32 := by omega
    have hrest : Nat.count (fun j => Clear b c (2 ^ 32 + j)) (m * 2 ^ 32) =
        Nat.count (Clear b c) (m * 2 ^ 32) := by
      congr 1
      funext j
      exact propext (period j)
    rw [hsplit, Nat.count_add, hrest]
    omega

/-- Without one it never ends. -/
theorem countFree_diverges (pos : n ≠ 0) (all : ∀ count : U32, count ≤ n)
    (none_clear : ∀ k, ¬ Clear b c k) (fuel : Nat) (count : U32) (reads : List Nat) :
    countFree b n (startBit c) fuel count 0 reads = none := by
  induction fuel generalizing count reads with
  | zero => rfl
  | succ fuel ih =>
    have set : ¬ memoryBitmapTestSum b (startBit c) count = false := by
      intro clear
      refine none_clear count.toNat ?_
      rw [Clear, BitVec.ofNat_toNat, BitVec.setWidth_eq]
      exact clear
    rw [countFree, if_pos (all count)]
    simp only [if_neg set, if_neg pos.symm]
    exact ih _ _

end Count

/-- The two outer loops as one over blocks. -/
def searchBlocks (b : Balloc) (n : U32) (fuel : Nat) :
    List Nat → List Nat → Option (Option Nat × List Nat)
  | [], reads => some (none, reads)
  | c :: cs, reads =>
    if b.Used c then searchBlocks b n fuel cs reads
    else
      (countFree b n (startBit c) fuel 0 0 reads).bind fun (found, reads) =>
        if found then some (some c, reads) else searchBlocks b n fuel cs reads

section Search

variable {b : Balloc} {n : U32}

theorem searchBlocks_append (fuel : Nat) (xs ys reads : List Nat) :
    searchBlocks b n fuel (xs ++ ys) reads =
      (searchBlocks b n fuel xs reads).bind fun (blk, reads) =>
        if blk.isSome then some (blk, reads) else searchBlocks b n fuel ys reads := by
  induction xs generalizing reads with
  | nil => rfl
  | cons x xs ih =>
    rw [List.cons_append, searchBlocks, searchBlocks]
    by_cases used : b.Used x
    · rw [if_pos used, if_pos used]
      exact ih reads
    · rw [if_neg used, if_neg used, Option.bind_assoc]
      congr 1
      funext ⟨found, reads'⟩
      cases found with
      | false => exact ih reads'
      | true => rfl

/-- Blocks in use are passed over. -/
theorem searchBlocks_used {xs : List Nat} (used : ∀ x ∈ xs, b.Used x) (fuel : Nat)
    (ys reads : List Nat) :
    searchBlocks b n fuel (xs ++ ys) reads = searchBlocks b n fuel ys reads := by
  induction xs with
  | nil => rfl
  | cons x xs ih =>
    rw [List.cons_append, searchBlocks, if_pos (used x List.mem_cons_self)]
    exact ih fun y hy => used y (List.mem_cons_of_mem _ hy)

theorem searchBits_eq (fuel i : Nat) {js : List Nat} (hjs : ∀ j ∈ js, j < 32)
    (reads : List Nat) :
    searchBits b n fuel i js reads =
      searchBlocks b n fuel (js.map fun j => i * 32 + j) reads := by
  induction js generalizing reads with
  | nil => rfl
  | cons j js ih =>
    have hj := hjs j List.mem_cons_self
    have hrest := ih fun k hk => hjs k (List.mem_cons_of_mem _ hk)
    obtain ⟨hdiv, hmod⟩ := div_mod_of_word (w := 32) (i := i) hj
    have hclear : b.mBmp i &&& (1#32 <<< j) = 0#32 ↔ ¬ b.Used (i * 32 + j) := by
      rw [and_mask_eq_zero _ hj, Used, testBit, hdiv, hmod, Bool.not_eq_true]
    have hstart : BitVec.ofNat 32 (i * blocksPerUnit) + 1#32 <<< j = startBit (i * 32 + j) := by
      rw [startBit, hdiv, hmod, blocksPerUnit]
    rw [searchBits, List.map_cons, searchBlocks]
    by_cases used : b.Used (i * 32 + j)
    · rw [if_neg (fun h => hclear.mp h used), if_pos used]
      exact hrest reads
    · rw [if_pos (hclear.mpr used), if_neg used]
      simp only [hstart, hrest]
      rfl

/-- The blocks of a list of words. -/
def unitBlocks (is : List Nat) : List Nat :=
  is.flatMap fun i => (List.range blocksPerUnit).map fun j => i * 32 + j

theorem unitBlocks_range (k : Nat) : unitBlocks (List.range k) = List.range (k * 32) := by
  induction k with
  | zero => rfl
  | succ k ih =>
    rw [unitBlocks] at ih
    rw [unitBlocks, List.range_succ, List.flatMap_append, ih, Nat.succ_mul, List.range_add]
    simp [blocksPerUnit]

theorem searchUnits_eq (fuel : Nat) (is reads : List Nat) :
    searchUnits b n fuel is reads = searchBlocks b n fuel (unitBlocks is) reads := by
  induction is generalizing reads with
  | nil => rfl
  | cons i is ih =>
    have hjs : ∀ j ∈ List.range blocksPerUnit, j < 32 := fun j hj => List.mem_range.mp hj
    have hcons : unitBlocks (i :: is) =
        (List.range blocksPerUnit).map (fun j => i * 32 + j) ++ unitBlocks is :=
      List.flatMap_cons
    rw [searchUnits, hcons]
    by_cases full : b.mBmp i = blockUnitFull
    · rw [if_neg (not_not.mpr full), ih, searchBlocks_used]
      intro c hc
      obtain ⟨j, hj, rfl⟩ := List.mem_map.mp hc
      obtain ⟨hdiv, hmod⟩ := div_mod_of_word (w := 32) (i := i) (hjs j hj)
      have hones : blockUnitFull = BitVec.allOnes 32 := rfl
      rw [Used, testBit, hdiv, hmod, full, hones, BitVec.getLsbD_allOnes]
      exact decide_eq_true (hjs j hj)
    · rw [if_pos full, searchBlocks_append, searchBits_eq fuel i hjs]
      simp only [ih]

/-- From block `c` a run of `n` free blocks is reported. -/
def Reports (b : Balloc) (n : U32) (c : Nat) : Prop :=
  if n = 0xffffffff then ∃ k, Clear b c k
  else n.toNat ≤ Nat.count (Clear b c) (n.toNat + 1)

theorem not_max (h : n ≠ 0xffffffff) : n.toNat + 1 < 2 ^ 32 := by
  have hlt := n.isLt
  have hne : n.toNat ≠ 0xffffffff := fun heq => h (BitVec.eq_of_toNat_eq heq)
  omega

theorem toNat_pos (pos : n ≠ 0) : 0 < n.toNat := by
  have hne : n.toNat ≠ 0 := fun heq => pos (BitVec.eq_of_toNat_eq heq)
  omega

theorem Reports.returns {c : Nat} (reports : Reports b n c) (pos : n ≠ 0) (reads : List Nat) :
    ∃ reads', Returns (fun fuel => countFree b n (startBit c) fuel 0 0 reads) (true, reads') := by
  have hpos := toNat_pos pos
  have fewer : Nat.count (Clear b c) 0 < n.toNat := by
    rwa [Nat.count_zero]
  rw [Reports] at reports
  by_cases hmax : n = 0xffffffff
  · rw [if_pos hmax] at reports
    obtain ⟨k, clear⟩ := reports
    refine countFree_reports (fun k _ => ?_) (clear_often clear n.toNat) (Nat.zero_le _) fewer reads
    have hlt := (BitVec.ofNat 32 k).isLt
    have hlast : BitVec.toNat (0xffffffff : U32) = 0xffffffff := rfl
    rw [hmax, BitVec.le_def, hlast]
    omega
  · rw [if_neg hmax] at reports
    have hsmall := not_max hmax
    refine countFree_reports (fun k hk => ?_) reports (Nat.zero_le _) fewer reads
    rw [BitVec.le_def, BitVec.toNat_ofNat]
    omega

theorem passes {c : Nat} (hmax : n ≠ 0xffffffff) (silent : ¬ Reports b n c) (reads : List Nat) :
    ∃ reads', Returns (fun fuel => countFree b n (startBit c) fuel 0 0 reads) (false, reads') := by
  rw [Reports, if_neg hmax, not_le] at silent
  exact countFree_passes (not_max hmax) silent (Nat.zero_le _) reads

/-- The search goes on behind blocks that report nothing. -/
theorem searchBlocks_skip (hmax : n ≠ 0xffffffff) {xs : List Nat}
    (silent : ∀ x ∈ xs, ¬ b.Used x → ¬ Reports b n x) (ys reads : List Nat) :
    ∃ reads', ∀ r, Returns (fun fuel => searchBlocks b n fuel ys reads') r →
      Returns (fun fuel => searchBlocks b n fuel (xs ++ ys) reads) r := by
  induction xs generalizing reads with
  | nil => exact ⟨reads, fun _ h => h⟩
  | cons x xs ih =>
    have hrest := ih fun y hy => silent y (List.mem_cons_of_mem _ hy)
    by_cases used : b.Used x
    · obtain ⟨reads', h⟩ := hrest reads
      refine ⟨reads', fun r hr => ?_⟩
      simp only [List.cons_append, searchBlocks, if_pos used]
      exact h r hr
    · obtain ⟨reads₁, passed⟩ := passes hmax (silent x List.mem_cons_self used) reads
      obtain ⟨reads', h⟩ := hrest reads₁
      refine ⟨reads', fun r hr => ?_⟩
      simp only [List.cons_append, searchBlocks, if_neg used]
      exact passed.bind (h r hr)

theorem searchBlocks_none (hmax : n ≠ 0xffffffff) {xs : List Nat}
    (silent : ∀ x ∈ xs, ¬ b.Used x → ¬ Reports b n x) (reads : List Nat) :
    ∃ reads', Returns (fun fuel => searchBlocks b n fuel xs reads) (none, reads') := by
  obtain ⟨reads', h⟩ := searchBlocks_skip hmax silent [] reads
  rw [List.append_nil] at h
  exact ⟨reads', h _ (.of_eq fun _ => rfl)⟩

theorem searchBlocks_here {c : Nat} (pos : n ≠ 0) (unused : ¬ b.Used c) (reports : Reports b n c)
    (ys reads : List Nat) :
    ∃ reads', Returns (fun fuel => searchBlocks b n fuel (c :: ys) reads) (some c, reads') := by
  obtain ⟨reads', returns⟩ := reports.returns pos reads
  refine ⟨reads', ?_⟩
  simp only [searchBlocks, if_neg unused]
  exact returns.bind (.of_eq fun _ => rfl)

end Search

section Calls

variable {b : Balloc} {n : U32}

theorem range_cut {c m : Nat} (hc : c < m) : ∃ ys, List.range m = List.range c ++ c :: ys := by
  obtain ⟨k, rfl⟩ : ∃ k, m = c + (k + 1) := ⟨m - c - 1, by omega⟩
  refine ⟨(List.range k).map fun j => c + (j + 1), ?_⟩
  rw [List.range_add, List.range_succ_eq_map]
  simp [Function.comp_def]

/-- The result of `block_alloc_first_free_n` for two blocks or more. -/
theorem firstFreeN_eq (pos : n ≠ 0) (hone : n ≠ 1) (fuel : Nat) :
    blockAllocFirstFreeN fuel b n =
      (searchBlocks b n fuel (List.range b.capacity) []).map (Prod.map (·.getD 0) id) := by
  rw [blockAllocFirstFreeN, if_neg pos, if_neg hone, searchUnits_eq, unitBlocks_range, capacity]

/-- The state that a successful call leaves. -/
def taken (b : Balloc) (n : U32) (reads : List Nat) (c : Nat) : Balloc :=
  let b := markRun { b with touched := reads ++ b.touched } (BitVec.ofNat 32 c) n
  { b with freeBlocks := b.freeBlocks - n }

theorem getN_null {reads : List Nat}
    (h : Returns (fun fuel => blockAllocFirstFreeN fuel b n) (0, reads)) :
    Returns (fun fuel => ballocGetN fuel b n) (0, { b with touched := reads ++ b.touched }) :=
  h.map _

theorem getN_found {reads : List Nat} {c : Nat} (h0 : c ≠ 0)
    (h : Returns (fun fuel => blockAllocFirstFreeN fuel b n) (c, reads)) :
    Returns (fun fuel => ballocGetN fuel b n)
      (BitVec.ofNat 32 (c * memoryBlockSize), taken b n reads c) := by
  have hmap := h.map fun (blk, reads) =>
    let b := { b with touched := reads ++ b.touched }
    if blk = 0 then ((0 : U32), b)
    else
      let b := markRun b (BitVec.ofNat 32 blk) n
      (BitVec.ofNat 32 (blk * memoryBlockSize), { b with freeBlocks := b.freeBlocks - n })
  simp only [if_neg h0] at hmap
  exact hmap

/-- The marks begin at the word whose number is the block. -/
theorem markRun_below {c word : Nat} (hc : c < 2 ^ 20) (below : word < c) :
    (markRun b (BitVec.ofNat 32 c) n).mBmp word = b.mBmp word := by
  have hn := n.isLt
  rw [markRun]
  suffices h : ∀ k, k ≤ 2 ^ 32 → ((List.range k).foldl (fun b i =>
      memoryBitmapSetSum b (BitVec.ofNat 32 c) (BitVec.ofNat 32 i)) b).mBmp word = b.mBmp word from
    h _ (by omega)
  intro k hk
  induction k with
  | zero => rfl
  | succ k ih =>
    have hthirty : BitVec.toNat (32 : U32) = 32 := rfl
    have hword : word ≠ sumWord (BitVec.ofNat 32 c) (BitVec.ofNat 32 k) := by
      rw [sumWord, BitVec.toNat_add, BitVec.toNat_udiv, BitVec.toNat_ofNat, BitVec.toNat_ofNat,
        hthirty]
      omega
    rw [List.range_succ, List.foldl_append, List.foldl_cons, List.foldl_nil, memoryBitmapSetSum,
      Balloc.store]
    dsimp only
    rw [Function.update_of_ne hword]
    exact ih (by omega)

/-- The block that is returned stays as it was. -/
theorem taken_used {c : Nat} (hc : c < b.capacity) (h0 : c ≠ 0) (reads : List Nat) :
    (taken b n reads c).Used c ↔ b.Used c := by
  have hcap := b.capacity_le
  have hbelow : c / 32 < c := by omega
  have hword := @markRun_below { b with touched := reads ++ b.touched } n c _
    (lt_of_lt_of_le hc hcap) hbelow
  rw [Used, Used, testBit, testBit]
  exact iff_of_eq (congrArg (fun x => BitVec.getLsbD x (c % 32) = true) hword)

/-- `n` free blocks from block `c` on. -/
def FreeRun (b : Balloc) (n c : Nat) : Prop := c + n ≤ b.capacity ∧ ∀ k, k < n → ¬ b.Used (c + k)

/-- The run at `addr` was free and has been taken, with no access outside the bitmap. -/
structure Taken (b : Balloc) (n addr : U32) (b' : Balloc) : Prop where
  free : ∀ k, k < n.toNat → ¬ b.Used (blockOf addr + k)
  marked : ∀ c, b'.Used c ↔ b.Used c ∨ blockOf addr ≤ c ∧ c < blockOf addr + n.toNat
  count : b'.freeBlocks = b.freeBlocks - n
  inside : ∀ word ∈ b'.touched, word ∈ b.touched ∨ word < b.bmpSz.toNat

/-- What `balloc_get_n` owes its caller. -/
structure Serves (b : Balloc) (n : U32) : Prop where
  taken : ∀ addr b', Returns (fun fuel => ballocGetN fuel b n) (addr, b') → addr ≠ 0 →
    Taken b n addr b'
  found : (∃ c, FreeRun b n.toNat c) →
    ∀ b', ¬ Returns (fun fuel => ballocGetN fuel b n) (0, b')

/-- There is nothing to be found, and nothing is reported. -/
structure NothingFree (b : Balloc) (n : U32) : Prop where
  no_run : ∀ c, ¬ FreeRun b n.toNat c
  silent : n ≠ 1 → ∀ c, c < b.capacity → ¬ b.Used c →
    (n = 0xffffffff → ∀ d, d < c → b.Used d) → ¬ Reports b n c

/-- A call that finds a block does not serve. -/
theorem Serves.not_found (serves : Serves b n) (pos : n ≠ 0) {c : Nat} {reads : List Nat}
    (hc : c < b.capacity) (h0 : c ≠ 0)
    (h : Returns (fun fuel => blockAllocFirstFreeN fuel b n) (c, reads)) : False := by
  have hlt := lt_of_lt_of_le hc b.capacity_le
  have hblock := blockOf_block hlt
  have hpos := toNat_pos pos
  have run := serves.taken _ _ (getN_found h0 h) (block_ne_zero hlt h0)
  have free := run.free 0 hpos
  have marked := (run.marked c).mpr (Or.inr (by omega))
  rw [hblock, Nat.add_zero] at free
  exact free ((taken_used hc h0 reads).mp marked)

theorem ne_zero_of_unused (zero : b.Used 0) {c : Nat} (unused : ¬ b.Used c) : c ≠ 0 :=
  fun h => unused (h ▸ zero)

/-- Where a free block reports a run, the search returns it. -/
theorem firstFreeN_reported (pos : n ≠ 0) (hone : n ≠ 1) {c : Nat} (hc : c < b.capacity)
    (unused : ¬ b.Used c) (first : n = 0xffffffff → ∀ d, d < c → b.Used d)
    (reports : Reports b n c) :
    ∃ d reads, d < b.capacity ∧ ¬ b.Used d ∧
      Returns (fun fuel => blockAllocFirstFreeN fuel b n) (d, reads) := by
  classical
  simp only [firstFreeN_eq pos hone]
  by_cases hmax : n = 0xffffffff
  · obtain ⟨ys, hcut⟩ := range_cut hc
    obtain ⟨reads, returns⟩ := searchBlocks_here pos unused reports ys []
    refine ⟨c, reads, hc, unused, ?_⟩
    have used : ∀ d ∈ List.range c, b.Used d := fun d hd => first hmax d (List.mem_range.mp hd)
    simp only [hcut, searchBlocks_used used]
    exact returns.map _
  · have hex : ∃ d, d < b.capacity ∧ ¬ b.Used d ∧ Reports b n d := ⟨c, hc, unused, reports⟩
    obtain ⟨hd, unused', reports'⟩ := Nat.find_spec hex
    obtain ⟨ys, hcut⟩ := range_cut hd
    have silent : ∀ x ∈ List.range (Nat.find hex), ¬ b.Used x → ¬ Reports b n x := by
      intro x hx free report
      have hlt := List.mem_range.mp hx
      exact Nat.find_min hex hlt ⟨hlt.trans hd, free, report⟩
    obtain ⟨reads₁, rest⟩ := searchBlocks_skip hmax silent (Nat.find hex :: ys) []
    obtain ⟨reads, returns⟩ := searchBlocks_here pos unused' reports' ys reads₁
    refine ⟨Nat.find hex, reads, hd, unused', ?_⟩
    simp only [hcut]
    exact (rest _ returns).map _

theorem firstFreeN_one (hone : n = 1) (fuel : Nat) :
    blockAllocFirstFreeN fuel b n = some (blockAllocFirstFree b, []) := by
  have pos : n ≠ 0 := by
    rw [hone]
    decide
  rw [blockAllocFirstFreeN, if_neg pos, if_pos hone]

/-- Otherwise it answers 0 or, with the largest size, does not end. -/
theorem firstFreeN_silent (pos : n ≠ 0) (nothing : NothingFree b n) :
    (∃ reads, Returns (fun fuel => blockAllocFirstFreeN fuel b n) (0, reads)) ∨
      ∀ fuel, blockAllocFirstFreeN fuel b n = none := by
  classical
  by_cases hone : n = 1
  · have hfull : blockAllocFirstFree b = 0 := by
      by_contra hne
      obtain ⟨hlt, unused, _⟩ := blockAllocFirstFree_free hne
      refine nothing.no_run (blockAllocFirstFree b) ⟨?_, fun k hk => ?_⟩
      · rw [hone]
        exact hlt
      · rw [hone] at hk
        have hk0 : k = 0 := Nat.lt_one_iff.mp hk
        rwa [hk0, Nat.add_zero]
    refine Or.inl ⟨[], .of_eq fun fuel => ?_⟩
    rw [firstFreeN_one hone, hfull]
  · have silent := nothing.silent hone
    simp only [firstFreeN_eq pos hone]
    by_cases hmax : n = 0xffffffff
    · by_cases hex : ∃ c, c < b.capacity ∧ ¬ b.Used c
      · obtain ⟨hc, unused⟩ := Nat.find_spec hex
        have used : ∀ d, d < Nat.find hex → b.Used d := by
          intro d hd
          by_contra hfree
          exact Nat.find_min hex hd ⟨hd.trans hc, hfree⟩
        have hquiet := silent _ hc unused fun _ => used
        rw [Reports, if_pos hmax, not_exists] at hquiet
        have all : ∀ count : U32, count ≤ n := by
          intro count
          have hlt := count.isLt
          have hlast : BitVec.toNat (0xffffffff : U32) = 0xffffffff := rfl
          rw [hmax, BitVec.le_def, hlast]
          omega
        obtain ⟨ys, hcut⟩ := range_cut hc
        refine Or.inr fun fuel => ?_
        rw [hcut, searchBlocks_used (fun d hd => used d (List.mem_range.mp hd)), searchBlocks,
          if_neg unused, countFree_diverges pos all hquiet]
        rfl
      · have used : ∀ c ∈ List.range b.capacity, b.Used c := by
          intro c hc
          by_contra hfree
          exact hex ⟨c, List.mem_range.mp hc, hfree⟩
        refine Or.inl ⟨[], .of_eq fun fuel => ?_⟩
        have hskip := searchBlocks_used (n := n) used fuel [] []
        rw [List.append_nil] at hskip
        rw [hskip]
        rfl
    · have quiet : ∀ c ∈ List.range b.capacity, ¬ b.Used c → ¬ Reports b n c := fun c hc unused =>
        silent c (List.mem_range.mp hc) unused fun h => absurd h hmax
      obtain ⟨reads, returns⟩ := searchBlocks_none hmax quiet []
      exact Or.inl ⟨reads, returns.map _⟩

/-- A run of free blocks is never of the largest size. -/
theorem FreeRun.not_max {c : Nat} (run : FreeRun b n.toNat c) : n ≠ 0xffffffff := by
  rintro rfl
  have hcap := b.capacity_le
  have hlast : BitVec.toNat (0xffffffff : U32) = 0xffffffff := rfl
  have hle := run.1
  omega

end Calls

/-- Block 0 is used and a size is given: `balloc_get_n` keeps its promises exactly where there is
nothing for it to return. -/
theorem serves_iff {b : Balloc} {n : U32} (zero : b.Used 0) (pos : n ≠ 0) :
    Serves b n ↔ NothingFree b n := by
  constructor
  · intro serves
    have missed (hone : n ≠ 1) (c : Nat) (hc : c < b.capacity) (unused : ¬ b.Used c)
        (first : n = 0xffffffff → ∀ d, d < c → b.Used d) : ¬ Reports b n c := by
      intro reports
      obtain ⟨d, reads, hd, unused', h⟩ := firstFreeN_reported pos hone hc unused first reports
      exact serves.not_found pos hd (ne_zero_of_unused zero unused') h
    refine ⟨fun c run => ?_, missed⟩
    by_cases hone : n = 1
    · have hreturns : Returns (fun fuel => blockAllocFirstFreeN fuel b n)
          (blockAllocFirstFree b, []) := .of_eq fun fuel => firstFreeN_one hone fuel
      by_cases hfull : blockAllocFirstFree b = 0
      · rw [hfull] at hreturns
        exact serves.found ⟨c, run⟩ _ (getN_null hreturns)
      · exact serves.not_found pos (blockAllocFirstFree_free hfull).1 hfull hreturns
    · have hmax := run.not_max
      have quiet : ∀ d ∈ List.range b.capacity, ¬ b.Used d → ¬ Reports b n d := fun d hd unused =>
        missed hone d (List.mem_range.mp hd) unused fun h => absurd h hmax
      obtain ⟨reads, returns⟩ := searchBlocks_none hmax quiet []
      refine serves.found ⟨c, run⟩ { b with touched := reads ++ b.touched } (getN_null ?_)
      simp only [firstFreeN_eq pos hone]
      exact returns.map _
  · intro nothing
    refine ⟨fun addr b' h hne => absurd ?_ hne, fun ⟨c, run⟩ => absurd run (nothing.no_run c)⟩
    rcases firstFreeN_silent pos nothing with ⟨reads, returns⟩ | hnone
    · exact (Prod.mk.inj (h.unique (getN_null returns))).1
    · obtain ⟨fuel, hfuel⟩ := h
      have hend := hfuel fuel (le_refl fuel)
      simp only [ballocGetN, hnone fuel, Option.map_none, reduceCtorEq] at hend

/-- One free block, number 1, and a request for two. -/
def loneBlock : Balloc where
  mBmpAddr := 0xC0040000
  mBmp := fun i => if i = 0 then 0xfffffffd else 0xffffffff
  memSz := 0x20000
  bmpSz := 1
  totalBlocks := 32
  freeBlocks := 1
  touched := []
  bmpSz_le := Nat.le_of_ble_eq_true rfl

theorem lone_block_refused : Serves loneBlock 2 := by
  have hused : ∀ c, c < 32 → c ≠ 1 → loneBlock.Used c := by decide
  refine (serves_iff (by decide) (by decide)).mpr ⟨?_, ?_⟩
  · rintro c ⟨hle, free⟩
    have hle : c + 2 ≤ 32 := hle
    have h0 := free 0 (by decide)
    have h1 := free 1 (by decide)
    by_cases hc : c = 1
    · exact h1 (hused (c + 1) (by omega) (by omega))
    · exact h0 (hused c (by omega) hc)
  · intro _ c hc unused _
    have hc : c < 32 := hc
    have hone : c = 1 := by
      by_contra hne
      exact unused (hused c hc hne)
    have hmax : ¬ (2 : U32) = 0xffffffff := by decide
    rw [hone, Reports, if_neg hmax]
    decide

/-- A request for one block: the bit of block 33 is set in its place. -/
theorem lone_block_not_marked : ¬ ∀ (b : Balloc) (n : U32), b.Used 0 → n ≠ 0 → Serves b n := by
  intro serves
  have hfirst : blockAllocFirstFree loneBlock = 1 := by decide +kernel
  have hreturns : Returns (fun fuel => blockAllocFirstFreeN fuel loneBlock 1) (1, []) :=
    .of_eq fun fuel => by rw [firstFreeN_one rfl, hfirst]
  exact (serves loneBlock 1 (by decide) (by decide)).not_found (by decide) (by decide) (by decide)
    hreturns

end ContiguousBlocks
