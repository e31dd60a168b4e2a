import MissyMicro.BlockRuns

/-!
# Blocks past the end of memory

The bitmap is rounded up to whole words plus one, so it always has bits for
blocks that do not exist, and `balloc_initialize` leaves them clear. A run stays
below `total_blocks` exactly as long as `balloc_get` is called with a nonzero
free count.
-/

namespace PhantomBlocks

open PackedBits BlockAllocator BlockRuns TransitionRuns
open BlockAllocator.Balloc

def ballocGets : Nat → Balloc → List U32
  | 0, _ => []
  | n + 1, b => (ballocGet b).1 :: ballocGets n (ballocGet b).2

theorem gets_run (n : Nat) (s : Clients) :
    ∃ t, Run Step s ((ballocGets n s.balloc).map .get) t := by
  induction n generalizing s with
  | zero => exact ⟨s, .nil s⟩
  | succ n ih =>
    obtain ⟨t, ht⟩ := ih ⟨(ballocGet s.balloc).2, liveAfterGet s.live (ballocGet s.balloc).1⟩
    exact ⟨t, .cons (.get s) ht⟩

/-- Every block a run of `balloc_get` returns was free when the run began. -/
theorem gets_unused {n : Nat} {b : Balloc} {r : U32} (hr : r ∈ ballocGets n b) (h0 : r ≠ 0) :
    blockOf r < b.capacity ∧ ¬ b.Used (blockOf r) := by
  induction n generalizing b with
  | zero => cases hr
  | succ n ih =>
    rcases ballocGet_cases b with ⟨_, hnull⟩ | ⟨c, b', hc0, hlt, unused, _, heq, bits, _, bounds⟩
    · rw [ballocGets, hnull] at hr
      rcases List.mem_cons.mp hr with rfl | hr
      · exact absurd rfl h0
      · exact ih hr
    · rw [ballocGets, heq] at hr
      rcases List.mem_cons.mp hr with rfl | hr
      · rw [blockOf_block (lt_of_lt_of_le hlt b.capacity_le)]
        exact ⟨hlt, unused⟩
      · obtain ⟨hlt', hun⟩ := ih hr
        refine ⟨by rwa [bounds.capacity] at hlt', fun used => hun ?_⟩
        rw [Used, bits, testBit_setBit (by decide)]
        simp [show testBit b.mBmp (blockOf r) = true from used]

/-- First fit reaches every free block once the free blocks below it are taken. -/
theorem gets_reach {b : Balloc} {c : Nat} (zero : b.Used 0) (hc : c < b.capacity)
    (unused : ¬ b.Used c) :
    ∃ n, BitVec.ofNat 32 (c * memoryBlockSize) ∈ ballocGets n b := by
  induction hm : ((Finset.range c).filter (fun d => ¬ b.Used d)).card using
    Nat.strong_induction_on generalizing b with
  | _ m ih =>
    rcases ballocGet_cases b with ⟨hnone, _⟩ | ⟨d, b', hd0, hdlt, dfree, hmin, heq, bits, _, bounds⟩
    · exact absurd (blockAllocFirstFree_full hnone zero hc) unused
    · by_cases hdc : d = c
      · subst d
        exact ⟨1, by rw [ballocGets, heq]; exact List.mem_cons_self⟩
      · have used : ∀ e, b'.Used e ↔ d = e ∨ b.Used e := by
          intro e
          rw [Used, bits, testBit_setBit (by decide)]
          simp [Used]
        have hlt : d < c := by
          by_contra hge
          exact unused (hmin c (by omega))
        have smaller : ((Finset.range c).filter (fun e => ¬ b'.Used e)).card < m := by
          rw [← hm]
          apply Finset.card_lt_card
          refine Finset.ssubset_iff_subset_ne.mpr ⟨?_, ?_⟩
          · intro e he
            simp only [Finset.mem_filter, used] at he ⊢
            exact ⟨he.1, fun h => he.2 (Or.inr h)⟩
          · intro same
            have hmem : d ∈ (Finset.range c).filter (fun e => ¬ b.Used e) := by
              simp [hlt, dfree]
            rw [← same] at hmem
            simp [used] at hmem
        obtain ⟨n, hn⟩ := ih _ smaller ((used 0).mpr (Or.inr zero))
          (by rwa [bounds.capacity]) (fun h => ((used c).mp h).elim hdc unused) rfl
        exact ⟨n + 1, by rw [ballocGets, heq]; exact List.mem_cons_of_mem _ hn⟩

/-- The blocks that runs of `balloc_get` can return are exactly the free ones. -/
theorem gets_return_iff {b : Balloc} (zero : b.Used 0) (c : Nat) :
    (∃ n, ∃ r ∈ ballocGets n b, r ≠ 0 ∧ blockOf r = c) ↔ c < b.capacity ∧ ¬ b.Used c := by
  constructor
  · rintro ⟨n, r, hr, h0, rfl⟩
    exact gets_unused hr h0
  · rintro ⟨hc, unused⟩
    obtain ⟨n, hn⟩ := gets_reach zero hc unused
    have hc20 : c < 2 ^ 20 := lt_of_lt_of_le hc b.capacity_le
    have hc0 : c ≠ 0 := fun h => unused (h ▸ zero)
    exact ⟨n, _, hn, block_ne_zero hc20 hc0, blockOf_block hc20⟩

/-- Held and reserved blocks exist, and the counter is exact. -/
structure Bounded (keep : List Nat) (s : Clients) : Prop where
  exclusive : Exclusive keep s
  counts : CountsUsed s.balloc
  below : ∀ c, s.balloc.MarkedUsed c → c < s.balloc.totalBlocks.toNat
  phantom : s.balloc.totalBlocks.toNat < s.balloc.capacity

theorem Bounded.marked_subset {keep : List Nat} {s : Clients} (inv : Bounded keep s) :
    s.balloc.marked ⊆ Finset.range s.balloc.totalBlocks.toNat := by
  intro c hc
  exact Finset.mem_range.mpr (inv.below c (mem_marked.mp hc))

theorem Bounded.card_le {keep : List Nat} {s : Clients} (inv : Bounded keep s) :
    s.balloc.marked.card ≤ s.balloc.totalBlocks.toNat := by
  simpa using Finset.card_le_card inv.marked_subset

theorem Bounded.free_le {keep : List Nat} {s : Clients} (inv : Bounded keep s) :
    (ballocFreeBlockCount s.balloc).toNat ≤ (ballocTotalBlockCount s.balloc).toNat := by
  have := inv.counts.free_toNat inv.card_le
  simp only [ballocFreeBlockCount, ballocTotalBlockCount]
  omega

/-- A nonzero counter is a free block that exists. -/
theorem Bounded.free_ne_zero_iff {keep : List Nat} {s : Clients} (inv : Bounded keep s) :
    s.balloc.freeBlocks ≠ 0 ↔ ∃ c, c < s.balloc.totalBlocks.toNat ∧ ¬ s.balloc.Used c := by
  have hfree := inv.counts.free_toNat inv.card_le
  have hcap := inv.phantom
  have hzero : s.balloc.freeBlocks = 0 ↔ s.balloc.freeBlocks.toNat = 0 :=
    ⟨fun h => by rw [h]; rfl, fun h => BitVec.eq_of_toNat_eq h⟩
  constructor
  · intro h
    by_contra hall
    simp only [not_exists, not_and, not_not] at hall
    have heq : s.balloc.marked = Finset.range s.balloc.totalBlocks.toNat := by
      apply Finset.Subset.antisymm inv.marked_subset
      intro c hc
      have hlt := Finset.mem_range.mp hc
      exact mem_marked.mpr ⟨by omega, hall c hlt⟩
    rw [heq, Finset.card_range] at hfree
    exact h (hzero.mpr (by omega))
  · rintro ⟨c, hlt, unused⟩ h
    have hmem : c ∉ s.balloc.marked := fun hc => unused (mem_marked.mp hc).2
    have hlt' : s.balloc.marked.card < s.balloc.totalBlocks.toNat := by
      have hss : s.balloc.marked ⊂ Finset.range s.balloc.totalBlocks.toNat :=
        (Finset.ssubset_iff_of_subset inv.marked_subset).mpr
          ⟨c, Finset.mem_range.mpr hlt, hmem⟩
      simpa using Finset.card_lt_card hss
    have := hzero.mp h
    omega

/-- The condition on one call: a block is asked for only while one is counted free. -/
def CountedFree (s : Clients) : BlockCall → Prop
  | .get _ => s.balloc.freeBlocks ≠ 0
  | _ => True

theorem Bounded.get_below {keep : List Nat} {s : Clients} (inv : Bounded keep s)
    (counted : s.balloc.freeBlocks ≠ 0) :
    (ballocGet s.balloc).1.toNat < s.balloc.totalBlocks.toNat * 4096 ∧
      Bounded keep ⟨(ballocGet s.balloc).2, liveAfterGet s.live (ballocGet s.balloc).1⟩ := by
  obtain ⟨d, hd, dfree⟩ := inv.free_ne_zero_iff.mp counted
  have excl := get_exclusive inv.exclusive
  have hcounts := ballocGet_counts inv.counts
  have hphantom := inv.phantom
  rcases ballocGet_cases s.balloc with ⟨hnone, _⟩ | ⟨c, b', _, hlt, _, hmin, heq, bits, _, bounds⟩
  · have full := blockAllocFirstFree_full hnone (inv.exclusive.kept 0 inv.exclusive.zero)
      (show d < s.balloc.capacity by omega)
    exact absurd full dfree
  · have hc : c ≤ d := by
      by_contra hgt
      exact dfree (hmin d (by omega))
    rw [heq] at excl hcounts ⊢
    have hcap := s.balloc.capacity_le
    refine ⟨?_, excl, hcounts, ?_, ?_⟩
    · simp only [memoryBlockSize, BitVec.toNat_ofNat]
      omega
    · rintro e ⟨he, hused⟩
      rw [bounds.capacity] at he
      rw [Used, bits, testBit_setBit (by decide)] at hused
      simp only [Bool.or_eq_true, decide_eq_true_eq] at hused
      rw [bounds.totalBlocks]
      rcases hused with rfl | hused
      · omega
      · exact inv.below e ⟨he, hused⟩
    · rw [bounds.capacity, bounds.totalBlocks]
      exact inv.phantom

theorem Bounded.free {keep : List Nat} {s : Clients} (inv : Bounded keep s) {blk : U32}
    (h : blockOf blk ∈ s.live) :
    Bounded keep ⟨ballocFree s.balloc blk, s.live.erase (blockOf blk)⟩ := by
  have h0 := inv.exclusive.live_ne_zero h
  have bounds := ballocFree_bounds s.balloc blk
  refine ⟨free_exclusive inv.exclusive h,
    ballocFree_counts inv.counts h0 (inv.exclusive.held _ h), ?_, ?_⟩
  · rintro c ⟨hc, hused⟩
    rw [bounds.capacity] at hc
    rw [bounds.totalBlocks]
    exact inv.below c ⟨hc, ((ballocFree_used h0 c).mp hused).2⟩
  · rw [bounds.capacity, bounds.totalBlocks]
    exact inv.phantom

theorem Bounded.freeN {keep : List Nat} {s : Clients} (inv : Bounded keep s) {blk : U32}
    {n : Nat} (held : HeldN s.live blk n) :
    Bounded keep ⟨ballocFreeN s.balloc blk n, eraseN s.live blk n⟩ := by
  induction n generalizing s blk with
  | zero => exact inv
  | succ n ih => exact ih (inv.free held.1) held.2

theorem step_bounded {keep : List Nat} {s t : Clients} {call : BlockCall}
    (inv : Bounded keep s) (h : Guarded CountedFree Step s call t) : Bounded keep t := by
  obtain ⟨counted, h⟩ := h
  cases h with
  | get => exact (inv.get_below counted).2
  | free held => exact inv.free held
  | freeN held => exact inv.freeN held

theorem run_bounded {keep : List Nat} {s t : Clients} {calls : List BlockCall}
    (run : Run (Guarded CountedFree Step) s calls t) (inv : Bounded keep s) : Bounded keep t :=
  run.invariant (I := Bounded keep) (fun _ _ _ => step_bounded) inv

theorem step_bounds {s t : Clients} {call : BlockCall} (h : Step s call t) :
    SameBounds s.balloc t.balloc := by
  cases h with
  | get => exact ballocGet_bounds s.balloc
  | free => exact ballocFree_bounds _ _
  | freeN => exact ballocFreeN_bounds _ _ _

/-- A pointer below the end of memory can only come from a counted free block. -/
theorem Bounded.counted_of_below {keep : List Nat} {s : Clients} (inv : Bounded keep s)
    (below : (ballocGet s.balloc).1.toNat < s.balloc.totalBlocks.toNat * 4096) :
    s.balloc.freeBlocks ≠ 0 := by
  rw [inv.free_ne_zero_iff]
  rcases ballocGet_cases s.balloc with ⟨hnone, _⟩ | ⟨c, b', _, hlt, unused, _, heq, _, _, _⟩
  · have full := blockAllocFirstFree_full hnone (inv.exclusive.kept 0 inv.exclusive.zero)
      inv.phantom
    exact absurd (inv.below _ ⟨inv.phantom, full⟩) (lt_irrefl _)
  · rw [heq] at below
    have hcap := s.balloc.capacity_le
    simp only [memoryBlockSize, BitVec.toNat_ofNat] at below
    exact ⟨c, by omega, unused⟩

theorem guarded_of_below {keep : List Nat} {s t : Clients} {calls : List BlockCall}
    (run : Run Step s calls t) (inv : Bounded keep s)
    (below : ∀ r, .get r ∈ calls → r.toNat < s.balloc.totalBlocks.toNat * 4096) :
    Run (Guarded CountedFree Step) s calls t := by
  induction run with
  | nil => exact .nil _
  | @cons s t r call calls h _ ih =>
    have counted : CountedFree s call := by
      cases h with
      | get => exact inv.counted_of_below (below _ List.mem_cons_self)
      | free => trivial
      | freeN => trivial
    have hg : Guarded CountedFree Step s call t := ⟨counted, h⟩
    refine .cons hg (ih (step_bounded inv hg) ?_)
    intro r hr
    rw [(step_bounds h).totalBlocks]
    exact below r (List.mem_cons_of_mem _ hr)

theorem below_of_guarded {keep : List Nat} {s t : Clients} {calls : List BlockCall}
    (run : Run (Guarded CountedFree Step) s calls t) (inv : Bounded keep s) :
    ∀ r, .get r ∈ calls → r.toNat < s.balloc.totalBlocks.toNat * 4096 := by
  induction run with
  | nil => simp
  | @cons s t r call calls h _ ih =>
    intro p hp
    rcases List.mem_cons.mp hp with heq | hp
    · subst heq
      obtain ⟨counted, h⟩ := h
      cases h with
      | get => exact (inv.get_below counted).1
    · rw [← (step_bounds h.2).totalBlocks]
      exact ih (step_bounded inv h) p hp

theorem start_bounded {kernelEnd memorySz : U32} (memory : Nat → U32)
    (fits : ∀ c ∈ initialBlocks kernelEnd memorySz, c < (blockCount memorySz).toNat) :
    Bounded (initialBlocks kernelEnd memorySz)
      ⟨ballocInitialize kernelEnd memorySz memory, ∅⟩ := by
  have hcap := ballocInitialize_capacity kernelEnd memorySz memory
  have htotal := (ballocInitialize_bounds kernelEnd memorySz memory).2.2
  have hcount := blockCount_toNat memorySz
  have hunit := unitCount_toNat memorySz
  have excl := @reserved_exclusive kernelEnd memorySz memory []
  rw [reservedBlocks, List.flatMap_nil, List.append_nil, reserved, List.foldl_nil] at excl
  refine ⟨excl, ?_, ?_, ?_⟩
  · change CountsUsed (ballocInitialize kernelEnd memorySz memory)
    rw [ballocInitialize_eq]
    apply reserveAll_counts _ (clearedBitmap_counts kernelEnd memorySz memory)
    intro c hc
    have := fits c hc
    rw [capacity, (clearedBitmap_bounds kernelEnd memorySz memory).2.1]
    omega
  · rintro c ⟨hlt, used⟩
    change c < (ballocInitialize kernelEnd memorySz memory).totalBlocks.toNat
    rw [htotal]
    exact fits c ((ballocInitialize_used kernelEnd memorySz memory hlt).mp used)
  · change (ballocInitialize kernelEnd memorySz memory).totalBlocks.toNat <
      (ballocInitialize kernelEnd memorySz memory).capacity
    rw [htotal, hcap]
    omega

/-- Every block handed out exists and the free count never passes the total
exactly in the runs that ask for a block only while one is counted free. -/
theorem no_phantom_iff (kernelEnd memorySz : U32) (memory : Nat → U32)
    (fits : ∀ c ∈ initialBlocks kernelEnd memorySz, c < (blockCount memorySz).toNat)
    {calls : List BlockCall} {s : Clients}
    (run : Run Step ⟨ballocInitialize kernelEnd memorySz memory, ∅⟩ calls s) :
    ((∀ r, .get r ∈ calls → r.toNat < (blockCount memorySz).toNat * 4096) ∧
      ∀ before after t, calls = before ++ after →
        Run Step ⟨ballocInitialize kernelEnd memorySz memory, ∅⟩ before t →
        (ballocFreeBlockCount t.balloc).toNat ≤ (ballocTotalBlockCount t.balloc).toNat) ↔
      Run (Guarded CountedFree Step) ⟨ballocInitialize kernelEnd memorySz memory, ∅⟩ calls s := by
  have inv := start_bounded memory fits
  have htotal := (ballocInitialize_bounds kernelEnd memorySz memory).2.2
  constructor
  · rintro ⟨below, _⟩
    apply guarded_of_below run inv
    simpa only [htotal] using below
  · intro guarded
    have below := below_of_guarded guarded inv
    refine ⟨by simpa only [htotal] using below, ?_⟩
    rintro before after t rfl hrun
    have hbefore := guarded_of_below hrun inv
      (fun r hr => below r (List.mem_append_left after hr))
    exact (run_bounded hbefore inv).free_le

/-- On a 32 MB machine the first block is counted free, hence exists. -/
theorem first_block_exists :
    (ballocGet (ballocInitialize 0xC0010000 0x2000000 (fun _ => 0))).1.toNat < 0x2000000 := by
  have fits : ∀ c ∈ initialBlocks 0xC0010000 0x2000000, c < (blockCount 0x2000000).toNat :=
    initialBlocks_lt _ _ (by decide)
  have inv := start_bounded (fun _ => 0) fits
  have total := (ballocInitialize_bounds 0xC0010000 0x2000000 (fun _ => 0)).2.2
  have count : (blockCount 0x2000000).toNat = 8192 := by decide
  have counted : (ballocInitialize 0xC0010000 0x2000000 (fun _ => 0)).freeBlocks ≠ 0 := by
    apply inv.free_ne_zero_iff.mpr
    refine ⟨8191, by simp only [total]; decide, fun used => ?_⟩
    have hcap := inv.phantom
    simp only [total, count] at hcap
    have h := (ballocInitialize_used _ _ _ (by omega)).mp used
    rw [mem_initialBlocks] at h
    exact absurd h (by decide)
  have h := (no_phantom_iff 0xC0010000 0x2000000 (fun _ => 0) fits (.cons (.get _) (.nil _))).mpr
    (.cons ⟨counted, .get _⟩ (.nil _))
  have hlt := h.1 _ List.mem_cons_self
  rwa [count] at hlt

/-- Asking for blocks until memory is exhausted always yields the first block past
its end. -/
theorem phantom_reached (kernelEnd memorySz : U32) (memory : Nat → U32)
    (fits : ∀ c ∈ initialBlocks kernelEnd memorySz, c < (blockCount memorySz).toNat) :
    ∃ calls s, Run Step ⟨ballocInitialize kernelEnd memorySz memory, ∅⟩ calls s ∧
      .get (BitVec.ofNat 32 ((blockCount memorySz).toNat * memoryBlockSize)) ∈ calls := by
  have inv := start_bounded memory fits
  have hphantom := inv.phantom
  have htotal := (ballocInitialize_bounds kernelEnd memorySz memory).2.2
  simp only [htotal] at hphantom
  have unused : ¬ (ballocInitialize kernelEnd memorySz memory).Used
      (blockCount memorySz).toNat := by
    intro used
    have := inv.below _ ⟨hphantom, used⟩
    simp only [htotal] at this
    exact lt_irrefl _ this
  obtain ⟨n, hn⟩ := gets_reach (inv.exclusive.kept 0 inv.exclusive.zero) hphantom unused
  obtain ⟨s, hs⟩ := gets_run n ⟨ballocInitialize kernelEnd memorySz memory, ∅⟩
  exact ⟨_, s, hs, List.mem_map_of_mem hn⟩

/-- On a 2 MB machine some run returns the address just past memory. -/
theorem phantom_block_returned :
    (∀ c ∈ initialBlocks 0xC0010000 0x200000, c < (blockCount 0x200000).toNat) ∧
    ∃ calls s, Run Step ⟨ballocInitialize 0xC0010000 0x200000 (fun _ => 0), ∅⟩ calls s ∧
      ∃ r, .get r ∈ calls ∧ ¬ r.toNat < (blockCount 0x200000).toNat * 4096 := by
  have fits : ∀ c ∈ initialBlocks 0xC0010000 0x200000, c < (blockCount 0x200000).toNat :=
    initialBlocks_lt _ _ (by decide)
  obtain ⟨calls, s, run, hmem⟩ := phantom_reached 0xC0010000 0x200000 (fun _ => 0) fits
  exact ⟨fits, calls, s, run, _, hmem, by decide⟩

end PhantomBlocks
