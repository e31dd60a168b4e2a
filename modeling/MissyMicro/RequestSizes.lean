import MissyMicro.HeapExtensions

/-!
# The sizes of requests

The size of a request and its header are added modulo 2^32. Where the sum wraps, less than
eight bytes are looked for, and whatever is returned is smaller than the request. The other
requests get a block of their size in memory from `kspace_sbrk`.
-/

namespace RequestSizes

open LinkedRings KernelHeap BlockPool FreeList HeapGrowth KernelSpace TransitionRuns
open HeapRequests RingHeaps AllocCalls HeapExtensions HeapShape
open HeapRuns (Allocation System kernelBase)

/-- The address lies in a range that `kspace_sbrk` has returned. -/
def Obtained (e : Supply) (a : Nat) : Prop := ∃ r ∈ e.ranges, r.start ≤ a ∧ a < r.start + r.size

/-- The call returns, and its result is NULL, or its header records the size and its bytes have
been obtained. -/
def NeverShrinks (base : Nat) (s : System Supply) (nbytes : Nat) : Prop :=
  ∃ r, Returns (fun fuel => kernelAlloc kernelSbrk base fuel s.heap nbytes) r ∧
    (r.1 ≠ 0 → nbytes + 8 ≤ sz r.2.mem (r.1 - 8) ∧
      ∀ a, r.1 ≤ a → a < r.1 + nbytes → Obtained r.2.env a)

/-- Where no header holds the request, every fetch moves the break, and no fetched block passes a
test of adjacency. -/
structure Steady (base : Nat) (s : System Supply) (nbytes : Nat) : Prop where
  ahead : NoneFits base s nbytes → AheadAlong s.heap.env (fetchSize (nbytes + 8)) 2
  apart : NoneFits base s nbytes →
    FetchesApart kernelSbrk (startList base s.heap) (fetchSize (nbytes + 8))

section Lists

variable {base brk : Nat} {nodes : List Nat} {live : List Block} {s : Heap Supply}

/-- Blocks that are apart have headers that are. -/
theorem ringHeap_of_inv (inv : HeapInv base brk nodes live s) : RingHeap (base :: nodes) s := by
  obtain ⟨layout, ring, sorted, freeHdr, _, _⟩ := inv
  obtain ⟨hbase, hnodes⟩ := List.pairwise_cons.mp sorted
  have blocks := (List.pairwise_append.mp layout.apart).1
  have apart := List.pairwise_map.mp blocks
  refine ⟨ring, List.pairwise_cons.mpr ⟨fun h hh => ?_, ?_⟩, freeHdr⟩
  · exact layout.start_le _ (List.mem_append_left _ (mem_freeBlocks s.mem hh))
  · refine (hnodes.and apart).imp_of_mem fun {h h'} hh hh' both => ?_
    have size := layout.size_le _ (List.mem_append_left _ (mem_freeBlocks s.mem hh))
    have size' := layout.size_le _ (List.mem_append_left _ (mem_freeBlocks s.mem hh'))
    obtain ⟨hlt, hapart⟩ := both
    rw [Block.Apart] at hapart
    dsimp only at hapart size size'
    omega

/-- The block that a header gives up. -/
theorem takeHeader_block {q h n : Nat} (clear : Clear q h) (fits : n ≤ sz s.mem h)
    (inside : h + sz s.mem h + 8 < 2 ^ 32) :
    (takeHeader s q h n).1 = h + (sz s.mem h - n) + 8 ∧
      sz (takeHeader s q h n).2.mem (h + (sz s.mem h - n)) = n := by
  rw [takeHeader]
  split
  · rename_i exactly
    simp only [exactly, Nat.sub_self, Nat.add_zero]
    rw [sz_setNext clear, headerSize, Nat.mod_eq_of_lt (by omega)]
    exact ⟨rfl, exactly⟩
  · have hlt := sz_lt s.mem h
    have self {x : Nat} : Clear x x := fun hne => absurd rfl hne
    have start : h + (sz s.mem h - n) < 2 ^ 32 := by omega
    dsimp only
    rw [sz_setSz self (by omega), if_pos rfl, headerSize, Nat.mod_eq_of_lt start,
      Nat.mod_eq_of_lt (by omega), sz_setSz self (by omega), if_pos rfl]
    exact ⟨rfl, rfl⟩

end Lists

section Requests

variable {base nbytes : Nat} {s t : System Supply}

/-- What a run of sound requests keeps. -/
def Filled (ranges : Multiset Block) (p : Pool) : Prop := Tiled ranges p.brk (p.free + p.live)

theorem run_filled (started : Started base s) {calls : List Call}
    (run : Run (Guarded (Sound base) (Step base)) s calls t) : Held base Filled t := by
  refine run_held (fun _ _ sound => sound) (fun _ _ allocs _ filled => ?_) ?_ started.base_le
    (started.held (Tiled.nil _)) run
  · exact allocs.tiled (fetchSize_pos _).1 filled
  · intro s p a live _ _ _ hlive filled
    rw [Filled, hlive] at filled
    rw [Filled, Multiset.cons_add, ← Multiset.add_cons]
    exact filled

/-- A request that a header holds gets its block from it. -/
theorem fits_neverShrinks (held : Held base Filled t) (small : nbytes + 8 < 2 ^ 32)
    (fits : ¬ NoneFits base t nbytes) : NeverShrinks base t nbytes := by
  obtain ⟨ready, p, views, filled⟩ := held
  obtain ⟨nodes, inv, hp⟩ := views.started
  have heap := ringHeap_of_inv inv
  have env := startList_env base t.heap
  rw [NeverShrinks, kernelAlloc_search _ _ small]
  rcases @RingHeap.search_cases _ kernelSbrk _ _ heap (nbytes + 8) with
    ⟨q, h, hq, hh, enough, takes⟩ | ⟨tooSmall, _⟩
  · have hne : h ≠ base := by
      rintro rfl
      rw [inv.baseSz] at enough
      exact absurd enough (Nat.not_succ_le_zero _)
    have hnode := (List.mem_cons.mp hh).resolve_left hne
    have hblock := mem_freeBlocks (startList base t.heap).mem hnode
    have hend := inv.layout.end_le _ (List.mem_append_left _ hblock)
    have hbrk : breakOf (startList base t.heap).env ≤ 0xeffff000 := by
      rw [env]
      exact ready.cursors.break_le
    dsimp only at hend
    have clear := clear_of_spaced heap.spaced q hq h hh
    obtain ⟨hptr, hsz⟩ := takeHeader_block clear enough (by omega)
    have henv := takeHeader_env (startList base t.heap) q h (nbytes + 8)
    refine ⟨_, takes, fun _ => ?_⟩
    rw [hptr, Nat.add_sub_cancel, hsz]
    refine ⟨le_refl _, fun a low high => ?_⟩
    have hfree : ⟨h, sz (startList base t.heap).mem h⟩ ∈ p.free := by
      rw [hp]
      exact Multiset.mem_coe.mpr hblock
    obtain ⟨r, hr, hlo, hhi⟩ := filled.inside _ (Multiset.mem_add.mpr (Or.inl hfree))
    dsimp only at hlo hhi
    refine ⟨r, ?_, by omega, by omega⟩
    rw [henv, env]
    exact Multiset.mem_coe.mp hr
  · exact absurd (fun h hh => tooSmall h (heap.onList_iff.mp hh)) fits

theorem fetched_neverShrinks (started : Started base s) (held : Held base Filled t)
    (small : nbytes + 8 < 2 ^ 32) (steady : Steady base t nbytes) (none : NoneFits base t nbytes) :
    NeverShrinks base t nbytes := by
  obtain ⟨ready, p, views, filled⟩ := held
  have sound : SoundAlloc base t nbytes := by
    refine ⟨small, fun hdr first => ?_, steady.ahead, steady.apart⟩
    have tooSmall := none hdr first.onList
    obtain ⟨_, _, fits, _⟩ := first
    exact absurd fits (not_le.mpr tooSmall)
  obtain ⟨_, inv, _⟩ := views.started
  obtain ⟨⟨ret, after⟩, returns, _⟩ := alloc_serves ready started.base_le sound inv
  refine ⟨(ret, after), returns, fun notNull => ?_⟩
  obtain ⟨k, p', f, allocs, views', _, hranges, _⟩ :=
    alloc_pool ready started.base_le sound views returns
  rw [if_neg notNull] at views'
  have filled' := allocs.tiled (fetchSize_pos _).1 filled
  obtain ⟨hlive, hptr, hsz, _⟩ := views_live views' List.mem_cons_self
  obtain ⟨r, hr, hlo, hhi⟩ := filled'.inside _ (Multiset.mem_add.mpr (Or.inr hlive))
  rw [Allocation.block] at hsz hlo hhi
  dsimp only at hptr hsz hlo hhi
  rw [hsz]
  refine ⟨le_refl _, fun a low high => ⟨r, ?_, by omega, by omega⟩⟩
  rw [← hranges] at hr
  exact Multiset.mem_coe.mp hr

/-- The list that a small request finds. -/
theorem held_openList (held : Held base Filled t) (ahead : AheadBy t.heap.env 1024) :
    ∃ nodes, OpenList base nodes (startList base t.heap) := by
  obtain ⟨ready, p, views, _⟩ := held
  obtain ⟨nodes, inv, _⟩ := views.started
  have env := startList_env base t.heap
  have layout := inv.layout
  have bounds : ∀ h ∈ nodes, 8 ≤ sz (startList base t.heap).mem h ∧
      h + sz (startList base t.heap).mem h ≤ breakOf (startList base t.heap).env := fun h hh => by
    have hblock := List.mem_append_left (t.live.map Allocation.block)
      (mem_freeBlocks (startList base t.heap).mem hh)
    exact ⟨layout.size_le _ hblock, layout.end_le _ hblock⟩
  refine ⟨nodes, ringHeap_of_inv inv, inv.baseSz, env ▸ ready, env ▸ ahead, layout.base_pos,
    List.forall_mem_cons.mpr ⟨layout.base_le, fun h hh => ?_⟩,
    List.forall_mem_cons.mpr ⟨?_, fun h hh => (bounds h hh).2⟩⟩
  · exact le_trans (Nat.add_le_add_left (bounds h hh).1 h) (bounds h hh).2
  · rw [inv.baseSz]
    exact le_trans (Nat.le_add_right _ _) layout.base_le

/-- A request whose size wraps must be refused. -/
theorem wrapped_neverShrinks_iff (held : Held base Filled t) (hlt : nbytes < 2 ^ 32)
    (wraps : 2 ^ 32 ≤ nbytes + 8) (ahead : AheadBy t.heap.env 1024) :
    NeverShrinks base t nbytes ↔ Exhausted (nbytes + 8 - 2 ^ 32) (startList base t.heap) := by
  have hsize : (nbytes + headerSize) % 2 ^ 32 = nbytes + 8 - 2 ^ 32 := by
    rw [headerSize]
    omega
  obtain ⟨nodes, list⟩ := held_openList held ahead
  obtain ⟨r, searched, null, _⟩ :=
    @OpenList.search _ (nbytes + 8 - 2 ^ 32) _ _ (by omega) list
  rw [NeverShrinks, kernelAlloc_eq, hsize, ← null]
  constructor
  · rintro ⟨r, returns, kept⟩
    obtain rfl := returns.unique searched
    by_contra notNull
    obtain ⟨size, _⟩ := kept notNull
    have hlt := sz_lt r.2.mem (r.1 - 8)
    omega
  · intro refused
    exact ⟨r, searched, fun notNull => absurd refused notNull⟩

/-- In every state that sound requests reach, a request that is steady is never served with less
than it asks for if and only if its size does not wrap, or it is refused. -/
theorem kernelAlloc_neverShrinks_iff (started : Started base s) {calls : List Call}
    (run : Run (Guarded (Sound base) (Step base)) s calls t) (hlt : nbytes < 2 ^ 32)
    (steady : Steady base t nbytes) :
    NeverShrinks base t nbytes ↔
      nbytes + 8 < 2 ^ 32 ∨ Exhausted (nbytes + 8 - 2 ^ 32) (startList base t.heap) := by
  have held := run_filled started run
  by_cases small : nbytes + 8 < 2 ^ 32
  · refine iff_of_true ?_ (Or.inl small)
    by_cases none : NoneFits base t nbytes
    · exact fetched_neverShrinks started held small steady none
    · exact fits_neverShrinks held small none
  · have wraps := not_lt.mp small
    have none : NoneFits base t nbytes := fun hdr _ => lt_of_lt_of_le (sz_lt _ _) wraps
    have hsize : fetchSize (nbytes + 8) = 1024 := by
      rw [fetchSize, minRequestSize, headerSize, if_pos (by omega)]
    have ahead := steady.ahead none 0 _ (by decide) (.nil _)
    rw [hsize] at ahead
    rw [or_iff_right small]
    exact wrapped_neverShrinks_iff held hlt wraps ahead

end Requests

/-- After three requests and a free the list serves another request. -/
theorem kernelAlloc_neverShrinks_again : ∃ (k : Kspace) (t : System Supply),
    Started kernelBase (freshSystem k) ∧
      Run (Step kernelBase) (freshSystem k)
        [.alloc 100 0xd000039c, .alloc 200 0xd00002cc, .alloc 300 0xd0000198, .free 0xd00002cc] t ∧
      NeverShrinks kernelBase t 100 := by
  obtain ⟨k, t, started, run, _, _, serving⟩ := middle_freed
  have some : ¬ NoneFits kernelBase t 100 := by
    rw [NoneFits, serving.startList]
    exact serving.not_none
  exact ⟨k, t, started, run.mono fun _ _ _ h => h.2,
    (kernelAlloc_neverShrinks_iff started (run.mono fun _ _ _ h => ⟨h.1.1, h.2⟩) (by decide)
      ⟨fun none => absurd none some, fun none => absurd none some⟩).mpr (Or.inl (by decide))⟩

/-- The header of a request of 4294967288 bytes is `base` itself. -/
theorem kernelAlloc_shrinks : ∃ k : Kspace, Started kernelBase (freshSystem k) ∧
    ¬ NeverShrinks kernelBase (freshSystem k) 0xfffffff8 := by
  have hrun : (BreakCalls.fromBoot tabledKernel fun k =>
      (kernelAlloc kernelSbrk kernelBase 8 (freshSystem k).heap 0xfffffff8).map fun first =>
        (first.1, sz first.2.mem (first.1 - 8))) = some (kernelBase + 8, 0) := by decide +kernel
  obtain ⟨k, started, hrun⟩ := tabled_started hrun
  obtain ⟨⟨ret, heap⟩, found, hout⟩ := Option.map_eq_some_iff.mp hrun
  obtain ⟨hret, hsz⟩ := Prod.mk.inj hout
  refine ⟨k, started, ?_⟩
  rintro ⟨r, returns, kept⟩
  obtain rfl := returns.unique ((kernelAlloc_stable _ _ _ _).returns found)
  have notNull : ret ≠ 0 := by
    dsimp only at hret
    rw [hret]
    decide
  obtain ⟨size, _⟩ := kept notNull
  dsimp only at hsz
  rw [hsz] at size
  exact absurd size (by decide)

end RequestSizes
