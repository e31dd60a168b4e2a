import MissyMicro.AllocCalls
import MissyMicro.HeapShape

/-!
# Requests that extend the heap

Over the kernel's own `kspace_sbrk` the first fetch is the block at the break. The request is
served with it only where it merges into the last header; else the search needs a second
fetch, and returns NULL without it.
-/

namespace HeapExtensions

open LittleEndian LinkedRings KernelHeap FreeList HeapGrowth HeapRequests RingHeaps AllocCalls
open HeapRuns (kernelBase)
open HeapShape (freshSystem tabledKernel tabled_started)

theorem kernelSbrk_cases (e : Supply) (n : Nat) :
    (kernelSbrk e n).1 = sbrkFailed ∨ (kernelSbrk e n).1 = breakOf e := by
  rw [kernelSbrk, KernelSpace.kspaceSbrk]
  cases KernelSpace.kspaceBrk e.kspace (e.kspace.kernelBreak + BitVec.ofNat 32 n) with
  | none => exact Or.inl rfl
  | some result =>
    rw [Option.map_some]
    by_cases failed : result.1 ≠ 0
    · simp only [if_pos failed]
      exact Or.inl rfl
    · simp only [if_neg failed]
      exact Or.inr rfl

/-- The list as an allocation finds it lies below the break, each block with its size. -/
structure Backed {σ : Type} (base : Nat) (nodes : List Nat) (e : Supply) (s : Heap σ) : Prop where
  ready : e.Ready
  listed : Listed base nodes s
  base_pos : 0 < base
  header_le : ∀ h ∈ base :: nodes, h + 8 ≤ breakOf e
  block_le : ∀ h ∈ base :: nodes, h + sz (startList base s).mem h ≤ breakOf e

section Requests

variable {s : Heap (Supply × Nat)} {base nbytes n : Nat} {nodes : List Nat}

/-- A block below the end of memory is not at address 0. -/
theorem takeHeader_ne_zero {σ : Type} {s : Heap σ} {q h : Nat} (header : h + 8 < 2 ^ 32)
    (block : h + (sz s.mem h - n) + 8 < 2 ^ 32) : (takeHeader s q h n).1 ≠ 0 := by
  rw [takeHeader]
  split
  · dsimp only
    rw [headerSize, Nat.mod_eq_of_lt header]
    omega
  · have hlt := sz_lt s.mem h
    have self : Clear h h := fun hne => absurd rfl hne
    have start : h + (sz s.mem h - n) < 2 ^ 32 := by omega
    dsimp only
    rw [sz_setSz self (by omega), if_pos rfl, headerSize, Nat.mod_eq_of_lt start,
      Nat.mod_eq_of_lt block]
    omega

/-- The result is NULL only if no header is big enough afterwards; there is at most one call
for more memory, and if that succeeds the result is not NULL. -/
def OneExtension (base : Nat) (s : Heap (Supply × Nat)) (nbytes : Nat) : Prop :=
  ∃ r, Returns (fun fuel => kernelAlloc (counted kernelSbrk) base fuel s nbytes) r ∧
    (r.1 = 0 → ∀ h, OnList r.2 h → sz r.2.mem h < nbytes + 8) ∧
    r.2.env.2 ≤ s.env.2 + 1 ∧
    (r.2.env.2 = s.env.2 + 1 →
      (kernelSbrk s.env.1 (fetchSize (nbytes + 8))).1 ≠ sbrkFailed → r.1 ≠ 0)

/-- One extension is enough if and only if none is needed, or none succeeds, or it merges into
the last header. -/
theorem kernelAlloc_extends_iff (backed : Backed base nodes s.env.1 s) (small : nbytes + 8 < 2 ^ 32) :
    OneExtension base s nbytes ↔
      (∃ h ∈ base :: nodes, nbytes + 8 ≤ sz (startList base s).mem h) ∨
        (kernelSbrk s.env.1 (fetchSize (nbytes + 8))).1 = sbrkFailed ∨
        headerAdd (lastHeader base nodes) (sz (startList base s).mem (lastHeader base nodes)) =
            breakOf s.env.1 ∧
          nbytes + 8 ≤ (sz (startList base s).mem (lastHeader base nodes) +
            fetchSize (nbytes + 8)) % 2 ^ 32 := by
  obtain ⟨ready, listed, base_pos, header_le, block_le⟩ := backed
  have hbrk : breakOf s.env.1 ≤ 0xeffff000 := ready.cursors.break_le
  have base_le := header_le base List.mem_cons_self
  obtain ⟨heap, empty, env⟩ := startList_ring base_pos (by omega) listed
  obtain ⟨us, cut, head⟩ := exists_last base nodes
  have calls := kernelSbrk_cases s.env.1 (fetchSize (nbytes + 8))
  rw [OneExtension, kernelAlloc_search _ _ small]
  rw [← env] at header_le block_le hbrk calls ⊢
  generalize startList base s = s₀ at *
  generalize lastHeader base nodes = p at *
  rw [cut] at heap header_le block_le ⊢
  rcases @RingHeap.search_cases _ (counted kernelSbrk) _ _ heap (nbytes + 8) with
    ⟨q, h, _, hh, fits, takes⟩ | ⟨tooSmall, walks⟩
  · have hend := block_le h hh
    have hheader := header_le h hh
    have served : (takeHeader s₀ q h (nbytes + 8)).1 ≠ 0 :=
      takeHeader_ne_zero (by omega) (by omega)
    refine iff_of_true ⟨_, takes, fun null => absurd null served, ?_, fun _ _ => served⟩
      (Or.inl ⟨h, hh, fits⟩)
    rw [takeHeader_env]
    exact Nat.le_succ _
  have smallFree := tooSmall _ heap.freeHdr
  have smallUs : ∀ h ∈ us, sz s₀.mem h < nbytes + 8 := fun h hh =>
    tooSmall h (List.mem_append_left _ hh)
  have hp : p ∈ us ++ [p] := List.mem_append_right us List.mem_cons_self
  have none : ¬ ∃ h ∈ us ++ [p], nbytes + 8 ≤ sz s₀.mem h := by
    rintro ⟨h, hh, fits⟩
    exact absurd (tooSmall h hh) (not_lt.mpr fits)
  rw [or_iff_right none]
  by_cases failed : (kernelSbrk s₀.env.1 (fetchSize (nbytes + 8))).1 = sbrkFailed
  · refine iff_of_true ⟨_, walks.fails smallFree failed, fun _ h onList => ?_, le_refl _,
      fun _ ok => absurd failed ok⟩ (Or.inl failed)
    exact tooSmall h (heap.onList_iff.mp onList)
  rw [or_iff_right failed]
  have blk : (counted kernelSbrk s₀.env (fetchSize (nbytes + 8))).1 = breakOf s₀.env.1 :=
    calls.resolve_left failed
  have above : ∀ h ∈ us ++ [p], h + 8 ≤ (counted kernelSbrk s₀.env (fetchSize (nbytes + 8))).1 :=
    fun h hh => le_of_le_of_eq (header_le h hh) blk.symm
  have inside : (counted kernelSbrk s₀.env (fetchSize (nbytes + 8))).1 + 8 < 2 ^ 32 :=
    Nat.lt_of_le_of_lt (Nat.add_le_add_right (blk.le.trans hbrk) 8) (by decide)
  obtain ⟨s', ws, grows⟩ := heap.grows walks smallFree smallUs failed above inside
  rw [blk] at grows
  by_cases merges : headerAdd p (sz s₀.mem p) = breakOf s₀.env.1
  · have size := firstBlock_merged grows head empty merges
    rw [firstBlock, if_pos merges] at size
    rw [and_iff_right merges, ← size]
    constructor
    · rintro ⟨r, returns, _, count, _⟩
      exact (grown_iff grows).mp ⟨r, returns, count⟩
    · intro enough
      obtain ⟨q, takes⟩ := grows.takes enough
      have header := header_le p hp
      have block := block_le p hp
      have added : sz s'.mem p ≤ sz s₀.mem p + fetchSize (nbytes + 8) := by
        rw [size]
        exact Nat.mod_le _ _
      have atMost := fetchSize_le (nbytes + 8)
      have served : (takeHeader s' q p (nbytes + 8)).1 ≠ 0 :=
        takeHeader_ne_zero (by omega) (by omega)
      refine ⟨_, takes, fun null => absurd null served, ?_, fun _ _ => served⟩
      rw [takeHeader_env, grows.env]
      exact le_refl _
  · have size := (firstBlock_linked grows head empty merges).2
    refine iff_of_false ?_ fun grown => merges grown.1
    rintro ⟨r, returns, _, count, _⟩
    have enough := (grown_iff grows).mp ⟨r, returns, count⟩
    rw [size] at enough
    exact absurd enough (not_le.mpr (tooSmall p hp))

end Requests

/-- A ring from `base` below the break, each header with its block. -/
structure OpenList (base : Nat) (nodes : List Nat) (s : Heap Supply) : Prop where
  heap : RingHeap (base :: nodes) s
  empty : sz s.mem base = 0
  ready : s.env.Ready
  ahead : AheadBy s.env 1024
  base_pos : 0 < base
  header_le : ∀ h ∈ base :: nodes, h + 8 ≤ breakOf s.env
  block_le : ∀ h ∈ base :: nodes, h + sz s.mem h ≤ breakOf s.env

/-- No header holds `n` bytes, and the first fetch fails, or the second one does and the first
is not taken for a neighbour of the last header, the one whose link leads back. -/
def Exhausted (n : Nat) (s : Heap Supply) : Prop :=
  (∀ h, OnList s h → sz s.mem h < n) ∧
    ((kernelSbrk s.env 1024).1 = sbrkFailed ∨
      (kernelSbrk (kernelSbrk s.env 1024).2 1024).1 = sbrkFailed ∧
        ∀ h, OnList s h → next s.mem h ≤ h → headerAdd h (sz s.mem h) ≠ breakOf s.env)

section Small

variable {base n p : Nat} {nodes us ws : List Nat} {s s' : Heap Supply}

/-- The last header is the one whose link does not lead upwards. -/
theorem last_iff (heap : RingHeap (us ++ [p]) s) {h : Nat} (hh : h ∈ us ++ [p]) :
    next s.mem h ≤ h ↔ h = p := by
  have hp : p ∈ us ++ [p] := List.mem_append_right us List.mem_cons_self
  obtain ⟨a, xs, cut⟩ := List.exists_cons_of_ne_nil (List.ne_nil_of_mem hp)
  have ring := heap.ring
  have sorted := sorted_of_spaced heap.spaced
  rw [cut] at ring sorted
  obtain ⟨first, hmax⟩ := ring.next_last sorted cut.symm
  constructor
  · intro down
    rcases ring.next_cases sorted (cut ▸ hh) with ⟨up, _⟩ | ⟨_, hall⟩
    · exact absurd up (not_lt.mpr down)
    · exact le_antisymm (hmax h (cut ▸ hh)) (hall p (cut ▸ hp))
  · rintro rfl
    rw [first]
    exact hmax a List.mem_cons_self

/-- A small call of `kspace_sbrk` fails or moves the break. -/
theorem fetch_cases {e : Supply} (ready : e.Ready) (ahead : AheadBy e 1024) :
    ((kernelSbrk e 1024).2.Ready ∧ AheadBy (kernelSbrk e 1024).2 1024) ∧
      ((kernelSbrk e 1024).1 = sbrkFailed ∧ breakOf (kernelSbrk e 1024).2 = breakOf e ∨
        (kernelSbrk e 1024).1 ≠ sbrkFailed ∧ (kernelSbrk e 1024).1 = breakOf e ∧
          breakOf (kernelSbrk e 1024).2 = breakOf e + 1024) := by
  refine ⟨kernelSbrk_stays ready (by decide) (by decide) ahead, ?_⟩
  rcases (kernelSbrk_ahead ready (by decide) (by decide) ahead).2 with
    ⟨failed, same, _⟩ | ⟨blk, ok, moved, _⟩
  · exact Or.inl ⟨failed, same⟩
  · exact Or.inr ⟨ok, blk, moved⟩

theorem OpenList.start (list : OpenList base nodes s) : startList base s = s := by
  have base_pos := list.base_pos
  have hle := head_le (sorted_of_spaced list.heap.spaced) list.heap.freeHdr
  have notNull : ¬ s.freeHdr = 0 := by omega
  rw [startList, if_neg notNull]

theorem OpenList.break_le (list : OpenList base nodes s) : breakOf s.env ≤ 0xeffff000 :=
  list.ready.cursors.break_le

/-- A call that fails leaves the list as it is. -/
theorem OpenList.refused (list : OpenList base nodes s)
    (failed : (kernelSbrk s.env 1024).1 = sbrkFailed) :
    OpenList base nodes { s with env := (kernelSbrk s.env 1024).2 } := by
  obtain ⟨⟨ready, ahead⟩, ⟨_, same⟩ | ⟨ok, _⟩⟩ := fetch_cases list.ready list.ahead
  · obtain ⟨heap, empty, _, _, base_pos, header_le, block_le⟩ := list
    refine ⟨⟨heap.ring, heap.spaced, heap.freeHdr⟩, empty, ?_, ?_, base_pos, ?_, ?_⟩
    · dsimp only
      exact ready
    · dsimp only
      exact ahead
    · rw [same]
      exact header_le
    · rw [same]
      exact block_le
  · exact absurd failed ok

/-- A block that is big enough is handed out. -/
theorem OpenList.takes_ne_zero (list : OpenList base nodes s) {q h : Nat}
    (hh : h ∈ base :: nodes) : (takeHeader s q h n).1 ≠ 0 := by
  have hbrk := list.break_le
  have header := list.header_le h hh
  have block := list.block_le h hh
  exact takeHeader_ne_zero (by omega) (by omega)

/-- What a fetch behind the last header leaves. -/
structure Linked (base : Nat) (nodes : List Nat) (s s' : Heap Supply) : Prop where
  same : ∀ h ∈ base :: nodes, sz s'.mem h = sz s.mem h
  block : sz s'.mem (breakOf s.env) = 1024
  moved : breakOf s'.env = breakOf s.env + 1024
  list : OpenList base (nodes ++ [breakOf s.env]) s'

theorem fetchSize_small (room : n + 8 ≤ 1024) : fetchSize n = 1024 := by
  rw [fetchSize, minRequestSize, headerSize, Nat.mod_eq_of_lt (by omega)]
  split <;> omega

theorem Walks.fails_small {prev : Nat} (room : n + 8 ≤ 1024) (walks : Walks n s prev)
    (smallFree : sz s.mem s.freeHdr < n) (failed : (kernelSbrk s.env 1024).1 = sbrkFailed) :
    Returns (searchFrom kernelSbrk n s prev) (0, { s with env := (kernelSbrk s.env 1024).2 }) := by
  have fails := @Walks.fails _ kernelSbrk _ _ _ walks smallFree
  rw [fetchSize_small room] at fails
  exact fails failed

/-- A fetched block that is not taken for a neighbour of the last header becomes the last one. -/
theorem OpenList.linked (list : OpenList base nodes s) (cut : base :: nodes = us ++ [p])
    {prev : Nat} (grows : Grows kernelSbrk n s s' us ws p prev (breakOf s.env))
    (hsize : fetchSize n = 1024) (apart : headerAdd p (sz s.mem p) ≠ breakOf s.env)
    (ready : s'.env.Ready) (ahead : AheadBy s'.env 1024)
    (moved : breakOf s'.env = breakOf s.env + 1024) : Linked base nodes s s' := by
  have hbrk := list.break_le
  have header_le := list.header_le
  have head := headD_of_cut cut
  obtain ⟨size, same⟩ := firstBlock_linked grows head list.empty apart
  rw [firstBlock, if_neg apart, hsize] at size
  have notBase : headerAdd (breakOf s.env) 1024 ≠ us.headD p := by
    have hbase := header_le base List.mem_cons_self
    rw [head, headerAdd, headerSize, Nat.mod_eq_of_lt (by omega)]
    omega
  have all := grows.fetched.all
  rw [hsize] at all
  obtain rfl := all notBase
  have heap := grows.linked (cut ▸ list.heap) (cut ▸ header_le) apart
  rw [← cut] at heap
  have sizes : ∀ h ∈ base :: nodes, sz s'.mem h = sz s.mem h := by
    rw [cut]
    exact List.forall_mem_append.mpr ⟨grows.fetched.same, List.forall_mem_singleton.mpr same⟩
  have empty := (sizes base List.mem_cons_self).trans list.empty
  refine ⟨sizes, size, moved, heap, empty, ready, ahead, list.base_pos, ?_, ?_⟩
  · rw [moved, ← List.cons_append]
    refine List.forall_mem_append.mpr ⟨fun h hh => ?_, List.forall_mem_singleton.mpr ?_⟩
    · exact Nat.le_add_right_of_le (header_le h hh)
    · exact Nat.add_le_add_left (by decide) _
  · rw [moved, ← List.cons_append]
    refine List.forall_mem_append.mpr ⟨fun h hh => ?_, List.forall_mem_singleton.mpr ?_⟩
    · rw [sizes h hh]
      exact Nat.le_add_right_of_le (list.block_le h hh)
    · exact Nat.add_le_add_left size.le _

/-- A fetch makes the last header bigger or adds one behind it. -/
theorem OpenList.grows (room : n + 8 ≤ 1024) (list : OpenList base nodes s)
    (cut : base :: nodes = us ++ [p]) {prev : Nat} (walks : Walks n s prev)
    (smallFree : sz s.mem s.freeHdr < n) (small : ∀ h ∈ us, sz s.mem h < n)
    (ok : (kernelSbrk s.env 1024).1 ≠ sbrkFailed) :
    ∃ s' ws, Grows kernelSbrk n s s' us ws p prev (breakOf s.env) ∧
      (headerAdd p (sz s.mem p) = breakOf s.env → sz s'.mem p = (sz s.mem p + 1024) % 2 ^ 32) ∧
      (headerAdd p (sz s.mem p) ≠ breakOf s.env → Linked base nodes s s') := by
  have hbrk := list.break_le
  obtain ⟨⟨ready, ahead⟩, ⟨failed, _⟩ | ⟨_, blk, moved⟩⟩ := fetch_cases list.ready list.ahead
  · exact absurd failed ok
  have heap := list.heap
  have above : ∀ h ∈ us ++ [p], h + 8 ≤ (kernelSbrk s.env 1024).1 := by
    rw [blk, ← cut]
    exact list.header_le
  have inside : (kernelSbrk s.env 1024).1 + 8 < 2 ^ 32 := by
    rw [blk]
    omega
  have hsize := fetchSize_small room
  rw [← hsize] at ok above inside
  rw [cut] at heap
  obtain ⟨s', ws, grows⟩ := heap.grows walks smallFree small ok above inside
  have env := grows.env
  rw [hsize] at env
  rw [hsize, blk] at grows
  refine ⟨s', ws, grows, fun merges => ?_, fun apart => ?_⟩
  · have size := firstBlock_merged grows (headD_of_cut cut) list.empty merges
    rw [firstBlock, if_pos merges, hsize] at size
    exact size
  · rw [← env] at ready ahead moved
    exact list.linked cut grows hsize apart ready ahead moved

/-- Behind a block that is linked in, the request is refused exactly where one more call fails. -/
theorem Linked.search (room : n + 8 ≤ 1024) (after : Linked base nodes s s')
    (hbrk : breakOf s.env ≤ 0xeffff000) (walks : Walks n s' (breakOf s.env))
    (freeHdr : s'.freeHdr ∈ base :: nodes) (small : ∀ h ∈ base :: nodes, sz s.mem h < n) :
    ∃ r, Returns (searchFrom kernelSbrk n s' (breakOf s.env)) r ∧
      (r.1 = 0 ↔ (kernelSbrk s'.env 1024).1 = sbrkFailed) ∧
      (r.1 = 0 → ∃ nodes', OpenList base nodes' r.2) := by
  have small' : ∀ h ∈ base :: nodes, sz s'.mem h < n := fun h hh => by
    rw [after.same h hh]
    exact small h hh
  have smallFree := small' _ freeHdr
  by_cases failed : (kernelSbrk s'.env 1024).1 = sbrkFailed
  · exact ⟨_, Walks.fails_small room walks smallFree failed, iff_of_true rfl failed,
      fun _ => ⟨_, after.list.refused failed⟩⟩
  · have cut : base :: (nodes ++ [breakOf s.env]) = base :: nodes ++ [breakOf s.env] := rfl
    obtain ⟨s'', ws, grows, _, linked⟩ := after.list.grows room cut walks smallFree small' failed
    have apart : headerAdd (breakOf s.env) (sz s'.mem (breakOf s.env)) ≠ breakOf s'.env := by
      rw [after.block, after.moved, headerAdd, headerSize, Nat.mod_eq_of_lt (by omega)]
      omega
    have again := linked apart
    have hmem : breakOf s.env ∈ base :: (nodes ++ [breakOf s.env]) :=
      List.mem_append_right (base :: nodes) List.mem_cons_self
    have fits : n ≤ sz s''.mem (breakOf s.env) := by
      rw [again.same _ hmem, after.block]
      omega
    obtain ⟨q, takes⟩ := grows.takes fits
    have served : (takeHeader s'' q (breakOf s.env) n).1 ≠ 0 :=
      again.list.takes_ne_zero (List.mem_append_left _ hmem)
    exact ⟨_, takes, iff_of_false served failed, fun null => absurd null served⟩

/-- The request is refused exactly from a list that is exhausted. -/
theorem OpenList.search (room : n + 8 ≤ 1024) (list : OpenList base nodes s) :
    ∃ r, Returns (searchFrom kernelSbrk n s s.freeHdr) r ∧ (r.1 = 0 ↔ Exhausted n s) ∧
      (r.1 = 0 → ∃ nodes', OpenList base nodes' r.2) := by
  have hbrk := list.break_le
  obtain ⟨us, cut, _⟩ := exists_last base nodes
  generalize lastHeader base nodes = p at cut
  have heap := list.heap
  have onList {h : Nat} := heap.onList_iff (h := h)
  rcases heap.search_cases n with ⟨q, h, _, hh, fits, takes⟩ | ⟨tooSmall, walks⟩
  · have served : (takeHeader s q h n).1 ≠ 0 := list.takes_ne_zero hh
    refine ⟨_, takes, iff_of_false served fun exhausted => ?_, fun null => absurd null served⟩
    exact absurd fits (not_le.mpr (exhausted.1 h (onList.mpr hh)))
  have smallFree := tooSmall _ heap.freeHdr
  have small : ∀ h, OnList s h → sz s.mem h < n := fun h hh => tooSmall h (onList.mp hh)
  by_cases failed : (kernelSbrk s.env 1024).1 = sbrkFailed
  · exact ⟨_, Walks.fails_small room walks smallFree failed,
      iff_of_true rfl ⟨small, Or.inl failed⟩, fun _ => ⟨nodes, list.refused failed⟩⟩
  obtain ⟨s', ws, grows, merged, linked⟩ := list.grows room cut walks smallFree
    (fun h hh => tooSmall h (cut ▸ List.mem_append_left _ hh)) failed
  have hp : p ∈ base :: nodes := cut ▸ List.mem_append_right us List.mem_cons_self
  have exhausted : Exhausted n s ↔ (kernelSbrk s'.env 1024).1 = sbrkFailed ∧
      headerAdd p (sz s.mem p) ≠ breakOf s.env := by
    have env := grows.env
    rw [fetchSize_small room] at env
    rw [Exhausted, and_iff_right small, or_iff_right failed, env]
    refine and_congr_right fun _ => ⟨fun apart => ?_, fun apart h hh back => ?_⟩
    · exact apart p (onList.mpr hp) ((last_iff (cut ▸ heap) (cut ▸ hp)).mpr rfl)
    · rw [(last_iff (cut ▸ heap) (cut ▸ onList.mp hh)).mp back]
      exact apart
  by_cases merges : headerAdd p (sz s.mem p) = breakOf s.env
  · have size := merged merges
    have before := tooSmall p hp
    have header := list.header_le p hp
    have block := list.block_le p hp
    rw [Nat.mod_eq_of_lt (by omega)] at size
    have fits : n ≤ sz s'.mem p := by
      rw [size]
      omega
    obtain ⟨q, takes⟩ := grows.takes fits
    have served : (takeHeader s' q p n).1 ≠ 0 := takeHeader_ne_zero (by omega) (by omega)
    exact ⟨_, takes, iff_of_false served fun h => (exhausted.mp h).2 merges,
      fun null => absurd null served⟩
  obtain ⟨r, returns, second, list'⟩ := (linked merges).search room hbrk grows.walks
    (grows.freeHdr ▸ hp) tooSmall
  refine ⟨r, grows.goesOn.mpr returns, second.trans ?_, list'⟩
  rw [exhausted, and_iff_left merges]

end Small

/-- The heap before the first request, with a count of the calls. -/
def freshHeap (k : KernelSpace.Kspace) : Heap (Supply × Nat) := ⟨fun _ => 0, 0, (⟨k, []⟩, 0)⟩

theorem fresh_backed {k : KernelSpace.Kspace}
    (started : Started kernelBase (freshSystem k)) :
    Backed kernelBase [] ⟨k, []⟩ (freshHeap k) := by
  obtain ⟨ready, hstart, _⟩ := HeapShape.first_break started
  have listed : Listed kernelBase [] (freshHeap k) := Or.inl ⟨rfl, rfl⟩
  obtain ⟨_, empty, _⟩ := startList_ring (by decide) (by decide) listed
  refine ⟨ready, listed, by decide, ?_, ?_⟩
  · rw [List.forall_mem_singleton, hstart]
    decide
  · rw [List.forall_mem_singleton, empty, hstart]
    decide

/-- 512 MiB are refused without a second call. -/
theorem kernelAlloc_extends_refused :
    ∃ k : KernelSpace.Kspace, OneExtension kernelBase (freshHeap k) 0x20000000 := by
  have hrun : (BreakCalls.fromBoot tabledKernel fun k =>
      some (kernelSbrk ⟨k, []⟩ (fetchSize 0x20000008)).1) = some sbrkFailed := by decide +kernel
  obtain ⟨k, started, failed⟩ := tabled_started hrun
  refine ⟨k, (kernelAlloc_extends_iff (fresh_backed started) (by decide)).mpr ?_⟩
  exact Or.inr (Or.inl (Option.some.inj failed))

/-- The first request extends the heap twice. -/
theorem kernelAlloc_extends_twice :
    ∃ k : KernelSpace.Kspace, Backed kernelBase [] ⟨k, []⟩ (freshHeap k) ∧
      ¬ OneExtension kernelBase (freshHeap k) 100 := by
  have hrun : (BreakCalls.fromBoot tabledKernel fun k =>
      (kernelAlloc (counted kernelSbrk) kernelBase 8 (freshHeap k) 100).map fun first =>
        first.2.env.2) = some 2 := by decide +kernel
  obtain ⟨k, started, hrun⟩ := tabled_started hrun
  refine ⟨k, fresh_backed started, ?_⟩
  rintro ⟨r, returns, _, count, _⟩
  obtain ⟨r', found, twice⟩ := Option.map_eq_some_iff.mp hrun
  rw [returns.unique ((kernelAlloc_stable _ _ _ _).returns found), twice] at count
  exact absurd count (show ¬ 2 ≤ 0 + 1 by decide)

end HeapExtensions
