import MissyMicro.RingHeaps

/-!
# How often an allocation fetches

`morecore` returns the fetched block, and the search goes on behind it, so it comes around to
`free_hdr` once more and fetches again before it takes the first block. Ranges that lie above
the blocks never make a merged block smaller, so the second call is the last one.
-/

namespace AllocCalls

open LittleEndian LinkedRings KernelHeap FreeList HeapGrowth RingHeaps
open HeaderRecords (records)

variable {σ : Type}

/-- `kspace_sbrk` with a count of its calls. -/
def counted (sbrk : Sbrk σ) : Sbrk (σ × Nat) := fun e n =>
  ((sbrk e.1 n).1, (sbrk e.1 n).2, e.2 + 1)

section Counts

variable {sbrk : Sbrk σ} {s : Heap (σ × Nat)} {n prev hdr fuel : Nat}

theorem morecore_env {sbrk : Sbrk σ} {s : Heap σ} {r : Nat × Heap σ}
    (h : morecore sbrk fuel s n = some r) : r.2.env = (sbrk s.env (fetchSize n)).2 := by
  rw [morecore_fetch] at h
  split at h
  · cases h
    rfl
  · obtain ⟨u, free, rfl⟩ := Option.map_eq_some_iff.mp h
    obtain ⟨_, _, rfl⟩ := Option.map_eq_some_iff.mp free
    rfl

theorem morecore_counts {t : Heap (σ × Nat)}
    (h : morecore (counted sbrk) fuel s n = some (hdr, t)) : t.env.2 = s.env.2 + 1 :=
  congrArg Prod.snd (morecore_env h)

/-- A search never takes calls back. -/
theorem findHeader_counts {r : Nat × Heap (σ × Nat)}
    (h : findHeader (counted sbrk) n fuel s prev hdr = some r) : s.env.2 ≤ r.2.env.2 := by
  induction fuel generalizing s prev hdr with
  | zero => cases h
  | succ fuel ih =>
    rw [findHeader] at h
    split at h
    · cases h
      rw [takeHeader]
      split <;> exact le_refl _
    · split at h
      · obtain ⟨⟨hdr, t⟩, more, rest⟩ := Option.bind_eq_some_iff.mp h
        have hcount := morecore_counts more
        dsimp only at rest
        split at rest
        · cases rest
          exact hcount ▸ Nat.le_succ _
        · exact le_trans (hcount ▸ Nat.le_succ _) (ih rest)
      · exact ih h

/-- A search that comes around makes one more call. -/
theorem counts_around {r : Nat × Heap (σ × Nat)} (walks : Walks n s prev)
    (small : sz s.mem s.freeHdr < n) (returns : Returns (searchFrom (counted sbrk) n s prev) r) :
    s.env.2 + 1 ≤ r.2.env.2 := by
  obtain ⟨fuel, hdr, t, more, rest⟩ := walks.wrapped small returns
  rw [← morecore_counts more]
  split at rest
  · cases rest
    exact le_refl _
  · exact findHeader_counts rest

end Counts

/-- `kspace_sbrk` fails, or returns a range above every block of the list, of which each begins
with its header. -/
def FetchAbove (sbrk : Sbrk σ) (s : Heap σ) (nu : Nat) : Prop :=
  (sbrk s.env nu).1 = sbrkFailed ∨
    (∀ h, OnList s h → h + max 8 (sz s.mem h) ≤ (sbrk s.env nu).1) ∧
      (sbrk s.env nu).1 + nu ≤ 2 ^ 32

/-- What a search needs of a successful call: no header of the list reaches into the block. -/
def Beyond (sbrk : Sbrk σ) (s : Heap σ) (hs : List Nat) (nu : Nat) : Prop :=
  (sbrk s.env nu).1 = sbrkFailed ∨
    (∀ h ∈ hs, h + 8 ≤ (sbrk s.env nu).1) ∧ (sbrk s.env nu).1 + 8 < 2 ^ 32

theorem takeHeader_env (s : Heap σ) (q h n : Nat) : (takeHeader s q h n).2.env = s.env := by
  rw [takeHeader]
  split <;> rfl

theorem fetchSize_ge (n : Nat) : 1024 ≤ fetchSize n := by
  rw [fetchSize, minRequestSize]
  split <;> omega

theorem fetchSize_le (n : Nat) : fetchSize n ≤ n + 1024 := by
  have hmod := Nat.mod_le (n + headerSize) (2 ^ 32)
  rw [headerSize] at hmod
  rw [fetchSize, minRequestSize, headerSize]
  split <;> omega

theorem FetchAbove.beyond {sbrk : Sbrk σ} {s : Heap σ} {hs : List Nat} {n : Nat}
    (fetch : FetchAbove sbrk s (fetchSize n)) (heap : RingHeap hs s) :
    Beyond sbrk s hs (fetchSize n) := by
  have hsize := fetchSize_ge n
  rcases fetch with failed | ⟨above, inside⟩
  · exact Or.inl failed
  · refine Or.inr ⟨fun h hh => ?_, ?_⟩
    · have bound := above h (heap.onList_iff.mpr hh)
      omega
    exact Nat.lt_of_lt_of_le (Nat.add_lt_add_left (by omega) _) inside

section OneFetch

variable {sbrk : Sbrk σ} {s s' : Heap (σ × Nat)} {us ws : List Nat} {n prev p blk : Nat}

/-- One call is enough after a fetch exactly when the last header has become big enough. -/
theorem grown_iff (grows : Grows (counted sbrk) n s s' us ws p prev blk) :
    (∃ r, Returns (searchFrom (counted sbrk) n s prev) r ∧ r.2.env.2 ≤ s.env.2 + 1) ↔
      n ≤ sz s'.mem p := by
  have hcount : s'.env.2 = s.env.2 + 1 := by
    rw [grows.env]
    rfl
  constructor
  · rintro ⟨r, returns, calls⟩
    by_contra small
    have more := counts_around grows.walks (by rw [grows.freeHdr]; omega) (grows.goesOn.mp returns)
    omega
  · intro fits
    obtain ⟨q, takes⟩ := grows.takes fits
    refine ⟨_, takes, ?_⟩
    rw [takeHeader_env, hcount]

/-- A search that has come around makes one call if and only if that fails, or the last header
becomes big enough. -/
theorem fetch_iff (heap : RingHeap (us ++ [p]) s) (walks : Walks n s prev)
    (smallFree : sz s.mem s.freeHdr < n) (small : ∀ h ∈ us, sz s.mem h < n)
    (fetch : Beyond (counted sbrk) s (us ++ [p]) (fetchSize n)) :
    (∃ r, Returns (searchFrom (counted sbrk) n s prev) r ∧ r.2.env.2 ≤ s.env.2 + 1) ↔
      (sbrk s.env.1 (fetchSize n)).1 = sbrkFailed ∨
        n ≤ lastSize (records s.mem) (sbrk s.env.1 (fetchSize n)).1 (fetchSize n) (us.headD p) p := by
  by_cases failed : (sbrk s.env.1 (fetchSize n)).1 = sbrkFailed
  · exact iff_of_true ⟨_, walks.fails smallFree failed, le_refl _⟩ (Or.inl failed)
  · obtain ⟨above, inside⟩ := fetch.resolve_left failed
    obtain ⟨s', ws, grows⟩ := heap.grows walks smallFree small failed above inside
    rw [grown_iff grows, or_iff_right failed]
    exact iff_of_eq (congrArg (n ≤ ·) grows.fetched.lastSz)

end OneFetch

/-- No list yet, or a ring from `base`, which has size 0. -/
def Listed (base : Nat) (nodes : List Nat) (s : Heap σ) : Prop :=
  s.freeHdr = 0 ∧ nodes = [] ∨ RingHeap (base :: nodes) s ∧ sz s.mem base = 0

def lastHeader (base : Nat) (nodes : List Nat) : Nat := nodes.getLastD base

theorem headD_of_cut {base p : Nat} {nodes us : List Nat} (cut : base :: nodes = us ++ [p]) :
    us.headD p = base := by
  cases us with
  | nil => exact (List.cons.inj cut).1.symm
  | cons u us => exact (List.cons.inj cut).1.symm

theorem exists_last (base : Nat) (nodes : List Nat) :
    ∃ us, base :: nodes = us ++ [lastHeader base nodes] ∧
      us.headD (lastHeader base nodes) = base := by
  have cut := List.dropLast_append_getLast (List.cons_ne_nil base nodes)
  rw [List.getLast_eq_getLastD] at cut
  exact ⟨(base :: nodes).dropLast, cut.symm, headD_of_cut cut.symm⟩

section Lists

variable {base : Nat} {nodes : List Nat} {s : Heap σ}

theorem startList_ring (base_pos : 0 < base) (base_lt : base < 2 ^ 32)
    (listed : Listed base nodes s) :
    RingHeap (base :: nodes) (startList base s) ∧ sz (startList base s).mem base = 0 ∧
      (startList base s).env = s.env := by
  rcases listed with ⟨null, rfl⟩ | ⟨heap, empty⟩
  · have self : Clear base base := fun hne => absurd rfl hne
    rw [startList, if_pos null]
    refine ⟨⟨⟨base, rfl, ?_⟩, List.pairwise_singleton _ _, List.mem_cons_self⟩, ?_, rfl⟩
    · change next (setSz (setNext s.mem base base) base 0) base = base
      rw [next_setSz self, next_setNext self base_lt, if_pos rfl]
    · rw [sz_setSz self (by decide), if_pos rfl]
  · have notNull : ¬ s.freeHdr = 0 := by
      have hle := head_le (sorted_of_spaced heap.spaced) heap.freeHdr
      omega
    rw [startList, if_neg notNull]
    exact ⟨heap, empty, rfl⟩

end Lists

/-- The size of the free block that holds the first fetched one. -/
def firstBlock (m : Bytes) (p blk nu : Nat) : Nat :=
  if headerAdd p (sz m p) = blk then (sz m p + nu) % 2 ^ 32 else nu

section Merging

variable {m : Bytes} {p a blk nu : Nat}

theorem blockSize_eq (empty : sz m a = 0) (hlt : nu < 2 ^ 32) :
    blockSize (records m) blk nu a = nu := by
  rw [blockSize]
  split
  · rw [records_sz, empty, Nat.add_zero, Nat.mod_eq_of_lt hlt]
  · rfl

theorem lastSize_eq (block : headerAdd p (sz m p) = blk → blockSize (records m) blk nu a = nu) :
    lastSize (records m) blk nu a p =
      if headerAdd p (sz m p) = blk then (sz m p + nu) % 2 ^ 32 else sz m p := by
  rw [lastSize]
  by_cases merges : headerAdd p (sz m p) = blk
  · rw [records_sz, if_pos merges, if_pos merges, block merges]
  · rw [records_sz, if_neg merges, if_neg merges]

end Merging

theorem head_le_last {s : Heap σ} {us : List Nat} {p base : Nat} (heap : RingHeap (us ++ [p]) s)
    (head : us.headD p = base) : base ≤ p := by
  subst head
  cases us with
  | nil => exact le_refl p
  | cons u us =>
    have hlt := (List.pairwise_append.mp heap.spaced).2.2 u List.mem_cons_self p List.mem_cons_self
    exact le_trans (Nat.le_add_right _ _) hlt

section TwoFetches

variable {sbrk : Sbrk σ} {s s' : Heap σ} {us ws : List Nat} {n prev p base blk : Nat}
  (heap : RingHeap (us ++ [p]) s) (grows : Grows sbrk n s s' us ws p prev blk)
  (head : us.headD p = base) (empty : sz s.mem base = 0)
  (above : ∀ h ∈ us ++ [p], h + 8 ≤ blk)

include grows head empty

theorem firstBlock_merged (merges : headerAdd p (sz s.mem p) = blk) :
    sz s'.mem p = firstBlock s.mem p blk (fetchSize n) := by
  have block : blockSize (records s.mem) blk (fetchSize n) (us.headD p) = fetchSize n :=
    blockSize_eq (head ▸ empty) (fetchSize_pos n).2
  have last := grows.fetched.lastSz
  rw [records_sz, lastSize_eq fun _ => block, if_pos merges] at last
  rw [last, firstBlock, if_pos merges]

theorem firstBlock_linked (apart : headerAdd p (sz s.mem p) ≠ blk) :
    sz s'.mem blk = firstBlock s.mem p blk (fetchSize n) ∧ sz s'.mem p = sz s.mem p := by
  have block : blockSize (records s.mem) blk (fetchSize n) (us.headD p) = fetchSize n :=
    blockSize_eq (head ▸ empty) (fetchSize_pos n).2
  have last := grows.fetched.lastSz
  have fetched := grows.fetched.block
  rw [records_sz, lastSize_eq fun _ => block, if_neg apart] at last
  rw [records_sz, block] at fetched
  rw [fetched, last, firstBlock, if_neg apart]
  exact ⟨rfl, rfl⟩

include heap above

/-- Where the block does not swallow `base`, that still has size 0. -/
theorem base_empty : sz s'.mem base = 0 := by
  have mem : base ∈ us ++ [p] := by
    rw [← head]
    cases us with
    | nil => exact List.mem_cons_self
    | cons u us => exact List.mem_cons_self
  rcases List.mem_append.mp mem with hus | hp
  · exact (grows.fetched.same base hus).trans empty
  · obtain rfl := List.mem_singleton.mp hp
    have apart : headerAdd base (sz s.mem base) ≠ blk := by
      have hle := above base mem
      rw [empty, headerAdd, headerSize]
      have hlt := heap.lt mem
      omega
    exact (firstBlock_linked grows head empty apart).2.trans empty

end TwoFetches

/-- A fetched block that is linked behind the last one is found by the search after the next call,
which can make it bigger only. -/
theorem second_call {sbrk : Sbrk σ} {s s' : Heap (σ × Nat)} {us ws : List Nat}
    {n prev p base blk : Nat} (heap : RingHeap (us ++ [p]) s)
    (grows : Grows (counted sbrk) n s s' us ws p prev blk) (head : us.headD p = base)
    (empty : sz s.mem base = 0) (above : ∀ h ∈ us ++ [p], h + 8 ≤ blk) (room : n ≤ fetchSize n)
    (small : ∀ h ∈ us ++ [p], sz s.mem h < n) (apart : headerAdd p (sz s.mem p) ≠ blk)
    (fetch : FetchAbove (counted sbrk) s' (fetchSize n)) :
    ∃ r, Returns (searchFrom (counted sbrk) n s' blk) r ∧ r.2.env.2 ≤ s'.env.2 + 1 := by
  have fetched := grows.fetched
  have heap' := grows.linked heap above apart
  have emptyAfter := base_empty heap grows head empty above
  obtain ⟨size, lastSame⟩ := firstBlock_linked grows head empty apart
  have nu : sz s'.mem blk = fetchSize n := size.trans (if_neg apart)
  have smallFree : sz s'.mem s'.freeHdr < n := by
    rw [grows.freeHdr, lastSame]
    exact small p (List.mem_append_right us List.mem_cons_self)
  have same : ∀ h ∈ ws ++ [p], sz s'.mem h < n := by
    refine List.forall_mem_append.mpr ⟨fun h hh => ?_, List.forall_mem_singleton.mpr ?_⟩
    · have hus := fetched.sublist.subset hh
      have hsz := fetched.same h hus
      rw [records_sz, records_sz] at hsz
      rw [hsz]
      exact small h (List.mem_append_left _ hus)
    · rw [lastSame]
      exact small p (List.mem_append_right us List.mem_cons_self)
  refine (fetch_iff heap' grows.walks smallFree same (fetch.beyond heap')).mpr ?_
  by_cases failed : (sbrk s'.env.1 (fetchSize n)).1 = sbrkFailed
  · exact Or.inl failed
  obtain ⟨aboveList, inside⟩ := fetch.resolve_left failed
  have behind : blk + max 8 (sz s'.mem blk) ≤ (sbrk s'.env.1 (fetchSize n)).1 :=
    aboveList blk (heap'.onList_iff.mpr (List.mem_append_right _ List.mem_cons_self))
  have within : (sbrk s'.env.1 (fetchSize n)).1 + fetchSize n ≤ 2 ^ 32 := inside
  have positive := above p (List.mem_append_right us List.mem_cons_self)
  refine Or.inr ?_
  rw [lastSize_eq, nu]
  · split
    · rw [Nat.mod_eq_of_lt (by omega)]
      omega
    · exact room
  · intro touches
    rw [nu] at touches
    have hbase : base ≤ p := head_le_last heap head
    have all := fetched.all (by omega)
    have begins : (ws ++ [p]).headD blk = base := by
      rw [all, ← head]
      cases us <;> rfl
    rw [begins]
    exact blockSize_eq emptyAfter (fetchSize_pos n).2

section Terminates

variable {sbrk : Sbrk σ} {s : Heap (σ × Nat)} {base nbytes : Nat} {nodes : List Nat}

theorem kernelAlloc_eq (sbrk : Sbrk σ) (s : Heap σ) :
    (fun fuel => kernelAlloc sbrk base fuel s nbytes) = searchFrom sbrk
      ((nbytes + headerSize) % 2 ^ 32) (startList base s) (startList base s).freeHdr := rfl

theorem kernelAlloc_search (sbrk : Sbrk σ) (s : Heap σ) (small : nbytes + 8 < 2 ^ 32) :
    (fun fuel => kernelAlloc sbrk base fuel s nbytes) =
      searchFrom sbrk (nbytes + 8) (startList base s) (startList base s).freeHdr := by
  rw [kernelAlloc_eq, headerSize, Nat.mod_eq_of_lt small]

/-- The search of `kernel_alloc` ends after at most two calls for more memory. -/
theorem kernelAlloc_terminates (base_pos : 0 < base) (base_lt : base < 2 ^ 32)
    (listed : Listed base nodes s) (size : nbytes + 16 < 2 ^ 32)
    (first : FetchAbove (counted sbrk) (startList base s) (fetchSize (nbytes + 8)))
    (second : ∀ r, Returns (fun fuel => morecore (counted sbrk) fuel (startList base s)
        (nbytes + 8)) r → r.1 ≠ 0 → FetchAbove (counted sbrk) r.2 (fetchSize (nbytes + 8))) :
    ∃ r, Returns (fun fuel => kernelAlloc (counted sbrk) base fuel s nbytes) r ∧
      r.2.env.2 ≤ s.env.2 + 2 := by
  obtain ⟨heap, empty, env⟩ := startList_ring base_pos base_lt listed
  obtain ⟨us, cut, head⟩ := exists_last base nodes
  have room : nbytes + 8 ≤ fetchSize (nbytes + 8) := by
    rw [fetchSize_eq (by omega)]
    exact le_trans (Nat.le_add_right _ 8) (moreSize_le _).1
  rw [kernelAlloc_search _ _ (by omega), ← env]
  generalize startList base s = s₀ at *
  generalize lastHeader base nodes = p at *
  rw [cut] at heap
  have hp : p ∈ us ++ [p] := List.mem_append_right us List.mem_cons_self
  rcases heap.search_cases (nbytes + 8) with ⟨q, h, _, hh, fits, takes⟩ | ⟨small, walks⟩
  · refine ⟨_, takes, ?_⟩
    rw [takeHeader_env]
    exact Nat.le_add_right _ 2
  by_cases failed : (sbrk s₀.env.1 (fetchSize (nbytes + 8))).1 = sbrkFailed
  · exact ⟨_, walks.fails (small _ heap.freeHdr) failed, Nat.le_succ _⟩
  obtain ⟨above, inside⟩ := (first.beyond heap).resolve_left failed
  obtain ⟨s', ws, grows⟩ := heap.grows walks (small _ heap.freeHdr)
    (fun h hh => small h (List.mem_append_left _ hh)) failed above inside
  have count : s'.env.2 = s₀.env.2 + 1 := by
    rw [grows.env]
    rfl
  by_cases merges : headerAdd p (sz s₀.mem p) = (sbrk s₀.env.1 (fetchSize (nbytes + 8))).1
  · -- the last block has grown by the fetched one, and no sum of sizes below 4 GB wraps
    obtain ⟨blocks, within⟩ := first.resolve_left failed
    have behind : p + max 8 (sz s₀.mem p) ≤ (sbrk s₀.env.1 (fetchSize (nbytes + 8))).1 :=
      blocks p (heap.onList_iff.mpr hp)
    have below : (sbrk s₀.env.1 (fetchSize (nbytes + 8))).1 + fetchSize (nbytes + 8) ≤ 2 ^ 32 :=
      within
    have positive : base ≤ p := head_le_last heap head
    have enough : nbytes + 8 ≤ sz s'.mem p := by
      have grown := (firstBlock_merged grows head empty merges).trans (if_pos merges)
      rw [grown, Nat.mod_eq_of_lt (by omega)]
      omega
    obtain ⟨q, takes⟩ := grows.takes enough
    refine ⟨_, takes, ?_⟩
    rw [takeHeader_env, count]
    exact Nat.le_succ _
  · have notNull : (sbrk s₀.env.1 (fetchSize (nbytes + 8))).1 ≠ 0 := by
      have behind : p + 8 ≤ (sbrk s₀.env.1 (fetchSize (nbytes + 8))).1 := above p hp
      omega
    have again := second_call heap grows head empty above room small merges
      (second _ grows.more notNull)
    rw [count] at again
    obtain ⟨r, returns, calls⟩ := again
    exact ⟨r, grows.goesOn.mpr returns, calls⟩

end Terminates

/-- Each range begins where the one before it ends. -/
def risingSbrk : Sbrk Nat := fun e n => (0xd0000000 + e, e + n)

def emptyHeap : Heap (Nat × Nat) := ⟨fun _ => 0, 0, 0, 0⟩

/-- Both calls are made, since the search goes on behind the first block. -/
theorem kernelAlloc_terminates_empty :
    ∃ r, Returns (fun fuel => kernelAlloc (counted risingSbrk) 0x1000 fuel emptyHeap 255) r ∧
      r.2.env.2 ≤ 2 := by
  have listed : Listed 0x1000 [] emptyHeap := Or.inl ⟨rfl, rfl⟩
  obtain ⟨heap, empty, env⟩ := startList_ring (by decide) (by decide) listed
  refine kernelAlloc_terminates (by decide) (by decide) listed (by decide) ?_ ?_
  · refine Or.inr ⟨fun h onList => ?_, ?_⟩
    · rw [List.mem_singleton.mp (heap.onList_iff.mp onList), env, empty]
      decide
    · rw [env]
      decide
  · intro r returns _
    generalize startList 0x1000 emptyHeap = s₀ at *
    have ring : RingHeap ([] ++ [0x1000]) s₀ := heap
    have small : ∀ h ∈ [0x1000], sz s₀.mem h < 263 := by
      rw [List.forall_mem_singleton, empty]
      decide
    have walks : Walks 263 s₀ s₀.freeHdr := by
      rcases @RingHeap.search_cases _ (counted risingSbrk) _ _ heap 263 with
        ⟨_, h, _, hh, fits, _⟩ | ⟨_, walks⟩
      · exact absurd (small h hh) (not_lt.mpr fits)
      · exact walks
    have fetched : counted risingSbrk s₀.env (fetchSize 263) = (0xd0000000, (1024, 1)) := by
      rw [env]
      rfl
    obtain ⟨s', ws, grows⟩ := @RingHeap.grows _ (counted risingSbrk) _ _ _ _ _ ring walks
      (small _ heap.freeHdr) (fun h hh => absurd hh List.not_mem_nil)
      (by rw [fetched]; decide) (by rw [fetched]; decide) (by rw [fetched]; decide)
    have after : s'.env = (1024, 1) := by
      rw [grows.env, fetched]
    obtain rfl := returns.unique grows.more
    rw [fetched] at grows
    have apart : headerAdd 0x1000 (sz s₀.mem 0x1000) ≠ 0xd0000000 := by
      rw [empty]
      decide
    obtain ⟨size, same⟩ := firstBlock_linked grows rfl empty apart
    rw [firstBlock, if_neg apart] at size
    have ring' := grows.linked ring (by decide) apart
    obtain rfl : ws = [] := List.sublist_nil.mp grows.fetched.sublist
    refine Or.inr ⟨fun h onList => ?_, ?_⟩
    · rw [after]
      rcases List.mem_cons.mp (ring'.onList_iff.mp onList) with rfl | hh
      · rw [same, empty]
        decide
      · rw [List.mem_singleton.mp hh, size]
        decide
    · rw [after]
      decide

end AllocCalls
