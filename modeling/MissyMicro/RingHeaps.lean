import MissyMicro.HeaderRecords
import MissyMicro.HeapGrowth

/-!
# Fetching into a ring of headers

The headers of the free list form an increasing ring, whatever their sizes are. A block
above them all is linked in behind the last header, or swallowed by it, and the search of
`kernel_alloc` goes on behind the block: it comes past all other headers to the last one.
-/

namespace RingHeaps

open LittleEndian LinkedRings HeaderRecords
open KernelHeap (Heap Sbrk headerAdd headerSize)

/-- The records after a block of `nu` bytes at `n` has been linked in behind `p`. -/
def fetch (m : Headers) (n nu p : Nat) : Headers :=
  linkLower (linkUpper (m.setSz n nu) n p) n p

/-- The size of the block, which swallows the first header `a` where the test says so. -/
def blockSize (m : Headers) (n nu a : Nat) : Nat :=
  if headerAdd n nu = a then (nu + m.sz a) % 2 ^ 32 else nu

/-- The size of the last header, which swallows the block where the test says so. -/
def lastSize (m : Headers) (n nu a p : Nat) : Nat :=
  if headerAdd p (m.sz p) = n then (m.sz p + blockSize m n nu a) % 2 ^ 32 else m.sz p

section Fetch

variable {m : Headers} {a p n nu : Nat} {us : List Nat}

theorem fetch_other {h : Nat} (hp : h ≠ p) (hn : h ≠ n) :
    (fetch m n nu p).next h = m.next h ∧ (fetch m n nu p).sz h = m.sz h := by
  obtain ⟨nextLower, szLower⟩ := @linkLower_other (linkUpper (m.setSz n nu) n p) n p h hp
  obtain ⟨nextUpper, szUpper⟩ := @linkUpper_other (m.setSz n nu) n p h hn
  rw [fetch, nextLower, nextUpper, szLower, szUpper, Headers.next_setSz, Headers.sz_setSz,
    if_neg hn]
  exact ⟨rfl, rfl⟩

section Ends

variable (hpn : p ≠ n) (han : a ≠ n) (hnext : m.next p = a)

include hpn han hnext

theorem fetch_block :
    (fetch m n nu p).next n = (if headerAdd n nu = a then m.next a else a) ∧
      (fetch m n nu p).sz n = blockSize m n nu a := by
  obtain ⟨nextLower, szLower⟩ := @linkLower_other (linkUpper (m.setSz n nu) n p) n p n hpn.symm
  rw [fetch, nextLower, szLower, linkUpper, blockSize]
  by_cases merges : headerAdd n nu = a
  · simp [hnext, merges, han]
  · simp [hnext, merges]

theorem fetch_last :
    (fetch m n nu p).next p =
        (if headerAdd p (m.sz p) = n then (fetch m n nu p).next n else n) ∧
      (fetch m n nu p).sz p = lastSize m n nu a p := by
  obtain ⟨blockNext, blockSz⟩ := @fetch_block _ _ _ _ nu hpn han hnext
  obtain ⟨nextLower, szLower⟩ := @linkLower_other (linkUpper (m.setSz n nu) n p) n p n hpn.symm
  obtain ⟨_, szUpper⟩ := @linkUpper_other (m.setSz n nu) n p p hpn
  rw [Headers.sz_setSz, if_neg hpn] at szUpper
  rw [lastSize, ← blockSz, fetch, nextLower, szLower, linkLower, szUpper]
  by_cases merges : headerAdd p (m.sz p) = n
  · simp [merges]
  · simp [merges, szUpper]

end Ends

/-- The links and sizes afterwards, in a ring that ends with `p`. Where the block swallows the
first header, the list loses it. -/
structure Fetched (m m' : Headers) (a p n nu : Nat) (us ws : List Nat) : Prop where
  sublist : ws.Sublist us
  all : headerAdd n nu ≠ a → ws = us
  path : Path m'.next (m'.next n) ws p
  last : m'.next p = if headerAdd p (m.sz p) = n then m'.next n else n
  block : m'.sz n = blockSize m n nu a
  lastSz : m'.sz p = lastSize m n nu a p
  same : ∀ h ∈ us, m'.sz h = m.sz h

theorem fetch_spec (ring : Ring m.next (us ++ [p])) (head : us.headD p = a)
    (nodup : (us ++ [p]).Nodup) (fresh : n ∉ us ++ [p]) :
    ∃ ws, Fetched m (fetch m n nu p) a p n nu us ws := by
  obtain ⟨before, hnext⟩ := ring.path_end
  rw [head] at before hnext
  have hp : p ∈ us ++ [p] := List.mem_append_right us List.mem_cons_self
  have hpn : p ≠ n := fun heq => fresh (heq ▸ hp)
  have han : a ≠ n := by
    rintro rfl
    exact fresh (hnext ▸ ring.mem_next hp)
  have other {h : Nat} (hh : h ∈ us) :
      (fetch m n nu p).next h = m.next h ∧ (fetch m n nu p).sz h = m.sz h :=
    fetch_other (ne_middle nodup (List.mem_append_left _ hh))
      fun heq => fresh (heq ▸ List.mem_append_left [p] hh)
  obtain ⟨blockNext, block⟩ := @fetch_block _ _ _ _ nu hpn han hnext
  obtain ⟨last, lastSz⟩ := @fetch_last _ _ _ _ nu hpn han hnext
  have links {ws : List Nat} (sublist : ws.Sublist us) (all : headerAdd n nu ≠ a → ws = us)
      (path : Path m.next ((fetch m n nu p).next n) ws p) :
      Fetched m (fetch m n nu p) a p n nu us ws :=
    ⟨sublist, all, path.congr fun h hh => (other (sublist.subset hh)).1, last, block, lastSz,
      fun h hh => (other hh).2⟩
  by_cases merges : headerAdd n nu = a
  · rw [if_pos merges] at blockNext
    cases us with
    | nil =>
      obtain rfl : p = a := head
      refine ⟨[], links (List.Sublist.refl _) (fun h => absurd merges h) ?_⟩
      rw [blockNext, hnext]
      exact rfl
    | cons u us =>
      obtain ⟨rfl, path⟩ := before
      refine ⟨us, links (List.sublist_cons_self _ _) (fun h => absurd merges h) ?_⟩
      rw [blockNext]
      exact path
  · rw [if_neg merges] at blockNext
    refine ⟨us, links (List.Sublist.refl _) (fun _ => rfl) ?_⟩
    rw [blockNext]
    exact before

end Fetch

/-- An increasing ring of headers that are clear of each other, entered at one of them. -/
structure RingHeap {σ : Type} (hs : List Nat) (s : Heap σ) : Prop where
  ring : Ring (KernelHeap.next s.mem) hs
  spaced : hs.Pairwise (fun h h' => h + 8 ≤ h')
  freeHdr : s.freeHdr ∈ hs

instance : Std.Symm KernelHeap.Clear :=
  ⟨fun _ _ clear hne => (clear hne.symm).symm⟩

section Spaced

variable {hs us : List Nat} {p n : Nat}

theorem sorted_of_spaced (spaced : hs.Pairwise (fun h h' => h + 8 ≤ h')) :
    hs.Pairwise (· < ·) := spaced.imp fun h => by omega

theorem clear_of_spaced (spaced : hs.Pairwise (fun h h' => h + 8 ≤ h')) :
    ∀ h ∈ hs, ∀ h' ∈ hs, KernelHeap.Clear h h' := by
  have clear : hs.Pairwise KernelHeap.Clear := spaced.imp fun h _ => Or.inl h
  intro h hh h' hh'
  exact clear.forall_of_forall (fun x _ hne => absurd rfl hne) hh hh'

theorem spaced_append (spaced : hs.Pairwise (fun h h' => h + 8 ≤ h'))
    (above : ∀ h ∈ hs, h + 8 ≤ n) : (hs ++ [n]).Pairwise (fun h h' => h + 8 ≤ h') := by
  refine List.pairwise_append.mpr ⟨spaced, List.pairwise_singleton _ _, fun h hh h' hh' => ?_⟩
  rw [List.mem_singleton.mp hh']
  exact above h hh

end Spaced

section Bytes

variable {σ : Type} {sbrk : Sbrk σ} {s : Heap σ} {us ws : List Nat} {p n : Nat}

/-- The fields of a fetch hold of every memory that holds the records. -/
theorem Fetched.holds {m m' : Headers} {mem : Bytes} {a blk nu : Nat}
    (fetched : Fetched m m' a p blk nu us ws) (holds : Holds mem m' (blk :: (us ++ [p]))) :
    Fetched m (records mem) a p blk nu us ws := by
  have hblk := holds blk List.mem_cons_self
  have hp := holds p (List.mem_cons_of_mem _ (List.mem_append_right _ List.mem_cons_self))
  have hus : ∀ h ∈ us, records mem h = m' h := fun h hh =>
    holds h (List.mem_cons_of_mem _ (List.mem_append_left _ hh))
  obtain ⟨sublist, all, path, last, block, lastSz, same⟩ := fetched
  refine ⟨sublist, all, ?_, ?_, ?_, ?_, fun h hh => ?_⟩
  · rw [Headers.next, hblk]
    exact path.congr fun h hh => congrArg MHeader.next (hus h (sublist.subset hh))
  · rw [Headers.next, Headers.next, hp, hblk]
    exact last
  · rw [Headers.sz, hblk]
    exact block
  · rw [Headers.sz, hp]
    exact lastSz
  · rw [Headers.sz, hus h hh]
    exact same h hh

@[simp] theorem records_next (m : Bytes) : (records m).next = KernelHeap.next m := rfl

@[simp] theorem records_sz (m : Bytes) : (records m).sz = KernelHeap.sz m := rfl

/-- `kernel_free` finds the last header below a block that is above all of them. -/
theorem free_above {r : Headers} {blk f : Nat} (ring : Ring r.next (us ++ [p]))
    (sorted : (us ++ [p]).Pairwise (· < ·)) (hf : f ∈ us ++ [p]) (above : ∀ h ∈ us ++ [p], h < blk) :
    Returns (fun fuel => findBetween r blk fuel f) p := by
  have hp : p ∈ us ++ [p] := List.mem_append_right us List.mem_cons_self
  have hmax : ∀ y ∈ us ++ [p], y ≤ p := by
    intro y hy
    rcases List.mem_append.mp hy with hy | hy
    · exact le_of_lt ((List.pairwise_append.mp sorted).2.2 y hy p List.mem_cons_self)
    · exact le_of_eq (List.mem_singleton.mp hy)
  have fresh : blk ∉ us ++ [p] := fun h => absurd (above blk h) (lt_irrefl _)
  obtain ⟨a, xs, hcons⟩ := List.exists_cons_of_ne_nil (List.ne_nil_of_mem hp)
  rw [hcons] at ring sorted hf above hp hmax fresh
  exact ring.search sorted (above a List.mem_cons_self) fresh hp (above p hp)
    (fun y hy _ => hmax y hy) (fun _ _ between => if_pos between)
    (fun _ _ between => if_neg between) hf

/-- `morecore` links in the block above the ring behind the last header. -/
theorem morecore_ring (heap : RingHeap (us ++ [p]) s) {blk : Nat} {e : σ}
    (call : sbrk s.env (HeapGrowth.fetchSize n) = (blk, e)) (ok : blk ≠ KernelHeap.sbrkFailed)
    (above : ∀ h ∈ us ++ [p], h + 8 ≤ blk) (inside : blk + 8 < 2 ^ 32) :
    ∃ m ws, Returns (fun fuel => KernelHeap.morecore sbrk fuel s n)
        (blk, { mem := m, freeHdr := p, env := e }) ∧
      Fetched (records s.mem) (records m) (us.headD p) p blk (HeapGrowth.fetchSize n) us ws := by
  obtain ⟨ring, spaced, hfree⟩ := heap
  have hlt := (HeapGrowth.fetchSize_pos n).2
  have sorted := sorted_of_spaced spaced
  have fresh : blk ∉ us ++ [p] := fun h => absurd (above blk h) (by omega)
  have clear : ∀ h ∈ blk :: (us ++ [p]), ∀ h' ∈ blk :: (us ++ [p]), KernelHeap.Clear h h' := by
    intro h hh h' hh'
    have perm := List.perm_append_singleton blk (us ++ [p])
    exact clear_of_spaced (spaced_append spaced above) h (perm.mem_iff.mpr hh) h'
      (perm.mem_iff.mpr hh')
  have holds : Holds (KernelHeap.setSz s.mem blk (HeapGrowth.fetchSize n))
      ((records s.mem).setSz blk (HeapGrowth.fetchSize n)) (blk :: (us ++ [p])) :=
    Holds.setSz clear (fun _ _ => rfl) List.mem_cons_self hlt
  have ring' : Ring ((records s.mem).setSz blk (HeapGrowth.fetchSize n)).next (us ++ [p]) :=
    ring.congr fun h _ => Headers.next_setSz _ _ _ _
  have found : Returns (fun fuel => findBetween
      ((records s.mem).setSz blk (HeapGrowth.fetchSize n)) blk fuel s.freeHdr) p :=
    free_above ring' sorted hfree fun h hh =>
      Nat.lt_of_lt_of_le (Nat.lt_add_of_pos_right (by decide)) (above h hh)
  have freed : Returns (fun fuel => kernelFree fuel
      ((records s.mem).setSz blk (HeapGrowth.fetchSize n)) s.freeHdr blk)
      (fetch (records s.mem) blk (HeapGrowth.fetchSize n) p, p) := found.map _
  obtain ⟨fuel, hfuel⟩ := freed
  obtain ⟨m, hbytes, holds'⟩ := kernelFree_records
    (s := { s with mem := KernelHeap.setSz s.mem blk (HeapGrowth.fetchSize n), env := e })
    clear (fun h hh => ring'.mem_next hh) hfree (by omega) holds (hfuel fuel (le_refl fuel))
  obtain ⟨ws, fetched⟩ := @fetch_spec (records s.mem) _ _ _ (HeapGrowth.fetchSize n) _ ring rfl
    (FreeList.nodup_of_sorted sorted) fresh
  refine ⟨m, ws, ?_, fetched.holds holds'⟩
  have hptr : (blk + headerSize) % 2 ^ 32 = blk + 8 := by
    rw [headerSize]
    exact Nat.mod_eq_of_lt inside
  simp only [HeapGrowth.morecore_fetch, call, if_neg ok, hptr]
  exact ((KernelHeap.kernelFree_stable _ _).returns hbytes).map _

end Bytes

section Search

variable {σ : Type} {sbrk : Sbrk σ} {s s' : Heap σ} {us : List Nat} {p n prev blk : Nat}

open KernelHeap HeapGrowth

/-- Behind `prev` the search comes past headers that are too small to `free_hdr`. -/
def Walks (n : Nat) (s : Heap σ) (prev : Nat) : Prop :=
  ∃ xs, Path (KernelHeap.next s.mem) (KernelHeap.next s.mem prev) xs s.freeHdr ∧
    (∀ x ∈ xs, KernelHeap.sz s.mem x < n) ∧ s.freeHdr ∉ xs

/-- The search goes on behind `prev`. -/
def searchFrom (sbrk : Sbrk σ) (n : Nat) (s : Heap σ) (prev fuel : Nat) :
    Option (Nat × Heap σ) :=
  findHeader sbrk n fuel s prev (KernelHeap.next s.mem prev)

theorem Walks.takes (walks : Walks n s prev) (fits : n ≤ KernelHeap.sz s.mem s.freeHdr) :
    ∃ q, Returns (searchFrom sbrk n s prev) (takeHeader s q s.freeHdr n) := by
  obtain ⟨xs, path, small, notFree⟩ := walks
  refine ⟨xs.getLastD prev, findHeader_walk path small notFree ?_⟩
  refine Returns.turn (g := fun _ => some (takeHeader s (xs.getLastD prev) s.freeHdr n))
    (fun fuel => ?_) (.of_eq fun _ => rfl)
  rw [findHeader, if_pos fits]

/-- A search that returned has come to where the path leads. -/
theorem findHeader_unwalk {hdr h fuel : Nat} {xs : List Nat} {r : Nat × Heap σ}
    (path : Path (KernelHeap.next s.mem) hdr xs h) (small : ∀ x ∈ xs, KernelHeap.sz s.mem x < n)
    (notFree : s.freeHdr ∉ xs) (found : findHeader sbrk n fuel s prev hdr = some r) :
    ∃ fuel', findHeader sbrk n fuel' s (xs.getLastD prev) h = some r := by
  induction xs generalizing hdr prev fuel with
  | nil =>
    cases path
    exact ⟨fuel, found⟩
  | cons x xs ih =>
    obtain ⟨rfl, path⟩ := path
    cases fuel with
    | zero => cases found
    | succ fuel =>
      have hsmall : ¬ n ≤ KernelHeap.sz s.mem hdr := not_le.mpr (small hdr List.mem_cons_self)
      have hne : ¬ hdr = s.freeHdr := fun heq => notFree (heq ▸ List.mem_cons_self)
      rw [findHeader, if_neg hsmall, if_neg hne] at found
      rw [List.getLastD_cons]
      exact ih path (fun y hy => small y (List.mem_cons_of_mem _ hy))
        (fun hy => notFree (List.mem_cons_of_mem _ hy)) found

/-- Back at `free_hdr` the search returns what it returns after `morecore`. -/
theorem Walks.wrapped (walks : Walks n s prev) (small : KernelHeap.sz s.mem s.freeHdr < n)
    {r : Nat × Heap σ} (returns : Returns (searchFrom sbrk n s prev) r) :
    ∃ fuel hdr t, morecore sbrk fuel s n = some (hdr, t) ∧
      (if hdr = 0 then some (0, t)
        else findHeader sbrk n fuel t hdr (KernelHeap.next t.mem hdr)) = some r := by
  obtain ⟨xs, path, smallXs, notFree⟩ := walks
  obtain ⟨k, hk⟩ := returns
  obtain ⟨fuel, found⟩ := findHeader_unwalk path smallXs notFree (hk k (le_refl k))
  cases fuel with
  | zero => cases found
  | succ fuel =>
    rw [findHeader, if_neg (not_le.mpr small), if_pos rfl] at found
    obtain ⟨⟨hdr, t⟩, more, rest⟩ := Option.bind_eq_some_iff.mp found
    exact ⟨fuel, hdr, t, more, rest⟩

theorem Walks.fails (walks : Walks n s prev) (small : KernelHeap.sz s.mem s.freeHdr < n)
    (failed : (sbrk s.env (fetchSize n)).1 = sbrkFailed) :
    Returns (searchFrom sbrk n s prev) (0, { s with env := (sbrk s.env (fetchSize n)).2 }) := by
  obtain ⟨xs, path, smallXs, notFree⟩ := walks
  refine findHeader_fails path smallXs notFree small fun fuel => ?_
  rw [morecore_fetch, if_pos failed]

/-- A fetched block sends the search on behind it. -/
theorem Walks.grows_iff (walks : Walks n s prev) (small : KernelHeap.sz s.mem s.freeHdr < n)
    (more : Returns (fun fuel => morecore sbrk fuel s n) (blk, s')) (hblk : blk ≠ 0)
    {r : Nat × Heap σ} :
    Returns (searchFrom sbrk n s prev) r ↔ Returns (searchFrom sbrk n s' blk) r := by
  constructor
  · intro returns
    obtain ⟨fuel, hdr, t, hmore, rest⟩ := walks.wrapped small returns
    obtain ⟨rfl, rfl⟩ := Prod.mk.inj (((morecore_stable _ _ _).returns hmore).unique more)
    rw [if_neg hblk] at rest
    exact (findHeader_stable _ _ _ _ _).returns rest
  · obtain ⟨xs, path, smallXs, notFree⟩ := walks
    intro rest
    refine findHeader_wraps path smallXs notFree small (more.bind ?_)
    simp only [if_neg hblk]
    exact rest

/-- What a fetch above the ring does to a search that has come around. -/
structure Grows (sbrk : Sbrk σ) (n : Nat) (s s' : Heap σ) (us ws : List Nat) (p prev blk : Nat) :
    Prop where
  env : s'.env = (sbrk s.env (fetchSize n)).2
  freeHdr : s'.freeHdr = p
  fetched : Fetched (records s.mem) (records s'.mem) (us.headD p) p blk (fetchSize n) us ws
  more : Returns (fun fuel => morecore sbrk fuel s n) (blk, s')
  goesOn : ∀ {r}, Returns (searchFrom sbrk n s prev) r ↔ Returns (searchFrom sbrk n s' blk) r
  walks : Walks n s' blk

theorem RingHeap.grows (heap : RingHeap (us ++ [p]) s) (walks : Walks n s prev)
    (smallFree : KernelHeap.sz s.mem s.freeHdr < n) (small : ∀ h ∈ us, KernelHeap.sz s.mem h < n)
    (ok : (sbrk s.env (fetchSize n)).1 ≠ sbrkFailed)
    (above : ∀ h ∈ us ++ [p], h + 8 ≤ (sbrk s.env (fetchSize n)).1)
    (inside : (sbrk s.env (fetchSize n)).1 + 8 < 2 ^ 32) :
    ∃ s' ws, Grows sbrk n s s' us ws p prev (sbrk s.env (fetchSize n)).1 := by
  have call : sbrk s.env (fetchSize n) =
      ((sbrk s.env (fetchSize n)).1, (sbrk s.env (fetchSize n)).2) := rfl
  obtain ⟨m, ws, more, fetched⟩ := morecore_ring heap call ok above inside
  have hblk : (sbrk s.env (fetchSize n)).1 ≠ 0 :=
    Nat.pos_iff_ne_zero.mp (Nat.lt_of_lt_of_le (Nat.succ_pos _)
      (above p (List.mem_append_right us List.mem_cons_self)))
  have path := fetched.path
  have same := fetched.same
  rw [records_next] at path
  rw [records_sz, records_sz] at same
  refine ⟨{ mem := m, freeHdr := p, env := (sbrk s.env (fetchSize n)).2 }, ws, rfl, rfl, fetched,
    more, walks.grows_iff smallFree more hblk, ws, path, fun h hh => ?_, fun hp => ?_⟩
  · have hus := fetched.sublist.subset hh
    rw [same h hus]
    exact small h hus
  · have nodup := FreeList.nodup_of_sorted (sorted_of_spaced heap.spaced)
    exact ne_middle nodup (List.mem_append_left _ (fetched.sublist.subset hp)) rfl

/-- A last header that has become big enough is taken, without another call. -/
theorem Grows.takes (grows : Grows sbrk n s s' us ws p prev blk)
    (fits : n ≤ KernelHeap.sz s'.mem p) :
    ∃ q, Returns (searchFrom sbrk n s prev) (takeHeader s' q p n) := by
  have free := grows.freeHdr
  obtain ⟨q, takes⟩ := @Walks.takes _ sbrk _ _ _ grows.walks (free.symm ▸ fits)
  rw [free] at takes
  exact ⟨q, grows.goesOn.mpr takes⟩

/-- The ring ends with `p` as before, into which the block has merged. -/
theorem Grows.merged (grows : Grows sbrk n s s' us ws p prev blk) (heap : RingHeap (us ++ [p]) s)
    (merges : headerAdd p (KernelHeap.sz s.mem p) = blk) : RingHeap (ws ++ [p]) s' := by
  have fetched := grows.fetched
  have sublist : (ws ++ [p]).Sublist (us ++ [p]) := fetched.sublist.append (List.Sublist.refl _)
  refine ⟨⟨_, fetched.path.join ?_⟩, heap.spaced.sublist sublist,
    grows.freeHdr ▸ List.mem_append_right _ List.mem_cons_self⟩
  exact fetched.last.trans (if_pos merges)

/-- The ring ends with the block behind `p`. -/
theorem Grows.linked (grows : Grows sbrk n s s' us ws p prev blk) (heap : RingHeap (us ++ [p]) s)
    (above : ∀ h ∈ us ++ [p], h + 8 ≤ blk) (apart : headerAdd p (KernelHeap.sz s.mem p) ≠ blk) :
    RingHeap (ws ++ [p] ++ [blk]) s' := by
  have fetched := grows.fetched
  have sublist : (ws ++ [p]).Sublist (us ++ [p]) := fetched.sublist.append (List.Sublist.refl _)
  refine ⟨⟨_, Path.join ?_ rfl⟩,
    spaced_append (heap.spaced.sublist sublist) fun h hh => above h (sublist.subset hh),
    grows.freeHdr ▸ List.mem_append_left _ (List.mem_append_right _ List.mem_cons_self)⟩
  exact fetched.path.join (fetched.last.trans (if_neg apart))

/-- The search begins: a header fits, or it comes around. -/
theorem RingHeap.search_cases {hs : List Nat} (heap : RingHeap hs s) (n : Nat) :
    (∃ q h, q ∈ hs ∧ h ∈ hs ∧ n ≤ KernelHeap.sz s.mem h ∧
      Returns (searchFrom sbrk n s s.freeHdr) (takeHeader s q h n)) ∨
    (∀ h ∈ hs, KernelHeap.sz s.mem h < n) ∧ Walks n s s.freeHdr := by
  obtain ⟨ring, spaced, hfree⟩ := heap
  have nodup := FreeList.nodup_of_sorted (sorted_of_spaced spaced)
  rcases ring.find_cases nodup hfree (fun h => n ≤ KernelHeap.sz s.mem h) with
    ⟨xs, h, path, hxs, small, notFree, hmem, fits⟩ | ⟨xs, path, hxs, notFree, none⟩
  · refine Or.inl ⟨xs.getLastD s.freeHdr, h, ?_, hmem, fits,
      findHeader_walk path (fun x hx => not_le.mp (small x hx)) notFree ?_⟩
    · have last : xs.getLastD s.freeHdr ∈ s.freeHdr :: xs := List.getLastD_mem_cons
      rcases List.mem_cons.mp last with first | mem
      · rw [first]
        exact hfree
      · exact hxs _ mem
    refine Returns.turn (g := fun _ => some (takeHeader s (xs.getLastD s.freeHdr) h n))
      (fun fuel => ?_) (.of_eq fun _ => rfl)
    rw [findHeader, if_pos fits]
  · exact Or.inr ⟨fun h hh => not_le.mp (none h hh), xs, path,
      fun x hx => not_le.mp (none x (hxs x hx)), notFree⟩

/-- Every header is some header's link. -/
theorem RingHeap.lt {hs : List Nat} (heap : RingHeap hs s) {h : Nat} (hh : h ∈ hs) :
    h < 2 ^ 32 := by
  obtain ⟨ys, around, _⟩ := heap.ring.rotate hh
  rw [← around.last.1]
  exact KernelHeap.next_lt _ _

theorem RingHeap.onList_iff {hs : List Nat} (heap : RingHeap hs s) {h : Nat} :
    FreeList.OnList s h ↔ h ∈ hs := by
  constructor
  · rintro ⟨k, rfl⟩
    exact heap.ring.mem_iterate heap.freeHdr k
  · exact heap.ring.reaches heap.freeHdr

end Search

end RingHeaps
