import MissyMicro.BreakCalls
import MissyMicro.HeapRuns

/-!
# The heap over the kernel's own break

`kernel_alloc` with requests of any size, over `kspace_sbrk` as the kernel has it. The
memory that the calls fetch is recorded. As long as no request goes one of the ways
in which the allocator or the break are wrong, the heap behaves as a pool of blocks.
-/

namespace HeapRequests

open LittleEndian LinkedRings KernelHeap BlockPool FreeList HeapGrowth KernelSpace TransitionRuns
open HeapRuns (Allocation System Unused)

/-- The state of the break and the ranges that `kspace_sbrk` has returned. -/
structure Supply where
  kspace : Kspace
  ranges : List Block

/-- A page fault in it would not return; it counts as a failure here. -/
def kernelSbrk : Sbrk Supply := fun e n =>
  match kspaceSbrk e.kspace (BitVec.ofNat 32 n) with
  | none => (sbrkFailed, e)
  | some (ret, kspace) =>
    (ret.toNat, ⟨kspace, if ret.toNat = sbrkFailed then e.ranges else ⟨ret.toNat, n⟩ :: e.ranges⟩)

def breakOf (e : Supply) : Nat := e.kspace.kernelBreak.toNat

/-- The new break neither wraps nor lies in a page below the last one. -/
def AheadBy (e : Supply) (n : Nat) : Prop := Ahead e.kspace ⟨BitVec.ofNat 32 n, 0⟩

/-- What the calls keep of the break. -/
structure Supply.Ready (e : Supply) : Prop where
  cursors : Cursors e.kspace
  start_le : 0xd0000000 ≤ breakOf e

section Fetching

variable {e f : Supply} {n k : Nat}

theorem kernelSbrk_ahead (ready : e.Ready) (pos : 0 < n) (hn : n < 2 ^ 32) (ahead : AheadBy e n) :
    (kernelSbrk e n).2.Ready ∧
      ((kernelSbrk e n).1 = sbrkFailed ∧ breakOf (kernelSbrk e n).2 = breakOf e ∧
          (kernelSbrk e n).2.ranges = e.ranges ∨
        (kernelSbrk e n).1 = breakOf e ∧ (kernelSbrk e n).1 ≠ sbrkFailed ∧
          breakOf (kernelSbrk e n).2 = breakOf e + n ∧ breakOf e + n < 2 ^ 32 ∧
          (kernelSbrk e n).2.ranges = ⟨breakOf e, n⟩ :: e.ranges ∧
          pageOf (kernelSbrk e n).2.kspace.kheapLastPage =
            pageOf (kernelSbrk e n).2.kspace.kernelBreak) := by
  obtain ⟨cursors, hstart⟩ := ready
  have hsum := ahead.moved
  have hinc : (BitVec.ofNat 32 n).toNat = n := toNat_ofNat_of_lt hn
  dsimp only at hsum
  rw [hinc] at hsum
  have hfailed : (0xffffffff : U32).toNat = sbrkFailed := rfl
  cases hbrk : kspaceBrk e.kspace (e.kspace.kernelBreak + BitVec.ofNat 32 n) with
  | none =>
    have hcall : kernelSbrk e n = (sbrkFailed, e) := by
      rw [kernelSbrk, kspaceSbrk, hbrk]
      rfl
    rw [hcall]
    exact ⟨⟨cursors, hstart⟩, Or.inl ⟨rfl, rfl, rfl⟩⟩
  | some p =>
    obtain ⟨result, t⟩ := p
    obtain ⟨cursors', hcases⟩ := cursors.brk hbrk
    have hok : ¬ e.kspace.kernelBreak.toNat = sbrkFailed := by
      have hle := cursors.break_le
      rw [sbrkFailed]
      omega
    rcases hcases with ⟨rfl, hbreak⟩ | ⟨rfl, hpage, hbreak, hlast⟩ | ⟨rfl, behind, rfl⟩
    · have hcall : kernelSbrk e n = (sbrkFailed, ⟨{ t with errno := enomem }, e.ranges⟩) := by
        rw [kernelSbrk, kspaceSbrk, hbrk]
        rfl
      have hsame : breakOf ⟨{ t with errno := enomem }, e.ranges⟩ = breakOf e :=
        congrArg BitVec.toNat hbreak
      rw [hcall]
      refine ⟨⟨⟨cursors'.aligned, cursors'.start_le, cursors'.last_le, cursors'.break_le,
        cursors'.break_page⟩, hsame ▸ hstart⟩, Or.inl ⟨rfl, hsame, rfl⟩⟩
    · have hcall : kernelSbrk e n = (breakOf e, ⟨t, ⟨breakOf e, n⟩ :: e.ranges⟩) := by
        rw [kernelSbrk, kspaceSbrk, hbrk]
        simp only [Option.map_some, ne_eq, not_true_eq_false, if_false, if_neg hok]
        rfl
      have hmoved : breakOf ⟨t, ⟨breakOf e, n⟩ :: e.ranges⟩ = breakOf e + n := by
        rw [breakOf, hbreak]
        exact hsum
      rw [hcall]
      refine ⟨⟨cursors', hmoved ▸ Nat.le_add_right_of_le hstart⟩, Or.inr ⟨rfl, hok, hmoved, ?_, rfl,
        ?_⟩⟩
      · rw [← hmoved]
        exact t.kernelBreak.isLt
      · rw [hbreak]
        exact hlast
    · have hzero := ahead.not_behind cursors.last_le behind
      rw [BitVec.toNat_eq, hinc] at hzero
      exact absurd hzero (Nat.pos_iff_ne_zero.mp pos)

theorem kernelSbrk_fresh (ready : e.Ready) (pos : 0 < n) (hn : n < 2 ^ 32) (ahead : AheadBy e n) :
    FreshAt kernelSbrk breakOf e n := by
  rcases (kernelSbrk_ahead ready pos hn ahead).2 with
    ⟨failed, hsame, _⟩ | ⟨hret, _, hmoved, hlt, _⟩
  · exact Or.inl ⟨failed, hsame⟩
  · exact Or.inr ⟨hret, hmoved, hlt⟩

/-- Whatever the calls do, each of which is ahead. -/
def AheadAlong (e : Supply) (n k : Nat) : Prop :=
  ∀ j f, j < k → Fetches kernelSbrk n e j f → AheadBy f n

/-- The ranges of successful calls lie in a row. -/
theorem fetches_row (pos : 0 < n) (hn : n < 2 ^ 32) (h : Fetches kernelSbrk n e k f)
    (ready : e.Ready) (ahead : AheadAlong e n k) :
    f.Ready ∧ (f.ranges : Multiset Block) = row (breakOf e) n k + e.ranges ∧
      breakOf f = breakOf e + k * n := by
  induction h with
  | nil e =>
    rw [row, zero_add, Nat.zero_mul, Nat.add_zero]
    exact ⟨ready, rfl, rfl⟩
  | @cons e f k ok _ ih =>
    obtain ⟨ready', hcases⟩ := kernelSbrk_ahead ready pos hn (ahead 0 e (Nat.succ_pos k) (.nil e))
    rcases hcases with ⟨failed, _⟩ | ⟨_, _, hmoved, _, hranges, _⟩
    · exact absurd failed ok
    · obtain ⟨readyEnd, hrow, hbreak⟩ := ih ready' fun j g hj hg =>
        ahead (j + 1) g (Nat.succ_lt_succ hj) (.cons ok hg)
      refine ⟨readyEnd, ?_, ?_⟩
      · rw [hrow, hmoved, hranges, row, ← Multiset.cons_coe, Multiset.add_cons, Multiset.cons_add]
      · rw [hbreak, hmoved, Nat.succ_mul, Nat.add_assoc, Nat.add_comm n]

/-- A call that fails after them changes nothing that matters. -/
theorem fails_row (pos : 0 < n) (hn : n < 2 ^ 32) (h : FailsAfter kernelSbrk n e k f)
    (ready : e.Ready) (ahead : AheadAlong e n (k + 1)) :
    f.Ready ∧ (f.ranges : Multiset Block) = row (breakOf e) n k + e.ranges := by
  obtain ⟨g, h, failed, rfl⟩ := h
  obtain ⟨ready', hrow, _⟩ := fetches_row pos hn h ready fun j g hj hg =>
    ahead j g (Nat.lt_succ_of_lt hj) hg
  obtain ⟨readyEnd, ⟨_, _, hsame⟩ | ⟨_, ok, _⟩⟩ :=
    kernelSbrk_ahead ready' pos hn (ahead k g (Nat.lt_succ_self k) h)
  · rw [hsame]
    exact ⟨readyEnd, hrow⟩
  · exact absurd failed ok

/-- After a success the break is in the last page, and small steps stay ahead. -/
theorem small_ahead (hn : n ≤ 0x10000000) (pos : 0 < n) (h : Fetches kernelSbrk n e k f)
    (ready : e.Ready) (ahead : AheadBy e n) : f.Ready ∧ AheadBy f n := by
  induction h with
  | nil e => exact ⟨ready, ahead⟩
  | @cons e f k ok _ ih =>
    obtain ⟨ready', hcases⟩ := kernelSbrk_ahead ready pos (by omega) ahead
    rcases hcases with ⟨failed, _⟩ | ⟨_, _, _, _, _, hlast⟩
    · exact absurd failed ok
    · have hle := ready'.cursors.break_le
      have hinc : (BitVec.ofNat 32 n).toNat = n := toNat_ofNat_of_lt (by omega)
      refine ih ready' (Or.inr ⟨?_, Or.inr ?_⟩)
      · dsimp only
        rw [hinc]
        omega
      · rw [hlast, pageOf]
        exact Nat.div_le_div_right (Nat.le_add_right _ _)

theorem kernelSbrk_last (ready : e.Ready) (n : Nat) :
    pageOf (kernelSbrk e n).2.kspace.kheapLastPage ≤
      max (pageOf e.kspace.kheapLastPage) (pageOf (e.kspace.kernelBreak + BitVec.ofNat 32 n)) := by
  rw [kernelSbrk, kspaceSbrk]
  cases hbrk : kspaceBrk e.kspace (e.kspace.kernelBreak + BitVec.ofNat 32 n) with
  | none => exact le_max_left _ _
  | some result =>
    have hlast := ready.cursors.brk_last hbrk
    rw [Option.map_some]
    by_cases failed : result.1 ≠ 0
    · simp only [if_pos failed]
      exact hlast
    · simp only [if_neg failed]
      exact hlast

/-- A call that fails may have moved the last page, but not past the page that it wanted. -/
theorem kernelSbrk_stays (ready : e.Ready) (pos : 0 < n) (hn : n ≤ 0x10000000)
    (ahead : AheadBy e n) : (kernelSbrk e n).2.Ready ∧ AheadBy (kernelSbrk e n).2 n := by
  obtain ⟨ready', hcases⟩ := kernelSbrk_ahead ready pos (by omega) ahead
  by_cases failed : (kernelSbrk e n).1 = sbrkFailed
  · have hbreak : breakOf (kernelSbrk e n).2 = breakOf e := by
      rcases hcases with ⟨_, hbreak, _⟩ | ⟨_, ok, _⟩
      · exact hbreak
      · exact absurd failed ok
    have hlast := kernelSbrk_last ready n
    have hsum := ahead.moved
    refine ⟨ready', Or.inr ?_⟩
    rcases ahead with hzero | ⟨fits, aheadLast⟩
    · have hinc := congrArg BitVec.toNat hzero
      dsimp only at hinc
      rw [toNat_ofNat_of_lt (by omega)] at hinc
      exact absurd hinc (Nat.pos_iff_ne_zero.mp pos)
    · rw [breakOf, breakOf] at hbreak
      rw [hbreak]
      refine ⟨fits, aheadLast.imp_right fun hle => ?_⟩
      have hpage := congrArg (· / 4096) hsum
      exact hlast.trans (max_le hle hpage.le)
  · exact small_ahead hn pos (.cons failed (.nil _)) ready ahead

end Fetching

inductive Call where
  | alloc (nbytes ret : Nat)
  | free (ptr : Nat)
  | write (addr : Nat) (x : BitVec 8)
  | other

/-- Owners write the bytes of their live blocks, and the rest of the kernel may do anything to
memory outside the heap, page tables and bitmap. -/
inductive Step (base : Nat) : System Supply → Call → System Supply → Prop
  | alloc {s : System Supply} {heap : Heap Supply} {nbytes ret : Nat} : nbytes < 2 ^ 32 →
      Returns (fun fuel => kernelAlloc kernelSbrk base fuel s.heap nbytes) (ret, heap) →
      Step base s (.alloc nbytes ret) ⟨heap, if ret = 0 then s.live else ⟨ret, nbytes⟩ :: s.live⟩
  | free {s : System Supply} {heap : Heap Supply} {a : Allocation} : a ∈ s.live →
      Returns (fun fuel => kernelFree fuel s.heap a.ptr) heap →
      Step base s (.free a.ptr) ⟨heap, s.live.erase a⟩
  | write {s : System Supply} {a : Allocation} {addr : Nat} {x : BitVec 8} : a ∈ s.live →
      a.ptr ≤ addr → addr < a.ptr + a.nbytes →
      Step base s (.write addr x)
        ⟨{ s.heap with mem := Function.update s.heap.mem addr x }, s.live⟩
  | other {s : System Supply} (machine : PageTables.Machine) :
      Step base s .other ⟨{ s.heap with env := { s.heap.env with
        kspace := { s.heap.env.kspace with machine := machine } } }, s.live⟩

/-- No header of the list holds the request. -/
def NoneFits (base : Nat) (s : System Supply) (nbytes : Nat) : Prop :=
  ∀ hdr, OnList (startList base s.heap) hdr → sz (startList base s.heap).mem hdr < nbytes + 8

/-- The request goes none of the ways in which `kernel_alloc` is wrong: its size does not wrap,
no split leaves less than a header, the break really moves, and no fetched block passes a
test of adjacency. -/
structure SoundAlloc (base : Nat) (s : System Supply) (nbytes : Nat) : Prop where
  size : nbytes + 8 < 2 ^ 32
  fits : ∀ hdr, FirstFit (startList base s.heap).mem (startList base s.heap).freeHdr (nbytes + 8)
    hdr → FitsWell (startList base s.heap).mem (nbytes + 8) hdr
  ahead : NoneFits base s nbytes → AheadAlong s.heap.env (fetchSize (nbytes + 8)) 2
  apart : NoneFits base s nbytes →
    FetchesApart kernelSbrk (startList base s.heap) (fetchSize (nbytes + 8))

/-- The freed block passes no test of adjacency. -/
def SoundFree (s : System Supply) (ptr : Nat) : Prop :=
  ∀ hdr, OnList s.heap hdr → Between s.heap.mem (ptr - 8) hdr →
    ¬ Merges s.heap.mem (ptr - 8) (sz s.heap.mem (ptr - 8)) hdr

def Sound (base : Nat) (s : System Supply) : Call → Prop
  | .alloc nbytes _ => SoundAlloc base s nbytes
  | .free ptr => SoundFree s ptr
  | .write _ _ => True
  | .other => True

/-- After `kspace_initialize` and before the first request. -/
structure Started (base : Nat) (s : System Supply) : Prop where
  initialized : ∃ boot, kspaceInitialize boot = some (.ok s.heap.env.kspace)
  ranges : s.heap.env.ranges = []
  freeHdr : s.heap.freeHdr = 0
  live : s.live = []
  base_pos : 0 < base
  base_le : base + 8 ≤ 0xd0000000

/-- The heap holds the blocks of the pool. -/
def Views (base : Nat) (s : System Supply) (p : Pool) : Prop :=
  Unused base (breakOf s.heap.env) s.heap ∧ s.live = [] ∧ p = ⟨0, 0, breakOf s.heap.env⟩ ∨
    ∃ nodes, HeapInv base (breakOf s.heap.env) nodes (s.live.map Allocation.block) s.heap ∧
      p = poolOf s.heap.mem nodes (s.live.map Allocation.block) (breakOf s.heap.env)

section Views

variable {base nbytes : Nat} {s : System Supply} {p : Pool}

theorem startList_env (base : Nat) (h : Heap Supply) : (startList base h).env = h.env := by
  rw [startList]
  split <;> rfl

/-- An allocation begins with a list. -/
theorem Views.started (views : Views base s p) :
    ∃ nodes, HeapInv base (breakOf (startList base s.heap).env) nodes
        (s.live.map Allocation.block) (startList base s.heap) ∧
      p = poolOf (startList base s.heap).mem nodes (s.live.map Allocation.block)
        (breakOf (startList base s.heap).env) := by
  rw [startList_env]
  rcases views with ⟨unused, hlive, rfl⟩ | ⟨nodes, inv, rfl⟩
  · rw [hlive]
    exact ⟨[], unused.start, rfl⟩
  · rw [HeapRuns.startList_of_inv inv]
    exact ⟨nodes, inv, rfl⟩

/-- A request that is sound returns, and does what a pool does. -/
theorem alloc_serves (ready : s.heap.env.Ready) (base_le : base + 8 ≤ 0xd0000000)
    (sound : SoundAlloc base s nbytes) {nodes : List Nat} {live : List Block}
    (inv : HeapInv base (breakOf (startList base s.heap).env) nodes live (startList base s.heap)) :
    ∃ r, Returns (fun fuel => kernelAlloc kernelSbrk base fuel s.heap nbytes) r ∧
      Serves kernelSbrk base breakOf nodes live (startList base s.heap) (nbytes + 8)
        (fetchSize (nbytes + 8)) r := by
  have hsize := sound.size
  have hmod : (nbytes + headerSize) % 2 ^ 32 = nbytes + 8 := by
    rw [headerSize]
    exact Nat.mod_eq_of_lt hsize
  have henv := startList_env base s.heap
  simp only [kernelAlloc, hmod]
  have ahead := sound.ahead
  have apart := sound.apart
  by_cases fits : nbytes + 8 + 8 < 2 ^ 32
  · rw [fetchSize_eq fits] at ahead apart ⊢
    have hmore := moreSize_le (nbytes + 8)
    have hlt : moreSize (nbytes + 8) < 2 ^ 32 := by
      rw [moreSize, minRequestSize]
      omega
    have fresh (none : NoneFits base s nbytes) :
        FreshAt kernelSbrk breakOf (startList base s.heap).env (moreSize (nbytes + 8)) ∧
          ((kernelSbrk (startList base s.heap).env (moreSize (nbytes + 8))).1 ≠ sbrkFailed →
            FreshAt kernelSbrk breakOf
              (kernelSbrk (startList base s.heap).env (moreSize (nbytes + 8))).2
              (moreSize (nbytes + 8))) := by
      rw [henv]
      have first := ahead none 0 _ (by decide) (.nil _)
      refine ⟨kernelSbrk_fresh ready (by omega) hlt first, fun ok => ?_⟩
      exact kernelSbrk_fresh (kernelSbrk_ahead ready (by omega) hlt first).1 (by omega) hlt
        (ahead none 1 _ (by decide) (.cons ok (.nil _)))
    exact alloc_spec inv (Nat.le_add_left 8 nbytes) fits sound.fits fresh apart
  · have large : 2 ^ 32 ≤ nbytes + 8 + 8 := not_lt.mp fits
    have none : NoneFits base s nbytes := fun hdr onList =>
      wrapped_small large inv hdr (inv.onList_iff.mp onList)
    rw [fetchSize_wrapped large hsize] at ahead apart ⊢
    have hmore : moreSize 0 = 1024 := rfl
    have first : AheadBy s.heap.env (moreSize 0) := ahead none 0 _ (by decide) (.nil _)
    have along {k : Nat} {f : Supply}
        (hf : Fetches kernelSbrk (moreSize 0) (startList base s.heap).env k f) :
        f.Ready ∧ AheadBy f (moreSize 0) := by
      rw [henv] at hf
      exact small_ahead (by decide) (by decide) hf ready first
    have fresh : FreshAlong kernelSbrk breakOf (moreSize 0) (startList base s.heap).env :=
      fun k f hf => kernelSbrk_fresh (along hf).1 (by decide) (by decide) (along hf).2
    refine alloc_wrapped large hsize inv fresh (fun k f hf => ?_) (fun ok hdr hmem => ?_)
    · have hlo := (along hf).1.start_le
      have hhi : breakOf f ≤ 0xeffff000 := (along hf).1.cursors.break_le
      rw [headerAdd, headerSize, hmore]
      omega
    · have h := (apart none hdr (inv.onList_iff.mpr hmem) ok).1
      rcases fresh 0 _ (.nil _) with ⟨failed, _⟩ | ⟨hret, _⟩
      · exact absurd failed ok
      · rw [hret] at h
        exact h

/-- The blocks that are free when the search begins head the list. -/
theorem Views.noneFits_iff (views : Views base s p) :
    NoneFits base s nbytes ↔ ∀ b ∈ p.free, b.size < nbytes + 8 := by
  obtain ⟨nodes, inv, rfl⟩ := views.started
  constructor
  · intro none b hb
    obtain ⟨hdr, hmem, rfl⟩ := List.mem_map.mp (Multiset.mem_coe.mp hb)
    exact none hdr (inv.onList_iff.mpr (List.mem_cons_of_mem _ hmem))
  · intro small hdr onList
    rcases List.mem_cons.mp (inv.onList_iff.mp onList) with rfl | hmem
    · rw [inv.baseSz]
      exact Nat.succ_pos _
    · exact small _ (Multiset.mem_coe.mpr (mem_freeBlocks _ hmem))

/-- All calls of a sound request are ahead. -/
theorem SoundAlloc.along (sound : SoundAlloc base s nbytes) (ready : s.heap.env.Ready)
    (none : NoneFits base s nbytes) {k : Nat} (hk : nbytes + 16 < 2 ^ 32 → k ≤ 2) :
    AheadAlong s.heap.env (fetchSize (nbytes + 8)) k := by
  have hsize := sound.size
  have ahead := sound.ahead none
  intro j f hj hf
  by_cases fits : nbytes + 16 < 2 ^ 32
  · exact ahead j f (Nat.lt_of_lt_of_le hj (hk fits)) hf
  · have hsmall : fetchSize (nbytes + 8) = 1024 := fetchSize_wrapped (by omega) (by omega)
    rw [hsmall] at ahead hf ⊢
    exact (small_ahead (by decide) (by decide) hf ready (ahead 0 _ (by decide) (.nil _))).2

/-- What a sound request does to the pool, and the ranges that it fetches. -/
theorem alloc_pool (ready : s.heap.env.Ready) (base_le : base + 8 ≤ 0xd0000000)
    (sound : SoundAlloc base s nbytes) (views : Views base s p) {ret : Nat} {heap : Heap Supply}
    (returns : Returns (fun fuel => kernelAlloc kernelSbrk base fuel s.heap nbytes) (ret, heap)) :
    ∃ k p' f, Allocs (nbytes + 8) (fetchSize (nbytes + 8)) k p p' ∧
      Views base ⟨heap, if ret = 0 then s.live else ⟨ret, nbytes⟩ :: s.live⟩ p' ∧
      heap.env.Ready ∧ (heap.env.ranges : Multiset Block) =
        row p.brk (fetchSize (nbytes + 8)) k + s.heap.env.ranges ∧
      Fetches kernelSbrk (fetchSize (nbytes + 8)) s.heap.env k f := by
  obtain ⟨nodes, inv, hp⟩ := views.started
  obtain ⟨r, returned, serves⟩ := alloc_serves ready base_le sound inv
  obtain rfl := returned.unique returns
  obtain ⟨k, nodes', live', inv', allocs, calls, result⟩ := serves
  have hsize := sound.size
  obtain ⟨hpos, hlt⟩ := fetchSize_pos (nbytes + 8)
  have hbrk : breakOf s.heap.env = p.brk := by
    rw [hp, startList_env]
    rfl
  rw [← hp] at allocs
  rw [startList_env] at calls
  have room (fits : nbytes + 16 < 2 ^ 32) : nbytes + 8 + 8 ≤ fetchSize (nbytes + 8) := by
    rw [fetchSize_eq fits]
    exact (moreSize_le _).1
  have hlive : (poolOf heap.mem nodes' live' (breakOf heap.env)).live = p.live ∨ ret ≠ 0 := by
    rcases result with ⟨_, rfl⟩ | ⟨start, hptr, _⟩
    · rw [hp]
      exact Or.inl rfl
    · dsimp only at hptr
      exact Or.inr (by omega)
  have views' : Views base ⟨heap, if ret = 0 then s.live else ⟨ret, nbytes⟩ :: s.live⟩
      (poolOf heap.mem nodes' live' (breakOf heap.env)) := by
    rcases result with ⟨h0, rfl⟩ | ⟨start, hptr, rfl⟩
    · dsimp only at h0
      rw [if_pos h0]
      exact Or.inr ⟨nodes', inv', rfl⟩
    · dsimp only at hptr
      subst hptr
      rw [if_neg (Nat.succ_ne_zero _)]
      exact Or.inr ⟨nodes', inv', rfl⟩
  rw [← hbrk]
  rcases calls with calls | ⟨h0, g, calls, failed⟩
  · have along : AheadAlong s.heap.env (fetchSize (nbytes + 8)) k := by
      rcases Nat.eq_zero_or_pos k with rfl | hk
      · exact fun j _ hj => absurd hj (Nat.not_lt_zero j)
      · exact sound.along ready (views.noneFits_iff.mpr (allocs.small (Or.inl hk)))
          fun fits => allocs.le_two (room fits)
    obtain ⟨ready', hrow, _⟩ := fetches_row hpos hlt calls ready along
    exact ⟨k, _, heap.env, allocs, views', ready', hrow, calls⟩
  · have hsame := hlive.resolve_right fun hne => hne h0
    have along : AheadAlong s.heap.env (fetchSize (nbytes + 8)) (k + 1) :=
      sound.along ready (views.noneFits_iff.mpr (allocs.small (Or.inr hsame)))
        fun fits => Nat.succ_le_succ (allocs.le_one (room fits) hsame)
    obtain ⟨ready', hrow⟩ := fails_row hpos hlt ⟨g, calls, failed⟩ ready along
    exact ⟨k, _, g, allocs, views', ready', hrow, calls⟩

/-- A sound free gives the block back to the pool. -/
theorem free_pool (views : Views base s p) {a : Allocation} (ha : a ∈ s.live)
    (sound : SoundFree s a.ptr) {heap : Heap Supply}
    (returns : Returns (fun fuel => kernelFree fuel s.heap a.ptr) heap) :
    ∃ live, p.live = a.block ::ₘ live ∧ heap.env = s.heap.env ∧
      Views base ⟨heap, s.live.erase a⟩ ⟨a.block ::ₘ p.free, live, p.brk⟩ := by
  rcases views with ⟨_, hlive, _⟩ | ⟨nodes, inv, rfl⟩
  · rw [hlive] at ha
    exact absurd ha List.not_mem_nil
  · have hperm := (List.perm_cons_erase ha).map Allocation.block
    have inv' := inv.perm_live hperm
    have hstart := inv'.layout.start_le a.block (List.mem_append_right _ List.mem_cons_self)
    have hptr : a.block.start + 8 = a.ptr := by
      rw [Allocation.block] at hstart ⊢
      dsimp only at hstart ⊢
      omega
    have hsz := inv'.header a.block List.mem_cons_self
    obtain ⟨m, q, nodes', _, _, hfree, inv'', _, _, _, _, hblocks⟩ := free_spec inv' (by
      intro hdr hmem between
      have hnot := sound hdr (inv.onList_iff.mpr hmem) between
      rw [← hsz]
      exact hnot)
    rw [hptr] at hfree
    obtain rfl := hfree.unique returns
    refine ⟨(s.live.erase a).map Allocation.block, Multiset.coe_eq_coe.mpr hperm, rfl,
      Or.inr ⟨nodes', inv'', ?_⟩⟩
    rw [poolOf, poolOf, Multiset.coe_eq_coe.mpr hblocks]
    rfl

/-- The bytes of a live block are no headers. -/
theorem write_pool (views : Views base s p) {a : Allocation} (ha : a ∈ s.live) {addr : Nat}
    (hlo : a.ptr ≤ addr) (hhi : addr < a.ptr + a.nbytes) (x : BitVec 8) :
    Views base ⟨{ s.heap with mem := Function.update s.heap.mem addr x }, s.live⟩ p := by
  rcases views with ⟨_, hlive, _⟩ | ⟨nodes, inv, rfl⟩
  · rw [hlive] at ha
    exact absurd ha List.not_mem_nil
  · have hblock := List.mem_map_of_mem (f := Allocation.block) ha
    have hstart := inv.layout.start_le _ (List.mem_append_right _ hblock)
    have hlo' : a.block.start + 8 ≤ addr := by
      rw [Allocation.block] at hstart ⊢
      dsimp only at hstart ⊢
      omega
    have hhi' : addr < a.block.start + a.block.size := by
      rw [Allocation.block] at hstart ⊢
      dsimp only at hstart ⊢
      omega
    refine Or.inr ⟨nodes, inv.write hblock hlo' hhi' x, ?_⟩
    have hfree : freeBlocks (Function.update s.heap.mem addr x) nodes =
        freeBlocks s.heap.mem nodes := freeBlocks_congr fun h hh =>
      (inv.write_fields hblock hlo' hhi' x (Or.inl (List.mem_cons_of_mem _ hh))).2
    rw [poolOf, poolOf, hfree]

end Views

/-- A property of pools and ranges, of the state of the heap. -/
def Held (base : Nat) (J : Multiset Block → Pool → Prop) (s : System Supply) : Prop :=
  s.heap.env.Ready ∧ ∃ p, Views base s p ∧ J s.heap.env.ranges p

section Runs

variable {base : Nat} {J : Multiset Block → Pool → Prop} {s t : System Supply}
  {guard : System Supply → Call → Prop}

theorem Started.held (started : Started base s) (start : J 0 ⟨0, 0, 0xd0000000⟩) :
    Held base J s := by
  obtain ⟨boot, initialized⟩ := started.initialized
  have hbreak : breakOf s.heap.env = 0xd0000000 :=
    congrArg BitVec.toNat (BreakCalls.initialize_break initialized).1
  have hranges : (s.heap.env.ranges : Multiset Block) = 0 := by
    rw [started.ranges]
    rfl
  refine ⟨⟨BreakCalls.initialize_cursors initialized, hbreak.ge⟩, _,
    Or.inl ⟨⟨started.freeHdr, started.base_pos, ?_, ?_⟩, started.live, rfl⟩, ?_⟩
  · rw [hbreak]
    exact started.base_le
  · rw [hbreak]
    decide
  · rw [hranges, hbreak]
    exact start

/-- What every sound request keeps of the pool holds in every state of a run of them. -/
theorem run_held (sound : ∀ s call, guard s call → Sound base s call)
    (alloc : ∀ {s p nbytes ret k p' f}, guard s (.alloc nbytes ret) → Views base s p →
      Allocs (nbytes + 8) (fetchSize (nbytes + 8)) k p p' →
      Fetches kernelSbrk (fetchSize (nbytes + 8)) s.heap.env k f →
      J s.heap.env.ranges p → J (row p.brk (fetchSize (nbytes + 8)) k + s.heap.env.ranges) p')
    (free : ∀ {s p a live}, guard s (.free a.ptr) → a ∈ s.live → Views base s p →
      p.live = a.block ::ₘ live → J s.heap.env.ranges p →
      J s.heap.env.ranges ⟨a.block ::ₘ p.free, live, p.brk⟩)
    (base_le : base + 8 ≤ 0xd0000000) {calls : List Call} (held : Held base J s)
    (run : Run (Guarded guard (Step base)) s calls t) : Held base J t := by
  refine run.invariant (I := Held base J) (fun s call t held h => ?_) held
  obtain ⟨ready, p, views, holds⟩ := held
  obtain ⟨guarded, h⟩ := h
  have sound := sound s call guarded
  cases h with
  | alloc _ returns =>
    obtain ⟨k, p', f, allocs, views', ready', hranges, calls⟩ :=
      alloc_pool ready base_le sound views returns
    refine ⟨ready', p', views', ?_⟩
    dsimp only
    rw [hranges]
    exact alloc guarded views allocs calls holds
  | free ha returns =>
    obtain ⟨live, hlive, henv, views'⟩ := free_pool views ha sound returns
    refine ⟨henv ▸ ready, _, views', ?_⟩
    dsimp only
    rw [henv]
    exact free guarded ha views hlive holds
  | write ha hlo hhi => exact ⟨ready, p, write_pool views ha hlo hhi _, holds⟩
  | other machine =>
    have cursors := ready.cursors
    refine ⟨⟨⟨cursors.aligned, cursors.start_le, cursors.last_le, cursors.break_le,
      cursors.break_page⟩, ready.start_le⟩, p, ?_, holds⟩
    rcases views with ⟨unused, hlive, rfl⟩ | ⟨nodes, inv, rfl⟩
    · exact Or.inl ⟨⟨unused.null, unused.base_pos, unused.base_le, unused.brk_lt⟩, hlive, rfl⟩
    · exact Or.inr ⟨nodes, inv.withEnv _, rfl⟩

end Runs

end HeapRequests
