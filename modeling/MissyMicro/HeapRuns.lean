import MissyMicro.HeapGrowth
import MissyMicro.TransitionRuns

/-!
# Runs of the kernel heap

Between the calls the owners of live blocks write their bytes. Two tests of the
allocator go wrong on some sizes: a split can leave less than a header, and
`kernel_free` counts sizes in headers when it looks for neighbours. Without those
steps, live blocks and free blocks never meet.
-/

namespace HeapRuns

open LittleEndian LinkedRings KernelHeap FreeList HeapGrowth TransitionRuns

/-- The result of a `kernel_alloc` that has not been freed. -/
structure Allocation where
  ptr : Nat
  nbytes : Nat
  deriving DecidableEq

/-- The header and the payload. -/
def Allocation.block (a : Allocation) : Block := ⟨a.ptr - 8, a.nbytes + 8⟩

def Allocation.Holds (a : Allocation) (addr : Nat) : Prop :=
  a.ptr - 8 ≤ addr ∧ addr < a.ptr + a.nbytes

structure System (σ : Type) where
  heap : Heap σ
  live : List Allocation

inductive Call where
  | alloc (nbytes ret : Nat)
  | free (ptr : Nat)
  | write (addr : Nat) (x : BitVec 8)

variable {σ : Type}

inductive Step (sbrk : Sbrk σ) (base : Nat) : System σ → Call → System σ → Prop
  | alloc {s : System σ} {heap : Heap σ} {nbytes ret : Nat} : nbytes + 16 < 2 ^ 32 →
      Returns (fun fuel => kernelAlloc sbrk base fuel s.heap nbytes) (ret, heap) →
      Step sbrk base s (.alloc nbytes ret)
        ⟨heap, if ret = 0 then s.live else ⟨ret, nbytes⟩ :: s.live⟩
  | free {s : System σ} {heap : Heap σ} {a : Allocation} : a ∈ s.live →
      Returns (fun fuel => kernelFree fuel s.heap a.ptr) heap →
      Step sbrk base s (.free a.ptr) ⟨heap, s.live.erase a⟩
  | write {s : System σ} {a : Allocation} {addr : Nat} {x : BitVec 8} : a ∈ s.live →
      a.ptr ≤ addr → addr < a.ptr + a.nbytes →
      Step sbrk base s (.write addr x)
        ⟨{ s.heap with mem := Function.update s.heap.mem addr x }, s.live⟩

/-- The call takes no block that would leave less than a header, and no block passes a test of
adjacency. -/
def Clean (sbrk : Sbrk σ) (base : Nat) (s : System σ) : Call → Prop
  | .alloc nbytes _ =>
    (∀ hdr, FirstFit (startList base s.heap).mem (startList base s.heap).freeHdr (nbytes + 8) hdr →
      FitsWell (startList base s.heap).mem (nbytes + 8) hdr) ∧
    ((∀ hdr, OnList (startList base s.heap) hdr →
        sz (startList base s.heap).mem hdr < nbytes + 8) →
      FetchesApart sbrk (startList base s.heap) (moreSize (nbytes + 8)))
  | .free ptr =>
    ∀ hdr, OnList s.heap hdr → Between s.heap.mem (ptr - 8) hdr →
      ¬ Merges s.heap.mem (ptr - 8) (sz s.heap.mem (ptr - 8)) hdr
  | .write _ _ => True

/-- Live allocations do not meet each other or a free block. -/
structure Exclusive (s : System σ) : Prop where
  live : s.live.Pairwise fun a b => ∀ addr, a.Holds addr → ¬ b.Holds addr
  free : ∀ a ∈ s.live, ∀ hdr, OnList s.heap hdr → ∀ addr, a.Holds addr →
    ¬ (hdr ≤ addr ∧ addr < hdr + sz s.heap.mem hdr)

/-- No list exists yet, and `base` lies below the break. -/
structure Unused (base brk : Nat) (s : Heap σ) : Prop where
  null : s.freeHdr = 0
  base_pos : 0 < base
  base_le : base + 8 ≤ brk
  brk_lt : brk < 2 ^ 32

def Inv (base : Nat) (brkOf : σ → Nat) (s : System σ) : Prop :=
  Unused base (brkOf s.heap.env) s.heap ∧ s.live = [] ∨
    ∃ nodes, HeapInv base (brkOf s.heap.env) nodes (s.live.map Allocation.block) s.heap

section Inv

variable {sbrk : Sbrk σ} {brkOf : σ → Nat} {base brk : Nat} {nodes : List Nat}
  {live : List Block} {s t : System σ}

theorem Unused.start {heap : Heap σ} (unused : Unused base brk heap) :
    HeapInv base brk [] [] (startList base heap) := by
  have hself : Clear base base := fun h => absurd rfl h
  have hlt : base < 2 ^ 32 := by
    have hle := unused.base_le
    have hbrk := unused.brk_lt
    omega
  have hnext : next (setSz (setNext heap.mem base base) base 0) base = base := by
    rw [next_setSz hself, next_setNext hself hlt, if_pos rfl]
  have hsz : sz (setSz (setNext heap.mem base base) base 0) base = 0 := by
    rw [sz_setSz hself (by decide), if_pos rfl]
  rw [startList, if_pos unused.null]
  refine ⟨⟨unused.base_pos, unused.base_le, unused.brk_lt, ?_, ?_, ?_, .nil⟩,
    ⟨base, rfl, hnext⟩, List.pairwise_singleton _ _, List.mem_cons_self, hsz, ?_⟩
  all_goals exact fun b hb => absurd hb List.not_mem_nil

theorem freeHdr_ne {heap : Heap σ} (inv : HeapInv base brk nodes live heap) :
    heap.freeHdr ≠ 0 := by
  have hpos := inv.layout.base_pos
  intro h0
  rcases List.mem_cons.mp inv.freeHdr with heq | hmem
  · omega
  · have hlt := (List.pairwise_cons.mp inv.sorted).1 _ hmem
    omega

theorem startList_of_inv {heap : Heap σ} (inv : HeapInv base brk nodes live heap) :
    startList base heap = heap := by
  rw [startList, if_neg (freeHdr_ne inv)]

/-- An allocation begins with a list. -/
theorem Inv.started (inv : Inv base brkOf s) :
    ∃ nodes, HeapInv base (brkOf (startList base s.heap).env) nodes
      (s.live.map Allocation.block) (startList base s.heap) := by
  rcases inv with ⟨unused, hlive⟩ | ⟨nodes, inv⟩
  · have henv : (startList base s.heap).env = s.heap.env := by
      rw [startList, if_pos unused.null]
    rw [hlive, henv]
    exact ⟨[], unused.start⟩
  · rw [startList_of_inv inv]
    exact ⟨nodes, inv⟩

/-- What a call of `kernel_alloc` that is not of the two kinds does. -/
theorem alloc_returns (fresh : FreshSbrk sbrk brkOf) (inv : Inv base brkOf s) {nbytes ret : Nat}
    (hlt : nbytes + 16 < 2 ^ 32) (clean : Clean sbrk base s (.alloc nbytes ret)) :
    ∃ r, Returns (fun fuel => kernelAlloc sbrk base fuel s.heap nbytes) r ∧
      Allocated base brkOf (s.live.map Allocation.block) (nbytes + 8) r := by
  obtain ⟨nodes, started⟩ := inv.started
  have hsize : (nbytes + headerSize) % 2 ^ 32 = nbytes + 8 := by
    rw [headerSize]
    omega
  obtain ⟨r, hr, serves⟩ := alloc_spec started (show 8 ≤ nbytes + 8 by omega)
    (show nbytes + 8 + 8 < 2 ^ 32 by omega) clean.1
    (fun _ => ⟨fresh.cases _ _, fun _ => fresh.cases _ _⟩) clean.2
  refine ⟨r, ?_, serves.allocated⟩
  simp only [kernelAlloc, hsize]
  exact hr

theorem free_returns (inv : Inv base brkOf s) {a : Allocation} (ha : a ∈ s.live)
    (clean : Clean sbrk base s (.free a.ptr)) :
    ∃ heap nodes, Returns (fun fuel => kernelFree fuel s.heap a.ptr) heap ∧
      HeapInv base (brkOf heap.env) nodes ((s.live.erase a).map Allocation.block) heap := by
  rcases inv with ⟨_, hlive⟩ | ⟨nodes, inv⟩
  · rw [hlive] at ha
    exact absurd ha List.not_mem_nil
  · have inv' := inv.perm_live ((List.perm_cons_erase ha).map Allocation.block)
    have hstart := inv'.layout.start_le a.block
      (List.mem_append_right _ List.mem_cons_self)
    have hptr : a.block.start + 8 = a.ptr := by
      rw [Allocation.block] at hstart ⊢
      dsimp only at hstart ⊢
      omega
    have hsz := inv'.header a.block List.mem_cons_self
    obtain ⟨m, p, nodes', _, _, returns, inv'', _⟩ := free_spec inv' (by
      intro hdr hmem between
      have hnot := clean hdr (inv.onList_iff.mpr hmem) between
      rw [← hsz]
      exact hnot)
    rw [hptr] at returns
    exact ⟨_, nodes', returns, inv''⟩

theorem step_inv (fresh : FreshSbrk sbrk brkOf) (inv : Inv base brkOf s) {call : Call}
    (h : Guarded (Clean sbrk base) (Step sbrk base) s call t) : Inv base brkOf t := by
  obtain ⟨clean, h⟩ := h
  cases h with
  | alloc hlt returns =>
    obtain ⟨r, hr, allocated⟩ := alloc_returns fresh inv hlt clean
    obtain rfl := hr.unique returns
    rcases allocated with ⟨h0, nodes, inv'⟩ | ⟨start, nodes, hptr, inv'⟩
    · dsimp only at h0 inv'
      rw [if_pos h0]
      exact Or.inr ⟨nodes, inv'⟩
    · dsimp only at hptr inv'
      subst hptr
      rw [if_neg (Nat.succ_ne_zero _)]
      exact Or.inr ⟨nodes, inv'⟩
  | free ha returns =>
    obtain ⟨heap, nodes, hr, inv'⟩ := free_returns inv ha clean
    obtain rfl := hr.unique returns
    exact Or.inr ⟨nodes, inv'⟩
  | write ha hlo hhi =>
    rcases inv with ⟨_, hlive⟩ | ⟨nodes, inv⟩
    · rw [hlive] at ha
      exact absurd ha List.not_mem_nil
    · have hblock := List.mem_map_of_mem (f := Allocation.block) ha
      have hstart := inv.layout.start_le _ (List.mem_append_right _ hblock)
      refine Or.inr ⟨nodes, inv.write hblock ?_ ?_ _⟩
      · rw [Allocation.block] at hstart ⊢
        dsimp only at hstart ⊢
        omega
      · rw [Allocation.block] at hstart ⊢
        dsimp only at hstart ⊢
        omega

theorem run_inv (fresh : FreshSbrk sbrk brkOf) (inv : Inv base brkOf s) {calls : List Call}
    (run : Run (Guarded (Clean sbrk base) (Step sbrk base)) s calls t) : Inv base brkOf t :=
  run.invariant (I := Inv base brkOf) (fun _ _ _ inv h => step_inv fresh inv h) inv

theorem Allocation.disjoint {a : Allocation} {b : Block} (hptr : 8 ≤ a.ptr)
    (h : a.block.Apart b) {addr : Nat} (ha : a.Holds addr) :
    ¬ (b.start ≤ addr ∧ addr < b.start + b.size) := by
  rw [Block.Apart, Allocation.block] at h
  rw [Allocation.Holds] at ha
  dsimp only at h
  omega

/-- Blocks that are apart hold no byte in common. -/
theorem Inv.exclusive (inv : Inv base brkOf s) : Exclusive s := by
  rcases inv with ⟨_, hlive⟩ | ⟨nodes, inv⟩
  · refine ⟨?_, fun a ha => ?_⟩
    · rw [hlive]
      exact .nil
    · rw [hlive] at ha
      exact absurd ha List.not_mem_nil
  · obtain ⟨_, hlive, hcross⟩ := List.pairwise_append.mp inv.layout.apart
    have hptr {a : Allocation} (ha : a ∈ s.live) : 8 ≤ a.ptr := by
      have hstart := inv.layout.start_le _
        (List.mem_append_right _ (List.mem_map_of_mem (f := Allocation.block) ha))
      rw [Allocation.block] at hstart
      dsimp only at hstart
      omega
    constructor
    · refine (List.pairwise_map.mp hlive).imp_of_mem fun {a b} ha hb h addr hold hold' => ?_
      refine a.disjoint (hptr ha) h hold ?_
      have hle := hptr hb
      rw [Allocation.Holds] at hold'
      rw [Allocation.block]
      dsimp only
      omega
    · intro a ha hdr hmem addr hold
      rcases List.mem_cons.mp (inv.onList_iff.mp hmem) with rfl | hnode
      · rw [inv.baseSz]
        omega
      · have happart := hcross _ (List.mem_map_of_mem hnode) _ (List.mem_map_of_mem ha)
        exact a.disjoint (hptr ha) happart.symm hold

end Inv

/-- In every run whose calls are clean, live allocations and free blocks do not meet, and
every clean call returns. -/
theorem heap_exclusive {sbrk : Sbrk σ} {brkOf : σ → Nat} (fresh : FreshSbrk sbrk brkOf)
    {base : Nat} {heap : Heap σ} (unused : Unused base (brkOf heap.env) heap)
    {calls : List Call} {t : System σ}
    (run : Run (Guarded (Clean sbrk base) (Step sbrk base)) ⟨heap, []⟩ calls t) :
    Exclusive t ∧
      (∀ nbytes, nbytes + 16 < 2 ^ 32 → Clean sbrk base t (.alloc nbytes 0) →
        ∃ ret u, Step sbrk base t (.alloc nbytes ret) u) ∧
      ∀ a ∈ t.live, Clean sbrk base t (.free a.ptr) → ∃ u, Step sbrk base t (.free a.ptr) u := by
  have inv : Inv base brkOf t := run_inv fresh (Or.inl ⟨unused, rfl⟩) run
  refine ⟨inv.exclusive, ?_, ?_⟩
  · intro nbytes hlt clean
    obtain ⟨⟨ret, heap'⟩, hr, _⟩ := alloc_returns fresh inv hlt clean
    exact ⟨ret, _, .alloc hlt hr⟩
  · intro a ha clean
    obtain ⟨heap', _, hr, _⟩ := free_returns inv ha clean
    exact ⟨_, .free ha hr⟩

/-- An address space that grows upwards from its break. -/
def bumpBreak : Sbrk Nat := fun brk n =>
  if brk + n < 2 ^ 32 then (brk, brk + n) else (sbrkFailed, brk)

theorem bumpBreak_fresh : FreshSbrk bumpBreak id where
  cases := by
    intro brk n
    by_cases h : brk + n < 2 ^ 32
    · rw [bumpBreak, if_pos h]
      exact Or.inr ⟨rfl, rfl, h⟩
    · rw [bumpBreak, if_neg h]
      exact Or.inl ⟨rfl, rfl⟩

def kernelBase : Nat := 0xc0110000

def unusedHeap : Heap Nat := { mem := fun _ => 0, freeHdr := 0, env := 0xd0000000 }

theorem unusedHeap_unused : Unused kernelBase (id unusedHeap.env) unusedHeap :=
  ⟨rfl, by decide, by decide, by decide⟩

theorem first_allocation_clean :
    Clean bumpBreak kernelBase ⟨unusedHeap, []⟩ (.alloc 100 0xd000039c) := by
  have inv := unusedHeap_unused.start
  have hbase {hdr : Nat} (h : OnList (startList kernelBase unusedHeap) hdr) : hdr = kernelBase :=
    List.mem_singleton.mp (inv.onList_iff.mp h)
  refine ⟨fun hdr first => ?_, fun _ hdr onList hret => ⟨fun _ => ?_, fun _ _ => ?_⟩⟩
  · have honly := hbase (FirstFit.onList first)
    obtain ⟨_, _, fits, _⟩ := first
    rw [honly, inv.baseSz] at fits
    omega
  · rw [hbase onList, Merges, inv.baseSz]
    decide +kernel
  · rw [hbase onList]
    decide +kernel

/-- The next header holds the request, and every header that does leaves room for one. -/
structure Serving (s : Heap σ) (headers : List Nat) (n : Nat) : Prop where
  listed : ListWithin s headers
  started : s.freeHdr ≠ 0
  fits : n ≤ sz s.mem (next s.mem s.freeHdr)
  leaves : ∀ h ∈ headers, n ≤ sz s.mem h → sz s.mem h = n ∨ n + 8 ≤ sz s.mem h

instance (s : Heap σ) (headers : List Nat) (n : Nat) : Decidable (Serving s headers n) :=
  decidable_of_iff (ListWithin s headers ∧ s.freeHdr ≠ 0 ∧ n ≤ sz s.mem (next s.mem s.freeHdr) ∧
      ∀ h ∈ headers, n ≤ sz s.mem h → sz s.mem h = n ∨ n + 8 ≤ sz s.mem h)
    ⟨fun ⟨listed, started, fits, leaves⟩ => ⟨listed, started, fits, leaves⟩,
      fun ⟨listed, started, fits, leaves⟩ => ⟨listed, started, fits, leaves⟩⟩

section Serving

variable {s : Heap σ} {headers : List Nat} {n : Nat} (serving : Serving s headers n)

include serving

theorem Serving.startList (base : Nat) : startList base s = s := by
  rw [KernelHeap.startList, if_neg serving.started]

theorem Serving.fitsWell {hdr : Nat} (first : FirstFit s.mem s.freeHdr n hdr) :
    FitsWell s.mem n hdr := by
  have hmem := serving.listed.mem first.onList
  obtain ⟨_, _, fits, _⟩ := first
  exact serving.leaves hdr hmem fits

theorem Serving.not_none : ¬ ∀ hdr, OnList s hdr → sz s.mem hdr < n := by
  intro none
  exact absurd (none _ ⟨1, rfl⟩) (not_lt.mpr serving.fits)

end Serving

theorem Serving.clean {sbrk : Sbrk σ} {base nbytes ret : Nat} {s : System σ} {headers : List Nat}
    (serving : Serving s.heap headers (nbytes + 8)) : Clean sbrk base s (.alloc nbytes ret) := by
  rw [Clean, serving.startList]
  exact ⟨fun _ => serving.fitsWell, fun none => absurd none serving.not_none⟩

/-- No header of the list passes a test of adjacency with the block. -/
def Alone (s : Heap σ) (headers : List Nat) (blk : Nat) : Prop :=
  ListWithin s headers ∧ ∀ h ∈ headers, Between s.mem blk h →
    headerAdd blk (sz s.mem blk) ≠ next s.mem h ∧ headerAdd h (sz s.mem h) ≠ blk

instance (s : Heap σ) (headers : List Nat) (blk : Nat) : Decidable (Alone s headers blk) :=
  inferInstanceAs (Decidable (_ ∧ _))

theorem Alone.not_merges {s : Heap σ} {headers : List Nat} {blk hdr : Nat}
    (alone : Alone s headers blk) (onList : OnList s hdr) (between : Between s.mem blk hdr) :
    ¬ Merges s.mem blk (sz s.mem blk) hdr := by
  obtain ⟨upper, lower⟩ := alone.2 hdr (alone.1.mem onList) between
  exact not_or.mpr ⟨upper, lower⟩

/-- What is left of the two fetches of a first request. -/
def fetchedHeaders : List Nat := [kernelBase, 0xd0000000, 0xd0000400]

/-- Two blocks from the upper end of the first fetch; the first of them is freed. -/
theorem first_freed : ∃ t : System Nat,
    Run (Step bumpBreak kernelBase) ⟨unusedHeap, []⟩
        [.alloc 100 0xd000039c, .alloc 200 0xd00002cc, .free 0xd000039c] t ∧
      t.live = [⟨0xd00002cc, 200⟩] ∧ Exclusive t := by
  have hrun : ((kernelAlloc bumpBreak kernelBase 8 unusedHeap 100).bind fun first =>
      (kernelAlloc bumpBreak kernelBase 8 first.2 200).bind fun second =>
        if Serving first.2 fetchedHeaders 208 ∧ Alone second.2 fetchedHeaders 0xd0000394 then
          (kernelFree 8 second.2 first.1).map fun _ => (first.1, second.1) else none) =
      some (0xd000039c, 0xd00002cc) := by decide +kernel
  obtain ⟨⟨ret, heap⟩, hfirst, hrun⟩ := Option.bind_eq_some_iff.mp hrun
  obtain ⟨⟨ret', heap'⟩, hsecond, hrun⟩ := Option.bind_eq_some_iff.mp hrun
  obtain ⟨⟨serving, alone⟩, hrun⟩ := Option.ite_none_right_eq_some.mp hrun
  obtain ⟨freed, hfree, hrun⟩ := Option.map_eq_some_iff.mp hrun
  obtain ⟨rfl, rfl⟩ := Prod.mk.inj hrun
  have hstep : Step bumpBreak kernelBase ⟨unusedHeap, []⟩ (.alloc 100 0xd000039c)
      ⟨heap, [⟨0xd000039c, 100⟩]⟩ :=
    .alloc (by decide) ((kernelAlloc_stable _ _ _ _).returns hfirst)
  have hstep' : Step bumpBreak kernelBase ⟨heap, [⟨0xd000039c, 100⟩]⟩ (.alloc 200 0xd00002cc)
      ⟨heap', [⟨0xd00002cc, 200⟩, ⟨0xd000039c, 100⟩]⟩ :=
    .alloc (by decide) ((kernelAlloc_stable _ _ _ _).returns hsecond)
  have hlast : Step bumpBreak kernelBase ⟨heap', [⟨0xd00002cc, 200⟩, ⟨0xd000039c, 100⟩]⟩
      (.free 0xd000039c) ⟨freed, [⟨0xd00002cc, 200⟩]⟩ :=
    .free (a := ⟨0xd000039c, 100⟩) (List.mem_cons_of_mem _ List.mem_cons_self)
      ((kernelFree_stable _ _).returns hfree)
  have clean : Clean bumpBreak kernelBase ⟨heap', [⟨0xd00002cc, 200⟩, ⟨0xd000039c, 100⟩]⟩
      (.free 0xd000039c) := fun _ onList between => alone.not_merges onList between
  exact ⟨_, .cons hstep (.cons hstep' (.cons hlast (.nil _))), rfl,
    (heap_exclusive bumpBreak_fresh unusedHeap_unused (.cons ⟨first_allocation_clean, hstep⟩
      (.cons ⟨serving.clean, hstep'⟩ (.cons ⟨clean, hlast⟩ (.nil _))))).1⟩

/-- A remainder of one byte: the size of the new block is written over the size of what is
left, and the free block reaches over both allocations. -/
theorem short_remainder_overlaps : FreshSbrk bumpBreak id ∧
    Unused kernelBase (id unusedHeap.env) unusedHeap ∧
    ¬ ∀ (calls : List Call) (t : System Nat),
      Run (Step bumpBreak kernelBase) ⟨unusedHeap, []⟩ calls t → Exclusive t := by
  refine ⟨bumpBreak_fresh, unusedHeap_unused, fun exclusive => ?_⟩
  have hrun : ((kernelAlloc bumpBreak kernelBase 8 unusedHeap 100).bind fun first =>
      (kernelAlloc bumpBreak kernelBase 8 first.2 907).map fun second =>
        (first.1, second.1, next second.2.mem second.2.freeHdr,
          sz second.2.mem 0xd0000000)) =
      some (0xd000039c, 0xd0000009, 0xd0000000, 0x39301) := by decide +kernel
  obtain ⟨⟨ret, heap⟩, hfirst, hrun⟩ := Option.bind_eq_some_iff.mp hrun
  obtain ⟨⟨ret', heap'⟩, hsecond, hrun⟩ := Option.map_eq_some_iff.mp hrun
  simp only [Prod.mk.injEq] at hrun
  obtain ⟨rfl, rfl, hlist, hsize⟩ := hrun
  have hstep : Step bumpBreak kernelBase ⟨unusedHeap, []⟩ (.alloc 100 0xd000039c)
      ⟨heap, [⟨0xd000039c, 100⟩]⟩ :=
    .alloc (by decide) ((kernelAlloc_stable _ _ _ _).returns hfirst)
  have hstep' : Step bumpBreak kernelBase ⟨heap, [⟨0xd000039c, 100⟩]⟩ (.alloc 907 0xd0000009)
      ⟨heap', [⟨0xd0000009, 907⟩, ⟨0xd000039c, 100⟩]⟩ :=
    .alloc (by decide) ((kernelAlloc_stable _ _ _ _).returns hsecond)
  have hfree := (exclusive _ _ (.cons hstep (.cons hstep' (.nil _)))).free
    ⟨0xd0000009, 907⟩ List.mem_cons_self 0xd0000000 ⟨1, hlist⟩ 0xd0000009
  rw [hsize, Allocation.Holds] at hfree
  exact hfree (by decide) (by decide)

end HeapRuns
