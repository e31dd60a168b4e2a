import MissyMicro.HeapRequests

/-!
# The shape of the heap

Three properties of the free list that fail in one way each: blocks that touch are never
merged, a split can leave less than a header, and sizes are not rounded. Runs without
these steps have them in every state.
-/

namespace HeapShape

open LinkedRings KernelHeap BlockPool FreeList HeapGrowth KernelSpace TransitionRuns HeapRequests
open HeapRuns (Allocation System)

section Views

variable {base : Nat} {s : System Supply} {p : Pool}

theorem views_laid (views : Views base s p) : p.Laid base := by
  rcases views with ⟨unused, _, rfl⟩ | ⟨nodes, inv, rfl⟩
  · refine ⟨[], rfl, ⟨unused.base_pos, unused.base_le, unused.brk_lt, ?_, ?_, ?_, .nil⟩⟩
    all_goals exact fun b hb => absurd hb List.not_mem_nil
  · exact poolOf_laid inv

/-- The list of a heap that has one: `base`, and the headers of the free blocks. -/
theorem views_list (views : Views base s p) (hfree : s.heap.freeHdr ≠ 0) :
    sz s.heap.mem base = 0 ∧ (∀ b ∈ p.free, b.size = sz s.heap.mem b.start) ∧
      ∀ hdr, OnList s.heap hdr ↔ hdr = base ∨ ⟨hdr, sz s.heap.mem hdr⟩ ∈ p.free := by
  rcases views with ⟨unused, _⟩ | ⟨nodes, inv, rfl⟩
  · exact absurd unused.null hfree
  · refine ⟨inv.baseSz, fun b hb => ?_, fun hdr => ?_⟩
    · obtain ⟨h, _, rfl⟩ := List.mem_map.mp (Multiset.mem_coe.mp hb)
      rfl
    · rw [inv.onList_iff, List.mem_cons]
      refine or_congr_right ⟨fun h => Multiset.mem_coe.mpr (mem_freeBlocks _ h), fun h => ?_⟩
      obtain ⟨h', hh, heq⟩ := List.mem_map.mp (Multiset.mem_coe.mp h)
      exact (Block.mk.inj heq).1 ▸ hh

theorem views_live (views : Views base s p) {a : Allocation} (ha : a ∈ s.live) :
    a.block ∈ p.live ∧ base + 16 ≤ a.ptr ∧ sz s.heap.mem a.block.start = a.block.size ∧
      s.heap.freeHdr ≠ 0 := by
  rcases views with ⟨_, hlive, _⟩ | ⟨nodes, inv, rfl⟩
  · rw [hlive] at ha
    exact absurd ha List.not_mem_nil
  · have hblock := List.mem_map_of_mem (f := Allocation.block) ha
    have hstart := inv.layout.start_le _ (List.mem_append_right _ hblock)
    refine ⟨Multiset.mem_coe.mpr hblock, ?_, inv.header a.block hblock, HeapRuns.freeHdr_ne inv⟩
    rw [Allocation.block] at hstart
    dsimp only at hstart
    omega

theorem views_of_live (views : Views base s p) {b : Block} (hb : b ∈ p.live) :
    ∃ a ∈ s.live, a.block = b := by
  rcases views with ⟨_, _, rfl⟩ | ⟨nodes, inv, rfl⟩
  · exact absurd hb (Multiset.notMem_zero b)
  · exact List.mem_map.mp (Multiset.mem_coe.mp hb)

end Views

/-- Every free block holds its own header, and no header of a live block meets one on the
list. -/
structure HeaderRoom (base : Nat) (s : System Supply) : Prop where
  size : ∀ hdr, OnList s.heap hdr → hdr ≠ base → headerSize ≤ sz s.heap.mem hdr
  clear : ∀ a ∈ s.live, ∀ hdr, OnList s.heap hdr → a.ptr ≤ hdr ∨ hdr + headerSize ≤ a.ptr - headerSize

theorem held_room {base : Nat} {s : System Supply} {J : Multiset Block → Pool → Prop}
    (held : Held base J s) (hfree : s.heap.freeHdr ≠ 0) : HeaderRoom base s := by
  obtain ⟨_, p, views, _⟩ := held
  have laid := views_laid views
  obtain ⟨_, _, hlist⟩ := views_list views hfree
  constructor
  · intro hdr onList hne
    have hmem := ((hlist hdr).mp onList).resolve_left hne
    exact (laid.bounds (Multiset.mem_add.mpr (Or.inl hmem))).2.1
  · intro a ha hdr onList
    obtain ⟨hlive, hptr, _⟩ := views_live views ha
    rcases (hlist hdr).mp onList with rfl | hmem
    · rw [headerSize]
      omega
    · have hsize := (laid.bounds (Multiset.mem_add.mpr (Or.inl hmem))).2.1
      have happart := laid.cross hmem hlive
      rw [Block.Apart, Allocation.block] at happart
      rw [headerSize]
      dsimp only at hsize happart
      omega

/-- The kernel before its heap exists, with the tables of the window. -/
def tabledKernel : Kspace where
  machine := HeapWindow.tabledSpace
  kernelBreak := 0xc0050000
  kheapLastPage := 0xcffff000
  kheapBase := 0
  errno := 0

def freshSystem (k : Kspace) : System Supply := ⟨⟨fun _ => 0, 0, ⟨k, []⟩⟩, []⟩

theorem tabled_started {α : Type} {f : Kspace → Option α} {x : α}
    (h : BreakCalls.fromBoot tabledKernel f = some x) :
    ∃ k, Started HeapRuns.kernelBase (freshSystem k) ∧ f k = some x := by
  obtain ⟨k, hinit, hf⟩ := BreakCalls.fromBoot_some h
  exact ⟨k, ⟨⟨tabledKernel, hinit⟩, rfl, rfl, rfl, by decide, by decide⟩, hf⟩

/-- One call from there on. -/
theorem alloc_step {base fuel nbytes ret : Nat} {s : System Supply} {heap : Heap Supply}
    (hlt : nbytes < 2 ^ 32) (hne : ret ≠ 0)
    (h : kernelAlloc kernelSbrk base fuel s.heap nbytes = some (ret, heap)) :
    Step base s (.alloc nbytes ret) ⟨heap, ⟨ret, nbytes⟩ :: s.live⟩ := by
  have hstep : Step base s (.alloc nbytes ret)
      ⟨heap, if ret = 0 then s.live else ⟨ret, nbytes⟩ :: s.live⟩ :=
    .alloc hlt ((kernelAlloc_stable _ _ _ _).returns h)
  rwa [if_neg hne] at hstep

/-- Before the first request nothing but `base` is on the list. -/
theorem first_list {k : Kspace} (started : Started HeapRuns.kernelBase (freshSystem k)) :
    (∀ hdr, OnList (startList HeapRuns.kernelBase (freshSystem k).heap) hdr →
        hdr = HeapRuns.kernelBase) ∧
      sz (startList HeapRuns.kernelBase (freshSystem k).heap).mem HeapRuns.kernelBase = 0 ∧
      next (startList HeapRuns.kernelBase (freshSystem k).heap).mem HeapRuns.kernelBase =
        HeapRuns.kernelBase := by
  obtain ⟨_, _, views, _⟩ := started.held (J := fun _ _ => True) trivial
  rcases views with ⟨unused, _⟩ | ⟨nodes, inv, _⟩
  · have inv := unused.start
    obtain ⟨_, rfl, hnext⟩ := inv.ring
    exact ⟨fun hdr h => List.mem_singleton.mp (inv.onList_iff.mp h), inv.baseSz, hnext⟩
  · exact absurd started.freeHdr (HeapRuns.freeHdr_ne inv)

theorem first_break {k : Kspace} (started : Started HeapRuns.kernelBase (freshSystem k)) :
    (⟨k, []⟩ : Supply).Ready ∧ breakOf ⟨k, []⟩ = 0xd0000000 ∧ AheadBy ⟨k, []⟩ 1024 := by
  obtain ⟨boot, initialized⟩ := started.initialized
  obtain ⟨hbreak, hlast⟩ := BreakCalls.initialize_break initialized
  change k.kernelBreak = kheapPageStart at hbreak
  change k.kheapLastPage = kheapPageStart at hlast
  refine ⟨(started.held (J := fun _ _ => True) trivial).1, congrArg BitVec.toNat hbreak, ?_⟩
  rw [AheadBy, Ahead, hbreak, hlast]
  decide

/-- The first request fetches from the start of the heap, twice. -/
theorem first_request_sound {k : Kspace} (started : Started HeapRuns.kernelBase (freshSystem k)) :
    SoundAlloc HeapRuns.kernelBase (freshSystem k) 100 := by
  obtain ⟨hbase, hsz, hnext⟩ := first_list started
  obtain ⟨ready, hstart, first⟩ := first_break started
  have hsize : fetchSize (100 + 8) = 1024 := rfl
  have henv : (freshSystem k).heap.env = ⟨k, []⟩ := rfl
  have along : AheadAlong ⟨k, []⟩ 1024 2 := fun j f _ hf =>
    (small_ahead (by decide) (by decide) hf ready first).2
  refine ⟨by decide, fun hdr fit => ?_, fun _ => hsize ▸ along, fun _ hdr onList ok => ?_⟩
  · have honly := hbase hdr fit.onList
    obtain ⟨_, _, fits, _⟩ := fit
    rw [honly, hsz] at fits
    omega
  · rw [hsize, startList_env, henv] at ok ⊢
    rw [hbase hdr onList, Merges, hsz, hnext]
    obtain ⟨ready', ⟨failed, _⟩ | ⟨hret, _, hmoved, _⟩⟩ :=
      kernelSbrk_ahead ready (by decide) (by decide) first
    · exact absurd failed ok
    · rw [hret]
      refine ⟨fun _ => ?_, fun ok' _ => ?_⟩
      · rw [hstart]
        decide
      · obtain ⟨_, ⟨failed, _⟩ | ⟨hret', _⟩⟩ := kernelSbrk_ahead ready' (by decide) (by decide)
          (along 1 _ (by decide) (.cons ok (.nil _)))
        · exact absurd failed ok'
        · rw [hret', hmoved, hstart]
          decide

theorem first_request : ∃ (k : Kspace) (heap : Heap Supply),
    Started HeapRuns.kernelBase (freshSystem k) ∧
      Step HeapRuns.kernelBase (freshSystem k) (.alloc 100 0xd000039c)
        ⟨heap, [⟨0xd000039c, 100⟩]⟩ ∧ heap.freeHdr ≠ 0 := by
  have hrun : (BreakCalls.fromBoot tabledKernel fun k =>
      (kernelAlloc kernelSbrk HeapRuns.kernelBase 8 (freshSystem k).heap 100).map fun first =>
        (first.1, first.2.freeHdr)) = some (0xd000039c, HeapRuns.kernelBase) := by decide +kernel
  obtain ⟨k, started, hrun⟩ := tabled_started hrun
  obtain ⟨⟨ret, heap⟩, halloc, hrun⟩ := Option.map_eq_some_iff.mp hrun
  simp only [Prod.mk.injEq] at hrun
  obtain ⟨rfl, hfree⟩ := hrun
  refine ⟨k, heap, started, alloc_step (by decide) (by decide) halloc, ?_⟩
  rw [hfree]
  decide

/-- In every run of sound requests, free blocks have room for their headers. -/
theorem splits_leave_room {base : Nat} {s t : System Supply} (started : Started base s)
    {calls : List Call} (run : Run (Guarded (Sound base) (Step base)) s calls t)
    (hfree : t.heap.freeHdr ≠ 0) : HeaderRoom base t :=
  held_room (run_held (J := fun _ _ => True) (fun _ _ h => h) (fun _ _ _ _ _ => trivial)
    (fun _ _ _ _ _ => trivial) started.base_le (started.held trivial) run) hfree

/-- A block from the upper end of the first fetch. -/
theorem first_split_leaves_room : ∃ t : System Supply, t.live = [⟨0xd000039c, 100⟩] ∧
    HeaderRoom HeapRuns.kernelBase t := by
  obtain ⟨k, heap, started, hstep, hfree⟩ := first_request
  have guarded : Guarded (Sound HeapRuns.kernelBase) (Step HeapRuns.kernelBase) (freshSystem k)
      (.alloc 100 0xd000039c) ⟨heap, [⟨0xd000039c, 100⟩]⟩ := ⟨first_request_sound started, hstep⟩
  exact ⟨_, rfl, splits_leave_room started (.cons guarded (.nil _)) hfree⟩

/-- A remainder of four bytes stays on the list. -/
theorem four_bytes_left : ¬ ∀ (base : Nat) (s t : System Supply) (calls : List Call),
    Started base s → Run (Step base) s calls t → t.heap.freeHdr ≠ 0 → HeaderRoom base t := by
  intro room
  have hrun : (BreakCalls.fromBoot tabledKernel fun k =>
      (kernelAlloc kernelSbrk HeapRuns.kernelBase 8 (freshSystem k).heap 100).bind fun first =>
        (kernelAlloc kernelSbrk HeapRuns.kernelBase 8 first.2 904).map fun second =>
          (first.1, second.1, second.2.freeHdr, next second.2.mem second.2.freeHdr,
            sz second.2.mem 0xd0000000)) =
      some (0xd000039c, 0xd000000c, HeapRuns.kernelBase, 0xd0000000, 4) := by decide +kernel
  obtain ⟨k, started, hrun⟩ := tabled_started hrun
  obtain ⟨⟨ret, heap⟩, hfirst, hrun⟩ := Option.bind_eq_some_iff.mp hrun
  obtain ⟨⟨ret', heap'⟩, hsecond, hrun⟩ := Option.map_eq_some_iff.mp hrun
  simp only [Prod.mk.injEq] at hrun
  obtain ⟨rfl, rfl, hfree, hnext, hsize⟩ := hrun
  have hstep := alloc_step (s := freshSystem k) (by decide) (by decide) hfirst
  have hstep' := alloc_step (s := ⟨heap, [⟨0xd000039c, 100⟩]⟩) (by decide) (by decide) hsecond
  have hne : heap'.freeHdr ≠ 0 := by
    rw [hfree]
    decide
  have hroom := (room _ _ _ _ started (.cons hstep (.cons hstep' (.nil _))) hne).size 0xd0000000
    ⟨1, hnext⟩ (by decide)
  rw [hsize] at hroom
  exact absurd hroom (by decide)

/-- No block on the list ends where another one starts, and a range from which nothing is live
is one block on the list. -/
structure Coalesced (s : System Supply) : Prop where
  apart : ∀ a b, OnList s.heap a → OnList s.heap b → a ≠ b → b ≠ a + sz s.heap.mem a
  whole : ∀ r ∈ s.heap.env.ranges,
    (∀ a ∈ s.live, ¬ (r.start + headerSize ≤ a.ptr ∧ a.ptr ≤ r.start + r.size)) →
      OnList s.heap r.start ∧ sz s.heap.mem r.start = r.size

/-- The freed block touches none on the list. A request that fetches memory finds none that ends
at the break, and one whose size wraps with two headers is refused a second block. -/
def Untouching (base : Nat) (s : System Supply) : Call → Prop
  | .alloc nbytes _ => NoneFits base s nbytes →
    (kernelSbrk s.heap.env (fetchSize (nbytes + 8))).1 ≠ sbrkFailed →
      (∀ hdr, OnList (startList base s.heap) hdr →
        hdr + sz (startList base s.heap).mem hdr ≠ breakOf s.heap.env) ∧
      (2 ^ 32 ≤ nbytes + 16 →
        (kernelSbrk (kernelSbrk s.heap.env (fetchSize (nbytes + 8))).2
          (fetchSize (nbytes + 8))).1 = sbrkFailed)
  | .free ptr => ∀ hdr, OnList s.heap hdr →
    ptr - 8 + sz s.heap.mem (ptr - 8) ≠ hdr ∧ hdr + sz s.heap.mem hdr ≠ ptr - 8
  | .write _ _ => True
  | .other => True

section Merging

variable {base : Nat} {s : System Supply} {p : Pool}

/-- What a run of such requests keeps. -/
def Apart (ranges : Multiset Block) (p : Pool) : Prop :=
  Separate p.free ∧ Tiled ranges p.brk (p.free + p.live)

theorem separate_iff (views : Views base s p) (hfree : s.heap.freeHdr ≠ 0) :
    Separate p.free ↔
      ∀ a b, OnList s.heap a → OnList s.heap b → a ≠ b → b ≠ a + sz s.heap.mem a := by
  have laid := views_laid views
  obtain ⟨hbase, hsize, hlist⟩ := views_list views hfree
  have bounds {b : Block} (hb : b ∈ p.free) := laid.bounds (Multiset.mem_add.mpr (Or.inl hb))
  constructor
  · intro separate a b ha hb hne heq
    rcases (hlist a).mp ha with rfl | ha
    · rw [hbase] at heq
      exact hne heq.symm
    · rcases (hlist b).mp hb with rfl | hb
      · have hstart := (bounds ha).1
        dsimp only at hstart
        omega
      · exact separate _ ha _ hb heq.symm
  · intro apart b hb c hc heq
    have hon {d : Block} (hd : d ∈ p.free) : OnList s.heap d.start := by
      refine (hlist d.start).mpr (Or.inr ?_)
      rw [← hsize d hd]
      exact hd
    have hpos := (bounds hb).2.1
    refine apart b.start c.start (hon hb) (hon hc) (by omega) ?_
    rw [← hsize b hb, heq]

theorem untouching_iff (views : Views base s p) {a : Allocation} (ha : a ∈ s.live) :
    Untouching base s (.free a.ptr) ↔ Untouched a.block p.free := by
  obtain ⟨_, hptr, hsz, hfree⟩ := views_live views ha
  obtain ⟨hbase, hsize, hlist⟩ := views_list views hfree
  have hstart : a.block.start = a.ptr - 8 := rfl
  rw [Untouching, ← hstart, hsz]
  constructor
  · intro untouching c hc
    have h := untouching c.start ((hlist c.start).mpr (Or.inr (hsize c hc ▸ hc)))
    rw [← hsize c hc] at h
    exact h
  · intro untouched hdr onList
    rcases (hlist hdr).mp onList with rfl | hmem
    · rw [hbase, hstart]
      constructor
      · omega
      · omega
    · exact untouched _ hmem

theorem held_coalesced (held : Held base Apart s) (hfree : s.heap.freeHdr ≠ 0) : Coalesced s := by
  obtain ⟨_, p, views, separate, tiled⟩ := held
  obtain ⟨_, hsize, hlist⟩ := views_list views hfree
  refine ⟨(separate_iff views hfree).mp separate, fun r hr unused => ?_⟩
  have hmem : r ∈ p.free := by
    refine tiled.whole (views_laid views) separate (Multiset.mem_coe.mpr hr) fun b hb hin => ?_
    obtain ⟨a, ha, rfl⟩ := views_of_live views hb
    obtain ⟨_, hptr, _⟩ := views_live views ha
    refine unused a ha ?_
    rw [Allocation.block] at hin
    rw [headerSize]
    dsimp only at hin
    omega
  refine ⟨(hlist r.start).mpr (Or.inr ?_), (hsize r hmem).symm⟩
  rw [← hsize r hmem]
  exact hmem

/-- Sound and untouching requests keep free blocks apart. -/
theorem run_apart {s t : System Supply} (started : Started base s) {calls : List Call}
    (run : Run (Guarded (fun s c => Sound base s c ∧ Untouching base s c) (Step base)) s calls t) :
    Held base Apart t := by
  refine run_held (fun _ _ h => h.1) ?_ ?_ started.base_le (started.held ?_) run
  · intro s p nbytes ret k p' f guarded views allocs calls ⟨separate, tiled⟩
    obtain ⟨sound, untouching⟩ := guarded
    have hpos := (fetchSize_pos (nbytes + 8)).1
    have hsize : 8 ≤ fetchSize (nbytes + 8) := by
      rw [fetchSize, minRequestSize]
      split <;> omega
    have grown (hk : 0 < k) := untouching (views.noneFits_iff.mpr (allocs.small (Or.inl hk)))
    refine ⟨allocs.separate (views_laid views) (Nat.le_add_left 8 nbytes) hsize ?_ ?_ separate,
      allocs.tiled hpos tiled⟩
    · intro short
      by_contra hk
      obtain _ | ⟨ok, _ | ⟨ok', _⟩⟩ := calls
      · exact hk (Nat.zero_le 1)
      · exact hk (le_refl 1)
      · refine ok' ((grown (Nat.succ_pos _) ok).2 (not_lt.mp fun fits => ?_))
        rw [fetchSize_eq fits] at short
        exact absurd (moreSize_le (nbytes + 8)).1 (not_le.mpr short)
    · intro hk b hb
      obtain _ | ⟨ok, _⟩ := calls
      · exact absurd hk (lt_irrefl 0)
      · have untouched := (grown (Nat.succ_pos _) ok).1
        obtain ⟨nodes, inv, rfl⟩ := views.started
        obtain ⟨h, hh, rfl⟩ := List.mem_map.mp (Multiset.mem_coe.mp hb)
        have hne := untouched h (inv.onList_iff.mpr (List.mem_cons_of_mem _ hh))
        rw [← startList_env base] at hne
        exact hne
  · intro s p a live guarded ha views hlive ⟨separate, tiled⟩
    have laid := views_laid views
    have hblock : a.block ∈ p.free + p.live :=
      Multiset.mem_add.mpr (Or.inr (hlive ▸ Multiset.mem_cons_self _ _))
    have hpos := (laid.bounds hblock).2.1
    refine ⟨(separate_cons (by omega)).mpr ⟨(untouching_iff views ha).mp guarded.2, separate⟩, ?_⟩
    rw [hlive, Multiset.add_cons] at tiled
    rw [Multiset.cons_add]
    exact tiled
  · exact ⟨fun b hb => absurd hb (Multiset.notMem_zero b), Tiled.nil _⟩

/-- After a free there is a list, with the block on it. -/
theorem freed_views {u : System Supply} {ptr : Nat} (views : Views base s p)
    (sound : Sound base s (.free ptr)) (hstep : Step base s (.free ptr) u) :
    ∃ a ∈ s.live, a.ptr = ptr ∧ ∃ live, p.live = a.block ::ₘ live ∧
      Views base u ⟨a.block ::ₘ p.free, live, p.brk⟩ ∧ u.heap.freeHdr ≠ 0 := by
  cases hstep with
  | @free heap a ha returns =>
    obtain ⟨live, hlive, _, views'⟩ := free_pool views ha sound returns
    refine ⟨a, ha, rfl, live, hlive, views', ?_⟩
    rcases views' with ⟨_, _, hempty⟩ | ⟨nodes, inv, _⟩
    · exact absurd (Pool.mk.inj hempty).1 (Multiset.cons_ne_zero)
    · exact HeapRuns.freeHdr_ne inv

/-- In every run of sound and untouching requests the free blocks are apart; a sound free
keeps them apart exactly if its block touches none of them. -/
theorem free_blocks_apart {s t : System Supply} (started : Started base s) {calls : List Call}
    (run : Run (Guarded (fun s c => Sound base s c ∧ Untouching base s c) (Step base)) s calls t)
    (hfree : t.heap.freeHdr ≠ 0) :
    Coalesced t ∧ ∀ ptr u, Sound base t (.free ptr) → Step base t (.free ptr) u →
      (Coalesced u ↔ Untouching base t (.free ptr)) := by
  have held := run_apart started run
  refine ⟨held_coalesced held hfree, fun ptr u sound hstep => ?_⟩
  obtain ⟨_, p, views, _⟩ := held
  obtain ⟨a, ha, rfl, live, hlive, views', hfree'⟩ := freed_views views sound hstep
  constructor
  · intro coalesced
    have separate := (separate_iff views' hfree').mpr coalesced.apart
    have hblock : a.block ∈ p.free + p.live :=
      Multiset.mem_add.mpr (Or.inr (hlive ▸ Multiset.mem_cons_self _ _))
    have hpos := ((views_laid views).bounds hblock).2.1
    exact (untouching_iff views ha).mpr ((separate_cons (by omega)).mp separate).1
  · intro untouching
    exact held_coalesced (run_apart started
      (run.append (.cons ⟨⟨sound, untouching⟩, hstep⟩ (.nil u)))) hfree'

/-- The first request finds no block to touch. -/
theorem first_request_untouching {k : Kspace}
    (started : Started HeapRuns.kernelBase (freshSystem k)) {ret : Nat} :
    Untouching HeapRuns.kernelBase (freshSystem k) (.alloc 100 ret) := by
  obtain ⟨hbase, hsz, _⟩ := first_list started
  obtain ⟨_, hstart, _⟩ := first_break started
  refine fun _ _ => ⟨fun hdr onList => ?_, fun wraps => absurd wraps (by decide)⟩
  rw [hbase hdr onList, hsz]
  change _ ≠ breakOf ⟨k, []⟩
  rw [hstart]
  decide

/-- A request that the list serves touches no block either. -/
theorem serving_guarded {s : System Supply} {headers : List Nat} {nbytes ret : Nat}
    (serving : HeapRuns.Serving s.heap headers (nbytes + 8)) (size : nbytes + 8 < 2 ^ 32) :
    SoundAlloc base s nbytes ∧ Untouching base s (.alloc nbytes ret) := by
  have some : ¬ NoneFits base s nbytes := by
    rw [NoneFits, serving.startList]
    exact serving.not_none
  refine ⟨⟨size, ?_, fun none => absurd none some, fun none => absurd none some⟩,
    fun none => absurd none some⟩
  rw [serving.startList]
  exact fun _ => serving.fitsWell

/-- Three blocks from the first fetch; the one in the middle is freed. -/
theorem middle_freed : ∃ (k : Kspace) (t : System Supply),
    Started HeapRuns.kernelBase (freshSystem k) ∧
      Run (Guarded (fun s c => Sound HeapRuns.kernelBase s c ∧ Untouching HeapRuns.kernelBase s c)
          (Step HeapRuns.kernelBase)) (freshSystem k)
        [.alloc 100 0xd000039c, .alloc 200 0xd00002cc, .alloc 300 0xd0000198, .free 0xd00002cc] t ∧
      t.live = [⟨0xd0000198, 300⟩, ⟨0xd000039c, 100⟩] ∧ OnList t.heap 0xd00002c4 ∧
      HeapRuns.Serving t.heap (0xd00002c4 :: HeapRuns.fetchedHeaders) 108 := by
  have hrun : (BreakCalls.fromBoot tabledKernel fun k =>
      (kernelAlloc kernelSbrk HeapRuns.kernelBase 8 (freshSystem k).heap 100).bind fun first =>
        (kernelAlloc kernelSbrk HeapRuns.kernelBase 8 first.2 200).bind fun second =>
          (kernelAlloc kernelSbrk HeapRuns.kernelBase 8 second.2 300).bind fun third =>
            (kernelFree 8 third.2 second.1).bind fun heap =>
              if HeapRuns.Serving first.2 HeapRuns.fetchedHeaders 208 ∧
                  HeapRuns.Serving second.2 HeapRuns.fetchedHeaders 308 ∧
                  HeapRuns.Alone third.2 HeapRuns.fetchedHeaders 0xd00002c4 ∧
                  (∀ hdr ∈ HeapRuns.fetchedHeaders, 0xd00002c4 + sz third.2.mem 0xd00002c4 ≠ hdr ∧
                    hdr + sz third.2.mem hdr ≠ 0xd00002c4) ∧
                  HeapRuns.Serving heap (0xd00002c4 :: HeapRuns.fetchedHeaders) 108 then
                some (first.1, second.1, third.1, next heap.mem heap.freeHdr)
              else none) = some (0xd000039c, 0xd00002cc, 0xd0000198, 0xd00002c4) := by
    decide +kernel
  obtain ⟨k, started, hrun⟩ := tabled_started hrun
  obtain ⟨⟨ret₁, heap₁⟩, first, hrun⟩ := Option.bind_eq_some_iff.mp hrun
  obtain ⟨⟨ret₂, heap₂⟩, second, hrun⟩ := Option.bind_eq_some_iff.mp hrun
  obtain ⟨⟨ret₃, heap₃⟩, third, hrun⟩ := Option.bind_eq_some_iff.mp hrun
  obtain ⟨heap₄, freed, hrun⟩ := Option.bind_eq_some_iff.mp hrun
  obtain ⟨⟨serving₁, serving₂, alone, lone, serving₄⟩, hrun⟩ :=
    Option.ite_none_right_eq_some.mp hrun
  simp only [Option.some.injEq, Prod.mk.injEq] at hrun
  obtain ⟨rfl, rfl, rfl, hnext⟩ := hrun
  have step₁ := alloc_step (s := freshSystem k) (by decide) (by decide) first
  have step₂ := alloc_step (s := ⟨heap₁, [⟨0xd000039c, 100⟩]⟩) (by decide) (by decide) second
  have step₃ := alloc_step (s := ⟨heap₂, [⟨0xd00002cc, 200⟩, ⟨0xd000039c, 100⟩]⟩) (by decide)
    (by decide) third
  have step₄ : Step HeapRuns.kernelBase
      ⟨heap₃, [⟨0xd0000198, 300⟩, ⟨0xd00002cc, 200⟩, ⟨0xd000039c, 100⟩]⟩ (.free 0xd00002cc)
      ⟨heap₄, [⟨0xd0000198, 300⟩, ⟨0xd000039c, 100⟩]⟩ :=
    .free (a := ⟨0xd00002cc, 200⟩) (List.mem_cons_of_mem _ List.mem_cons_self)
      ((kernelFree_stable _ _).returns freed)
  refine ⟨k, _, started, .cons ⟨⟨first_request_sound started, first_request_untouching started⟩,
    step₁⟩ (.cons ⟨serving_guarded serving₁ (by decide), step₂⟩
      (.cons ⟨serving_guarded serving₂ (by decide), step₃⟩
        (.cons ⟨⟨?_, ?_⟩, step₄⟩ (.nil _)))), rfl, ⟨1, hnext⟩, serving₄⟩
  · exact fun _ onList between => alone.not_merges onList between
  · exact fun hdr onList => lone hdr (alone.1.mem onList)

/-- The block that was freed in between is apart from what is left of the fetches. -/
theorem middle_block_apart : ∃ t : System Supply,
    t.live = [⟨0xd0000198, 300⟩, ⟨0xd000039c, 100⟩] ∧ OnList t.heap 0xd00002c4 ∧ Coalesced t := by
  obtain ⟨k, t, started, run, hlive, onList, serving⟩ := middle_freed
  exact ⟨t, hlive, onList, (free_blocks_apart started run serving.started).1⟩

/-- A block that is freed right away stays beside the one it was cut from. -/
theorem freed_block_stays : ¬ ∀ (base : Nat) (s t : System Supply) (calls : List Call),
    Started base s → Run (Step base) s calls t → t.heap.freeHdr ≠ 0 → Coalesced t := by
  intro coalesced
  have hrun : (BreakCalls.fromBoot tabledKernel fun k =>
      (kernelAlloc kernelSbrk HeapRuns.kernelBase 8 (freshSystem k).heap 100).bind fun first =>
        (kernelFree 8 first.2 first.1).map fun heap =>
          (first.1, heap.freeHdr, next heap.mem heap.freeHdr, sz heap.mem heap.freeHdr)) =
      some (0xd000039c, 0xd0000000, 0xd0000394, 0x394) := by decide +kernel
  obtain ⟨k, started, hrun⟩ := tabled_started hrun
  obtain ⟨⟨ret, heap⟩, hfirst, hrun⟩ := Option.bind_eq_some_iff.mp hrun
  obtain ⟨heap', hsecond, hrun⟩ := Option.map_eq_some_iff.mp hrun
  simp only [Prod.mk.injEq] at hrun
  obtain ⟨rfl, hfree, hnext, hsize⟩ := hrun
  have hstep := alloc_step (s := freshSystem k) (by decide) (by decide) hfirst
  have hstep' : Step HeapRuns.kernelBase ⟨heap, [⟨0xd000039c, 100⟩]⟩ (.free 0xd000039c)
      ⟨heap', [⟨0xd000039c, 100⟩].erase ⟨0xd000039c, 100⟩⟩ :=
    .free (a := ⟨0xd000039c, 100⟩) List.mem_cons_self ((kernelFree_stable _ _).returns hsecond)
  have hne : heap'.freeHdr ≠ 0 := by
    rw [hfree]
    decide
  have apart := (coalesced _ _ _ _ started (.cons hstep (.cons hstep' (.nil _))) hne).apart
    0xd0000000 0xd0000394 ⟨0, hfree⟩ ⟨1, hnext⟩ (by decide)
  rw [← hfree] at apart
  exact apart (hsize ▸ hfree ▸ rfl)

end Merging

/-- Headers and results are aligned as `m_header` asks for. -/
structure HeadersAligned (s : System Supply) : Prop where
  list : ∀ hdr, OnList s.heap hdr → 4 ∣ hdr
  live : ∀ a ∈ s.live, 4 ∣ a.ptr

/-- The list holds the request, or both fetches that it makes succeed. -/
def Served (base : Nat) (s : System Supply) (nbytes : Nat) : Prop :=
  ¬ NoneFits base s nbytes ∨ nbytes + 16 < 2 ^ 32 ∧
    (kernelSbrk s.heap.env (fetchSize (nbytes + 8))).1 ≠ sbrkFailed ∧
    (kernelSbrk (kernelSbrk s.heap.env (fetchSize (nbytes + 8))).2
      (fetchSize (nbytes + 8))).1 ≠ sbrkFailed

/-- A request that is served is for whole words, and so is the memory that it fetches. -/
def Words (base : Nat) (s : System Supply) : Call → Prop
  | .alloc nbytes _ => (Served base s nbytes → 4 ∣ nbytes) ∧
    (NoneFits base s nbytes →
      (kernelSbrk s.heap.env (fetchSize (nbytes + 8))).1 ≠ sbrkFailed →
        4 ∣ fetchSize (nbytes + 8))
  | .free _ => True
  | .write _ _ => True
  | .other => True

/-- In every run of sound requests for whole words all headers are aligned. -/
theorem headers_aligned {base : Nat} {s t : System Supply} (started : Started base s)
    (base_aligned : 4 ∣ base) {calls : List Call}
    (run : Run (Guarded (fun s c => Sound base s c ∧ Words base s c) (Step base)) s calls t)
    (hfree : t.heap.freeHdr ≠ 0) : HeadersAligned t := by
  have held : Held base (fun _ p => Aligned 4 p) t := by
    refine run_held (fun _ _ h => h.1) ?_ ?_ started.base_le (started.held ?_) run
    · intro s p nbytes ret k p' f guarded views allocs calls aligned
      obtain ⟨sound, served, fetched⟩ := guarded
      have small (hk : 0 < k) := views.noneFits_iff.mpr (allocs.small (Or.inl hk))
      refine allocs.aligned aligned (fun h => ?_) fun hk => ?_
      · refine (Nat.dvd_add_left (by decide)).mpr (served ?_)
        rcases h with ⟨b, hb, hle⟩ | ⟨rfl, room⟩
        · exact Or.inl fun none => absurd (views.noneFits_iff.mp none b hb) (not_lt.mpr hle)
        · have hlt := (fetchSize_pos (nbytes + 8)).2
          obtain _ | ⟨ok, _ | ⟨ok', _⟩⟩ := calls
          exact Or.inr ⟨by omega, ok, ok'⟩
      · obtain _ | ⟨ok, _⟩ := calls
        · exact absurd hk (lt_irrefl 0)
        · exact fetched (small (Nat.succ_pos _)) ok
    · intro s p a live _ _ _ hlive aligned
      have heq : (a.block ::ₘ p.free) + live = p.free + p.live := by
        rw [hlive, Multiset.add_cons, Multiset.cons_add]
      exact ⟨aligned.brk, fun b hb => aligned.start b (heq ▸ hb),
        fun b hb => aligned.size b (heq ▸ hb)⟩
    · exact ⟨by decide, fun b hb => absurd hb (Multiset.notMem_zero b),
        fun b hb => absurd hb (Multiset.notMem_zero b)⟩
  obtain ⟨_, p, views, aligned⟩ := held
  obtain ⟨_, _, hlist⟩ := views_list views hfree
  constructor
  · intro hdr onList
    rcases (hlist hdr).mp onList with rfl | hmem
    · exact base_aligned
    · exact aligned.start _ (Multiset.mem_add.mpr (Or.inl hmem))
  · intro a ha
    obtain ⟨hlive, hptr, _⟩ := views_live views ha
    have hstart : 4 ∣ a.ptr - 8 := aligned.start _ (Multiset.mem_add.mpr (Or.inr hlive))
    omega

/-- A request for 100 bytes. -/
theorem first_request_aligned : ∃ t : System Supply, t.live = [⟨0xd000039c, 100⟩] ∧
    HeadersAligned t := by
  obtain ⟨k, heap, started, hstep, hfree⟩ := first_request
  have guarded : Guarded (fun s c => Sound HeapRuns.kernelBase s c ∧ Words HeapRuns.kernelBase s c)
      (Step HeapRuns.kernelBase) (freshSystem k) (.alloc 100 0xd000039c)
      ⟨heap, [⟨0xd000039c, 100⟩]⟩ :=
    ⟨⟨first_request_sound started, fun _ => by decide, fun _ _ => by decide⟩, hstep⟩
  exact ⟨_, rfl, headers_aligned started (by decide) (.cons guarded (.nil _)) hfree⟩

/-- A request for one byte. -/
theorem one_byte_misaligned : ¬ ∀ (base : Nat) (s t : System Supply) (calls : List Call),
    Started base s → 4 ∣ base → Run (Step base) s calls t → t.heap.freeHdr ≠ 0 →
      HeadersAligned t := by
  intro aligned
  have hrun : (BreakCalls.fromBoot tabledKernel fun k =>
      (kernelAlloc kernelSbrk HeapRuns.kernelBase 8 (freshSystem k).heap 1).map fun first =>
        (first.1, first.2.freeHdr)) = some (0xd00003ff, HeapRuns.kernelBase) := by decide +kernel
  obtain ⟨k, started, hrun⟩ := tabled_started hrun
  obtain ⟨⟨ret, heap⟩, halloc, hrun⟩ := Option.map_eq_some_iff.mp hrun
  simp only [Prod.mk.injEq] at hrun
  obtain ⟨rfl, hfree⟩ := hrun
  have hstep := alloc_step (s := freshSystem k) (by decide) (by decide) halloc
  have hne : heap.freeHdr ≠ 0 := by
    rw [hfree]
    decide
  have hlive := (aligned _ _ _ _ started (by decide) (.cons hstep (.nil _)) hne).live
    ⟨0xd00003ff, 1⟩ List.mem_cons_self
  exact absurd hlive (by decide)

end HeapShape
