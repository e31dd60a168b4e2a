import MissyMicro.BlockPool

/-!
# The free list of the kernel heap

The headers of the free blocks form a ring that increases from `base`, and all
blocks, free or live, are apart. Freeing a block, taking one and writing the bytes
of a live one keep that.
-/

namespace FreeList

open LittleEndian LinkedRings KernelHeap BlockPool

def freeBlocks (m : Bytes) (nodes : List Nat) : List Block := nodes.map fun h => ⟨h, sz m h⟩

/-- The ring increases from `base`, its other headers head the free blocks, and every live
block has its size in its header. -/
structure HeapInv (base brk : Nat) (nodes : List Nat) (live : List Block) {σ : Type}
    (s : Heap σ) : Prop where
  layout : Layout base brk (freeBlocks s.mem nodes ++ live)
  ring : Ring (next s.mem) (base :: nodes)
  sorted : (base :: nodes).Pairwise (· < ·)
  freeHdr : s.freeHdr ∈ base :: nodes
  baseSz : sz s.mem base = 0
  header : ∀ b ∈ live, sz s.mem b.start = b.size

/-- The headers of the ring and of the live blocks. -/
def Header (base : Nat) (nodes : List Nat) (live : List Block) (h : Nat) : Prop :=
  h ∈ base :: nodes ∨ h ∈ live.map Block.start

theorem freeBlocks_congr {m m' : Bytes} {nodes : List Nat}
    (same : ∀ h ∈ nodes, sz m' h = sz m h) : freeBlocks m' nodes = freeBlocks m nodes :=
  List.map_congr_left fun h hh => by rw [same h hh]

theorem mem_freeBlocks (m : Bytes) {nodes : List Nat} {h : Nat} (hh : h ∈ nodes) :
    ⟨h, sz m h⟩ ∈ freeBlocks m nodes :=
  List.mem_map_of_mem (f := fun h => (⟨h, sz m h⟩ : Block)) hh

theorem header_iff {base : Nat} {nodes : List Nat} {live : List Block} {m : Bytes} {h : Nat} :
    h ∈ base :: (freeBlocks m nodes ++ live).map Block.start ↔ Header base nodes live h := by
  have hstarts : (freeBlocks m nodes).map Block.start = nodes := by
    rw [freeBlocks, List.map_map]
    exact List.map_id nodes
  rw [List.map_append, hstarts, Header, ← List.cons_append, List.mem_append]

/-- One header more heads one block more. -/
theorem freeBlocks_insert {m m' : Bytes} {nodes nodes' : List Nat} {b : Block}
    (hperm : nodes'.Perm (b.start :: nodes)) (hsize : sz m' b.start = b.size)
    (same : ∀ h ∈ nodes, sz m' h = sz m h) :
    (freeBlocks m' nodes').Perm (b :: freeBlocks m nodes) := by
  refine (hperm.map _).trans ?_
  rw [List.map_cons, hsize, ← freeBlocks_congr same, freeBlocks]

theorem nodup_of_sorted {l : List Nat} (sorted : l.Pairwise (· < ·)) : l.Nodup :=
  sorted.imp fun h => Nat.ne_of_lt h

variable {σ : Type} {base brk : Nat} {nodes : List Nat} {live : List Block} {s : Heap σ}

theorem HeapInv.clear (inv : HeapInv base brk nodes live s) {h h' : Nat}
    (hh : Header base nodes live h) (hh' : Header base nodes live h') : Clear h h' :=
  inv.layout.clear (header_iff.mpr hh) (header_iff.mpr hh')

theorem HeapInv.lt_brk (inv : HeapInv base brk nodes live s) {h : Nat} (hh : h ∈ base :: nodes) :
    h < brk := by
  have hbase := inv.layout.base_le
  rcases List.mem_cons.mp hh with rfl | hh
  · omega
  · have hblock := List.mem_append_left live (mem_freeBlocks s.mem hh)
    have hend := inv.layout.end_le _ hblock
    have hsize := inv.layout.size_le _ hblock
    dsimp only at hend hsize
    omega

theorem HeapInv.withEnv (inv : HeapInv base brk nodes live s) (e : σ) :
    HeapInv base brk nodes live { s with env := e } :=
  ⟨inv.layout, inv.ring, inv.sorted, inv.freeHdr, inv.baseSz, inv.header⟩

theorem HeapInv.perm_live {live' : List Block} (inv : HeapInv base brk nodes live s)
    (h : live.Perm live') : HeapInv base brk nodes live' s :=
  ⟨inv.layout.perm (h.append_left _), inv.ring, inv.sorted, inv.freeHdr, inv.baseSz,
    fun b hb => inv.header b (h.mem_iff.mpr hb)⟩

/-- A store outside all headers. -/
theorem HeapInv.congr_mem (inv : HeapInv base brk nodes live s) {m : Bytes}
    (hnext : ∀ h, Header base nodes live h → next m h = next s.mem h)
    (hsz : ∀ h, Header base nodes live h → sz m h = sz s.mem h) :
    HeapInv base brk nodes live { s with mem := m } := by
  have hfree : freeBlocks m nodes = freeBlocks s.mem nodes :=
    freeBlocks_congr fun h hh => hsz h (Or.inl (List.mem_cons_of_mem _ hh))
  refine ⟨?_, inv.ring.congr fun h hh => hnext h (Or.inl hh), inv.sorted, inv.freeHdr, ?_,
    fun b hb => ?_⟩
  · rw [hfree]
    exact inv.layout
  · exact (hsz base (Or.inl List.mem_cons_self)).trans inv.baseSz
  · rw [← inv.header b hb]
    exact hsz _ (Or.inr (List.mem_map_of_mem hb))

/-- The payload of a block holds no header. -/
theorem HeapInv.write_fields (inv : HeapInv base brk nodes live s) {b : Block} (hb : b ∈ live)
    {addr : Nat} (hlo : b.start + 8 ≤ addr) (hhi : addr < b.start + b.size) (x : BitVec 8) {h : Nat}
    (hh : Header base nodes live h) :
    next (Function.update s.mem addr x) h = next s.mem h ∧
      sz (Function.update s.mem addr x) h = sz s.mem h := by
  have outside : addr < h ∨ h + 8 ≤ addr :=
    inv.layout.payload (List.mem_append_right _ hb) hlo hhi h (header_iff.mpr hh)
  have hload {k : Nat} (hk : k + 4 ≤ 8) :
      load32 (Function.update s.mem addr x) (h + k) = load32 s.mem (h + k) := by
    refine load32_congr fun c hc hc' => Function.update_of_ne ?_ _ _
    omega
  have hsame := hload (k := 0) (by decide)
  rw [Nat.add_zero] at hsame
  rw [next, next, hsame, sz, sz, hload (by decide)]
  exact ⟨rfl, rfl⟩

theorem HeapInv.write (inv : HeapInv base brk nodes live s) {b : Block} (hb : b ∈ live)
    {addr : Nat} (hlo : b.start + 8 ≤ addr) (hhi : addr < b.start + b.size) (x : BitVec 8) :
    HeapInv base brk nodes live { s with mem := Function.update s.mem addr x } :=
  inv.congr_mem (fun _ hh => (inv.write_fields hb hlo hhi x hh).1)
    fun _ hh => (inv.write_fields hb hlo hhi x hh).2

/-- The header of a fresh block is beyond all others. -/
theorem HeapInv.extend (inv : HeapInv base brk nodes live s) {n : Nat} (hn : 8 ≤ n)
    (room : brk + n < 2 ^ 32) (e : σ) :
    HeapInv base (brk + n) nodes (⟨brk, n⟩ :: live)
        { s with mem := setSz s.mem brk n, env := e } ∧
      ∀ h, Header base nodes live h → next (setSz s.mem brk n) h = next s.mem h ∧
        sz (setSz s.mem brk n) h = sz s.mem h := by
  have layout := inv.layout.extend hn room
  have hfresh := layout.fresh
  have fields {x : Nat} (hx : Header base nodes live x) :
      next (setSz s.mem brk n) x = next s.mem x ∧ sz (setSz s.mem brk n) x = sz s.mem x := by
    have hmem := (header_iff (m := s.mem)).mpr hx
    have hne : x ≠ brk := fun heq => hfresh (heq ▸ hmem)
    have clear : Clear brk x := by
      refine layout.clear (List.mem_cons_of_mem _ List.mem_cons_self) ?_
      rw [List.map_cons]
      exact (List.sublist_cons_self _ _).cons_cons base |>.subset hmem
    rw [next_setSz clear, sz_setSz clear (by omega), if_neg hne]
    exact ⟨rfl, rfl⟩
  refine ⟨⟨?_, inv.ring.congr fun x hx => (fields (Or.inl hx)).1, inv.sorted, inv.freeHdr, ?_, ?_⟩,
    fun h hh => fields hh⟩
  · have hfree : freeBlocks (setSz s.mem brk n) nodes = freeBlocks s.mem nodes :=
      freeBlocks_congr fun x hx => (fields (Or.inl (List.mem_cons_of_mem _ hx))).2
    rw [hfree]
    exact layout.perm List.perm_middle.symm
  · rw [(fields (Or.inl List.mem_cons_self)).2]
    exact inv.baseSz
  · intro c hc
    rcases List.mem_cons.mp hc with rfl | hc
    · rw [sz_setSz (fun h => absurd rfl h) (by omega), if_pos rfl]
    · rw [(fields (Or.inr (List.mem_map_of_mem hc))).2]
      exact inv.header c hc

/-- The header can be reached along the free list. -/
def OnList (s : Heap σ) (hdr : Nat) : Prop := ∃ k, (next s.mem)^[k] s.freeHdr = hdr

theorem HeapInv.onList_iff (inv : HeapInv base brk nodes live s) {hdr : Nat} :
    OnList s hdr ↔ hdr ∈ base :: nodes := by
  constructor
  · rintro ⟨k, rfl⟩
    exact inv.ring.mem_iterate inv.freeHdr k
  · exact inv.ring.reaches inv.freeHdr

/-- Some headers hold the whole list. -/
structure ListWithin (s : Heap σ) (headers : List Nat) : Prop where
  freeHdr : s.freeHdr ∈ headers
  next : ∀ h ∈ headers, next s.mem h ∈ headers

instance (s : Heap σ) (headers : List Nat) : Decidable (ListWithin s headers) :=
  decidable_of_iff (s.freeHdr ∈ headers ∧ ∀ h ∈ headers, KernelHeap.next s.mem h ∈ headers)
    ⟨fun ⟨freeHdr, next⟩ => ⟨freeHdr, next⟩, fun ⟨freeHdr, next⟩ => ⟨freeHdr, next⟩⟩

theorem ListWithin.mem {headers : List Nat} (listed : ListWithin s headers) {hdr : Nat}
    (h : OnList s hdr) : hdr ∈ headers := by
  obtain ⟨k, rfl⟩ := h
  induction k with
  | zero => exact listed.freeHdr
  | succ k ih =>
    rw [Function.iterate_succ_apply']
    exact listed.next _ ih

/-- The test of adjacency that `kernel_free` makes on both sides. -/
def Merges (m : Bytes) (blk n hdr : Nat) : Prop :=
  headerAdd blk n = next m hdr ∨ headerAdd hdr (sz m hdr) = blk

section Between

variable {m : Bytes} (ring : Ring (next m) (base :: nodes))
  (sorted : (base :: nodes).Pairwise (· < ·)) {blk p : Nat} (above : base < blk)
  (fresh : blk ∉ base :: nodes) (hp : p ∈ base :: nodes) (hlt : p < blk)
  (hmax : ∀ y ∈ base :: nodes, y < blk → y ≤ p)

include ring sorted above fresh hp hlt hmax

/-- In the ring, the loop of `kernel_free` stops at the largest header below the block. -/
theorem between_iff {x : Nat} (hx : x ∈ base :: nodes) : Between m blk x ↔ x = p :=
  ring.gap_iff sorted above fresh hp hlt hmax hx

/-- It walks there from `free_hdr`. -/
theorem findBetween_returns {f : Nat} (hf : f ∈ base :: nodes) :
    Returns (fun fuel => findBetween m blk fuel f) p :=
  ring.search sorted above fresh hp hlt hmax (fun _ _ between => if_pos between)
    (fun _ _ between => if_neg between) hf

end Between

/-- A live block is above `base` and its header is not on the free list. -/
theorem HeapInv.live_fresh {b : Block} (inv : HeapInv base brk nodes (b :: live) s) :
    Layout base brk (b :: (freeBlocks s.mem nodes ++ live)) ∧ base < b.start ∧
      b.start < 2 ^ 32 ∧ b.start ∉ base :: nodes := by
  have layout := inv.layout.perm List.perm_middle
  have hstart := layout.start_le b List.mem_cons_self
  have hend := layout.end_le b List.mem_cons_self
  have hsize := layout.size_le b List.mem_cons_self
  have hbrk := layout.brk_lt
  exact ⟨layout, by omega, by omega,
    fun hmem => layout.fresh (header_iff.mpr (Or.inl hmem))⟩

section Free

variable {b : Block} (inv : HeapInv base brk nodes (b :: live) s) {p : Nat}
  (hp : p ∈ base :: nodes)

include inv hp

/-- The two stores that link a block in, seen from every header. -/
theorem link_fields {h : Nat} (hh : Header base nodes (b :: live) h) :
    sz (setNext (setNext s.mem b.start (next s.mem p)) p b.start) h = sz s.mem h ∧
      next (setNext (setNext s.mem b.start (next s.mem p)) p b.start) h =
        if h = p then b.start else if h = b.start then next s.mem p else next s.mem h := by
  obtain ⟨_, _, hlt, _⟩ := inv.live_fresh
  have clearB := inv.clear (Or.inr List.mem_cons_self) hh
  have clearP := inv.clear (Or.inl hp) hh
  rw [sz_setNext clearP, sz_setNext clearB, next_setNext clearP hlt,
    next_setNext clearB (next_lt _ _)]
  exact ⟨rfl, rfl⟩

/-- Without an adjacent neighbour `kernel_free` only links. -/
theorem kernelFree_links (apart : ¬ Merges s.mem b.start b.size p) :
    linkLower (linkUpper s.mem b.start p) b.start p =
      setNext (setNext s.mem b.start (next s.mem p)) p b.start := by
  have hsize : sz s.mem b.start = b.size := inv.header b List.mem_cons_self
  have hupper : linkUpper s.mem b.start p = setNext s.mem b.start (next s.mem p) := by
    rw [linkUpper, if_neg]
    rw [hsize]
    exact fun h => apart (Or.inl h)
  rw [linkLower, hupper, if_neg]
  rw [sz_setNext (inv.clear (Or.inr List.mem_cons_self) (Or.inl hp))]
  exact fun h => apart (Or.inr h)

/-- The block joins the free list behind `p`. -/
theorem link_inv {nodes' us vs : List Nat} (hcut : base :: nodes = us ++ p :: vs)
    (hcut' : base :: nodes' = us ++ p :: b.start :: vs)
    (hsorted : (us ++ p :: b.start :: vs).Pairwise (· < ·)) :
    HeapInv base brk nodes' live
      { s with mem := setNext (setNext s.mem b.start (next s.mem p)) p b.start,
               freeHdr := p } := by
  obtain ⟨layout, _, _, fresh⟩ := inv.live_fresh
  have hperm := insert_perm hcut hcut'
  have hsize : sz s.mem b.start = b.size := inv.header b List.mem_cons_self
  have hblk : Header base nodes (b :: live) b.start := Or.inr List.mem_cons_self
  have hpb : b.start ≠ p := fun heq => fresh (heq ▸ hp)
  have fields {h : Nat} (hh : Header base nodes (b :: live) h) := link_fields inv hp hh
  have hfree : (freeBlocks (setNext (setNext s.mem b.start (next s.mem p)) p b.start)
      nodes').Perm (b :: freeBlocks s.mem nodes) :=
    freeBlocks_insert hperm ((fields hblk).1.trans hsize) fun h hh =>
      (fields (Or.inl (List.mem_cons_of_mem _ hh))).1
  refine ⟨?_, ?_, ?_, ?_, ?_, ?_⟩
  · exact layout.perm (hfree.append_right live).symm
  · have hnodup := nodup_of_sorted inv.sorted
    have hring := inv.ring
    rw [hcut] at hring hnodup
    rw [hcut']
    refine hring.insert ?_ ?_ fun x hx => ?_
    · rw [(fields (Or.inl hp)).2, if_pos rfl]
    · rw [(fields hblk).2, if_neg hpb, if_pos rfl]
    · have hxp : x ≠ p := ne_middle hnodup hx
      have hxmem : x ∈ base :: nodes := hcut ▸ mem_middle hx
      have hxb : x ≠ b.start := fun heq => fresh (heq ▸ hxmem)
      rw [(fields (Or.inl hxmem)).2, if_neg hxp, if_neg hxb]
  · rw [hcut']
    exact hsorted
  · rw [hcut']
    exact List.mem_append_right us List.mem_cons_self
  · rw [(fields (Or.inl List.mem_cons_self)).1]
    exact inv.baseSz
  · intro c hc
    rw [(fields (Or.inr (List.mem_map_of_mem (List.mem_cons_of_mem _ hc)))).1]
    exact inv.header c (List.mem_cons_of_mem _ hc)

end Free

/-- The block goes back behind the largest header below it. -/
theorem free_spec {b : Block} (inv : HeapInv base brk nodes (b :: live) s)
    (apart : ∀ hdr ∈ base :: nodes, Between s.mem b.start hdr →
      ¬ Merges s.mem b.start b.size hdr) :
    ∃ m p nodes' us vs, Returns (fun fuel => kernelFree fuel s (b.start + 8))
        { s with mem := m, freeHdr := p } ∧
      HeapInv base brk nodes' live { s with mem := m, freeHdr := p } ∧
      base :: nodes = us ++ p :: vs ∧ base :: nodes' = us ++ p :: b.start :: vs ∧
      (∀ y ∈ base :: nodes, y < b.start → y ≤ p) ∧
      (∀ h, Header base nodes (b :: live) h → sz m h = sz s.mem h) ∧
      (freeBlocks m nodes').Perm (b :: freeBlocks s.mem nodes) := by
  obtain ⟨_, above, hlt, fresh⟩ := inv.live_fresh
  obtain ⟨p, us, vs, hcut, hpb, hmax, hsorted⟩ := sorted_cut inv.sorted above fresh
  have hp : p ∈ base :: nodes := hcut ▸ List.mem_append_right us List.mem_cons_self
  have between {x : Nat} (hx : x ∈ base :: nodes) : Between s.mem b.start x ↔ x = p :=
    between_iff inv.ring inv.sorted above fresh hp hpb hmax hx
  obtain ⟨nodes', hcut'⟩ := exists_insert hcut b.start
  have hsz {h : Nat} (hh : Header base nodes (b :: live) h) := (link_fields inv hp hh).1
  refine ⟨_, p, nodes', us, vs, ?_, link_inv inv hp hcut hcut' hsorted, hcut, hcut', hmax,
    fun h hh => hsz hh, freeBlocks_insert (insert_perm hcut hcut') ?_ fun h hh => ?_⟩
  rotate_left
  · rw [hsz (Or.inr List.mem_cons_self)]
    exact inv.header b List.mem_cons_self
  · exact hsz (Or.inl (List.mem_cons_of_mem _ hh))
  have hptr : (b.start + 8 + (2 ^ 32 - headerSize)) % 2 ^ 32 = b.start := by
    rw [headerSize]
    omega
  have hfind := findBetween_returns inv.ring inv.sorted above fresh hp hpb hmax inv.freeHdr
  rw [← kernelFree_links inv hp (apart p hp ((between hp).mpr rfl))]
  simp only [kernelFree, hptr]
  exact hfind.map _

/-- An exact fit leaves the ring. -/
theorem take_exact (inv : HeapInv base brk nodes live s) {q h : Nat} (hq : q ∈ base :: nodes)
    (hqh : next s.mem q = h) (hne : h ≠ base) :
    ∃ nodes', HeapInv base brk nodes' (⟨h, sz s.mem h⟩ :: live)
        { s with mem := setNext s.mem q (next s.mem h), freeHdr := q } ∧
      (freeBlocks s.mem nodes).Perm
        (⟨h, sz s.mem h⟩ :: freeBlocks (setNext s.mem q (next s.mem h)) nodes') := by
  obtain ⟨us, vs, hcut⟩ := inv.ring.cut_next hq hqh hne
  obtain ⟨nodes', hcut'⟩ := exists_remove hcut
  have hperm : nodes.Perm (h :: nodes') := insert_perm hcut' hcut
  have hh : h ∈ nodes := hperm.mem_iff.mpr List.mem_cons_self
  have hmem {x : Nat} (hx : x ∈ us ++ q :: vs) : x ∈ base :: nodes := by
    rw [← hcut'] at hx
    rcases List.mem_cons.mp hx with rfl | hx
    · exact List.mem_cons_self
    · exact List.mem_cons_of_mem _ (hperm.mem_iff.mpr (List.mem_cons_of_mem _ hx))
  have fields {x : Nat} (hx : Header base nodes live x) :
      sz (setNext s.mem q (next s.mem h)) x = sz s.mem x ∧
        next (setNext s.mem q (next s.mem h)) x =
          if x = q then next s.mem h else next s.mem x := by
    have clear := inv.clear (Or.inl hq) hx
    exact ⟨sz_setNext clear, next_setNext clear (next_lt _ _)⟩
  have hfree : (freeBlocks s.mem nodes).Perm
      (⟨h, sz s.mem h⟩ :: freeBlocks (setNext s.mem q (next s.mem h)) nodes') :=
    freeBlocks_insert hperm rfl fun x hx =>
      (fields (Or.inl (hmem (hcut' ▸ List.mem_cons_of_mem base hx)))).1.symm
  refine ⟨nodes', ⟨?_, ?_, ?_, ?_, ?_, ?_⟩, hfree⟩
  · exact inv.layout.perm ((hfree.append_right live).trans List.perm_middle.symm)
  · have hring := inv.ring
    have hnodup := nodup_of_sorted inv.sorted
    rw [hcut] at hring hnodup
    rw [hcut']
    refine hring.remove ?_ fun x hx => ?_
    · rw [(fields (Or.inl hq)).2, if_pos rfl]
    · have hxq : x ≠ q := ne_middle hnodup (mem_middle hx)
      have hxmem := hmem (mem_middle hx)
      rw [(fields (Or.inl hxmem)).2, if_neg hxq]
  · have hsorted := inv.sorted
    rw [hcut] at hsorted
    rw [hcut']
    refine hsorted.sublist ?_
    exact (List.Sublist.refl us).append ((List.sublist_cons_self h vs).cons_cons q)
  · rw [hcut']
    exact List.mem_append_right us List.mem_cons_self
  · rw [(fields (Or.inl List.mem_cons_self)).1]
    exact inv.baseSz
  · intro c hc
    rcases List.mem_cons.mp hc with rfl | hc
    · exact (fields (Or.inl (List.mem_cons_of_mem _ hh))).1
    · rw [(fields (Or.inr (List.mem_map_of_mem hc))).1]
      exact inv.header c hc

section Split

variable (inv : HeapInv base brk nodes live s) {h n : Nat} (hh : h ∈ nodes) (hn : 8 ≤ n)
  (room : n + 8 ≤ sz s.mem h)

include inv hh hn room

/-- The blocks before and after a split; the new header is none of the old ones. -/
theorem split_layout : ∃ us vs, nodes = us ++ h :: vs ∧
    Layout base brk (⟨h, sz s.mem h - n⟩ :: ⟨h + (sz s.mem h - n), n⟩ ::
      (freeBlocks s.mem (us ++ vs) ++ live)) ∧
    ∀ x, Header base nodes live x → x ≠ h + (sz s.mem h - n) ∧
      Clear (h + (sz s.mem h - n)) x := by
  obtain ⟨us, vs, rfl⟩ := List.append_of_mem hh
  have hperm : (freeBlocks s.mem (us ++ h :: vs) ++ live).Perm
      (⟨h, sz s.mem h⟩ :: (freeBlocks s.mem (us ++ vs) ++ live)) :=
    (List.perm_middle.map _).append_right live
  have layout := (inv.layout.perm hperm).cut hn room
  have layoutNew := layout.perm (List.Perm.swap _ _ _)
  refine ⟨us, vs, rfl, layout, fun x hx => ?_⟩
  have hmem : x ∈ base :: (⟨h, sz s.mem h - n⟩ :: (freeBlocks s.mem (us ++ vs) ++ live) :
      List Block).map Block.start := by
    have hx := (header_iff (m := s.mem)).mpr hx
    have hstarts := (hperm.map Block.start).cons base
    exact hstarts.mem_iff.mp hx
  refine ⟨fun heq => layoutNew.fresh (heq ▸ hmem), layoutNew.clear ?_ ?_⟩
  · exact List.mem_cons_of_mem _ List.mem_cons_self
  · rw [List.map_cons]
    exact (List.sublist_cons_self _ _).cons_cons base |>.subset hmem

/-- A larger block stays in the ring and gives its upper end. -/
theorem take_split {q : Nat} (hq : q ∈ base :: nodes) :
    HeapInv base brk nodes (⟨h + (sz s.mem h - n), n⟩ :: live)
        { s with mem := setSz (setSz s.mem h (sz s.mem h - n)) (h + (sz s.mem h - n)) n,
                 freeHdr := q } ∧
      ∃ rest, (freeBlocks s.mem nodes).Perm (⟨h, sz s.mem h⟩ :: rest) ∧
        (freeBlocks (setSz (setSz s.mem h (sz s.mem h - n)) (h + (sz s.mem h - n)) n)
          nodes).Perm (⟨h, sz s.mem h - n⟩ :: rest) := by
  obtain ⟨us, vs, hcut, layout, hnew⟩ := split_layout inv hh hn room
  have hlt := sz_lt s.mem h
  have fields {x : Nat} (hx : Header base nodes live x) :
      next (setSz (setSz s.mem h (sz s.mem h - n)) (h + (sz s.mem h - n)) n) x =
          next s.mem x ∧
        sz (setSz (setSz s.mem h (sz s.mem h - n)) (h + (sz s.mem h - n)) n) x =
          if x = h then sz s.mem h - n else sz s.mem x := by
    obtain ⟨hne, clearNew⟩ := hnew x hx
    have clearOld := inv.clear (Or.inl (List.mem_cons_of_mem _ hh)) hx
    rw [next_setSz clearNew, next_setSz clearOld, sz_setSz clearNew (by omega), if_neg hne,
      sz_setSz clearOld (by omega)]
    exact ⟨rfl, rfl⟩
  have hfresh := layout.fresh
  have hother {x : Nat} (hx : x ∈ base :: (us ++ vs) ∨ x ∈ live.map Block.start) : x ≠ h := by
    rintro rfl
    have hmem := (header_iff (m := s.mem)).mpr hx
    refine hfresh ?_
    rw [List.map_cons]
    exact (List.sublist_cons_self _ _).cons_cons base |>.subset hmem
  have hfree : (freeBlocks (setSz (setSz s.mem h (sz s.mem h - n)) (h + (sz s.mem h - n)) n)
      nodes).Perm (⟨h, sz s.mem h - n⟩ :: freeBlocks s.mem (us ++ vs)) := by
    refine freeBlocks_insert (hcut ▸ List.perm_middle) ?_ fun x hx => ?_
    · rw [(fields (Or.inl (List.mem_cons_of_mem _ hh))).2, if_pos rfl]
    · have hxmem : x ∈ nodes := hcut ▸ mem_middle hx
      have hxh := hother (Or.inl (List.mem_cons_of_mem _ hx))
      rw [(fields (Or.inl (List.mem_cons_of_mem _ hxmem))).2, if_neg hxh]
  refine ⟨⟨?_, inv.ring.congr fun x hx => (fields (Or.inl hx)).1, inv.sorted, hq, ?_, ?_⟩,
    freeBlocks s.mem (us ++ vs), ?_, hfree⟩
  · refine layout.perm ?_
    refine List.Perm.trans ?_ (hfree.append_right _).symm
    exact (List.perm_middle.symm).cons _
  · rw [(fields (Or.inl List.mem_cons_self)).2, if_neg (hother (Or.inl List.mem_cons_self))]
    exact inv.baseSz
  · intro c hc
    rcases List.mem_cons.mp hc with rfl | hc
    · rw [sz_setSz (fun h => absurd rfl h) (by omega), if_pos rfl]
    · have hstart := List.mem_map_of_mem (f := Block.start) hc
      rw [(fields (Or.inr hstart)).2, if_neg (hother (Or.inr hstart))]
      exact inv.header c hc
  · exact freeBlocks_insert (hcut ▸ List.perm_middle) rfl fun _ _ => rfl

end Split

/-- What is left of a split block has room for its header. -/
def FitsWell (m : Bytes) (allocSz hdr : Nat) : Prop :=
  sz m hdr = allocSz ∨ allocSz + 8 ≤ sz m hdr

theorem take_spec (inv : HeapInv base brk nodes live s) {q h n : Nat} (hq : q ∈ base :: nodes)
    (hqh : next s.mem q = h) (hn : 8 ≤ n) (fits : FitsWell s.mem n h) :
    ∃ start nodes' rest, (takeHeader s q h n).1 = start + 8 ∧
      HeapInv base brk nodes' (⟨start, n⟩ :: live) (takeHeader s q h n).2 ∧
      (takeHeader s q h n).2.env = s.env ∧
      (freeBlocks s.mem nodes : Multiset Block) = ⟨h, sz s.mem h⟩ ::ₘ rest ∧
      Takes n ⟨h, sz s.mem h⟩ rest ⟨start, n⟩ (freeBlocks (takeHeader s q h n).2.mem nodes') := by
  have hne : h ≠ base := by
    rintro rfl
    have hbase := inv.baseSz
    rcases fits with hfit | hfit <;> omega
  have hh : h ∈ nodes := by
    have hring := inv.ring.mem_next hq
    rw [hqh] at hring
    exact (List.mem_cons.mp hring).resolve_left hne
  have hend := inv.layout.end_le _ (List.mem_append_left live (mem_freeBlocks s.mem hh))
  have hlt := inv.layout.brk_lt
  dsimp only at hend
  rcases fits with exactly | larger
  · obtain ⟨nodes', inv', hfree⟩ := take_exact inv hq hqh hne
    rw [exactly] at inv' hfree ⊢
    refine ⟨h, nodes', freeBlocks (setNext s.mem q (next s.mem h)) nodes', ?_, ?_, ?_, ?_, ?_⟩
    · simp only [takeHeader, if_pos exactly, headerSize]
      omega
    · simp only [takeHeader, if_pos exactly]
      exact inv'
    · simp only [takeHeader, if_pos exactly]
    · exact Multiset.coe_eq_coe.mpr hfree
    · simp only [takeHeader, if_pos exactly]
      exact .whole rfl
  · have hnot : ¬ sz s.mem h = n := by omega
    have hleft : sz (setSz s.mem h (sz s.mem h - n)) h = sz s.mem h - n := by
      rw [sz_setSz (fun h => absurd rfl h) (by omega), if_pos rfl]
    have hhdr : (h + (sz s.mem h - n)) % 2 ^ 32 = h + (sz s.mem h - n) :=
      Nat.mod_eq_of_lt (by omega)
    obtain ⟨inv', rest, hfree, hfree'⟩ := take_split inv hh hn larger hq
    refine ⟨h + (sz s.mem h - n), nodes, rest, ?_, ?_, ?_, ?_, ?_⟩
    · simp only [takeHeader, if_neg hnot, hleft, hhdr, headerSize]
      omega
    · simp only [takeHeader, if_neg hnot, hleft, hhdr]
      exact inv'
    · simp only [takeHeader, if_neg hnot]
    · exact Multiset.coe_eq_coe.mpr hfree
    · simp only [takeHeader, if_neg hnot, hleft, hhdr]
      rw [Multiset.coe_eq_coe.mpr hfree', ← Multiset.cons_coe]
      exact .upper larger

end FreeList
