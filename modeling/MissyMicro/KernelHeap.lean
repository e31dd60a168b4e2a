import Mathlib.Algebra.Group.Nat.Defs
import Mathlib.Data.List.Pairwise
import MissyMicro.LinkedRings
import MissyMicro.LittleEndian

/-!
# The kernel heap

`kernel_alloc` and `kernel_free` keep the free blocks in a ring of headers that
starts at the static header `base` and increases from there. Addresses and sizes
are 32-bit, sizes are in bytes, and adding a size to a header pointer counts in
headers. `kspace_sbrk` is a parameter.
-/

namespace KernelHeap

open LittleEndian LinkedRings

def minRequestSize : Nat := 1024
def headerSize : Nat := 8

def next (m : Bytes) (h : Nat) : Nat := (load32 m h).toNat
def sz (m : Bytes) (h : Nat) : Nat := (load32 m (h + 4)).toNat
def setNext (m : Bytes) (h x : Nat) : Bytes := store32 m h (BitVec.ofNat 32 x)
def setSz (m : Bytes) (h x : Nat) : Bytes := store32 m (h + 4) (BitVec.ofNat 32 x)

/-- `h + n` in the arithmetic of header pointers. -/
def headerAdd (h n : Nat) : Nat := (h + headerSize * n) % 2 ^ 32

structure Heap (σ : Type) where
  mem : Bytes
  freeHdr : Nat
  env : σ

/-- `kspace_sbrk`: the address it returns and the state after it. -/
abbrev Sbrk (σ : Type) := σ → Nat → Nat × σ

def sbrkFailed : Nat := 0xffffffff

/-- The loop of `kernel_free` stops at this header. -/
def Between (m : Bytes) (blk hdr : Nat) : Prop :=
  (hdr < blk ∧ blk < next m hdr) ∨ (next m hdr ≤ hdr ∧ (hdr < blk ∨ blk < next m hdr))

instance (m : Bytes) (blk hdr : Nat) : Decidable (Between m blk hdr) :=
  inferInstanceAs (Decidable (_ ∨ _))

def findBetween (m : Bytes) (blk : Nat) : Nat → Nat → Option Nat
  | 0, _ => none
  | fuel + 1, hdr =>
    if Between m blk hdr then some hdr else findBetween m blk fuel (next m hdr)

def linkUpper (m : Bytes) (blk hdr : Nat) : Bytes :=
  if headerAdd blk (sz m blk) = next m hdr then
    let m := setSz m blk ((sz m blk + sz m (next m hdr)) % 2 ^ 32)
    setNext m blk (next m (next m hdr))
  else setNext m blk (next m hdr)

def linkLower (m : Bytes) (blk hdr : Nat) : Bytes :=
  if headerAdd hdr (sz m hdr) = blk then
    let m := setSz m hdr ((sz m hdr + sz m blk) % 2 ^ 32)
    setNext m hdr (next m blk)
  else setNext m hdr blk

variable {σ : Type}

def kernelFree (fuel : Nat) (s : Heap σ) (mblock : Nat) : Option (Heap σ) :=
  let blk := (mblock + (2 ^ 32 - headerSize)) % 2 ^ 32
  (findBetween s.mem blk fuel s.freeHdr).map fun hdr =>
    { s with mem := linkLower (linkUpper s.mem blk hdr) blk hdr, freeHdr := hdr }

/-- A null pointer when there is no more memory. -/
def morecore (sbrk : Sbrk σ) (fuel : Nat) (s : Heap σ) (nu : Nat) : Option (Nat × Heap σ) :=
  let nu := (nu + headerSize) % 2 ^ 32
  let nu := if nu < minRequestSize then minRequestSize else nu
  let next := (sbrk s.env nu).1
  let s := { s with env := (sbrk s.env nu).2 }
  if next = sbrkFailed then some (0, s)
  else
    (kernelFree fuel { s with mem := setSz s.mem next nu } ((next + headerSize) % 2 ^ 32)).map
      fun s => (next, s)

/-- A header that is big enough gives its block or the upper end of it. -/
def takeHeader (s : Heap σ) (prevHdr hdr allocSz : Nat) : Nat × Heap σ :=
  if sz s.mem hdr = allocSz then
    ((hdr + headerSize) % 2 ^ 32,
      { s with mem := setNext s.mem prevHdr (next s.mem hdr), freeHdr := prevHdr })
  else
    let mem := setSz s.mem hdr (sz s.mem hdr - allocSz)
    let hdr := (hdr + sz mem hdr) % 2 ^ 32
    ((hdr + headerSize) % 2 ^ 32, { s with mem := setSz mem hdr allocSz, freeHdr := prevHdr })

/-- The loop of `kernel_alloc`. -/
def findHeader (sbrk : Sbrk σ) (allocSz : Nat) :
    Nat → Heap σ → Nat → Nat → Option (Nat × Heap σ)
  | 0, _, _, _ => none
  | fuel + 1, s, prevHdr, hdr =>
    if allocSz ≤ sz s.mem hdr then some (takeHeader s prevHdr hdr allocSz)
    else if hdr = s.freeHdr then
      (morecore sbrk fuel s allocSz).bind fun (hdr, s) =>
        if hdr = 0 then some (0, s)
        else findHeader sbrk allocSz fuel s hdr (next s.mem hdr)
    else findHeader sbrk allocSz fuel s hdr (next s.mem hdr)

/-- If no list exists, `base` alone becomes one. -/
def startList (base : Nat) (s : Heap σ) : Heap σ :=
  if s.freeHdr = 0 then
    { s with mem := setSz (setNext s.mem base base) base 0, freeHdr := base }
  else s

def kernelAlloc (sbrk : Sbrk σ) (base fuel : Nat) (s : Heap σ) (nbytes : Nat) :
    Option (Nat × Heap σ) :=
  let allocSz := (nbytes + headerSize) % 2 ^ 32
  let s := startList base s
  findHeader sbrk allocSz fuel s s.freeHdr (next s.mem s.freeHdr)

theorem findBetween_stable (m : Bytes) (blk hdr : Nat) :
    Stable (fun fuel => findBetween m blk fuel hdr) := by
  intro fuel r h
  induction fuel generalizing hdr with
  | zero => cases h
  | succ fuel ih =>
    dsimp only at h ih ⊢
    rw [findBetween] at h ⊢
    split at h
    · rename_i between
      rwa [if_pos between]
    · rename_i between
      rw [if_neg between]
      exact ih _ h

theorem kernelFree_stable (s : Heap σ) (mblock : Nat) :
    Stable (fun fuel => kernelFree fuel s mblock) :=
  (findBetween_stable _ _ _).map _

theorem morecore_stable (sbrk : Sbrk σ) (s : Heap σ) (nu : Nat) :
    Stable (fun fuel => morecore sbrk fuel s nu) := by
  intro fuel r h
  simp only [morecore] at h ⊢
  generalize (if (nu + headerSize) % 2 ^ 32 < minRequestSize then minRequestSize
    else (nu + headerSize) % 2 ^ 32) = size at h ⊢
  by_cases failed : (sbrk s.env size).1 = sbrkFailed
  · rwa [if_pos failed] at h ⊢
  · rw [if_neg failed] at h ⊢
    exact (kernelFree_stable _ _).map _ fuel r h

theorem findHeader_stable (sbrk : Sbrk σ) (allocSz : Nat) (s : Heap σ) (prevHdr hdr : Nat) :
    Stable (fun fuel => findHeader sbrk allocSz fuel s prevHdr hdr) := by
  intro fuel r h
  induction fuel generalizing s prevHdr hdr with
  | zero => cases h
  | succ fuel ih =>
    dsimp only at h ih ⊢
    rw [findHeader] at h ⊢
    by_cases fits : allocSz ≤ sz s.mem hdr
    · rwa [if_pos fits] at h ⊢
    · rw [if_neg fits] at h ⊢
      by_cases around : hdr = s.freeHdr
      · rw [if_pos around] at h ⊢
        obtain ⟨⟨fetched, t⟩, hmore, hrest⟩ := Option.bind_eq_some_iff.mp h
        refine Option.bind_eq_some_iff.mpr ⟨⟨fetched, t⟩, morecore_stable _ _ _ _ _ hmore, ?_⟩
        dsimp only at hrest ⊢
        split at hrest
        · rename_i null
          rwa [if_pos null]
        · rename_i nonnull
          rw [if_neg nonnull]
          exact ih _ _ _ hrest
      · rw [if_neg around] at h ⊢
        exact ih _ _ _ h

/-- More fuel never changes what `kernel_alloc` returns. -/
theorem kernelAlloc_stable (sbrk : Sbrk σ) (base : Nat) (s : Heap σ) (nbytes : Nat) :
    Stable (fun fuel => kernelAlloc sbrk base fuel s nbytes) :=
  findHeader_stable sbrk _ _ _ _

section Fields

variable {m : Bytes} {h h' x : Nat}

/-- Two headers that are one or do not meet. -/
def Clear (h h' : Nat) : Prop := h' ≠ h → h + 8 ≤ h' ∨ h' + 8 ≤ h

theorem toNat_ofNat_of_lt (hx : x < 2 ^ 32) : (BitVec.ofNat 32 x).toNat = x := by
  rw [BitVec.toNat_ofNat, Nat.mod_eq_of_lt hx]

theorem next_setNext (clear : Clear h h') (hx : x < 2 ^ 32) :
    next (setNext m h x) h' = if h' = h then x else next m h' := by
  by_cases heq : h' = h
  · subst h'
    rw [if_pos rfl, next, setNext, load32_store32_same, toNat_ofNat_of_lt hx]
  · rw [if_neg heq, next, next, setNext, load32_store32_disjoint]
    rcases clear heq with hc | hc <;> omega

theorem sz_setNext (clear : Clear h h') : sz (setNext m h x) h' = sz m h' := by
  rw [sz, sz, setNext, load32_store32_disjoint]
  by_cases heq : h' = h
  · omega
  · rcases clear heq with hc | hc <;> omega

theorem next_setSz (clear : Clear h h') : next (setSz m h x) h' = next m h' := by
  rw [next, next, setSz, load32_store32_disjoint]
  by_cases heq : h' = h
  · omega
  · rcases clear heq with hc | hc <;> omega

theorem sz_setSz (clear : Clear h h') (hx : x < 2 ^ 32) :
    sz (setSz m h x) h' = if h' = h then x else sz m h' := by
  by_cases heq : h' = h
  · subst h'
    rw [if_pos rfl, sz, setSz, load32_store32_same, toNat_ofNat_of_lt hx]
  · rw [if_neg heq, sz, sz, setSz, load32_store32_disjoint]
    rcases clear heq with hc | hc <;> omega

theorem next_lt (m : Bytes) (h : Nat) : next m h < 2 ^ 32 := (load32 m h).isLt

theorem sz_lt (m : Bytes) (h : Nat) : sz m h < 2 ^ 32 := (load32 m (h + 4)).isLt

end Fields

structure Block where
  start : Nat
  size : Nat

def Block.Apart (b c : Block) : Prop :=
  b.start + b.size ≤ c.start ∨ c.start + c.size ≤ b.start

theorem Block.Apart.symm {b c : Block} (h : b.Apart c) : c.Apart b := Or.symm h

instance : Std.Symm Block.Apart := ⟨fun _ _ h => h.symm⟩

/-- Blocks that do not meet each other and lie between `base` and the break. -/
structure Layout (base brk : Nat) (blocks : List Block) : Prop where
  base_pos : 0 < base
  base_le : base + 8 ≤ brk
  brk_lt : brk < 2 ^ 32
  size_le : ∀ b ∈ blocks, 8 ≤ b.size
  start_le : ∀ b ∈ blocks, base + 8 ≤ b.start
  end_le : ∀ b ∈ blocks, b.start + b.size ≤ brk
  apart : blocks.Pairwise Block.Apart

section Layouts

variable {base brk : Nat} {b : Block} {blocks blocks' : List Block}

theorem Layout.perm (layout : Layout base brk blocks) (h : blocks.Perm blocks') :
    Layout base brk blocks' where
  base_pos := layout.base_pos
  base_le := layout.base_le
  brk_lt := layout.brk_lt
  size_le := fun b hb => layout.size_le b (h.mem_iff.mpr hb)
  start_le := fun b hb => layout.start_le b (h.mem_iff.mpr hb)
  end_le := fun b hb => layout.end_le b (h.mem_iff.mpr hb)
  apart := h.pairwise layout.apart (fun h => h.symm)

/-- The upper end of a block becomes a block of its own. -/
theorem Layout.cut (layout : Layout base brk (b :: blocks)) {n : Nat} (hn : 8 ≤ n)
    (room : n + 8 ≤ b.size) :
    Layout base brk (⟨b.start, b.size - n⟩ :: ⟨b.start + (b.size - n), n⟩ :: blocks) := by
  obtain ⟨hapart, hrest⟩ := List.pairwise_cons.mp layout.apart
  have hstart := layout.start_le b List.mem_cons_self
  have hend := layout.end_le b List.mem_cons_self
  have old {c : Block} (hc : c ∈ blocks) : c ∈ b :: blocks := List.mem_cons_of_mem _ hc
  refine ⟨layout.base_pos, layout.base_le, layout.brk_lt, ?_, ?_, ?_, ?_⟩
  · intro c hc
    rcases List.mem_cons.mp hc with rfl | hc
    · exact Nat.le_sub_of_add_le (by omega)
    · rcases List.mem_cons.mp hc with rfl | hc
      · exact hn
      · exact layout.size_le c (old hc)
  · intro c hc
    rcases List.mem_cons.mp hc with rfl | hc
    · exact hstart
    · rcases List.mem_cons.mp hc with rfl | hc
      · exact le_trans hstart (Nat.le_add_right _ _)
      · exact layout.start_le c (old hc)
  · intro c hc
    rcases List.mem_cons.mp hc with rfl | hc
    · dsimp only
      omega
    · rcases List.mem_cons.mp hc with rfl | hc
      · dsimp only
        omega
      · exact layout.end_le c (old hc)
  · refine List.pairwise_cons.mpr ⟨fun c hc => ?_, List.pairwise_cons.mpr ⟨fun c hc => ?_, hrest⟩⟩
    · rcases List.mem_cons.mp hc with rfl | hc
      · exact Or.inl (le_refl _)
      · rcases hapart c hc with h | h
        · exact Or.inl (by dsimp only; omega)
        · exact Or.inr h
    · rcases hapart c hc with h | h
      · exact Or.inl (by dsimp only; omega)
      · exact Or.inr (le_trans h (Nat.le_add_right _ _))

/-- A fresh block at the break. -/
theorem Layout.extend (layout : Layout base brk blocks) {n : Nat} (hn : 8 ≤ n)
    (room : brk + n < 2 ^ 32) : Layout base (brk + n) (⟨brk, n⟩ :: blocks) := by
  have hbase := layout.base_le
  refine ⟨layout.base_pos, le_trans hbase (Nat.le_add_right _ _), room, ?_, ?_, ?_, ?_⟩
  · intro c hc
    rcases List.mem_cons.mp hc with rfl | hc
    · exact hn
    · exact layout.size_le c hc
  · intro c hc
    rcases List.mem_cons.mp hc with rfl | hc
    · exact hbase
    · exact layout.start_le c hc
  · intro c hc
    rcases List.mem_cons.mp hc with rfl | hc
    · exact le_refl _
    · exact le_trans (layout.end_le c hc) (Nat.le_add_right _ _)
  · exact List.pairwise_cons.mpr ⟨fun c hc => Or.inr (layout.end_le c hc), layout.apart⟩

/-- No two blocks have one header. -/
theorem Layout.fresh (layout : Layout base brk (b :: blocks)) :
    b.start ∉ base :: blocks.map Block.start := by
  have hstart := layout.start_le b List.mem_cons_self
  have hb := layout.size_le b List.mem_cons_self
  intro hmem
  rcases List.mem_cons.mp hmem with heq | hmem
  · omega
  · obtain ⟨c, hc, heq⟩ := List.mem_map.mp hmem
    have hsize := layout.size_le c (List.mem_cons_of_mem _ hc)
    rcases (List.pairwise_cons.mp layout.apart).1 c hc with h | h <;> omega

/-- The headers of `base` and of all blocks are clear of each other. -/
theorem Layout.clear (layout : Layout base brk blocks) {h h' : Nat}
    (hh : h ∈ base :: blocks.map Block.start) (hh' : h' ∈ base :: blocks.map Block.start) :
    Clear h h' := by
  intro hne
  rcases List.mem_cons.mp hh with rfl | hh
  · rcases List.mem_cons.mp hh' with rfl | hh'
    · exact absurd rfl hne
    · obtain ⟨c, hc, rfl⟩ := List.mem_map.mp hh'
      exact Or.inl (layout.start_le c hc)
  · obtain ⟨b, hb, rfl⟩ := List.mem_map.mp hh
    rcases List.mem_cons.mp hh' with rfl | hh'
    · exact Or.inr (layout.start_le b hb)
    · obtain ⟨c, hc, rfl⟩ := List.mem_map.mp hh'
      have hbc : b ≠ c := fun heq => hne (congrArg Block.start heq.symm)
      have hsize := layout.size_le b hb
      have hsize' := layout.size_le c hc
      rcases layout.apart.forall hb hc hbc with h | h <;> omega

theorem Layout.payload (layout : Layout base brk blocks) (hb : b ∈ blocks) {addr : Nat}
    (hlo : b.start + 8 ≤ addr) (hhi : addr < b.start + b.size) :
    ∀ h ∈ base :: blocks.map Block.start, addr < h ∨ h + 8 ≤ addr := by
  have hstart := layout.start_le b hb
  intro h hh
  rcases List.mem_cons.mp hh with rfl | hh
  · omega
  · obtain ⟨c, hc, rfl⟩ := List.mem_map.mp hh
    have hsize := layout.size_le c hc
    by_cases hbc : b = c
    · subst hbc
      exact Or.inr hlo
    · rcases layout.apart.forall hb hc hbc with h | h <;> omega

end Layouts

end KernelHeap
