import MissyMicro.PageTables
import MissyMicro.TransitionRuns

/-!
# The page tables as a finite map

Abstractly an address space maps virtual pages to frames, and mapping and
unmapping change one page at a time. The tables refine that map as long as the
frames of the directory and of its tables are distinct blocks marked used.
-/

namespace PageMapping

open PackedBits BlockAllocator Words Mmu PageTables TransitionRuns
open BlockAllocator.Balloc

/-! ## The abstract map -/

inductive PageCall where
  | map (phys virt : U32) (result : Int)
  | unmap (virt result : U32)

/-- The virtual page that a call is about. -/
def PageCall.page : PageCall → Nat
  | .map _ virt _ => frameOf virt
  | .unmap virt _ => frameOf virt

inductive MapStep : (Nat → Option U32) → PageCall → (Nat → Option U32) → Prop
  | map {T : Nat → Option U32} {phys virt : U32} : T (frameOf virt) = none →
      MapStep T (.map phys virt 0) (Function.update T (frameOf virt) (some phys))
  | taken {T : Nat → Option U32} {phys virt : U32} : T (frameOf virt) ≠ none →
      MapStep T (.map phys virt (-1)) T
  | unmap {T : Nat → Option U32} {virt : U32} :
      MapStep T (.unmap virt ((T (frameOf virt)).getD 0))
        (Function.update T (frameOf virt) none)

theorem MapStep.other {T T' : Nat → Option U32} {call : PageCall} (h : MapStep T call T')
    {v : Nat} (hv : call.page ≠ v) : T' v = T v := by
  cases h with
  | map => exact Function.update_of_ne (Ne.symm hv) _ _
  | taken => rfl
  | unmap => exact Function.update_of_ne (Ne.symm hv) _ _

/-! ## The tables -/

inductive Step : Machine → PageCall → Machine → Prop
  | map {s t : Machine} {phys virt : U32} {result : Int} :
      vmmngrMapPage s phys virt = some (result, t) → Step s (.map phys virt result) t
  | unmap {s t : Machine} {virt result : U32} :
      vmmngrUnmapPage s virt = some (result, t) → Step s (.unmap virt result) t

/-- If a table is missing, a block is left for it, and `memset` makes it zero. -/
def Supplied (s : Machine) (t : Nat) : Prop :=
  ¬ Present (s.pde t) → (ballocGet s.balloc).1 ≠ 0 ∧ ∀ p, p < 1024 → (s.newTable t).pte t p = 0

/-- What the callers and the allocator promise for one call. -/
def Assumed (s : Machine) : PageCall → Prop
  | .map phys virt _ => phys.toNat % 4096 = 0 ∧ Below virt ∧ Supplied s (pdeIndex virt)
  | .unmap virt _ => Below virt

/-- The frames of the directory and of its tables are distinct and marked used. -/
structure Owned (s : Machine) : Prop where
  window : Window s
  dirUsed : s.balloc.MarkedUsed (frameOf s.cr3)
  used : ∀ t, t < 1023 → Present (s.pde t) → s.balloc.MarkedUsed (s.table t)
  apart : ∀ t, t < 1023 → Present (s.pde t) → s.table t ≠ frameOf s.cr3
  distinct : ∀ t t', t < 1023 → t' < 1023 → Present (s.pde t) → Present (s.pde t') →
    s.table t = s.table t' → t = t'

/-- What page `p` of table `t` is mapped to. -/
def entry (s : Machine) (t p : Nat) : Option U32 :=
  if Present (s.pde t) ∧ Present (s.pte t p) then some (s.pte t p &&& ~~~0xfff) else none

/-- The translation the processor derives for the pages below the window. -/
def translation (s : Machine) (v : Nat) : Option U32 :=
  if v < 0xFFC00 then translateVirt s.mem s.cr3 (BitVec.ofNat 32 (v * 4096)) else none

theorem translation_eq (s : Machine) {v : Nat} (hv : v < 0xFFC00) :
    translation s v = entry s (v / 1024) (v % 1024) := by
  have hva : (BitVec.ofNat 32 (v * 4096)).toNat = v * 4096 := by
    rw [BitVec.toNat_ofNat]
    omega
  have hd : pdeIndex (BitVec.ofNat 32 (v * 4096)) = v / 1024 := by
    rw [pdeIndex, hva]
    omega
  have hp : pteIndex (BitVec.ofNat 32 (v * 4096)) = v % 1024 := by
    rw [pteIndex, hva]
    omega
  rw [translation, if_pos hv, translateVirt, walk, hd, hp, entry]
  change Option.map _ (if Present (s.pde (v / 1024)) then
    if Present (s.pte (v / 1024) (v % 1024)) then some (s.pte (v / 1024) (v % 1024)) else none
    else none) = _
  by_cases hdir : Present (s.pde (v / 1024))
  · by_cases hent : Present (s.pte (v / 1024) (v % 1024))
    · rw [if_pos hdir, if_pos hent, if_pos ⟨hdir, hent⟩]
      rfl
    · rw [if_pos hdir, if_neg hent, if_neg (fun h => hent h.2)]
      rfl
  · rw [if_neg hdir, if_neg (fun h => hdir h.1)]
    rfl

/-- The page number of an address splits into its two table indices. -/
theorem translation_page (s : Machine) {virt : U32} (below : Below virt) :
    translation s (frameOf virt) = entry s (pdeIndex virt) (pteIndex virt) := by
  rw [Below] at below
  have hlt : frameOf virt < 0xFFC00 := by
    rw [frameOf]
    omega
  have hd : frameOf virt / 1024 = pdeIndex virt := by
    rw [frameOf, pdeIndex]
    omega
  rw [translation_eq s hlt, hd]
  rfl

/-- A change of one entry is a change of one page. -/
theorem translation_update {s s' : Machine} {virt : U32} (below : Below virt) {x : Option U32}
    (h : ∀ t p, t < 1023 → p < 1024 → entry s' t p =
      if pdeIndex virt = t ∧ pteIndex virt = p then x else entry s t p) :
    translation s' = Function.update (translation s) (frameOf virt) x := by
  rw [Below] at below
  funext v
  by_cases hv : v < 0xFFC00
  · rw [translation_eq s' hv, h _ _ (by omega) (Nat.mod_lt _ (by decide))]
    by_cases heq : v = frameOf virt
    · subst v
      have hd : pdeIndex virt = frameOf virt / 1024 := by
        rw [frameOf, pdeIndex]
        omega
      rw [if_pos ⟨hd, rfl⟩, Function.update_self]
    · have hne : ¬ (pdeIndex virt = v / 1024 ∧ pteIndex virt = v % 1024) := by
        rintro ⟨hd, hp⟩
        rw [pdeIndex] at hd
        rw [pteIndex] at hp
        rw [frameOf] at heq
        omega
      rw [if_neg hne, Function.update_of_ne heq, translation_eq s hv]
  · have hne : v ≠ frameOf virt := by
      rw [frameOf]
      omega
    rw [Function.update_of_ne hne, translation, translation, if_neg hv, if_neg hv]

/-! ## Setting an entry -/

theorem or_three_masked {phys : U32} (aligned : phys.toNat % 4096 = 0) :
    (phys ||| 3) &&& ~~~0xfff = phys := by
  apply BitVec.eq_of_toNat_eq
  have hmask : ((phys ||| 3) &&& ~~~0xfff#32).toNat = _ := toNat_and_not_pageMask (phys ||| 3)
  have hdiv := frameOf_or_three phys
  rw [frameOf, frameOf] at hdiv
  change ((phys ||| 3) &&& ~~~0xfff#32).toNat = _
  rw [hmask, hdiv]
  omega

section SetPte

variable {s : Machine} (owned : Owned s) {t p : Nat} (ht : t < 1023) (present : Present (s.pde t))
  (x : U32)

include owned ht present

theorem setPte_pde (t' : Nat) : (s.setPte t p x).pde t' = s.pde t' :=
  Machine.poke_pde_other (owned.apart t ht present) p x t'

theorem setPte_table (t' : Nat) : (s.setPte t p x).table t' = s.table t' :=
  Machine.poke_table_other (owned.apart t ht present) p x t'

/-- Distinct tables do not see each other's entries. -/
theorem setPte_pte {t' : Nat} (ht' : t' < 1023) (present' : Present (s.pde t')) (p' : Nat) :
    (s.setPte t p x).pte t' p' = if t = t' ∧ p = p' then x else s.pte t' p' := by
  rw [Machine.setPte, Machine.poke_pte_other (owned.apart t ht present)]
  by_cases h : t = t' ∧ p = p'
  · obtain ⟨rfl, rfl⟩ := h
    rw [if_pos ⟨rfl, rfl⟩, if_pos ⟨rfl, rfl⟩]
  · rw [if_neg h, if_neg]
    rintro ⟨hframe, hword⟩
    exact h ⟨owned.distinct t t' ht ht' present present' hframe, hword⟩

theorem setPte_owned : Owned (s.setPte t p x) := by
  have hpde := setPte_pde owned ht present (p := p) x
  have htable := setPte_table owned ht present (p := p) x
  refine ⟨owned.window.poke x (Or.inl (owned.apart t ht present)), owned.dirUsed, ?_, ?_, ?_⟩
  · intro t' ht' present'
    rw [hpde] at present'
    rw [htable]
    exact owned.used t' ht' present'
  · intro t' ht' present'
    rw [hpde] at present'
    rw [htable]
    exact owned.apart t' ht' present'
  · intro t' u ht' hu hpt hpu hframe
    rw [hpde] at hpt hpu
    rw [htable, htable] at hframe
    exact owned.distinct t' u ht' hu hpt hpu hframe

theorem setPte_entry {t' : Nat} (ht' : t' < 1023) (p' : Nat) :
    entry (s.setPte t p x) t' p' =
      if t = t' ∧ p = p' then (if Present x then some (x &&& ~~~0xfff) else none)
      else entry s t' p' := by
  rw [entry, entry, setPte_pde owned ht present]
  by_cases present' : Present (s.pde t')
  · rw [setPte_pte owned ht present x ht' present']
    by_cases h : t = t' ∧ p = p'
    · simp only [if_pos h, present', true_and]
    · simp only [if_neg h]
  · have hne : ¬ (t = t' ∧ p = p') := by
      rintro ⟨rfl, _⟩
      exact present' present
    rw [if_neg hne, if_neg (fun h => present' h.1), if_neg (fun h => present' h.1)]

end SetPte

/-! ## Making and dropping a table -/

/-- The block that `balloc_get` hands out, and the bitmap after it. -/
theorem ballocGet_fresh {b : Balloc} (h : (ballocGet b).1 ≠ 0) :
    frameOf (ballocGet b).1 ≠ 0 ∧ frameOf (ballocGet b).1 < b.capacity ∧
      ¬ b.Used (frameOf (ballocGet b).1) ∧
      (∀ c, (ballocGet b).2.Used c ↔ frameOf (ballocGet b).1 = c ∨ b.Used c) ∧
      (ballocGet b).2.freeBlocks = b.freeBlocks - 1 := by
  rcases ballocGet_cases b with ⟨_, hnull⟩ | ⟨c, b', h0, hlt, unused, _, heq, bits, count, _⟩
  · rw [hnull] at h
    exact absurd rfl h
  · have hframe : frameOf (BitVec.ofNat 32 (c * memoryBlockSize)) = c :=
      blockOf_block (lt_of_lt_of_le hlt b.capacity_le)
    rw [heq, hframe]
    refine ⟨h0, hlt, unused, fun d => ?_, count⟩
    rw [Used, bits, testBit_setBit (by decide)]
    simp [Used]

theorem ballocGet_keeps {b : Balloc} {c : Nat} (h : b.MarkedUsed c) :
    (ballocGet b).2.MarkedUsed c := by
  rw [MarkedUsed, (ballocGet_bounds b).capacity]
  refine ⟨h.1, ?_⟩
  by_cases hnull : (ballocGet b).1 = 0
  · rcases ballocGet_cases b with ⟨_, heq⟩ | ⟨d, b', h0, hlt, _, _, heq, _⟩
    · rw [heq]
      exact h.2
    · rw [heq] at hnull
      exact absurd hnull (block_ne_zero (lt_of_lt_of_le hlt b.capacity_le) h0)
  · exact ((ballocGet_fresh hnull).2.2.2.1 c).mpr (Or.inr h.2)

/-- The frame of the next table serves nothing else yet. -/
structure Spare (s : Machine) : Prop where
  dir : frameOf (ballocGet s.balloc).1 ≠ frameOf s.cr3
  tables : ∀ t, t < 1023 → Present (s.pde t) → s.table t ≠ frameOf (ballocGet s.balloc).1
  marked : (ballocGet s.balloc).2.MarkedUsed (frameOf (ballocGet s.balloc).1)

theorem Owned.spare {s : Machine} (owned : Owned s) (nonnull : (ballocGet s.balloc).1 ≠ 0) :
    Spare s := by
  obtain ⟨_, hlt, unused, used, _⟩ := ballocGet_fresh nonnull
  refine ⟨fun h => unused (h ▸ owned.dirUsed.2), ?_, ?_⟩
  · exact fun t ht present h => unused (h ▸ (owned.used t ht present).2)
  · rw [MarkedUsed, (ballocGet_bounds s.balloc).capacity]
    exact ⟨hlt, (used _).mpr (Or.inl rfl)⟩

section NewTable

variable {s : Machine} (owned : Owned s) (spare : Spare s)

include spare

theorem newTable_pde_other {t t' : Nat} (h : t ≠ t') : (s.newTable t).pde t' = s.pde t' := by
  rw [newTable_pde spare.dir, if_neg h]

theorem newTable_table_other {t t' : Nat} (h : t ≠ t') : (s.newTable t).table t' = s.table t' := by
  rw [Machine.table, newTable_pde_other spare h, Machine.table]

/-- The entries of the new table, which hold what its frame held. -/
theorem newTable_pte (t p : Nat) : (s.newTable t).pte t p =
    if p = 0 then setByte (s.mem (frameOf (ballocGet s.balloc).1) 0) 0 0
    else s.mem (frameOf (ballocGet s.balloc).1) p := by
  rw [Machine.pte, newTable_table spare.dir, Machine.newTable, Machine.poke_mem]
  by_cases h : p = 0
  · rw [h, put_same, if_pos rfl]
  · rw [put_word _ _ _ _ h, if_neg h, Machine.newEntry, Machine.poke_mem,
      put_frame _ _ _ _ spare.dir]

variable {t : Nat} (ht : t < 1023) (absent : ¬ Present (s.pde t))

include owned

/-- An old table keeps its entries. -/
theorem newTable_pte_other {t' : Nat} (ht' : t' < 1023) (present : Present (s.pde t'))
    (h : t ≠ t') (p : Nat) : (s.newTable t).pte t' p = s.pte t' p := by
  have hframe := spare.tables t' ht' present
  have hdir := owned.apart t' ht' present
  rw [Machine.pte, newTable_table_other spare h, Machine.newTable,
    Machine.poke_mem, put_frame _ _ _ _ hframe, Machine.newEntry, Machine.poke_mem,
    put_frame _ _ _ _ hdir]
  rfl

include ht

theorem newTable_owned : Owned (s.newTable t) := by
  have htable := newTable_table (s := s) spare.dir t
  have old {t' : Nat} (h : t ≠ t') (present : Present ((s.newTable t).pde t')) :
      Present (s.pde t') ∧ (s.newTable t).table t' = s.table t' := by
    rw [newTable_pde_other spare h] at present
    exact ⟨present, newTable_table_other spare h⟩
  refine ⟨newTable_window spare.dir owned.window ht, ballocGet_keeps owned.dirUsed, ?_, ?_, ?_⟩
  · intro t' ht' present
    by_cases h : t = t'
    · subst t'
      rw [htable]
      exact spare.marked
    · obtain ⟨present', hsame⟩ := old h present
      rw [hsame]
      exact ballocGet_keeps (owned.used t' ht' present')
  · intro t' ht' present
    by_cases h : t = t'
    · subst t'
      rw [htable]
      exact spare.dir
    · obtain ⟨present', hsame⟩ := old h present
      rw [hsame]
      exact owned.apart t' ht' present'
  · intro t' u ht' hu hpt hpu hframe
    by_cases h : t = t'
    · by_cases h' : t = u
      · exact h.symm.trans h'
      · subst t'
        obtain ⟨present', hsame⟩ := old h' hpu
        rw [htable, hsame] at hframe
        exact absurd hframe.symm (spare.tables u hu present')
    · obtain ⟨present', hsame⟩ := old h hpt
      rw [hsame] at hframe
      by_cases h' : t = u
      · subst u
        rw [htable] at hframe
        exact absurd hframe (spare.tables t' ht' present')
      · obtain ⟨present'', hsame'⟩ := old h' hpu
        rw [hsame'] at hframe
        exact owned.distinct t' u ht' hu present' present'' hframe

omit ht

include absent

/-- Whatever the new table holds, no old entry is lost. -/
theorem newTable_entry_of_mapped {t' p : Nat} (ht' : t' < 1023) (mapped : entry s t' p ≠ none) :
    entry (s.newTable t) t' p = entry s t' p := by
  have present : Present (s.pde t') := by
    by_contra habsent
    exact mapped (if_neg (fun h => habsent h.1))
  have h : t ≠ t' := fun h => absent (h ▸ present)
  rw [entry, entry, newTable_pde_other spare h,
    newTable_pte_other owned spare ht' present h]

theorem newTable_entry (zeroed : ∀ p, p < 1024 → (s.newTable t).pte t p = 0) {t' p : Nat}
    (ht' : t' < 1023) (hp : p < 1024) : entry (s.newTable t) t' p = entry s t' p := by
  by_cases mapped : entry s t' p = none
  · rw [mapped, entry, if_neg]
    rintro ⟨present, hentry⟩
    by_cases h : t = t'
    · subst t'
      have hzero : ¬ Present (0 : U32) := by decide
      rw [zeroed p hp] at hentry
      exact hzero hentry
    · rw [newTable_pde_other spare h] at present
      rw [newTable_pte_other owned spare ht' present h] at hentry
      rw [entry, if_pos ⟨present, hentry⟩] at mapped
      exact Option.some_ne_none _ mapped
  · exact newTable_entry_of_mapped owned spare absent ht' mapped

end NewTable

theorem blockOf_masked (pde : U32) : blockOf (pde &&& 0xFFFFF000) = frameOf pde := by
  have hmask : (pde &&& 0xFFFFF000).toNat = _ := toNat_and_not_pageMask pde
  rw [blockOf, hmask, memoryBlockSize, frameOf, Nat.mul_div_cancel _ (by decide)]

/-- Giving back a table takes at most its own frame off the bitmap. -/
theorem dropTable_used (s : Machine) {t c : Nat} (h : c ≠ s.table t) :
    (s.dropTable t).balloc.Used c ↔ s.balloc.Used c := by
  change (ballocFree s.balloc (s.pde t &&& 0xFFFFF000)).Used c ↔ _
  by_cases hnull : s.pde t &&& 0xFFFFF000 = 0
  · rw [hnull, ballocFree_null]
  · rw [ballocFree_used hnull, blockOf_masked]
    exact and_iff_right h

section DropTable

variable {s : Machine} (owned : Owned s) {t : Nat} (ht : t < 1023) (present : Present (s.pde t))

theorem dropTable_pde (t' : Nat) : (s.dropTable t).pde t' = if t = t' then 0 else s.pde t' := by
  rw [Machine.dropTable, Machine.poke_pde]
  simp [Machine.pde]

theorem dropTable_keeps {f : Nat} (hf : s.balloc.MarkedUsed f) (h : f ≠ s.table t) :
    (s.dropTable t).balloc.MarkedUsed f := by
  have bounds : SameBounds s.balloc (s.dropTable t).balloc :=
    ballocFree_bounds s.balloc (s.pde t &&& 0xFFFFF000)
  rw [MarkedUsed, bounds.capacity, dropTable_used s h]
  exact hf

/-- The entries that are present after a table went were present before. -/
theorem dropTable_present {t' : Nat} (h : Present ((s.dropTable t).pde t')) :
    t ≠ t' ∧ Present (s.pde t') ∧ (s.dropTable t).table t' = s.table t' := by
  have hzero : ¬ Present (0 : U32) := by decide
  rw [dropTable_pde] at h
  by_cases heq : t = t'
  · rw [if_pos heq] at h
    exact absurd h hzero
  · rw [if_neg heq] at h
    refine ⟨heq, h, ?_⟩
    rw [Machine.table, dropTable_pde, if_neg heq, Machine.table]

include owned

theorem dropTable_pte {t' : Nat} (ht' : t' < 1023) (present' : Present (s.pde t')) (h : t ≠ t')
    (p : Nat) : (s.dropTable t).pte t' p = s.pte t' p := by
  have htable : (s.dropTable t).table t' = s.table t' := by
    rw [Machine.table, dropTable_pde, if_neg h, Machine.table]
  rw [Machine.pte, htable, Machine.dropTable, Machine.poke_mem,
    put_frame _ _ _ _ (owned.apart t' ht' present')]
  rfl

theorem dropTable_entry (empty : s.Empty t) {t' p : Nat} (ht' : t' < 1023) (hp : p < 1024) :
    entry (s.dropTable t) t' p = entry s t' p := by
  have hzero : ¬ Present (0 : U32) := by decide
  rw [entry, entry, dropTable_pde]
  by_cases h : t = t'
  · subst t'
    rw [if_pos rfl, if_neg (fun h => hzero h.1), if_neg (fun h => empty p hp h.2)]
  · rw [if_neg h]
    by_cases present' : Present (s.pde t')
    · rw [dropTable_pte owned ht' present' h]
    · rw [if_neg (fun h => present' h.1), if_neg (fun h => present' h.1)]

theorem collect_entry {t' p : Nat} (ht' : t' < 1023) (hp : p < 1024) :
    entry (s.collect t) t' p = entry s t' p := by
  by_cases empty : s.Empty t
  · have hcollect : s.collect t = s.dropTable t := if_pos empty
    rw [hcollect, dropTable_entry owned empty ht' hp]
  · have hcollect : s.collect t = s := if_neg empty
    rw [hcollect]

include ht present

theorem dropTable_owned : Owned (s.dropTable t) := by
  have w : Window { s with balloc := ballocFree s.balloc (s.pde t &&& 0xFFFFF000) } :=
    ⟨owned.window.pdbr, owned.window.pdirVirtual, owned.window.present, owned.window.recursive⟩
  refine ⟨w.poke 0x00 (Or.inr (Nat.ne_of_lt ht)),
    dropTable_keeps owned.dirUsed (owned.apart t ht present).symm, ?_, ?_, ?_⟩
  · intro t' ht' present'
    obtain ⟨hne, hp, htable⟩ := dropTable_present present'
    rw [htable]
    exact dropTable_keeps (owned.used t' ht' hp)
      (fun h => hne (owned.distinct t t' ht ht' present hp h.symm))
  · intro t' ht' present'
    obtain ⟨_, hp, htable⟩ := dropTable_present present'
    rw [htable]
    exact owned.apart t' ht' hp
  · intro t' u ht' hu hpt hpu hframe
    obtain ⟨_, hp, htable⟩ := dropTable_present hpt
    obtain ⟨_, hq, htable'⟩ := dropTable_present hpu
    rw [htable, htable'] at hframe
    exact owned.distinct t' u ht' hu hp hq hframe

theorem collect_owned : Owned (s.collect t) := by
  by_cases empty : s.Empty t
  · have hcollect : s.collect t = s.dropTable t := if_pos empty
    rw [hcollect]
    exact dropTable_owned owned ht present
  · have hcollect : s.collect t = s := if_neg empty
    rw [hcollect]
    exact owned

theorem clearPte_owned (p : Nat) : Owned (s.clearPte t p) := by
  rw [Machine.clearPte]
  split
  · exact setPte_owned owned ht present 0x00
  · exact owned

theorem clearPte_entry (p : Nat) {t' : Nat} (ht' : t' < 1023) (p' : Nat) :
    entry (s.clearPte t p) t' p' = if t = t' ∧ p = p' then none else entry s t' p' := by
  have hzero : ¬ Present (0x00 : U32) := by decide
  rw [Machine.clearPte]
  split
  · rw [setPte_entry owned ht present 0x00 ht', if_neg hzero]
  · rename_i absent
    by_cases h : t = t' ∧ p = p'
    · obtain ⟨rfl, rfl⟩ := h
      rw [if_pos ⟨rfl, rfl⟩, entry, if_neg (fun h => absent h.2)]
    · rw [if_neg h]

end DropTable

/-! ## Calls -/

theorem Supplied.spare {s : Machine} {t : Nat} (supplied : Supplied s t) (owned : Owned s)
    (absent : ¬ Present (s.pde t)) : Spare s :=
  owned.spare (supplied absent).1

section WithTable

variable {s : Machine} (owned : Owned s) {t : Nat} (ht : t < 1023)
  (spare : ¬ Present (s.pde t) → Spare s)

include spare

theorem withTable_present : Present ((s.withTable t).pde t) := by
  rw [Machine.withTable]
  split
  · assumption
  · rename_i absent
    rw [newTable_pde (spare absent).dir, if_pos rfl]
    exact present_or_flags _

theorem withTable_pde_other {t' : Nat} (h : t ≠ t') : (s.withTable t).pde t' = s.pde t' := by
  rw [Machine.withTable]
  split
  · rfl
  · rename_i absent
    exact newTable_pde_other (spare absent) h

include owned

theorem withTable_entry_of_mapped {t' p : Nat} (ht' : t' < 1023) (mapped : entry s t' p ≠ none) :
    entry (s.withTable t) t' p = entry s t' p := by
  rw [Machine.withTable]
  split
  · rfl
  · rename_i absent
    exact newTable_entry_of_mapped owned (spare absent) absent ht' mapped

include ht

theorem withTable_owned : Owned (s.withTable t) := by
  rw [Machine.withTable]
  split
  · exact owned
  · rename_i absent
    exact newTable_owned owned (spare absent) ht

end WithTable

theorem withTable_entry {s : Machine} (owned : Owned s) {t : Nat} (supplied : Supplied s t)
    {t' p : Nat} (ht' : t' < 1023) (hp : p < 1024) :
    entry (s.withTable t) t' p = entry s t' p := by
  rw [Machine.withTable]
  split
  · rfl
  · rename_i absent
    exact newTable_entry owned (supplied.spare owned absent) absent (supplied absent).2 ht' hp

/-- The states a call of `vmmngr_map_page` can lead to. -/
theorem map_cases {s s' : Machine} (owned : Owned s) {phys virt : U32} {r : Int}
    (assumed : Assumed s (.map phys virt r)) (h : Step s (.map phys virt r) s') :
    s' = s ∨ s' = (s.withTable (pdeIndex virt)).setPte (pdeIndex virt) (pteIndex virt)
      (phys ||| 3) := by
  obtain ⟨_, below, supplied⟩ := assumed
  cases h with
  | map h =>
    rw [map_eq owned.window below (fun absent => (supplied.spare owned absent).dir)] at h
    split at h
    · cases h
      exact Or.inl rfl
    · cases h
      exact Or.inr rfl

theorem unmap_cases {s s' : Machine} (owned : Owned s) {virt r : U32} (below : Below virt)
    (h : Step s (.unmap virt r) s') :
    s' = s ∨ (Present (s.pde (pdeIndex virt)) ∧
      s' = (s.clearPte (pdeIndex virt) (pteIndex virt)).collect (pdeIndex virt)) := by
  cases h with
  | unmap h =>
    rw [unmap_eq owned.window below (owned.apart _ below.pdeIndex_lt)] at h
    split at h
    · rename_i present
      cases h
      exact Or.inr ⟨present, rfl⟩
    · cases h
      exact Or.inl rfl

/-- A call of `vmmngr_map_page` cannot fault; it maps an unmapped page and leaves a
mapped one alone. -/
theorem map_refines {s : Machine} (owned : Owned s) {phys virt : U32} {r : Int}
    (assumed : Assumed s (.map phys virt r)) :
    ∃ result s', vmmngrMapPage s phys virt = some (result, s') ∧ Owned s' ∧
      MapStep (translation s) (.map phys virt result) (translation s') := by
  obtain ⟨aligned, below, supplied⟩ := assumed
  have ht := below.pdeIndex_lt
  have hmap := @map_eq _ owned.window phys _ below
    (fun absent => (supplied.spare owned absent).dir)
  have hpage := translation_page s below
  by_cases taken : Present (s.pde (pdeIndex virt)) ∧
      Present (s.pte (pdeIndex virt) (pteIndex virt))
  · rw [if_pos taken] at hmap
    refine ⟨_, _, hmap, owned, .taken ?_⟩
    rw [hpage, entry, if_pos taken]
    exact Option.some_ne_none _
  · rw [if_neg taken] at hmap
    have owned' := withTable_owned owned ht (supplied.spare owned)
    have present := withTable_present (supplied.spare owned)
    have hentry : translation ((s.withTable (pdeIndex virt)).setPte (pdeIndex virt)
        (pteIndex virt) (phys ||| 3)) =
          Function.update (translation s) (frameOf virt) (some phys) := by
      apply translation_update below
      intro t p ht' hp
      rw [setPte_entry owned' ht present _ ht', if_pos (present_or_flags phys),
        or_three_masked aligned, withTable_entry owned supplied ht' hp]
    refine ⟨_, _, hmap, setPte_owned owned' ht present _, ?_⟩
    rw [hentry]
    apply MapStep.map
    rw [hpage, entry, if_neg taken]

theorem unmap_refines {s : Machine} (owned : Owned s) {virt : U32} (below : Below virt) :
    ∃ result s', vmmngrUnmapPage s virt = some (result, s') ∧ Owned s' ∧
      MapStep (translation s) (.unmap virt result) (translation s') := by
  have ht := below.pdeIndex_lt
  have hunmap := unmap_eq owned.window below (owned.apart _ ht)
  have hpage := translation_page s below
  by_cases present : Present (s.pde (pdeIndex virt))
  · rw [if_pos present] at hunmap
    have owned' := clearPte_owned owned ht present (pteIndex virt)
    have apart := owned.apart _ ht present
    have present' : Present ((s.clearPte (pdeIndex virt) (pteIndex virt)).pde (pdeIndex virt)) := by
      rwa [clearPte_pde apart]
    have hentry : translation ((s.clearPte (pdeIndex virt) (pteIndex virt)).collect
        (pdeIndex virt)) = Function.update (translation s) (frameOf virt) none := by
      apply translation_update below
      intro t p ht' hp
      rw [collect_entry owned' ht' hp, clearPte_entry owned ht present _ ht']
    have hresult : (if Present (s.pte (pdeIndex virt) (pteIndex virt)) then
        s.pte (pdeIndex virt) (pteIndex virt) &&& ~~~0xfff else 0) =
          (translation s (frameOf virt)).getD 0 := by
      rw [hpage, entry]
      by_cases mapped : Present (s.pte (pdeIndex virt) (pteIndex virt))
      · rw [if_pos mapped, if_pos ⟨present, mapped⟩]
        rfl
      · rw [if_neg mapped, if_neg (fun h => mapped h.2)]
        rfl
    refine ⟨_, _, hunmap, collect_owned owned' ht present', ?_⟩
    rw [hentry, hresult]
    exact .unmap
  · rw [if_neg present] at hunmap
    have hnone : translation s (frameOf virt) = none := by
      rw [hpage, entry, if_neg (fun h => present h.1)]
    refine ⟨_, _, hunmap, owned, ?_⟩
    have hstep : MapStep (translation s) (.unmap virt ((translation s (frameOf virt)).getD 0))
        (Function.update (translation s) (frameOf virt) none) := .unmap
    rw [hnone, ← hnone, Function.update_eq_self, hnone] at hstep
    exact hstep

theorem step_refines {s t : Machine} {call : PageCall} (owned : Owned s)
    (h : Guarded Assumed Step s call t) :
    Owned t ∧ MapStep (translation s) call (translation t) := by
  obtain ⟨assumed, h⟩ := h
  cases h with
  | map hmap =>
    obtain ⟨result, s', heq, owned', hstep⟩ := map_refines owned assumed
    rw [heq] at hmap
    cases hmap
    exact ⟨owned', hstep⟩
  | unmap hunmap =>
    obtain ⟨result, s', heq, owned', hstep⟩ := unmap_refines owned assumed
    rw [heq] at hunmap
    cases hunmap
    exact ⟨owned', hstep⟩

theorem run_owned {s t : Machine} {calls : List PageCall}
    (run : Run (Guarded Assumed Step) s calls t) (owned : Owned s) : Owned t :=
  run.invariant (I := Owned) (fun _ _ _ h hs => (step_refines h hs).1) owned

theorem run_refines {s t : Machine} {calls : List PageCall}
    (run : Run (Guarded Assumed Step) s calls t) (owned : Owned s) :
    Run MapStep (translation s) calls (translation t) :=
  run.simulates (I := Owned) translation (fun _ _ _ h hs => (step_refines h hs).1)
    (fun _ _ _ h hs => (step_refines h hs).2) owned

/-- Every run of the two functions is a run of the finite map with the same results,
and in every state it reaches the next call returns. -/
theorem tables_refine_map {s t : Machine} {calls : List PageCall} (owned : Owned s)
    (run : Run (Guarded Assumed Step) s calls t) :
    Run MapStep (translation s) calls (translation t) ∧
      (∀ phys virt, Assumed t (.map phys virt 0) →
        ∃ result u, Step t (.map phys virt result) u) ∧
      ∀ virt, Below virt → ∃ result u, Step t (.unmap virt result) u := by
  have owned' := run_owned run owned
  refine ⟨run_refines run owned, ?_, ?_⟩
  · intro phys virt assumed
    obtain ⟨result, u, heq, _⟩ := map_refines owned' assumed
    exact ⟨result, u, .map heq⟩
  · intro virt below
    obtain ⟨result, u, heq, _⟩ := unmap_refines owned' below
    exact ⟨result, u, .unmap heq⟩

/-- An empty address space whose directory is block 5 of 32. -/
def emptySpace : Machine where
  mem := fun f w => if f = 5 ∧ w = 1023 then 0x5003 else 0
  cr3 := 0x5000
  pdirVirtual := 0xfffff000
  pdirPhysical := 0x5000
  balloc :=
    { mBmpAddr := 0xC0040000
      mBmp := fun i => if i = 0 then 0x3F else 0
      memSz := 0x20000
      bmpSz := 2
      totalBlocks := 32
      freeBlocks := 26
      touched := []
      bmpSz_le := by decide }

theorem emptySpace_absent {t : Nat} (ht : t < 1023) : ¬ Present (emptySpace.pde t) := by
  have hzero : ¬ Present (0 : U32) := by decide
  have hpde : emptySpace.pde t = 0 := if_neg (fun h => absurd h.2 (Nat.ne_of_lt ht))
  rwa [hpde]

theorem emptySpace_owned : Owned emptySpace where
  window := ⟨rfl, rfl, by decide, by decide⟩
  dirUsed := by decide
  used := fun _ ht present => absurd present (emptySpace_absent ht)
  apart := fun _ ht present => absurd present (emptySpace_absent ht)
  distinct := fun _ _ ht _ present => absurd present (emptySpace_absent ht)

theorem emptySpace_supplied {t : Nat} : Supplied emptySpace t := by
  intro _
  have nonnull : (ballocGet emptySpace.balloc).1 ≠ 0 := by decide
  have hframe : frameOf (ballocGet emptySpace.balloc).1 = 6 := by decide
  refine ⟨nonnull, fun p _ => ?_⟩
  rw [newTable_pte (emptySpace_owned.spare nonnull), hframe]
  split
  · decide
  · rfl

theorem emptySpace_translation {virt : U32} (below : Below virt) :
    translation emptySpace (frameOf virt) = none := by
  rw [translation_page _ below, entry, if_neg (fun h => emptySpace_absent below.pdeIndex_lt h.1)]

theorem MapStep.fresh {T T' : Nat → Option U32} {phys virt : U32} {result : Int}
    (h : MapStep T (.map phys virt result) T') (unmapped : T (frameOf virt) = none) :
    result = 0 ∧ T' = Function.update T (frameOf virt) (some phys) := by
  cases h with
  | map => exact ⟨rfl, rfl⟩
  | taken mapped => exact absurd unmapped mapped

/-- A page beside one that is mapped needs no table. -/
theorem supplied_beside {s : Machine} {virt : U32} (below : Below virt)
    (mapped : translation s (frameOf virt) ≠ none) : Supplied s (pdeIndex virt) := by
  refine fun absent => absurd ?_ mapped
  rw [translation_page _ below, entry, if_neg (fun h => absent h.1)]

/-- Two pages of one table, in an empty space. -/
theorem two_pages_mapped : ∃ t, Run (Guarded Assumed Step) emptySpace
    [.map 0x8000 0x400000 0, .map 0x9000 0x401000 0] t := by
  have assumed : Assumed emptySpace (.map 0x8000 0x400000 0) :=
    ⟨by decide, by decide, emptySpace_supplied⟩
  obtain ⟨result, s, hmap, owned, first⟩ := map_refines emptySpace_owned assumed
  obtain ⟨rfl, after⟩ := first.fresh (emptySpace_translation (by decide))
  have here : translation s (frameOf 0x400000) ≠ none := by
    rw [after, Function.update_self]
    exact Option.some_ne_none _
  have sameTable : pdeIndex (0x401000 : U32) = pdeIndex 0x400000 := by decide
  have supplied := supplied_beside (by decide) here
  rw [← sameTable] at supplied
  have assumed' : Assumed s (.map 0x9000 0x401000 0) := ⟨by decide, by decide, supplied⟩
  obtain ⟨result, t, hmap', _, second⟩ := map_refines owned assumed'
  have unmapped : translation s (frameOf 0x401000) = none := by
    rw [after, Function.update_of_ne (by decide)]
    exact emptySpace_translation (by decide)
  obtain ⟨rfl, _⟩ := second.fresh unmapped
  exact ⟨t, .cons ⟨assumed, .map hmap⟩ (.cons ⟨assumed', .map hmap'⟩ (.nil t))⟩

/-- The first of them is unmapped again; the other one stays. -/
theorem second_page_stays : ∃ u, Run Step emptySpace
      [.map 0x8000 0x400000 0, .map 0x9000 0x401000 0, .unmap 0x400000 0x8000] u ∧
    translation u 0x400 = none ∧ translation u 0x401 = some 0x9000 := by
  obtain ⟨t, run⟩ := two_pages_mapped
  obtain ⟨_, _, unmaps⟩ := tables_refine_map emptySpace_owned run
  obtain ⟨result, u, hstep⟩ := unmaps 0x400000 (by decide)
  have guarded : Guarded Assumed Step t (.unmap 0x400000 result) u :=
    ⟨show Below 0x400000 by decide, hstep⟩
  have whole := run.append (.cons guarded (.nil u))
  obtain ⟨refined, _⟩ := tables_refine_map emptySpace_owned whole
  generalize hu : translation u = T at refined
  cases refined with
  | cons first refined =>
    obtain ⟨_, rfl⟩ := first.fresh (emptySpace_translation (by decide))
    cases refined with
    | cons second refined =>
      have unmapped : Function.update (translation emptySpace) (frameOf 0x400000) (some 0x8000)
          (frameOf 0x401000) = none := by
        rw [Function.update_of_ne (by decide)]
        exact emptySpace_translation (by decide)
      obtain ⟨_, rfl⟩ := second.fresh unmapped
      cases refined with
      | cons third refined =>
        cases refined
        cases third
        exact ⟨u, whole.mono fun _ _ _ h => h.2, hu ▸ rfl, hu ▸ rfl⟩

end PageMapping
