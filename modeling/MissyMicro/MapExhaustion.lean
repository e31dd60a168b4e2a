import MissyMicro.PageMapping

/-!
# Mapping a page without memory for its table

`vmmngr_map_page` does not look at what `balloc_get` returns for a new table. With no
block left it links frame 0 in as the table and reports success.
-/

namespace MapExhaustion

open BlockAllocator Words Mmu PageTables PageMapping
open BlockAllocator.Balloc

/-- An address space: the directory is a used block behind the recursive slot, and no table
is the directory. -/
structure Formed (m : Machine) : Prop where
  window : Window m
  used : m.balloc.Used (frameOf m.cr3)
  dir : frameOf m.cr3 ≠ 0
  apart : ∀ t, t < 1023 → Present (m.pde t) → m.table t ≠ frameOf m.cr3

/-- Every directory entry that is new in `m'` points at the block that `balloc_get` returns. -/
def BackedTables (m m' : Machine) : Prop :=
  ∀ t, t < 1024 → ¬ Present (m.pde t) → Present (m'.pde t) →
    (ballocGet m.balloc).1 ≠ 0 ∧ m'.table t = frameOf (ballocGet m.balloc).1

/-- The page is mapped, with memory for what was created, or nothing has happened. -/
def AllOrNothing (m : Machine) (phys virt : U32) : Prop :=
  ∃ result m', vmmngrMapPage m phys virt = some (result, m') ∧
    (result = 0 ∧ translation m' (frameOf virt) = some (phys &&& ~~~0xfff) ∧ BackedTables m m' ∨
      result = -1 ∧ m' = m)

section Map

variable {m : Machine} {phys virt : U32}

theorem or_flags_masked (phys : U32) : (phys ||| 3) &&& ~~~0xfff = phys &&& ~~~0xfff := by
  apply BitVec.eq_of_toNat_eq
  have hflags := frameOf_or_three phys
  rw [frameOf, frameOf] at hflags
  have hleft : ((phys ||| 3) &&& ~~~0xfff#32).toNat = _ := toNat_and_not_pageMask (phys ||| 3)
  have hright : (phys &&& ~~~0xfff#32).toNat = _ := toNat_and_not_pageMask phys
  exact hleft.trans ((congrArg (· * 4096) hflags).trans hright.symm)

/-- The entry that is set is the translation of its page. -/
theorem setPte_translation (below : Below virt) (present : Present (m.pde (pdeIndex virt)))
    (apart : m.table (pdeIndex virt) ≠ frameOf m.cr3) :
    translation (m.setPte (pdeIndex virt) (pteIndex virt) (phys ||| 3)) (frameOf virt) =
      some (phys &&& ~~~0xfff) := by
  have hpde : (m.setPte (pdeIndex virt) (pteIndex virt) (phys ||| 3)).pde (pdeIndex virt) =
      m.pde (pdeIndex virt) := Machine.poke_pde_other apart _ _ _
  have hpte : (m.setPte (pdeIndex virt) (pteIndex virt) (phys ||| 3)).pte (pdeIndex virt)
      (pteIndex virt) = phys ||| 3 := by
    rw [Machine.setPte, Machine.poke_pte_other apart, if_pos ⟨rfl, rfl⟩]
  rw [translation_page _ below, entry, hpde, hpte, if_pos ⟨present, present_or_flags phys⟩,
    or_flags_masked]

variable (formed : Formed m)

include formed

/-- The next table never takes the frame of the directory. -/
theorem Formed.fresh : frameOf (ballocGet m.balloc).1 ≠ frameOf m.cr3 := by
  by_cases null : (ballocGet m.balloc).1 = 0
  · have hzero : frameOf (0 : U32) = 0 := rfl
    rw [null, hzero]
    exact formed.dir.symm
  · exact fun heq => (ballocGet_fresh null).2.2.1 (heq ▸ formed.used)

variable (below : Below virt)

include below

/-- A table that exists takes the entry, or has it already. -/
theorem Formed.map_present (present : Present (m.pde (pdeIndex virt))) :
    AllOrNothing m phys virt := by
  have apart := formed.apart _ below.pdeIndex_lt present
  have hmap := @map_eq _ formed.window phys _ below fun absent => absurd present absent
  have hset : m.withTable (pdeIndex virt) = m := if_pos present
  by_cases taken : Present (m.pte (pdeIndex virt) (pteIndex virt))
  · rw [if_pos ⟨present, taken⟩] at hmap
    exact ⟨-1, m, hmap, Or.inr ⟨rfl, rfl⟩⟩
  · rw [if_neg (fun h => taken h.2), hset] at hmap
    refine ⟨0, _, hmap, Or.inl ⟨rfl, setPte_translation below present apart, ?_⟩⟩
    intro t _ absent created
    rw [Machine.setPte, Machine.poke_pde_other apart] at created
    exact absurd created absent

/-- A missing table is created in any case. -/
theorem Formed.map_absent (absent : ¬ Present (m.pde (pdeIndex virt))) :
    ∃ m', vmmngrMapPage m phys virt = some (0, m') ∧ Present (m'.pde (pdeIndex virt)) ∧
      translation m' (frameOf virt) = some (phys &&& ~~~0xfff) ∧
      ∀ t, ¬ Present (m.pde t) → Present (m'.pde t) →
        m'.table t = frameOf (ballocGet m.balloc).1 := by
  have fresh := formed.fresh
  have hset : m.withTable (pdeIndex virt) = m.newTable (pdeIndex virt) := if_neg absent
  have hmap := @map_eq _ formed.window phys _ below fun _ => fresh
  rw [if_neg (fun h => absent h.1), hset] at hmap
  have present : Present ((m.newTable (pdeIndex virt)).pde (pdeIndex virt)) := by
    rw [newTable_pde fresh, if_pos rfl]
    exact present_or_flags _
  have apart : (m.newTable (pdeIndex virt)).table (pdeIndex virt) ≠
      frameOf (m.newTable (pdeIndex virt)).cr3 := by
    rw [newTable_table fresh]
    exact fresh
  have hpde (t : Nat) := Machine.poke_pde_other apart (pteIndex virt) (phys ||| 3) t
  refine ⟨_, hmap, ?_, setPte_translation below present apart, ?_⟩
  · rw [Machine.setPte, hpde]
    exact present
  · intro t before after
    rw [Machine.setPte, hpde, newTable_pde fresh] at after
    rw [Machine.setPte, Machine.table, hpde, ← Machine.table]
    by_cases heq : pdeIndex virt = t
    · rw [← heq, newTable_table fresh]
    · rw [if_neg heq] at after
      exact absurd after before

/-- Mapping a page is all or nothing exactly if its table exists or a block is left for it. -/
theorem all_or_nothing_iff :
    AllOrNothing m phys virt ↔
      Present (m.pde (pdeIndex virt)) ∨ (ballocGet m.balloc).1 ≠ 0 := by
  by_cases present : Present (m.pde (pdeIndex virt))
  · exact ⟨fun _ => Or.inl present, fun _ => formed.map_present below present⟩
  · obtain ⟨m', hmap, created, htrans, htable⟩ := @Formed.map_absent m phys virt formed below present
    have hlt : pdeIndex virt < 1024 := Nat.lt_succ_of_lt below.pdeIndex_lt
    constructor
    · rintro ⟨result, m'', hmap', h⟩
      rw [hmap] at hmap'
      cases hmap'
      rcases h with ⟨_, _, backed⟩ | ⟨failed, _⟩
      · exact Or.inr (backed _ hlt present created).1
      · exact absurd failed (by decide)
    · rintro (h | nonnull)
      · exact absurd h present
      · refine ⟨0, m', hmap, Or.inl ⟨rfl, htrans, fun t _ before after => ?_⟩⟩
        exact ⟨nonnull, htable t before after⟩

end Map

theorem emptySpace_formed : Formed emptySpace where
  window := emptySpace_owned.window
  used := emptySpace_owned.dirUsed.2
  dir := by decide
  apart := emptySpace_owned.apart

/-- The first page of an empty space gets a table of its own. -/
theorem first_page_backed : AllOrNothing emptySpace 0x8000 0xd0400000 :=
  (all_or_nothing_iff emptySpace_formed (by decide)).mpr (Or.inr (by decide))

/-- The empty space with every block in use. -/
def fullSpace : Machine :=
  { emptySpace with balloc := { emptySpace.balloc with
      mBmp := fun _ => 0xffffffff
      freeBlocks := 0 } }

theorem fullSpace_formed : Formed fullSpace where
  window := ⟨rfl, rfl, by decide, by decide⟩
  used := by decide
  dir := by decide
  apart := emptySpace_owned.apart

/-- With no block left, the table is put in frame 0. -/
theorem table_in_frame_zero : ¬ ∀ (m : Machine) (phys virt : U32), Formed m → Below virt →
    AllOrNothing m phys virt := by
  intro whole
  have below : Below 0xd0400000 := by decide
  have absent : ¬ Present (fullSpace.pde (pdeIndex 0xd0400000)) :=
    emptySpace_absent below.pdeIndex_lt
  obtain ⟨m', hmap, created, _⟩ := @Formed.map_absent _ 0x8000 _ fullSpace_formed below absent
  obtain ⟨result, m'', hmap', h⟩ := whole fullSpace 0x8000 0xd0400000 fullSpace_formed below
  rw [hmap] at hmap'
  cases hmap'
  rcases h with ⟨_, _, backed⟩ | ⟨failed, _⟩
  · exact (backed _ (by decide) absent created).1 (by decide +kernel)
  · exact absurd failed (by decide)

end MapExhaustion
