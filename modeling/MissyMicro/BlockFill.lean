import MissyMicro.PageMapping

/-!
# Filling a block

The pointer of `memset` never moves, so one byte is stored over and over. A block is filled only if
the bytes behind the first one were right before. A new page table keeps what its frame held, all
but the first byte.
-/

namespace BlockFill

open LibcString BlockAllocator Words Mmu PageTables PageMapping

/-- The `n` bytes of the block are filled, and no other byte is changed. -/
def Fills (mem : U32 → BitVec 8) (dst val n : U32) : Prop :=
  ∃ mem', memset ramStore mem dst val n.toNat = some mem' ∧
    Overwritten mem dst n.toNat (fun _ => val.setWidth 8) mem'

theorem memset_ram (mem : U32 → BitVec 8) (dst val : U32) (n : Nat) :
    memset ramStore mem dst val (n + 1) =
      some (Function.update mem dst (val.setWidth 8)) := by
  refine memset_once rfl ?_ n
  rw [ramStore, Function.update_idem]

theorem add_ofNat_ne {dst n : U32} {i : Nat} (positive : 0 < i) (hi : i < n.toNat) :
    dst + BitVec.ofNat 32 i ≠ dst := by
  intro same
  have zero : i = 0 := add_ofNat_inj (Nat.lt_trans hi n.isLt) (by decide)
    (same.trans (add_ofNat_zero dst).symm)
  exact Nat.ne_of_gt positive zero

theorem fills_iff (mem : U32 → BitVec 8) (dst val n : U32) :
    Fills mem dst val n ↔
      ∀ i, 0 < i → i < n.toNat → mem (dst + BitVec.ofNat 32 i) = val.setWidth 8 := by
  constructor
  · rintro ⟨mem', filled, written, _⟩ i positive hi
    obtain ⟨k, length⟩ := Nat.exists_eq_succ_of_ne_zero (Nat.ne_of_gt (Nat.zero_lt_of_lt hi))
    rw [length, memset_ram] at filled
    obtain rfl := Option.some.inj filled
    have byte := written i hi
    rw [Function.update_of_ne (add_ofNat_ne positive hi)] at byte
    exact byte
  · intro behind
    rcases Nat.eq_zero_or_pos n.toNat with empty | nonempty
    · refine ⟨mem, ?_, fun k hk => absurd hk (by omega), fun _ _ => rfl⟩
      rw [empty, memset]
    · obtain ⟨k, length⟩ := Nat.exists_eq_succ_of_ne_zero (Nat.ne_of_gt nonempty)
      refine ⟨_, (congrArg _ length).trans (memset_ram mem dst val k), fun i hi => ?_, ?_⟩
      · rcases Nat.eq_zero_or_pos i with rfl | positive
        · rw [add_ofNat_zero, Function.update_self]
        · rw [Function.update_of_ne (add_ofNat_ne positive hi)]
          exact behind i positive hi
      · intro a other
        have first := other 0 nonempty
        rw [add_ofNat_zero] at first
        exact Function.update_of_ne first _ mem

/-- The call maps its page in a new table with no other present entry. -/
def CleanTable (s : Machine) (phys virt : U32) : Prop :=
  ∃ s', vmmngrMapPage s phys virt = some (0, s') ∧
    ∀ p < 1024, Present (s'.pte (pdeIndex virt) p) ↔ p = pteIndex virt

/-- The frame of the next block has no present entry, except perhaps the first one and entry `q`. -/
def NothingStale (s : Machine) (q : Nat) : Prop :=
  ∀ p < 1024, p ≠ 0 → p ≠ q → ¬ Present (s.mem (frameOf (ballocGet s.balloc).1) p)

theorem setByte_absent (w : U32) : ¬ Present (setByte w 0 0) := by
  intro present
  refine present ?_
  change (w &&& ~~~0xff#32 ||| 0#32) &&& 1#32 = 0#32
  rw [BitVec.or_zero, BitVec.and_assoc]
  exact BitVec.and_zero

section NewTable

variable {s : Machine} (owned : Owned s) {phys virt : U32} (below : Below virt)
  (absent : ¬ Present (s.pde (pdeIndex virt))) (nonnull : (ballocGet s.balloc).1 ≠ 0)

include owned below absent nonnull

/-- The entries after the call: the new one, and what the frame held. -/
theorem map_new_table :
    ∃ s', vmmngrMapPage s phys virt = some (0, s') ∧
      ∀ p, s'.pte (pdeIndex virt) p =
        if p = pteIndex virt then phys ||| 3
        else if p = 0 then setByte (s.mem (frameOf (ballocGet s.balloc).1) 0) 0 0
        else s.mem (frameOf (ballocGet s.balloc).1) p := by
  have spare := owned.spare nonnull
  have mapped := @map_eq s owned.window phys virt below fun _ => spare.dir
  have set : s.withTable (pdeIndex virt) = s.newTable (pdeIndex virt) := if_neg absent
  rw [if_neg fun h => absent h.1, set] at mapped
  refine ⟨_, mapped, fun p => ?_⟩
  have apart : (s.newTable (pdeIndex virt)).table (pdeIndex virt) ≠
      frameOf (s.newTable (pdeIndex virt)).cr3 := by
    rw [newTable_table spare.dir]
    exact spare.dir
  rw [Machine.setPte, Machine.poke_pte_other apart, newTable_pte spare]
  by_cases here : p = pteIndex virt
  · rw [if_pos ⟨rfl, here.symm⟩, if_pos here]
  · rw [if_neg fun h => here h.2.symm, if_neg here]

theorem cleanTable_iff : CleanTable s phys virt ↔ NothingStale s (pteIndex virt) := by
  obtain ⟨s', mapped, entries⟩ := @map_new_table s owned phys virt below absent nonnull
  constructor
  · rintro ⟨t, mapped', clean⟩ p hp first other present
    obtain ⟨_, rfl⟩ := Prod.mk.inj (Option.some.inj (mapped'.symm.trans mapped))
    refine other ((clean p hp).mp ?_)
    rw [entries, if_neg other, if_neg first]
    exact present
  · intro nothing
    refine ⟨s', mapped, fun p hp => ?_⟩
    rw [entries]
    by_cases here : p = pteIndex virt
    · rw [if_pos here]
      exact iff_of_true (present_or_flags phys) here
    · rw [if_neg here]
      refine iff_of_false ?_ here
      by_cases first : p = 0
      · rw [if_pos first]
        exact setByte_absent _
      · rw [if_neg first]
        exact nothing p hp first here

end NewTable

theorem block_filled_iff (mem : U32 → BitVec 8) (dst val n : U32) (s : Machine) (phys virt : U32) :
    (Fills mem dst val n ↔
      ∀ i, 0 < i → i < n.toNat → mem (dst + BitVec.ofNat 32 i) = val.setWidth 8) ∧
    (Owned s → Below virt → ¬ Present (s.pde (pdeIndex virt)) → (ballocGet s.balloc).1 ≠ 0 →
      (CleanTable s phys virt ↔ NothingStale s (pteIndex virt))) := by
  constructor
  · exact fills_iff mem dst val n
  · intro owned below absent nonnull
    exact cleanTable_iff owned below absent nonnull

/-- The value behind the byte at 8. -/
def valuedBehind : U32 → BitVec 8 := fun a => if a = 8 then 0xff else 0x2a

/-- Four bytes are filled, of which three held the value, and a table in a frame of zeros is
clean. -/
theorem block_filled_behind :
    Fills valuedBehind 8 0x2a 4 ∧ CleanTable emptySpace 0x8000 0x400000 := by
  have zero : ¬ Present (0 : U32) := by decide
  have behind : ∀ i < 4, 0 < i → valuedBehind (8 + BitVec.ofNat 32 i) = 0x2a := by decide
  have filled := block_filled_iff valuedBehind 8 0x2a 4 emptySpace 0x8000 0x400000
  constructor
  · exact filled.1.mpr fun i positive hi => behind i hi positive
  · refine (filled.2 emptySpace_owned (by decide) (emptySpace_absent (by decide))
      (by decide)).mpr fun p _ _ _ => ?_
    have frame : frameOf (ballocGet emptySpace.balloc).1 = 6 := by decide
    rw [frame]
    exact zero

/-- The empty space, with an old entry in the frame of the next block. -/
def staleSpace : Machine := emptySpace.poke 6 1 0x7003

theorem staleSpace_pde (t : Nat) : staleSpace.pde t = emptySpace.pde t :=
  Machine.poke_pde_other (by decide) 1 0x7003 t

theorem staleSpace_absent {t : Nat} (ht : t < 1023) : ¬ Present (staleSpace.pde t) := by
  rw [staleSpace_pde]
  exact emptySpace_absent ht

theorem staleSpace_owned : Owned staleSpace where
  window := emptySpace_owned.window.poke 0x7003 (Or.inl (by decide))
  dirUsed := emptySpace_owned.dirUsed
  used := fun _ ht present => absurd present (staleSpace_absent ht)
  apart := fun _ ht present => absurd present (staleSpace_absent ht)
  distinct := fun _ _ ht _ present => absurd present (staleSpace_absent ht)

/-- The second byte is not filled, and the old entry maps a page in the new table. -/
theorem old_bytes_left :
    ¬ Fills (fun _ => 0) 0 1 2 ∧
      Owned staleSpace ∧ Below 0x400000 ∧ ¬ Present (staleSpace.pde (pdeIndex 0x400000)) ∧
      (ballocGet staleSpace.balloc).1 ≠ 0 ∧ ¬ CleanTable staleSpace 0x8000 0x400000 := by
  have absent : ¬ Present (staleSpace.pde (pdeIndex 0x400000)) := staleSpace_absent (by decide)
  have nonnull : (ballocGet staleSpace.balloc).1 ≠ 0 := by decide
  refine ⟨fun filled => ?_, staleSpace_owned, by decide, absent, nonnull, fun clean => ?_⟩
  · have byte := (fills_iff _ _ _ _).mp filled 1 (by decide) (by decide)
    exact absurd byte (by decide)
  · have nothing := (cleanTable_iff staleSpace_owned (by decide) absent nonnull).mp clean
    have frame : frameOf (ballocGet staleSpace.balloc).1 = 6 := by decide
    have entry := nothing 1 (by decide) (by decide) (by decide)
    rw [frame] at entry
    exact entry (by decide)

end BlockFill
