import MissyMicro.BlockAllocator
import MissyMicro.LibcString
import MissyMicro.Mmu

/-!
# Mapping pages through the recursive slot

The tables are edited by ordinary loads and stores: with slot 1023 of the
directory pointing at the directory, table `t` appears at `0xFFC00000 + t * 0x1000`
and the directory at `0xfffff000`. A fault anywhere has no result. The block
bitmap lies outside the frames of the tables.
-/

namespace PageTables

open BlockAllocator LibcString Mmu Words

def i386BlockSize : U32 := 0x1000
def i386PtableSize : U32 := 0x400000
def i386EntriesPerPtable : Nat := 1024

/-- The processor, the memory and the static data of both managers. -/
structure Machine where
  mem : PhysMem
  cr3 : U32
  pdirVirtual : U32
  pdirPhysical : U32
  balloc : Balloc

namespace Machine

def load (s : Machine) (va : U32) : Option U32 := loadVirt s.mem s.cr3 va

def store (s : Machine) (va x : U32) : Option Machine :=
  (storeVirt s.mem s.cr3 va x).map fun mem => { s with mem := mem }

def load8 (s : Machine) (va : U32) : Option (BitVec 8) := loadVirt8 s.mem s.cr3 va

def store8 (s : Machine) (va : U32) (x : BitVec 8) : Option Machine :=
  (storeVirt8 s.mem s.cr3 va x).map fun mem => { s with mem := mem }

def setPdbr (s : Machine) (pdirAddr : U32) : Machine := { s with cr3 := pdirAddr }

end Machine

structure PgInf where
  ptable : U32
  page : U32

def i386VirtualToPgidx (addr : U32) : PgInf :=
  let addr := addr &&& ~~~0xfff
  ⟨addr / i386PtableSize, (addr % i386PtableSize) / i386BlockSize⟩

/-- The result is the returned value and the state after. -/
def vmmngrMapPage (s : Machine) (phys virt : U32) : Option (Int × Machine) := do
  let pageData := i386VirtualToPgidx virt
  let pde ← s.load (s.pdirVirtual + 4 * pageData.ptable)
  if Present pde then
    let pTable := 0xFFC00000 + pageData.ptable * 0x1000
    let pte ← s.load (pTable + 4 * pageData.page)
    if ¬ Present pte then
      let s ← s.store (pTable + 4 * pageData.page) (phys ||| 3)
      return (0, s.setPdbr s.pdirPhysical)
    else return (-1, s)
  else
    let ptablePhys := (ballocGet s.balloc).1
    let s := { s with balloc := (ballocGet s.balloc).2 }
    let ptableVirt := 0xFFC00000 + pageData.ptable * 0x1000
    let s ← s.store (s.pdirVirtual + 4 * pageData.ptable) (ptablePhys ||| 3)
    let s ← memset Machine.store8 s ptableVirt 0x0 (i386EntriesPerPtable * 4)
    let s ← s.store (ptableVirt + 4 * pageData.page) (phys ||| 3)
    return (0, s.setPdbr s.pdirPhysical)

/-- The loop that looks for a present entry from `i` on, `n` entries to go; the
result is the value of `i` after it. -/
def findPresent (s : Machine) (pTable : U32) : Nat → Nat → Option Nat
  | 0, i => some i
  | n + 1, i => do
    let pte ← s.load (pTable + 4 * BitVec.ofNat 32 i)
    if Present pte then return i else findPresent s pTable n (i + 1)

/-- Clear the entry at `entry` if it is present; the result is the page it mapped. -/
def unmapEntry (s : Machine) (entry : U32) : Option (U32 × Machine) := do
  let pte ← s.load entry
  if Present pte then
    let s ← s.store entry 0x00
    return (pte &&& ~~~0xfff, s)
  else return (0, s)

def vmmngrUnmapPage (s : Machine) (virt : U32) : Option (U32 × Machine) := do
  let pageData := i386VirtualToPgidx virt
  let pde ← s.load (s.pdirVirtual + 4 * pageData.ptable)
  if Present pde then
    let pTable := 0xFFC00000 + pageData.ptable * 0x1000
    let (phys, s) ← unmapEntry s (pTable + 4 * pageData.page)
    let i ← findPresent s pTable 1024 0
    if i ≥ 1024 then
      let pde ← s.load (s.pdirVirtual + 4 * pageData.ptable)
      let s := { s with balloc := ballocFree s.balloc (pde &&& 0xFFFFF000) }
      let s ← s.store (s.pdirVirtual + 4 * pageData.ptable) 0x00
      return (phys, s.setPdbr s.pdirPhysical)
    else return (phys, s.setPdbr s.pdirPhysical)
  else return (0, s.setPdbr s.pdirPhysical)

namespace Machine

def pde (s : Machine) (t : Nat) : U32 := s.mem (frameOf s.cr3) t

/-- The frame of table `t`. -/
def table (s : Machine) (t : Nat) : Nat := frameOf (s.pde t)

def pte (s : Machine) (t p : Nat) : U32 := s.mem (s.table t) p

def poke (s : Machine) (f w : Nat) (x : U32) : Machine := { s with mem := put s.mem f w x }

@[simp] theorem poke_mem (s : Machine) (f w : Nat) (x : U32) :
    (s.poke f w x).mem = put s.mem f w x := rfl
@[simp] theorem poke_cr3 (s : Machine) (f w : Nat) (x : U32) : (s.poke f w x).cr3 = s.cr3 := rfl
@[simp] theorem poke_balloc (s : Machine) (f w : Nat) (x : U32) :
    (s.poke f w x).balloc = s.balloc := rfl

theorem poke_pde (s : Machine) (f w : Nat) (x : U32) (t : Nat) :
    (s.poke f w x).pde t = if f = frameOf s.cr3 ∧ w = t then x else s.pde t := by
  simp only [pde, poke, put]
  by_cases h : f = frameOf s.cr3 ∧ w = t
  · rw [if_pos h, if_pos ⟨h.1.symm, h.2.symm⟩]
  · rw [if_neg h, if_neg (fun h' => h ⟨h'.1.symm, h'.2.symm⟩)]

/-- A store outside the directory keeps every directory entry. -/
theorem poke_pde_other {s : Machine} {f : Nat} (hf : f ≠ frameOf s.cr3) (w : Nat) (x : U32)
    (t : Nat) : (s.poke f w x).pde t = s.pde t := by
  rw [poke_pde, if_neg (fun h => hf h.1)]

theorem poke_table_other {s : Machine} {f : Nat} (hf : f ≠ frameOf s.cr3) (w : Nat) (x : U32)
    (t : Nat) : (s.poke f w x).table t = s.table t := by
  rw [table, poke_pde_other hf, table]

theorem poke_pte_other {s : Machine} {f : Nat} (hf : f ≠ frameOf s.cr3) (w : Nat) (x : U32)
    (t p : Nat) :
    (s.poke f w x).pte t p = if f = s.table t ∧ w = p then x else s.pte t p := by
  rw [pte, poke_table_other hf, poke_mem, put, pte]
  by_cases h : f = s.table t ∧ w = p
  · rw [if_pos h, if_pos ⟨h.1.symm, h.2.symm⟩]
  · rw [if_neg h, if_neg (fun h' => h ⟨h'.1.symm, h'.2.symm⟩)]

theorem setPdbr_eq {s : Machine} (h : s.cr3 = s.pdirPhysical) : s.setPdbr s.pdirPhysical = s := by
  cases s
  cases h
  rfl

theorem poke_poke (s : Machine) (f w : Nat) (x y : U32) :
    (s.poke f w x).poke f w y = s.poke f w y := by
  simp only [poke, Machine.mk.injEq, and_true]
  funext f' w'
  simp only [put]
  split <;> rfl

end Machine

/-- The directory sees itself through slot 1023. -/
structure Window (s : Machine) : Prop where
  pdbr : s.cr3 = s.pdirPhysical
  pdirVirtual : s.pdirVirtual = 0xfffff000
  present : Present (s.pde 1023)
  recursive : s.table 1023 = frameOf s.cr3

/-- A virtual address that the window does not show. -/
def Below (va : U32) : Prop := va.toNat < 0xFFC00000

instance (va : U32) : Decidable (Below va) := inferInstanceAs (Decidable (_ < _))

theorem ptable_toNat (virt : U32) : (i386VirtualToPgidx virt).ptable.toNat = pdeIndex virt := by
  have hsize : i386PtableSize.toNat = 0x400000 := rfl
  simp only [i386VirtualToPgidx, BitVec.toNat_udiv, hsize, pdeIndex]
  have hmask : (virt &&& ~~~0xfff).toNat = _ := Words.toNat_and_not_pageMask virt
  rw [hmask]
  omega

theorem page_toNat (virt : U32) : (i386VirtualToPgidx virt).page.toNat = pteIndex virt := by
  have hsize : i386PtableSize.toNat = 0x400000 := rfl
  have hblock : i386BlockSize.toNat = 0x1000 := rfl
  simp only [i386VirtualToPgidx, BitVec.toNat_udiv, BitVec.toNat_umod, hsize, hblock, pteIndex]
  have hmask : (virt &&& ~~~0xfff).toNat = _ := Words.toNat_and_not_pageMask virt
  rw [hmask]
  omega

theorem Below.pdeIndex_lt {virt : U32} (h : Below virt) : pdeIndex virt < 1023 := by
  rw [Below] at h
  rw [pdeIndex]
  omega

section Window

variable {s : Machine}

/-- The address of directory entry `t` in the window. -/
theorem pde_address {t : U32} (ht : t.toNat < 1024) :
    pdeIndex (0xfffff000 + 4 * t) = 1023 ∧ pteIndex (0xfffff000 + 4 * t) = 1023 ∧
      wordOf (0xfffff000 + 4 * t) = t.toNat := by
  have h4 : BitVec.toNat (4 : U32) = 4 := rfl
  have hbase : BitVec.toNat (0xfffff000 : U32) = 0xfffff000 := rfl
  have haddr : (0xfffff000 + 4 * t).toNat = 0xfffff000 + 4 * t.toNat := by
    rw [BitVec.toNat_add, BitVec.toNat_mul, h4, hbase]
    omega
  simp only [pdeIndex, pteIndex, wordOf, haddr]
  omega

theorem pte_address_toNat {t p : U32} (ht : t.toNat < 1024) (hp : p.toNat < 1024) :
    (0xFFC00000 + t * 0x1000 + 4 * p).toNat = 0xFFC00000 + t.toNat * 0x1000 + 4 * p.toNat := by
  have h4 : BitVec.toNat (4 : U32) = 4 := rfl
  have hpage : BitVec.toNat (0x1000 : U32) = 0x1000 := rfl
  have hbase : BitVec.toNat (0xFFC00000 : U32) = 0xFFC00000 := rfl
  rw [BitVec.toNat_add, BitVec.toNat_add, BitVec.toNat_mul, BitVec.toNat_mul, h4, hpage, hbase]
  omega

theorem pte_address {t p : U32} (ht : t.toNat < 1024) (hp : p.toNat < 1024) :
    pdeIndex (0xFFC00000 + t * 0x1000 + 4 * p) = 1023 ∧
      pteIndex (0xFFC00000 + t * 0x1000 + 4 * p) = t.toNat ∧
      wordOf (0xFFC00000 + t * 0x1000 + 4 * p) = p.toNat := by
  simp only [pdeIndex, pteIndex, wordOf, pte_address_toNat ht hp]
  omega

theorem Window.walk_pde (w : Window s) {t : U32} (ht : t.toNat < 1024) :
    walk s.mem s.cr3 (0xfffff000 + 4 * t) = some (s.pde 1023) := by
  obtain ⟨hd, hp, _⟩ := pde_address ht
  rw [walk_eq_some, hd, hp]
  refine ⟨w.present, w.present, ?_⟩
  change s.mem (s.table 1023) 1023 = _
  rw [w.recursive]
  rfl

theorem Window.walk_pte (w : Window s) {t p : U32} (ht : t.toNat < 1024) (hp : p.toNat < 1024)
    (present : Present (s.pde t.toNat)) :
    walk s.mem s.cr3 (0xFFC00000 + t * 0x1000 + 4 * p) = some (s.pde t.toNat) := by
  obtain ⟨hd, hpt, _⟩ := pte_address ht hp
  rw [walk_eq_some, hd, hpt]
  refine ⟨w.present, present, ?_⟩
  change s.mem (s.table 1023) t.toNat = _
  rw [w.recursive]
  rfl

theorem Window.load_pde (w : Window s) {t : U32} (ht : t.toNat < 1024) :
    s.load (s.pdirVirtual + 4 * t) = some (s.pde t.toNat) := by
  rw [Machine.load, loadVirt, w.pdirVirtual, w.walk_pde ht, (pde_address ht).2.2, Option.map_some]
  exact congrArg (fun f => some (s.mem f t.toNat)) w.recursive

theorem Window.load_pte (w : Window s) {t p : U32} (ht : t.toNat < 1024) (hp : p.toNat < 1024)
    (present : Present (s.pde t.toNat)) :
    s.load (0xFFC00000 + t * 0x1000 + 4 * p) = some (s.pte t.toNat p.toNat) := by
  rw [Machine.load, loadVirt, w.walk_pte ht hp present, (pte_address ht hp).2.2, Option.map_some]
  rfl

theorem Window.store_pde (w : Window s) {t : U32} (ht : t.toNat < 1024) (x : U32) :
    s.store (s.pdirVirtual + 4 * t) x = some (s.poke (frameOf s.cr3) t.toNat x) := by
  have haddr : s.pdirVirtual + 4 * t = 0xfffff000 + 4 * t := by rw [w.pdirVirtual]
  rw [haddr, Machine.store, storeVirt, w.walk_pde ht, (pde_address ht).2.2, Option.map_some,
    Option.map_some]
  exact congrArg (fun f => some (s.poke f t.toNat x)) w.recursive

theorem Window.store_pte (w : Window s) {t p : U32} (ht : t.toNat < 1024) (hp : p.toNat < 1024)
    (present : Present (s.pde t.toNat)) (x : U32) :
    s.store (0xFFC00000 + t * 0x1000 + 4 * p) x =
      some (s.poke (s.table t.toNat) p.toNat x) := by
  rw [Machine.store, storeVirt, w.walk_pte ht hp present, (pte_address ht hp).2.2,
    Option.map_some, Option.map_some]
  rfl

theorem Window.setPdbr_poke (w : Window s) (f p : Nat) (x : U32) :
    (s.poke f p x).setPdbr (s.poke f p x).pdirPhysical = s.poke f p x :=
  Machine.setPdbr_eq w.pdbr

/-- Only slot 1023 of the directory matters to the window. -/
theorem Window.poke (w : Window s) {f p : Nat} (x : U32)
    (h : f ≠ frameOf s.cr3 ∨ p ≠ 1023) : Window (s.poke f p x) := by
  have hslot : (s.poke f p x).pde 1023 = s.pde 1023 := by
    rw [Machine.poke_pde, if_neg]
    rintro ⟨hf, hp⟩
    rcases h with h | h
    · exact h hf
    · exact h hp
  refine ⟨w.pdbr, w.pdirVirtual, ?_, ?_⟩
  · rw [hslot]
    exact w.present
  · rw [Machine.table, hslot]
    exact w.recursive

/-- The library's `memset` clears one byte of the page. -/
theorem Window.memset_table (w : Window s) {t : U32} (ht : t.toNat < 1023)
    (present : Present (s.pde t.toNat)) (apart : s.table t.toNat ≠ frameOf s.cr3) (n : Nat) :
    memset Machine.store8 s (0xFFC00000 + t * 0x1000) 0x0 (n + 1) =
      some (s.poke (s.table t.toNat) 0 (setByte (s.pte t.toNat 0) 0 0)) := by
  have once (s : Machine) (w : Window s) (present : Present (s.pde t.toNat)) :
      s.store8 (0xFFC00000 + t * 0x1000) 0 =
        some (s.poke (s.table t.toNat) 0 (setByte (s.pte t.toNat 0) 0 0)) := by
    have hzero : (0xFFC00000 : U32) + t * 0x1000 = 0xFFC00000 + t * 0x1000 + 4 * 0 := by simp
    have h0 : BitVec.toNat (0 : U32) < 1024 := by decide
    have hword := (pte_address (t := t) (p := 0) (by omega) h0).2.2
    have haligned : (0xFFC00000 + t * 0x1000 + 4 * 0 : U32).toNat % 4 = 0 := by
      rw [pte_address_toNat (by omega) h0]
      omega
    rw [hzero, Machine.store8, storeVirt8, w.walk_pte (by omega) h0 present, hword, haligned,
      Option.map_some, Option.map_some]
    rfl
  have apart' : (s.poke (s.table t.toNat) 0 (setByte (s.pte t.toNat 0) 0 0)).pde t.toNat =
      s.pde t.toNat := by
    rw [Machine.poke_pde, if_neg (fun h => apart h.1)]
  apply memset_once (once s w present)
  have same := once _ (w.poke _ (Or.inl apart)) (by rwa [apart'])
  have htable : (s.poke (s.table t.toNat) 0 (setByte (s.pte t.toNat 0) 0 0)).table t.toNat =
      s.table t.toNat := by
    rw [Machine.table, apart', Machine.table]
  have hword : (s.poke (s.table t.toNat) 0 (setByte (s.pte t.toNat 0) 0 0)).pte t.toNat 0 =
      setByte (s.pte t.toNat 0) 0 0 := by
    rw [Machine.pte, htable, Machine.poke_mem, put_same]
  rw [htable, hword, setByte_setByte, Machine.poke_poke] at same
  exact same

end Window

namespace Machine

/-- Directory entry `t` set to the block that `balloc_get` returns. -/
def newEntry (s : Machine) (t : Nat) : Machine :=
  { s with balloc := (ballocGet s.balloc).2 }.poke (frameOf s.cr3) t ((ballocGet s.balloc).1 ||| 3)

/-- The library's `memset` then clears the first byte of that block. -/
def newTable (s : Machine) (t : Nat) : Machine :=
  (s.newEntry t).poke (frameOf (ballocGet s.balloc).1) 0
    (setByte (s.mem (frameOf (ballocGet s.balloc).1) 0) 0 0)

def withTable (s : Machine) (t : Nat) : Machine :=
  if Present (s.pde t) then s else s.newTable t

def setPte (s : Machine) (t p : Nat) (x : U32) : Machine := s.poke (s.table t) p x

def dropTable (s : Machine) (t : Nat) : Machine :=
  { s with balloc := ballocFree s.balloc (s.pde t &&& 0xFFFFF000) }.poke (frameOf s.cr3) t 0x00

/-- Table `t` has no present entry. -/
def Empty (s : Machine) (t : Nat) : Prop := ∀ p, p < 1024 → ¬ Present (s.pte t p)

instance (s : Machine) (t : Nat) : Decidable (s.Empty t) :=
  Nat.decidableBallLT 1024 fun p _ => ¬ Present (s.pte t p)

def clearPte (s : Machine) (t p : Nat) : Machine :=
  if Present (s.pte t p) then s.setPte t p 0x00 else s

/-- Give the table back when nothing is left in it. -/
def collect (s : Machine) (t : Nat) : Machine := if s.Empty t then s.dropTable t else s

end Machine

theorem present_or_flags (a : U32) : Present (a ||| 3) := or_present a 3 (by decide)

theorem frameOf_or_three (a : U32) : frameOf (a ||| 3) = frameOf a :=
  frameOf_or_flags a (by decide)

/-- The last entry of the directory is the directory itself. -/
theorem window_of_entry {s : Machine} (pdbr : s.cr3 = s.pdirPhysical)
    (virt : s.pdirVirtual = 0xfffff000) (entry : s.pde 1023 = s.cr3 ||| 3) : Window s := by
  refine ⟨pdbr, virt, ?_, ?_⟩
  · rw [entry]
    exact present_or_flags s.cr3
  · rw [Machine.table, entry]
    exact frameOf_or_three s.cr3

section NewTable

variable {s : Machine}

theorem newEntry_pde (t t' : Nat) :
    (s.newEntry t).pde t' = if t = t' then (ballocGet s.balloc).1 ||| 3 else s.pde t' := by
  rw [Machine.newEntry, Machine.poke_pde]
  simp [Machine.pde]

theorem newEntry_table (t : Nat) : (s.newEntry t).table t = frameOf (ballocGet s.balloc).1 := by
  rw [Machine.table, newEntry_pde, if_pos rfl, frameOf_or_three]

theorem newEntry_window (w : Window s) {t : Nat} (ht : t < 1023) : Window (s.newEntry t) := by
  have w1 : Window { s with balloc := (ballocGet s.balloc).2 } :=
    ⟨w.pdbr, w.pdirVirtual, w.present, w.recursive⟩
  exact w1.poke _ (Or.inr (Nat.ne_of_lt ht))

theorem newTable_balloc (t : Nat) : (s.newTable t).balloc = (ballocGet s.balloc).2 := rfl

variable (apart : frameOf (ballocGet s.balloc).1 ≠ frameOf s.cr3)

include apart

theorem newTable_pde (t t' : Nat) :
    (s.newTable t).pde t' = if t = t' then (ballocGet s.balloc).1 ||| 3 else s.pde t' := by
  rw [Machine.newTable, Machine.poke_pde_other (by exact apart), newEntry_pde]

theorem newTable_table (t : Nat) : (s.newTable t).table t = frameOf (ballocGet s.balloc).1 := by
  rw [Machine.table, newTable_pde apart, if_pos rfl, frameOf_or_three]

theorem newTable_window (w : Window s) {t : Nat} (ht : t < 1023) : Window (s.newTable t) :=
  (newEntry_window w ht).poke _ (Or.inl apart)

theorem newTable_memset (w : Window s) {t : U32} (ht : t.toNat < 1023) (n : Nat) :
    memset Machine.store8 (s.newEntry t.toNat) (0xFFC00000 + t * 0x1000) 0x0 (n + 1) =
      some (s.newTable t.toNat) := by
  have hentry : (s.newEntry t.toNat).pde t.toNat = (ballocGet s.balloc).1 ||| 3 := by
    rw [newEntry_pde, if_pos rfl]
  have hword : (s.newEntry t.toNat).pte t.toNat 0 = s.mem (frameOf (ballocGet s.balloc).1) 0 := by
    rw [Machine.pte, newEntry_table, Machine.newEntry, Machine.poke_mem, put_frame _ _ _ _ apart]
  rw [(newEntry_window w ht).memset_table ht (by rw [hentry]; exact present_or_flags _)
    (by rw [newEntry_table]; exact apart), newEntry_table, hword, Machine.newTable]

end NewTable

/-- What one call of `vmmngr_map_page` does: nothing on a mapped page, else one
entry is set, in a new table if there was none. -/
theorem map_eq {s : Machine} (w : Window s) {phys virt : U32} (below : Below virt)
    (apart : ¬ Present (s.pde (pdeIndex virt)) →
      frameOf (ballocGet s.balloc).1 ≠ frameOf s.cr3) :
    vmmngrMapPage s phys virt =
      if Present (s.pde (pdeIndex virt)) ∧ Present (s.pte (pdeIndex virt) (pteIndex virt)) then
        some (-1, s)
      else some (0, (s.withTable (pdeIndex virt)).setPte (pdeIndex virt) (pteIndex virt)
        (phys ||| 3)) := by
  have ht : (i386VirtualToPgidx virt).ptable.toNat = pdeIndex virt := ptable_toNat virt
  have hp : (i386VirtualToPgidx virt).page.toNat = pteIndex virt := page_toNat virt
  have hlt := below.pdeIndex_lt
  have hplt := pteIndex_lt virt
  rw [vmmngrMapPage]
  generalize i386VirtualToPgidx virt = pageData at ht hp
  rw [← ht] at hlt apart ⊢
  rw [← hp] at hplt ⊢
  have hload := w.load_pde (t := pageData.ptable) (by omega)
  by_cases present : Present (s.pde pageData.ptable.toNat)
  · have hpte := w.load_pte (by omega) hplt present
    have hset : s.withTable pageData.ptable.toNat = s := if_pos present
    by_cases taken : Present (s.pte pageData.ptable.toNat pageData.page.toNat)
    · simp only [Option.bind_eq_bind, hload, Option.bind_some, hpte, if_pos present,
        if_neg (not_not.mpr taken), if_pos (And.intro present taken)]
      rfl
    · have hstore := w.store_pte (by omega) hplt present (phys ||| 3)
      have hpdbr :=
        (w.setPdbr_poke (s.table pageData.ptable.toNat) pageData.page.toNat (phys ||| 3))
      simp only [Option.bind_eq_bind, hload, Option.bind_some, hpte, if_pos present,
        if_pos taken, if_neg (fun h => taken (And.right h)), hset, hstore]
      exact congrArg (fun s => some ((0 : Int), s)) hpdbr
  · have away := apart present
    have w' := newTable_window away w hlt
    have hset : s.withTable pageData.ptable.toNat = s.newTable pageData.ptable.toNat :=
      if_neg present
    have w1 : Window { s with balloc := (ballocGet s.balloc).2 } :=
      ⟨w.pdbr, w.pdirVirtual, w.present, w.recursive⟩
    have hdir : { s with balloc := (ballocGet s.balloc).2 }.store
        (s.pdirVirtual + 4 * pageData.ptable) ((ballocGet s.balloc).1 ||| 3) =
          some (s.newEntry pageData.ptable.toNat) := w1.store_pde (by omega) _
    have hset8 := newTable_memset away w hlt 4095
    have hpresent : Present ((s.newTable pageData.ptable.toNat).pde pageData.ptable.toNat) := by
      rw [newTable_pde away, if_pos rfl]
      exact present_or_flags _
    have hstore := w'.store_pte (by omega) hplt hpresent (phys ||| 3)
    have hpdbr := w'.setPdbr_poke ((s.newTable pageData.ptable.toNat).table pageData.ptable.toNat)
      pageData.page.toNat (phys ||| 3)
    simp only [Option.bind_eq_bind, hload, Option.bind_some, if_neg present,
      if_neg (fun h => present (And.left h)), hset, hdir, i386EntriesPerPtable, hset8, hstore]
    exact congrArg (fun s => some ((0 : Int), s)) hpdbr

theorem findPresent_spec {s : Machine} (w : Window s) {t : U32} (ht : t.toNat < 1024)
    (present : Present (s.pde t.toNat)) {n i : Nat} (h : i + n = 1024) :
    ∃ j, findPresent s (0xFFC00000 + t * 0x1000) n i = some j ∧
      (1024 ≤ j ↔ ∀ p, i ≤ p → p < 1024 → ¬ Present (s.pte t.toNat p)) := by
  induction n generalizing i with
  | zero =>
    refine ⟨i, rfl, ?_⟩
    constructor
    · intro _ p hlo hhi
      omega
    · intro _
      omega
  | succ n ih =>
    have hi : (BitVec.ofNat 32 i).toNat = i := by
      rw [BitVec.toNat_ofNat]
      omega
    have hload := w.load_pte (p := BitVec.ofNat 32 i) ht (by omega) present
    rw [hi] at hload
    simp only [findPresent, Option.bind_eq_bind, hload, Option.bind_some]
    by_cases found : Present (s.pte t.toNat i)
    · refine ⟨i, if_pos found, ?_⟩
      constructor
      · intro _
        omega
      · intro none_left
        exact absurd found (none_left i le_rfl (by omega))
    · obtain ⟨j, hj, hnone⟩ := ih (show i + 1 + n = 1024 by omega)
      refine ⟨j, (if_neg found).trans hj, hnone.trans ?_⟩
      constructor
      · intro rest p hlo hhi
        rcases Nat.eq_or_lt_of_le hlo with rfl | hlt
        · exact found
        · exact rest p hlt hhi
      · intro all p hlo hhi
        exact all p (by omega) hhi

theorem findPresent_table {s : Machine} (w : Window s) {t : U32} (ht : t.toNat < 1024)
    (present : Present (s.pde t.toNat)) :
    ∃ j, findPresent s (0xFFC00000 + t * 0x1000) 1024 0 = some j ∧
      (j ≥ 1024 ↔ s.Empty t.toNat) := by
  obtain ⟨j, hj, hnone⟩ := findPresent_spec w ht present (Nat.zero_add 1024)
  refine ⟨j, hj, hnone.trans ?_⟩
  exact ⟨fun h p hp => h p (Nat.zero_le p) hp, fun h p _ hp => h p hp⟩

theorem Window.unmapEntry_pte {s : Machine} (w : Window s) {t p : U32} (ht : t.toNat < 1024)
    (hp : p.toNat < 1024) (present : Present (s.pde t.toNat)) :
    unmapEntry s (0xFFC00000 + t * 0x1000 + 4 * p) =
      some (if Present (s.pte t.toNat p.toNat) then s.pte t.toNat p.toNat &&& ~~~0xfff else 0,
        s.clearPte t.toNat p.toNat) := by
  simp only [unmapEntry, Option.bind_eq_bind, w.load_pte ht hp present, Option.bind_some,
    w.store_pte ht hp present, Machine.clearPte]
  split <;> rfl

section ClearPte

variable {s : Machine} {t p : Nat} (apart : s.table t ≠ frameOf s.cr3)

include apart

theorem clearPte_pde (t' : Nat) : (s.clearPte t p).pde t' = s.pde t' := by
  rw [Machine.clearPte]
  split
  · rw [Machine.setPte, Machine.poke_pde_other apart]
  · rfl

theorem clearPte_window (w : Window s) : Window (s.clearPte t p) := by
  rw [Machine.clearPte]
  split
  · exact w.poke _ (Or.inl apart)
  · exact w

end ClearPte

/-- What one call of `vmmngr_unmap_page` does: the entry is cleared, and a table left
without entries is freed together with its directory entry. -/
theorem unmap_eq {s : Machine} (w : Window s) {virt : U32} (below : Below virt)
    (apart : Present (s.pde (pdeIndex virt)) → s.table (pdeIndex virt) ≠ frameOf s.cr3) :
    vmmngrUnmapPage s virt =
      if Present (s.pde (pdeIndex virt)) then
        some (if Present (s.pte (pdeIndex virt) (pteIndex virt)) then
            s.pte (pdeIndex virt) (pteIndex virt) &&& ~~~0xfff else 0,
          (s.clearPte (pdeIndex virt) (pteIndex virt)).collect (pdeIndex virt))
      else some (0, s) := by
  have ht : (i386VirtualToPgidx virt).ptable.toNat = pdeIndex virt := ptable_toNat virt
  have hp : (i386VirtualToPgidx virt).page.toNat = pteIndex virt := page_toNat virt
  have hlt := below.pdeIndex_lt
  have hplt := pteIndex_lt virt
  rw [vmmngrUnmapPage]
  generalize i386VirtualToPgidx virt = pageData at ht hp
  rw [← ht] at hlt apart ⊢
  rw [← hp] at hplt ⊢
  have hload := w.load_pde (t := pageData.ptable) (by omega)
  by_cases present : Present (s.pde pageData.ptable.toNat)
  · have away := apart present
    have hclear := w.unmapEntry_pte (by omega) hplt present
    have w' := clearPte_window (p := pageData.page.toNat) away w
    have hpde := clearPte_pde (p := pageData.page.toNat) away
    generalize s.clearPte pageData.ptable.toNat pageData.page.toNat = s' at hclear w' hpde
    have present' : Present (s'.pde pageData.ptable.toNat) := by rwa [hpde]
    obtain ⟨j, hj, hempty⟩ := findPresent_table w' (by omega) present'
    have hload' := w'.load_pde (t := pageData.ptable) (by omega)
    simp only [Option.bind_eq_bind, hload, Option.bind_some, if_pos present, hclear, hj]
    by_cases empty : s'.Empty pageData.ptable.toNat
    · have hcollect : s'.collect pageData.ptable.toNat = s'.dropTable pageData.ptable.toNat :=
        if_pos empty
      have w2 : Window { s' with
          balloc := ballocFree s'.balloc (s'.pde pageData.ptable.toNat &&& 0xFFFFF000) } :=
        ⟨w'.pdbr, w'.pdirVirtual, w'.present, w'.recursive⟩
      have hdrop : { s' with
          balloc := ballocFree s'.balloc (s'.pde pageData.ptable.toNat &&& 0xFFFFF000) }.store
            (s'.pdirVirtual + 4 * pageData.ptable) 0x00 =
              some (s'.dropTable pageData.ptable.toNat) := w2.store_pde (by omega) 0x00
      have hpdbr : (s'.dropTable pageData.ptable.toNat).setPdbr
          (s'.dropTable pageData.ptable.toNat).pdirPhysical =
            s'.dropTable pageData.ptable.toNat := w2.setPdbr_poke _ _ _
      simp only [if_pos (hempty.mpr empty), hload', Option.bind_some, hcollect, hdrop, hpdbr]
      rfl
    · have hcollect : s'.collect pageData.ptable.toNat = s' := if_neg empty
      simp only [if_neg (mt hempty.mp empty), hcollect, Machine.setPdbr_eq w'.pdbr]
      rfl
  · simp only [Option.bind_eq_bind, hload, Option.bind_some, if_neg present]
    rw [Machine.setPdbr_eq w.pdbr]
    rfl

end PageTables
