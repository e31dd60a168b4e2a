import MissyMicro.PageMapping

/-!
# Address spaces

A new directory is filled through the temporary page `0xCFFFF000`, which entry 1023
of table 831 maps to it. `vmmngr_create_address_space` copies slot 1023 like any
other kernel slot and leaves the temporary page mapped.
-/

namespace AddressSpaces

open BlockAllocator Mmu PageTables PageMapping
open BlockAllocator.Balloc

def i386TempPdirVirtual : U32 := 0xD0000000 - 0x1000

/-- `new_pdir_virt[idx] = pdir_virtual[idx]`. -/
def copyEntry (s : Machine) (idx : Nat) : Option Machine := do
  let pde ← s.load (s.pdirVirtual + 4 * BitVec.ofNat 32 idx)
  s.store (i386TempPdirVirtual + 4 * BitVec.ofNat 32 idx) pde

/-- The loops over the slots from `idx` on, `n` slots to go. -/
def copyEntries (s : Machine) : Nat → Nat → Option Machine
  | 0, _ => some s
  | n + 1, idx => do
    let s ← copyEntry s idx
    copyEntries s n (idx + 1)

/-- The result is the returned value and the state after. -/
def vmmngrCreateAddressSpace (s : Machine) (p : U32) : Option (Int × Machine) := do
  if p = 0 then return (-1, s)
  else
    let (mapped, s) ← vmmngrMapPage s p i386TempPdirVirtual
    if mapped = -1 then return (-1, s)
    else
      let s ← copyEntries s 256 0
      let s ← copyEntries s (1024 - 768) 768
      return (0, s)

def vmmngrSwitchAddressSpace (s : Machine) (p : U32) : Int × Machine :=
  if p = 0 then (-1, s) else (0, s.setPdbr p)

/-- The directory in use sees itself, and its frame is a block in use. -/
structure Current (s : Machine) : Prop where
  window : Window s
  used : s.balloc.MarkedUsed (frameOf s.cr3)
  nonnull : frameOf s.cr3 ≠ 0

/-- The temporary page is mapped. -/
def Busy (s : Machine) : Prop := Present (s.pde 831) ∧ Present (s.pte 831 1023)

instance (s : Machine) : Decidable (Busy s) := inferInstanceAs (Decidable (_ ∧ _))

/-- The temporary page shows frame `f`. -/
structure Shown (s : Machine) (f : Nat) : Prop where
  window : Window s
  table : Present (s.pde 831)
  present : Present (s.pte 831 1023)
  frame : frameOf (s.pte 831 1023) = f

theorem temp_below : Below i386TempPdirVirtual := by decide

/-- The address of word `t` of the temporary page. -/
theorem temp_address {t : U32} (ht : t.toNat < 1024) :
    (i386TempPdirVirtual + 4 * t).toNat / 4096 = i386TempPdirVirtual.toNat / 4096 ∧
      wordOf (i386TempPdirVirtual + 4 * t) = t.toNat := by
  have h4 : BitVec.toNat (4 : U32) = 4 := rfl
  have hbase : i386TempPdirVirtual.toNat = 0xCFFFF000 := rfl
  have haddr : (i386TempPdirVirtual + 4 * t).toNat = 0xCFFFF000 + 4 * t.toNat := by
    rw [BitVec.toNat_add, BitVec.toNat_mul, h4, hbase]
    omega
  simp only [wordOf, haddr, hbase]
  omega

/-- Neither a new table nor NULL is the frame of the directory. -/
theorem Current.apart {s : Machine} (c : Current s) :
    frameOf (ballocGet s.balloc).1 ≠ frameOf s.cr3 := by
  intro same
  by_cases null : (ballocGet s.balloc).1 = 0
  · rw [null] at same
    exact c.nonnull same.symm
  · obtain ⟨_, _, unused, _⟩ := ballocGet_fresh null
    rw [same] at unused
    exact unused c.used.2

section Shown

variable {s : Machine} {f : Nat}

/-- All addresses of the temporary page are walked alike. -/
theorem Shown.walk_temp (h : Shown s f) {va : U32}
    (page : va.toNat / 4096 = i386TempPdirVirtual.toNat / 4096) :
    walk s.mem s.cr3 va = some (s.pte 831 1023) := by
  rw [walk_congr s.mem s.cr3 page, walk_eq_some]
  exact ⟨h.table, h.present, rfl⟩

theorem Shown.store_temp (h : Shown s f) {t : U32} (ht : t.toNat < 1024) (x : U32) :
    s.store (i386TempPdirVirtual + 4 * t) x = some (s.poke f t.toNat x) := by
  obtain ⟨page, hword⟩ := temp_address ht
  rw [Machine.store, storeVirt, h.walk_temp page, hword, Option.map_some, h.frame]
  rfl

/-- A store to the frame shown keeps the directory and the temporary page, if it does not
alter the former and does not hit the entry of the latter. -/
theorem Shown.poke_keeps (h : Shown s f) {idx : Nat} {x : U32}
    (same : f = frameOf s.cr3 → x = s.pde idx) (aside : f = s.table 831 → idx ≠ 1023) :
    (∀ t, (s.poke f idx x).pde t = s.pde t) ∧ Shown (s.poke f idx x) f := by
  have hpde (t : Nat) : (s.poke f idx x).pde t = s.pde t := by
    rw [Machine.poke_pde]
    split
    · rename_i here
      rw [same here.1, here.2]
    · rfl
  have htable (t : Nat) : (s.poke f idx x).table t = s.table t := congrArg frameOf (hpde t)
  have hpte : (s.poke f idx x).pte 831 1023 = s.pte 831 1023 := by
    rw [Machine.pte, htable, Machine.poke_mem, put, if_neg]
    · rfl
    · exact fun here => aside here.1.symm here.2.symm
  refine ⟨hpde, ⟨h.window.pdbr, h.window.pdirVirtual, ?_, ?_⟩, ?_, ?_, ?_⟩
  · rw [hpde]
    exact h.window.present
  · rw [htable]
    exact h.window.recursive
  · rw [hpde]
    exact h.table
  · rw [hpte]
    exact h.present
  · rw [hpte]
    exact h.frame

/-- One turn copies one word, from the directory to the frame shown. -/
theorem Shown.copyEntry_eq (h : Shown s f) {idx : Nat} (hidx : idx < 1024) :
    copyEntry s idx = some (s.poke f idx (s.pde idx)) := by
  have hword : (BitVec.ofNat 32 idx).toNat = idx := by
    rw [BitVec.toNat_ofNat]
    omega
  have hload := h.window.load_pde (t := BitVec.ofNat 32 idx) (by omega)
  have hstore := h.store_temp (t := BitVec.ofNat 32 idx) (by omega) (s.pde idx)
  rw [hword] at hload hstore
  simp only [copyEntry, Option.bind_eq_bind, hload, Option.bind_some, hstore]

/-- Below slot 1023 the copy disturbs neither window, whatever frame is shown. -/
theorem Shown.copied (h : Shown s f) {idx : Nat} (hidx : idx < 1023) :
    Shown (s.poke f idx (s.pde idx)) f :=
  (h.poke_keeps (fun _ => rfl) fun _ => Nat.ne_of_lt hidx).2

end Shown

/-- The words of `f` from `idx` on, `n` of them, taken from the directory frame. -/
def copied (m : PhysMem) (dir f idx n : Nat) : PhysMem :=
  fun f' w => if f' = f ∧ idx ≤ w ∧ w < idx + n then m dir w else m f' w

def copySlots (s : Machine) (f idx n : Nat) : Machine :=
  { s with mem := copied s.mem (frameOf s.cr3) f idx n }

section Copied

variable {m : PhysMem} {dir f idx n : Nat}

theorem copied_inside {w : Nat} (lo : idx ≤ w) (hi : w < idx + n) :
    copied m dir f idx n f w = m dir w := if_pos ⟨rfl, lo, hi⟩

theorem copied_outside {f' w : Nat} (h : ¬ (f' = f ∧ idx ≤ w ∧ w < idx + n)) :
    copied m dir f idx n f' w = m f' w := if_neg h

/-- The source of the copy does not change, not even when it is copied onto itself. -/
theorem copied_dir (w : Nat) : copied m dir f idx n dir w = m dir w := ite_self _

theorem put_dir (w : Nat) : put m f idx (m dir idx) dir w = m dir w := by
  rw [put]
  split
  · rename_i same
    rw [same.2]
  · rfl

theorem copied_succ :
    copied (put m f idx (m dir idx)) dir f (idx + 1) n = copied m dir f idx (n + 1) := by
  funext f' w
  simp only [copied, put_dir]
  by_cases first : f' = f ∧ w = idx
  · obtain ⟨rfl, rfl⟩ := first
    rw [if_neg (by omega), put_same, if_pos (by omega)]
  · by_cases later : f' = f ∧ idx + 1 ≤ w ∧ w < idx + 1 + n
    · rw [if_pos later, if_pos (by omega)]
    · rw [if_neg later, if_neg (by omega), put, if_neg first]

end Copied

theorem copySlots_succ (s : Machine) (f idx n : Nat) :
    copySlots (s.poke f idx (s.pde idx)) f (idx + 1) n = copySlots s f idx (n + 1) := by
  simp only [copySlots, Machine.poke, Machine.mk.injEq, and_true]
  exact copied_succ

theorem copySlots_zero (s : Machine) (f idx : Nat) : copySlots s f idx 0 = s := by
  have hmem : copied s.mem (frameOf s.cr3) f idx 0 = s.mem := by
    funext f' w
    exact copied_outside (by omega)
  rw [copySlots, hmem]

/-- Only the last slot of all may spoil the temporary page. -/
theorem Shown.copyEntries_eq {s : Machine} {f : Nat} (h : Shown s f) {n idx : Nat}
    (hidx : idx + n ≤ 1024) : copyEntries s n idx = some (copySlots s f idx n) ∧
      (idx + n < 1024 → Shown (copySlots s f idx n) f) := by
  induction n generalizing s idx with
  | zero =>
    rw [copySlots_zero]
    exact ⟨rfl, fun _ => h⟩
  | succ n ih =>
    have hturn := h.copyEntry_eq (show idx < 1024 by omega)
    simp only [copyEntries, Option.bind_eq_bind, hturn, Option.bind_some]
    by_cases last : n = 0
    · subst last
      rw [← copySlots_succ, copySlots_zero]
      refine ⟨rfl, fun hlt => h.copied (by omega)⟩
    · obtain ⟨hrest, shown⟩ := ih (h.copied (show idx < 1023 by omega))
        (show idx + 1 + n ≤ 1024 by omega)
      rw [copySlots_succ] at hrest shown
      exact ⟨hrest, fun hlt => shown (by omega)⟩

/-- The new directory while the temporary page shows it, before anything is copied. -/
def showFrame (s : Machine) (p : U32) : Machine := (s.withTable 831).setPte 831 1023 (p ||| 3)

/-- The state a successful call leaves. -/
def created (s : Machine) (p : U32) : Machine :=
  copySlots (copySlots (showFrame s p) (frameOf p) 0 256) (frameOf p) 768 256

theorem withTable_cr3 (s : Machine) : (s.withTable 831).cr3 = s.cr3 := by
  rw [Machine.withTable]
  split <;> rfl

section ShowFrame

variable {s : Machine} (w : Window s) (apart : frameOf (ballocGet s.balloc).1 ≠ frameOf s.cr3)

include w apart

theorem withTable_window : Window (s.withTable 831) ∧ Present ((s.withTable 831).pde 831) := by
  rw [Machine.withTable]
  split
  · rename_i present
    exact ⟨w, present⟩
  · refine ⟨newTable_window apart w (by omega), ?_⟩
    rw [newTable_pde apart, if_pos rfl]
    exact present_or_flags _

/-- As its entry 1023 is not present, table 831 is not the directory. -/
theorem temp_table_apart (free : ¬ Busy s) :
    (s.withTable 831).table 831 ≠ frameOf (s.withTable 831).cr3 := by
  rw [withTable_cr3, Machine.withTable]
  split
  · rename_i present
    intro same
    refine free ⟨present, ?_⟩
    rw [Machine.pte, same]
    exact w.present
  · rw [newTable_table apart]
    exact apart

theorem showFrame_shown (free : ¬ Busy s) (p : U32) : Shown (showFrame s p) (frameOf p) := by
  have aside := temp_table_apart w apart free
  obtain ⟨window, present⟩ := withTable_window w apart
  have hpde := Machine.poke_pde_other aside 1023 (p ||| 3) 831
  have hpte := Machine.poke_pte_other aside 1023 (p ||| 3) 831 1023
  rw [if_pos ⟨rfl, rfl⟩] at hpte
  constructor
  · exact window.poke _ (Or.inl aside)
  · exact hpde ▸ present
  · exact hpte ▸ present_or_flags p
  · exact (congrArg frameOf hpte).trans (frameOf_or_three p)

/-- Of the directory only the slot of the temporary page's table may have been set. -/
theorem showFrame_pde (free : ¬ Busy s) (p : U32) {d : Nat} (hd : 831 ≠ d) :
    (showFrame s p).pde d = s.pde d := by
  have aside := temp_table_apart w apart free
  rw [showFrame, Machine.setPte, Machine.poke_pde_other aside, Machine.withTable]
  split
  · rfl
  · rw [newTable_pde apart, if_neg hd]

theorem mapTemp_eq (p : U32) : vmmngrMapPage s p i386TempPdirVirtual =
    if Busy s then some (-1, s) else some (0, showFrame s p) :=
  map_eq w temp_below fun _ => apart

end ShowFrame

section Call

variable {s : Machine} (c : Current s)

include c

/-- What one call does: nothing while the temporary page is taken, else both ranges of
slots are copied. -/
theorem create_eq {p : U32} (nonnull : p ≠ 0) : vmmngrCreateAddressSpace s p =
    some (if Busy s then (-1, s) else (0, created s p)) := by
  have hmap := mapTemp_eq c.window c.apart p
  by_cases busy : Busy s
  · rw [if_pos busy] at hmap
    simp only [vmmngrCreateAddressSpace, if_neg nonnull, hmap, if_pos busy, Option.bind_eq_bind,
      Option.bind_some]
    rfl
  · rw [if_neg busy] at hmap
    obtain ⟨hlow, shown⟩ := (showFrame_shown c.window c.apart busy p).copyEntries_eq
      (show 0 + 256 ≤ 1024 by decide)
    obtain ⟨hkernel, -⟩ := (shown (by omega)).copyEntries_eq (show 768 + 256 ≤ 1024 by decide)
    have hone : ¬ (0 : Int) = -1 := by decide
    simp only [vmmngrCreateAddressSpace, if_neg nonnull, hmap, if_neg busy, Option.bind_eq_bind,
      Option.bind_some, if_neg hone, hlow, hkernel]
    rfl

/-- A call that returns 0 found the temporary page free. -/
theorem create_zero {p : U32} {t : Machine} (h : vmmngrCreateAddressSpace s p = some (0, t)) :
    ¬ Busy s ∧ t = created s p := by
  have hone : ¬ (-1 : Int) = 0 := by decide
  by_cases null : p = 0
  · rw [vmmngrCreateAddressSpace, if_pos null] at h
    exact absurd (congrArg Prod.fst (Option.some.inj h)) hone
  · rw [create_eq c null, Option.some.injEq] at h
    by_cases busy : Busy s
    · rw [if_pos busy] at h
      exact absurd (congrArg Prod.fst h) hone
    · rw [if_neg busy] at h
      exact ⟨busy, (congrArg Prod.snd h).symm⟩

end Call

/-- The words that are not copied have not been written before either. -/
theorem showFrame_mem (s : Machine) (p : U32) (f : Nat) {w : Nat} (lo : 256 ≤ w) (hi : w < 768) :
    (showFrame s p).mem f w = s.mem f w := by
  rw [showFrame, Machine.setPte, Machine.poke_mem, put_word _ _ _ _ (by omega), Machine.withTable]
  split
  · rfl
  · rw [Machine.newTable, Machine.poke_mem, put_word _ _ _ _ (by omega), Machine.newEntry,
      Machine.poke_mem, put_word _ _ _ _ (by omega)]

theorem created_cr3 (s : Machine) (p : U32) : (created s p).cr3 = s.cr3 := withTable_cr3 s

theorem created_pde (s : Machine) (p : U32) (d : Nat) :
    (created s p).pde d = (showFrame s p).pde d :=
  copied_dir d |>.trans (copied_dir d)

theorem created_kernel (s : Machine) (p : U32) {d : Nat} (lo : 768 ≤ d) (hi : d < 1024) :
    (created s p).mem (frameOf p) d = (showFrame s p).pde d :=
  copied_inside lo (by omega) |>.trans (copied_dir d)

theorem created_user (s : Machine) (p : U32) {d : Nat} (lo : 256 ≤ d) (hi : d < 768) :
    (created s p).mem (frameOf p) d = s.mem (frameOf p) d :=
  (copied_outside (by omega)).trans ((copied_outside (by omega)).trans
    (showFrame_mem s p (frameOf p) lo hi))

/-- The directory in frame `p` can be switched to. -/
structure WellFormed (t : Machine) (p : U32) : Prop where
  recursive : Present (t.mem (frameOf p) 1023)
  itself : frameOf (t.mem (frameOf p) 1023) = frameOf p
  kernel : ∀ d, 768 ≤ d → d < 1023 → t.mem (frameOf p) d = t.pde d
  user : ∀ d, 256 ≤ d → d < 768 → ¬ Present (t.mem (frameOf p) d)

/-- After the switch the window shows the new directory. -/
theorem WellFormed.switched {t : Machine} {p : U32} (h : WellFormed t p) (nonnull : p ≠ 0)
    {d : U32} (hd : d.toNat < 1024) : (vmmngrSwitchAddressSpace t p).2.load (0xfffff000 + 4 * d) =
      some (t.mem (frameOf p) d.toNat) := by
  obtain ⟨hpde, hpte, hword⟩ := pde_address hd
  rw [vmmngrSwitchAddressSpace, if_neg nonnull]
  change loadVirt t.mem p _ = _
  have hwalk : walk t.mem p (0xfffff000 + 4 * d) = some (t.mem (frameOf p) 1023) := by
    rw [walk_eq_some, hpde, hpte, h.itself]
    exact ⟨h.recursive, h.recursive, rfl⟩
  rw [loadVirt, hwalk, Option.map_some, hword, h.itself]

/-- A directory comes out well formed only where the current one is copied onto itself. -/
theorem wellFormed_iff {s t : Machine} (c : Current s) {p : U32}
    (h : vmmngrCreateAddressSpace s p = some (0, t)) : WellFormed t p ↔
      frameOf p = frameOf s.cr3 ∧ ∀ d, 256 ≤ d → d < 768 → ¬ Present (s.pde d) := by
  obtain ⟨free, rfl⟩ := create_zero c h
  have hlast : (created s p).mem (frameOf p) 1023 = s.pde 1023 :=
    (created_kernel s p (by omega) (by omega)).trans
      (showFrame_pde c.window c.apart free p (by omega))
  constructor
  · intro wf
    have same : frameOf p = frameOf s.cr3 := by
      rw [← wf.itself, hlast]
      exact c.window.recursive
    refine ⟨same, fun d lo hi => ?_⟩
    have huser := wf.user d lo hi
    rw [created_user s p lo hi, same] at huser
    exact huser
  · rintro ⟨same, absent⟩
    constructor
    · rw [hlast]
      exact c.window.present
    · rw [hlast, same]
      exact c.window.recursive
    · intro d lo hi
      rw [created_kernel s p lo (by omega), created_pde]
    · intro d lo hi
      rw [created_user s p lo hi, same]
      exact absent d lo hi

theorem emptySpace_current : Current emptySpace :=
  ⟨emptySpace_owned.window, emptySpace_owned.dirUsed, by decide⟩

theorem emptySpace_free : ¬ Busy emptySpace := fun busy => emptySpace_absent (by omega) busy.1

/-- The first space, for which block 8 was taken. -/
theorem first_space_malformed : ∃ t, vmmngrCreateAddressSpace emptySpace 0x8000 = some (0, t) ∧
    ¬ WellFormed t 0x8000 := by
  have hcreate := create_eq emptySpace_current (p := 0x8000) (by decide)
  rw [if_neg emptySpace_free] at hcreate
  refine ⟨_, hcreate, fun wf => ?_⟩
  exact absurd ((wellFormed_iff emptySpace_current hcreate).mp wf).1 (by decide)

/-- Its slot 1023 shows the caller's directory. -/
theorem new_directory_not_recursive : ¬ ∀ (s t : Machine) (p : U32), Current s →
    vmmngrCreateAddressSpace s p = some (0, t) → WellFormed t p := by
  intro all
  have hcreate := create_eq emptySpace_current (p := 0x9000) (by decide)
  rw [if_neg emptySpace_free] at hcreate
  have wf := all emptySpace _ 0x9000 emptySpace_current hcreate
  have hself := wf.itself
  rw [created_kernel _ _ (by omega) (by omega), showFrame_pde
    emptySpace_current.window emptySpace_current.apart emptySpace_free _ (by omega)] at hself
  exact absurd hself (by decide)

/-- Every call returns 0 and leaves every translation as it was. -/
def LeavesAlone (s : Machine) : List U32 → Prop
  | [] => True
  | p :: frames => ∃ t, vmmngrCreateAddressSpace s p = some (0, t) ∧
      (∀ va, translateVirt t.mem t.cr3 va = translateVirt s.mem s.cr3 va) ∧ LeavesAlone t frames

theorem busy_iff_temp (s : Machine) :
    Busy s ↔ translateVirt s.mem s.cr3 i386TempPdirVirtual ≠ none := by
  rw [translateVirt, Ne, Option.map_eq_none_iff, ← Ne, Option.ne_none_iff_exists']
  simp only [walk_eq_some]
  constructor
  · exact fun busy => ⟨_, busy.1, busy.2, rfl⟩
  · rintro ⟨pte, present, hpte, rfl⟩
    exact ⟨present, hpte⟩

/-- The temporary page stays mapped, even where the copy ran over its own table. -/
theorem created_busy {s : Machine} (c : Current s) (free : ¬ Busy s) (p : U32) :
    Busy (created s p) := by
  have shown := showFrame_shown c.window c.apart free p
  have htable : (created s p).table 831 = (showFrame s p).table 831 :=
    congrArg frameOf (created_pde s p 831)
  constructor
  · rw [created_pde]
    exact shown.table
  · rw [Machine.pte, htable]
    by_cases same : (showFrame s p).table 831 = frameOf p
    · rw [same, created_kernel s p (by omega) (by omega)]
      exact shown.window.present
    · have hword : (created s p).mem ((showFrame s p).table 831) 1023 =
          (showFrame s p).pte 831 1023 :=
        (copied_outside fun h => same h.1).trans (copied_outside fun h => same h.1)
      rw [hword]
      exact shown.present

theorem created_current {s : Machine} (c : Current s) (free : ¬ Busy s) (p : U32) :
    Current (created s p) := by
  have window := (showFrame_shown c.window c.apart free p).window
  have hpde : (created s p).pde 1023 = (showFrame s p).pde 1023 := created_pde s p 1023
  have hbits : (showFrame s p).balloc.MarkedUsed (frameOf s.cr3) := by
    change (s.withTable 831).balloc.MarkedUsed _
    rw [Machine.withTable]
    split
    · exact c.used
    · exact ballocGet_keeps c.used
  refine ⟨⟨window.pdbr, window.pdirVirtual, ?_, ?_⟩, ?_, ?_⟩
  · rw [hpde]
    exact window.present
  · rw [Machine.table, hpde]
    exact window.recursive
  · rw [created_cr3]
    exact hbits
  · rw [created_cr3]
    exact c.nonnull

/-- The next call finds the temporary page taken and fails. -/
theorem create_again {s t : Machine} (c : Current s) {p : U32}
    (h : vmmngrCreateAddressSpace s p = some (0, t)) (q : U32) :
    vmmngrCreateAddressSpace t q = some (-1, t) := by
  obtain ⟨free, rfl⟩ := create_zero c h
  by_cases null : q = 0
  · rw [vmmngrCreateAddressSpace, if_pos null]
    rfl
  · rw [create_eq (created_current c free p) null, if_pos (created_busy c free p)]

/-- Already the first call changes what the temporary page maps. -/
theorem caller_kept_iff {s : Machine} (c : Current s) (free : ¬ Busy s) (frames : List U32) :
    LeavesAlone s frames ↔ frames = [] := by
  constructor
  · intro alone
    cases frames with
    | nil => rfl
    | cons p frames =>
      obtain ⟨t, hcreate, same, -⟩ := alone
      obtain ⟨-, rfl⟩ := create_zero c hcreate
      have busy := created_busy c free p
      rw [busy_iff_temp, same, ← busy_iff_temp] at busy
      exact absurd busy free
  · rintro rfl
    exact trivial

theorem two_spaces_disturb : ¬ LeavesAlone emptySpace [0x8000, 0x9000] := by
  have kept := caller_kept_iff emptySpace_current emptySpace_free [0x8000, 0x9000]
  exact fun alone => absurd (kept.mp alone) (List.cons_ne_nil _ _)

/-- The second of two calls fails. -/
theorem second_call_fails : ¬ ∀ (s : Machine) (frames : List U32), Current s → ¬ Busy s →
    frames.Nodup → (∀ p ∈ frames, p ≠ 0) → LeavesAlone s frames := by
  intro all
  obtain ⟨t, first, -, u, second, -⟩ := all emptySpace [0x8000, 0x9000] emptySpace_current
    emptySpace_free (by simp) (by simp)
  rw [create_again emptySpace_current first, Option.some.injEq, Prod.mk.injEq] at second
  exact absurd second.1 (by omega)

end AddressSpaces
