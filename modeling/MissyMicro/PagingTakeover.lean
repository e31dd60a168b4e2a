import MissyMicro.AddressSpaces
import MissyMicro.BootPaging

/-!
# Taking over the paging of the boot code

`vmmngr_initialize` copies the boot directory into a new frame, first through the
recursive window of the boot directory, then through the identity mapping, and
unmaps the temporary page through the recursive window of the new one. The call
runs on pages that the directories map, so it comes back only if the new one still
leads to them.
-/

namespace PagingTakeover

open PackedBits BlockAllocator LibcString Words Mmu PageTables PageMapping AddressSpaces
open BootLayout BootPaging
open BlockAllocator.Balloc

/-- The pages that the call runs on. Its code, its variables and the bitmap are in the image, which
slot 768 maps, and besides there is the stack. -/
structure KernelPages where
  pages : List U32
  code : ∃ va ∈ pages, pdeIndex va = 768
  stack : kernelStackPage ∈ pages
  mapped : ∀ va ∈ pages, pdeIndex va = 768 ∨ va = kernelStackPage

def frameAt (s : Machine) (va : U32) : Option Nat := (walk s.mem s.cr3 va).map frameOf

/-- Those pages lead where they led, and no word of theirs was overwritten. -/
def Stands (own : KernelPages) (s t : Machine) : Prop :=
  ∀ va ∈ own.pages, frameAt t va = frameAt s va ∧
    ∀ f ∈ frameAt s va, ∀ w < 1024, t.mem f w = s.mem f w

instance (own : KernelPages) (s t : Machine) : Decidable (Stands own s t) :=
  List.decidableBAll (fun va => frameAt t va = frameAt s va ∧
    ∀ f ∈ frameAt s va, ∀ w < 1024, t.mem f w = s.mem f w) own.pages

/-- `i386_set_pdbr`. The next instruction is fetched through the new directory, and where it or
what it works on is not there any more, nothing is returned. `s` is the state at the call. -/
def i386SetPdbr (own : KernelPages) (s t : Machine) (pdirAddr : U32) : Option Machine :=
  if Stands own s (t.setPdbr pdirAddr) then some (t.setPdbr pdirAddr) else none

/-- The result is the returned value and the state after. -/
def vmmngrInitialize (own : KernelPages) (s : Machine) : Option (Int × Machine) := do
  let called := s
  let newPdirPhys := (ballocGet s.balloc).1
  let s := { s with balloc := (ballocGet s.balloc).2, pdirVirtual := 0xfffff000 }
  let recursiveEntry ← s.load (s.pdirVirtual + 4 * 1023)
  let s := { s with pdirPhysical := recursiveEntry &&& ~~~0xfff }
  let (mapped, s) ← vmmngrMapPage s newPdirPhys i386TempPdirVirtual
  if mapped = -1 then return (-1, s)
  else
    let s ← memcpy Machine.load8 Machine.store8 s i386TempPdirVirtual s.pdirVirtual (1024 * 4)
    let s ← s.store (newPdirPhys + 4 * 1023) (newPdirPhys ||| 3)
    let s ← i386SetPdbr own called s newPdirPhys
    let s := { s with pdirPhysical := newPdirPhys, pdirVirtual := 0xfffff000 }
    let (_, s) ← vmmngrUnmapPage s i386TempPdirVirtual
    return (0, s)

/-! ## Copying the directory byte by byte -/

/-- Byte `k` of word `idx` of a page. -/
theorem byte_address {base : U32} (aligned : base.toNat % 4096 = 0) {idx k : Nat}
    (hidx : idx < 1024) (hk : k < 4) :
    (base + BitVec.ofNat 32 (4 * idx + k)).toNat / 4096 = base.toNat / 4096 ∧
      wordOf (base + BitVec.ofNat 32 (4 * idx + k)) = idx ∧
      (base + BitVec.ofNat 32 (4 * idx + k)).toNat % 4 = k := by
  have hbase := base.isLt
  have haddr : (base + BitVec.ofNat 32 (4 * idx + k)).toNat = base.toNat + (4 * idx + k) := by
    rw [BitVec.toNat_add, BitVec.toNat_ofNat]
    omega
  simp only [wordOf, haddr]
  omega

section Copy

variable {s : Machine} {f : Nat}

/-- A byte of a directory entry, read through the window. -/
theorem load8_pde (w : Window s) {idx k : Nat} (hidx : idx < 1024) (hk : k < 4) :
    s.load8 (0xfffff000 + BitVec.ofNat 32 (4 * idx + k)) = some (byteOf (s.pde idx) k) := by
  obtain ⟨page, hword, hbyte⟩ := @byte_address 0xfffff000 rfl idx k hidx hk
  have hbase : (0xfffff000 : U32) + 4 * 0 = 0xfffff000 := by decide
  have hself := w.walk_pde (t := 0) (by decide)
  rw [hbase] at hself
  have hwalk : walk s.mem s.cr3 (0xfffff000 + BitVec.ofNat 32 (4 * idx + k)) =
      some (s.pde 1023) := (walk_congr s.mem s.cr3 page).trans hself
  rw [Machine.load8, loadVirt8, hwalk, hword, hbyte, Option.map_some]
  exact congrArg (fun frame => some (byteOf (s.mem frame idx) k)) w.recursive

/-- A byte stored through the temporary page. -/
theorem store8_temp (h : Shown s f) {idx k : Nat} (hidx : idx < 1024) (hk : k < 4)
    (x : BitVec 8) : s.store8 (i386TempPdirVirtual + BitVec.ofNat 32 (4 * idx + k)) x =
      some (s.poke f idx (setByte (s.mem f idx) k x)) := by
  obtain ⟨page, hword, hbyte⟩ := @byte_address i386TempPdirVirtual rfl idx k hidx hk
  rw [Machine.store8, storeVirt8, h.walk_temp page, hword, hbyte, Option.map_some,
    Option.map_some, h.frame]
  rfl

/-- Word `idx` of the frame shown, after `k` of its bytes were copied. -/
def copiedBytes (s : Machine) (f idx k : Nat) : Machine :=
  s.poke f idx (lowBytes (s.pde idx) (s.mem f idx) k)

theorem copiedBytes_four (s : Machine) (f idx : Nat) :
    copiedBytes s f idx 4 = s.poke f idx (s.pde idx) := by
  rw [copiedBytes, lowBytes_four]

theorem copiedBytes_zero (s : Machine) (f idx : Nat) : copiedBytes s f idx 0 = s := by
  have hmem : put s.mem f idx (s.mem f idx) = s.mem := by
    funext f' w
    rw [put]
    split
    · rename_i here
      rw [here.1, here.2]
    · rfl
  change Machine.mk (put s.mem f idx (s.mem f idx)) _ _ _ _ = s
  rw [hmem]

/-- A directory that is copied onto itself is the same at every byte. -/
theorem copiedBytes_shown (h : Shown s f) (aside : f ≠ s.table 831) (idx k : Nat) :
    (∀ t, (copiedBytes s f idx k).pde t = s.pde t) ∧ Shown (copiedBytes s f idx k) f := by
  apply h.poke_keeps
  · intro same
    rw [same]
    exact lowBytes_self (s.pde idx) k
  · exact fun same => absurd same aside

theorem copiedBytes_step (h : Shown s f) (aside : f ≠ s.table 831) {idx k : Nat}
    (hidx : idx < 1024) (hk : k < 4) (dst src : U32) (n : Nat)
    (hdst : dst = i386TempPdirVirtual + BitVec.ofNat 32 (4 * idx + k))
    (hsrc : src = 0xfffff000 + BitVec.ofNat 32 (4 * idx + k)) :
    memcpy Machine.load8 Machine.store8 (copiedBytes s f idx k) dst src (n + 1) =
      memcpy Machine.load8 Machine.store8 (copiedBytes s f idx (k + 1)) (dst + 1) (src + 1) n := by
  obtain ⟨hpde, shown⟩ := copiedBytes_shown h aside idx k
  have hload := load8_pde shown.window hidx hk
  have hstore := store8_temp shown hidx hk (byteOf (s.pde idx) k)
  have hnext : (copiedBytes s f idx k).poke f idx (setByte ((copiedBytes s f idx k).mem f idx) k
      (byteOf (s.pde idx) k)) = copiedBytes s f idx (k + 1) := by
    have hword : (copiedBytes s f idx k).mem f idx = lowBytes (s.pde idx) (s.mem f idx) k :=
      put_same s.mem f idx _
    rw [hword, copiedBytes, Machine.poke_poke]
    rfl
  rw [hpde] at hload
  rw [hnext] at hstore
  rw [memcpy, hsrc, hload, Option.bind_some, hdst, hstore, Option.bind_some]

/-- The byte loop copies the slots from `idx` on. -/
theorem memcpy_slots (h : Shown s f) (aside : f ≠ s.table 831) {n idx : Nat}
    (hidx : idx + n ≤ 1024) :
    memcpy Machine.load8 Machine.store8 s (i386TempPdirVirtual + BitVec.ofNat 32 (4 * idx))
      (0xfffff000 + BitVec.ofNat 32 (4 * idx)) (4 * n) = some (copySlots s f idx n) := by
  induction n generalizing s idx with
  | zero =>
    rw [copySlots_zero]
    rfl
  | succ n ih =>
    have hlt : idx < 1024 := by omega
    have hnext (base : U32) (k : Nat) : base + BitVec.ofNat 32 (4 * idx + k) + 1 =
        base + BitVec.ofNat 32 (4 * idx + (k + 1)) := by
      rw [BitVec.add_assoc, ← Nat.add_assoc, BitVec.ofNat_add (4 * idx + k) 1]
      rfl
    have hlen : 4 * (n + 1) = 4 * n + 1 + 1 + 1 + 1 := by omega
    obtain ⟨hpde, shown⟩ := @Shown.poke_keeps _ _ h idx _ (fun _ => rfl)
      fun same => absurd same aside
    have aside' : f ≠ (s.poke f idx (s.pde idx)).table 831 := by
      rw [Machine.table, hpde]
      exact aside
    have hword : 4 * (idx + 1) = 4 * idx + 4 := by omega
    have hrest := ih shown aside' (show idx + 1 + n ≤ 1024 by omega)
    rw [hlen, ← Nat.add_zero (4 * idx)]
    conv_lhs => rw [← copiedBytes_zero s f idx]
    rw [copiedBytes_step h aside hlt (by omega) _ _ _ rfl rfl, hnext, hnext,
      copiedBytes_step h aside hlt (by omega) _ _ _ rfl rfl, hnext, hnext,
      copiedBytes_step h aside hlt (by omega) _ _ _ rfl rfl, hnext, hnext,
      copiedBytes_step h aside hlt (by omega) _ _ _ rfl rfl, hnext, hnext, copiedBytes_four,
      ← hword, hrest, copySlots_succ]

end Copy

/-! ## The machine at boot -/

/-- Paging has just been enabled, and the static pointers are still NULL. -/
def bootMachine (stackPhysical : U32) (m : PhysMem) (b : Balloc) : Machine :=
  ⟨setupPaging stackPhysical m, pageDirectoryAddr, 0, 0, b⟩

def frameAddr (frame : Nat) : U32 := BitVec.ofNat 32 (frame * memoryBlockSize)

/-- `first` and `second` are the two lowest free blocks; the former lies below 4 MB, the
latter is zero once `memset` has cleared its first byte. -/
structure Ready (stackPhysical : U32) (m : PhysMem) (b : Balloc) (first second : Nat) : Prop where
  nonzero : first ≠ 0
  low : first < 1024
  lt : first < second
  inside : second < b.capacity
  firstFree : ¬ b.Used first
  secondFree : ¬ b.Used second
  least : ∀ c, c < second → c ≠ first → b.Used c
  zeroByte : setByte (setupPaging stackPhysical m second 0) 0 0 = 0
  zeroWords : ∀ w, 0 < w → w < 1024 → setupPaging stackPhysical m second w = 0

theorem frameOf_frameAddr {frame : Nat} (h : frame < 2 ^ 20) : frameOf (frameAddr frame) = frame :=
  blockOf_block h

theorem ballocGet_least {b : Balloc} {c : Nat} (nonzero : c ≠ 0) (inside : c < b.capacity)
    (free : ¬ b.Used c) (least : ∀ d, d < c → b.Used d) :
    (ballocGet b).1 = frameAddr c ∧ (∀ d, (ballocGet b).2.Used d ↔ c = d ∨ b.Used d) ∧
      (ballocGet b).2.freeBlocks = b.freeBlocks - 1 ∧ (ballocGet b).2.capacity = b.capacity := by
  rcases ballocGet_cases b with ⟨hfull, -⟩ | ⟨d, b', -, hlt, unused, hmin, heq, bits, count, bounds⟩
  · exact absurd (blockAllocFirstFree_full hfull (least 0 (Nat.pos_of_ne_zero nonzero)) inside) free
  · have same : d = c := by
      rcases Nat.lt_trichotomy d c with hdc | hdc | hdc
      · exact absurd (least d hdc) unused
      · exact hdc
      · exact absurd (hmin c hdc) free
    subst same
    rw [heq]
    refine ⟨rfl, fun e => ?_, count, bounds.capacity⟩
    rw [Used, bits, testBit_setBit (by omega)]
    simp [Used]

section Boot

variable {stackPhysical : U32} {m : PhysMem} {b : Balloc} {first second : Nat}

theorem frameOf_bootDirectory : frameOf pageDirectoryAddr = 0x7F := rfl

theorem boot_directory (d : Nat) :
    (bootMachine stackPhysical m b).pde d = setupPaging stackPhysical m 0x7F d := by
  change setupPaging stackPhysical m (frameOf pageDirectoryAddr) d = _
  rw [frameOf_bootDirectory]

/-- The directory entries of the boot code. -/
theorem boot_pde (d : Nat) (hd : d < 1024) : (bootMachine stackPhysical m b).pde d =
    if d = 1023 then pageDirectoryAddr ||| pagePrivilege
    else if d = 1022 then pageTableStackAddr ||| pagePrivilege
    else if d = 768 then pageTable768Addr ||| pagePrivilege
    else if d = 0 then pageTable0Addr ||| pagePrivilege
    else 0 := by
  rw [boot_directory, setupPaging_word stackPhysical m _ _ hd, if_pos rfl]

/-- Below the window there are three tables. -/
theorem boot_table {d : Nat} (hd : d < 1023)
    (present : Present ((bootMachine stackPhysical m b).pde d)) :
    (bootMachine stackPhysical m b).table d = 0x80 ∨
      (bootMachine stackPhysical m b).table d = 0x81 ∨
      (bootMachine stackPhysical m b).table d = 0x82 := by
  rw [Machine.table]
  rw [boot_pde d (by omega), if_neg (by omega)] at present ⊢
  by_cases stack : d = 1022
  · rw [if_pos stack]
    exact Or.inr (Or.inr rfl)
  · rw [if_neg stack] at present ⊢
    by_cases kernel : d = 768
    · rw [if_pos kernel]
      exact Or.inr (Or.inl rfl)
    · rw [if_neg kernel] at present ⊢
      by_cases identity : d = 0
      · rw [if_pos identity]
        exact Or.inl rfl
      · rw [if_neg identity] at present
        exact absurd present (by decide)

/-- The entries that the boot code fills in are odd. -/
theorem boot_entry_ne (a : U32) : (a ||| pagePrivilege) + BitVec.ofNat 32 1 * 4096 ≠ 0 := by
  intro hzero
  have hodd := (and_one_ne_zero _).mp (present_or_flags a)
  have hnat := congrArg BitVec.toNat hzero
  have hspan : (BitVec.ofNat 32 1 * 4096 : U32).toNat = 4096 := rfl
  have hnull : (0 : U32).toNat = 0 := rfl
  rw [BitVec.toNat_add, hspan, hnull] at hnat
  change (a ||| pagePrivilege).toNat % 2 = 1 at hodd
  omega

variable (h : Ready stackPhysical m b first second)

include h

/-- None of the boot code's frames holds zeros. -/
theorem Ready.second_ne : second ≠ 0x7F ∧ second ≠ 0x80 ∧ second ≠ 0x81 ∧ second ≠ 0x82 := by
  have filled (f w : Nat) (pos : 0 < w) (hw : w < 1024)
      (nonzero : setupPaging stackPhysical m f w ≠ 0) : second ≠ f := by
    rintro rfl
    exact nonzero (h.zeroWords w pos hw)
  refine ⟨filled 0x7F 1023 (by omega) (by omega) ?_, filled 0x80 1 (by omega) (by omega) ?_,
    filled 0x81 1 (by omega) (by omega) ?_, filled 0x82 1 (by omega) (by omega) ?_⟩
  · rw [setupPaging_word stackPhysical m _ _ (by omega), if_pos rfl, if_pos rfl]
    decide
  · rw [setupPaging_word stackPhysical m _ _ (by omega)]
    exact boot_entry_ne 0x0
  · rw [setupPaging_word stackPhysical m _ _ (by omega)]
    exact boot_entry_ne 0x100000
  · rw [setupPaging_word stackPhysical m _ _ (by omega)]
    exact boot_entry_ne stackPhysical

theorem Ready.gets : (ballocGet b).1 = frameAddr first ∧
    (ballocGet (ballocGet b).2).1 = frameAddr second ∧
    (∀ c, (ballocGet (ballocGet b).2).2.Used c ↔ second = c ∨ first = c ∨ b.Used c) ∧
    (ballocGet (ballocGet b).2).2.freeBlocks = b.freeBlocks - 1 - 1 := by
  have hlt := h.lt
  obtain ⟨hfirst, used, count, capacity⟩ := ballocGet_least h.nonzero
    (Nat.lt_trans h.lt h.inside) h.firstFree
    fun d hd => h.least d (Nat.lt_trans hd h.lt) (Nat.ne_of_lt hd)
  have free : ¬ (ballocGet b).2.Used second := by
    rw [used]
    rintro (same | taken)
    · exact absurd same (Nat.ne_of_lt h.lt)
    · exact h.secondFree taken
  obtain ⟨hsecond, used', count', -⟩ := @ballocGet_least (ballocGet b).2 second (by omega)
    (capacity ▸ h.inside) free fun d hd => by
      rw [used]
      by_cases same : first = d
      · exact Or.inl same
      · exact Or.inr (h.least d hd (Ne.symm same))
  refine ⟨hfirst, hsecond, fun c => ?_, ?_⟩
  · rw [used', used]
  · rw [count', count]

omit h

/-- The state in which the temporary page is mapped. -/
def started (s : Machine) : Machine :=
  { s with
    balloc := (ballocGet s.balloc).2
    pdirVirtual := 0xfffff000
    pdirPhysical := pageDirectoryAddr }

theorem started_window : Window (started (bootMachine stackPhysical m b)) := by
  have hpde : (started (bootMachine stackPhysical m b)).pde 1023 =
      pageDirectoryAddr ||| pagePrivilege := boot_pde (b := b) 1023 (by omega)
  exact window_of_entry rfl rfl hpde

theorem started_absent : ¬ Present ((started (bootMachine stackPhysical m b)).pde 831) := by
  have hpde : (started (bootMachine stackPhysical m b)).pde 831 = 0 :=
    boot_pde (b := b) 831 (by omega)
  rw [hpde]
  decide

theorem started_free : ¬ Busy (started (bootMachine stackPhysical m b)) :=
  fun busy => started_absent busy.1

include h

theorem Ready.second_lt : second < 2 ^ 20 := lt_of_lt_of_le h.inside b.capacity_le

theorem Ready.apart : frameOf (ballocGet (started (bootMachine stackPhysical m b)).balloc).1 ≠
    frameOf (started (bootMachine stackPhysical m b)).cr3 := by
  change frameOf (ballocGet (ballocGet b).2).1 ≠ frameOf pageDirectoryAddr
  rw [h.gets.2.1, frameOf_frameAddr h.second_lt, frameOf_bootDirectory]
  exact h.second_ne.1

/-- The memory while the temporary page shows the first block. -/
theorem shown_mem (f : Nat) {w : Nat} (hw : w < 1024) :
    (showFrame (started (bootMachine stackPhysical m b)) (frameAddr first)).mem f w =
      if f = second then if w = 1023 then frameAddr first ||| 3 else 0
      else if f = 0x7F ∧ w = 831 then frameAddr second ||| 3
      else setupPaging stackPhysical m f w := by
  have hblock : (ballocGet (started (bootMachine stackPhysical m b)).balloc).1 =
      frameAddr second := h.gets.2.1
  have hframe : frameOf (frameAddr second) = second := frameOf_frameAddr h.second_lt
  have hdir : frameOf (started (bootMachine stackPhysical m b)).cr3 = 0x7F :=
    frameOf_bootDirectory
  have hset : (started (bootMachine stackPhysical m b)).withTable 831 =
      (started (bootMachine stackPhysical m b)).newTable 831 := if_neg started_absent
  rw [showFrame, hset, Machine.setPte, newTable_table h.apart, hblock, hframe, Machine.poke_mem,
    Machine.newTable, Machine.newEntry, hblock, hframe, hdir, Machine.poke_mem, Machine.poke_mem]
  simp only [put]
  change (if f = second ∧ w = 1023 then _ else if f = second ∧ w = 0 then
    setByte (setupPaging stackPhysical m second 0) 0 0 else if f = 0x7F ∧ w = 831 then _ else
      setupPaging stackPhysical m f w) = _
  rw [h.zeroByte]
  by_cases table : f = second
  · subst table
    by_cases last : w = 1023
    · rw [if_pos ⟨rfl, last⟩, if_pos rfl, if_pos last]
    · rw [if_neg (fun here => last here.2), if_pos rfl, if_neg last]
      by_cases start : w = 0
      · rw [if_pos ⟨rfl, start⟩]
      · rw [if_neg (fun here => start here.2), if_neg (fun here => h.second_ne.1 here.1)]
        exact h.zeroWords w (Nat.pos_of_ne_zero start) hw
  · rw [if_neg (fun here => table here.1), if_neg (fun here => table here.1), if_neg table]

omit h in
theorem shown_cr3 : (showFrame (started (bootMachine stackPhysical m b)) (frameAddr first)).cr3 =
    pageDirectoryAddr := withTable_cr3 _

/-- The state once the new directory holds the slots of the boot directory. -/
def filled (s : Machine) (first : Nat) : Machine :=
  copySlots (showFrame (started s) (frameAddr first)) first 0 1024

theorem filled_first {w : Nat} (hw : w < 1024) :
    (filled (bootMachine stackPhysical m b) first).mem first w =
      if w = 831 then frameAddr second ||| 3 else setupPaging stackPhysical m 0x7F w := by
  have hcopy : (filled (bootMachine stackPhysical m b) first).mem first w =
      (showFrame (started (bootMachine stackPhysical m b)) (frameAddr first)).mem (frameOf
        (showFrame (started (bootMachine stackPhysical m b)) (frameAddr first)).cr3) w :=
    copied_inside (Nat.zero_le w) (by omega)
  rw [hcopy, shown_cr3, frameOf_bootDirectory, shown_mem h _ hw, if_neg h.second_ne.1.symm]
  by_cases slot : w = 831
  · rw [if_pos ⟨rfl, slot⟩, if_pos slot]
  · rw [if_neg (fun here => slot here.2), if_neg slot]

omit h in
theorem filled_other {f : Nat} (hf : f ≠ first) (w : Nat) :
    (filled (bootMachine stackPhysical m b) first).mem f w =
      (showFrame (started (bootMachine stackPhysical m b)) (frameAddr first)).mem f w :=
  copied_outside fun here => hf here.1

omit h in
/-- The last word of a frame below 4 MB, under its physical address. -/
theorem alias_address (low : first < 1024) : pdeIndex (frameAddr first + 4 * 1023) = 0 ∧
    pteIndex (frameAddr first + 4 * 1023) = first ∧
    wordOf (frameAddr first + 4 * 1023) = 1023 := by
  have hspan : (4 * 1023 : U32).toNat = 4092 := rfl
  have haddr : (frameAddr first + 4 * 1023).toNat = first * 4096 + 4092 := by
    rw [BitVec.toNat_add, frameAddr, BitVec.toNat_ofNat, hspan, memoryBlockSize]
    omega
  simp only [pdeIndex, pteIndex, wordOf, haddr]
  omega

omit h in
/-- The identity table maps a frame below 4 MB to itself. -/
theorem identity_entry (low : first < 1024) :
    Present ((0x0 ||| pagePrivilege) + BitVec.ofNat 32 first * 4096) ∧
      frameOf ((0x0 ||| pagePrivilege) + BitVec.ofNat 32 first * 4096) = first := by
  have hflags : (0x0 ||| pagePrivilege : U32).toNat = 3 := rfl
  have hpage : (4096 : U32).toNat = 4096 := rfl
  have hentry : ((0x0 ||| pagePrivilege) + BitVec.ofNat 32 first * 4096 : U32).toNat =
      first * 4096 + 3 := by
    rw [BitVec.toNat_add, BitVec.toNat_mul, BitVec.toNat_ofNat, hflags, hpage]
    omega
  constructor
  · apply (and_one_ne_zero _).mpr
    rw [hentry]
    omega
  · rw [frameOf, hentry]
    omega

/-- The frame of the new directory under its physical address, which the boot code maps
to itself, as long as its table is not overwritten. -/
theorem filled_store (identity : first ≠ 0x80) (x : U32) :
    (filled (bootMachine stackPhysical m b) first).store (frameAddr first + 4 * 1023) x =
      some ((filled (bootMachine stackPhysical m b) first).poke first 1023 x) := by
  obtain ⟨hd, hp, hword⟩ := alias_address h.low
  obtain ⟨present, hframe⟩ := identity_entry h.low
  have hpde : (filled (bootMachine stackPhysical m b) first).pde 0 =
      pageTable0Addr ||| pagePrivilege := by
    have hdir : (filled (bootMachine stackPhysical m b) first).pde 0 =
        (showFrame (started (bootMachine stackPhysical m b)) (frameAddr first)).pde 0 :=
      copied_dir 0
    rw [hdir, showFrame_pde started_window h.apart started_free _ (by omega)]
    exact boot_pde (b := b) 0 (by omega)
  have hpte : (filled (bootMachine stackPhysical m b) first).mem 0x80 first =
      (0x0 ||| pagePrivilege) + BitVec.ofNat 32 first * 4096 := by
    rw [filled_other identity.symm, shown_mem h _ h.low, if_neg h.second_ne.2.1.symm,
      if_neg (fun here => absurd here.1 (by omega)), setupPaging_word stackPhysical m _ _ h.low]
    rfl
  have hwalk : walk (filled (bootMachine stackPhysical m b) first).mem
      (filled (bootMachine stackPhysical m b) first).cr3 (frameAddr first + 4 * 1023) =
        some ((0x0 ||| pagePrivilege) + BitVec.ofNat 32 first * 4096) := by
    rw [walk_eq_some, hd, hp]
    change Present ((filled (bootMachine stackPhysical m b) first).pde 0) ∧ _ ∧
      (filled (bootMachine stackPhysical m b) first).mem
        (frameOf ((filled (bootMachine stackPhysical m b) first).pde 0)) first = _
    rw [hpde]
    exact ⟨present_or_flags pageTable0Addr, present, hpte⟩
  rw [Machine.store, storeVirt, hwalk, hword, Option.map_some, Option.map_some, hframe]
  rfl

/-- The state once the new directory is the current one. -/
def switched (s : Machine) (first : Nat) : Machine :=
  { (filled s first).poke first 1023 (frameAddr first ||| 3) with
    cr3 := frameAddr first
    pdirVirtual := 0xfffff000
    pdirPhysical := frameAddr first }

theorem Ready.frame_first : frameOf (frameAddr first) = first := by
  have hlow := h.low
  exact frameOf_frameAddr (by omega)

theorem switched_pde {d : Nat} (hd : d < 1024) :
    (switched (bootMachine stackPhysical m b) first).pde d =
      if d = 1023 then frameAddr first ||| 3
      else if d = 831 then frameAddr second ||| 3 else setupPaging stackPhysical m 0x7F d := by
  have hmem : (switched (bootMachine stackPhysical m b) first).pde d =
      put (filled (bootMachine stackPhysical m b) first).mem first 1023 (frameAddr first ||| 3)
        (frameOf (frameAddr first)) d := rfl
  rw [hmem, h.frame_first]
  by_cases last : d = 1023
  · rw [last, put_same, if_pos rfl]
  · rw [put_word _ _ _ _ last, filled_first h hd, if_neg last]

omit h in
theorem switched_other {f : Nat} (hf : f ≠ first) (w : Nat) :
    (switched (bootMachine stackPhysical m b) first).mem f w =
      (showFrame (started (bootMachine stackPhysical m b)) (frameAddr first)).mem f w :=
  (put_frame _ _ _ _ hf).trans (filled_other hf w)

theorem switched_window : Window (switched (bootMachine stackPhysical m b) first) := by
  have hpde := switched_pde h (d := 1023) (by omega)
  rw [if_pos rfl] at hpde
  exact window_of_entry rfl rfl hpde

/-- The temporary page is now seen through the new directory. -/
theorem switched_temp :
    Present ((switched (bootMachine stackPhysical m b) first).pde 831) ∧
      (switched (bootMachine stackPhysical m b) first).table 831 = second ∧
      ∀ p, p < 1024 → (switched (bootMachine stackPhysical m b) first).pte 831 p =
        if p = 1023 then frameAddr first ||| 3 else 0 := by
  have hpde := switched_pde h (d := 831) (by omega)
  rw [if_neg (by omega), if_pos rfl] at hpde
  have htable : (switched (bootMachine stackPhysical m b) first).table 831 = second := by
    rw [Machine.table, hpde, frameOf_or_three, frameOf_frameAddr h.second_lt]
  refine ⟨?_, htable, fun p hp => ?_⟩
  · rw [hpde]
    exact present_or_flags _
  · rw [Machine.pte, htable, switched_other (Nat.ne_of_gt h.lt), shown_mem h _ hp, if_pos rfl]

theorem switched_apart : (switched (bootMachine stackPhysical m b) first).table 831 ≠
    frameOf (switched (bootMachine stackPhysical m b) first).cr3 := by
  change _ ≠ frameOf (frameAddr first)
  rw [(switched_temp h).2.1, h.frame_first]
  exact Nat.ne_of_gt h.lt

/-- The state after: the entry is gone, and with it the table. -/
def takenOver (s : Machine) (first : Nat) : Machine :=
  ((switched s first).setPte 831 1023 0x00).dropTable 831

theorem switched_unmap : ∃ phys, vmmngrUnmapPage (switched (bootMachine stackPhysical m b) first)
    i386TempPdirVirtual = some (phys, takenOver (bootMachine stackPhysical m b) first) := by
  obtain ⟨present, htable, hpte⟩ := switched_temp h
  have apart := switched_apart h
  have hunmap := unmap_eq (switched_window h) temp_below (fun _ => apart)
  change _ = if Present ((switched (bootMachine stackPhysical m b) first).pde 831) then
    some (_, ((switched (bootMachine stackPhysical m b) first).clearPte 831 1023).collect 831)
    else _ at hunmap
  have mapped : Present ((switched (bootMachine stackPhysical m b) first).pte 831 1023) := by
    rw [hpte 1023 (by omega), if_pos rfl]
    exact present_or_flags _
  have hclear : (switched (bootMachine stackPhysical m b) first).clearPte 831 1023 =
      (switched (bootMachine stackPhysical m b) first).setPte 831 1023 0x00 := if_pos mapped
  have empty : ((switched (bootMachine stackPhysical m b) first).setPte 831 1023 0x00).Empty
      831 := by
    intro p hp
    rw [Machine.setPte, Machine.poke_pte_other apart]
    by_cases last : p = 1023
    · rw [if_pos ⟨rfl, last.symm⟩]
      decide
    · rw [if_neg (fun here => last here.2.symm), hpte p hp, if_neg last]
      decide
  have hcollect : ((switched (bootMachine stackPhysical m b) first).setPte 831 1023 0x00).collect
      831 = takenOver (bootMachine stackPhysical m b) first := if_pos empty
  rw [if_pos present, hclear, hcollect] at hunmap
  exact ⟨_, hunmap⟩

/-- Up to the store through the identity mapping the call goes through. -/
theorem initialize_stores (own : KernelPages) :
    vmmngrInitialize own (bootMachine stackPhysical m b) =
      ((filled (bootMachine stackPhysical m b) first).store (frameAddr first + 4 * 1023)
        (frameAddr first ||| 3)).bind fun s =>
          (i386SetPdbr own (bootMachine stackPhysical m b) s (frameAddr first)).bind fun s =>
            (vmmngrUnmapPage { s with
                pdirPhysical := frameAddr first
                pdirVirtual := 0xfffff000 } i386TempPdirVirtual).bind fun r => some (0, r.2) := by
  have hself : (started (bootMachine stackPhysical m b)).load (0xfffff000 + 4 * 1023) =
      some (pageDirectoryAddr ||| pagePrivilege) := by
    have hslot : BitVec.toNat (1023 : U32) < 1024 := by decide
    exact (started_window.load_pde hslot).trans (congrArg some (boot_pde (b := b) 1023 (by omega)))
  have hmap := mapTemp_eq (s := started (bootMachine stackPhysical m b)) started_window h.apart
    (frameAddr first)
  rw [if_neg started_free] at hmap
  have shown := showFrame_shown (s := started (bootMachine stackPhysical m b)) started_window
    h.apart started_free (frameAddr first)
  rw [h.frame_first] at shown
  have aside : first ≠
      (showFrame (started (bootMachine stackPhysical m b)) (frameAddr first)).table 831 := by
    rw [Machine.table, Machine.pde, shown_cr3, frameOf_bootDirectory, shown_mem h _ (by omega),
      if_neg h.second_ne.1.symm, if_pos ⟨rfl, rfl⟩, frameOf_or_three, frameOf_frameAddr h.second_lt]
    exact Nat.ne_of_lt h.lt
  have hcopy := memcpy_slots shown aside (show 0 + 1024 ≤ 1024 by decide)
  rw [Nat.mul_zero, BitVec.add_zero, BitVec.add_zero] at hcopy
  have hone : ¬ (0 : Int) = -1 := by decide
  have hpdir : (showFrame (started (bootMachine stackPhysical m b)) (frameAddr first)).pdirVirtual =
      0xfffff000 := shown.window.pdirVirtual
  have hblock : (ballocGet (bootMachine stackPhysical m b).balloc).1 = frameAddr first := h.gets.1
  simp only [vmmngrInitialize, Option.bind_eq_bind, hblock]
  change ((started (bootMachine stackPhysical m b)).load (0xfffff000 + 4 * 1023)).bind _ = _
  rw [hself, Option.bind_some]
  change (vmmngrMapPage (started (bootMachine stackPhysical m b)) (frameAddr first)
    i386TempPdirVirtual).bind _ = _
  rw [hmap, Option.bind_some]
  simp only [if_neg hone, hpdir]
  rw [hcopy, Option.bind_some]
  rfl

/-- The call returns 0 where the pages of the kernel still stand under the new directory. -/
theorem initialize_eq (own : KernelPages) (identity : first ≠ 0x80) :
    vmmngrInitialize own (bootMachine stackPhysical m b) =
      if Stands own (bootMachine stackPhysical m b) (switched (bootMachine stackPhysical m b) first)
      then some (0, takenOver (bootMachine stackPhysical m b) first)
      else none := by
  obtain ⟨phys, hunmap⟩ := switched_unmap h
  rw [initialize_stores h, filled_store h identity, Option.bind_some]
  by_cases stands : Stands own (bootMachine stackPhysical m b)
      (switched (bootMachine stackPhysical m b) first)
  · have set : i386SetPdbr own (bootMachine stackPhysical m b)
        ((filled (bootMachine stackPhysical m b) first).poke first 1023 (frameAddr first ||| 3))
        (frameAddr first) = some _ := if_pos stands
    rw [set, if_pos stands, Option.bind_some]
    change (vmmngrUnmapPage (switched (bootMachine stackPhysical m b) first) _).bind _ = _
    rw [hunmap]
    rfl
  · have set : i386SetPdbr own (bootMachine stackPhysical m b)
        ((filled (bootMachine stackPhysical m b) first).poke first 1023 (frameAddr first ||| 3))
        (frameAddr first) = none := if_neg stands
    rw [set, if_neg stands, Option.bind_none]

/-! ## What is kept -/

theorem takenOver_pde {d : Nat} (hd : d < 1024) :
    (takenOver (bootMachine stackPhysical m b) first).pde d =
      if d = 1023 then frameAddr first ||| 3 else (bootMachine stackPhysical m b).pde d := by
  rw [takenOver, dropTable_pde, Machine.setPte, Machine.poke_pde_other (switched_apart h),
    switched_pde h hd]
  by_cases slot : d = 831
  · subst slot
    rw [if_pos rfl, if_neg (by omega), boot_pde 831 (by omega)]
    rfl
  · rw [if_neg (Ne.symm slot), if_neg slot, boot_directory]

/-- The other frames hold what they held, except for the boot directory's slot 831. -/
theorem takenOver_mem {f w : Nat} (hw : w < 1024) (hfirst : f ≠ first) (hsecond : f ≠ second)
    (hdir : f ≠ 0x7F) : (takenOver (bootMachine stackPhysical m b) first).mem f w =
      setupPaging stackPhysical m f w := by
  have hmem : (takenOver (bootMachine stackPhysical m b) first).mem f w =
      put (put (switched (bootMachine stackPhysical m b) first).mem
        ((switched (bootMachine stackPhysical m b) first).table 831) 1023 0x00)
        (frameOf (frameAddr first)) 831 0x00 f w := rfl
  rw [hmem, h.frame_first, put_frame _ _ _ _ hfirst, (switched_temp h).2.1,
    put_frame _ _ _ _ hsecond, switched_other hfirst, shown_mem h _ hw, if_neg hsecond,
    if_neg (fun here => hdir here.1)]

/-- The table goes back to the allocator. -/
theorem takenOver_free : (takenOver (bootMachine stackPhysical m b) first).balloc =
    ballocFree (ballocGet (ballocGet b).2).2 ((frameAddr second ||| 3) &&& 0xFFFFF000) := by
  have hset : (started (bootMachine stackPhysical m b)).withTable 831 =
      (started (bootMachine stackPhysical m b)).newTable 831 := if_neg started_absent
  have hballoc : (switched (bootMachine stackPhysical m b) first).balloc =
      (ballocGet (ballocGet b).2).2 := by
    change ((started (bootMachine stackPhysical m b)).withTable 831).balloc = _
    rw [hset]
    rfl
  have hpde : ((switched (bootMachine stackPhysical m b) first).setPte 831 1023 0x00).pde 831 =
      frameAddr second ||| 3 := by
    rw [Machine.setPte, Machine.poke_pde_other (switched_apart h), switched_pde h (by omega),
      if_neg (by omega), if_pos rfl]
  rw [← hballoc, ← hpde]
  rfl

theorem takenOver_balloc :
    (∀ c, (takenOver (bootMachine stackPhysical m b) first).balloc.Used c ↔
      c = first ∨ b.Used c) ∧
    (takenOver (bootMachine stackPhysical m b) first).balloc.freeBlocks = b.freeBlocks - 1 := by
  obtain ⟨-, -, used, count⟩ := h.gets
  have hblock : blockOf ((frameAddr second ||| 3) &&& 0xFFFFF000) = second := by
    rw [blockOf_masked, frameOf_or_three, frameOf_frameAddr h.second_lt]
  have nonnull : (frameAddr second ||| 3) &&& 0xFFFFF000 ≠ 0 := by
    intro hzero
    rw [hzero] at hblock
    exact absurd hblock (Nat.ne_of_lt (Nat.lt_of_le_of_lt (Nat.zero_le _) h.lt))
  rw [takenOver_free h]
  constructor
  · intro c
    rw [ballocFree_used nonnull, hblock, used]
    constructor
    · rintro ⟨hne, same | same | taken⟩
      · exact absurd same.symm hne
      · exact Or.inl same.symm
      · exact Or.inr taken
    · rintro (rfl | taken)
      · exact ⟨Nat.ne_of_lt h.lt, Or.inr (Or.inl rfl)⟩
      · refine ⟨?_, Or.inr (Or.inr taken)⟩
        rintro rfl
        exact h.secondFree taken
  · rw [ballocFree_count nonnull, count, BitVec.sub_add_cancel]

omit h

/-- The new directory is in use, maps itself and translates what the old one did; the
temporary page is unmapped, and one block was taken. -/
structure TakenOver (s t : Machine) (frame : Nat) : Prop where
  pdbr : t.cr3 = frameAddr frame
  window : Window t
  same : ∀ va, Below va → translateVirt t.mem t.cr3 va = translateVirt s.mem s.cr3 va
  unmapped : translateVirt t.mem t.cr3 i386TempPdirVirtual = none
  used : ∀ c, t.balloc.Used c ↔ c = frame ∨ s.balloc.Used c
  count : t.balloc.freeBlocks = s.balloc.freeBlocks - 1

/-- A page without a table. -/
theorem translateVirt_none {s : Machine} {va : U32} (absent : ¬ Present (s.pde (pdeIndex va))) :
    translateVirt s.mem s.cr3 va = none := by
  have hwalk : walk s.mem s.cr3 va = none := if_neg absent
  rw [translateVirt, hwalk, Option.map_none]

include h

theorem takenOver_window : Window (takenOver (bootMachine stackPhysical m b) first) := by
  have hpde := takenOver_pde h (d := 1023) (by omega)
  rw [if_pos rfl] at hpde
  exact window_of_entry rfl rfl hpde

/-- From here on address spaces can be created. -/
theorem takenOver_current : Current (takenOver (bootMachine stackPhysical m b) first) ∧
    ¬ Busy (takenOver (bootMachine stackPhysical m b) first) := by
  have hframe : frameOf (takenOver (bootMachine stackPhysical m b) first).cr3 = first :=
    h.frame_first
  have bounds : SameBounds b (takenOver (bootMachine stackPhysical m b) first).balloc := by
    rw [takenOver_free h]
    exact (ballocGet_bounds b).trans ((ballocGet_bounds _).trans (ballocFree_bounds _ _))
  have absent := takenOver_pde h (d := 831) (by omega)
  rw [if_neg (by omega), boot_pde 831 (by omega)] at absent
  constructor
  · refine ⟨takenOver_window h, ?_, ?_⟩
    · rw [hframe, MarkedUsed, bounds.capacity]
      exact ⟨Nat.lt_trans h.lt h.inside, ((takenOver_balloc h).1 first).mpr (Or.inl rfl)⟩
    · rw [hframe]
      exact h.nonzero
  · intro busy
    have present := busy.1
    rw [absent] at present
    exact absurd present (by decide)

/-- Walks below the window agree as long as no table of the boot code was overwritten. -/
theorem takenOver_walk (tables : first ≠ 0x80 ∧ first ≠ 0x81 ∧ first ≠ 0x82) {va : U32}
    (below : Below va) : walk (takenOver (bootMachine stackPhysical m b) first).mem
        (takenOver (bootMachine stackPhysical m b) first).cr3 va =
      walk (bootMachine stackPhysical m b).mem (bootMachine stackPhysical m b).cr3 va := by
  have hd := below.pdeIndex_lt
  have hpde := takenOver_pde h (d := pdeIndex va) (by omega)
  rw [if_neg (Nat.ne_of_lt hd)] at hpde
  refine walk_agrees hpde fun present => takenOver_mem h (pteIndex_lt va) ?_ ?_ ?_
  all_goals
    have hne := h.second_ne
    rcases boot_table hd present with htable | htable | htable
  all_goals
    change (bootMachine stackPhysical m b).table (pdeIndex va) ≠ _
    rw [htable]
    omega

end Boot

/-! ## Where the call comes back -/

section KernelPages

variable {k : KernelLayout} {stackPhysical : U32} {m : PhysMem} {b : Balloc} {first second : Nat}

/-- Once the identity table is overwritten by the directory, it does not map its own frame. -/
theorem initialize_faults (h : Ready stackPhysical m b 0x80 second) (own : KernelPages) :
    vmmngrInitialize own (bootMachine stackPhysical m b) = none := by
  have hdir : (filled (bootMachine stackPhysical m b) 0x80).pde 0 =
      pageTable0Addr ||| pagePrivilege := by
    have same : (filled (bootMachine stackPhysical m b) 0x80).pde 0 =
        (showFrame (started (bootMachine stackPhysical m b)) (frameAddr 0x80)).pde 0 :=
      copied_dir 0
    rw [same, showFrame_pde started_window h.apart started_free _ (by omega)]
    exact boot_pde (b := b) 0 (by omega)
  have hpte : (filled (bootMachine stackPhysical m b) 0x80).mem 0x80
      (pteIndex (frameAddr 0x80 + 4 * 1023)) = 0 := by
    change (filled (bootMachine stackPhysical m b) 0x80).mem 0x80 0x80 = 0
    rw [filled_first h (by omega), if_neg (by omega), setupPaging_word _ _ _ _ (by omega)]
    rfl
  have hwalk := @walk_present _ (filled (bootMachine stackPhysical m b) 0x80).cr3
    (frameAddr 0x80 + 4 * 1023) _ 0x80 hdir (by decide) rfl
  rw [hpte, if_neg (by decide)] at hwalk
  rw [initialize_stores h, Machine.store, storeVirt, hwalk]
  rfl

/-- Slot 768 under the new directory, which has taken the place of the kernel's table. -/
theorem overwritten_kernel (h : Ready stackPhysical m b 0x81 second) {p : Nat} (hp : p < 1024) :
    (switched (bootMachine stackPhysical m b) 0x81).mem 0x81 p =
      if p = 1023 then frameAddr 0x81 ||| 3
      else if p = 831 then frameAddr second ||| 3
      else if p = 1022 then pageTableStackAddr ||| pagePrivilege
      else if p = 768 then pageTable768Addr ||| pagePrivilege
      else if p = 0 then pageTable0Addr ||| pagePrivilege
      else 0 := by
  have entry := switched_pde h hp
  rw [Machine.pde] at entry
  have dir : frameOf (switched (bootMachine stackPhysical m b) 0x81).cr3 = 0x81 := h.frame_first
  rw [dir] at entry
  rw [entry]
  by_cases last : p = 1023
  · rw [if_pos last, if_pos last]
  · rw [if_neg last, if_neg last, setupPaging_word _ _ _ _ hp, if_pos rfl, if_neg last]

/-- The slots of the boot directory, but for the temporary page and the window. -/
theorem switched_boot (h : Ready stackPhysical m b first second) {d : Nat} (hd : d < 1023)
    (temp : d ≠ 831) : (switched (bootMachine stackPhysical m b) first).pde d =
      (bootMachine stackPhysical m b).pde d := by
  rw [switched_pde h (by omega), if_neg (by omega), if_neg temp, boot_directory]

theorem pde_kernel : (bootMachine stackPhysical m b).pde 768 =
    pageTable768Addr ||| pagePrivilege := boot_pde (b := b) 768 (by omega)

theorem pde_stack : (bootMachine stackPhysical m b).pde 1022 =
    pageTableStackAddr ||| pagePrivilege := boot_pde (b := b) 1022 (by omega)

theorem boot_frameAt (va : U32) : frameAt (bootMachine stackPhysical m b) va =
    bootFrame stackPhysical (pdeIndex va) (pteIndex va) := walk_boot m va

/-- A page that is found in the table at `f`, at its frame. -/
theorem frameAt_table {s : Machine} {va pde : U32} {f g : Nat} (entry : s.pde (pdeIndex va) = pde)
    (present : Present pde) (table : frameOf pde = f) (here : frameAt s va = some g) :
    Present (s.mem f (pteIndex va)) ∧ frameOf (s.mem f (pteIndex va)) = g := by
  rw [frameAt, walk_present entry present table] at here
  obtain ⟨pte, found, frame⟩ := Option.map_eq_some_iff.mp here
  obtain ⟨mapped, value⟩ := Option.ite_none_right_eq_some.mp found
  cases value
  exact ⟨mapped, frame⟩

/-- A page of the image is where it was only if its frame has become the new table, and then its
last word is not what it was. -/
theorem kernel_moved (h : Ready stackPhysical m b 0x81 second) (own : KernelPages) :
    ¬ Stands own (bootMachine stackPhysical m b)
      (switched (bootMachine stackPhysical m b) 0x81) := by
  intro stands
  obtain ⟨va, hva, slot⟩ := own.code
  obtain ⟨same, kept⟩ := stands va hva
  have hp := pteIndex_lt va
  have before : frameAt (bootMachine stackPhysical m b) va = some (0x100 + pteIndex va) := by
    rw [boot_frameAt, slot]
    rfl
  rw [before] at same kept
  have hpde : (switched (bootMachine stackPhysical m b) 0x81).pde (pdeIndex va) =
      pageTable768Addr ||| pagePrivilege := by
    rw [slot, switched_boot h (by omega) (by omega), pde_kernel]
  obtain ⟨present, frame⟩ := frameAt_table hpde (by decide) (show _ = 0x81 from rfl) same
  rw [overwritten_kernel h hp] at present frame
  by_cases last : pteIndex va = 1023
  · rw [if_pos last, frameOf_or_three, h.frame_first] at frame
    omega
  rw [if_neg last] at present frame
  by_cases temp : pteIndex va = 831
  · rw [if_pos temp, frameOf_or_three, frameOf_frameAddr h.second_lt] at frame
    obtain ⟨_, table, entries⟩ := switched_temp h
    have word := entries 1023 (by omega)
    rw [Machine.pte, table, if_pos rfl, frame, kept _ rfl 1023 (by omega), ← frame] at word
    exact absurd ((h.zeroWords 1023 (by omega) (by omega)).symm.trans word) (by decide)
  rw [if_neg temp] at present frame
  by_cases stack : pteIndex va = 1022
  · rw [if_pos stack] at frame
    exact absurd (show 0x82 = _ from frame) (by omega)
  rw [if_neg stack] at present frame
  by_cases kernel : pteIndex va = 768
  · rw [if_pos kernel] at frame
    exact absurd (show 0x81 = _ from frame) (by omega)
  rw [if_neg kernel] at present frame
  by_cases identity : pteIndex va = 0
  · rw [if_pos identity] at frame
    exact absurd (show 0x80 = _ from frame) (by omega)
  rw [if_neg identity] at present
  exact absurd present (by decide)

/-- The stack page leads far above the tables. -/
theorem stack_frameAt (k : KernelLayout) (m : PhysMem) (b : Balloc) :
    ∃ f, 0x4ff ≤ f ∧ frameAt (bootMachine k.stackPhysical m b) kernelStackPage = some f := by
  have place := k.stackPhysical_toNat
  have start := k.kernelStart_le
  have bound := k.sysstack.isLt
  refine ⟨(frameOf k.stackPhysical + 1023) % 2 ^ 20, ?_, boot_frameAt kernelStackPage⟩
  rw [frameOf, place]
  omega

/-- The stack is in the new directory if that has taken the place of its table. -/
theorem stack_moved (h : Ready k.stackPhysical m b 0x82 second) (own : KernelPages) :
    ¬ Stands own (bootMachine k.stackPhysical m b)
      (switched (bootMachine k.stackPhysical m b) 0x82) := by
  intro stands
  obtain ⟨f, high, before⟩ := stack_frameAt k m b
  have same := (stands _ own.stack).1
  rw [before] at same
  have hpde : (switched (bootMachine k.stackPhysical m b) 0x82).pde (pdeIndex kernelStackPage) =
      pageTableStackAddr ||| pagePrivilege := by
    have slot : pdeIndex kernelStackPage = 1022 := rfl
    rw [slot, switched_boot h (by omega) (by omega), pde_stack]
  obtain ⟨_, frame⟩ := frameAt_table hpde (by decide) (show _ = 0x82 from rfl) same
  have page : pteIndex kernelStackPage = 1023 := rfl
  have self := switched_pde h (d := 1023) (by omega)
  have dir : frameOf (switched (bootMachine k.stackPhysical m b) 0x82).cr3 = 0x82 := h.frame_first
  rw [Machine.pde, dir, if_pos rfl] at self
  rw [page, self, frameOf_or_three, h.frame_first] at frame
  omega

/-- Frame `f` holds one of the kernel's pages. -/
def KernelPages.Holds (own : KernelPages) (stackPhysical : U32) (f : Nat) : Prop :=
  ∃ va ∈ own.pages, bootFrame stackPhysical (pdeIndex va) (pteIndex va) = some f

instance (own : KernelPages) (stackPhysical : U32) (f : Nat) :
    Decidable (own.Holds stackPhysical f) :=
  List.decidableBEx (fun va => bootFrame stackPhysical (pdeIndex va) (pteIndex va) = some f)
    own.pages

/-- Nothing is moved or overwritten when the new blocks are neither tables nor pages of the
kernel. -/
theorem stands_apart (h : Ready k.stackPhysical m b first second)
    (tables : first ≠ 0x81 ∧ first ≠ 0x82) (own : KernelPages)
    (directory : ¬ own.Holds k.stackPhysical first) (table : ¬ own.Holds k.stackPhysical second) :
    Stands own (bootMachine k.stackPhysical m b)
      (switched (bootMachine k.stackPhysical m b) first) := by
  obtain ⟨_, _, apartKernel, apartStack⟩ := h.second_ne
  have other {f w : Nat} (hf : f ≠ first) (hs : f ≠ second) (hd : f ≠ 0x7f) (hw : w < 1024) :
      (switched (bootMachine k.stackPhysical m b) first).mem f w =
        (bootMachine k.stackPhysical m b).mem f w := by
    rw [switched_other hf, shown_mem h _ hw, if_neg hs, if_neg (fun here => hd here.1)]
    rfl
  intro va hva
  have slot : ∃ d pde f, pdeIndex va = d ∧ d < 1023 ∧ d ≠ 831 ∧
      (bootMachine k.stackPhysical m b).pde d = pde ∧ frameOf pde = f ∧ f ≠ first ∧ f ≠ second ∧
        f ≠ 0x7f ∧ ∀ g ∈ frameAt (bootMachine k.stackPhysical m b) va, 0x100 ≤ g := by
    rcases own.mapped va hva with kernel | rfl
    · refine ⟨768, _, 0x81, kernel, by omega, by omega, pde_kernel, rfl, tables.1.symm,
        apartKernel.symm, by omega, fun g hg => ?_⟩
      rw [boot_frameAt, kernel] at hg
      have value : 0x100 + pteIndex va = g := Option.some.inj hg
      omega
    · obtain ⟨f, high, before⟩ := stack_frameAt k m b
      refine ⟨1022, _, 0x82, rfl, by omega, by omega, pde_stack, rfl, tables.2.symm,
        apartStack.symm, by omega, fun g hg => ?_⟩
      obtain rfl := Option.some.inj (before.symm.trans hg)
      omega
  obtain ⟨d, pde, f, rfl, hd, temp, entry, frame, hfirst, hsecond, hdir, high⟩ := slot
  have hpde := switched_boot h hd temp
  constructor
  · refine congrArg (Option.map frameOf) (walk_agrees hpde fun _ => ?_)
    change (switched (bootMachine k.stackPhysical m b) first).mem
      (frameOf ((bootMachine k.stackPhysical m b).pde (pdeIndex va))) _ =
        (bootMachine k.stackPhysical m b).mem
          (frameOf ((bootMachine k.stackPhysical m b).pde (pdeIndex va))) _
    rw [entry, frame]
    exact other hfirst hsecond hdir (pteIndex_lt va)
  · intro g hg w hw
    have above := high g hg
    rw [boot_frameAt] at hg
    refine other ?_ ?_ (by omega) hw
    · rintro rfl
      exact directory ⟨va, hva, hg⟩
    · rintro rfl
      exact table ⟨va, hva, hg⟩

/-- With the tables of the boot code in place, the boot mapping is taken over. -/
theorem takenOver_keeps (h : Ready stackPhysical m b first second)
    (tables : first ≠ 0x80 ∧ first ≠ 0x81 ∧ first ≠ 0x82) :
    TakenOver (bootMachine stackPhysical m b) (takenOver (bootMachine stackPhysical m b) first)
      first := by
  have hwalk {va : U32} (below : Below va) := takenOver_walk h tables below
  obtain ⟨used, count⟩ := takenOver_balloc h
  refine ⟨rfl, takenOver_window h, ?_, ?_, used, count⟩
  · intro va below
    rw [translateVirt, translateVirt, hwalk below]
  · rw [translateVirt, hwalk temp_below]
    have absent : ¬ Present ((bootMachine stackPhysical m b).pde 831) :=
      started_absent (b := b)
    exact @translateVirt_none (bootMachine stackPhysical m b) i386TempPdirVirtual absent

end KernelPages

/-- Whenever 0 is returned, the boot mapping has been taken over, and 0 is returned as long as the
blocks are neither the boot code's tables nor pages that the kernel runs on. -/
theorem boot_mapping_kept (k : KernelLayout) (own : KernelPages) {m : PhysMem} {b : Balloc}
    {first second : Nat} (h : Ready k.stackPhysical m b first second) :
    (∀ t, vmmngrInitialize own (bootMachine k.stackPhysical m b) = some (0, t) →
      TakenOver (bootMachine k.stackPhysical m b) t first) ∧
    (first ≠ 0x80 → first ≠ 0x81 → first ≠ 0x82 → ¬ own.Holds k.stackPhysical first →
      ¬ own.Holds k.stackPhysical second →
      ∃ t, vmmngrInitialize own (bootMachine k.stackPhysical m b) = some (0, t)) := by
  constructor
  · intro t returns
    have identity : first ≠ 0x80 := by
      rintro rfl
      rw [initialize_faults h own] at returns
      cases returns
    rw [initialize_eq h own identity] at returns
    obtain ⟨stands, result⟩ := Option.ite_none_right_eq_some.mp returns
    cases result
    refine takenOver_keeps h ⟨identity, ?_, ?_⟩
    · rintro rfl
      exact kernel_moved h own stands
    · rintro rfl
      exact stack_moved h own stands
  · intro identity kernel stack directory table
    rw [initialize_eq h own identity,
      if_pos (stands_apart h ⟨kernel, stack⟩ own directory table)]
    exact ⟨_, rfl⟩

def imagePages : List U32 :=
  (List.range 16).map fun page => kernelStart + BitVec.ofNat 32 (page * 4096)

theorem imagePages_mapped : ∀ va ∈ kernelStackPage :: 0xC0040000 :: imagePages,
    pdeIndex va = 768 ∨ va = kernelStackPage := by
  intro va hva
  rcases List.mem_cons.mp hva with rfl | hva
  · exact Or.inr rfl
  refine Or.inl ?_
  rcases List.mem_cons.mp hva with rfl | hva
  · rfl
  · obtain ⟨page, hpage, rfl⟩ := List.mem_map.mp hva
    have below := List.mem_range.mp hpage
    have start : kernelStart.toNat = 0xC0000000 := rfl
    rw [pdeIndex, BitVec.toNat_add, BitVec.toNat_ofNat, start]
    omega

/-- The stack, the bitmap and the image of `smallKernel`. -/
def smallPages : KernelPages where
  pages := kernelStackPage :: 0xC0040000 :: imagePages
  code := ⟨0xC0040000, List.mem_cons_of_mem _ List.mem_cons_self, rfl⟩
  stack := List.mem_cons_self
  mapped := imagePages_mapped

/-- Of 512 blocks the two behind the image are free. -/
def twoFree : Balloc where
  mBmpAddr := 0xC0040000
  mBmp := fun i => if i = 8 then 0xFFFCFFFF else 0xFFFFFFFF
  memSz := 0x200000
  bmpSz := 16
  totalBlocks := 512
  freeBlocks := 2
  touched := []
  bmpSz_le := by decide

theorem twoFree_ready :
    Ready smallKernel.stackPhysical (fun _ _ => 0) twoFree 0x110 0x111 := by
  have hword (w : Nat) (hw : w < 1024) :
      setupPaging smallKernel.stackPhysical (fun _ _ => 0) 0x111 w = 0 := by
    rw [setupPaging_word _ _ _ _ hw]
    rfl
  refine ⟨by decide, by decide, by decide, by decide, by decide, by decide, by decide +kernel, ?_,
    ?_⟩
  · rw [hword 0 (by omega)]
    decide
  · exact fun w _ hw => hword w hw

/-- The new directory is the first block behind the image. -/
theorem block_272_takes_over : ∃ t,
    vmmngrInitialize smallPages (bootMachine smallKernel.stackPhysical (fun _ _ => 0) twoFree) =
        some (0, t) ∧
      TakenOver (bootMachine smallKernel.stackPhysical (fun _ _ => 0) twoFree) t 0x110 := by
  obtain ⟨keeps, returns⟩ := boot_mapping_kept smallKernel smallPages twoFree_ready
  obtain ⟨t, zero⟩ := returns (by decide) (by decide) (by decide) (by decide +kernel)
    (by decide +kernel)
  exact ⟨t, zero, keeps t zero⟩

end PagingTakeover
