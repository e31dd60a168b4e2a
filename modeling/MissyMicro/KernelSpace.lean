import MissyMicro.PageMapping

/-!
# The kernel heap break

The heap grows by whole pages from `KHEAP_PAGE_START`. `kernel_break` and
`kheap_last_page` are separate cursors: an extension that fails half way has
moved only the second one. New tables hold whatever their frames held.
-/

namespace KernelSpace

open BlockAllocator Words Mmu PageTables PageMapping TransitionRuns
open BlockAllocator.Balloc

def kheapPageStart : U32 := 0xd0000000
def kheapPageMax : U32 := 0xeffff000
def kernelPageSize : U32 := 4096
def enomem : U32 := 0x00000004

structure Kspace where
  machine : Machine
  kernelBreak : U32
  kheapLastPage : U32
  kheapBase : U32
  errno : U32

/-- The state after `balloc_get`. -/
def takeBlock (m : Machine) : Machine := { m with balloc := (ballocGet m.balloc).2 }

def giveBlock (m : Machine) (blk : U32) : Machine := { m with balloc := ballocFree m.balloc blk }

/-- A panic halts the system with its message. -/
def kspaceInitialize (s : Kspace) : Option (Except String Kspace) :=
  let kheapBase := (ballocGet s.machine.balloc).1
  let s := { s with machine := takeBlock s.machine, kheapBase := kheapBase }
  if kheapBase = 0 then some (.error "Failed to allocate space for kernel heap")
  else
    (vmmngrMapPage s.machine kheapBase kheapPageStart).map fun mapped =>
      .ok { s with machine := mapped.2, kernelBreak := kheapPageStart,
                   kheapLastPage := kheapPageStart }

/-- The loop of `kspace_brk`, with its number of turns left. -/
def growHeap : Nat → Kspace → Option (Int × Kspace)
  | 0, s => some (0, s)
  | n + 1, s =>
    let kheapBlock := (ballocGet s.machine.balloc).1
    let s := { s with machine := takeBlock s.machine }
    if kheapBlock = 0 then some (-1, { s with errno := enomem })
    else
      let s := { s with kheapLastPage := s.kheapLastPage + kernelPageSize }
      match vmmngrMapPage s.machine kheapBlock s.kheapLastPage with
      | none => none
      | some (result, machine) =>
        if result = -1 then
          some (-1, { s with machine := giveBlock machine kheapBlock, errno := enomem })
        else growHeap n { s with machine := machine }

def kspaceBrk (s : Kspace) (addr : U32) : Option (Int × Kspace) :=
  let bp := addr
  if bp > kheapPageMax then some (-1, { s with errno := enomem })
  else if bp &&& ~~~0xfff = s.kheapLastPage then some (0, { s with kernelBreak := bp })
  else if bp &&& ~~~0xfff > s.kheapLastPage then
    let nblocks := ((bp &&& ~~~0xfff) - s.kheapLastPage) >>> 12
    (growHeap nblocks.toNat s).map fun (result, s) =>
      if result = -1 then (-1, s) else (0, { s with kernelBreak := bp })
  else some (0, s)

def kspaceSbrk (s : Kspace) (increment : U32) : Option (U32 × Kspace) :=
  let oldBrk := s.kernelBreak
  (kspaceBrk s (s.kernelBreak + increment)).map fun (result, s) =>
    if result ≠ 0 then (0xffffffff, { s with errno := enomem }) else (oldBrk, s)

/-! ## Address spaces in which the heap grows -/

/-- No table lies in frame 0. -/
def Roomy (m : Machine) : Prop := ∀ t, t < 1023 → Present (m.pde t) → m.table t ≠ 0

def Full (b : Balloc) : Prop := ∀ c, c < b.capacity → b.Used c

/-- Frame 0 becomes a table at most once: when the last block is gone. -/
structure Paged (m : Machine) : Prop where
  owned : Owned m
  zero : m.balloc.MarkedUsed 0
  dir : frameOf m.cr3 ≠ 0
  room : Roomy m ∨ Full m.balloc

/-- No mapped page gets lost. -/
def Keeps (m m' : Machine) : Prop :=
  ∀ t p, t < 1023 → entry m t p ≠ none → entry m' t p ≠ none

theorem ballocGet_null {b : Balloc} (h : (ballocGet b).1 = 0) (zero : b.Used 0) :
    Full b ∧ (ballocGet b).2 = b := by
  rcases ballocGet_cases b with ⟨hnone, heq⟩ | ⟨c, b', h0, hlt, _, _, heq, _⟩
  · rw [heq]
    exact ⟨fun c hc => blockAllocFirstFree_full hnone zero hc, rfl⟩
  · rw [heq] at h
    exact absurd h (block_ne_zero (lt_of_lt_of_le hlt b.capacity_le) h0)

/-- While a block is left, frame 0 is not a table. -/
theorem Paged.roomy {m : Machine} (h : Paged m) (nonnull : (ballocGet m.balloc).1 ≠ 0) :
    Roomy m := by
  obtain ⟨_, hlt, unused, _⟩ := ballocGet_fresh nonnull
  rcases h.room with roomy | full
  · exact roomy
  · exact absurd (full _ hlt) unused

theorem Paged.take {m : Machine} (h : Paged m) (nonnull : (ballocGet m.balloc).1 ≠ 0) :
    Paged (takeBlock m) where
  owned :=
    { window := ⟨h.owned.window.pdbr, h.owned.window.pdirVirtual, h.owned.window.present,
        h.owned.window.recursive⟩
      dirUsed := ballocGet_keeps h.owned.dirUsed
      used := fun t ht present => ballocGet_keeps (h.owned.used t ht present)
      apart := h.owned.apart
      distinct := h.owned.distinct }
  zero := ballocGet_keeps h.zero
  dir := h.dir
  room := Or.inl (h.roomy nonnull)

/-- Giving back a block that is no frame of the tables. -/
theorem Paged.give {m : Machine} (h : Paged m) (roomy : Roomy m) {blk : U32} (h0 : blk ≠ 0)
    (hzero : frameOf blk ≠ 0) (hdir : frameOf blk ≠ frameOf m.cr3)
    (htables : ∀ t, t < 1023 → Present (m.pde t) → m.table t ≠ frameOf blk) :
    Paged (giveBlock m blk) := by
  have keeps {c : Nat} (hc : m.balloc.MarkedUsed c) (hne : c ≠ frameOf blk) :
      (ballocFree m.balloc blk).MarkedUsed c := by
    rw [MarkedUsed, (ballocFree_bounds m.balloc blk).capacity]
    exact ⟨hc.1, (ballocFree_used h0 c).mpr ⟨hne, hc.2⟩⟩
  exact
    { owned :=
        { window := ⟨h.owned.window.pdbr, h.owned.window.pdirVirtual, h.owned.window.present,
            h.owned.window.recursive⟩
          dirUsed := keeps h.owned.dirUsed hdir.symm
          used := fun t ht present => keeps (h.owned.used t ht present) (htables t ht present)
          apart := h.owned.apart
          distinct := h.owned.distinct }
      zero := keeps h.zero hzero.symm
      dir := h.dir
      room := Or.inl roomy }

/-- The next table goes to a fresh block, or to frame 0 when no block is left. -/
theorem Paged.spare {m : Machine} (h : Paged m) (roomy : Roomy m) : Spare m := by
  by_cases nonnull : (ballocGet m.balloc).1 = 0
  · have hframe : frameOf (ballocGet m.balloc).1 = 0 := by
      rw [nonnull]
      rfl
    refine ⟨?_, ?_, ?_⟩
    · rw [hframe]
      exact h.dir.symm
    · intro t ht present
      rw [hframe]
      exact roomy t ht present
    · rw [hframe]
      exact ballocGet_keeps h.zero
  · exact h.owned.spare nonnull

theorem withTable_paged {m : Machine} (h : Paged m) (roomy : Roomy m) {t : Nat} (ht : t < 1023) :
    Paged (m.withTable t) := by
  have spare := h.spare roomy
  have owned' := withTable_owned h.owned ht (fun _ => spare)
  by_cases present : Present (m.pde t)
  · have hsame : m.withTable t = m := if_pos present
    rwa [hsame]
  · have hnew : m.withTable t = m.newTable t := if_neg present
    rw [hnew] at owned' ⊢
    refine ⟨owned', ballocGet_keeps h.zero, h.dir, ?_⟩
    by_cases nonnull : (ballocGet m.balloc).1 = 0
    · obtain ⟨full, hsame⟩ := ballocGet_null nonnull h.zero.2
      rw [newTable_balloc, hsame]
      exact Or.inr full
    · refine Or.inl (fun t' ht' present' => ?_)
      by_cases heq : t = t'
      · subst t'
        rw [newTable_table spare.dir]
        exact (ballocGet_fresh nonnull).1
      · rw [newTable_pde_other spare heq] at present'
        rw [newTable_table_other spare heq]
        exact roomy t' ht' present'

theorem setPte_paged {m : Machine} (h : Paged m) {t : Nat} (ht : t < 1023)
    (present : Present (m.pde t)) (p : Nat) (x : U32) : Paged (m.setPte t p x) := by
  have hpde := setPte_pde h.owned ht present (p := p) x
  have htable := setPte_table h.owned ht present (p := p) x
  refine ⟨setPte_owned h.owned ht present x, h.zero, h.dir, ?_⟩
  rcases h.room with roomy | full
  · refine Or.inl (fun t' ht' present' => ?_)
    rw [hpde] at present'
    rw [htable]
    exact roomy t' ht' present'
  · exact Or.inr full

/-- Whatever it returns, `vmmngr_map_page` leaves its page mapped. -/
theorem map_paged {m : Machine} (h : Paged m) (roomy : Roomy m) (phys : U32) {virt : U32}
    (below : Below virt) :
    ∃ result m', vmmngrMapPage m phys virt = some (result, m') ∧ Paged m' ∧ Keeps m m' ∧
      entry m' (pdeIndex virt) (pteIndex virt) ≠ none ∧ (result = -1 → m' = m) := by
  have ht := below.pdeIndex_lt
  have spare := h.spare roomy
  have hmap := @map_eq _ h.owned.window phys _ below (fun _ => spare.dir)
  by_cases taken : Present (m.pde (pdeIndex virt)) ∧
      Present (m.pte (pdeIndex virt) (pteIndex virt))
  · rw [if_pos taken] at hmap
    refine ⟨_, _, hmap, h, fun _ _ _ hp => hp, ?_, fun _ => rfl⟩
    rw [entry, if_pos taken]
    exact Option.some_ne_none _
  · rw [if_neg taken] at hmap
    have h' := withTable_paged h roomy ht
    have present := withTable_present (t := pdeIndex virt) (fun _ => spare)
    refine ⟨_, _, hmap, setPte_paged h' ht present _ _, ?_, ?_, fun hr => (by cases hr)⟩
    · intro t p ht' mapped
      rw [setPte_entry h'.owned ht present _ ht', if_pos (present_or_flags phys)]
      split
      · exact Option.some_ne_none _
      · rwa [withTable_entry_of_mapped h.owned (fun _ => spare) ht' mapped]
    · rw [setPte_entry h'.owned ht present _ ht, if_pos ⟨rfl, rfl⟩, if_pos (present_or_flags phys)]
      exact Option.some_ne_none _

/-! ## The break -/

def pageOf (addr : U32) : Nat := addr.toNat / 4096

theorem masked_toNat (bp : U32) : (bp &&& ~~~0xfff).toNat = pageOf bp * 4096 :=
  toNat_and_not_pageMask bp

theorem kheapPageMax_toNat : kheapPageMax.toNat = 0xeffff000 := rfl

/-- The number of pages between the last page and the page of a break above it. -/
theorem nblocks_toNat {bp last : U32} (hlast : last.toNat = pageOf last * 4096)
    (above : bp &&& ~~~0xfff > last) :
    (((bp &&& ~~~0xfff) - last) >>> 12).toNat = pageOf bp - pageOf last := by
  rw [BitVec.toNat_ushiftRight, BitVec.toNat_sub_of_le (BitVec.le_of_lt above),
    masked_toNat, hlast, Nat.shiftRight_eq_div_pow]
  omega

theorem last_succ {last : U32} (h : last.toNat + 4096 ≤ 0xeffff000) :
    (last + kernelPageSize).toNat = last.toNat + 4096 := by
  have hpage : kernelPageSize.toNat = 4096 := rfl
  rw [BitVec.toNat_add, hpage]
  omega

theorem pageOf_succ {last : U32} (h : last.toNat + 4096 ≤ 0xeffff000) :
    pageOf (last + kernelPageSize) = pageOf last + 1 := by
  rw [pageOf, last_succ h, pageOf]
  omega

theorem pages_toNat {last : U32} {k : Nat} (fits : last.toNat + k * 4096 < 2 ^ 32) :
    (last + BitVec.ofNat 32 k * kernelPageSize).toNat = last.toNat + k * 4096 := by
  have hpage : kernelPageSize.toNat = 4096 := rfl
  rw [BitVec.toNat_add, BitVec.toNat_mul, BitVec.toNat_ofNat, hpage]
  omega

/-- The loop leaves the break alone and moves the last page with every block it takes. -/
theorem growHeap_moves {n : Nat} {s t : Kspace} {result : Int}
    (h : growHeap n s = some (result, t)) :
    t.kernelBreak = s.kernelBreak ∧ (result = -1 ∨ result = 0) ∧
      ∃ k, k ≤ n ∧ t.kheapLastPage = s.kheapLastPage + BitVec.ofNat 32 k * kernelPageSize ∧
        (result = 0 → k = n) ∧ (0 < n → (ballocGet s.machine.balloc).1 ≠ 0 → 0 < k) := by
  induction n generalizing s with
  | zero =>
    cases h
    exact ⟨rfl, Or.inr rfl, 0, le_refl _, by simp, fun _ => rfl, fun h => absurd h (lt_irrefl _)⟩
  | succ n ih =>
    have hzero : s.kheapLastPage = s.kheapLastPage + BitVec.ofNat 32 0 * kernelPageSize := by simp
    have hone : BitVec.ofNat 32 1 * kernelPageSize = kernelPageSize := rfl
    by_cases null : (ballocGet s.machine.balloc).1 = 0
    · simp only [growHeap, if_pos null, Option.some.injEq, Prod.mk.injEq] at h
      obtain ⟨rfl, rfl⟩ := h
      exact ⟨rfl, Or.inl rfl, 0, Nat.zero_le _, hzero, fun h => (by cases h),
        fun _ nonnull => absurd null nonnull⟩
    · simp only [growHeap, if_neg null] at h
      cases hmap : vmmngrMapPage (takeBlock s.machine) (ballocGet s.machine.balloc).1
          (s.kheapLastPage + kernelPageSize) with
      | none => simp only [hmap, reduceCtorEq] at h
      | some mapped =>
        obtain ⟨mapResult, m⟩ := mapped
        simp only [hmap] at h
        by_cases refused : mapResult = -1
        · simp only [if_pos refused, Option.some.injEq, Prod.mk.injEq] at h
          obtain ⟨rfl, rfl⟩ := h
          refine ⟨rfl, Or.inl rfl, 1, Nat.le_add_left _ _, ?_, fun h => (by cases h),
            fun _ _ => Nat.one_pos⟩
          rw [hone]
        · rw [if_neg refused] at h
          obtain ⟨hbreak, hresult, k, hle, hlast, hdone, _⟩ := ih h
          refine ⟨hbreak, hresult, k + 1, Nat.succ_le_succ hle, ?_, fun hr => ?_,
            fun _ _ => Nat.succ_pos k⟩
          · dsimp only at hlast
            rw [hlast, BitVec.ofNat_add, BitVec.add_mul, hone, BitVec.add_assoc,
              BitVec.add_comm kernelPageSize]
          · rw [hdone hr]

/-- A break in the last page moves at once. -/
theorem brk_within {s : Kspace} {bp : U32} (inRange : ¬ bp > kheapPageMax)
    (same : bp &&& ~~~0xfff = s.kheapLastPage) :
    kspaceBrk s bp = some (0, { s with kernelBreak := bp }) := by
  rw [kspaceBrk, if_neg inRange, if_pos same]

/-- The two cursors of the heap. -/
structure Cursors (s : Kspace) : Prop where
  aligned : s.kheapLastPage.toNat % 4096 = 0
  start_le : 0xd0000000 ≤ s.kheapLastPage.toNat
  last_le : s.kheapLastPage.toNat ≤ 0xeffff000
  break_le : s.kernelBreak.toNat ≤ 0xeffff000
  break_page : pageOf s.kernelBreak ≤ pageOf s.kheapLastPage

section Calls

variable {s t : Kspace}

theorem Cursors.last_eq (cursors : Cursors s) :
    s.kheapLastPage.toNat = pageOf s.kheapLastPage * 4096 := by
  have halign := cursors.aligned
  rw [pageOf]
  omega

/-- The break is never the value that reports a failure. -/
theorem Cursors.break_ne (cursors : Cursors s) : s.kernelBreak ≠ 0xffffffff := by
  intro heq
  have hle := cursors.break_le
  rw [heq] at hle
  exact absurd hle (by decide)

/-- The class of an address that is not past the window, decided by its page. -/
theorem Cursors.classes (cursors : Cursors s) (bp : U32) :
    (bp &&& ~~~0xfff = s.kheapLastPage ↔ pageOf bp = pageOf s.kheapLastPage) ∧
      (bp &&& ~~~0xfff > s.kheapLastPage ↔ pageOf s.kheapLastPage < pageOf bp) := by
  have hlast := cursors.last_eq
  have hmask := masked_toNat bp
  constructor
  · constructor
    · intro same
      rw [same] at hmask
      omega
    · intro hpage
      apply BitVec.eq_of_toNat_eq
      rw [hmask, hlast, hpage]
  · rw [gt_iff_lt, BitVec.lt_def, hmask, hlast]
    omega

/-- A page behind the last one: success, and nothing done. -/
theorem Cursors.behind (cursors : Cursors s) {bp : U32}
    (behind : pageOf bp < pageOf s.kheapLastPage) : kspaceBrk s bp = some (0, s) := by
  have hlast := cursors.last_le
  obtain ⟨same_iff, above_iff⟩ := cursors.classes bp
  have inRange : ¬ bp > kheapPageMax := by
    rw [pageOf, pageOf] at behind
    rw [gt_iff_lt, BitVec.lt_def, kheapPageMax_toNat]
    omega
  have same : ¬ bp &&& ~~~0xfff = s.kheapLastPage := fun h => by
    have hpage := same_iff.mp h
    omega
  have above : ¬ bp &&& ~~~0xfff > s.kheapLastPage := fun h => by
    have hpage := above_iff.mp h
    omega
  rw [kspaceBrk, if_neg inRange, if_neg same, if_neg above]

/-- A page beyond the last one: the loop runs once for each page between. -/
theorem Cursors.beyond (cursors : Cursors s) {bp : U32} (inRange : ¬ bp > kheapPageMax)
    (beyond : pageOf s.kheapLastPage < pageOf bp) :
    kspaceBrk s bp = (growHeap (pageOf bp - pageOf s.kheapLastPage) s).map fun (result, t) =>
      if result = -1 then (-1, t) else (0, { t with kernelBreak := bp }) := by
  obtain ⟨same_iff, above_iff⟩ := cursors.classes bp
  have same : ¬ bp &&& ~~~0xfff = s.kheapLastPage := fun h =>
    absurd (same_iff.mp h) (ne_of_gt beyond)
  have above := above_iff.mpr beyond
  rw [← nblocks_toNat cursors.last_eq above, kspaceBrk, if_neg inRange, if_neg same,
    if_pos above]

/-- What a call that returns does with the cursors. -/
theorem Cursors.brk (cursors : Cursors s) {bp : U32} {result : Int}
    (h : kspaceBrk s bp = some (result, t)) :
    Cursors t ∧
      (result = -1 ∧ t.kernelBreak = s.kernelBreak ∨
        result = 0 ∧ pageOf s.kheapLastPage ≤ pageOf bp ∧ t.kernelBreak = bp ∧
          pageOf t.kheapLastPage = pageOf bp ∨
        result = 0 ∧ pageOf bp < pageOf s.kheapLastPage ∧ t = s) := by
  by_cases past : bp > kheapPageMax
  · rw [kspaceBrk, if_pos past] at h
    cases h
    exact ⟨⟨cursors.aligned, cursors.start_le, cursors.last_le, cursors.break_le,
      cursors.break_page⟩, Or.inl ⟨rfl, rfl⟩⟩
  · have hle : bp.toNat ≤ 0xeffff000 := by
      rw [gt_iff_lt, BitVec.lt_def, kheapPageMax_toNat] at past
      omega
    rcases lt_trichotomy (pageOf bp) (pageOf s.kheapLastPage) with behind | hpage | beyond
    · rw [cursors.behind behind] at h
      cases h
      exact ⟨cursors, Or.inr (Or.inr ⟨rfl, behind, rfl⟩)⟩
    · rw [brk_within past ((cursors.classes bp).1.mpr hpage)] at h
      cases h
      exact ⟨⟨cursors.aligned, cursors.start_le, cursors.last_le, hle, hpage.le⟩,
        Or.inr (Or.inl ⟨rfl, hpage.ge, rfl, hpage.symm⟩)⟩
    · rw [cursors.beyond past beyond] at h
      obtain ⟨⟨r, u⟩, hgrow, hmap⟩ := Option.map_eq_some_iff.mp h
      obtain ⟨hbreak, hr, k, hk, hnew, hdone, _⟩ := growHeap_moves hgrow
      have hlast := cursors.last_eq
      have hfloor : pageOf bp * 4096 ≤ bp.toNat := Nat.div_mul_le_self _ _
      have halign := cursors.aligned
      have hstart := cursors.start_le
      have hpage := cursors.break_page
      have hbreakLe := cursors.break_le
      have htoNat : u.kheapLastPage.toNat = s.kheapLastPage.toNat + k * 4096 := by
        rw [hnew]
        exact pages_toNat (by omega)
      have huPage : pageOf u.kheapLastPage = pageOf s.kheapLastPage + k := by
        rw [pageOf, htoNat, pageOf]
        omega
      rcases hr with rfl | rfl
      · simp only [if_true] at hmap
        cases hmap
        refine ⟨⟨by omega, by omega, by omega, ?_, ?_⟩, Or.inl ⟨rfl, hbreak⟩⟩
        · rwa [hbreak]
        · rw [hbreak, huPage]
          omega
      · have hne : ¬ (0 : Int) = -1 := by decide
        simp only [if_neg hne] at hmap
        cases hmap
        have hk := hdone rfl
        refine ⟨⟨by dsimp only; omega, by dsimp only; omega, by dsimp only; omega, hle, ?_⟩,
          Or.inr (Or.inl ⟨rfl, beyond.le, rfl, ?_⟩)⟩
        · dsimp only
          omega
        · dsimp only
          omega

/-- No call moves the last page past the page of the break that it was asked for. -/
theorem Cursors.brk_last (cursors : Cursors s) {bp : U32} {result : Int}
    (h : kspaceBrk s bp = some (result, t)) :
    pageOf t.kheapLastPage ≤ max (pageOf s.kheapLastPage) (pageOf bp) := by
  by_cases past : bp > kheapPageMax
  · rw [kspaceBrk, if_pos past] at h
    cases h
    exact le_max_left _ _
  · rcases lt_trichotomy (pageOf bp) (pageOf s.kheapLastPage) with behind | hpage | beyond
    · rw [cursors.behind behind] at h
      cases h
      exact le_max_left _ _
    · rw [brk_within past ((cursors.classes bp).1.mpr hpage)] at h
      cases h
      exact le_max_left _ _
    · rw [cursors.beyond past beyond] at h
      obtain ⟨⟨r, u⟩, hgrow, hmap⟩ := Option.map_eq_some_iff.mp h
      obtain ⟨_, _, k, hk, hnew, _⟩ := growHeap_moves hgrow
      have hlast := cursors.last_eq
      have hfloor : pageOf bp * 4096 ≤ bp.toNat := Nat.div_mul_le_self _ _
      have htoNat : u.kheapLastPage.toNat = s.kheapLastPage.toNat + k * 4096 := by
        rw [hnew]
        exact pages_toNat (by omega)
      have huPage : pageOf u.kheapLastPage ≤ pageOf bp := by
        rw [pageOf, htoNat, hlast]
        omega
      have same : t.kheapLastPage = u.kheapLastPage := by
        dsimp only at hmap
        split at hmap <;> cases hmap <;> rfl
      rw [same]
      exact huPage.trans (le_max_right _ _)

end Calls

/-! ## The pages of the heap -/

/-- All pages of the heap are mapped, and the break is not past the last one. -/
structure HeapSpace (s : Kspace) : Prop where
  paged : Paged s.machine
  aligned : s.kheapLastPage.toNat % 4096 = 0
  start_le : 0xd0000000 ≤ s.kheapLastPage.toNat
  last_le : s.kheapLastPage.toNat ≤ 0xeffff000
  mapped : ∀ v, 0xd0000 ≤ v → v ≤ pageOf s.kheapLastPage → translation s.machine v ≠ none
  start_le_break : 0xd0000000 ≤ s.kernelBreak.toNat
  break_le : s.kernelBreak.toNat ≤ 0xeffff000
  break_page : pageOf s.kernelBreak ≤ pageOf s.kheapLastPage

theorem Keeps.translation {m m' : Machine} (h : Keeps m m') {v : Nat}
    (mapped : translation m v ≠ none) : translation m' v ≠ none := by
  by_cases hv : v < 0xFFC00
  · rw [translation_eq _ hv] at mapped ⊢
    exact h _ _ (by omega) mapped
  · rw [PageMapping.translation, if_neg hv] at mapped
    exact absurd rfl mapped

/-- The block just taken is none of the frames in use. -/
theorem Paged.give_back {m : Machine} (h : Paged m) (nonnull : (ballocGet m.balloc).1 ≠ 0) :
    Paged (giveBlock (takeBlock m) (ballocGet m.balloc).1) := by
  obtain ⟨h0, _, unused, _⟩ := ballocGet_fresh nonnull
  refine (h.take nonnull).give (h.roomy nonnull) nonnull h0 ?_ ?_
  · exact fun heq => unused (heq ▸ h.owned.dirUsed.2)
  · exact fun t ht present heq => unused (heq ▸ (h.owned.used t ht present).2)

theorem HeapSpace.withErrno {s : Kspace} (inv : HeapSpace s) (e : U32) :
    HeapSpace { s with errno := e } :=
  ⟨inv.paged, inv.aligned, inv.start_le, inv.last_le, inv.mapped, inv.start_le_break,
    inv.break_le, inv.break_page⟩

/-- One more page. -/
theorem HeapSpace.extend {s : Kspace} (inv : HeapSpace s) {m : Machine} (paged : Paged m)
    (fits : s.kheapLastPage.toNat + 4096 ≤ 0xeffff000)
    (mapped : ∀ v, 0xd0000 ≤ v → v ≤ pageOf (s.kheapLastPage + kernelPageSize) →
      translation m v ≠ none) :
    HeapSpace { s with machine := m, kheapLastPage := s.kheapLastPage + kernelPageSize } := by
  have halign := inv.aligned
  have hstart := inv.start_le
  have hlast := last_succ fits
  refine ⟨paged, ?_, ?_, ?_, mapped, inv.start_le_break, inv.break_le, ?_⟩
  · rw [hlast]
    omega
  · rw [hlast]
    omega
  · rw [hlast]
    exact fits
  · rw [pageOf_succ fits]
    exact Nat.le_succ_of_le inv.break_page

/-- One turn of the loop: a fresh block is mapped behind the last page, or given back. -/
theorem grow_page {s : Kspace} (inv : HeapSpace s) (nonnull : (ballocGet s.machine.balloc).1 ≠ 0)
    (fits : s.kheapLastPage.toNat + 4096 ≤ 0xeffff000) :
    ∃ result m, vmmngrMapPage (takeBlock s.machine) (ballocGet s.machine.balloc).1
        (s.kheapLastPage + kernelPageSize) = some (result, m) ∧
      HeapSpace { s with machine := m, kheapLastPage := s.kheapLastPage + kernelPageSize } ∧
      (result = -1 → HeapSpace
        { s with machine := giveBlock m (ballocGet s.machine.balloc).1,
                 kheapLastPage := s.kheapLastPage + kernelPageSize }) := by
  have hstart := inv.start_le
  have below : Below (s.kheapLastPage + kernelPageSize) := by
    rw [Below, last_succ fits]
    omega
  obtain ⟨result, m, hmap, paged, keeps, hentry, hsame⟩ :=
    map_paged (inv.paged.take nonnull) (inv.paged.roomy nonnull)
      (ballocGet s.machine.balloc).1 below
  have mapped : ∀ v, 0xd0000 ≤ v → v ≤ pageOf (s.kheapLastPage + kernelPageSize) →
      translation m v ≠ none := by
    intro v hlo hhi
    rcases Nat.lt_or_eq_of_le hhi with hlt | rfl
    · rw [pageOf_succ fits] at hlt
      exact keeps.translation (inv.mapped v hlo (by omega))
    · exact (translation_page m below).trans_ne hentry
  refine ⟨result, m, hmap, inv.extend paged fits mapped, fun failed => ?_⟩
  rw [hsame failed] at mapped ⊢
  exact inv.extend (inv.paged.give_back nonnull) fits mapped

/-- The loop maps page after page until a block or a page is refused. -/
theorem growHeap_spec {n : Nat} {s : Kspace} (inv : HeapSpace s)
    (fits : s.kheapLastPage.toNat + n * 4096 ≤ 0xeffff000) :
    ∃ result t, growHeap n s = some (result, t) ∧ HeapSpace t := by
  induction n generalizing s with
  | zero => exact ⟨0, s, rfl, inv⟩
  | succ n ih =>
    by_cases nonnull : (ballocGet s.machine.balloc).1 = 0
    · have hsame : takeBlock s.machine = s.machine := by
        rw [takeBlock, (ballocGet_null nonnull inv.paged.zero.2).2]
      refine ⟨-1, { s with errno := enomem }, ?_, inv.withErrno enomem⟩
      simp only [growHeap, if_pos nonnull, hsame]
    · have hfits : s.kheapLastPage.toNat + 4096 ≤ 0xeffff000 := by omega
      obtain ⟨result, m, hmap, inv', hfail⟩ := grow_page inv nonnull hfits
      by_cases failed : result = -1
      · refine ⟨-1, _, ?_, (hfail failed).withErrno enomem⟩
        simp only [growHeap, if_neg nonnull, hmap, if_pos failed]
      · have hlast := last_succ hfits
        obtain ⟨r, t, hgrow, inv''⟩ := ih inv' (by
          rw [hlast]
          omega)
        refine ⟨r, t, ?_, inv''⟩
        simp only [growHeap, if_neg nonnull, hmap, if_neg failed]
        exact hgrow

theorem HeapSpace.cursors {s : Kspace} (inv : HeapSpace s) : Cursors s :=
  ⟨inv.aligned, inv.start_le, inv.last_le, inv.break_le, inv.break_page⟩

/-- Every call returns, and all pages up to the last one are mapped then. -/
theorem brk_returns {s : Kspace} (inv : HeapSpace s) (bp : U32) :
    ∃ result t, kspaceBrk s bp = some (result, t) ∧ Paged t.machine ∧
      ∀ v, 0xd0000 ≤ v → v ≤ pageOf t.kheapLastPage → translation t.machine v ≠ none := by
  by_cases past : bp > kheapPageMax
  · exact ⟨-1, _, if_pos past, inv.paged, inv.mapped⟩
  · rcases lt_trichotomy (pageOf bp) (pageOf s.kheapLastPage) with behind | hpage | beyond
    · exact ⟨0, s, inv.cursors.behind behind, inv.paged, inv.mapped⟩
    · have same := (inv.cursors.classes bp).1.mpr hpage
      exact ⟨0, _, brk_within past same, inv.paged, inv.mapped⟩
    · have hbrk := inv.cursors.beyond past beyond
      have hfits : s.kheapLastPage.toNat + (pageOf bp - pageOf s.kheapLastPage) * 4096 ≤
          0xeffff000 := by
        have hlast := inv.cursors.last_eq
        have hfloor : pageOf bp * 4096 ≤ bp.toNat := Nat.div_mul_le_self _ _
        rw [gt_iff_lt, BitVec.lt_def, kheapPageMax_toNat] at past
        omega
      obtain ⟨result, t, hgrow, inv'⟩ := growHeap_spec inv hfits
      by_cases failed : result = -1
      · simp only [hgrow, Option.map_some, if_pos failed] at hbrk
        exact ⟨-1, t, hbrk, inv'.paged, inv'.mapped⟩
      · simp only [hgrow, Option.map_some, if_neg failed] at hbrk
        exact ⟨0, { t with kernelBreak := bp }, hbrk, inv'.paged, inv'.mapped⟩

/-- What `kspace_brk` does with the break: it fails and leaves it, moves it to a page
that is not below the last one, or reports success and leaves it. -/
theorem brk_spec {s : Kspace} (inv : HeapSpace s) (bp : U32) :
    ∃ result t, kspaceBrk s bp = some (result, t) ∧ HeapSpace t ∧
      (result = -1 ∧ t.kernelBreak = s.kernelBreak ∨
        result = 0 ∧ pageOf s.kheapLastPage ≤ pageOf bp ∧ t.kernelBreak = bp ∨
        result = 0 ∧ pageOf bp < pageOf s.kheapLastPage ∧ t = s) := by
  obtain ⟨result, t, hbrk, paged, mapped⟩ := brk_returns inv bp
  obtain ⟨cursors, hcases⟩ := inv.cursors.brk hbrk
  have heapSpace (start_le_break : 0xd0000000 ≤ t.kernelBreak.toNat) : HeapSpace t :=
    ⟨paged, cursors.aligned, cursors.start_le, cursors.last_le, mapped, start_le_break,
      cursors.break_le, cursors.break_page⟩
  refine ⟨result, t, hbrk, ?_⟩
  rcases hcases with ⟨hr, hbreak⟩ | ⟨hr, ahead, hbreak, _⟩ | ⟨hr, behind, rfl⟩
  · refine ⟨heapSpace ?_, Or.inl ⟨hr, hbreak⟩⟩
    rw [hbreak]
    exact inv.start_le_break
  · refine ⟨heapSpace ?_, Or.inr (Or.inl ⟨hr, ahead, hbreak⟩)⟩
    have hlast := inv.cursors.last_eq
    have hstart := inv.start_le
    have hfloor : pageOf bp * 4096 ≤ bp.toNat := Nat.div_mul_le_self _ _
    rw [hbreak]
    omega
  · exact ⟨inv, Or.inr (Or.inr ⟨hr, behind, rfl⟩)⟩

/-! ## Runs of `kspace_sbrk` -/

structure SbrkCall where
  increment : U32
  ret : U32

def Step (s : Kspace) (call : SbrkCall) (t : Kspace) : Prop :=
  kspaceSbrk s call.increment = some (call.ret, t)

def SbrkCall.Succeeded (call : SbrkCall) : Prop := call.ret ≠ 0xffffffff

instance (call : SbrkCall) : Decidable call.Succeeded := inferInstanceAs (Decidable (_ ≠ _))

/-- The bytes of a successful call, in unbounded arithmetic. -/
def SbrkCall.Holds (call : SbrkCall) (a : Nat) : Prop :=
  call.ret.toNat ≤ a ∧ a < call.ret.toNat + call.increment.toNat

/-- The new break neither wraps nor lies in a page below the last one. -/
def Ahead (s : Kspace) (call : SbrkCall) : Prop :=
  call.increment = 0 ∨
    s.kernelBreak.toNat + call.increment.toNat < 2 ^ 32 ∧
      (0xeffff000 < s.kernelBreak.toNat + call.increment.toNat ∨
        pageOf s.kheapLastPage ≤ (s.kernelBreak.toNat + call.increment.toNat) / 4096)

/-- A call that stays ahead is not behind, unless it asks for nothing. -/
theorem Ahead.not_behind {s : Kspace} {call : SbrkCall} (ahead : Ahead s call)
    (last_le : s.kheapLastPage.toNat ≤ 0xeffff000)
    (behind : pageOf (s.kernelBreak + call.increment) < pageOf s.kheapLastPage) :
    call.increment = 0 := by
  rcases ahead with hzero | ⟨hfit, hahead⟩
  · exact hzero
  · exfalso
    rw [pageOf, BitVec.toNat_add, Nat.mod_eq_of_lt hfit] at behind
    rw [pageOf] at behind hahead
    rcases hahead with hmax | hahead <;> omega

theorem Ahead.moved {s : Kspace} {call : SbrkCall} (ahead : Ahead s call) :
    (s.kernelBreak + call.increment).toNat = s.kernelBreak.toNat + call.increment.toNat := by
  rcases ahead with hzero | ⟨hfit, _⟩
  · rw [hzero]
    simp
  · rw [BitVec.toNat_add, Nat.mod_eq_of_lt hfit]

/-- What one call that stays ahead does to the break. -/
theorem sbrk_ahead {s t : Kspace} {call : SbrkCall} (inv : HeapSpace s) (ahead : Ahead s call)
    (h : Step s call t) :
    HeapSpace t ∧
      (¬ call.Succeeded ∧ t.kernelBreak = s.kernelBreak ∨
        call.Succeeded ∧ call.ret = s.kernelBreak ∧
          t.kernelBreak.toNat = s.kernelBreak.toNat + call.increment.toNat) := by
  obtain ⟨result, u, hbrk, inv', hcases⟩ := brk_spec inv (s.kernelBreak + call.increment)
  rw [Step, kspaceSbrk, hbrk, Option.map_some] at h
  have hok := inv.cursors.break_ne
  rcases hcases with ⟨rfl, hbreak⟩ | ⟨rfl, _, hbreak⟩ | ⟨rfl, behind, hsame⟩
  · obtain ⟨hret, rfl⟩ := Prod.mk.inj (Option.some.inj h)
    exact ⟨inv'.withErrno enomem, Or.inl ⟨fun hs => hs hret.symm, hbreak⟩⟩
  · obtain ⟨hret, rfl⟩ := Prod.mk.inj (Option.some.inj h)
    refine ⟨inv', Or.inr ⟨fun hs => hok (hret.trans hs), hret.symm, ?_⟩⟩
    rw [hbreak, ahead.moved]
  · obtain ⟨hret, rfl⟩ := Prod.mk.inj (Option.some.inj h)
    refine ⟨inv', Or.inr ⟨fun hs => hok (hret.trans hs), hret.symm, ?_⟩⟩
    rw [hsame, ahead.not_behind inv.last_le behind]
    simp

/-- Every call returns: the page tables never fault. -/
theorem sbrk_returns {s : Kspace} (inv : HeapSpace s) (increment : U32) :
    ∃ ret t, Step s ⟨increment, ret⟩ t := by
  obtain ⟨result, u, hbrk, _⟩ := brk_spec inv (s.kernelBreak + increment)
  have hsbrk : ∃ r, kspaceSbrk s increment = some r := by
    rw [kspaceSbrk, hbrk]
    exact ⟨_, rfl⟩
  obtain ⟨⟨ret, t⟩, h⟩ := hsbrk
  exact ⟨ret, t, h⟩

/-! ## From `kspace_initialize` on -/

/-- The address space that boot hands over: frame 0 is reserved and holds no table. -/
structure Booted (m : Machine) : Prop where
  owned : Owned m
  zero : m.balloc.MarkedUsed 0
  dir : frameOf m.cr3 ≠ 0
  roomy : Roomy m

theorem initialize_spec {s : Kspace} (booted : Booted s.machine)
    (nonnull : (ballocGet s.machine.balloc).1 ≠ 0) :
    ∃ t, kspaceInitialize s = some (.ok t) ∧ HeapSpace t ∧
      t.kernelBreak = kheapPageStart ∧ t.kheapLastPage = kheapPageStart := by
  have paged : Paged s.machine := ⟨booted.owned, booted.zero, booted.dir, Or.inl booted.roomy⟩
  have below : Below kheapPageStart := by decide
  have hpage : pageOf kheapPageStart = 0xd0000 := rfl
  have halign : kheapPageStart.toNat % 4096 = 0 := by decide
  have hstart : 0xd0000000 ≤ kheapPageStart.toNat := by decide
  have hmax : kheapPageStart.toNat ≤ 0xeffff000 := by decide
  obtain ⟨result, m', hmap, paged', _, hentry, _⟩ :=
    map_paged (paged.take nonnull) booted.roomy (ballocGet s.machine.balloc).1 below
  refine ⟨{ s with machine := m', kheapBase := (ballocGet s.machine.balloc).1,
                   kernelBreak := kheapPageStart, kheapLastPage := kheapPageStart },
    ?_, ⟨paged', halign, hstart, hmax, ?_, hstart, hmax, le_refl _⟩, rfl, rfl⟩
  · simp only [kspaceInitialize, if_neg nonnull, hmap, Option.map_some]
  · intro v hlo hhi
    have hv : v = frameOf kheapPageStart := le_antisymm (hhi.trans (le_of_eq hpage)) hlo
    rw [hv]
    exact (translation_page m' below).trans_ne hentry

theorem initialize_heapSpace {s t : Kspace} (booted : Booted s.machine)
    (h : kspaceInitialize s = some (.ok t)) : HeapSpace t := by
  by_cases nonnull : (ballocGet s.machine.balloc).1 = 0
  · simp only [kspaceInitialize, if_pos nonnull, Option.some.injEq, reduceCtorEq] at h
  · obtain ⟨t', h', inv, _⟩ := initialize_spec booted nonnull
    rw [h'] at h
    cases h
    exact inv

/-- What a sequence of calls owes its callers in the state it has led to. -/
structure Lawful (calls : List SbrkCall) (t : Kspace) : Prop where
  disjoint : calls.Pairwise fun c d =>
    c.Succeeded → d.Succeeded → ∀ a, c.Holds a → ¬ d.Holds a
  inside : ∀ c ∈ calls, c.Succeeded →
    0xd0000000 ≤ c.ret.toNat ∧ c.ret.toNat + c.increment.toNat ≤ kheapPageMax.toNat
  mapped : ∀ c ∈ calls, c.Succeeded → ∀ a : U32, c.Holds a.toNat →
    translateVirt t.machine.mem t.machine.cr3 a ≠ none

/-- Every byte below the break is mapped. -/
theorem HeapSpace.translated {s : Kspace} (inv : HeapSpace s) {a : U32}
    (start_le : 0xd0000000 ≤ a.toNat) (lt_break : a.toNat < s.kernelBreak.toNat) :
    translateVirt s.machine.mem s.machine.cr3 a ≠ none := by
  have hbreak := inv.break_page
  have hle := inv.break_le
  have hmapped := inv.mapped (pageOf a) (by rw [pageOf]; omega)
    (le_trans (Nat.div_le_div_right (le_of_lt lt_break)) hbreak)
  have hlt : pageOf a < 0xFFC00 := by
    rw [pageOf]
    omega
  have hsame : (BitVec.ofNat 32 (pageOf a * 4096)).toNat / 4096 = a.toNat / 4096 := by
    rw [BitVec.toNat_ofNat, pageOf]
    omega
  rw [translation, if_pos hlt, translateVirt, walk_congr _ _ hsame] at hmapped
  exact hmapped

section Runs

variable {s t : Kspace} {calls : List SbrkCall} (run : Run (Guarded Ahead Step) s calls t)
  (inv : HeapSpace s)

include run inv

theorem run_heapSpace : HeapSpace t :=
  run.invariant (I := HeapSpace) (fun _ _ _ inv h => (sbrk_ahead inv h.1 h.2).1) inv

theorem run_break_le : s.kernelBreak.toNat ≤ t.kernelBreak.toNat := by
  refine run.relates (I := HeapSpace)
    (R := fun s t => s.kernelBreak.toNat ≤ t.kernelBreak.toNat) (fun _ => le_refl _)
    (fun _ _ _ => le_trans) (fun _ _ _ inv h => (sbrk_ahead inv h.1 h.2).1) ?_ inv
  intro s c t inv h
  rcases (sbrk_ahead inv h.1 h.2).2 with ⟨_, hsame⟩ | ⟨_, _, hmoved⟩
  · exact le_of_eq (congrArg BitVec.toNat hsame.symm)
  · rw [hmoved]
    exact Nat.le_add_right _ _

/-- Successful calls take consecutive ranges between the first break and the last. -/
theorem run_ranges : (∀ c ∈ calls, c.Succeeded → s.kernelBreak.toNat ≤ c.ret.toNat ∧
      c.ret.toNat + c.increment.toNat ≤ t.kernelBreak.toNat) ∧
    calls.Pairwise fun c d => c.Succeeded → d.Succeeded → ∀ a, c.Holds a → ¬ d.Holds a := by
  induction run with
  | nil => exact ⟨fun _ hc => absurd hc List.not_mem_nil, .nil⟩
  | @cons s u t c calls h rest ih =>
    obtain ⟨inv', hcall⟩ := sbrk_ahead inv h.1 h.2
    obtain ⟨between, pairwise⟩ := ih inv'
    have hend := run_break_le rest inv'
    rcases hcall with ⟨failed, hsame⟩ | ⟨_, hret, hmoved⟩
    · refine ⟨?_, List.pairwise_cons.mpr ⟨fun d _ hc => absurd hc failed, pairwise⟩⟩
      rw [hsame] at between
      intro d hd hsucc
      rcases List.mem_cons.mp hd with rfl | hd
      · exact absurd hsucc failed
      · exact between d hd hsucc
    · constructor
      · intro d hd hsucc
        rcases List.mem_cons.mp hd with rfl | hd
        · rw [hret]
          omega
        · obtain ⟨hlo, hhi⟩ := between d hd hsucc
          omega
      · refine List.pairwise_cons.mpr ⟨?_, pairwise⟩
        rintro d hd _ hsucc a ⟨_, hlt⟩ ⟨hle, _⟩
        obtain ⟨hlo, _⟩ := between d hd hsucc
        rw [hret] at hlt
        omega

theorem run_lawful : Lawful calls t := by
  obtain ⟨between, pairwise⟩ := run_ranges run inv
  have inv' := run_heapSpace run inv
  have hstart := inv.start_le_break
  have hend := inv'.break_le
  refine ⟨pairwise, ?_, ?_⟩
  · intro c hc hsucc
    obtain ⟨hlo, hhi⟩ := between c hc hsucc
    rw [kheapPageMax_toNat]
    omega
  · rintro c hc hsucc a ⟨hle, hlt⟩
    obtain ⟨hlo, hhi⟩ := between c hc hsucc
    exact inv'.translated (by omega) (by omega)

end Runs

/-- As long as every call stays ahead of the last page, the heap hands out disjoint mapped
ranges of its window, and every call returns. -/
theorem heap_ranges_exclusive {s start t : Kspace} {calls : List SbrkCall}
    (booted : Booted s.machine) (initialized : kspaceInitialize s = some (.ok start))
    (run : Run (Guarded Ahead Step) start calls t) :
    Lawful calls t ∧ ∀ increment, ∃ ret u, Step t ⟨increment, ret⟩ u := by
  have inv := initialize_heapSpace booted initialized
  exact ⟨run_lawful run inv, sbrk_returns (run_heapSpace run inv)⟩

/-- The kernel before its heap exists. -/
def freshKernel : Kspace where
  machine := emptySpace
  kernelBreak := 0xc0050000
  kheapLastPage := 0xcffff000
  kheapBase := 0
  errno := 0

theorem freshKernel_booted : Booted freshKernel.machine where
  owned := emptySpace_owned
  zero := by decide
  dir := by decide
  roomy := fun _ ht present => absurd present (emptySpace_absent ht)

/-- Half a page, and a quarter of a page behind it. -/
theorem two_short_ranges : ∃ start t, kspaceInitialize freshKernel = some (.ok start) ∧
    Run Step start [⟨0x800, 0xd0000000⟩, ⟨0x400, 0xd0000800⟩] t ∧
      Lawful [⟨0x800, 0xd0000000⟩, ⟨0x400, 0xd0000800⟩] t := by
  obtain ⟨start, h, _, hbreak, hlast⟩ := initialize_spec freshKernel_booted (by decide)
  have hstep : Step start ⟨0x800, 0xd0000000⟩ { start with kernelBreak := 0xd0000800 } := by
    have hpast : ¬ (0xd0000800 : U32) > kheapPageMax := by decide
    have hsame : (0xd0000800 : U32) &&& ~~~0xfff = kheapPageStart := by decide
    have hsum : kheapPageStart + 0x800 = (0xd0000800 : U32) := by decide
    simp only [Step, kspaceSbrk, hbreak, hsum, kspaceBrk, if_neg hpast, hlast, if_pos hsame,
      Option.map_some]
    rfl
  have hnext : Step { start with kernelBreak := 0xd0000800 } ⟨0x400, 0xd0000800⟩
      { start with kernelBreak := 0xd0000c00 } := by
    have hpast : ¬ (0xd0000c00 : U32) > kheapPageMax := by decide
    have hsame : (0xd0000c00 : U32) &&& ~~~0xfff = kheapPageStart := by decide
    have hsum : (0xd0000800 : U32) + 0x400 = 0xd0000c00 := by decide
    simp only [Step, kspaceSbrk, hsum, kspaceBrk, if_neg hpast, hlast, if_pos hsame,
      Option.map_some]
    rfl
  have ahead : Ahead start ⟨0x800, 0xd0000000⟩ := by
    rw [Ahead, hbreak, hlast]
    decide
  have aheadNext : Ahead { start with kernelBreak := 0xd0000800 } ⟨0x400, 0xd0000800⟩ := by
    simp only [Ahead, hlast]
    decide
  exact ⟨start, _, h, .cons hstep (.cons hnext (.nil _)),
    (heap_ranges_exclusive freshKernel_booted h
      (.cons ⟨ahead, hstep⟩ (.cons ⟨aheadNext, hnext⟩ (.nil _)))).1⟩

theorem sbrk_behind {s : Kspace} (inv : HeapSpace s) {increment : U32}
    (behind : pageOf (s.kernelBreak + increment) < pageOf s.kheapLastPage) :
    Step s ⟨increment, s.kernelBreak⟩ s := by
  rw [Step, kspaceSbrk, inv.cursors.behind behind]
  rfl

/-- A wrapped break is behind, so the same range goes out twice. -/
theorem wrapped_break_twice : ¬ ∀ (start t : Kspace) (calls : List SbrkCall),
    kspaceInitialize freshKernel = some (.ok start) → Run Step start calls t →
      Lawful calls t := by
  intro lawful
  obtain ⟨start, h, inv, hbreak, hlast⟩ := initialize_spec freshKernel_booted (by decide)
  have hsum : kheapPageStart + 0x40000000 = (0x10000000 : U32) := by decide
  have behind : pageOf (start.kernelBreak + 0x40000000) < pageOf start.kheapLastPage := by
    rw [hbreak, hlast, hsum]
    decide
  have hstep := sbrk_behind inv behind
  rw [hbreak] at hstep
  have hsucc : SbrkCall.Succeeded ⟨0x40000000, kheapPageStart⟩ := by decide
  have holds : SbrkCall.Holds ⟨0x40000000, kheapPageStart⟩ 0xd0000000 :=
    ⟨le_refl _, Nat.lt_add_of_pos_right (by decide)⟩
  have both := (lawful _ _ _ h (.cons hstep (.cons hstep (.nil _)))).disjoint
  exact List.rel_of_pairwise_cons both List.mem_cons_self hsucc hsucc _ holds holds

end KernelSpace
