import MissyMicro.HeapWindow

/-!
# The cursors of the break

Whatever the rest of the kernel does to memory and to the bitmap, the two cursors stay
in order: the break is not past the last page. A call that fails in its loop has
moved `kheap_last_page`, and a call for a page behind that one reports success and
moves nothing.
-/

namespace BreakCalls

open BlockAllocator Mmu PageTables PageMapping KernelSpace TransitionRuns

/-- The pages of the window that are mapped. -/
def heapPages (s : Kspace) : Set Nat :=
  {v | 0xd0000 ≤ v ∧ v ≤ 0xeffff ∧ translation s.machine v ≠ none}

/-- What a failed call should leave as it was. -/
structure Unchanged (s t : Kspace) : Prop where
  kernelBreak : t.kernelBreak = s.kernelBreak
  kheapLastPage : t.kheapLastPage = s.kheapLastPage
  heapPages : heapPages t = heapPages s
  mBmp : t.machine.balloc.mBmp = s.machine.balloc.mBmp
  freeBlocks : t.machine.balloc.freeBlocks = s.machine.balloc.freeBlocks

/-- A call that fails has changed nothing exactly if the address is past the window or there
was no block to begin with. -/
theorem failed_unchanged_iff {s t : Kspace} {addr : U32}
    (failed : kspaceBrk s addr = some (-1, t)) :
    Unchanged s t ↔ addr > kheapPageMax ∨ blockAllocFirstFree s.machine.balloc = 0 := by
  by_cases past : addr > kheapPageMax
  · rw [kspaceBrk, if_pos past] at failed
    cases failed
    exact ⟨fun _ => Or.inl past, fun _ => ⟨rfl, rfl, rfl, rfl, rfl⟩⟩
  · rw [kspaceBrk, if_neg past] at failed
    by_cases same : addr &&& ~~~0xfff = s.kheapLastPage
    · simp only [if_pos same, Option.some.injEq, Prod.mk.injEq] at failed
      exact absurd failed.1 (by decide)
    · rw [if_neg same] at failed
      by_cases above : addr &&& ~~~0xfff > s.kheapLastPage
      · rw [if_pos above] at failed
        obtain ⟨⟨result, u⟩, hgrow, hmap⟩ := Option.map_eq_some_iff.mp failed
        have hresult : result = -1 := by
          by_contra hne
          simp only [if_neg hne, Prod.mk.injEq] at hmap
          exact absurd hmap.1 (by decide)
        simp only [if_pos hresult, Prod.mk.injEq, true_and] at hmap
        subst hmap
        generalize hcount : (((addr &&& ~~~0xfff) - s.kheapLastPage) >>> 12).toNat = n at hgrow
        have hlt : n < 2 ^ 20 := by
          rw [← hcount, BitVec.toNat_ushiftRight, Nat.shiftRight_eq_div_pow]
          omega
        obtain ⟨hbreak, _, k, hle, hlast, _, hmoved⟩ := growHeap_moves hgrow
        have hpos : 0 < n := by
          rw [Nat.pos_iff_ne_zero]
          rintro rfl
          cases hgrow
          cases hresult
        constructor
        · intro unchanged
          refine Or.inr ((ballocGet_null_iff _).mp ?_)
          by_contra nonnull
          have hk := hmoved hpos nonnull
          have hfix := congrArg BitVec.toNat (hlast.symm.trans unchanged.kheapLastPage)
          have hpage : kernelPageSize.toNat = 4096 := rfl
          rw [BitVec.toNat_add, BitVec.toNat_mul, BitVec.toNat_ofNat, hpage] at hfix
          have hbound := s.kheapLastPage.isLt
          omega
        · rintro (h | hfull)
          · exact absurd h past
          · have null := (ballocGet_null_iff _).mpr hfull
            obtain ⟨n, rfl⟩ : ∃ m, n = m + 1 := ⟨n - 1, by omega⟩
            have hnone : ballocGet s.machine.balloc = (0, s.machine.balloc) := if_pos hfull
            simp only [growHeap, takeBlock, hnone] at hgrow
            cases hgrow
            exact ⟨rfl, rfl, rfl, rfl, rfl⟩
      · simp only [if_neg above, Option.some.injEq, Prod.mk.injEq] at failed
        exact absurd failed.1 (by decide)

/-- All tables of the window exist, and two blocks are free. -/
def scarceSpace : Machine :=
  { HeapWindow.tabledSpace with
    balloc := { HeapWindow.tabledSpace.balloc with
      mBmp := fun i => if i = 5 then 0xfffffffc else 0xffffffff
      freeBlocks := 2 } }

/-- Continue where `kspace_initialize` ends. -/
def fromBoot {α : Type} (boot : Kspace) (f : Kspace → Option α) : Option α :=
  (kspaceInitialize boot).bind fun
    | .error _ => none
    | .ok start => f start

theorem fromBoot_some {α : Type} {boot : Kspace} {f : Kspace → Option α} {x : α}
    (h : fromBoot boot f = some x) :
    ∃ start, kspaceInitialize boot = some (.ok start) ∧ f start = some x := by
  obtain ⟨initialized, hinit, hf⟩ := Option.bind_eq_some_iff.mp h
  cases initialized with
  | error message => cases hf
  | ok start => exact ⟨start, hinit, hf⟩

def scarceKernel : Kspace where
  machine := scarceSpace
  kernelBreak := 0xc0050000
  kheapLastPage := 0xcffff000
  kheapBase := 0
  errno := 0

/-- The heap takes one of the two blocks, an extension by two pages the other one, and then
there is none left for an extension by one page. -/
theorem scarce_calls : ∃ start s t, kspaceInitialize scarceKernel = some (.ok start) ∧
    start.kheapLastPage = 0xd0000000 ∧ kspaceBrk start 0xd0002000 = some (-1, s) ∧
    s.kernelBreak = 0xd0000000 ∧ s.kheapLastPage = 0xd0001000 ∧
    blockAllocFirstFree s.machine.balloc = 0 ∧ kspaceBrk s 0xd0002000 = some (-1, t) := by
  have hrun : (fromBoot scarceKernel fun start =>
      (kspaceBrk start 0xd0002000).bind fun call =>
        (kspaceBrk call.2 0xd0002000).map fun again =>
          (start.kheapLastPage, call.1, call.2.kernelBreak, call.2.kheapLastPage,
            blockAllocFirstFree call.2.machine.balloc, again.1)) =
      some (0xd0000000, -1, 0xd0000000, 0xd0001000, 0, -1) := by decide +kernel
  obtain ⟨start, hinit, hrun⟩ := fromBoot_some hrun
  obtain ⟨⟨r, s⟩, hbrk, hrun⟩ := Option.bind_eq_some_iff.mp hrun
  obtain ⟨⟨r', t⟩, hbrk', hrun⟩ := Option.map_eq_some_iff.mp hrun
  simp only [Prod.mk.injEq] at hrun
  obtain ⟨hstart, rfl, hbreak, hlast, hfull, rfl⟩ := hrun
  exact ⟨start, s, t, hinit, hstart, hbrk, hbreak, hlast, hfull, hbrk'⟩

/-- Without a free block nothing is changed. -/
theorem empty_pool_unchanged : ∃ s t, kspaceBrk s 0xd0002000 = some (-1, t) ∧ Unchanged s t := by
  obtain ⟨_, s, t, _, _, _, _, _, hfull, hbrk⟩ := scarce_calls
  exact ⟨s, t, hbrk, (failed_unchanged_iff hbrk).mpr (Or.inr hfull)⟩

/-- With a block for the first of two pages, the last page moves. -/
theorem half_extension_kept : ¬ ∀ (boot start t : Kspace) (addr : U32),
    kspaceInitialize boot = some (.ok start) → kspaceBrk start addr = some (-1, t) →
      Unchanged start t := by
  intro atomic
  obtain ⟨start, s, _, hinit, hstart, hbrk, _, hlast, _⟩ := scarce_calls
  have hsame := (atomic scarceKernel start s 0xd0002000 hinit hbrk).kheapLastPage
  rw [hstart, hlast] at hsame
  exact absurd hsame (by decide)

inductive Event where
  | brk (addr : U32) (result : Int)
  | sbrk (increment ret : U32)
  | other

/-- Between two calls the rest of the kernel may do anything to memory, page tables and
bitmap. -/
inductive Step : Kspace → Event → Kspace → Prop
  | brk {s t : Kspace} {addr : U32} {result : Int} : kspaceBrk s addr = some (result, t) →
      Step s (.brk addr result) t
  | sbrk {s t : Kspace} {increment ret : U32} : kspaceSbrk s increment = some (ret, t) →
      Step s (.sbrk increment ret) t
  | other {s : Kspace} (machine : Machine) : Step s .other { s with machine := machine }

/-- The states of the heap from `kspace_initialize` on. -/
def Reachable (s : Kspace) : Prop :=
  ∃ boot start events, kspaceInitialize boot = some (.ok start) ∧ Run Step start events s

theorem initialize_break {boot start : Kspace}
    (h : kspaceInitialize boot = some (.ok start)) :
    start.kernelBreak = kheapPageStart ∧ start.kheapLastPage = kheapPageStart := by
  by_cases null : (ballocGet boot.machine.balloc).1 = 0
  · simp only [kspaceInitialize, if_pos null, Option.some.injEq, reduceCtorEq] at h
  · simp only [kspaceInitialize, if_neg null] at h
    obtain ⟨mapped, _, hstart⟩ := Option.map_eq_some_iff.mp h
    cases hstart
    exact ⟨rfl, rfl⟩

theorem initialize_cursors {boot start : Kspace}
    (h : kspaceInitialize boot = some (.ok start)) : Cursors start := by
  obtain ⟨hbreak, hlast⟩ := initialize_break h
  have halign : kheapPageStart.toNat % 4096 = 0 := rfl
  have hmin : 0xd0000000 ≤ kheapPageStart.toNat := by decide
  have hmax : kheapPageStart.toNat ≤ 0xeffff000 := by decide
  constructor
  · rw [hlast]
    exact halign
  · rw [hlast]
    exact hmin
  · rw [hlast]
    exact hmax
  · rw [hbreak]
    exact hmax
  · rw [hbreak, hlast]

theorem step_cursors {s t : Kspace} {event : Event} (cursors : Cursors s)
    (h : Step s event t) : Cursors t := by
  cases h with
  | brk h => exact (cursors.brk h).1
  | sbrk h =>
    obtain ⟨⟨result, u⟩, hbrk, hmap⟩ := Option.map_eq_some_iff.mp h
    obtain ⟨cursors', _⟩ := cursors.brk hbrk
    by_cases failed : result ≠ 0
    · simp only [if_pos failed] at hmap
      cases hmap
      exact ⟨cursors'.aligned, cursors'.start_le, cursors'.last_le, cursors'.break_le,
        cursors'.break_page⟩
    · simp only [if_neg failed] at hmap
      cases hmap
      exact cursors'
  | other machine =>
    exact ⟨cursors.aligned, cursors.start_le, cursors.last_le, cursors.break_le,
      cursors.break_page⟩

theorem Reachable.cursors {s : Kspace} (h : Reachable s) : Cursors s := by
  obtain ⟨boot, start, events, initialized, run⟩ := h
  exact run.invariant (I := Cursors) (fun _ _ _ cursors h => step_cursors cursors h)
    (initialize_cursors initialized)

/-- A reported success of `kspace_brk` moves the break. -/
def MovesBreak (s : Kspace) (addr : U32) : Prop :=
  ∀ t, kspaceBrk s addr = some (0, t) → t.kernelBreak = addr

/-- A successful `kspace_sbrk` moves the break by its increment. -/
def MovesBy (s : Kspace) (increment : U32) : Prop :=
  ∀ ret t, kspaceSbrk s increment = some (ret, t) → ret ≠ 0xffffffff →
    t.kernelBreak.toNat = ret.toNat + increment.toNat

theorem movesBreak_iff {s : Kspace} (cursors : Cursors s) (addr : U32) :
    MovesBreak s addr ↔ pageOf s.kheapLastPage ≤ pageOf addr ∨ addr = s.kernelBreak := by
  constructor
  · intro moves
    by_cases behind : pageOf addr < pageOf s.kheapLastPage
    · exact Or.inr (moves s (cursors.behind behind)).symm
    · exact Or.inl (not_lt.mp behind)
  · intro ahead t h
    rcases (cursors.brk h).2 with ⟨failed, _⟩ | ⟨_, _, hbreak, _⟩ | ⟨_, behind, hsame⟩
    · exact absurd failed (by decide)
    · exact hbreak
    · rw [hsame]
      rcases ahead with hle | heq
      · exact absurd hle (not_le.mpr behind)
      · exact heq.symm

/-- A call of `kspace_sbrk` that ends in one of the two silent ways returns the break. -/
theorem sbrk_returns {s t : Kspace} {increment : U32}
    (h : kspaceBrk s (s.kernelBreak + increment) = some (0, t)) :
    kspaceSbrk s increment = some (s.kernelBreak, t) := by
  rw [kspaceSbrk, h]
  rfl

theorem movesBy_iff {s : Kspace} (cursors : Cursors s) (increment : U32) :
    MovesBy s increment ↔ Ahead s ⟨increment, s.kernelBreak⟩ := by
  have hbreak := cursors.break_le
  have hpage := cursors.break_page
  have hlt := increment.isLt
  have hok := cursors.break_ne
  constructor
  · intro moves
    by_cases hzero : increment = 0
    · exact Or.inl hzero
    · have hpos : 0 < increment.toNat := by
        rw [Nat.pos_iff_ne_zero]
        exact fun h => hzero (BitVec.eq_of_toNat_eq h)
      have sum := BitVec.toNat_add s.kernelBreak increment
      have notBehind : ¬ pageOf (s.kernelBreak + increment) < pageOf s.kheapLastPage := by
        intro behind
        have hmoved := moves _ _ (sbrk_returns (cursors.behind behind)) hok
        omega
      have fits : s.kernelBreak.toNat + increment.toNat < 2 ^ 32 := by
        by_contra wraps
        have hsum : (s.kernelBreak + increment).toNat < s.kernelBreak.toNat := by omega
        have inRange : ¬ s.kernelBreak + increment > kheapPageMax := by
          rw [gt_iff_lt, BitVec.lt_def, kheapPageMax_toNat]
          omega
        have hsame : pageOf (s.kernelBreak + increment) = pageOf s.kheapLastPage := by
          rw [pageOf, pageOf] at *
          omega
        have hwithin := brk_within inRange ((cursors.classes _).1.mpr hsame)
        have hmoved := moves _ _ (sbrk_returns hwithin) hok
        dsimp only at hmoved
        omega
      refine Or.inr ⟨fits, Or.inr ?_⟩
      rw [Nat.mod_eq_of_lt fits] at sum
      rw [pageOf, sum] at notBehind
      exact not_lt.mp notBehind
  · intro ahead ret t h hret
    have hsum := ahead.moved
    obtain ⟨⟨result, u⟩, hbrk, hmap⟩ := Option.map_eq_some_iff.mp h
    rcases (cursors.brk hbrk).2 with ⟨rfl, _⟩ | ⟨rfl, _, hmoved, _⟩ | ⟨rfl, behind, hsame⟩
    · cases hmap
      exact absurd rfl hret
    · cases hmap
      rw [hmoved, hsum]
    · cases hmap
      have hzero : increment = 0 := ahead.not_behind cursors.last_le behind
      rw [hsame, hzero]
      rfl

/-- In every state of the heap, success moves the break exactly for addresses that are not
behind the last page (or are the break), and increments that stay ahead of it. -/
theorem break_moved_iff {s : Kspace} (reachable : Reachable s) :
    (∀ addr, MovesBreak s addr ↔ pageOf s.kheapLastPage ≤ pageOf addr ∨ addr = s.kernelBreak) ∧
      ∀ increment, MovesBy s increment ↔ Ahead s ⟨increment, s.kernelBreak⟩ :=
  ⟨movesBreak_iff reachable.cursors, movesBy_iff reachable.cursors⟩

/-- Right after `kspace_initialize`. -/
theorem first_break_moves : ∃ start, Reachable start ∧ MovesBreak start 0xd0000800 := by
  obtain ⟨start, _, _, hinit, hlast, _⟩ := scarce_calls
  have reachable : Reachable start := ⟨scarceKernel, start, [], hinit, .nil start⟩
  refine ⟨start, reachable, ((break_moved_iff reachable).1 _).mpr (Or.inl ?_)⟩
  rw [hlast]
  decide

/-- After a failed extension the last page is ahead of the break, and the break stays where it
is within its page. -/
theorem move_behind_ignored : ¬ ∀ (s : Kspace) (addr : U32), Reachable s → MovesBreak s addr := by
  intro moves
  obtain ⟨start, s, _, hinit, _, hbrk, hbreak, hlast, _⟩ := scarce_calls
  have reachable : Reachable s :=
    ⟨scarceKernel, start, [.brk 0xd0002000 (-1)], hinit, .cons (.brk hbrk) (.nil s)⟩
  have behind : pageOf 0xd0000800 < pageOf s.kheapLastPage := by
    rw [hlast]
    decide
  have hmoved := moves s 0xd0000800 reachable s (reachable.cursors.behind behind)
  rw [hbreak] at hmoved
  exact absurd hmoved (by decide)

end BreakCalls
