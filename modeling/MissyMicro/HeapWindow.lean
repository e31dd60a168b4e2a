import MissyMicro.KernelSpace

/-!
# The pages of the heap window

`kspace_brk` asks two services for its pages: `balloc_get` and
`vmmngr_map_page`. Here the two are taken by what they promise, a fresh block or
NULL and one more page in a finite map. The heap window then holds a growing run
of mapped pages, each with a block of its own. The page tables keep these promises
once the tables of the window exist.
-/

namespace HeapWindow

open BlockAllocator Mmu PageTables PageMapping KernelSpace TransitionRuns

universe u

/-- What the heap calls; a fault has no result. -/
structure Services (σ : Type u) where
  ballocGet : σ → U32 × σ
  ballocFree : σ → U32 → σ
  vmmngrMapPage : σ → U32 → U32 → Option (Int × σ)

structure Heap (σ : Type u) where
  system : σ
  kernelBreak : U32
  kheapLastPage : U32
  kheapBase : U32
  errno : U32

section Model

variable {σ : Type u} (S : Services σ)

def kspaceInitialize (s : Heap σ) : Option (Except String (Heap σ)) :=
  let kheapBase := (S.ballocGet s.system).1
  let s := { s with system := (S.ballocGet s.system).2, kheapBase := kheapBase }
  if kheapBase = 0 then some (.error "Failed to allocate space for kernel heap")
  else
    (S.vmmngrMapPage s.system kheapBase kheapPageStart).map fun mapped =>
      .ok { s with system := mapped.2, kernelBreak := kheapPageStart,
                   kheapLastPage := kheapPageStart }

/-- The loop of `kspace_brk`, with its number of turns left. -/
def growHeap : Nat → Heap σ → Option (Int × Heap σ)
  | 0, s => some (0, s)
  | n + 1, s =>
    let kheapBlock := (S.ballocGet s.system).1
    let s := { s with system := (S.ballocGet s.system).2 }
    if kheapBlock = 0 then some (-1, { s with errno := enomem })
    else
      let s := { s with kheapLastPage := s.kheapLastPage + kernelPageSize }
      match S.vmmngrMapPage s.system kheapBlock s.kheapLastPage with
      | none => none
      | some (result, system) =>
        if result = -1 then
          some (-1, { s with system := S.ballocFree system kheapBlock, errno := enomem })
        else growHeap n { s with system := system }

def kspaceBrk (s : Heap σ) (addr : U32) : Option (Int × Heap σ) :=
  let bp := addr
  if bp > kheapPageMax then some (-1, { s with errno := enomem })
  else if bp &&& ~~~0xfff = s.kheapLastPage then some (0, { s with kernelBreak := bp })
  else if bp &&& ~~~0xfff > s.kheapLastPage then
    let nblocks := ((bp &&& ~~~0xfff) - s.kheapLastPage) >>> 12
    (growHeap S nblocks.toNat s).map fun (result, s) =>
      if result = -1 then (-1, s) else (0, { s with kernelBreak := bp })
  else some (0, s)

variable {S} {n : Nat} {s : Heap σ}

theorem growHeap_null (h : (S.ballocGet s.system).1 = 0) :
    growHeap S (n + 1) s =
      some (-1, { s with system := (S.ballocGet s.system).2, errno := enomem }) :=
  if_pos h

theorem growHeap_fault (h : (S.ballocGet s.system).1 ≠ 0)
    (mapped : S.vmmngrMapPage (S.ballocGet s.system).2 (S.ballocGet s.system).1
      (s.kheapLastPage + kernelPageSize) = none) :
    growHeap S (n + 1) s = none := by
  simp only [growHeap, if_neg h, mapped]

theorem growHeap_refused (h : (S.ballocGet s.system).1 ≠ 0) {system : σ}
    (mapped : S.vmmngrMapPage (S.ballocGet s.system).2 (S.ballocGet s.system).1
      (s.kheapLastPage + kernelPageSize) = some (-1, system)) :
    growHeap S (n + 1) s = some (-1, { s with
      system := S.ballocFree system (S.ballocGet s.system).1, errno := enomem,
      kheapLastPage := s.kheapLastPage + kernelPageSize }) := by
  simp only [growHeap, if_neg h, mapped, if_true]

theorem growHeap_mapped (h : (S.ballocGet s.system).1 ≠ 0) {result : Int} {system : σ}
    (mapped : S.vmmngrMapPage (S.ballocGet s.system).2 (S.ballocGet s.system).1
      (s.kheapLastPage + kernelPageSize) = some (result, system)) (ok : result ≠ -1) :
    growHeap S (n + 1) s = growHeap S n
      { s with system := system, kheapLastPage := s.kheapLastPage + kernelPageSize } := by
  simp only [growHeap, if_neg h, mapped, if_neg ok]

variable {bp : U32}

theorem brk_past (past : bp > kheapPageMax) :
    kspaceBrk S s bp = some (-1, { s with errno := enomem }) :=
  if_pos past

section InRange

variable (inRange : ¬ bp > kheapPageMax)

include inRange

theorem brk_within (same : bp &&& ~~~0xfff = s.kheapLastPage) :
    kspaceBrk S s bp = some (0, { s with kernelBreak := bp }) := by
  rw [kspaceBrk, if_neg inRange, if_pos same]

variable (other : ¬ bp &&& ~~~0xfff = s.kheapLastPage)

include other

theorem brk_beyond (above : bp &&& ~~~0xfff > s.kheapLastPage) :
    kspaceBrk S s bp =
      (growHeap S (((bp &&& ~~~0xfff) - s.kheapLastPage) >>> 12).toNat s).map fun (result, s) =>
        if result = -1 then (-1, s) else (0, { s with kernelBreak := bp }) := by
  rw [kspaceBrk, if_neg inRange, if_neg other, if_pos above]

theorem brk_behind (behind : ¬ bp &&& ~~~0xfff > s.kheapLastPage) :
    kspaceBrk S s bp = some (0, s) := by
  rw [kspaceBrk, if_neg inRange, if_neg other, if_neg behind]

end InRange

end Model

def machineServices : Services Machine where
  ballocGet m := ((ballocGet m.balloc).1, takeBlock m)
  ballocFree := giveBlock
  vmmngrMapPage := PageTables.vmmngrMapPage

def ofKspace (s : Kspace) : Heap Machine :=
  ⟨s.machine, s.kernelBreak, s.kheapLastPage, s.kheapBase, s.errno⟩

theorem growHeap_machine (n : Nat) (s : Kspace) :
    growHeap machineServices n (ofKspace s) =
      (KernelSpace.growHeap n s).map (Prod.map id ofKspace) := by
  induction n generalizing s with
  | zero => rfl
  | succ n ih =>
    by_cases hnull : (ballocGet s.machine.balloc).1 = 0
    · have hmachine : KernelSpace.growHeap (n + 1) s =
          some (-1, { s with machine := takeBlock s.machine, errno := enomem }) := if_pos hnull
      rw [@growHeap_null _ machineServices _ (ofKspace s) hnull, hmachine]
      rfl
    · simp only [KernelSpace.growHeap, if_neg hnull]
      cases hmap : PageTables.vmmngrMapPage (takeBlock s.machine) (ballocGet s.machine.balloc).1
          (s.kheapLastPage + kernelPageSize) with
      | none => exact @growHeap_fault _ machineServices _ (ofKspace s) hnull hmap
      | some mapped =>
        obtain ⟨result, m⟩ := mapped
        by_cases failed : result = -1
        · subst result
          rw [@growHeap_refused _ machineServices _ (ofKspace s) hnull _ hmap]
          rfl
        · rw [@growHeap_mapped _ machineServices _ (ofKspace s) hnull _ _ hmap failed]
          simp only [if_neg failed]
          exact ih { s with machine := m, kheapLastPage := s.kheapLastPage + kernelPageSize }

/-- The break of the kernel is the break over its own services. -/
theorem kspaceBrk_machine (s : Kspace) (addr : U32) :
    kspaceBrk machineServices (ofKspace s) addr =
      (KernelSpace.kspaceBrk s addr).map (Prod.map id ofKspace) := by
  rw [KernelSpace.kspaceBrk]
  by_cases past : addr > kheapPageMax
  · rw [@brk_past _ machineServices (ofKspace s) _ past, if_pos past]
    rfl
  · rw [if_neg past]
    by_cases same : addr &&& ~~~0xfff = s.kheapLastPage
    · rw [@brk_within _ machineServices (ofKspace s) _ past same, if_pos same]
      rfl
    · rw [if_neg same]
      by_cases above : addr &&& ~~~0xfff > s.kheapLastPage
      · rw [@brk_beyond _ machineServices (ofKspace s) _ past same above, if_pos above]
        rw [growHeap_machine, Option.map_map, Option.map_map]
        congr 1
        funext r
        rcases r with ⟨result, t⟩
        by_cases failed : result = -1
        · simp only [Function.comp_apply, Prod.map, id, if_pos failed]
        · simp only [Function.comp_apply, Prod.map, id, if_neg failed]
          rfl
      · rw [@brk_behind _ machineServices (ofKspace s) _ past same above, if_neg above]
        rfl

/-- So is the start of its heap. -/
theorem kspaceInitialize_machine (s : Kspace) :
    kspaceInitialize machineServices (ofKspace s) =
      (KernelSpace.kspaceInitialize s).map (Except.map ofKspace) := by
  rw [KernelSpace.kspaceInitialize, kspaceInitialize]
  by_cases null : (ballocGet s.machine.balloc).1 = 0
  · rw [if_pos null]
    exact if_pos null
  · rw [if_neg null, Option.map_map]
    exact if_neg null
/-- `block` is the finite map from pages to the frames of their blocks, and `used` the
blocks marked used. `valid` is what has to hold of a state for the promises to be kept. -/
structure FiniteMap {σ : Type u} (S : Services σ) where
  valid : σ → Prop
  block : σ → Nat → Option Nat
  used : σ → Nat → Prop
  get_valid : ∀ s, valid s → valid (S.ballocGet s).2
  get_block : ∀ s, valid s → block (S.ballocGet s).2 = block s
  get_keeps : ∀ s c, valid s → used s c → used (S.ballocGet s).2 c
  get_fresh : ∀ s, valid s → (S.ballocGet s).1 ≠ 0 → ¬ used s (frameOf (S.ballocGet s).1) ∧
    used (S.ballocGet s).2 (frameOf (S.ballocGet s).1)
  map_new : ∀ s blk virt, valid s → 0xd0000 ≤ pageOf virt → pageOf virt ≤ 0xeffff →
    block s (pageOf virt) = none → ∃ t, S.vmmngrMapPage s blk virt = some (0, t) ∧ valid t ∧
      block t = Function.update (block s) (pageOf virt) (some (frameOf blk)) ∧
      ∀ c, used s c → used t c

/-- The claimed window: every page up to the last one has a block of its own. -/
structure Window {σ : Type u} {S : Services σ} (F : FiniteMap S) (s : Heap σ) : Prop where
  start_le : 0xd0000000 ≤ s.kernelBreak.toNat
  break_lt : s.kernelBreak.toNat < s.kheapLastPage.toNat + 4096
  last_le : s.kheapLastPage.toNat ≤ kheapPageMax.toNat
  mapped : ∀ v, 0xd0000 ≤ v → v ≤ pageOf s.kheapLastPage →
    ∃ c, F.block s.system v = some c ∧ F.used s.system c
  distinct : ∀ v v', 0xd0000 ≤ v → v ≤ pageOf s.kheapLastPage → 0xd0000 ≤ v' →
    v' ≤ pageOf s.kheapLastPage → F.block s.system v = F.block s.system v' → v = v'

/-- What a call needs besides: whole pages, and nothing mapped yet behind the last one. -/
structure Growable {σ : Type u} {S : Services σ} (F : FiniteMap S) (s : Heap σ) : Prop where
  window : Window F s
  valid : F.valid s.system
  aligned : s.kheapLastPage.toNat % 4096 = 0
  start_le_last : 0xd0000000 ≤ s.kheapLastPage.toNat
  unmapped : ∀ v, pageOf s.kheapLastPage < v → v ≤ 0xeffff → F.block s.system v = none

section Promises

variable {σ : Type u} {S : Services σ} {F : FiniteMap S} {s : Heap σ}

theorem Growable.withErrno (inv : Growable F s) (e : U32) : Growable F { s with errno := e } :=
  ⟨⟨inv.window.start_le, inv.window.break_lt, inv.window.last_le, inv.window.mapped,
    inv.window.distinct⟩, inv.valid, inv.aligned, inv.start_le_last, inv.unmapped⟩

theorem Growable.moveBreak (inv : Growable F s) {bp : U32} (start_le : 0xd0000000 ≤ bp.toNat)
    (break_lt : bp.toNat < s.kheapLastPage.toNat + 4096) :
    Growable F { s with kernelBreak := bp } :=
  ⟨⟨start_le, break_lt, inv.window.last_le, inv.window.mapped, inv.window.distinct⟩, inv.valid,
    inv.aligned, inv.start_le_last, inv.unmapped⟩

/-- `balloc_get` touches no page. -/
theorem Growable.take (inv : Growable F s) :
    Growable F { s with system := (S.ballocGet s.system).2 } := by
  have hblock := F.get_block _ inv.valid
  refine ⟨⟨inv.window.start_le, inv.window.break_lt, inv.window.last_le, ?_, ?_⟩,
    F.get_valid _ inv.valid, inv.aligned, inv.start_le_last, ?_⟩
  · intro v hlo hhi
    obtain ⟨c, hc, used⟩ := inv.window.mapped v hlo hhi
    exact ⟨c, (congrFun hblock v).trans hc, F.get_keeps _ c inv.valid used⟩
  · intro v v' hlo hhi hlo' hhi' heq
    rw [hblock] at heq
    exact inv.window.distinct v v' hlo hhi hlo' hhi' heq
  · intro v hlo hhi
    exact (congrFun hblock v).trans (inv.unmapped v hlo hhi)

/-- One turn of the loop: a fresh block is mapped behind the last page. -/
theorem Growable.grow (inv : Growable F s) (nonnull : (S.ballocGet s.system).1 ≠ 0)
    (fits : s.kheapLastPage.toNat + 4096 ≤ 0xeffff000) :
    ∃ t, S.vmmngrMapPage (S.ballocGet s.system).2 (S.ballocGet s.system).1
        (s.kheapLastPage + kernelPageSize) = some (0, t) ∧
      Growable F { s with system := t, kheapLastPage := s.kheapLastPage + kernelPageSize } := by
  have taken := inv.take
  have hlast := last_succ fits
  have hpage := pageOf_succ fits
  have hstart := inv.start_le_last
  have halign := inv.aligned
  have hlo : 0xd0000 ≤ pageOf (s.kheapLastPage + kernelPageSize) := by
    rw [pageOf, hlast]
    omega
  have hhi : pageOf (s.kheapLastPage + kernelPageSize) ≤ 0xeffff := by
    rw [pageOf, hlast]
    omega
  have hbehind : pageOf s.kheapLastPage < pageOf (s.kheapLastPage + kernelPageSize) := by
    rw [hpage]
    exact Nat.lt_succ_self _
  obtain ⟨unused, used⟩ := F.get_fresh _ inv.valid nonnull
  obtain ⟨t, hmap, valid, hblock, keeps⟩ := F.map_new _ (S.ballocGet s.system).1 _ taken.valid
    hlo hhi (taken.unmapped _ hbehind hhi)
  have here : F.block t (pageOf (s.kheapLastPage + kernelPageSize)) =
      some (frameOf (S.ballocGet s.system).1) := by
    rw [hblock, Function.update_self]
  have old {v : Nat} (hv : v ≤ pageOf s.kheapLastPage) : F.block t v = F.block s.system v := by
    rw [hblock, Function.update_of_ne (by omega), F.get_block _ inv.valid]
  have apart {v : Nat} (hv : 0xd0000 ≤ v) (hv' : v ≤ pageOf s.kheapLastPage) :
      F.block t v ≠ some (frameOf (S.ballocGet s.system).1) := by
    intro heq
    obtain ⟨c, hc, hused⟩ := inv.window.mapped v hv hv'
    rw [old hv', hc] at heq
    exact unused (Option.some.inj heq ▸ hused)
  refine ⟨t, hmap, ⟨inv.window.start_le, ?_, ?_, ?_, ?_⟩, valid, ?_, ?_, ?_⟩
  · rw [hlast]
    exact inv.window.break_lt.trans (Nat.lt_add_of_pos_right (by omega))
  · rw [hlast, kheapPageMax_toNat]
    exact fits
  · intro v hv hv'
    rcases Nat.lt_or_eq_of_le hv' with hlt | rfl
    · rw [hpage] at hlt
      obtain ⟨c, hc, hused⟩ := inv.window.mapped v hv (by omega)
      refine ⟨c, (old (by omega)).trans hc, keeps c (F.get_keeps _ c inv.valid hused)⟩
    · exact ⟨_, here, keeps _ used⟩
  · intro v v' hv hv' hw hw' heq
    rw [hpage] at hv' hw'
    rcases Nat.lt_or_eq_of_le hv' with hlt | rfl
    · rcases Nat.lt_or_eq_of_le hw' with hlt' | rfl
      · rw [old (by omega), old (by omega)] at heq
        exact inv.window.distinct v v' hv (by omega) hw (by omega) heq
      · rw [← hpage, here] at heq
        exact absurd heq (apart hv (by omega))
    · rcases Nat.lt_or_eq_of_le hw' with hlt' | rfl
      · rw [← hpage, here] at heq
        exact absurd heq.symm (apart hw (by omega))
      · rfl
  · rw [hlast]
    omega
  · rw [hlast]
    omega
  · intro v hv hv'
    change pageOf (s.kheapLastPage + kernelPageSize) < v at hv
    rw [hblock, Function.update_of_ne hv.ne']
    exact taken.unmapped v (hbehind.trans hv) hv'

/-- The loop maps page after page until no block is left. -/
theorem growHeap_grows {n : Nat} {s : Heap σ} (inv : Growable F s)
    (fits : s.kheapLastPage.toNat + n * 4096 ≤ 0xeffff000) :
    ∃ result t, growHeap S n s = some (result, t) ∧ Growable F t ∧
      (result = -1 ∨
        result = 0 ∧ t.kheapLastPage.toNat = s.kheapLastPage.toNat + n * 4096) := by
  induction n generalizing s with
  | zero => exact ⟨0, s, rfl, inv, Or.inr ⟨rfl, by omega⟩⟩
  | succ n ih =>
    by_cases nonnull : (S.ballocGet s.system).1 = 0
    · exact ⟨-1, _, growHeap_null nonnull, inv.take.withErrno enomem, Or.inl rfl⟩
    · have hfits : s.kheapLastPage.toNat + 4096 ≤ 0xeffff000 := by omega
      obtain ⟨u, hmap, inv'⟩ := inv.grow nonnull hfits
      have hlast := last_succ hfits
      obtain ⟨result, t, hgrow, inv'', hres⟩ := ih inv' (by
        rw [hlast]
        omega)
      refine ⟨result, t, (growHeap_mapped nonnull hmap (by omega)).trans hgrow, inv'', ?_⟩
      rcases hres with failed | ⟨done, hnew⟩
      · exact Or.inl failed
      · refine Or.inr ⟨done, ?_⟩
        rw [hnew, hlast]
        omega

theorem Growable.last_eq (inv : Growable F s) :
    s.kheapLastPage.toNat = pageOf s.kheapLastPage * 4096 := by
  have halign := inv.aligned
  rw [pageOf]
  omega

/-- Every exit of `kspace_brk` leaves the window whole. -/
theorem brk_growable (inv : Growable F s) (bp : U32) :
    ∃ result t, kspaceBrk S s bp = some (result, t) ∧ Growable F t := by
  have hstart := inv.start_le_last
  have hlast := inv.last_eq
  have hmask := masked_toNat bp
  have hfloor : pageOf bp * 4096 ≤ bp.toNat := Nat.div_mul_le_self _ _
  have hceil : bp.toNat < pageOf bp * 4096 + 4096 := by
    rw [pageOf]
    omega
  by_cases past : bp > kheapPageMax
  · exact ⟨-1, _, brk_past past, inv.withErrno enomem⟩
  · by_cases same : bp &&& ~~~0xfff = s.kheapLastPage
    · rw [same] at hmask
      exact ⟨0, _, brk_within past same, inv.moveBreak (by omega) (by omega)⟩
    · by_cases above : bp &&& ~~~0xfff > s.kheapLastPage
      · have hle : bp.toNat ≤ 0xeffff000 := by
          rw [gt_iff_lt, BitVec.lt_def, kheapPageMax_toNat] at past
          omega
        have habove := BitVec.lt_def.mp above
        rw [hmask] at habove
        have hcount : (((bp &&& ~~~0xfff) - s.kheapLastPage) >>> 12).toNat =
            pageOf bp - pageOf s.kheapLastPage := nblocks_toNat hlast above
        obtain ⟨result, t, hgrow, inv', hres⟩ := growHeap_grows inv
          (show s.kheapLastPage.toNat + (pageOf bp - pageOf s.kheapLastPage) * 4096 ≤ 0xeffff000 by
            omega)
        rcases hres with failed | ⟨done, hnew⟩
        · refine ⟨-1, t, ?_, inv'⟩
          rw [brk_beyond past same above, hcount, hgrow, Option.map_some]
          simp only [if_pos failed]
        · have hne : ¬ result = -1 := by
            rw [done]
            decide
          refine ⟨0, { t with kernelBreak := bp }, ?_, inv'.moveBreak (by omega) (by omega)⟩
          rw [brk_beyond past same above, hcount, hgrow, Option.map_some]
          simp only [if_neg hne]
      · exact ⟨0, s, brk_behind past same above, inv⟩

section Initialize

variable (valid : F.valid s.system)
  (unmapped : ∀ v, 0xd0000 ≤ v → v ≤ 0xeffff → F.block s.system v = none)

include valid unmapped

theorem initialize_opens (nonnull : (S.ballocGet s.system).1 ≠ 0) :
    ∃ start, kspaceInitialize S s = some (.ok start) ∧ Growable F start := by
  have hblock := F.get_block _ valid
  have hpage : pageOf kheapPageStart = 0xd0000 := rfl
  have hstart : kheapPageStart.toNat = 0xd0000000 := rfl
  obtain ⟨_, used⟩ := F.get_fresh _ valid nonnull
  obtain ⟨t, hmap, valid', hblock', keeps⟩ := F.map_new _ (S.ballocGet s.system).1 kheapPageStart
    (F.get_valid _ valid) (le_refl _) (by omega)
    ((congrFun hblock _).trans (unmapped _ (le_refl _) (by omega)))
  have hone {v : Nat} (hlo : 0xd0000 ≤ v) (hhi : v ≤ pageOf kheapPageStart) :
      v = pageOf kheapPageStart := le_antisymm hhi hlo
  refine ⟨{ s with system := t, kheapBase := (S.ballocGet s.system).1,
                   kernelBreak := kheapPageStart, kheapLastPage := kheapPageStart }, ?_,
    ⟨hstart.ge, ?_, ?_, ?_, ?_⟩, valid', ?_, hstart.ge, ?_⟩
  · simp only [kspaceInitialize, if_neg nonnull, hmap, Option.map_some]
  · rw [hstart]
    decide
  · rw [hstart]
    decide
  · intro v hlo hhi
    rw [hone hlo hhi, hblock', Function.update_self]
    exact ⟨_, rfl, keeps _ used⟩
  · intro v v' hlo hhi hlo' hhi' _
    rw [hone hlo hhi, hone hlo' hhi']
  · rw [hstart]
  · intro v hlo hhi
    change pageOf kheapPageStart < v at hlo
    rw [hblock', Function.update_of_ne hlo.ne', hblock]
    exact unmapped v (le_of_lt hlo) hhi

theorem initialize_growable {start : Heap σ} (h : kspaceInitialize S s = some (.ok start)) :
    Growable F start := by
  by_cases nonnull : (S.ballocGet s.system).1 = 0
  · simp only [kspaceInitialize, if_pos nonnull, Option.some.injEq, reduceCtorEq] at h
  · obtain ⟨start', h', inv⟩ := initialize_opens valid unmapped nonnull
    rw [h'] at h
    cases h
    exact inv

end Initialize

end Promises

structure BrkCall where
  addr : U32
  result : Int

def Step {σ : Type u} (S : Services σ) (s : Heap σ) (call : BrkCall) (t : Heap σ) : Prop :=
  kspaceBrk S s call.addr = some (call.result, t)

/-- Every table of the heap window exists. -/
def Tabled (m : Machine) : Prop := ∀ t, 832 ≤ t → t < 960 → Present (m.pde t)

theorem take_owned {m : Machine} (owned : Owned m) : Owned (takeBlock m) where
  window := ⟨owned.window.pdbr, owned.window.pdirVirtual, owned.window.present,
    owned.window.recursive⟩
  dirUsed := ballocGet_keeps owned.dirUsed
  used := fun t ht present => ballocGet_keeps (owned.used t ht present)
  apart := owned.apart
  distinct := owned.distinct

/-- A page of the window that is not mapped gets its block, and nothing else changes. -/
theorem map_window {m : Machine} (owned : Owned m) (tabled : Tabled m) (blk : U32) {virt : U32}
    (start_le : 0xd0000 ≤ pageOf virt) (le_max : pageOf virt ≤ 0xeffff)
    (unmapped : (translation m (pageOf virt)).map frameOf = none) :
    ∃ m', PageTables.vmmngrMapPage m blk virt = some (0, m') ∧ (Owned m' ∧ Tabled m') ∧
      (fun v => (translation m' v).map frameOf) =
        Function.update (fun v => (translation m v).map frameOf) (pageOf virt)
          (some (frameOf blk)) ∧
      ∀ c, m.balloc.MarkedUsed c → m'.balloc.MarkedUsed c := by
  have below : Below virt := by
    rw [Below]
    rw [pageOf] at le_max
    omega
  have hindex : 832 ≤ pdeIndex virt ∧ pdeIndex virt < 960 := by
    rw [pageOf] at start_le le_max
    rw [pdeIndex]
    omega
  have ht := below.pdeIndex_lt
  have present := tabled _ hindex.1 hindex.2
  have hnone : entry m (pdeIndex virt) (pteIndex virt) = none := by
    rw [← translation_page m below]
    exact Option.map_eq_none_iff.mp unmapped
  have taken : ¬ (Present (m.pde (pdeIndex virt)) ∧
      Present (m.pte (pdeIndex virt) (pteIndex virt))) := by
    intro h
    rw [entry, if_pos h] at hnone
    exact Option.some_ne_none _ hnone
  have hmap := @map_eq _ owned.window blk _ below (fun absent => absurd present absent)
  have hset : m.withTable (pdeIndex virt) = m := if_pos present
  rw [if_neg taken, hset] at hmap
  have hpde := setPte_pde owned ht present (p := pteIndex virt) (blk ||| 3)
  have hmasked : frameOf ((blk ||| 3) &&& ~~~0xfff) = frameOf blk := by
    have hmask : ((blk ||| 3) &&& ~~~0xfff).toNat = _ := masked_toNat (blk ||| 3)
    rw [frameOf, hmask, pageOf, Nat.mul_div_cancel _ (by omega)]
    exact frameOf_or_three blk
  refine ⟨_, hmap, ⟨setPte_owned owned ht present _, fun t hlo hhi => ?_⟩, ?_, fun c hc => hc⟩
  · rw [hpde]
    exact tabled t hlo hhi
  · have hupdate : translation (m.setPte (pdeIndex virt) (pteIndex virt) (blk ||| 3)) =
        Function.update (translation m) (frameOf virt) (some ((blk ||| 3) &&& ~~~0xfff)) := by
      apply translation_update below
      intro t p ht' _
      rw [setPte_entry owned ht present _ ht', if_pos (present_or_flags blk)]
    funext v
    rw [hupdate]
    by_cases heq : v = pageOf virt
    · subst v
      rw [Function.update_self, ← hmasked]
      exact congrArg (Option.map frameOf) (Function.update_self (pageOf virt) _ (translation m))
    · rw [Function.update_of_ne heq]
      exact congrArg (Option.map frameOf) (Function.update_of_ne heq _ (translation m))

/-- Once the tables of the window exist, `balloc_get` and `vmmngr_map_page` keep their
promises. -/
def machineMap : FiniteMap machineServices where
  valid m := Owned m ∧ Tabled m
  block m v := (translation m v).map frameOf
  used m := m.balloc.MarkedUsed
  get_valid _ h := ⟨take_owned h.1, h.2⟩
  get_block _ _ := rfl
  get_keeps _ _ _ used := ballocGet_keeps used
  get_fresh _ h nonnull :=
    ⟨fun used => (ballocGet_fresh nonnull).2.2.1 used.2, (h.1.spare nonnull).marked⟩
  map_new _ blk _ h start_le le_max unmapped := map_window h.1 h.2 blk start_le le_max unmapped

/-- Whatever addresses are asked for and whatever the calls return, the window stays
whole, and the next call returns. -/
theorem window_invariant {σ : Type u} {S : Services σ} (F : FiniteMap S) {s start t : Heap σ}
    {calls : List BrkCall} (valid : F.valid s.system)
    (unmapped : ∀ v, 0xd0000 ≤ v → v ≤ 0xeffff → F.block s.system v = none)
    (initialized : kspaceInitialize S s = some (.ok start)) (run : Run (Step S) start calls t) :
    Window F t ∧ ∀ addr, ∃ result u, Step S t ⟨addr, result⟩ u := by
  have inv : Growable F t := run.invariant (I := Growable F)
    (fun s call t inv h => by
      obtain ⟨result, t', heq, inv'⟩ := brk_growable inv call.addr
      rw [Step, heq] at h
      obtain ⟨_, rfl⟩ := Prod.mk.inj (Option.some.inj h)
      exact inv')
    (initialize_growable valid unmapped initialized)
  refine ⟨inv.window, fun addr => ?_⟩
  obtain ⟨result, u, heq, _⟩ := brk_growable inv addr
  exact ⟨result, u, heq⟩

/-- An address space with nothing but the 128 tables of the window, in blocks 6 to 133. -/
def tabledSpace : Machine where
  mem := fun f w =>
    if f = 5 then
      if w = 1023 then 0x5003
      else if 832 ≤ w ∧ w < 960 then BitVec.ofNat 32 ((w - 826) * 4096 + 3) else 0
    else 0
  cr3 := 0x5000
  pdirVirtual := 0xfffff000
  pdirPhysical := 0x5000
  balloc :=
    { mBmpAddr := 0xC0040000
      mBmp := fun i => if i < 5 then 0xFFFFFFFF else 0
      memSz := 0xFF000
      bmpSz := 8
      totalBlocks := 255
      freeBlocks := 95
      touched := []
      bmpSz_le := Nat.le_of_ble_eq_true rfl }

theorem tabledSpace_pde {t : Nat} (ht : t < 1023) :
    tabledSpace.pde t =
      if 832 ≤ t ∧ t < 960 then BitVec.ofNat 32 ((t - 826) * 4096 + 3) else 0 :=
  if_neg (Nat.ne_of_lt ht)

/-- Outside the window there is no table, and inside the tables are consecutive blocks. -/
theorem tabledSpace_table {t : Nat} (ht : t < 1023) (present : Present (tabledSpace.pde t)) :
    832 ≤ t ∧ t < 960 ∧ tabledSpace.table t = t - 826 := by
  have hzero : ¬ Present (0 : U32) := by decide
  have hpde := tabledSpace_pde ht
  by_cases h : 832 ≤ t ∧ t < 960
  · refine ⟨h.1, h.2, ?_⟩
    rw [Machine.table, hpde, if_pos h, frameOf, BitVec.toNat_ofNat]
    omega
  · rw [hpde, if_neg h] at present
    exact absurd present hzero

theorem tabledSpace_owned : Owned tabledSpace where
  window := ⟨rfl, rfl, by decide, by decide⟩
  dirUsed := by decide
  used := by
    intro t ht present
    obtain ⟨hlo, hhi, htable⟩ := tabledSpace_table ht present
    rw [htable]
    have hcap : tabledSpace.balloc.capacity = 256 := rfl
    have hword : tabledSpace.balloc.mBmp ((t - 826) / 32) = BitVec.allOnes 32 :=
      if_pos (by omega)
    refine ⟨by rw [hcap]; omega, ?_⟩
    rw [Balloc.Used, PackedBits.testBit, hword, BitVec.getLsbD_allOnes]
    simp [Nat.mod_lt]
  apart := by
    intro t ht present
    obtain ⟨hlo, hhi, htable⟩ := tabledSpace_table ht present
    have hdir : frameOf tabledSpace.cr3 = 5 := by decide
    rw [htable, hdir]
    omega
  distinct := by
    intro t t' ht ht' present present' heq
    obtain ⟨hlo, hhi, htable⟩ := tabledSpace_table ht present
    obtain ⟨hlo', hhi', htable'⟩ := tabledSpace_table ht' present'
    omega

theorem tabledSpace_tabled : Tabled tabledSpace := by
  intro t hlo hhi
  rw [tabledSpace_pde (by omega), if_pos ⟨hlo, hhi⟩, Present]
  apply (Words.and_one_ne_zero _).mpr
  rw [BitVec.toNat_ofNat]
  omega

theorem tabledSpace_unmapped {v : Nat} (start_le : 0xd0000 ≤ v) (le_max : v ≤ 0xeffff) :
    machineMap.block tabledSpace v = none := by
  have hzero : ¬ Present (0 : U32) := by decide
  apply Option.map_eq_none_iff.mpr
  rw [translation_eq _ (by omega), entry, if_neg]
  rintro ⟨present, mapped⟩
  obtain ⟨hlo, hhi, htable⟩ := tabledSpace_table (by omega) present
  have hblank (f w : Nat) (hf : f ≠ 5) : tabledSpace.mem f w = 0 := if_neg hf
  rw [Machine.pte, htable, hblank _ _ (by omega)] at mapped
  exact hzero mapped

/-- Two pages and a half more. -/
theorem first_pages_mapped : ∃ start result t,
    kspaceInitialize machineServices ⟨tabledSpace, 0, 0, 0, 0⟩ = some (.ok start) ∧
      Step machineServices start ⟨0xd0002800, result⟩ t ∧ Window machineMap t := by
  have valid : machineMap.valid tabledSpace := ⟨tabledSpace_owned, tabledSpace_tabled⟩
  have nonnull : (machineServices.ballocGet tabledSpace).1 ≠ 0 := by decide
  obtain ⟨start, h, inv⟩ := @initialize_opens _ _ machineMap ⟨tabledSpace, 0, 0, 0, 0⟩ valid
    (fun _ => tabledSpace_unmapped) nonnull
  obtain ⟨result, t, hbrk, _⟩ := brk_growable inv 0xd0002800
  have hstep : Step machineServices start ⟨0xd0002800, result⟩ t := hbrk
  have run : Run (Step machineServices) start [⟨0xd0002800, result⟩] t :=
    .cons hstep (.nil t)
  have unmapped : ∀ v, 0xd0000 ≤ v → v ≤ 0xeffff → machineMap.block tabledSpace v = none :=
    fun _ => tabledSpace_unmapped
  have window := (@window_invariant _ _ machineMap ⟨tabledSpace, 0, 0, 0, 0⟩ start t _ valid
    unmapped h run).1
  exact ⟨start, result, t, h, hstep, window⟩

end HeapWindow
