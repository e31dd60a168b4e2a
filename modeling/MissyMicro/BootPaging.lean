import MissyMicro.BootLayout
import MissyMicro.CodeBlocks

/-!
# The routine that sets up paging

`setup_paging` runs before anything is mapped. Here its instructions are run one by one, from any
memory and any registers: its loops end, the caller gets back what it had, and the tables are the
ones that were read off the routine before. So it can be said where every virtual address leads.
-/

namespace BootPaging

open AssemblyCode CodeBlocks BootLayout Mmu

/-- `stackPhysical` is put in by the linker, the others are addresses in the text. -/
inductive Symbol where
  | stackPhysical
  | address (a : U32)

inductive Label where
  | identityLoop
  | kernelLoop
  | stackLoop
  | alreadyMapped
  | clearDir
  deriving DecidableEq

/-- Nothing is called. -/
abbrev Routine := List (Instr Unit Symbol Label)

/-- The body of the loops that fill a table. -/
def nextPage : Routine :=
  [.mov (.deref .eax) (.reg .ebx), .alu .add (.reg .eax) (.imm 4),
    .alu .add (.reg .ebx) (.imm 4096)]

/-- The body of the loop that clears the directory. -/
def nextEntry : Routine :=
  [.mov (.deref .eax) (.reg .ebx), .alu .add (.reg .eax) (.imm 4)]

def fillFrom (l : Label) (eax : U32) (first body : Routine) : Routine :=
  .mov (.reg .eax) (.imm eax) :: first ++
    ([.mov (.reg .ecx) (.imm (BitVec.ofNat 32 pageTableEntries)), .label l] : Routine) ++
    body ++ ([.loop l] : Routine)

def install (addr entry : U32) : Routine :=
  [.mov (.reg .eax) (.imm entry), .mov (.mem (.address addr)) (.reg .eax)]

def installAll : Routine :=
  install pageDirectoryAddr (pageTable0Addr ||| pagePrivilege) ++
    install (pageDirectoryAddr + 768 * 4) (pageTable768Addr ||| pagePrivilege) ++
    install (pageDirectoryAddr + (kernelStackPage >>> 22) * 4)
      (pageTableStackAddr ||| pagePrivilege) ++
    install (pageDirectoryAddr + 1023 * 4) (pageDirectoryAddr ||| pagePrivilege) ++
    ([.mov (.reg .eax) (.imm pageDirectoryAddr), .movToCr 3 .eax] : Routine)

def identityPages : Routine :=
  fillFrom .identityLoop pageTable0Addr [.mov (.reg .ebx) (.imm (0x0 ||| pagePrivilege))] nextPage

def kernelPages : Routine :=
  fillFrom .kernelLoop pageTable768Addr [.mov (.reg .ebx) (.imm (0x100000 ||| pagePrivilege))]
    nextPage

def stackPages : Routine :=
  fillFrom .stackLoop pageTableStackAddr
    [.mov (.reg .ebx) (.sym .stackPhysical), .alu .or (.reg .ebx) (.imm pagePrivilege)] nextPage

def clearDirectory : Routine :=
  fillFrom .clearDir pageDirectoryAddr [.mov (.reg .ebx) (.imm 0x0)] nextEntry

def setupPagingCode : Routine :=
  .pushad :: (identityPages ++ (kernelPages ++ (stackPages ++ (.label .alreadyMapped ::
    (clearDirectory ++ (installAll ++ [.popad, .ret]))))))

/-- The machine before paging: addresses are physical, and the stack is apart from the tables. -/
def machine (stackPhysical : U32) : Env PhysMem Unit Symbol where
  symbol
    | .stackPhysical => stackPhysical
    | .address a => a
  load m a := m (frameOf a) (wordOf a)
  store := Mmu.store
  inb m _ := (0xff, m)
  outb m _ _ := m
  entry _ := ()
  call m _ _ := ⟨m, 0, 0, 0, false⟩

variable {stackPhysical : U32}

/-- What the routine leaves alone before its end. -/
structure Same (s t : State PhysMem) : Prop where
  interrupts : t.interrupts = s.interrupts
  cr : t.cr = s.cr
  top : t.top = s.top
  stack : t.stack = s.stack

theorem Same.trans {s t r : State PhysMem} (h : Same s t) (h' : Same t r) : Same s r :=
  ⟨h'.interrupts.trans h.interrupts, h'.cr.trans h.cr, h'.top.trans h.top, h'.stack.trans h.stack⟩

/-- A word is stored, and the registers are moved on. -/
structure Stores (step : U32) (s t : State PhysMem) : Prop extends Same s t where
  world : t.world = Mmu.store s.world (s.regs .eax) (s.regs .ebx)
  eax : t.regs .eax = s.regs .eax + 4
  ebx : t.regs .ebx = s.regs .ebx + step
  ecx : t.regs .ecx = s.regs .ecx

theorem nextPage_stores (s : State PhysMem) :
    ∃ t, performAll (machine stackPhysical) nextPage s = some t ∧ Stores 4096 s t :=
  ⟨_, rfl, ⟨rfl, rfl, rfl, rfl⟩, rfl, rfl, rfl, rfl⟩

theorem nextEntry_stores (s : State PhysMem) :
    ∃ t, performAll (machine stackPhysical) nextEntry s = some t ∧ Stores 0 s t :=
  ⟨_, rfl, ⟨rfl, rfl, rfl, rfl⟩, rfl, rfl, (BitVec.add_zero _).symm, rfl⟩

theorem iterate_fill {step : U32} {turn : State PhysMem → State PhysMem}
    (stores : ∀ t, Stores step t (turn t)) (n : Nat) (s : State PhysMem) :
    Same s ((fun t => (turn t).setReg .ecx ((turn t).regs .ecx - 1))^[n] s) ∧
      ((fun t => (turn t).setReg .ecx ((turn t).regs .ecx - 1))^[n] s).world =
        fill s.world (s.regs .eax) (s.regs .ebx) step n := by
  induction n generalizing s with
  | zero => exact ⟨⟨rfl, rfl, rfl, rfl⟩, rfl⟩
  | succ n ih =>
    obtain ⟨next, hnext⟩ : ∃ next, next = (turn s).setReg .ecx ((turn s).regs .ecx - 1) := ⟨_, rfl⟩
    have first := stores s
    obtain ⟨same, world⟩ := ih next
    have eax : next.regs .eax = s.regs .eax + 4 := by
      rw [hnext, State.setReg_other _ _ (by decide), first.eax]
    have ebx : next.regs .ebx = s.regs .ebx + step := by
      rw [hnext, State.setReg_other _ _ (by decide), first.ebx]
    have stored : next.world = Mmu.store s.world (s.regs .eax) (s.regs .ebx) := by
      rw [hnext]
      exact first.world
    rw [Function.iterate_succ_apply, ← hnext]
    refine ⟨Same.trans ?_ same, ?_⟩
    · rw [hnext]
      exact ⟨first.interrupts, first.cr, first.top, first.stack⟩
    · rw [world, eax, ebx, stored, fill]

/-- What sets `ebx` leaves everything else that the loop starts from. -/
def Sets (stackPhysical : U32) (first : Routine) (ebx : U32) : Prop :=
  ∀ s, ∃ t, performAll (machine stackPhysical) first s = some t ∧ Same s t ∧ t.world = s.world ∧
    t.regs .eax = s.regs .eax ∧ t.regs .ebx = ebx

theorem fillFrom_leads {l : Label} {eax ebx step : U32} {first body code rest : Routine}
    (here : after l code = body ++ .loop l :: rest) (sets : Sets stackPhysical first ebx)
    (stores : ∀ s, ∃ t, performAll (machine stackPhysical) body s = some t ∧ Stores step s t)
    (s : State PhysMem) :
    ∃ t, Leads (machine stackPhysical) code (fillFrom l eax first body ++ rest) s rest t ∧
      Same s t ∧ t.world = fill s.world eax ebx step pageTableEntries := by
  obtain ⟨p, hp⟩ : ∃ p, p = s.setReg .eax eax := ⟨_, rfl⟩
  have table : perform (machine stackPhysical) s
      (.mov (.reg .eax) (.imm eax) : Instr Unit Symbol Label) = some p := hp ▸ rfl
  obtain ⟨q, set, same, world, kept, entry⟩ := sets p
  obtain ⟨r, hr⟩ : ∃ r, r = q.setReg .ecx (BitVec.ofNat 32 pageTableEntries) := ⟨_, rfl⟩
  have count : perform (machine stackPhysical) q
      (.mov (.reg .ecx) (.imm (BitVec.ofNat 32 pageTableEntries)) : Instr Unit Symbol Label) =
        some r := hr ▸ rfl
  choose turn body_turn stored using stores
  have loop := @Leads.turns _ _ _ _ (machine stackPhysical) _ code rest l body here turn r 1023
    (hr ▸ q.setReg_same .ecx _) (by decide) fun t => ⟨body_turn t, (stored t).ecx⟩
  obtain ⟨same', filled⟩ := iterate_fill stored pageTableEntries r
  have shape : fillFrom l eax first body ++ rest = .mov (.reg .eax) (.imm eax) ::
      (first ++ (.mov (.reg .ecx) (.imm (BitVec.ofNat 32 pageTableEntries)) :: .label l ::
        (body ++ .loop l :: rest))) := by
    simp [fillFrom]
  have behind : Same q r := hr ▸ ⟨rfl, rfl, rfl, rfl⟩
  have front : Same s p := hp ▸ ⟨rfl, rfl, rfl, rfl⟩
  rw [shape]
  refine ⟨_, (Leads.perform table).trans ((Leads.block set).trans ((Leads.perform count).trans
    ((Leads.perform rfl).trans loop))), front.trans (same.trans (behind.trans same')), ?_⟩
  have start : r.world = s.world ∧ r.regs .eax = eax ∧ r.regs .ebx = ebx := by
    rw [hr, State.setReg_other _ _ (by decide), State.setReg_other _ _ (by decide), kept, entry, hp]
    exact ⟨world.trans (hp ▸ rfl), s.setReg_same .eax _, rfl⟩
  rw [start.1, start.2.1, start.2.2] at filled
  exact filled

theorem sets_imm (ebx : U32) : Sets stackPhysical [.mov (.reg .ebx) (.imm ebx)] ebx :=
  fun s => ⟨_, rfl, ⟨rfl, rfl, rfl, rfl⟩, rfl, s.setReg_other _ (by decide), s.setReg_same .ebx _⟩

theorem sets_stackPhysical : Sets stackPhysical
    [.mov (.reg .ebx) (.sym .stackPhysical), .alu .or (.reg .ebx) (.imm pagePrivilege)]
    (stackPhysical ||| pagePrivilege) :=
  fun _ => ⟨_, rfl, ⟨rfl, rfl, rfl, rfl⟩, rfl, rfl, rfl⟩

/-- The directory entries, and the address of the directory in `cr3`. -/
theorem installAll_done (s : State PhysMem) :
    ∃ t, performAll (machine stackPhysical) installAll s = some t ∧
      t.interrupts = s.interrupts ∧ t.top = s.top ∧ t.stack = s.stack ∧
      t.cr = Function.update s.cr 3 pageDirectoryAddr ∧ t.world =
        Mmu.store (Mmu.store (Mmu.store (Mmu.store s.world pageDirectoryAddr
          (pageTable0Addr ||| pagePrivilege))
          (pageDirectoryAddr + 768 * 4) (pageTable768Addr ||| pagePrivilege))
          (pageDirectoryAddr + (kernelStackPage >>> 22) * 4)
            (pageTableStackAddr ||| pagePrivilege))
          (pageDirectoryAddr + 1023 * 4) (pageDirectoryAddr ||| pagePrivilege) :=
  ⟨_, rfl, rfl, rfl, rfl, rfl, rfl⟩

theorem setupPagingCode_leads (s : State PhysMem) :
    ∃ t, Leads (machine stackPhysical) setupPagingCode setupPagingCode s [.popad, .ret] t ∧
      t.interrupts = s.interrupts ∧ t.top = s.top ∧ t.stack = (saved s).stack ∧
      t.cr = Function.update s.cr 3 pageDirectoryAddr ∧
      t.world = setupPaging stackPhysical s.world := by
  obtain ⟨a, identity, sameA, worldA⟩ := @fillFrom_leads stackPhysical .identityLoop pageTable0Addr
    _ _ _ _ setupPagingCode _ rfl (sets_imm (0x0 ||| pagePrivilege)) nextPage_stores (saved s)
  obtain ⟨b, kernel, sameB, worldB⟩ := @fillFrom_leads stackPhysical .kernelLoop pageTable768Addr
    _ _ _ _ setupPagingCode _ rfl (sets_imm (0x100000 ||| pagePrivilege)) nextPage_stores a
  obtain ⟨c, stack, sameC, worldC⟩ := @fillFrom_leads stackPhysical .stackLoop pageTableStackAddr
    _ _ _ _ setupPagingCode _ rfl sets_stackPhysical nextPage_stores b
  obtain ⟨d, cleared, sameD, worldD⟩ := @fillFrom_leads stackPhysical .clearDir pageDirectoryAddr
    _ _ _ _ setupPagingCode _ rfl (sets_imm 0x0) nextEntry_stores c
  obtain ⟨e, installed, interrupts, top, words, cr, worldE⟩ := @installAll_done stackPhysical d
  have same := ((sameA.trans sameB).trans sameC).trans sameD
  refine ⟨e, ?_, interrupts.trans same.interrupts, top.trans same.top, words.trans same.stack, ?_,
    ?_⟩
  · exact (Leads.perform (perform_pushad s)).trans (identity.trans (kernel.trans (stack.trans
      ((Leads.perform rfl).trans (cleared.trans (Leads.block installed))))))
  · rw [cr, same.cr]
    rfl
  · rw [worldE, worldD, worldC, worldB, worldA]
    rfl

theorem setupPagingCode_runs (s : State PhysMem) (eip : U32) (stack : List U32) :
    ∃ t, Runs (machine stackPhysical) setupPagingCode setupPagingCode
        { s with stack := eip :: stack } (.returned eip t) ∧
      t.regs = s.regs ∧ t.stack = stack ∧ t.interrupts = s.interrupts ∧
      t.cr = Function.update s.cr 3 pageDirectoryAddr ∧
      t.world = setupPaging stackPhysical s.world := by
  obtain ⟨r, leads, interrupts, _, words, cr, world⟩ :=
    @setupPagingCode_leads stackPhysical { s with stack := eip :: stack }
  obtain ⟨q, hq⟩ : ∃ q, q = { r with regs := s.regs, stack := eip :: stack } := ⟨_, rfl⟩
  have restored : perform (machine stackPhysical) r (.popad : Instr Unit Symbol Label) = some q :=
    hq ▸ perform_popad words
  have below : q.stack = eip :: stack := hq ▸ rfl
  have returns := @runs_ret _ _ _ _ (machine stackPhysical) _ setupPagingCode [] q _ _ below
  refine ⟨{ q with stack := stack }, leads _ (Leads.perform restored _ returns), ?_, rfl, ?_, ?_,
    ?_⟩
  · exact hq ▸ rfl
  · exact hq ▸ interrupts
  · exact hq ▸ cr
  · exact hq ▸ world

/-- The frame of a virtual page, by its entries in the directory and in the table. The last entry
of the directory shows the tables themselves. -/
def bootFrame (stackPhysical : U32) (d p : Nat) : Option Nat :=
  if d = 0 then some p
  else if d = 768 then some (0x100 + p)
  else if d = 1022 then some ((frameOf stackPhysical + p) % 2 ^ 20)
  else if d = 1023 then
    if p = 0 then some 0x80
    else if p = 768 then some 0x81
    else if p = 1022 then some 0x82
    else if p = 1023 then some 0x7f
    else none
  else none

/-- An entry of a table whose pages are one behind the other. -/
theorem entry_frame (x : U32) (p : Nat) :
    Present ((x ||| pagePrivilege) + BitVec.ofNat 32 p * 4096) ∧
      frameOf ((x ||| pagePrivilege) + BitVec.ofNat 32 p * 4096) = (frameOf x + p) % 2 ^ 20 := by
  have flags := frameOf_or_flags x (show pagePrivilege.toNat < 4096 by decide)
  have odd : (x ||| pagePrivilege).toNat % 2 = 1 := by
    rw [BitVec.toNat_or]
    exact Nat.or_mod_two_eq_one.mpr (Or.inr rfl)
  have size : (4096 : U32).toNat = 4096 := rfl
  have value : ((x ||| pagePrivilege) + BitVec.ofNat 32 p * 4096).toNat =
      ((x ||| pagePrivilege).toNat + p * 4096) % 2 ^ 32 := by
    rw [BitVec.toNat_add, BitVec.toNat_mul, BitVec.toNat_ofNat, size]
    omega
  rw [frameOf] at flags
  refine ⟨(Words.and_one_ne_zero _).mpr ?_, ?_⟩
  · rw [value]
    omega
  · rw [frameOf, value]
    omega

theorem walk_present {m : PhysMem} {cr3 va pde : U32} {f : Nat}
    (entry : m (frameOf cr3) (pdeIndex va) = pde) (present : Present pde) (table : frameOf pde = f) :
    walk m cr3 va = if Present (m f (pteIndex va)) then some (m f (pteIndex va)) else none := by
  rw [walk, entry, if_pos present, table]

theorem walk_table {m : PhysMem} {cr3 va pde x : U32} {f : Nat}
    (entry : m (frameOf cr3) (pdeIndex va) = pde) (present : Present pde) (table : frameOf pde = f)
    (word : m f (pteIndex va) = (x ||| pagePrivilege) + BitVec.ofNat 32 (pteIndex va) * 4096) :
    (walk m cr3 va).map frameOf = some ((frameOf x + pteIndex va) % 2 ^ 20) := by
  obtain ⟨present', frame⟩ := entry_frame x (pteIndex va)
  rw [walk_present entry present table, word, if_pos present', Option.map_some, frame]

/-- Behind the last entry the directory is read once more, as a table. -/
theorem walk_last {m : PhysMem} {va : U32}
    (directory : m (frameOf pageDirectoryAddr) (pdeIndex va) = pageDirectoryAddr ||| pagePrivilege)
    (table : m 0x7f (pteIndex va) =
      if pteIndex va = 1023 then pageDirectoryAddr ||| pagePrivilege
      else if pteIndex va = 1022 then pageTableStackAddr ||| pagePrivilege
      else if pteIndex va = 768 then pageTable768Addr ||| pagePrivilege
      else if pteIndex va = 0 then pageTable0Addr ||| pagePrivilege
      else 0) :
    (walk m pageDirectoryAddr va).map frameOf =
      if pteIndex va = 0 then some 0x80
      else if pteIndex va = 768 then some 0x81
      else if pteIndex va = 1022 then some 0x82
      else if pteIndex va = 1023 then some 0x7f
      else none := by
  rw [walk_present directory (by decide) (show _ = 0x7f from rfl)]
  by_cases recursive : pteIndex va = 1023
  · rw [table, if_pos recursive, if_pos (show Present (pageDirectoryAddr ||| _) by decide),
      recursive]
    rfl
  rw [if_neg recursive] at table
  by_cases ofStack : pteIndex va = 1022
  · rw [table, if_pos ofStack, if_pos (show Present (pageTableStackAddr ||| _) by decide),
      ofStack]
    rfl
  rw [if_neg ofStack] at table
  by_cases ofKernel : pteIndex va = 768
  · rw [table, if_pos ofKernel, if_pos (show Present (pageTable768Addr ||| _) by decide),
      ofKernel]
    rfl
  rw [if_neg ofKernel] at table
  by_cases ofIdentity : pteIndex va = 0
  · rw [table, if_pos ofIdentity, if_pos (show Present (pageTable0Addr ||| _) by decide),
      ofIdentity]
    rfl
  rw [table, if_neg ofIdentity, if_neg (by decide)]
  simp [recursive, ofStack, ofKernel, ofIdentity]

theorem walk_boot (m : PhysMem) (va : U32) :
    (walk (setupPaging stackPhysical m) pageDirectoryAddr va).map frameOf =
      bootFrame stackPhysical (pdeIndex va) (pteIndex va) := by
  have inside := pteIndex_lt va
  have directory := setupPaging_word stackPhysical m (frameOf pageDirectoryAddr) _ (pdeIndex_lt va)
  rw [if_pos (show frameOf pageDirectoryAddr = 0x7f from rfl)] at directory
  have word (f : Nat) := setupPaging_word stackPhysical m f _ inside
  unfold bootFrame
  by_cases last : pdeIndex va = 1023
  · rw [if_pos last] at directory
    rw [walk_last directory (word 0x7f), last]
    simp
  by_cases stack : pdeIndex va = 1022
  · rw [if_neg last, if_pos stack] at directory
    have entry := walk_table directory (by decide) (show _ = 0x82 from rfl) (word 0x82)
    rw [entry]
    simp [stack]
  by_cases kernel : pdeIndex va = 768
  · rw [if_neg last, if_neg stack, if_pos kernel] at directory
    have entry := walk_table directory (by decide) (show _ = 0x81 from rfl) (word 0x81)
    have frame : (frameOf 0x100000 + pteIndex va) % 2 ^ 20 = 0x100 + pteIndex va :=
      Nat.mod_eq_of_lt (show 0x100 + pteIndex va < 2 ^ 20 by omega)
    rw [entry, frame]
    simp [kernel]
  by_cases first : pdeIndex va = 0
  · rw [if_neg last, if_neg stack, if_neg kernel, if_pos first] at directory
    have entry := walk_table directory (by decide) (show _ = 0x80 from rfl) (word 0x80)
    have frame : (frameOf 0x0 + pteIndex va) % 2 ^ 20 = 0 + pteIndex va :=
      Nat.mod_eq_of_lt (show 0 + pteIndex va < 2 ^ 20 by omega)
    rw [entry, frame]
    simp [first]
  rw [if_neg last, if_neg stack, if_neg kernel, if_neg first] at directory
  rw [walk, directory, if_neg (by decide)]
  simp [last, stack, kernel, first]

/-- From any memory. The routine returns with everything as it was but `cr3` and the tables, and
every virtual page leads where it should, for any place of the stack section. -/
theorem setup_paging_maps (stackPhysical : U32) (s : State PhysMem) (eip : U32)
    (stack : List U32) :
    ∃ t turns, exec (machine stackPhysical) setupPagingCode turns setupPagingCode
        { s with stack := eip :: stack } = .returned eip t ∧
      t.regs = s.regs ∧ t.stack = stack ∧ t.interrupts = s.interrupts ∧
      (∀ n, n ≠ 3 → t.cr n = s.cr n) ∧ t.world = setupPaging stackPhysical s.world ∧
      ∀ va, (walk t.world (t.cr 3) va).map frameOf =
        bootFrame stackPhysical (pdeIndex va) (pteIndex va) := by
  obtain ⟨t, ⟨_, turns, returned⟩, regs, words, interrupts, cr, world⟩ :=
    @setupPagingCode_runs stackPhysical s eip stack
  refine ⟨t, turns, returned, regs, words, interrupts, fun n other => ?_, world, fun va => ?_⟩
  · rw [cr, Function.update_of_ne other]
  · rw [world, cr, Function.update_self]
    exact walk_boot s.world va

end BootPaging
