import MissyMicro.HeapExtensions
import MissyMicro.LibcString
import MissyMicro.LineBuffer

/-!
# The command loop

Every command line is read into a new block of 255 bytes, and neither way out of
`kernel_command_line` frees it. So the live blocks stay the same only where the request is
refused; the line is then read to address 0.
-/

namespace CommandLoop

open LittleEndian LibcString LinkedRings KernelHeap FreeList HeapGrowth HeapRequests RingHeaps
open AllocCalls HeapExtensions Terminal LineInput LineBuffer TransitionRuns
open HeapRuns (Allocation kernelBase)
open HeapShape (freshSystem tabledKernel tabled_started)

/-- A literal with its NUL. -/
def cstring (text : String) : List (BitVec 8) :=
  (text.toList.map fun c => BitVec.ofNat 8 c.toNat) ++ [0]

def kterminalHelp (s : Screen) : Int × Screen :=
  let s := (s.terminalPuts (cstring "\nKernel TTY built-in commands:\n")).2
  let s := (s.terminalPuts (cstring "\tclear: Clears the input terminal")).2
  let s := (s.terminalPuts (cstring "\tticks: print the current PIT tick count")).2
  let s := (s.terminalPuts (cstring "")).2
  (0, s)

def kterminalClear (s : Screen) : Int × Screen := (0, s.terminalClrscr)

/-- The loop of `itoa_s` in base 10, with a bound on its turns: the last digit comes first, and
the copy to `str` turns the digits around. -/
def decimalDigits : Nat → U32 → List (BitVec 8) → List (BitVec 8)
  | 0, _, buffer => buffer
  | n + 1, num, buffer =>
    if num = 0 then buffer else decimalDigits n (num / 10) ((0x30 + num % 10).setWidth 8 :: buffer)

/-- What `%d` prints: `strlen` counts the NUL, which is printed, too. -/
def decimalText (num : U32) : List (BitVec 8) :=
  (if num = 0 then [0x30] else decimalDigits 10 num []) ++ [0]

/-- `ticks` is `pit_tick_count`. -/
def kterminalTicks (ticks : U32) (s : Screen) : Int × Screen :=
  let s := s.printAll (Screen.charsOf (cstring "Current tick count: "))
  let s := s.printAll ((decimalText ticks).map (·.setWidth 32))
  (0, s.terminalPrintchar 0x0a)

structure KtermBuiltin where
  commandtxt : List (BitVec 8)
  commandcode : U32 → Screen → Int × Screen

def builtins : List KtermBuiltin :=
  [⟨cstring "help", fun _ => kterminalHelp⟩, ⟨cstring "clear", fun _ => kterminalClear⟩,
    ⟨cstring "ticks", kterminalTicks⟩]

def loadByte (m : Bytes) (a : U32) : Option (BitVec 8) := some (m a.toNat)

def storeByte (m : Bytes) (a : U32) (c : BitVec 8) : Option Bytes :=
  some (Function.update m a.toNat c)

/-- The memory as a buffer that starts at `p`. -/
def viewFrom (m : Bytes) (p : U32) : U32 → BitVec 8 := fun k => m (p + k).toNat

def putBack (m : Bytes) (p : U32) (buf : U32 → BitVec 8) : Bytes :=
  fun a => if a < 2 ^ 32 then buf (BitVec.ofNat 32 a - p) else m a

/-- The loop over the builtins and what stands behind it. -/
def dispatch (m : Bytes) (cmdstr ticks : U32) (s : Screen) : List KtermBuiltin →
    Option (Int × Screen)
  | [] => some (-1, (s.terminalPuts (cstring "Error: unrecognized command")).2)
  | b :: rest => (strlen loadByte m cmdstr).bind fun len =>
    (strncmp (loadByte m) (fun a => b.commandtxt[a.toNat]?) cmdstr 0 len.toNat).bind fun diff =>
      if diff = 0 then some (b.commandcode ticks s) else dispatch m cmdstr ticks s rest

/-- `live` holds the results of `kernel_alloc` that have not been freed, latest first. -/
structure Session where
  heap : Heap Supply
  live : List Allocation
  screen : Screen

/-- `keys` is what the calls of `ps2_keyb_getbyte` return; the rest has not been read. -/
def kernelCommandLine (base fuel : Nat) (s : Session) (keys : List U32) (ticks : U32) :
    Option (Int × Session × List U32) :=
  let screen := s.screen.printAll (Screen.charsOf (cstring "prompt:> "))
  (kernelAlloc kernelSbrk base fuel s.heap 255).bind fun r =>
    let cmdstr := BitVec.ofNat 32 r.1
    let live := if r.1 = 0 then s.live else ⟨r.1, 255⟩ :: s.live
    (memset storeByte r.2.mem cmdstr 0 255).bind fun mem =>
      (kernelTtyRead ⟨screen, viewFrom mem cmdstr, 0, []⟩ 255 keys).bind fun line =>
        let mem := putBack mem cmdstr line.1.buf
        let screen := (line.1.screen.terminalPuts (cstring "")).2
        (dispatch mem cmdstr ticks screen builtins).map fun out =>
          (out.1, ⟨{ r.2 with mem := mem }, live, out.2⟩, line.2)

/-- The keys of one line, the tick count when it is used, and the returned value. -/
structure Command where
  keys : List U32
  ticks : U32
  ret : Int

/-- One turn of the loop in `kernel_main`. -/
def Step (base : Nat) (s : Session) (command : Command) (t : Session) : Prop :=
  Returns (fun fuel => kernelCommandLine base fuel s command.keys command.ticks)
    (command.ret, t, [])

/-- Only the bytes from 256 on matter, and not the last one. -/
theorem openList_congr {base : Nat} {nodes : List Nat} {s s' : Heap Supply}
    (list : OpenList base nodes s) (base_le : 0x100 ≤ base) (freeHdr : s'.freeHdr = s.freeHdr)
    (env : s'.env = s.env) (same : ∀ a, 0x100 ≤ a → a < 0xffffffff → s'.mem a = s.mem a) :
    OpenList base nodes s' := by
  have hbrk := list.break_le
  have sorted := sorted_of_spaced list.heap.spaced
  have fields : ∀ h ∈ base :: nodes, next s'.mem h = next s.mem h ∧ sz s'.mem h = sz s.mem h := by
    intro h hh
    have hle := head_le sorted hh
    have header := list.header_le h hh
    constructor
    · exact congrArg BitVec.toNat (load32_congr fun b _ _ => same b (by omega) (by omega))
    · exact congrArg BitVec.toNat (load32_congr fun b _ _ => same b (by omega) (by omega))
  obtain ⟨heap, empty, ready, ahead, base_pos, header_le, block_le⟩ := list
  refine ⟨⟨heap.ring.congr fun h hh => (fields h hh).1, heap.spaced, freeHdr ▸ heap.freeHdr⟩,
    (fields base List.mem_cons_self).2.trans empty, env ▸ ready, env ▸ ahead, base_pos,
    env ▸ header_le, fun h hh => ?_⟩
  rw [(fields h hh).2, env]
  exact block_le h hh

section Runs

variable {base : Nat} {s t : Session} {command : Command}

/-- A NULL pointer leaves the bytes from 256 on as they are, and the last one. -/
theorem nullLine_keeps {m mem : Bytes} {screen : Screen} {keys : List U32}
    {line : Console × List U32} (cleared : memset storeByte m 0 0 255 = some mem)
    (read : kernelTtyRead ⟨screen, viewFrom mem 0, 0, []⟩ 255 keys = some line) {a : Nat}
    (low : 0x100 ≤ a) (high : a < 0xffffffff) : putBack mem 0 line.1.buf a = m a := by
  have hne : a ≠ (0 : U32).toNat := by
    change a ≠ 0
    omega
  have one : ∀ m m' : Bytes, storeByte m 0 (BitVec.setWidth 8 (0 : U32)) = some m' →
      m' a = m a := by
    intro m m' stored
    cases stored
    exact Function.update_of_ne hne _ _
  have same : mem a = m a := @memset_keeps Bytes _ storeByte 0 0 (fun m => m a) one _ _ _ cleared
  have hlt : a < 2 ^ 32 := by omega
  have hword : (BitVec.ofNat 32 a).toNat = a := toNat_ofNat_of_lt hlt
  have far : ¬ Reached 255 (BitVec.ofNat 32 a) := by
    rintro (near | last)
    · rw [hword] at near
      change a ≤ 255 at near
      omega
    · rw [last] at hword
      change 0xffffffff = a at hword
      omega
  have offset : BitVec.ofNat 32 a - (0 : U32) = BitVec.ofNat 32 a := BitVec.sub_zero _
  have address : (0 : U32) + BitVec.ofNat 32 a = BitVec.ofNat 32 a := BitVec.zero_add _
  rw [putBack, if_pos hlt, offset, kernelTtyRead_keeps (by decide) far read]
  change mem ((0 : U32) + BitVec.ofNat 32 a).toNat = m a
  rw [address, hword, same]

theorem step_cases (h : Step base s command t) :
    ∃ r, Returns (fun fuel => kernelAlloc kernelSbrk base fuel s.heap 255) r ∧
      t.live = (if r.1 = 0 then s.live else ⟨r.1, 255⟩ :: s.live) ∧
      t.heap.freeHdr = r.2.freeHdr ∧ t.heap.env = r.2.env ∧
      (r.1 = 0 → ∀ a, 0x100 ≤ a → a < 0xffffffff → t.heap.mem a = r.2.mem a) := by
  obtain ⟨fuel, h⟩ := h
  obtain ⟨r, alloc, h⟩ := Option.bind_eq_some_iff.mp (h fuel (le_refl fuel))
  obtain ⟨mem, cleared, h⟩ := Option.bind_eq_some_iff.mp h
  obtain ⟨line, read, h⟩ := Option.bind_eq_some_iff.mp h
  obtain ⟨out, _, h⟩ := Option.map_eq_some_iff.mp h
  obtain ⟨rfl, _⟩ := Prod.mk.inj (Prod.mk.inj h).2
  refine ⟨r, (kernelAlloc_stable _ _ _ _).returns alloc, rfl, rfl, rfl, fun null a low high => ?_⟩
  rw [null] at cleared read
  dsimp only
  rw [null]
  exact nullLine_keeps cleared read low high

theorem step_keeps_iff {nodes : List Nat} (base_le : 0x100 ≤ base)
    (list : OpenList base nodes (startList base s.heap)) (h : Step base s command t) :
    (t.live = s.live ↔ Exhausted 263 (startList base s.heap)) ∧
      (t.live = s.live → ∃ nodes', OpenList base nodes' (startList base t.heap)) := by
  obtain ⟨r, returns, live, freeHdr, env, kept⟩ := step_cases h
  rw [kernelAlloc_search _ _ (by decide)] at returns
  obtain ⟨r', searched, null, list'⟩ := @OpenList.search _ 263 _ _ (by decide) list
  obtain rfl := returns.unique searched
  have unchanged : t.live = s.live ↔ r.1 = 0 := by
    rw [live]
    split
    · rename_i hr
      exact iff_of_true rfl hr
    · rename_i hr
      exact iff_of_false (List.cons_ne_self _ _) hr
  refine ⟨unchanged.trans null, fun same => ?_⟩
  obtain ⟨nodes', after⟩ := list' (unchanged.mp same)
  have after := openList_congr after base_le freeHdr env (kept (unchanged.mp same))
  exact ⟨nodes', after.start.symm ▸ after⟩

/-- In a run of the command loop every call leaves the live blocks as they were if and only if
every call begins with a list that is exhausted. -/
theorem commandLoop_keeps_iff {nodes : List Nat} (base_le : 0x100 ≤ base)
    (list : OpenList base nodes (startList base s.heap)) (commands : List Command) :
    Run (fun s command t => Step base s command t ∧ t.live = s.live) s commands t ↔
      Run (Guarded (fun s _ => Exhausted 263 (startList base s.heap)) (Step base)) s commands t := by
  constructor
  · intro run
    induction run generalizing nodes with
    | nil s => exact .nil s
    | cons first _ ih =>
      obtain ⟨step, same⟩ := first
      obtain ⟨keeps_iff, list'⟩ := step_keeps_iff base_le list step
      obtain ⟨nodes', list'⟩ := list' same
      exact .cons ⟨keeps_iff.mp same, step⟩ (ih list')
  · intro run
    induction run generalizing nodes with
    | nil s => exact .nil s
    | cons first _ ih =>
      obtain ⟨exhausted, step⟩ := first
      obtain ⟨keeps_iff, list'⟩ := step_keeps_iff base_le list step
      have same := keeps_iff.mpr exhausted
      obtain ⟨nodes', list'⟩ := list' same
      exact .cons ⟨step, same⟩ (ih list')

theorem kernelCommandLine_returns {fuel : Nat} {keys : List U32} {ticks : U32}
    {out : Int × Session × List U32} (h : kernelCommandLine base fuel s keys ticks = some out) :
    Returns (fun fuel => kernelCommandLine base fuel s keys ticks) out := by
  obtain ⟨r, alloc, rest⟩ := Option.bind_eq_some_iff.mp h
  exact ((kernelAlloc_stable _ _ _ _).returns alloc).bind (.of_eq fun _ => rest)

end Runs

def startSession (k : KernelSpace.Kspace) : Session :=
  ⟨⟨fun _ => 0, 0, ⟨k, []⟩⟩, [], cleared fun _ => 0⟩

/-- Before the first request `base` alone is on the list. -/
theorem startSession_list {k : KernelSpace.Kspace} (ready : (⟨k, []⟩ : Supply).Ready)
    (ahead : AheadBy ⟨k, []⟩ 1024) :
    OpenList kernelBase [] (startList kernelBase (startSession k).heap) := by
  have listed : Listed kernelBase [] (startSession k).heap := Or.inl ⟨rfl, rfl⟩
  obtain ⟨heap, empty, env⟩ := startList_ring (by decide) (by decide) listed
  have below : kernelBase + 8 ≤ breakOf (startSession k).heap.env :=
    le_trans (by decide) ready.start_le
  refine ⟨heap, empty, env ▸ ready, env ▸ ahead, by decide, ?_, ?_⟩
  · rw [List.forall_mem_singleton, env]
    exact below
  · rw [List.forall_mem_singleton, empty, env]
    exact le_trans (Nat.le_add_right _ _) below

/-- So the loop of `kernel_main` begins. -/
theorem started_list {k : KernelSpace.Kspace} (started : Started kernelBase (freshSystem k)) :
    OpenList kernelBase [] (startList kernelBase (startSession k).heap) := by
  obtain ⟨ready, _, ahead⟩ := HeapShape.first_break started
  exact startSession_list ready ahead

/-- The break at the end of the heap. -/
def fullKernel : KernelSpace.Kspace :=
  { tabledKernel with kernelBreak := 0xeffff000, kheapLastPage := 0xeffff000 }

theorem fullKernel_list :
    OpenList kernelBase [] (startList kernelBase (startSession fullKernel).heap) := by
  refine startSession_list ⟨⟨?_, ?_, ?_, ?_, ?_⟩, ?_⟩ (Or.inr ⟨?_, Or.inl ?_⟩)
  all_goals decide

/-- Two lines that are read to address 0. -/
theorem commandLoop_keeps_refused : ∃ t,
    Run (fun s command t => Step kernelBase s command t ∧ t.live = s.live)
      (startSession fullKernel) [⟨[0x78, 0x0d], 0, -1⟩, ⟨[0x79, 0x0d], 0, -1⟩] t := by
  have list := fullKernel_list
  have hrun : ((kernelCommandLine kernelBase 8 (startSession fullKernel) [0x78, 0x0d] 0).bind
      fun first => if ListWithin first.2.1.heap [kernelBase] ∧ first.2.1.heap.freeHdr ≠ 0 ∧
          sz first.2.1.heap.mem kernelBase < 263 ∧
          (kernelSbrk first.2.1.heap.env 1024).1 = sbrkFailed then
        (kernelCommandLine kernelBase 8 first.2.1 [0x79, 0x0d] 0).map fun second =>
          (first.1, first.2.2, second.1, second.2.2)
      else none) = some (-1, [], -1, []) := by decide +kernel
  obtain ⟨⟨ret, s, rest⟩, found, hrun⟩ := Option.bind_eq_some_iff.mp hrun
  obtain ⟨⟨within, started, small, failed⟩, hrun⟩ := Option.ite_none_right_eq_some.mp hrun
  obtain ⟨⟨ret', t, rest'⟩, found', hout⟩ := Option.map_eq_some_iff.mp hrun
  obtain ⟨rfl, rfl, rfl, rfl⟩ : ret = -1 ∧ rest = [] ∧ ret' = -1 ∧ rest' = [] := by
    simpa only [Prod.mk.injEq] using hout
  refine ⟨t, (commandLoop_keeps_iff (by decide) list _).mpr (.cons ⟨⟨fun h onList => ?_, Or.inl ?_⟩,
    kernelCommandLine_returns found⟩ (.cons ⟨?_, kernelCommandLine_returns found'⟩ (.nil t)))⟩
  · rw [List.mem_singleton.mp (list.heap.onList_iff.mp onList), list.empty]
    decide
  · decide +kernel
  · change Exhausted 263 (startList kernelBase s.heap)
    rw [startList, if_neg started]
    refine ⟨fun h onList => ?_, Or.inl failed⟩
    rw [List.mem_singleton.mp (within.mem onList)]
    exact small

/-- The first line after boot stays allocated. -/
theorem commandLoop_leaks : ∃ k : KernelSpace.Kspace, Started kernelBase (freshSystem k) ∧
    OpenList kernelBase [] (startList kernelBase (startSession k).heap) ∧
    ¬ ∀ commands t, Run (Step kernelBase) (startSession k) commands t →
      t.live = (startSession k).live := by
  have hrun : (BreakCalls.fromBoot tabledKernel fun k =>
      (kernelCommandLine kernelBase 8 (startSession k) [0x78, 0x0d] 0).map fun out =>
        (out.1, out.2.1.live, out.2.2)) = some (-1, [⟨0xd0000301, 255⟩], []) := by decide +kernel
  obtain ⟨k, started, hrun⟩ := tabled_started hrun
  obtain ⟨⟨ret, t, rest⟩, found, hout⟩ := Option.map_eq_some_iff.mp hrun
  obtain ⟨rfl, hlive, rfl⟩ : ret = -1 ∧ t.live = [⟨0xd0000301, 255⟩] ∧ rest = [] := by
    simpa only [Prod.mk.injEq] using hout
  refine ⟨k, started, started_list started, fun keeps => ?_⟩
  have same := keeps [⟨[0x78, 0x0d], 0, -1⟩] t
    (.cons (kernelCommandLine_returns found) (.nil t))
  rw [hlive] at same
  cases same

end CommandLoop
