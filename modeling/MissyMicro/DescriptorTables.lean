import MissyMicro.SegmentDescriptors
import MissyMicro.ServiceRoutines

/-!
# Setting up the descriptor tables

At the start the two tables are filled and given to the processor. From then on an interrupt is
looked up in both of them: its gate names a segment of one table and an offset into that segment.
-/

namespace DescriptorTables

open LibcString GuardedTables SegmentDescriptors
open ServiceRoutines (Handler)

structure Gdtr where
  gdtSz : BitVec 16
  gdtPtr : U32

structure Idtr where
  limit : BitVec 16
  base : U32

/-- `codeseg` and `dataseg` are what the segment registers were loaded with. -/
structure Cpu where
  gdt : Fin gdtMaxDescriptors → BitVec 64
  gdtr : Gdtr
  codeseg : BitVec 16
  dataseg : BitVec 16
  idt : Fin i386MaxInterrupts → Idtentry
  idtr : Idtr
  interrupts : Bool

/-- Where the tables and the routines are. -/
structure Placed where
  gdt : U32
  idt : U32
  handler : Handler → U32
  handler_injective : Function.Injective handler

/-- Byte `k` of a word of any width replaced. -/
def setByte {w : Nat} (x : BitVec w) (k : Nat) (byte : BitVec 8) : BitVec w :=
  (x &&& ~~~((0xff#8).setWidth w <<< (8 * k))) ||| (byte.setWidth w <<< (8 * k))

/-- A store of a byte, the address being counted from the start of the table. -/
def gdtStore (gdt : Fin gdtMaxDescriptors → BitVec 64) (a : U32) (byte : BitVec 8) :
    Option (Fin gdtMaxDescriptors → BitVec 64) :=
  if h : a.toNat / 8 < gdtMaxDescriptors then
    some (Function.update gdt ⟨a.toNat / 8, h⟩ (setByte (gdt ⟨a.toNat / 8, h⟩) (a.toNat % 8) byte))
  else none

def Idtentry.setByte (e : Idtentry) (k : Nat) (byte : BitVec 8) : Idtentry :=
  if k < 2 then { e with offsetLo := DescriptorTables.setByte e.offsetLo k byte }
  else if k < 4 then { e with codeSelector := DescriptorTables.setByte e.codeSelector (k - 2) byte }
  else if k = 4 then { e with zero := byte }
  else if k = 5 then { e with typeAttrib := byte }
  else { e with offsetHi := DescriptorTables.setByte e.offsetHi (k - 6) byte }

def idtStore (idt : Fin i386MaxInterrupts → Idtentry) (a : U32) (byte : BitVec 8) :
    Option (Fin i386MaxInterrupts → Idtentry) :=
  if h : a.toNat / 8 < i386MaxInterrupts then
    some (Function.update idt ⟨a.toNat / 8, h⟩
      (Idtentry.setByte (idt ⟨a.toNat / 8, h⟩) (a.toNat % 8) byte))
  else none

def i386GdtDesctype (x : BitVec 16) : BitVec 16 := x <<< 0x04
def i386GdtPresent (x : BitVec 16) : BitVec 16 := x <<< 0x07
def i386GdtAvailable (x : BitVec 16) : BitVec 16 := x <<< 0x0c
def i386GdtLongmode (x : BitVec 16) : BitVec 16 := x <<< 0x0d
def i386GdtSize (x : BitVec 16) : BitVec 16 := x <<< 0x0e
def i386GdtGranularity (x : BitVec 16) : BitVec 16 := x <<< 0x0f
def i386GdtPrivilege (x : BitVec 16) : BitVec 16 := (x &&& 0x03) <<< 0x05

def i386GdtDataRw : BitVec 16 := 0x02
def i386GdtCodeRead : BitVec 16 := 0x0a

def ring0 (kind : BitVec 16) : BitVec 16 :=
  i386GdtDesctype 1 ||| i386GdtPresent 1 ||| i386GdtAvailable 0 ||| i386GdtLongmode 0 |||
    i386GdtSize 1 ||| i386GdtGranularity 1 ||| i386GdtPrivilege 0 ||| kind

def gdtCodeRing0 : BitVec 16 := ring0 i386GdtCodeRead
def gdtDataRing0 : BitVec 16 := ring0 i386GdtDataRw

def i386GdtInstall (c : Cpu) (gdtr : Gdtr) (codeseg dataseg : BitVec 16) : Cpu :=
  { c with gdtr := gdtr, codeseg := codeseg, dataseg := dataseg }

/-- `none` is a store outside the table. What `i386_gdt_setentry` returns is not looked at. -/
def i386GdtInitialize (p : Placed) (c : Cpu) : Option (Int × Cpu) := do
  let gdt ← memset gdtStore c.gdt 0 0 (8 * gdtMaxDescriptors - 1)
  let (_, gdt) ← i386GdtSetentry gdt 0 0 0 0
  let (_, gdt) ← i386GdtSetentry gdt 1 0x0 0x000fffff gdtCodeRing0
  let (_, gdt) ← i386GdtSetentry gdt 2 0x0 0x000fffff gdtDataRing0
  let gdtr : Gdtr := ⟨BitVec.ofNat 16 (8 * gdtMaxDescriptors - 1), p.gdt⟩
  return (0, i386GdtInstall { c with gdt := gdt } gdtr 0x08 0x10)

/-- The turns of the loop that are left. -/
def defaultLoop (p : Placed) :
    Nat → Nat → (Fin i386MaxInterrupts → Idtentry) → Option (Fin i386MaxInterrupts → Idtentry)
  | 0, _, idt => some idt
  | turns + 1, i, idt =>
    (i386IdtSetvector idt (BitVec.ofNat 8 i) (p.handler .defaulthandler) 0x08
      (0x0e ||| 0x80 ||| 0x00)).bind (defaultLoop p turns (i + 1))

def i386IdtInitialize (p : Placed) (c : Cpu) : Option (Int × Cpu) := do
  let idt ← memset idtStore c.idt 0 0 (8 * i386MaxInterrupts - 1)
  let idt ← defaultLoop p i386MaxInterrupts 0 idt
  return (0, { c with idt := idt, idtr := ⟨BitVec.ofNat 16 (8 * i386MaxInterrupts - 1), p.idt⟩ })

/-- A call of `cpu_setvector` for each pair, in their order. -/
def setVectors (vectors : List (Int × U32)) (c : Cpu) : Option Cpu :=
  vectors.foldlM (fun c v => (cpuSetvector c.idt v.1 v.2).map fun idt => { c with idt := idt }) c

/-- The tables as `cpu_init` sets them up first. -/
def initializeTables (p : Placed) (c : Cpu) : Option Cpu := do
  let (_, c) ← i386GdtInitialize p c
  let (_, c) ← i386IdtInitialize p c
  return c

/-- The code segment that a selector names, when it is present. -/
def codeSegment (p : Placed) (c : Cpu) (selector : BitVec 16) : Option (BitVec 64) :=
  let d := i386GdtGetentry c.gdt ((selector >>> 3).setWidth 8)
  if c.gdtr.gdtPtr = p.gdt ∧ (selector ||| 7).toNat ≤ c.gdtr.gdtSz.toNat ∧
    segmentFlags d &&& 0x98 = 0x98 then some d
  else none

/-- The last offset into a segment, its limit being counted in bytes or in pages. -/
def lastOffset (d : BitVec 64) : U32 :=
  if segmentFlags d &&& 0x8000 = 0 then segmentLimit d else segmentLimit d <<< 12 ||| 0xfff

/-- Where an interrupt leads, through a gate that turns interrupts off. The type of a gate is in
the lower half of its attributes, the upper half holds that it is present and for which ring. -/
def dispatch (p : Placed) (c : Cpu) (vector : Nat) : Option U32 :=
  if h : vector < i386MaxInterrupts ∧ 8 * vector + 7 ≤ c.idtr.limit.toNat ∧ c.idtr.base = p.idt then
    let e := c.idt ⟨vector, h.1⟩
    let offset : U32 := e.offsetHi ++ e.offsetLo
    (codeSegment p c e.codeSelector).bind fun d =>
      if e.typeAttrib &&& 0x9f = 0x8e ∧ offset ≤ lastOffset d then some (segmentBase d + offset)
      else none
  else none

/-- What `cpu_setvector` enters. -/
def gate (addr : U32) : Idtentry :=
  ⟨(addr &&& ~~~0xffff0000).setWidth 16, 0x08, 0, 0x0e ||| 0x80 ||| 0x00, (addr >>> 16).setWidth 16⟩

theorem gate_offset (addr : U32) : (gate addr).offsetHi ++ (gate addr).offsetLo = addr := by
  apply BitVec.eq_of_getLsbD_eq
  intro i hi
  have mask : (~~~0xffff0000#32).getLsbD i = decide (i < 16) := by
    revert i
    decide
  rw [gate, BitVec.getLsbD_append, BitVec.getLsbD_setWidth, BitVec.getLsbD_setWidth,
    BitVec.getLsbD_and, BitVec.getLsbD_ushiftRight, BitVec.ofNat_eq_ofNat, mask]
  by_cases low : i < 16
  · simp [low]
  · simp [low, show i - 16 < 16 by omega, show 16 + (i - 16) = i by omega]

/-- The first three descriptors are right, and the registers hold both tables. -/
structure Installed (p : Placed) (c : Cpu) : Prop where
  code : i386GdtGetentry c.gdt 1 = descriptor 0 0x000fffff gdtCodeRing0
  gdtr : c.gdtr = ⟨79, p.gdt⟩
  idtr : c.idtr = ⟨2039, p.idt⟩

variable {p : Placed} {c c' : Cpu}

theorem Installed.codeSegment_eq (installed : Installed p c) :
    codeSegment p c 0x08 = some (descriptor 0 0x000fffff gdtCodeRing0) := by
  have first : ((0x08 : BitVec 16) >>> 3).setWidth 8 = (1 : BitVec 8) := by decide
  have selector : ((0x08 : BitVec 16) ||| 7).toNat ≤ (79 : BitVec 16).toNat := by decide
  have flags : segmentFlags (descriptor 0 0x000fffff gdtCodeRing0) &&& 0x98 = 0x98 := by
    rw [segmentFlags_descriptor _ _ (by decide)]
    decide
  dsimp only [codeSegment]
  rw [first, installed.code, installed.gdtr]
  exact if_pos ⟨rfl, selector, flags⟩

/-- An interrupt whose gate was set leads to the address it was set to. -/
theorem Installed.dispatch_gate (installed : Installed p c) {vector : Nat}
    (h : vector < i386MaxInterrupts) {addr : U32} (set : c.idt ⟨vector, h⟩ = gate addr) :
    dispatch p c vector = some addr := by
  have limit : 8 * vector + 7 ≤ c.idtr.limit.toNat := by
    have max : i386MaxInterrupts = 255 := rfl
    have last : c.idtr.limit.toNat = 2039 := installed.idtr ▸ rfl
    omega
  have base : c.idtr.base = p.idt := installed.idtr ▸ rfl
  have last : lastOffset (descriptor 0 0x000fffff gdtCodeRing0) = 0xffffffff := by
    rw [lastOffset, segmentFlags_descriptor _ _ (by decide), segmentLimit_descriptor _ _ _ (by decide)]
    decide
  have type : (gate addr).typeAttrib &&& 0x9f = 0x8e := by
    change (0x0e ||| 0x80 ||| 0x00 : BitVec 8) &&& 0x9f = 0x8e
    decide
  have inside : addr ≤ lastOffset (descriptor 0 0x000fffff gdtCodeRing0) := by
    rw [last]
    bv_omega
  have selector : (gate addr).codeSelector = 0x08 := rfl
  rw [dispatch, dif_pos ⟨h, limit, base⟩]
  dsimp only
  rw [set, selector, installed.codeSegment_eq, Option.bind_some, gate_offset,
    if_pos ⟨type, inside⟩, segmentBase_descriptor]
  exact congrArg some (BitVec.zero_add addr)

/-- The register of the table ends one gate before the last vector there is. -/
theorem dispatch_behind (p : Placed) (c : Cpu) {vector : Nat} (h : i386MaxInterrupts ≤ vector) :
    dispatch p c vector = none := by
  rw [dispatch, dif_neg fun inside => Nat.not_lt.mpr h inside.1]

theorem cpuSetvector_eq {idt : Fin i386MaxInterrupts → Idtentry} {vector : Int} {addr : U32}
    (h : (vector % 256).toNat < i386MaxInterrupts) :
    cpuSetvector idt vector addr =
      some (Function.update idt ⟨(vector % 256).toNat, h⟩ (gate addr)) := by
  have byte : (BitVec.ofInt 8 vector).toNat = (vector % 256).toNat := by
    have low := byte_toNat vector
    omega
  rw [cpuSetvector, i386IdtSetvector, storeAt, dif_pos (byte ▸ h)]
  simp only [byte, gate]

/-- The loop enters the default routine for every vector from `i` on. -/
theorem defaultLoop_eq (p : Placed) {turns i : Nat} {idt : Fin i386MaxInterrupts → Idtentry}
    (inside : i + turns ≤ i386MaxInterrupts) :
    ∃ idt', defaultLoop p turns i idt = some idt' ∧ ∀ j : Fin i386MaxInterrupts,
      idt' j = if i ≤ j.val ∧ j.val < i + turns then gate (p.handler .defaulthandler)
        else idt j := by
  have max : i386MaxInterrupts = 255 := rfl
  induction turns generalizing i idt with
  | zero => exact ⟨idt, rfl, fun j => (if_neg (by omega)).symm⟩
  | succ turns ih =>
    have byte : (BitVec.ofNat 8 i).toNat = i := by
      rw [BitVec.toNat_ofNat]
      omega
    have here : i < i386MaxInterrupts := by omega
    have set : i386IdtSetvector idt (BitVec.ofNat 8 i) (p.handler .defaulthandler) 0x08
        (0x0e ||| 0x80 ||| 0x00) =
          some (Function.update idt ⟨i, here⟩ (gate (p.handler .defaulthandler))) := by
      rw [i386IdtSetvector, storeAt, dif_pos (byte.symm ▸ here)]
      simp only [byte, gate]
    obtain ⟨idt', filled, entries⟩ := @ih (i + 1)
      (Function.update idt ⟨i, here⟩ (gate (p.handler .defaulthandler))) (by omega)
    refine ⟨idt', ?_, fun j => ?_⟩
    · rw [defaultLoop, set, Option.bind_some, filled]
    · rw [entries]
      by_cases same : j = ⟨i, here⟩
      · subst same
        rw [Function.update_self, ite_self, if_pos (by simp)]
      · have apart : j.val ≠ i := fun h => same (Fin.ext h)
        rw [Function.update_of_ne same]
        have range : (i + 1 ≤ j.val ∧ j.val < i + 1 + turns) ↔
            (i ≤ j.val ∧ j.val < i + (turns + 1)) := by omega
        simp only [range]

/-- A store inside the table succeeds, and so does `memset`, which never leaves the first byte. -/
theorem memset_total {M : Type} {store : M → U32 → BitVec 8 → Option M} {dst val : U32}
    (total : ∀ m, ∃ m', store m dst (val.setWidth 8) = some m') (n : Nat) (m : M) :
    ∃ m', memset store m dst val n = some m' := by
  induction n generalizing m with
  | zero => exact ⟨m, rfl⟩
  | succ n ih =>
    obtain ⟨m', stored⟩ := total m
    obtain ⟨filled, rest⟩ := ih m'
    exact ⟨filled, by rw [memset, stored, Option.bind_some, rest]⟩

theorem getentry_other {gdt : Fin gdtMaxDescriptors → BitVec 64} {idx idx' : BitVec 8}
    (hidx : idx.toNat < gdtMaxDescriptors) (d : BitVec 64) (apart : idx'.toNat ≠ idx.toNat) :
    i386GdtGetentry (Function.update gdt ⟨idx.toNat, hidx⟩ d) idx' = i386GdtGetentry gdt idx' := by
  unfold i386GdtGetentry
  split
  · rename_i inside
    have other : (⟨idx'.toNat, inside⟩ : Fin gdtMaxDescriptors) ≠ ⟨idx.toNat, hidx⟩ :=
      fun same => apart (Fin.mk.inj_iff.mp same)
    exact Function.update_of_ne other _ _
  · rfl

/-- Three descriptors are set. What the others held stays, since `memset` clears one byte only. -/
theorem i386GdtInitialize_eq (p : Placed) (c : Cpu) : ∃ gdt, i386GdtInitialize p c =
      some (0, i386GdtInstall { c with gdt := gdt } ⟨79, p.gdt⟩ 0x08 0x10) ∧
    i386GdtGetentry gdt 0 = 0 ∧
    i386GdtGetentry gdt 1 = descriptor 0 0x000fffff gdtCodeRing0 ∧
    i386GdtGetentry gdt 2 = descriptor 0 0x000fffff gdtDataRing0 ∧
    ∀ idx : BitVec 8, 3 ≤ idx.toNat → i386GdtGetentry gdt idx = i386GdtGetentry c.gdt idx := by
  have total (m : Fin gdtMaxDescriptors → BitVec 64) :
      ∃ m', gdtStore m 0 ((0 : U32).setWidth 8) = some m' := ⟨_, dif_pos (by decide)⟩
  obtain ⟨cleared, filled⟩ := memset_total total (8 * gdtMaxDescriptors - 1) c.gdt
  have kept (idx : BitVec 8) (hi : 3 ≤ idx.toNat) :
      i386GdtGetentry cleared idx = i386GdtGetentry c.gdt idx := by
    refine @memset_keeps _ _ gdtStore 0 0 (fun m => i386GdtGetentry m idx) (fun m m' stored => ?_)
      _ _ _ filled
    obtain rfl := Option.some.inj ((dif_pos (by decide)).symm.trans stored)
    have apart : idx.toNat ≠ (0 : BitVec 8).toNat := by
      change _ ≠ 0
      omega
    exact getentry_other (by decide) _ apart
  have zero : (0 : BitVec 8).toNat < gdtMaxDescriptors := by decide
  have one : (1 : BitVec 8).toNat < gdtMaxDescriptors := by decide
  have two : (2 : BitVec 8).toNat < gdtMaxDescriptors := by decide
  refine ⟨Function.update (Function.update (Function.update cleared ⟨_, zero⟩ (descriptor 0 0 0))
    ⟨_, one⟩ (descriptor 0 0x000fffff gdtCodeRing0)) ⟨_, two⟩
      (descriptor 0 0x000fffff gdtDataRing0), ?_, ?_, ?_, ?_, fun idx hi => ?_⟩
  · rw [i386GdtInitialize, filled]
    simp only [Option.bind_eq_bind, Option.bind_some, i386GdtSetentry_inside _ _ _ zero,
      i386GdtSetentry_inside _ _ _ one, i386GdtSetentry_inside _ _ _ two]
    rfl
  · rw [getentry_other two _ (by decide), getentry_other one _ (by decide), i386GdtGetentry_update]
    decide
  · rw [getentry_other two _ (by decide), i386GdtGetentry_update]
  · exact i386GdtGetentry_update two _
  · have low : (0 : BitVec 8).toNat = 0 ∧ (1 : BitVec 8).toNat = 1 ∧ (2 : BitVec 8).toNat = 2 :=
      ⟨rfl, rfl, rfl⟩
    rw [getentry_other two _ (by omega), getentry_other one _ (by omega),
      getentry_other zero _ (by omega), kept idx hi]

theorem i386IdtInitialize_eq (p : Placed) (c : Cpu) : ∃ idt, i386IdtInitialize p c =
      some (0, { c with idt := idt, idtr := ⟨2039, p.idt⟩ }) ∧
    ∀ i, idt i = gate (p.handler .defaulthandler) := by
  have total (m : Fin i386MaxInterrupts → Idtentry) :
      ∃ m', idtStore m 0 ((0 : U32).setWidth 8) = some m' := ⟨_, dif_pos (by decide)⟩
  obtain ⟨cleared, filled⟩ := memset_total total (8 * i386MaxInterrupts - 1) c.idt
  obtain ⟨idt, looped, entries⟩ := @defaultLoop_eq p i386MaxInterrupts 0 cleared
    (Nat.le_of_eq (Nat.zero_add _))
  refine ⟨idt, ?_, fun i => (entries i).trans (if_pos ⟨Nat.zero_le _, ?_⟩)⟩
  · rw [i386IdtInitialize, filled]
    simp only [Option.bind_eq_bind, Option.bind_some, looped]
    rfl
  · rw [Nat.zero_add]
    exact i.isLt

/-- Every gate leads where `f` says. -/
structure Leading (p : Placed) (f : Nat → U32) (c : Cpu) : Prop extends Installed p c where
  gates : ∀ i : Fin i386MaxInterrupts, c.idt i = gate (f i)

theorem Leading.setVectors {f : Nat → U32} (leading : Leading p f c) (vectors : List (Int × U32))
    (inside : ∀ v ∈ vectors, v.1 % 256 ≠ 255) : ∃ c', setVectors vectors c = some c' ∧
      Leading p (vectors.foldl (fun f v => Function.update f (v.1 % 256).toNat v.2) f) c' ∧
      c'.interrupts = c.interrupts := by
  induction vectors generalizing c f with
  | nil => exact ⟨c, rfl, leading, rfl⟩
  | cons v vectors ih =>
    have max : i386MaxInterrupts = 255 := rfl
    have here : (v.1 % 256).toNat < i386MaxInterrupts := by
      have apart := inside v List.mem_cons_self
      omega
    obtain ⟨idt, hidt⟩ : ∃ idt, idt =
      Function.update c.idt ⟨(v.1 % 256).toNat, here⟩ (gate v.2) := ⟨_, rfl⟩
    have next : Leading p (Function.update f (v.1 % 256).toNat v.2) { c with idt := idt } := by
      refine ⟨⟨leading.code, leading.gdtr, leading.idtr⟩, fun i => ?_⟩
      change idt i = _
      rw [hidt]
      by_cases same : i = ⟨(v.1 % 256).toNat, here⟩
      · subst same
        rw [Function.update_self, Function.update_self]
      · rw [Function.update_of_ne same, Function.update_of_ne fun h => same (Fin.ext h)]
        exact leading.gates i
    obtain ⟨c', set, leading', same⟩ := ih next fun w hw => inside w (List.mem_cons_of_mem _ hw)
    refine ⟨c', ?_, leading', same⟩
    rw [DescriptorTables.setVectors, List.foldlM_cons, cpuSetvector_eq here, ← hidt]
    exact set

theorem Leading.dispatch_eq {f : Nat → U32} (leading : Leading p f c) (vector : Nat) :
    dispatch p c vector = if vector < i386MaxInterrupts then some (f vector) else none := by
  by_cases h : vector < i386MaxInterrupts
  · rw [if_pos h]
    exact leading.dispatch_gate h (leading.gates ⟨vector, h⟩)
  · rw [if_neg h]
    exact dispatch_behind p c (Nat.not_lt.mp h)

theorem initializeTables_leading (p : Placed) (c : Cpu) : ∃ c', initializeTables p c = some c' ∧
    Leading p (fun _ => p.handler .defaulthandler) c' ∧ c'.interrupts = c.interrupts := by
  obtain ⟨gdt, set, _, code, _⟩ := i386GdtInitialize_eq p c
  obtain ⟨idt, filled, gates⟩ := i386IdtInitialize_eq p
    (i386GdtInstall { c with gdt := gdt } ⟨79, p.gdt⟩ 0x08 0x10)
  refine ⟨{ i386GdtInstall { c with gdt := gdt } ⟨79, p.gdt⟩ 0x08 0x10 with
    idt := idt
    idtr := ⟨2039, p.idt⟩ }, ?_, ⟨⟨code, rfl, rfl⟩, gates⟩, rfl⟩
  rw [initializeTables, set]
  simp only [Option.bind_eq_bind, Option.bind_some, filled]
  rfl

end DescriptorTables
