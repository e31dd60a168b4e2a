import MissyMicro.ControllerSetup
import MissyMicro.IntervalTimer
import MissyMicro.KernelImage

/-!
# The processor as the kernel sets it up

The tables, the controllers and the timer are set up one after the other. Which routine an
interrupt gets to then depends on all three: a line has a vector from its controller, the vector
has a gate in one table, and the gate has a segment in the other.
-/

namespace ProcessorSetup

open InterruptControllers DescriptorTables ControllerSetup GuardedTables KernelImage
open ServiceRoutines (Handler)
open IntervalTimer (Channel)

structure Processor where
  cpu : Cpu
  pics : Chips
  timer : Channel

def exceptionVectors : List (Int × Handler) :=
  [(0x00, .divbyzero), (0x01, .debugtrap), (0x02, .nmi), (0x03, .breakpoint), (0x04, .overflow),
    (0x05, .bounderror), (0x06, .badopcode), (0x07, .deviceerror), (0x08, .doublefault),
    (0x0a, .invalidtss), (0x0b, .segnotpresent), (0x0c, .stacksegfault), (0x0d, .genprotectfault),
    (0x0e, .pagefault), (0x10, .fpuexception), (0x11, .aligncheck), (0x12, .machinecheck),
    (0x13, .simdexception), (0x14, .virtualizeexception), (0x1e, .securityexception)]

/-- The routines by their addresses. -/
def placed (p : Placed) (vectors : List (Int × Handler)) : List (Int × U32) :=
  vectors.map fun v => (v.1, p.handler v.2)

def i386PitInitialize (p : Placed) (c : Cpu) (timer : Channel) : Option (Cpu × Channel) := do
  let c ← setVectors (placed p [(0x20, .pitIrq)]) c
  let writes ← IntervalTimer.i386PitInitialize
  return (c, writes.foldl Channel.outportb timer)

/-- Without what it prints. -/
def cpuInit (p : Placed) (s : Processor) : Option Processor := do
  let c ← initializeTables p { s.cpu with interrupts := false }
  let c ← setVectors (placed p exceptionVectors) c
  let (_, c, pics) ← i386PicInitialize p c s.pics 0x20 0x28
  let (c, timer) ← i386PitInitialize p c s.timer
  return ⟨{ c with interrupts := true }, pics, timer⟩

def ps2KeybInitialize (p : Placed) (c : Cpu) : Option (Int × Cpu) := do
  let c ← setVectors (placed p [(0x21, .keyb)]) c
  return (0, c)

def cpuShutdown (c : Cpu) : Int × Cpu := (0, { c with interrupts := false })

/-- The last part is where `int 0x80` leads. -/
def cpuReset (p : Placed) (c : Cpu) : Option (Cpu × Option U32) := do
  let c ← setVectors [(0x80, 0x00)] { c with interrupts := false }
  return (c, dispatch p c 0x80)

/-- The exceptions that the processor may raise here. -/
def exceptions : List Handler := exceptionVectors.map Prod.snd

/-- Behind the exceptions there are the timer and the two lines that may be spurious. -/
def bootHandler (vector : Nat) : Handler :=
  if vector = 0x20 then .pitIrq
  else if vector = 0x27 then .irq7
  else if vector = 0x2f then .irq15
  else (exceptions.find? fun h => decide ((KernelWorld.number h).toNat = vector)).getD
    .defaulthandler

/-- The vector of a line. -/
def vectorOf (pics : Chips) (irq : Fin 16) : Nat :=
  if irq.val < 8 then pics.master.offset.toNat + irq.val
  else pics.slave.offset.toNat + (irq.val - 8)

def entered (vectors : List (Int × Handler)) (f : Nat → Handler) : Nat → Handler :=
  vectors.foldl (fun f v => Function.update f (v.1 % 256).toNat v.2) f

theorem placed_foldl (p : Placed) (vectors : List (Int × Handler)) (f : Nat → Handler) :
    (placed p vectors).foldl (fun f v => Function.update f (v.1 % 256).toNat v.2)
      (fun vector => p.handler (f vector)) = fun vector => p.handler (entered vectors f vector) := by
  induction vectors generalizing f with
  | nil => rfl
  | cons v vectors ih =>
    have one : Function.update (fun vector => p.handler (f vector)) (v.1 % 256).toNat
        (p.handler v.2) =
          fun vector => p.handler (Function.update f (v.1 % 256).toNat v.2 vector) := by
      funext vector
      exact (Function.apply_update (fun _ => p.handler) f _ _ vector).symm
    rw [placed, List.map_cons, List.foldl_cons, one]
    exact ih _

variable {p : Placed} {c : Cpu} {f : Nat → Handler}

/-- Every gate leads to the routine that `f` has for it. -/
def Routed (p : Placed) (f : Nat → Handler) (c : Cpu) : Prop :=
  Leading p (fun vector => p.handler (f vector)) c

theorem Routed.setVectors (routed : Routed p f c) (vectors : List (Int × Handler))
    (inside : ∀ v ∈ vectors, v.1 % 256 ≠ 255) :
    ∃ c', setVectors (placed p vectors) c = some c' ∧ Routed p (entered vectors f) c' := by
  have others : ∀ v ∈ placed p vectors, v.1 % 256 ≠ 255 := by
    intro v hv
    obtain ⟨w, hw, rfl⟩ := List.mem_map.mp hv
    exact inside w hw
  obtain ⟨c', set, leading, _⟩ := Leading.setVectors routed _ others
  refine ⟨c', set, ?_⟩
  rw [Routed, ← placed_foldl]
  exact leading

theorem Routed.dispatch_eq (routed : Routed p f c) (vector : Nat) :
    dispatch p c vector =
      if vector < i386MaxInterrupts then some (p.handler (f vector)) else none :=
  Leading.dispatch_eq routed vector

theorem bootHandler_eq : ∀ vector < i386MaxInterrupts,
    entered [(0x20, .pitIrq)] (entered [(0x27, .irq7), (0x2f, .irq15)]
      (entered exceptionVectors fun _ => .defaulthandler)) vector = bootHandler vector := by
  decide +kernel

/-- The vectors of the lines follow the ones that the processor keeps for itself. -/
theorem vectorOf_eq {pics : Chips} (operating : Operating 0x20 0x28 pics) (irq : Fin 16) :
    vectorOf pics irq = 0x20 + irq.val := by
  have first : (0x20 : BitVec 8).toNat = 0x20 := rfl
  have second : (0x28 : BitVec 8).toNat = 0x28 := rfl
  rw [vectorOf, operating.master.offset, operating.slave.offset, first, second]
  split <;> omega

/-- The two vectors that the controllers' own routine sets. -/
theorem i386PicInitialize_eq (routed : Routed p f c) (pics : Chips) : ∃ c' pics',
    i386PicInitialize p c pics 0x20 0x28 = some (0, c', pics') ∧
      Routed p (entered [(0x27, .irq7), (0x2f, .irq15)] f) c' ∧ Operating 0x20 0x28 pics' ∧
      pics'.master.controller = Controller.cleared pics.master.controller ∧
      pics'.slave.controller = Controller.cleared pics.slave.controller := by
  obtain ⟨c', set, routed'⟩ := routed.setVectors [(0x27, .irq7), (0x2f, .irq15)] (by decide)
  obtain ⟨operating, master, slave⟩ := picWords_operating pics 0x20 0x28
  refine ⟨c', _, ?_, routed', operating, master, slave⟩
  rw [placed, List.map_cons, List.map_cons, List.map_nil] at set
  rw [i386PicInitialize, set]
  rfl

theorem timer_started (timer : Channel) : ∃ writes, IntervalTimer.i386PitInitialize = some writes ∧
    (writes.foldl Channel.outportb timer).divisor = some 11776 := by
  obtain ⟨writes, started, received⟩ := @IntervalTimer.i386PitStart_of_ne_zero 100 (by decide)
  exact ⟨writes, started, (received 11776).mpr (by decide) timer⟩

/-- What `cpu_init` leaves. -/
structure Started (p : Placed) (f : Nat → Handler) (before s : Processor) : Prop where
  routed : Routed p f s.cpu
  interrupts : s.cpu.interrupts = true
  pics : Operating 0x20 0x28 s.pics
  master : s.pics.master.controller = Controller.cleared before.pics.master.controller
  slave : s.pics.slave.controller = Controller.cleared before.pics.slave.controller
  timer : s.timer.divisor = some 11776

theorem cpuInit_started (p : Placed) (s : Processor) : ∃ s', cpuInit p s = some s' ∧
    Started p (entered [(0x20, .pitIrq)] (entered [(0x27, .irq7), (0x2f, .irq15)]
      (entered exceptionVectors fun _ => .defaulthandler))) s s' := by
  obtain ⟨first, initialized, leading, _⟩ :=
    initializeTables_leading p { s.cpu with interrupts := false }
  have routed : Routed p (fun _ => .defaulthandler) first := leading
  obtain ⟨second, excepted, routed⟩ := routed.setVectors exceptionVectors (by decide)
  obtain ⟨third, pics, worded, routed, operating, master, slave⟩ :=
    i386PicInitialize_eq routed s.pics
  obtain ⟨fourth, ticking, routed⟩ := routed.setVectors [(0x20, .pitIrq)] (by decide)
  obtain ⟨writes, written, divisor⟩ := timer_started s.timer
  refine ⟨⟨{ fourth with interrupts := true }, pics, writes.foldl Channel.outportb s.timer⟩, ?_,
    ⟨⟨⟨routed.code, routed.gdtr, routed.idtr⟩, routed.gates⟩, rfl, operating, master, slave,
      divisor⟩⟩
  rw [cpuInit, initialized]
  simp only [Option.bind_eq_bind, Option.bind_some, excepted, worded, i386PitInitialize, ticking,
    written]
  rfl

/-- Every vector has a routine, and an exception gets to the routine that prints its number. The
lines have the vectors from 0x20 on, with the masks they had before. -/
theorem cpu_init_routes (p : Placed) (s : Processor) : ∃ s', cpuInit p s = some s' ∧
    s'.cpu.interrupts = true ∧
    (∀ vector, dispatch p s'.cpu vector =
      if vector < i386MaxInterrupts then some (p.handler (bootHandler vector)) else none) ∧
    (∀ h ∈ exceptions, dispatch p s'.cpu (KernelWorld.number h).toNat = some (p.handler h)) ∧
    (∀ irq : Fin 16, vectorOf s'.pics irq = 0x20 + irq.val) ∧
    disabled (s'.pics.machine 0) = disabled (s.pics.machine 0) := by
  obtain ⟨s', init, started⟩ := cpuInit_started p s
  have routes (vector : Nat) : dispatch p s'.cpu vector =
      if vector < i386MaxInterrupts then some (p.handler (bootHandler vector)) else none := by
    rw [started.routed.dispatch_eq]
    split
    · rename_i inside
      rw [bootHandler_eq vector inside]
    · rfl
  refine ⟨s', init, started.interrupts, routes, fun h hh => ?_, vectorOf_eq started.pics, ?_⟩
  · have own : ∀ h ∈ exceptions, (KernelWorld.number h).toNat < i386MaxInterrupts ∧
        bootHandler (KernelWorld.number h).toNat = h := by decide +kernel
    obtain ⟨inside, same⟩ := own h hh
    rw [routes, if_pos inside, same]
  · have masks : ControllerSetup.masks (s'.pics.machine 0) =
        ControllerSetup.masks (s.pics.machine 0) := by
      unfold ControllerSetup.masks Chips.machine
      rw [started.master, started.slave]
      rfl
    rw [disabled, masks, disabled]

/-- The address that each vector leads to: the last one it was set to. -/
def addresses (first : U32) (vectors : List (Int × U32)) : Nat → U32 :=
  vectors.foldl (fun f v => Function.update f (v.1 % 256).toNat v.2) fun _ => first

/-- Whatever the tables held and however often vectors are set, an interrupt leads to the address
its vector was set to last. A vector nobody set leads to the default routine, and the last vector
of the processor has no gate. -/
theorem vectors_lead (p : Placed) (c : Cpu) {vectors : List (Int × U32)}
    (inside : ∀ v ∈ vectors, v.1 % 256 ≠ 255) :
    ∃ c', (initializeTables p c).bind (setVectors vectors) = some c' ∧ ∀ vector,
      dispatch p c' vector = if vector < i386MaxInterrupts then
        some (addresses (p.handler .defaulthandler) vectors vector) else none := by
  obtain ⟨first, initialized, leading, _⟩ := initializeTables_leading p c
  obtain ⟨c', set, leading', _⟩ := leading.setVectors vectors inside
  exact ⟨c', (congrArg (·.bind (setVectors vectors)) initialized).trans set, leading'.dispatch_eq⟩

/-- A vector that is set twice, and one that is not set. -/
theorem vectors_lead_twice : (∀ v ∈ [((0x21 : Int), (0x1000 : U32)), (0x121, 0x2000)],
      v.1 % 256 ≠ 255) ∧
    ∃ c', (initializeTables place blank).bind
        (setVectors [(0x21, 0x1000), (0x121, 0x2000)]) = some c' ∧
      dispatch place c' 0x21 = some 0x2000 ∧
      dispatch place c' 0x22 = some (place.handler .defaulthandler) := by
  have inside : ∀ v ∈ [((0x21 : Int), (0x1000 : U32)), (0x121, 0x2000)], v.1 % 256 ≠ 255 := by
    decide
  obtain ⟨c', set, leads⟩ := vectors_lead place blank inside
  exact ⟨inside, c', set, leads 0x21, leads 0x22⟩

/-- The comment calls the descriptor invalid, but its gate is like the others, and the interrupt
leads to address 0. -/
theorem cpu_reset_leads (p : Placed) (c : Cpu) {vectors : List (Int × U32)}
    (inside : ∀ v ∈ vectors, v.1 % 256 ≠ 255) :
    ∃ c₁ c', (initializeTables p c).bind (setVectors vectors) = some c₁ ∧
      cpuReset p c₁ = some (c', some 0) ∧ c'.interrupts = false ∧
      ∀ vector, vector ≠ 0x80 → dispatch p c' vector = dispatch p c₁ vector := by
  obtain ⟨first, initialized, leading, _⟩ := initializeTables_leading p c
  obtain ⟨c₁, set, leading₁, _⟩ := leading.setVectors vectors inside
  have off : Leading p (addresses (p.handler .defaulthandler) vectors)
      { c₁ with interrupts := false } :=
    ⟨⟨leading₁.code, leading₁.gdtr, leading₁.idtr⟩, leading₁.gates⟩
  obtain ⟨c', reset, leading', kept⟩ := off.setVectors [(0x80, 0x00)] (by decide)
  have interrupt : dispatch p c' 0x80 = some 0 := by
    rw [leading'.dispatch_eq, if_pos (by decide)]
    rfl
  refine ⟨c₁, c', ?_, ?_, kept, fun vector other => ?_⟩
  · rw [initialized, Option.bind_some, set]
  · rw [cpuReset, reset, Option.bind_eq_bind, Option.bind_some, interrupt]
    rfl
  · rw [leading'.dispatch_eq, leading₁.dispatch_eq, addresses, List.foldl_cons, List.foldl_nil]
    exact congrArg (fun a => if vector < i386MaxInterrupts then some a else none)
      (Function.update_of_ne (show vector ≠ _ from other) _ _)

/-- The routine of vector 0x80 is lost, and that of vector 0x20 stays. -/
theorem cpu_reset_leads_twice : (∀ v ∈ [((0x20 : Int), (0x1000 : U32)), (0x80, 0x2000)],
      v.1 % 256 ≠ 255) ∧
    ∃ c₁ c', (initializeTables place blank).bind
        (setVectors [(0x20, 0x1000), (0x80, 0x2000)]) = some c₁ ∧
      dispatch place c₁ 0x80 = some 0x2000 ∧ cpuReset place c₁ = some (c', some 0) ∧
      dispatch place c' 0x20 = some 0x1000 := by
  have inside : ∀ v ∈ [((0x20 : Int), (0x1000 : U32)), (0x80, 0x2000)], v.1 % 256 ≠ 255 := by
    decide
  obtain ⟨c₁, c', set, reset, _, others⟩ := cpu_reset_leads place blank inside
  obtain ⟨first, initialized, leading, _⟩ := initializeTables_leading place blank
  obtain ⟨c₂, set₂, leading₂, _⟩ := leading.setVectors _ inside
  obtain rfl : c₂ = c₁ := by
    rw [initialized, Option.bind_some, set₂] at set
    exact Option.some.inj set
  exact ⟨inside, c₂, c', set, leading₂.dispatch_eq 0x80, reset,
    (others 0x20 (by decide)).trans (leading₂.dispatch_eq 0x20)⟩

end ProcessorSetup
