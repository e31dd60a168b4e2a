import MissyMicro.CodeBlocks
import MissyMicro.InterruptControllers
import MissyMicro.PrintPaths
import MissyMicro.Ps2Keyboard
import MissyMicro.ServiceRoutines

/-!
# What the service routines act on

The routines call functions of the terminal and of the keyboard, talk to the interrupt controllers
and read words and texts of the data sections. With the models of these functions for the calls, a
routine does something definite to the screen, the queue and the controllers.
-/

namespace KernelWorld

open AssemblyCode CodeBlocks Terminal LibcString
open ServiceRoutines hiding code
open InterruptControllers (Controller Machine outportb inportb)
open Printf (Piece Spells loadByte promoted numeral formatAt formatLoop convert ArgsAt)
open Ps2Keyboard (Keyboard)
open PrintedText (code)

universe u

def ascii (text : String) : List (BitVec 8) := text.toUTF8.data.toList.map UInt8.toBitVec

/-- Without the NUL. -/
def bytes : Text → List (BitVec 8)
  | .systemException => ascii "[System Exception 0x%x]: %s\n\n"
  | .systemMustHalt1 =>
    ascii "\nAn irrecoverable system exception has occured. Your system has been"
  | .systemMustHalt2 =>
    ascii "shut down to prevent damage. Please power off and restart your machine."
  | .divisionByZero => ascii "Division by zero"
  | .debugTrap => ascii "Debug Trap"
  | .breakpoint => ascii "Breakpoint detected"
  | .overflow => ascii "Overflow exception"
  | .boundaryError => ascii "Array index out of bounds"
  | .badOpcode => ascii "Bad opcode detected"
  | .deviceError => ascii "Floating-point instruction with no FPU present"
  | .doubleFault => ascii "CPU Double fault"
  | .invalidTss => ascii "Invalid Task State Segment"
  | .segmentNotPresent => ascii "Invalid segment / Segment not present"
  | .stackSegmentFault => ascii "Stack Segment Error"
  | .fpuException => ascii "Floating point unit exception"
  | .alignmentCheck => ascii "Alignment check: Unaligned address was accessed in user mode"
  | .machineCheck => ascii "Machine Check"
  | .simdException => ascii "SIMD Floating Point Exception"
  | .virtualizationException => ascii "Virtualization Exception"
  | .securityException => ascii "Security Exception"
  | .interruptDefault => ascii "i386_defaulthandler called..."
  | .nonMaskable => ascii "Non-maskable interrupt"
  | .watchdogTimer => ascii "Kernel watchdog timer elapsed!"
  | .channelError => ascii "Memory channel error (errant device?)"
  | .parityError => ascii "Parity error (memory failure?)"
  | .unknownError => ascii "Unknown NMI error..."
  | .generalProtectionFault => ascii "General Protection Fault"
  | .gpfOther => ascii "A non-segment error caused this fault"
  | .gpfGdtError => ascii "A segment fault in the GDT caused this fault"
  | .gpfIdtError => ascii "A segment fault in the IDT caused this fault"
  | .gpfLdtError => ascii "A segment fault in the LDT caused this fault"
  | .gpfErrorCodeStr => ascii "Error code: %d\n"
  | .pageFault => ascii "Page Fault"
  | .pageNotPresentError => ascii "The requested page was not present in system memory"
  | .pageProtectionError => ascii "Access violation occurred on page"
  | .pageFaultOnRead => ascii "The fault occurred during an attempt to read from the page"
  | .pageFaultOnWrite => ascii "The fault occurred during an attempt to write to the page"
  | .pageFaultInUserMode => ascii "The process was running in user mode"
  | .pageFaultInKernelMode => ascii "The process was running in kernel mode"
  | .pageFaultOnReserved => ascii "The page fault occured due to reserved field read"
  | .pageFaultInstruction => ascii "The fault was caused on an instruction fetch"
  | .pageFaultAddr => ascii "Fault Linear Address: 0x%x\n"
  | .pageFaultPage => ascii "Fault in Page: 0x%x\n"

/-- The numbers in the data sections, as they are at the start. -/
def number : Handler → U32
  | .divbyzero => 0x0
  | .debugtrap => 0x01
  | .nmi => 0x02
  | .breakpoint => 0x03
  | .overflow => 0x04
  | .bounderror => 0x05
  | .badopcode => 0x06
  | .deviceerror => 0x07
  | .doublefault => 0x08
  | .invalidtss => 0x0a
  | .segnotpresent => 0x0b
  | .stacksegfault => 0x0c
  | .genprotectfault => 0x0d
  | .pagefault => 0x0e
  | .fpuexception => 0x10
  | .aligncheck => 0x11
  | .machinecheck => 0x12
  | .simdexception => 0x13
  | .virtualizeexception => 0x14
  | .securityexception => 0x1e
  | _ => 0

/-- `words` are the words of the data sections by their addresses, `ports` what the ports of other
devices give. -/
structure World where
  words : U32 → U32
  screen : Screen
  keyboard : Keyboard
  master : Controller
  slave : Controller
  ports : BitVec 16 → BitVec 8

/-- The part of the kernel that is fixed when it is linked. `beyond` is what a read past `keymap`
leads to, and `leaves` what a function leaves in the registers that it need not keep. -/
structure Linked where
  symbol : Symbol → U32
  rodata : U32 → BitVec 8
  texts : ∀ t, TextAt loadByte rodata (symbol (.text t)) (bytes t)
  data_injective : ∀ d d', symbol (.data d) = symbol (.data d') → d = d'
  installed : U32 → World → List U32 → World
  beyond : Keyboard → U32 → Keyboard
  leaves : Callee → World → List U32 → U32 × U32 × U32 × Bool

/-- `terminal_setcolor` gives back the color that was set. -/
def terminalSetcolor (s : Screen) (color : BitVec 8) : BitVec 8 × Screen :=
  (s.colorAttrib, { s with colorAttrib := color })

/-- The bytes from `a` up to a NUL, with a bound on their number. -/
def stringAt (mem : U32 → BitVec 8) : Nat → U32 → List (BitVec 8)
  | 0, _ => []
  | n + 1, a => if mem a = 0 then [] else mem a :: stringAt mem n (a + 1)

def argument (stack : List U32) (n : Nat) : U32 := stack.getD n 0

def World.display (w : World) (screen : Screen) : World := { w with screen := screen }

/-- No format of the kernel has more turns than there are addresses. -/
def callFunction (ld : Linked) (w : World) (f : Callee) (stack : List U32) : World :=
  match f with
  | .terminalPuts =>
    let str := stringAt ld.rodata (2 ^ 32) (argument stack 0) ++ [0]
    w.display (w.screen.terminalPuts str).2
  | .terminalPrintf =>
    let args n := argument stack (n + 1)
    let printed := Printf.terminalPrintf w.screen ld.rodata (argument stack 0) args (2 ^ 32)
    w.display (printed.getD w.screen)
  | .terminalSetcolor => w.display (terminalSetcolor w.screen ((argument stack 0).setWidth 8)).2
  | .terminalClrscr => w.display w.screen.terminalClrscr
  | .ps2KeyboardEnqueue =>
    let queued := w.keyboard.ps2KeyboardEnqueue (argument stack 0)
    { w with keyboard := queued.getD (ld.beyond w.keyboard (argument stack 0)) }
  | .installed c => ld.installed c w stack

def World.machine (ld : Linked) (w : World) : Machine :=
  ⟨w.master, w.slave, w.words (ld.symbol (.data .spurious))⟩

def isPicPort (port : BitVec 16) : Bool :=
  decide (port = 0x20 ∨ port = 0x21 ∨ port = 0xa0 ∨ port = 0xa1)

/-- The machine of the kernel. -/
def kernel (ld : Linked) : Env World Callee Symbol where
  symbol := ld.symbol
  load w a := w.words a
  store w a x := { w with words := Function.update w.words a x }
  inb w port := (if isPicPort port then inportb (w.machine ld) port else w.ports port, w)
  outb w port byte :=
    let m := outportb (w.machine ld) port byte
    { w with master := m.master, slave := m.slave }
  entry := .installed
  call w f stack :=
    let r := ld.leaves f w stack
    ⟨callFunction ld w f stack, r.1, r.2.1, r.2.2.1, r.2.2.2⟩

theorem stringAt_text {mem : U32 → BitVec 8} {a : U32} {text : List (BitVec 8)} {n : Nat}
    (h : TextAt loadByte mem a text) (enough : text.length < n) : stringAt mem n a = text := by
  induction text generalizing a n with
  | nil =>
    obtain ⟨n, rfl⟩ := Nat.exists_eq_succ_of_ne_zero (Nat.ne_of_gt enough)
    exact if_pos (Option.some.inj h)
  | cons c text ih =>
    obtain ⟨n, rfl⟩ := Nat.exists_eq_succ_of_ne_zero (Nat.ne_zero_of_lt enough)
    obtain ⟨first, hc, rest⟩ := h
    obtain rfl := Option.some.inj first
    rw [stringAt, if_neg hc, ih rest (Nat.lt_of_succ_lt_succ enough)]

theorem terminalPrintf_exact {mem : U32 → BitVec 8} {str : U32} {args : Nat → U32}
    {pieces : List Piece} (h : Spells mem str args pieces) (s : Screen) :
    Printf.terminalPrintf s mem str args (2 ^ 32) =
      some (s.printAll (pieces.flatMap Piece.output)) :=
  h.formatted_exact Screen.terminalPrintchar h.format.length_lt s

section Printed

variable (ld : Linked) (w : World)

def World.puts (t : Text) (w : World) : World :=
  w.display (w.screen.terminalPuts (bytes t ++ [0])).2

def World.print (text : List U32) (w : World) : World := w.display (w.screen.printAll text)

theorem call_puts (t : Text) (stack : List U32) :
    ((kernel ld).call w .terminalPuts (ld.symbol (.text t) :: stack)).world = w.puts t := by
  have text := stringAt_text (ld.texts t) (ld.texts t).length_lt
  exact congrArg (fun str => w.display (w.screen.terminalPuts (str ++ [0])).2) text

theorem call_printf {f : U32} {stack : List U32} {pieces : List Piece}
    (h : Spells ld.rodata f (fun n => argument stack n) pieces) :
    ((kernel ld).call w .terminalPrintf (f :: stack)).world =
      w.print (pieces.flatMap Piece.output) :=
  congrArg (fun screen : Option Screen => w.display (screen.getD w.screen))
    (terminalPrintf_exact h w.screen)

/-- What is printed may depend on the words, but on nothing that is on the screen. -/
def Prints (ld : Linked) (block : Routine) (text : (U32 → U32) → List U32) : Prop :=
  Acts (kernel ld) block fun w => w.print (text w.words)

theorem print_append (text text' : List U32) :
    (w.print text).print text' = w.print (text ++ text') :=
  congrArg w.display (List.foldl_append).symm

theorem Prints.append {ld : Linked} {block block' : Routine} {text text' : (U32 → U32) → List U32}
    (h : Prints ld block text) (h' : Prints ld block' text') :
    Prints ld (block ++ block') fun words => text words ++ text' words := by
  intro s
  obtain ⟨t, done, kept, world⟩ := (Acts.append h h') s
  refine ⟨t, done, kept, world.trans ?_⟩
  exact print_append s.world (text s.world.words) (text' s.world.words)

/-- What `terminal_puts` passes on. -/
def line (t : Text) : List U32 := (bytes t ++ [0x0d]).map code

theorem puts_eq (linked : Linked) (t : Text) : w.puts t = w.print (line t) :=
  congrArg w.display (PrintPaths.terminalPuts_eq (linked.texts t).chars)

theorem prints_puts (t : Text) : Prints ld (ServiceRoutines.puts t) fun _ => line t := by
  refine Acts.callWith (a := fun _ => [ld.symbol (.text t)]) (fun s => rfl) fun w stack => ?_
  exact (call_puts ld w t stack).trans (puts_eq w ld t)

def literals (text : List (BitVec 8)) : List Piece := text.map .literal

theorem literals_bytes (text : List (BitVec 8)) : (literals text).flatMap Piece.bytes = text := by
  rw [literals, List.flatMap_map]
  exact (List.flatMap_pure_eq_map id text).trans (List.map_id text)

theorem literals_words (text : List (BitVec 8)) : (literals text).flatMap Piece.words = [] := by
  rw [literals, List.flatMap_map]
  exact List.flatMap_eq_nil_iff.mpr fun _ _ => rfl

theorem literals_output (text : List (BitVec 8)) :
    (literals text).flatMap Piece.output = text.map promoted := by
  rw [literals, List.flatMap_map]
  exact List.flatMap_pure_eq_map promoted text

theorem literals_valid {mem : U32 → BitVec 8} {text : List (BitVec 8)}
    (plain : ∀ c ∈ text, c ≠ 0x25) : ∀ piece ∈ literals text, piece.Valid mem := by
  intro piece hp
  obtain ⟨c, hc, rfl⟩ := List.mem_map.mp hp
  exact plain c hc

end Printed

end KernelWorld
