import MissyMicro.AssemblyCode

/-!
# The routines behind the interrupt gates

Every gate leads to a routine written in assembly. Some report and go back, some report and stop
the machine, and two go back through words that are not the ones the processor pushed: one leaves
the error code on the stack, the other the arguments of its last call.
-/

namespace ServiceRoutines

open AssemblyCode

universe w

/-- `installed` is the function at an address that was put into `syscall_table`. -/
inductive Callee where
  | terminalPuts
  | terminalPrintf
  | terminalSetcolor
  | terminalClrscr
  | ps2KeyboardEnqueue
  | installed (c : U32)
  deriving DecidableEq

inductive Label where
  | checkSysportB | watchdogTimer | channelErr | parityErr | systemHalt
  | idtEntry | ldtEntry | otherError | finish | i386StopSystem
  | pageProtectionError | pageRwBit | pageWrite | pageRingBit | pageRing3 | pageReservedBit
  | instructionBit
  | spurious | interruptDone
  deriving DecidableEq

inductive Text where
  | systemException | systemMustHalt1 | systemMustHalt2
  | divisionByZero | debugTrap | breakpoint | overflow | boundaryError | badOpcode | deviceError
  | doubleFault | invalidTss | segmentNotPresent | stackSegmentFault | fpuException
  | alignmentCheck | machineCheck | simdException | virtualizationException | securityException
  | interruptDefault
  | nonMaskable | watchdogTimer | channelError | parityError | unknownError
  | generalProtectionFault | gpfOther | gpfGdtError | gpfIdtError | gpfLdtError | gpfErrorCodeStr
  | pageFault | pageNotPresentError | pageProtectionError | pageFaultOnRead | pageFaultOnWrite
  | pageFaultInUserMode | pageFaultInKernelMode | pageFaultOnReserved | pageFaultInstruction
  | pageFaultAddr | pageFaultPage
  deriving DecidableEq

inductive Handler where
  | divbyzero | debugtrap | nmi | breakpoint | overflow | bounderror | badopcode | deviceerror
  | doublefault | invalidtss | segnotpresent | stacksegfault | genprotectfault | pagefault
  | fpuexception | aligncheck | machinecheck | simdexception | virtualizeexception
  | securityexception | defaulthandler | irq7 | irq15 | pitIrq | keyb
  deriving DecidableEq

/-- Words in the data sections. Every file has a number of its exception of its own. -/
inductive Datum where
  | exceptionNumber (h : Handler)
  | gpfCode
  | pfErrorCode
  | spurious
  | pitTickCount
  deriving DecidableEq

/-- `behindCall` is the address behind a call of a routine of `i386_exception.asm`. -/
inductive Symbol where
  | text (t : Text)
  | data (d : Datum)
  | syscallTable
  | behindCall
  deriving DecidableEq

abbrev Routine := List (Instr Callee Symbol Label)

def i386ExceptionColor : U32 := 0x4f

def i386ExceptionSetDisp : Routine :=
  callWith .terminalSetcolor [.imm i386ExceptionColor] ++ [.call .terminalClrscr]

def puts (t : Text) : Routine := callWith .terminalPuts [.sym (.text t)]

def i386SystemStop : Routine :=
  puts .systemMustHalt1 ++ puts .systemMustHalt2 ++ [.cli, .hang]

def exceptionNumber (h : Handler) : Operand Symbol := .mem (.data (.exceptionNumber h))

def printException (t : Text) (number : Operand Symbol) (format : Text) : Routine :=
  callWith .terminalPrintf [.sym (.text t), number, .sym (.text format)]

/-- Report and go back. -/
def notifying (h : Handler) (t : Text) : Routine :=
  .pushad :: printException t (exceptionNumber h) .systemException ++ [.popad, .iretd]

/-- Report and stop. -/
def stopping (t : Text) (number : Operand Symbol) (format : Text) : Routine :=
  .pushad :: callNear .behindCall i386ExceptionSetDisp ++ printException t number format ++
    callNear .behindCall i386SystemStop ++ [.popad, .iretd]

def i386Divbyzero : Routine := notifying .divbyzero .divisionByZero
def i386Debugtrap : Routine := notifying .debugtrap .debugTrap
def i386Breakpoint : Routine := notifying .breakpoint .breakpoint
def i386Bounderror : Routine := notifying .bounderror .boundaryError
def i386Fpuexception : Routine := notifying .fpuexception .fpuException
def i386Aligncheck : Routine := notifying .aligncheck .alignmentCheck
def i386Virtualizeexception : Routine :=
  notifying .virtualizeexception .virtualizationException

def i386Overflow : Routine :=
  stopping .overflow (exceptionNumber .overflow) .systemException
def i386Badopcode : Routine :=
  stopping .badOpcode (exceptionNumber .badopcode) .systemException
def i386Doublefault : Routine :=
  stopping .doubleFault (exceptionNumber .doublefault) .systemException
def i386Invalidtss : Routine :=
  stopping .invalidTss (exceptionNumber .invalidtss) .systemException
def i386Segnotpresent : Routine :=
  stopping .segmentNotPresent (exceptionNumber .segnotpresent) .systemException
def i386Stacksegfault : Routine :=
  stopping .stackSegmentFault (exceptionNumber .stacksegfault) .systemException
def i386Machinecheck : Routine :=
  stopping .machineCheck (exceptionNumber .machinecheck) .systemException
def i386Simdexception : Routine :=
  stopping .simdException (exceptionNumber .simdexception) .systemException

/-- Pushes the address of the number. -/
def i386Deviceerror : Routine :=
  stopping .deviceError (.sym (.data (.exceptionNumber .deviceerror))) .systemException

/-- Pushes its own text where the format should be. -/
def i386Securityexception : Routine :=
  stopping .securityException (exceptionNumber .securityexception) .securityException

def i386Nmi : Routine :=
  .pushad :: callNear .behindCall i386ExceptionSetDisp ++
    printException .nonMaskable (exceptionNumber .nmi) .systemException ++
    ([.inAl (.imm 0x92), .andAl 0x10, .jz .checkSysportB, .label .watchdogTimer] : Routine) ++
    puts .watchdogTimer ++
    ([.jmp .systemHalt, .label .checkSysportB,
      .inAl (.imm 0x61), .andAl 0x40, .jz .channelErr, .andAl 0x80, .jz .parityErr] : Routine) ++
    puts .unknownError ++ ([.jmp .systemHalt, .label .channelErr] : Routine) ++
    puts .channelError ++ ([.jmp .systemHalt, .label .parityErr] : Routine) ++
    puts .parityError ++ ([.label .systemHalt] : Routine) ++
    callNear .behindCall i386SystemStop ++ ([.popad, .iretd] : Routine)

/-- The line that should call `i386_system_stop` is the name `i386_stop_system` alone, which makes
it a label. -/
def i386Genprotectfault : Routine :=
  ([.pop (.mem (.data .gpfCode)), .pushad] : Routine) ++
    callNear .behindCall i386ExceptionSetDisp ++
    printException .generalProtectionFault (exceptionNumber .genprotectfault)
      .systemException ++
    ([.alu .or (.reg .eax) (.reg .eax), .jz .otherError,
      .mov (.reg .eax) (.mem (.data .gpfCode)),
      .alu .and (.reg .eax) (.imm 0x02), .jnz .idtEntry,
      .alu .and (.reg .eax) (.imm 0x04), .jnz .ldtEntry] : Routine) ++
    puts .gpfGdtError ++ ([.jmp .finish, .label .idtEntry] : Routine) ++
    puts .gpfIdtError ++ ([.jmp .finish, .label .ldtEntry] : Routine) ++
    puts .gpfLdtError ++ ([.jmp .finish, .label .otherError] : Routine) ++
    puts .gpfOther ++
    ([.label .finish, .push (.mem (.data .gpfCode)), .push (.sym (.text .gpfErrorCodeStr)),
      .call .terminalPrintf, .label .i386StopSystem, .popad, .iretd] : Routine)

def testErrorCode (bit : U32) : Routine :=
  [.mov (.reg .eax) (.mem (.data .pfErrorCode)), .alu .and (.reg .eax) (.imm bit)]

/-- One text when the bit of the error code is clear, another one when it is set. -/
def eitherText (bit : U32) (clear set : Text) (l next : Label) : Routine :=
  testErrorCode bit ++ .jnz l :: puts clear ++ [.jmp next, .label l] ++ puts set ++ [.label next]

def textIfSet (bit : U32) (set : Text) (next : Label) : Routine :=
  testErrorCode bit ++ .jz next :: puts set ++ [.label next]

def i386Pagefault : Routine :=
  ([.pop (.mem (.data .pfErrorCode)), .pushad] : Routine) ++
    callNear .behindCall i386ExceptionSetDisp ++
    printException .pageFault (exceptionNumber .pagefault) .systemException ++
    ([.movFromCr .eax 2] : Routine) ++
    (callWith .terminalPrintf [.reg .eax, .sym (.text .pageFaultAddr)] : Routine) ++
    ([.movFromCr .eax 2, .alu .and (.reg .eax) (.imm 0xfffff000)] : Routine) ++
    (callWith .terminalPrintf [.reg .eax, .sym (.text .pageFaultPage)] : Routine) ++
    eitherText 0x01 .pageNotPresentError .pageProtectionError .pageProtectionError .pageRwBit ++
    eitherText 0x02 .pageFaultOnRead .pageFaultOnWrite .pageWrite .pageRingBit ++
    eitherText 0x04 .pageFaultInKernelMode .pageFaultInUserMode .pageRing3 .pageReservedBit ++
    textIfSet 0x08 .pageFaultOnReserved .instructionBit ++
    textIfSet 0x10 .pageFaultInstruction .finish ++
    callNear .behindCall i386SystemStop ++ ([.popad, .iretd] : Routine)

def i386Defaulthandler : Routine := .pushad :: puts .interruptDefault ++ [.popad, .iretd]

def i386HandlerIrq7 : Routine :=
  [.pushad, .movDx 0x21, .inAl .dx, .andAl 0x80, .jz .spurious,
    .movAl 0x20, .outAl (.imm 0x20), .jmp .interruptDone,
    .label .spurious, .inc (.mem (.data .spurious)),
    .label .interruptDone, .popad, .iretd]

/-- `X86_PIC2_PORT_DATA` is defined twice, the second time as 0xa1. -/
def i386HandlerIrq15 : Routine :=
  [.pushad, .movDx 0xa1, .inAl .dx, .andAl 0x80, .jz .spurious,
    .movAl 0x20, .outAl (.imm 0x20), .outAl (.imm 0xa0), .jmp .interruptDone,
    .label .spurious, .inc (.mem (.data .spurious)), .movAl 0x20, .outAl (.imm 0x20),
    .label .interruptDone, .popad, .iretd]

def pitIrqHandler : Routine :=
  [.pushad, .inc (.mem (.data .pitTickCount)), .movAl 0x20, .outAl (.imm 0x20),
    .popad, .iretd]

def keybInterrupt : Routine :=
  ([.cli, .pushad, .alu .xor (.reg .eax) (.reg .eax), .inAl (.imm 0x60)] : Routine) ++
    (callWith .ps2KeyboardEnqueue [.reg .eax] : Routine) ++
    ([.movAl 0x20, .outAl (.imm 0x20), .popad, .sti, .iretd] : Routine)

/-- No vector is set to it. -/
def systemCall : Routine :=
  [.push (.reg .ebx), .mov (.reg .ebx) (.sym .syscallTable),
    .mov (.reg .edx) (.imm 0x04), .mul .edx, .alu .add (.reg .ebx) (.reg .eax),
    .callAt .ebx, .pop (.reg .ebx), .iretd]

def code : Handler → Routine
  | .divbyzero => i386Divbyzero
  | .debugtrap => i386Debugtrap
  | .nmi => i386Nmi
  | .breakpoint => i386Breakpoint
  | .overflow => i386Overflow
  | .bounderror => i386Bounderror
  | .badopcode => i386Badopcode
  | .deviceerror => i386Deviceerror
  | .doublefault => i386Doublefault
  | .invalidtss => i386Invalidtss
  | .segnotpresent => i386Segnotpresent
  | .stacksegfault => i386Stacksegfault
  | .genprotectfault => i386Genprotectfault
  | .pagefault => i386Pagefault
  | .fpuexception => i386Fpuexception
  | .aligncheck => i386Aligncheck
  | .machinecheck => i386Machinecheck
  | .simdexception => i386Simdexception
  | .virtualizeexception => i386Virtualizeexception
  | .securityexception => i386Securityexception
  | .defaulthandler => i386Defaulthandler
  | .irq7 => i386HandlerIrq7
  | .irq15 => i386HandlerIrq15
  | .pitIrq => pitIrqHandler
  | .keyb => keybInterrupt

/-- The processor pushes an error code with these exceptions. -/
def Handler.withCode : Handler → Bool
  | .doublefault => true
  | .invalidtss => true
  | .segnotpresent => true
  | .stacksegfault => true
  | .genprotectfault => true
  | .pagefault => true
  | .aligncheck => true
  | .securityexception => true
  | _ => false

/-- The routines that call `i386_system_stop`. -/
def Handler.stops : Handler → Bool
  | .nmi => true
  | .overflow => true
  | .badopcode => true
  | .deviceerror => true
  | .doublefault => true
  | .invalidtss => true
  | .segnotpresent => true
  | .stacksegfault => true
  | .pagefault => true
  | .machinecheck => true
  | .simdexception => true
  | .securityexception => true
  | _ => false

def handle {W : Type w} (env : Env W Callee Symbol) (h : Handler) (ctx : Context)
    (s : State W) : Outcome W :=
  service env h.withCode (code h) ctx s

/-- Two routines go back through words that are not the ones the processor pushed last. -/
def Handler.misdirected (h : Handler) : Bool :=
  decide (h = .aligncheck) || decide (h = .genprotectfault)

theorem always_halts : ∀ h : Handler, h.stops = true →
    Always Ending.halts h.withCode (code h) = true := by
  intro h stops
  cases h <;> cases stops <;> decide +kernel

theorem always_restores : ∀ h : Handler, h.stops = false → h.misdirected = false →
    Always Ending.restores h.withCode (code h) = true := by
  intro h goes straight
  cases h <;> cases goes <;> cases straight <;> decide +kernel

/-- The error code is still on the stack. -/
theorem aligncheck_always : Always (Ending.resumesWith .code .eip .cs [.eflags] .reg)
    Handler.aligncheck.withCode (code .aligncheck) = true := by
  decide +kernel

/-- The two arguments of the last call are still on the stack, so that every word comes out of the
place of one two below it. -/
theorem genprotectfault_always :
    Always (Ending.resumesWith (.reg .ecx) (.reg .eax) .eip [.cs, .eflags]
      (registers (.reg .edx) (.reg .ebx) .other (.reg .ebp) (.reg .edi) .other .other))
      Handler.genprotectfault.withCode (code .genprotectfault) = true := by
  decide +kernel

section Outcomes

variable {W : Type w} (env : Env W Callee Symbol) (ctx : Context) (s : State W)

theorem handle_aligncheck : ∃ t,
    handle env .aligncheck ctx s = .resumed ctx.code ctx.eip ctx.cs t ∧ t.regs = ctx.regs ∧
      t.stack = ctx.eflags :: ctx.stack := by
  obtain ⟨x, y, z, t, ended, rfl, rfl, rfl, fits⟩ := service_resumesWith aligncheck_always env ctx s
  obtain ⟨flags, rest, stack, rfl, rfl⟩ := fits.stack
  exact ⟨t, ended, funext fits.regs, stack⟩

theorem handle_genprotectfault : ∃ t,
    handle env .genprotectfault ctx s =
      .resumed (ctx.regs .ecx) (ctx.regs .eax) ctx.eip t ∧
      t.regs .eax = ctx.regs .edx ∧ t.regs .ecx = ctx.regs .ebx ∧ t.regs .ebx = ctx.regs .ebp ∧
      t.regs .ebp = ctx.regs .edi ∧ t.stack = ctx.cs :: ctx.eflags :: ctx.stack := by
  obtain ⟨x, y, z, t, ended, rfl, rfl, rfl, fits⟩ :=
    service_resumesWith genprotectfault_always env ctx s
  obtain ⟨segment, rest, stack, rfl, flags, rest', rfl, rfl, rfl⟩ := fits.stack
  exact ⟨t, ended, fits.regs .eax, fits.regs .ecx, fits.regs .ebx, fits.regs .ebp, stack⟩

theorem not_resumes_of_halts {o : Outcome W} (halts : Halts o) : ¬ Resumes ctx o := by
  obtain ⟨t, rfl⟩ := halts
  rintro ⟨u, other, _⟩
  cases other

theorem not_halts_of_resumed {o : Outcome W} {ip segment flags : U32} {t : State W}
    (resumed : o = .resumed ip segment flags t) : ¬ Halts o := by
  rintro ⟨u, halted⟩
  cases resumed.symm.trans halted

/-- More is left on the stack than the program had there. -/
theorem not_resumes_of_stack {o : Outcome W} {ip segment flags : U32} {t : State W}
    (resumed : o = .resumed ip segment flags t) (longer : t.stack.length ≠ ctx.stack.length) :
    ¬ Resumes ctx o := by
  rintro ⟨u, other, _, same⟩
  cases resumed.symm.trans other
  exact longer (congrArg List.length same)

theorem misdirected_iff {h : Handler} :
    h.misdirected = true ↔ h = .aligncheck ∨ h = .genprotectfault := by
  rw [Handler.misdirected, Bool.or_eq_true, decide_eq_true_iff, decide_eq_true_iff]

/-- The two that are misdirected end by `iretd` as well. -/
theorem handle_halts_or_resumes (h : Handler) : Halts (handle env h ctx s) ∨
    ∃ eip cs eflags t, handle env h ctx s = .resumed eip cs eflags t := by
  by_cases stops : h.stops = true
  · exact Or.inl (service_halts (always_halts h stops) env ctx s)
  refine Or.inr ?_
  by_cases misdirected : h.misdirected = true
  · rcases misdirected_iff.mp misdirected with rfl | rfl
    · obtain ⟨t, resumed, _⟩ := handle_aligncheck env ctx s
      exact ⟨_, _, _, t, resumed⟩
    · obtain ⟨t, resumed, _⟩ := handle_genprotectfault env ctx s
      exact ⟨_, _, _, t, resumed⟩
  · obtain ⟨t, resumed, _⟩ := service_resumes
      (always_restores h (Bool.eq_false_iff.mpr stops) (Bool.eq_false_iff.mpr misdirected)) env ctx s
    exact ⟨_, _, _, t, resumed⟩

theorem handle_ne_unfinished (h : Handler) : handle env h ctx s ≠ .unfinished := by
  intro unfinished
  rcases handle_halts_or_resumes env ctx s h with ⟨t, halted⟩ | ⟨eip, cs, eflags, t, resumed⟩
  · cases unfinished.symm.trans halted
  · cases unfinished.symm.trans resumed

/-- Every routine halts or resumes some program. Those that stop halt, and the others but two give
back the interrupted one. -/
theorem handle_ends (h : Handler) :
    (Halts (handle env h ctx s) ∨
      ∃ eip cs eflags t, handle env h ctx s = .resumed eip cs eflags t) ∧
    (Halts (handle env h ctx s) ↔ h.stops = true) ∧
    (Resumes ctx (handle env h ctx s) ↔
      h.stops = false ∧ h ≠ .aligncheck ∧ h ≠ .genprotectfault) := by
  refine ⟨handle_halts_or_resumes env ctx s h, ?_⟩
  by_cases stops : h.stops = true
  · have halts := service_halts (always_halts h stops) env ctx s
    refine ⟨iff_of_true halts stops, iff_of_false (not_resumes_of_halts ctx halts) fun goes => ?_⟩
    exact Bool.noConfusion (stops.symm.trans goes.1)
  have goes := Bool.eq_false_iff.mpr stops
  by_cases misdirected : h.misdirected = true
  · rcases misdirected_iff.mp misdirected with rfl | rfl
    · obtain ⟨t, resumed, _, stack⟩ := handle_aligncheck env ctx s
      refine ⟨iff_of_false (not_halts_of_resumed resumed) stops,
        iff_of_false (not_resumes_of_stack ctx resumed ?_) fun other => other.2.1 rfl⟩
      rw [stack, List.length_cons]
      omega
    · obtain ⟨t, resumed, _, _, _, _, stack⟩ := handle_genprotectfault env ctx s
      refine ⟨iff_of_false (not_halts_of_resumed resumed) stops,
        iff_of_false (not_resumes_of_stack ctx resumed ?_) fun other => other.2.2 rfl⟩
      rw [stack, List.length_cons, List.length_cons]
      omega
  · have straight := Bool.eq_false_iff.mpr misdirected
    have resumes := service_resumes (always_restores h goes straight) env ctx s
    have ⟨t, resumed, _⟩ := resumes
    refine ⟨iff_of_false (not_halts_of_resumed resumed) stops, iff_of_true resumes ⟨goes, ?_, ?_⟩⟩
    · exact fun same => misdirected (misdirected_iff.mpr (Or.inl same))
    · exact fun same => misdirected (misdirected_iff.mpr (Or.inr same))

end Outcomes

end ServiceRoutines
