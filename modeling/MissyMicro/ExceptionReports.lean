import MissyMicro.KernelImage

/-!
# What the exceptions report

An exception prints its number and its text, and those that stop the machine clear the screen
first. Three of them add what they find out about the cause. Here it is said what reaches the
screen, for every routine and from every state.
-/

namespace ExceptionReports

open AssemblyCode CodeBlocks KernelWorld Terminal LibcString
open ServiceRoutines hiding code
open Printf (Piece Spells loadByte promoted numeral ArgsAt)
open PrintedText (code)

/-! ## Texts -/

/-- The text that an exception prints with its number. -/
def exceptionText : Handler → Text
  | .divbyzero => .divisionByZero
  | .debugtrap => .debugTrap
  | .nmi => .nonMaskable
  | .breakpoint => .breakpoint
  | .overflow => .overflow
  | .bounderror => .boundaryError
  | .badopcode => .badOpcode
  | .deviceerror => .deviceError
  | .doublefault => .doubleFault
  | .invalidtss => .invalidTss
  | .segnotpresent => .segmentNotPresent
  | .stacksegfault => .stackSegmentFault
  | .genprotectfault => .generalProtectionFault
  | .pagefault => .pageFault
  | .fpuexception => .fpuException
  | .aligncheck => .alignmentCheck
  | .machinecheck => .machineCheck
  | .simdexception => .simdException
  | .virtualizeexception => .virtualizationException
  | .securityexception => .securityException
  | _ => .interruptDefault

/-- The NUL of the number is printed, too. -/
def exceptionLine (n : U32) (text : List (BitVec 8)) : List U32 :=
  (ascii "[System Exception 0x" ++ (numeral 16 n.toNat ++ [0]) ++ ascii "]: " ++ text ++
    ascii "\n\n").map promoted

/-- A text, a number and a line break. -/
def hexLine (text : List (BitVec 8)) (n : U32) : List U32 :=
  (text ++ (numeral 16 n.toNat ++ [0]) ++ [0x0a]).map promoted

def stopLines : List U32 := line .systemMustHalt1 ++ line .systemMustHalt2

variable (ld : Linked)

/-- What stands in the first line. One routine passes the address of its number, and one its text
as the format. -/
def header (words : U32 → U32) : Handler → List U32
  | .deviceerror =>
    exceptionLine (ld.symbol (.data (.exceptionNumber .deviceerror))) (bytes .deviceError)
  | .securityexception => (bytes .securityException).map promoted
  | h => exceptionLine (words (ld.symbol (.data (.exceptionNumber h)))) (bytes (exceptionText h))

/-- Bit 4 of port 0x92 is looked at first. That bit 6 of port 0x61 is set leaves no bit 7 behind. -/
def nmiText (ports : BitVec 16 → BitVec 8) : Text :=
  if ports 0x92 &&& 0x10 = 0 then
    if ports 0x61 &&& 0x40 = 0 then .channelError else .parityError
  else .watchdogTimer

def pageFaultTexts (code : U32) : List Text :=
  (if code &&& 0x01 = 0 then .pageNotPresentError else .pageProtectionError) ::
  (if code &&& 0x02 = 0 then .pageFaultOnRead else .pageFaultOnWrite) ::
  (if code &&& 0x04 = 0 then .pageFaultInKernelMode else .pageFaultInUserMode) ::
  ((if code &&& 0x08 = 0 then [] else [.pageFaultOnReserved]) ++
    (if code &&& 0x10 = 0 then [] else [.pageFaultInstruction]))

def pageFaultLines (code cr2 : U32) : List U32 :=
  hexLine (ascii "Fault Linear Address: 0x") cr2 ++
    hexLine (ascii "Fault in Page: 0x") (cr2 &&& 0xfffff000) ++
    (pageFaultTexts code).flatMap line

/-! ## Printed lines -/

section Lines

theorem prints_formatted {number : Operand Symbol} {value : (U32 → U32) → U32}
    (reads : ∀ s : State World, read (kernel ld) s number = value s.world.words) {t format : Text}
    {text : (U32 → U32) → List U32}
    (spells : ∀ words stack, ∃ pieces : List Piece, pieces.flatMap Piece.output = text words ∧
      Spells ld.rodata (ld.symbol (.text format))
        (fun n => argument (value words :: ld.symbol (.text t) :: stack) n) pieces) :
    Prints ld (printException t number format) text := by
  refine Acts.callWith
    (a := fun w => [ld.symbol (.text t), value w.words, ld.symbol (.text format)])
    (fun s => ?_) fun w stack => ?_
  · change [_, read (kernel ld) s number, _] = _
    rw [reads]
    rfl
  · obtain ⟨pieces, output, spells⟩ := spells w.words stack
    rw [← output]
    exact call_printf ld w spells

/-- The texts that are taken apart at their directives, evaluated once. -/
theorem spellings :
    (bytes .systemException = ascii "[System Exception 0x" ++ ([0x25, 0x78] ++
        (ascii "]: " ++ ([0x25, 0x73] ++ ascii "\n\n"))) ∧
      bytes .pageFaultAddr = ascii "Fault Linear Address: 0x" ++ [0x25, 0x78, 0x0a] ∧
      bytes .pageFaultPage = ascii "Fault in Page: 0x" ++ [0x25, 0x78, 0x0a]) ∧
    [ascii "[System Exception 0x", ascii "]: ", ascii "\n\n", bytes .securityException,
      ascii "Fault Linear Address: 0x", ascii "Fault in Page: 0x"].all fun text =>
        text.all fun c => c != 0x25 := by
  decide +kernel

theorem plain_of_spellings {text : List (BitVec 8)} (h : text ∈ [ascii "[System Exception 0x",
    ascii "]: ", ascii "\n\n", bytes .securityException, ascii "Fault Linear Address: 0x",
    ascii "Fault in Page: 0x"]) : ∀ c ∈ text, c ≠ 0x25 := by
  have plain := List.all_eq_true.mp spellings.2 text h
  simpa using plain

def exceptionPieces (n address : U32) (text : List (BitVec 8)) : List Piece :=
  literals (ascii "[System Exception 0x") ++ .number .x n :: literals (ascii "]: ") ++
    .string address text :: literals (ascii "\n\n")

theorem exceptionPieces_spell (n : U32) (t : Text) (stack : List U32) :
    Spells ld.rodata (ld.symbol (.text .systemException))
      (fun k => argument (n :: ld.symbol (.text t) :: stack) k)
      (exceptionPieces n (ld.symbol (.text t)) (bytes t)) := by
  constructor
  · have spelled : (exceptionPieces n (ld.symbol (.text t)) (bytes t)).flatMap Piece.bytes =
        bytes .systemException := by
      simp only [exceptionPieces, List.flatMap_append, List.flatMap_cons, literals_bytes]
      change _ ++ ([0x25, 0x78] ++ _) ++ ([0x25, 0x73] ++ _) = _
      rw [spellings.1.1, List.append_assoc, List.append_assoc]
    rw [spelled]
    exact ld.texts .systemException
  · have words : (exceptionPieces n (ld.symbol (.text t)) (bytes t)).flatMap Piece.words =
        [n, ld.symbol (.text t)] := by
      simp only [exceptionPieces, List.flatMap_append, List.flatMap_cons, literals_words]
      rfl
    rw [words]
    exact ⟨rfl, rfl, trivial⟩
  · intro piece hp
    simp only [exceptionPieces, List.mem_append, List.mem_cons] at hp
    rcases hp with (hp | rfl | hp) | rfl | hp
    · exact literals_valid (plain_of_spellings (.head _)) piece hp
    · trivial
    · exact literals_valid (plain_of_spellings (.tail _ (.head _))) piece hp
    · exact ld.texts t
    · exact literals_valid (plain_of_spellings (.tail _ (.tail _ (.head _)))) piece hp

theorem exceptionPieces_output (n address : U32) (text : List (BitVec 8)) :
    (exceptionPieces n address text).flatMap Piece.output = exceptionLine n text := by
  simp only [exceptionPieces, exceptionLine, List.flatMap_append, List.flatMap_cons,
    literals_output, Piece.output, Printf.NumberKind.base, List.map_append, List.append_assoc]

theorem prints_exception {number : Operand Symbol} {value : (U32 → U32) → U32}
    (reads : ∀ s : State World, read (kernel ld) s number = value s.world.words) (t : Text) :
    Prints ld (printException t number .systemException) fun words =>
      exceptionLine (value words) (bytes t) :=
  prints_formatted ld reads fun words stack =>
    ⟨exceptionPieces (value words) (ld.symbol (.text t)) (bytes t), exceptionPieces_output _ _ _,
      exceptionPieces_spell ld (value words) t stack⟩

theorem reads_number (h : Handler) (s : State World) : read (kernel ld) s (exceptionNumber h) =
    s.world.words (ld.symbol (.data (.exceptionNumber h))) := rfl

theorem prints_numbered (h : Handler) (t : Text) :
    Prints ld (printException t (exceptionNumber h) .systemException) fun words =>
      exceptionLine (words (ld.symbol (.data (.exceptionNumber h)))) (bytes t) :=
  @prints_exception ld _ (fun words => words (ld.symbol (.data (.exceptionNumber h))))
    (reads_number ld h) t

theorem prints_security : Prints ld
    (printException .securityException (exceptionNumber .securityexception) .securityException)
    fun _ => (bytes .securityException).map promoted := by
  refine @prints_formatted ld _ (fun words => words _) (reads_number ld .securityexception) _ _ _
    fun words stack => ⟨literals (bytes .securityException), literals_output _, ?_, ?_, ?_⟩
  · rw [literals_bytes]
    exact ld.texts .securityException
  · rw [literals_words]
    trivial
  · exact literals_valid (plain_of_spellings (.tail _ (.tail _ (.tail _ (.head _)))))

/-- The number in an operand, in a line of its own. -/
theorem performAll_number {src : Operand Symbol} {format : Text} {text : U32 → List U32}
    (spells : ∀ n stack, ∃ pieces : List Piece, pieces.flatMap Piece.output = text n ∧
      Spells ld.rodata (ld.symbol (.text format)) (fun k => argument (n :: stack) k) pieces)
    (s : State World) :
    ∃ t, performAll (kernel ld) (callWith .terminalPrintf [src, .sym (.text format)] : Routine) s =
      some t ∧ Kept s t ∧ t.world = s.world.print (text (read (kernel ld) s src)) := by
  obtain ⟨zf, done⟩ := @performAll_callWith _ _ _ Label (kernel ld) .terminalPrintf
    [src, .sym (.text format)] s
  refine ⟨_, done, ⟨rfl, rfl, rfl, rfl, rfl, rfl, rfl, rfl⟩, ?_⟩
  obtain ⟨pieces, output, spells⟩ := spells (read (kernel ld) s src) s.stack
  rw [← output]
  exact call_printf ld s.world spells

theorem number_spells {kind : Printf.NumberKind} {text : List (BitVec 8)} {format : Text}
    (spelled : bytes format = text ++ [0x25, kind.char, 0x0a]) (plain : ∀ c ∈ text, c ≠ 0x25)
    (n : U32) (stack : List U32) :
    ∃ pieces : List Piece, pieces.flatMap Piece.output =
        (text ++ (numeral kind.base n.toNat ++ [0]) ++ [0x0a]).map promoted ∧
      Spells ld.rodata (ld.symbol (.text format)) (fun k => argument (n :: stack) k) pieces := by
  refine ⟨literals text ++ [.number kind n, .literal 0x0a], ?_, ?_, ?_, ?_⟩
  · rw [List.flatMap_append, literals_output, List.map_append, List.map_append, List.append_assoc]
    rfl
  · have bytes_eq : (literals text ++ [Piece.number kind n, .literal 0x0a]).flatMap Piece.bytes =
        bytes format := by
      rw [List.flatMap_append, literals_bytes, spelled]
      rfl
    rw [bytes_eq]
    exact ld.texts format
  · rw [List.flatMap_append, literals_words]
    exact ⟨rfl, trivial⟩
  · intro piece hp
    rcases List.mem_append.mp hp with hp | hp
    · exact literals_valid plain piece hp
    · rw [List.mem_cons, List.mem_singleton] at hp
      rcases hp with rfl | rfl
      · trivial
      · exact (by decide : (0x0a : BitVec 8) ≠ 0x25)

theorem addr_spells (n : U32) (stack : List U32) :
    ∃ pieces : List Piece, pieces.flatMap Piece.output =
        hexLine (ascii "Fault Linear Address: 0x") n ∧
      Spells ld.rodata (ld.symbol (.text .pageFaultAddr)) (fun k => argument (n :: stack) k)
        pieces :=
  @number_spells ld .x _ _ spellings.1.2.1
    (plain_of_spellings (.tail _ (.tail _ (.tail _ (.tail _ (.head _)))))) n stack

theorem page_spells (n : U32) (stack : List U32) :
    ∃ pieces : List Piece, pieces.flatMap Piece.output =
        hexLine (ascii "Fault in Page: 0x") n ∧
      Spells ld.rodata (ld.symbol (.text .pageFaultPage)) (fun k => argument (n :: stack) k)
        pieces :=
  @number_spells ld .x _ _ spellings.1.2.2
    (plain_of_spellings (.tail _ (.tail _ (.tail _ (.tail _ (.tail _ (.head _))))))) n stack

end Lines

/-! ## The screen of a panic -/

def clear (w : World) : World :=
  w.display (terminalSetcolor w.screen 0x4f).2.terminalClrscr

theorem acts_setDisp : Acts (kernel ld) i386ExceptionSetDisp clear := by
  have color : Acts (kernel ld) (callWith .terminalSetcolor [.imm i386ExceptionColor] : Routine)
      fun w => w.display (terminalSetcolor w.screen 0x4f).2 :=
    Acts.callWith (a := fun _ => [i386ExceptionColor]) (fun s => rfl) fun w stack => rfl
  have screen : Acts (kernel ld) ([.call .terminalClrscr] : Routine)
      fun w => w.display w.screen.terminalClrscr :=
    Acts.call fun w stack => rfl
  exact color.append screen

/-- The cleared screen with something printed on it. -/
theorem acts_cleared {block : Routine} {text : (U32 → U32) → List U32}
    (prints : Prints ld block text) :
    Acts (kernel ld) (callNear .behindCall i386ExceptionSetDisp ++ block)
      fun w => (clear w).print (text w.words) :=
  ((acts_setDisp ld).callNear .behindCall).append prints

theorem runs_stop (code rest : Routine) (s : State World) :
    ∃ t, Runs (kernel ld) code (callNear .behindCall i386SystemStop ++ rest) s (.halted t) ∧
      t.world = s.world.print stopLines ∧ t.interrupts = false := by
  have lines := (prints_puts ld .systemMustHalt1).append (prints_puts ld .systemMustHalt2)
  obtain ⟨t, done, kept, world⟩ := lines { s with stack := ld.symbol .behindCall :: s.stack }
  refine ⟨{ t with interrupts := false }, ?_, world, rfl⟩
  have pushed : Leads (kernel ld) code (callNear .behindCall i386SystemStop ++ rest) s
      (i386SystemStop ++ ([.addEsp 4] ++ rest)) { s with stack := ld.symbol .behindCall :: s.stack } :=
    Leads.perform rfl
  have printed : Leads (kernel ld) code (i386SystemStop ++ ([.addEsp 4] ++ rest))
      { s with stack := ld.symbol .behindCall :: s.stack } (.cli :: .hang :: .addEsp 4 :: rest) t :=
    Leads.block done
  have off : Leads (kernel ld) code (.cli :: .hang :: .addEsp 4 :: rest) t
      (.hang :: .addEsp 4 :: rest) { t with interrupts := false } :=
    Leads.perform rfl
  exact (pushed.trans (printed.trans off)) _ (runs_hang _)

/-! ## The routines with one line -/

section Straight

variable {h : Handler} (ctx : Context) (s : State World)

theorem handle_eq {routine : Routine} (shape : ServiceRoutines.code h = routine) {o : Outcome World}
    (runs : Runs (kernel ld) routine routine (interrupted h.withCode ctx s) o) :
    handle (kernel ld) h ctx s = o := by
  subst shape
  exact service_eq runs (handle_ne_unfinished (kernel ld) ctx s h)

/-- Everything between `pushad` and `i386_system_stop`. -/
theorem handle_stopping {block : Routine} {g : World → World} (acts : Acts (kernel ld) block g)
    (shape : ServiceRoutines.code h =
      .pushad :: (block ++ (callNear .behindCall i386SystemStop ++ [.popad, .iretd]))) :
    ∃ t, handle (kernel ld) h ctx s = .halted t ∧ t.world = (g s.world).print stopLines ∧
      t.interrupts = false := by
  obtain ⟨t, done, kept, world⟩ := acts (saved (interrupted h.withCode ctx s))
  obtain ⟨r, stops, printed, off⟩ := runs_stop ld
    (.pushad :: (block ++ (callNear .behindCall i386SystemStop ++ [.popad, .iretd])))
    [.popad, .iretd] t
  have runs := (Leads.perform (perform_pushad _)).trans (Leads.block done) _ stops
  refine ⟨r, handle_eq ld ctx s shape runs, ?_, off⟩
  rw [printed, world]
  rfl

theorem stopping_eq (t format : Text) (number : Operand Symbol) : stopping t number format =
    .pushad :: (callNear .behindCall i386ExceptionSetDisp ++ printException t number format ++
      (callNear .behindCall i386SystemStop ++ [.popad, .iretd])) := by
  rw [stopping, List.append_assoc, List.cons_append, List.cons_append]

theorem handle_stops_line {number : Operand Symbol} {value : (U32 → U32) → U32}
    (reads : ∀ s : State World, read (kernel ld) s number = value s.world.words) {t : Text}
    (shape : ServiceRoutines.code h = stopping t number .systemException) :
    ∃ r, handle (kernel ld) h ctx s = .halted r ∧ r.world =
      ((clear s.world).print (exceptionLine (value s.world.words) (bytes t))).print stopLines ∧
      r.interrupts = false := by
  have acts := acts_cleared ld (prints_exception ld reads t)
  have stops := handle_stopping ld ctx s acts (shape.trans (stopping_eq t .systemException number))
  exact stops

theorem interrupted_stack (withCode : Bool) :
    ∃ x y z below, (interrupted withCode ctx s).stack = x :: y :: z :: below := by
  cases withCode <;> exact ⟨_, _, _, _, rfl⟩

/-- A routine that goes back. -/
theorem handle_saved {block : Routine} {g : World → World} (acts : Acts (kernel ld) block g)
    (shape : ServiceRoutines.code h = .pushad :: (block ++ [.popad, .iretd])) :
    ∃ x y z t, handle (kernel ld) h ctx s = .resumed x y z t ∧ t.world = g s.world := by
  obtain ⟨t, done, kept, world⟩ := acts (saved (interrupted h.withCode ctx s))
  obtain ⟨x, y, z, below, words⟩ := interrupted_stack ctx s h.withCode
  exact ⟨x, y, z, _, handle_eq ld ctx s shape ((Leads.perform (perform_pushad _)).trans
    (Leads.block done) _ (runs_popad kept.stack words)), world⟩

end Straight

/-! ## The cause of a non-maskable interrupt -/

/-- A report that ends with the stop of the machine. -/
def Stops (code rest : Routine) (s : State World) (text : List U32) : Prop :=
  ∃ t, Runs (kernel ld) code rest s (.halted t) ∧ t.world = s.world.print (text ++ stopLines) ∧
    t.interrupts = false

section Stopping

variable {routine rest rest' : Routine} {s t : State World} {text : List U32}

theorem stops_stop : Stops ld routine (callNear .behindCall i386SystemStop ++ rest) s [] :=
  runs_stop ld routine rest s

theorem Stops.leads (stops : Stops ld routine rest' t text)
    (leads : Leads (kernel ld) routine rest s rest' t) (world : t.world = s.world) :
    Stops ld routine rest s text := by
  obtain ⟨r, runs, printed, off⟩ := stops
  exact ⟨r, leads _ runs, printed.trans (congrArg _ world), off⟩

/-- Something is printed first. -/
theorem Stops.prints {block : Routine} {printed : (U32 → U32) → List U32}
    (prints : Prints ld block printed)
    (stops : ∀ t, t.world.words = s.world.words → t.world.ports = s.world.ports → t.cr = s.cr →
      Stops ld routine rest t text) :
    Stops ld routine (block ++ rest) s (printed s.world.words ++ text) := by
  obtain ⟨t, done, kept, world⟩ := prints s
  obtain ⟨r, runs, after, off⟩ := stops t (world ▸ rfl) (world ▸ rfl) kept.cr
  refine ⟨r, Leads.block done _ runs, ?_, off⟩
  rw [after, world, print_append, List.append_assoc]

theorem Stops.puts (t : Text)
    (stops : ∀ r, r.world.words = s.world.words → r.world.ports = s.world.ports → r.cr = s.cr →
      Stops ld routine rest r text) :
    Stops ld routine (ServiceRoutines.puts t ++ rest) s (line t ++ text) :=
  Stops.prints ld (prints_puts ld t) stops

end Stopping

section Nmi

variable (s : State World)

theorem inb_other {port : BitVec 16} (other : isPicPort port = false) (w : World) :
    (kernel ld).inb w port = (w.ports port, w) :=
  congrArg (fun b : Bool => (if b then _ else _, w)) other

/-- A jump is taken when none of some bits is set. -/
theorem leads_andAl (mask : BitVec 8) (l : Label) (code rest : Routine) :
    ∃ t, Leads (kernel ld) code (.andAl mask :: .jz l :: rest) s
      (if Words.byteOf (s.regs .eax) 0 &&& mask = 0 then after l code else rest) t ∧
      t.world = s.world ∧ Words.byteOf (t.regs .eax) 0 = Words.byteOf (s.regs .eax) 0 &&& mask ∧
      t.stack = s.stack := by
  obtain ⟨t, done, world, byte, flag, stack⟩ := @perform_andAl _ _ Symbol Label (kernel ld) s mask
  refine ⟨t, (Leads.perform done).trans ?_, world, byte, stack⟩
  rw [← ite_flag flag]
  exact Leads.jz t

theorem leads_inAl {port : BitVec 16} (other : isPicPort port = false) (code rest : Routine) :
    ∃ t, Leads (kernel ld) code (.inAl (.imm port) :: rest) s rest t ∧ t.world = s.world ∧
      Words.byteOf (t.regs .eax) 0 = s.world.ports port := by
  obtain ⟨t, done, world, byte, _⟩ := @perform_inAl _ _ Symbol Label (kernel ld) s (.imm port)
  have value := inb_other ld other s.world
  refine ⟨t, Leads.perform done, world.trans ?_, byte.trans ?_⟩
  · exact congrArg Prod.snd value
  · exact congrArg Prod.fst value

def nmiHalt : Routine := callNear .behindCall i386SystemStop ++ [.popad, .iretd]

def nmiParity : Routine := ServiceRoutines.puts .parityError ++ .label .systemHalt :: nmiHalt

def nmiChannel : Routine :=
  ServiceRoutines.puts .channelError ++ .jmp .systemHalt :: .label .parityErr :: nmiParity

def nmiSysportB : Routine :=
  .inAl (.imm 0x61) :: .andAl 0x40 :: .jz .channelErr :: .andAl 0x80 :: .jz .parityErr ::
    (ServiceRoutines.puts .unknownError ++ .jmp .systemHalt :: .label .channelErr :: nmiChannel)

theorem nmi_after : after .systemHalt i386Nmi = nmiHalt ∧ after .parityErr i386Nmi = nmiParity ∧
    after .channelErr i386Nmi = nmiChannel ∧ after .checkSysportB i386Nmi = nmiSysportB :=
  ⟨rfl, rfl, rfl, rfl⟩

theorem nmi_halt (s : State World) : Stops ld i386Nmi nmiHalt s [] := stops_stop ld

theorem nmi_jump {rest : Routine} (s : State World) :
    Stops ld i386Nmi (.jmp .systemHalt :: rest) s [] :=
  Stops.leads ld (nmi_halt ld s) (nmi_after.1 ▸ Leads.jmp s) rfl

theorem nmi_parity (s : State World) : Stops ld i386Nmi nmiParity s (line .parityError ++ []) :=
  Stops.puts ld .parityError fun t _ _ _ =>
    Stops.leads ld (nmi_halt ld t) (Leads.perform rfl) rfl

/-- Once bit 6 has been kept, there is no bit 7 to be found. -/
theorem nmi_sysportB (s : State World) : Stops ld i386Nmi nmiSysportB s
    (line (if s.world.ports 0x61 &&& 0x40 = 0 then .channelError else .parityError) ++ []) := by
  obtain ⟨halt, parity, channel, _⟩ := nmi_after
  obtain ⟨t, first, world, byte⟩ := leads_inAl ld s (by decide : isPicPort 0x61 = false) i386Nmi
    (.andAl 0x40 :: .jz .channelErr :: .andAl 0x80 :: .jz .parityErr ::
      (ServiceRoutines.puts .unknownError ++ .jmp .systemHalt :: .label .channelErr :: nmiChannel))
  obtain ⟨r, second, world', byte', _⟩ := leads_andAl ld t 0x40 .channelErr i386Nmi
    (.andAl 0x80 :: .jz .parityErr ::
      (ServiceRoutines.puts .unknownError ++ .jmp .systemHalt :: .label .channelErr :: nmiChannel))
  rw [byte] at second byte'
  have leads := first.trans second
  have same := world'.trans world
  by_cases clear : s.world.ports 0x61 &&& 0x40 = 0
  · rw [if_pos clear, channel] at leads
    rw [if_pos clear]
    exact Stops.leads ld (Stops.puts ld .channelError fun t _ _ _ => nmi_jump ld t) leads same
  · obtain ⟨q, third, world'', _⟩ := leads_andAl ld r 0x80 .parityErr i386Nmi
      (ServiceRoutines.puts .unknownError ++ .jmp .systemHalt :: .label .channelErr :: nmiChannel)
    have none : Words.byteOf (r.regs .eax) 0 &&& 0x80 = 0 := by
      have apart : (0x40 : BitVec 8) &&& 0x80 = 0 := rfl
      rw [byte', BitVec.and_assoc, apart]
      exact BitVec.and_zero
    rw [if_neg clear] at leads ⊢
    rw [if_pos none, parity] at third
    exact Stops.leads ld (nmi_parity ld q) (leads.trans third) (world''.trans same)

theorem nmi_cause (s : State World) : Stops ld i386Nmi
    (.inAl (.imm 0x92) :: .andAl 0x10 :: .jz .checkSysportB :: .label .watchdogTimer ::
      (ServiceRoutines.puts .watchdogTimer ++
        .jmp .systemHalt :: .label .checkSysportB :: nmiSysportB)) s
    (line (nmiText s.world.ports)) := by
  obtain ⟨t, first, world, byte⟩ := leads_inAl ld s (by decide : isPicPort 0x92 = false) i386Nmi
    (.andAl 0x10 :: .jz .checkSysportB :: .label .watchdogTimer ::
      (ServiceRoutines.puts .watchdogTimer ++
        .jmp .systemHalt :: .label .checkSysportB :: nmiSysportB))
  obtain ⟨r, second, world', byte', _⟩ := leads_andAl ld t 0x10 .checkSysportB i386Nmi
    (.label .watchdogTimer :: (ServiceRoutines.puts .watchdogTimer ++
      .jmp .systemHalt :: .label .checkSysportB :: nmiSysportB))
  rw [byte] at second
  have leads := first.trans second
  have same := world'.trans world
  rw [nmiText, ← List.append_nil (line _)]
  by_cases clear : s.world.ports 0x92 &&& 0x10 = 0
  · rw [if_pos clear, nmi_after.2.2.2] at leads
    rw [if_pos clear, ← same]
    exact Stops.leads ld (nmi_sysportB ld r) leads same
  · rw [if_neg clear] at leads ⊢
    have labelled : Leads (kernel ld) i386Nmi (.label .watchdogTimer ::
        (ServiceRoutines.puts .watchdogTimer ++
          .jmp .systemHalt :: .label .checkSysportB :: nmiSysportB)) r
        (ServiceRoutines.puts .watchdogTimer ++
          .jmp .systemHalt :: .label .checkSysportB :: nmiSysportB) r := Leads.perform rfl
    exact Stops.leads ld (Stops.puts ld .watchdogTimer fun t _ _ _ => nmi_jump ld t)
      (leads.trans labelled) same

end Nmi

/-! ## The cause of a page fault -/

section PageFault

variable {routine rest : Routine} {s : State World} {text : List U32}

/-- The word that holds the error code. -/
def errorCode (words : U32 → U32) : U32 := words (ld.symbol (.data .pfErrorCode))

theorem leads_testErrorCode (s : State World) (bit : U32) (routine rest : Routine) :
    ∃ t, Leads (kernel ld) routine (testErrorCode bit ++ rest) s rest t ∧ t.world = s.world ∧
      t.cr = s.cr ∧ t.zf = decide (errorCode ld s.world.words &&& bit = 0) := by
  obtain ⟨t, ht⟩ : ∃ t, t = s.setReg .eax (errorCode ld s.world.words) := ⟨_, rfl⟩
  have loaded : AssemblyCode.perform (kernel ld) s
      (.mov (.reg .eax) (.mem (.data .pfErrorCode)) : Instr Callee Symbol Label) = some t :=
    ht ▸ rfl
  have value : t.regs .eax = errorCode ld s.world.words := ht ▸ s.setReg_same .eax _
  refine ⟨_, (Leads.perform loaded).trans (Leads.perform rfl), ht ▸ rfl, ht ▸ rfl, ?_⟩
  exact congrArg (fun x => decide (x &&& bit = 0)) value

/-- What a report depends on is the same as before. -/
structure Same (s t : State World) : Prop where
  words : t.world.words = s.world.words
  ports : t.world.ports = s.world.ports
  cr : t.cr = s.cr

theorem Stops.eitherText {bit : U32} {clear set : Text} {l next : Label}
    (there : after l routine = ServiceRoutines.puts set ++ .label next :: rest)
    (behind : after next routine = rest) (stops : ∀ t, Same s t → Stops ld routine rest t text) :
    Stops ld routine (eitherText bit clear set l next ++ rest) s
      (line (if errorCode ld s.world.words &&& bit = 0 then clear else set) ++ text) := by
  have shape : ServiceRoutines.eitherText bit clear set l next ++ rest =
      testErrorCode bit ++ .jnz l :: (ServiceRoutines.puts clear ++
        .jmp next :: .label l :: (ServiceRoutines.puts set ++ .label next :: rest)) := by
    simp only [ServiceRoutines.eitherText, List.append_assoc, List.cons_append, List.nil_append]
  obtain ⟨t, tested, world, cr, flag⟩ := leads_testErrorCode ld s bit routine
    (.jnz l :: (ServiceRoutines.puts clear ++
      .jmp next :: .label l :: (ServiceRoutines.puts set ++ .label next :: rest)))
  have leads := tested.trans (Leads.jnz t)
  rw [ite_flag flag, there] at leads
  rw [shape]
  by_cases zero : errorCode ld s.world.words &&& bit = 0
  · rw [if_pos zero] at leads ⊢
    refine Stops.leads ld (Stops.puts ld clear fun r words ports cr' => ?_) leads world
    have jump := @Leads.jmp _ _ _ _ (kernel ld) _ routine
      (.label l :: (ServiceRoutines.puts set ++ .label next :: rest)) next r
    rw [behind] at jump
    exact Stops.leads ld (stops r ⟨world ▸ words, world ▸ ports, cr'.trans cr⟩) jump rfl
  · rw [if_neg zero] at leads ⊢
    refine Stops.leads ld (Stops.puts ld set fun r words ports cr' => ?_) leads world
    exact Stops.leads ld (stops r ⟨world ▸ words, world ▸ ports, cr'.trans cr⟩)
      (Leads.perform rfl) rfl

theorem Stops.textIfSet {bit : U32} {set : Text} {next : Label}
    (behind : after next routine = rest) (stops : ∀ t, Same s t → Stops ld routine rest t text) :
    Stops ld routine (textIfSet bit set next ++ rest) s
      ((if errorCode ld s.world.words &&& bit = 0 then [] else line set) ++ text) := by
  have shape : ServiceRoutines.textIfSet bit set next ++ rest =
      testErrorCode bit ++ .jz next :: (ServiceRoutines.puts set ++ .label next :: rest) := by
    simp only [ServiceRoutines.textIfSet, List.append_assoc, List.cons_append, List.nil_append]
  obtain ⟨t, tested, world, cr, flag⟩ := leads_testErrorCode ld s bit routine
    (.jz next :: (ServiceRoutines.puts set ++ .label next :: rest))
  have leads := tested.trans (Leads.jz t)
  rw [ite_flag flag, behind] at leads
  rw [shape]
  by_cases zero : errorCode ld s.world.words &&& bit = 0
  · rw [if_pos zero] at leads ⊢
    exact Stops.leads ld (stops t ⟨world ▸ rfl, world ▸ rfl, cr⟩) leads world
  · rw [if_neg zero] at leads ⊢
    refine Stops.leads ld (Stops.puts ld set fun r words ports cr' => ?_) leads world
    exact Stops.leads ld (stops r ⟨world ▸ words, world ▸ ports, cr'.trans cr⟩)
      (Leads.perform rfl) rfl

def pageStop : Routine := callNear .behindCall i386SystemStop ++ [.popad, .iretd]

def pageInstruction : Routine :=
  ServiceRoutines.textIfSet 0x10 .pageFaultInstruction .finish ++ pageStop

def pageReserved : Routine :=
  ServiceRoutines.textIfSet 0x08 .pageFaultOnReserved .instructionBit ++ pageInstruction

def pageRing : Routine :=
  ServiceRoutines.eitherText 0x04 .pageFaultInKernelMode .pageFaultInUserMode .pageRing3
    .pageReservedBit ++ pageReserved

def pageRw : Routine :=
  ServiceRoutines.eitherText 0x02 .pageFaultOnRead .pageFaultOnWrite .pageWrite .pageRingBit ++
    pageRing

def pagePresent : Routine :=
  ServiceRoutines.eitherText 0x01 .pageNotPresentError .pageProtectionError .pageProtectionError
    .pageRwBit ++ pageRw

theorem pageStop_stops (s : State World) : Stops ld i386Pagefault pageStop s [] := stops_stop ld

theorem pageFlags_stops (s : State World) : Stops ld i386Pagefault pageReserved s
    ((if errorCode ld s.world.words &&& 0x08 = 0 then [] else line .pageFaultOnReserved) ++
      ((if errorCode ld s.world.words &&& 0x10 = 0 then [] else line .pageFaultInstruction) ++
        [])) :=
  Stops.textIfSet ld rfl fun t same =>
    same.words ▸ @Stops.textIfSet ld _ _ t _ _ _ _ rfl fun r _ => pageStop_stops ld r

theorem pagePresent_stops (s : State World) : Stops ld i386Pagefault pagePresent s
    ((pageFaultTexts (errorCode ld s.world.words)).flatMap line) := by
  have lines (code : U32) : (pageFaultTexts code).flatMap line =
      line (if code &&& 0x01 = 0 then .pageNotPresentError else .pageProtectionError) ++
      (line (if code &&& 0x02 = 0 then .pageFaultOnRead else .pageFaultOnWrite) ++
      (line (if code &&& 0x04 = 0 then .pageFaultInKernelMode else .pageFaultInUserMode) ++
      ((if code &&& 0x08 = 0 then [] else line .pageFaultOnReserved) ++
      ((if code &&& 0x10 = 0 then [] else line .pageFaultInstruction) ++ [])))) := by
    have flag (p : Prop) [Decidable p] (t : Text) :
        (if p then [] else [t]).flatMap line = if p then [] else line t := by
      split <;> simp only [List.flatMap_nil, List.flatMap_cons, List.append_nil]
    rw [pageFaultTexts, List.flatMap_cons, List.flatMap_cons, List.flatMap_cons,
      List.flatMap_append, flag, flag, List.append_nil]
  rw [lines]
  refine Stops.eitherText ld rfl rfl fun t present => present.words ▸ ?_
  refine Stops.eitherText ld rfl rfl fun r rw => rw.words ▸ ?_
  exact Stops.eitherText ld rfl rfl fun q ring => ring.words ▸ pageFlags_stops ld q

/-- A number in an operand is printed in a line of its own. -/
theorem Stops.number {src : Operand Symbol} {format : Text} {printed : U32 → List U32}
    (spells : ∀ n stack, ∃ pieces : List Piece, pieces.flatMap Piece.output = printed n ∧
      Spells ld.rodata (ld.symbol (.text format)) (fun k => argument (n :: stack) k) pieces)
    (stops : ∀ t, Same s t → Stops ld routine rest t text) :
    Stops ld routine (callWith .terminalPrintf [src, .sym (.text format)] ++ rest) s
      (printed (read (kernel ld) s src) ++ text) := by
  obtain ⟨t, done, kept, world⟩ := @performAll_number ld src format printed spells s
  obtain ⟨r, runs, after, off⟩ := stops t ⟨world ▸ rfl, world ▸ rfl, kept.cr⟩
  refine ⟨r, Leads.block done _ runs, ?_, off⟩
  rw [after, world, print_append, List.append_assoc]

def pageNumber : Routine :=
  .movFromCr .eax 2 :: .alu .and (.reg .eax) (.imm 0xfffff000) ::
    (callWith .terminalPrintf [.reg .eax, .sym (.text .pageFaultPage)] ++ pagePresent)

theorem pageNumber_stops (s : State World) : Stops ld i386Pagefault pageNumber s
    (hexLine (ascii "Fault in Page: 0x") (s.cr 2 &&& 0xfffff000) ++
      (pageFaultTexts (errorCode ld s.world.words)).flatMap line) := by
  obtain ⟨r, hr⟩ : ∃ r, r = s.setReg .eax (s.cr 2) := ⟨_, rfl⟩
  obtain ⟨q, hq⟩ : ∃ q, q = ({ r with zf := decide (r.regs .eax &&& 0xfffff000 = 0) } :
    State World).setReg .eax (r.regs .eax &&& 0xfffff000) := ⟨_, rfl⟩
  have loaded : AssemblyCode.perform (kernel ld) s
      (.movFromCr .eax 2 : Instr Callee Symbol Label) = some r := by
    rw [hr]
    rfl
  have masked : AssemblyCode.perform (kernel ld) r
      (.alu .and (.reg .eax) (.imm 0xfffff000) : Instr Callee Symbol Label) = some q := by
    rw [hq]
    rfl
  have page : q.regs .eax = s.cr 2 &&& 0xfffff000 := by
    rw [hq, State.setReg_same, hr, State.setReg_same]
  have world : q.world = s.world := by
    rw [hq, hr]
    rfl
  have leads : Leads (kernel ld) i386Pagefault pageNumber s
      (callWith .terminalPrintf [.reg .eax, .sym (.text .pageFaultPage)] ++ pagePresent) q :=
    (Leads.perform loaded).trans (Leads.perform masked)
  have printed := @Stops.number ld i386Pagefault pagePresent q _ (.reg .eax) _ _ (page_spells ld)
    fun t same => same.words ▸ pagePresent_stops ld t
  rw [← page, ← world]
  exact Stops.leads ld printed leads world

def pageAddress : Routine :=
  .movFromCr .eax 2 ::
    (callWith .terminalPrintf [.reg .eax, .sym (.text .pageFaultAddr)] ++ pageNumber)

theorem pageAddress_stops (s : State World) : Stops ld i386Pagefault pageAddress s
    (pageFaultLines (errorCode ld s.world.words) (s.cr 2)) := by
  obtain ⟨r, hr⟩ : ∃ r, r = s.setReg .eax (s.cr 2) := ⟨_, rfl⟩
  have loaded : AssemblyCode.perform (kernel ld) s
      (.movFromCr .eax 2 : Instr Callee Symbol Label) = some r := by
    rw [hr]
    rfl
  have faulting : read (kernel ld) r (.reg .eax) = s.cr 2 := hr ▸ s.setReg_same .eax _
  have same : Same s r := ⟨hr ▸ rfl, hr ▸ rfl, hr ▸ rfl⟩
  have leads : Leads (kernel ld) i386Pagefault pageAddress s
      (callWith .terminalPrintf [.reg .eax, .sym (.text .pageFaultAddr)] ++ pageNumber) r :=
    Leads.perform loaded
  have printed := @Stops.number ld i386Pagefault pageNumber r
    (hexLine (ascii "Fault in Page: 0x") (s.cr 2 &&& 0xfffff000) ++
      (pageFaultTexts (errorCode ld s.world.words)).flatMap line) (.reg .eax) _ _ (addr_spells ld)
    fun t later => same.cr ▸ same.words ▸ later.cr ▸ later.words ▸ pageNumber_stops ld t
  rw [faulting] at printed
  rw [pageFaultLines, List.append_assoc]
  exact Stops.leads ld printed leads (hr ▸ rfl)

end PageFault

/-! ## Panics -/

/-- What is printed behind the first line. -/
def details (ports : BitVec 16 → BitVec 8) (code cr2 : U32) : Handler → List U32
  | .nmi => line (nmiText ports)
  | .pagefault => pageFaultLines code cr2
  | _ => []

/-- `i386_pagefault` puts the error code away first. -/
def stored (h : Handler) (code : U32) (w : World) : World :=
  if h = .pagefault then
    { w with words := Function.update w.words (ld.symbol (.data .pfErrorCode)) code }
  else w

section Panics

variable {routine rest : Routine} (ctx : Context) (s : State World)

theorem runs_cause {block : Routine} {printed : (U32 → U32) → List U32} {text : List U32}
    (prints : Prints ld block printed)
    (stops : ∀ t, Same s t → Stops ld routine rest t text) :
    ∃ r, Runs (kernel ld) routine (callNear .behindCall i386ExceptionSetDisp ++ block ++ rest) s
      (.halted r) ∧ r.world = (clear s.world).print (printed s.world.words ++ text ++ stopLines) ∧
      r.interrupts = false := by
  obtain ⟨t, done, kept, world⟩ := acts_cleared ld prints s
  obtain ⟨r, runs, after, off⟩ := stops t ⟨world ▸ rfl, world ▸ rfl, kept.cr⟩
  refine ⟨r, Leads.block done _ runs, ?_, off⟩
  rw [after, world, print_append, List.append_assoc]

/-- The machine is stopped, with the report on a screen that was cleared for it. -/
def Panics (h : Handler) : Prop :=
  ∃ t, handle (kernel ld) h ctx s = .halted t ∧ t.interrupts = false ∧
    t.world = (clear (stored ld h ctx.code s.world)).print
      (header ld s.world.words h ++ details s.world.ports ctx.code (s.cr 2) h ++ stopLines)

theorem panics_line {h : Handler} {number : Operand Symbol} {value : (U32 → U32) → U32}
    (reads : ∀ s : State World, read (kernel ld) s number = value s.world.words) {t : Text}
    (shape : ServiceRoutines.code h = stopping t number .systemException)
    (first : header ld s.world.words h = exceptionLine (value s.world.words) (bytes t))
    (only : details s.world.ports ctx.code (s.cr 2) h = []) (kept : stored ld h ctx.code s.world =
      s.world) : Panics ld ctx s h := by
  obtain ⟨r, halted, world, off⟩ := handle_stops_line ld ctx s reads shape
  refine ⟨r, halted, off, ?_⟩
  rw [world, print_append, first, only, kept, List.append_nil]

theorem panics_number {h : Handler} {t : Text}
    (shape : ServiceRoutines.code h = stopping t (exceptionNumber h) .systemException)
    (first : header ld s.world.words h = exceptionLine
      (s.world.words (ld.symbol (.data (.exceptionNumber h)))) (bytes t))
    (only : details s.world.ports ctx.code (s.cr 2) h = []) (kept : stored ld h ctx.code s.world =
      s.world) : Panics ld ctx s h :=
  @panics_line ld ctx s h _ (fun words => words (ld.symbol (.data (.exceptionNumber h))))
    (reads_number ld h) t shape first only kept

theorem panics_security : Panics ld ctx s .securityexception := by
  have acts := acts_cleared ld (prints_security ld)
  have stops := @handle_stopping ld .securityexception ctx s _ _ acts
    (stopping_eq .securityException .securityException (exceptionNumber .securityexception))
  obtain ⟨r, halted, world, off⟩ := stops
  refine ⟨r, halted, off, ?_⟩
  rw [world, print_append]
  rfl

theorem panics_nmi : Panics ld ctx s .nmi := by
  obtain ⟨r, runs, world, off⟩ := @runs_cause ld i386Nmi _
    (saved (interrupted false ctx s)) _ _ _ (prints_numbered ld .nmi .nonMaskable)
    fun t same => same.ports ▸ nmi_cause ld t
  have leads : Leads (kernel ld) i386Nmi i386Nmi (interrupted false ctx s) _
      (saved (interrupted false ctx s)) := Leads.perform (perform_pushad _)
  exact ⟨r, handle_eq ld ctx s rfl (leads _ runs), off, world⟩

/-- The words of two exceptions stand at different addresses. -/
theorem stored_number (code : U32) (w : World) (h : Handler) :
    (stored ld .pagefault code w).words (ld.symbol (.data (.exceptionNumber h))) =
      w.words (ld.symbol (.data (.exceptionNumber h))) := by
  refine Function.update_of_ne (fun same => ?_) _ _
  cases ld.data_injective _ _ same

theorem stored_code (code : U32) (w : World) :
    errorCode ld (stored ld .pagefault code w).words = code :=
  Function.update_self _ _ _

theorem panics_pagefault : Panics ld ctx s .pagefault := by
  obtain ⟨q, popped, world, cr⟩ : ∃ q, AssemblyCode.perform (kernel ld) (interrupted true ctx s)
      (.pop (.mem (.data .pfErrorCode)) : Instr Callee Symbol Label) = some q ∧
      q.world = stored ld .pagefault ctx.code s.world ∧ q.cr = s.cr := ⟨_, rfl, rfl, rfl⟩
  have cause (t : State World) (same : Same (saved q) t) : Stops ld i386Pagefault pageAddress t
      (pageFaultLines ctx.code (s.cr 2)) := by
    have stops := pageAddress_stops ld t
    have words : t.world.words = (stored ld .pagefault ctx.code s.world).words :=
      same.words.trans (congrArg World.words world)
    rw [words, stored_code, same.cr] at stops
    exact cr ▸ stops
  obtain ⟨r, runs, printed, off⟩ := @runs_cause ld i386Pagefault _ (saved q) _ _ _
    (prints_numbered ld .pagefault .pageFault) cause
  have leads : Leads (kernel ld) i386Pagefault i386Pagefault (interrupted true ctx s) _ (saved q) :=
    (Leads.perform popped).trans (Leads.perform (perform_pushad q))
  refine ⟨r, handle_eq ld ctx s rfl (leads _ runs), off, printed.trans ?_⟩
  change (clear q.world).print (exceptionLine (q.world.words _) _ ++ _ ++ _) = _
  rw [world, stored_number]
  rfl

theorem panics_of_stops {h : Handler} (stops : h.stops = true) : Panics ld ctx s h := by
  cases h with
  | nmi => exact panics_nmi ld ctx s
  | pagefault => exact panics_pagefault ld ctx s
  | securityexception => exact panics_security ld ctx s
  | overflow => exact panics_number ld ctx s rfl rfl rfl rfl
  | badopcode => exact panics_number ld ctx s rfl rfl rfl rfl
  | deviceerror =>
    have reads (s : State World) :
        read (kernel ld) s (.sym (.data (.exceptionNumber .deviceerror))) =
          ld.symbol (.data (.exceptionNumber .deviceerror)) := rfl
    exact @panics_line ld ctx s .deviceerror _ (fun _ => _) reads _ rfl rfl rfl rfl
  | doublefault => exact panics_number ld ctx s rfl rfl rfl rfl
  | invalidtss => exact panics_number ld ctx s rfl rfl rfl rfl
  | segnotpresent => exact panics_number ld ctx s rfl rfl rfl rfl
  | stacksegfault => exact panics_number ld ctx s rfl rfl rfl rfl
  | machinecheck => exact panics_number ld ctx s rfl rfl rfl rfl
  | simdexception => exact panics_number ld ctx s rfl rfl rfl rfl
  | _ => cases stops

end Panics

end ExceptionReports
