import MissyMicro.ExceptionReports

/-!
# What the interrupts do

The routines that go back leave the registers and the stack of the program alone. Here it is said
what they do to the screen, the queue of keys, the tick count and the interrupt controllers, and
that the two routines for line 7 do what they were taken to do.
-/

namespace ServedInterrupts

open AssemblyCode CodeBlocks KernelWorld ExceptionReports
open ServiceRoutines hiding code
open InterruptControllers (Controller Machine outportb inportb i386HandlerIrq7 i386HandlerIrq15)

variable (ld : Linked)

def increment (d : Datum) (w : World) : World :=
  let a := ld.symbol (.data d)
  { w with words := Function.update w.words a (w.words a + 1) }

/-- The master is told the end of an interrupt. -/
def endOfInterrupt (w : World) : World := { w with master := w.master.writeCommand 0x20 }

def enqueued (w : World) : World :=
  let scancode : U32 := (w.ports 0x60).setWidth 32
  let queued := w.keyboard.ps2KeyboardEnqueue scancode
  { w with keyboard := queued.getD (ld.beyond w.keyboard scancode) }

/-- What a routine does to the world. The ones that are not named report and go back. -/
def served (w : World) : Handler → World
  | .defaulthandler => w.print (line .interruptDefault)
  | .irq7 =>
    if w.master.imr &&& 0x80 = 0 then increment ld .spurious w else endOfInterrupt w
  | .irq15 =>
    if w.slave.imr &&& 0x80 = 0 then endOfInterrupt (increment ld .spurious w)
    else { endOfInterrupt w with slave := w.slave.writeCommand 0x20 }
  | .pitIrq => endOfInterrupt (increment ld .pitTickCount w)
  | .keyb => endOfInterrupt (enqueued ld w)
  | h => w.print (header ld w.words h)

/-- The program goes on as it was, and the world is as the routine left it. -/
def Serves (ctx : Context) (s : State World) (h : Handler) : Prop :=
  ∃ t, handle (kernel ld) h ctx s = .resumed ctx.eip ctx.cs ctx.eflags t ∧ t.regs = ctx.regs ∧
    t.stack = ctx.stack ∧ t.world = served ld s.world h

section Effects

variable {ctx : Context} {s : State World} {h : Handler}

/-- That the words are the right ones is known already. -/
theorem serves_of_world (goes : h.stops = false) (straight : h.misdirected = false)
    (done : ∃ x y z t, handle (kernel ld) h ctx s = .resumed x y z t ∧
      t.world = served ld s.world h) : Serves ld ctx s h := by
  obtain ⟨x, y, z, t, resumed, world⟩ := done
  obtain ⟨r, ended, regs, stack⟩ := service_resumes (always_restores h goes straight) (kernel ld) ctx s
  cases resumed.symm.trans ended
  exact ⟨t, ended, regs, stack, world⟩

theorem serves_notifying {t : Text} (goes : h.stops = false) (straight : h.misdirected = false)
    (shape : ServiceRoutines.code h = notifying h t)
    (first : header ld s.world.words h = exceptionLine
      (s.world.words (ld.symbol (.data (.exceptionNumber h)))) (bytes t))
    (plain : served ld s.world h = s.world.print (header ld s.world.words h)) :
    Serves ld ctx s h := by
  obtain ⟨x, y, z, r, resumed, world⟩ :=
    @handle_saved ld h ctx s _ _ (prints_numbered ld h t) shape
  refine serves_of_world ld goes straight ⟨x, y, z, r, resumed, ?_⟩
  rw [plain, first]
  exact world

theorem serves_default : Serves ld ctx s .defaulthandler :=
  serves_of_world ld rfl rfl
    (@handle_saved ld .defaulthandler ctx s _ _ (prints_puts ld .interruptDefault) rfl)

/-- `mov al,0x20` and `out 0x20,al`. -/
theorem leads_eoi (t : State World) (code rest : Routine) :
    ∃ r, Leads (kernel ld) code (.movAl 0x20 :: .outAl (.imm 0x20) :: rest) t rest r ∧
      r.world = endOfInterrupt t.world ∧ r.stack = t.stack ∧
      Words.byteOf (r.regs .eax) 0 = 0x20 := by
  have byte : Words.byteOf ((t.setAl 0x20).regs .eax) 0 = 0x20 := t.setAl_byte 0x20
  have moved : perform (kernel ld) t (.movAl 0x20 : Instr Callee Symbol Label) =
      some (t.setAl 0x20) := rfl
  have sent : perform (kernel ld) (t.setAl 0x20)
      (.outAl (.imm 0x20) : Instr Callee Symbol Label) =
        some { t.setAl 0x20 with world := endOfInterrupt t.world } := by
    rw [perform, byte]
    rfl
  exact ⟨_, (Leads.perform moved).trans (Leads.perform sent), rfl, rfl, byte⟩

theorem inb_pic {port : BitVec 16} (pic : isPicPort port = true) (w : World) :
    (kernel ld).inb w port = (inportb (w.machine ld) port, w) :=
  congrArg (fun b : Bool => (if b then _ else _, w)) pic

/-- A controller's mask is read through `dx`, and a jump taken when line 7 is not masked. -/
theorem leads_mask {port : BitVec 16} {mask : World → BitVec 8} (pic : isPicPort port = true)
    (reads : ∀ w : World, inportb (w.machine ld) port = mask w) (t : State World) (l : Label)
    (code rest : Routine) :
    ∃ r, Leads (kernel ld) code (.movDx port :: .inAl .dx :: .andAl 0x80 :: .jz l :: rest) t
      (if mask t.world &&& 0x80 = 0 then after l code else rest) r ∧ r.world = t.world ∧
      r.stack = t.stack := by
  obtain ⟨d, addressed, world, dx, stack⟩ := @perform_movDx _ _ Symbol Label (kernel ld) t port
  obtain ⟨a, read, world', byte, stack'⟩ := @perform_inAl _ _ Symbol Label (kernel ld) d .dx
  obtain ⟨r, leads, world'', _, stack''⟩ := leads_andAl ld a 0x80 l code rest
  rw [dx, world, inb_pic ld pic, reads] at byte world'
  rw [byte] at leads
  exact ⟨r, ((Leads.perform addressed).trans (Leads.perform read)).trans leads,
    world''.trans world', stack''.trans (stack'.trans stack)⟩

/-- The end of a routine that has saved the registers and not called anything. -/
theorem serves_of_leads {routine : Routine} (shape : ServiceRoutines.code h = routine)
    (goes : h.stops = false) (straight : h.misdirected = false) {t : State World}
    (leads : Leads (kernel ld) routine routine (interrupted h.withCode ctx s) [.popad, .iretd] t)
    (stack : t.stack = (saved (interrupted h.withCode ctx s)).stack)
    (world : t.world = served ld s.world h) : Serves ld ctx s h := by
  obtain ⟨x, y, z, below, words⟩ := interrupted_stack ctx s h.withCode
  exact serves_of_world ld goes straight
    ⟨x, y, z, _, handle_eq ld ctx s shape (leads _ (runs_popad stack words)), world⟩

theorem perform_inc (d : Datum) (t : State World) :
    ∃ r, perform (kernel ld) t (.inc (.mem (.data d)) : Instr Callee Symbol Label) = some r ∧
      r.world = increment ld d t.world ∧ r.stack = t.stack := ⟨_, rfl, rfl, rfl⟩

theorem leads_pushad (code rest : Routine) (t : State World) :
    Leads (kernel ld) code (.pushad :: rest) t rest (saved t) := Leads.perform (perform_pushad t)

theorem serves_pit : Serves ld ctx s .pitIrq := by
  obtain ⟨q, counted, world, stack⟩ := perform_inc ld .pitTickCount (saved (interrupted false ctx s))
  obtain ⟨r, told, after, kept, _⟩ := leads_eoi ld q pitIrqHandler [.popad, .iretd]
  have leads : Leads (kernel ld) pitIrqHandler pitIrqHandler (interrupted false ctx s)
      [.popad, .iretd] r :=
    (leads_pushad ld _ _ _).trans ((Leads.perform counted).trans told)
  exact serves_of_leads ld rfl rfl rfl leads (kept.trans stack)
    (after.trans (congrArg endOfInterrupt world))

def irq7Spurious : Routine :=
  [.inc (.mem (.data .spurious)), .label .interruptDone, .popad, .iretd]

theorem irq7_after : after .spurious ServiceRoutines.i386HandlerIrq7 = irq7Spurious ∧
    after .interruptDone ServiceRoutines.i386HandlerIrq7 = [.popad, .iretd] := ⟨rfl, rfl⟩

theorem serves_irq7 : Serves ld ctx s .irq7 := by
  obtain ⟨t, tested, world, stack⟩ := @leads_mask ld 0x21 (fun w => w.master.imr) rfl (fun w => rfl)
    (saved (interrupted false ctx s)) .spurious ServiceRoutines.i386HandlerIrq7
    (.movAl 0x20 :: .outAl (.imm 0x20) :: .jmp .interruptDone :: .label .spurious :: irq7Spurious)
  have start : Leads (kernel ld) ServiceRoutines.i386HandlerIrq7 ServiceRoutines.i386HandlerIrq7
      (interrupted false ctx s) _ t := (leads_pushad ld _ _ _).trans tested
  rw [saved_world, interrupted_world] at start world
  by_cases clear : s.world.master.imr &&& 0x80 = 0
  · obtain ⟨q, counted, world', stack'⟩ := perform_inc ld .spurious t
    have spurious : served ld s.world .irq7 = increment ld .spurious s.world := if_pos clear
    rw [if_pos clear, irq7_after.1] at start
    have leads := start.trans ((Leads.perform counted).trans (Leads.perform rfl))
    refine serves_of_leads ld rfl rfl rfl leads (stack'.trans stack) ?_
    rw [spurious, world', world]
  · obtain ⟨r, told, world', stack', _⟩ := leads_eoi ld t ServiceRoutines.i386HandlerIrq7
      (.jmp .interruptDone :: .label .spurious :: irq7Spurious)
    have ended : served ld s.world .irq7 = endOfInterrupt s.world := if_neg clear
    rw [if_neg clear] at start
    have jump := @Leads.jmp _ _ _ _ (kernel ld) _ ServiceRoutines.i386HandlerIrq7
      (.label .spurious :: irq7Spurious) .interruptDone r
    rw [irq7_after.2] at jump
    refine serves_of_leads ld rfl rfl rfl (start.trans (told.trans jump)) (stack'.trans stack) ?_
    rw [ended, world', world]

def irq15Spurious : Routine :=
  [.inc (.mem (.data .spurious)), .movAl 0x20, .outAl (.imm 0x20), .label .interruptDone, .popad,
    .iretd]

theorem irq15_after : after .spurious ServiceRoutines.i386HandlerIrq15 = irq15Spurious ∧
    after .interruptDone ServiceRoutines.i386HandlerIrq15 = [.popad, .iretd] := ⟨rfl, rfl⟩

theorem serves_irq15 : Serves ld ctx s .irq15 := by
  obtain ⟨t, tested, world, stack⟩ := @leads_mask ld 0xa1 (fun w => w.slave.imr) rfl (fun w => rfl)
    (saved (interrupted false ctx s)) .spurious ServiceRoutines.i386HandlerIrq15
    (.movAl 0x20 :: .outAl (.imm 0x20) :: .outAl (.imm 0xa0) :: .jmp .interruptDone ::
      .label .spurious :: irq15Spurious)
  have start : Leads (kernel ld) ServiceRoutines.i386HandlerIrq15
      ServiceRoutines.i386HandlerIrq15 (interrupted false ctx s) _ t :=
    (leads_pushad ld _ _ _).trans tested
  rw [saved_world, interrupted_world] at start world
  by_cases clear : s.world.slave.imr &&& 0x80 = 0
  · obtain ⟨q, counted, world', stack'⟩ := perform_inc ld .spurious t
    obtain ⟨r, told, world'', stack'', _⟩ := leads_eoi ld q ServiceRoutines.i386HandlerIrq15
      [.label .interruptDone, .popad, .iretd]
    have spurious : served ld s.world .irq15 = endOfInterrupt (increment ld .spurious s.world) :=
      if_pos clear
    rw [if_pos clear, irq15_after.1] at start
    have leads := start.trans ((Leads.perform counted).trans (told.trans (Leads.perform rfl)))
    refine serves_of_leads ld rfl rfl rfl leads (stack''.trans (stack'.trans stack)) ?_
    rw [spurious, world'', world', world]
  · obtain ⟨r, told, world', stack', byte⟩ := leads_eoi ld t ServiceRoutines.i386HandlerIrq15
      (.outAl (.imm 0xa0) :: .jmp .interruptDone :: .label .spurious :: irq15Spurious)
    have ended : served ld s.world .irq15 =
        { endOfInterrupt s.world with slave := s.world.slave.writeCommand 0x20 } := if_neg clear
    have both : perform (kernel ld) r (.outAl (.imm 0xa0) : Instr Callee Symbol Label) =
        some { r with world := { r.world with slave := r.world.slave.writeCommand 0x20 } } := by
      rw [perform, byte]
      rfl
    rw [if_neg clear] at start
    have jump := @Leads.jmp _ _ _ _ (kernel ld) _ ServiceRoutines.i386HandlerIrq15
      (.label .spurious :: irq15Spurious) .interruptDone
      { r with world := { r.world with slave := r.world.slave.writeCommand 0x20 } }
    rw [irq15_after.2] at jump
    refine serves_of_leads ld rfl rfl rfl
      (start.trans (told.trans ((Leads.perform both).trans jump))) (stack'.trans stack) ?_
    rw [ended, world', world]
    rfl

/-- The scancode in the whole register. -/
theorem setByte_zero (x : BitVec 8) : Words.setByte 0 0 x = x.setWidth 32 := by
  simp [Words.setByte]

/-- `xor eax,eax` and `in al,0x60`. -/
theorem leads_scancode (t : State World) (code rest : Routine) :
    ∃ r, Leads (kernel ld) code (.alu .xor (.reg .eax) (.reg .eax) :: .inAl (.imm 0x60) :: rest) t
      rest r ∧ r.world = t.world ∧ r.stack = t.stack ∧
      r.regs .eax = (t.world.ports 0x60).setWidth 32 := by
  obtain ⟨zero, hzero⟩ : ∃ zero, zero = ({ t with zf := true } : State World).setReg .eax 0 :=
    ⟨_, rfl⟩
  have cleared : perform (kernel ld) t
      (.alu .xor (.reg .eax) (.reg .eax) : Instr Callee Symbol Label) = some zero := by
    rw [perform, Alu.apply, BitVec.xor_self, hzero]
    rfl
  have byte : perform (kernel ld) zero (.inAl (.imm 0x60) : Instr Callee Symbol Label) =
      some (zero.setAl (t.world.ports 0x60)) := by
    have value := inb_other ld (by decide : isPicPort 0x60 = false) zero.world
    rw [perform, State.port, value, hzero]
    rfl
  refine ⟨_, (Leads.perform cleared).trans (Leads.perform byte), hzero ▸ rfl, hzero ▸ rfl, ?_⟩
  rw [State.setAl, State.setReg_same, hzero, State.setReg_same]
  exact setByte_zero _

theorem serves_keyb : Serves ld ctx s .keyb := by
  refine serves_of_world ld rfl rfl ?_
  obtain ⟨t, scanned, world, stack, eax⟩ := leads_scancode ld (saved (interrupted false ctx s))
    keybInterrupt (callWith .ps2KeyboardEnqueue [.reg .eax] ++
      [.movAl 0x20, .outAl (.imm 0x20), .popad, .sti, .iretd])
  obtain ⟨zf, called⟩ := @performAll_callWith _ _ Symbol Label (kernel ld) .ps2KeyboardEnqueue
    [.reg .eax] t
  obtain ⟨q, hq⟩ : ∃ q, q = { t.resume ((kernel ld).call t.world .ps2KeyboardEnqueue
    (([.reg .eax].map (read (kernel ld) t)).reverse ++ t.stack)) with zf := zf } := ⟨_, rfl⟩
  rw [← hq] at called
  have queued : q.world = enqueued ld s.world := by
    have scancode : read (kernel ld) t (.reg .eax) = (s.world.ports 0x60).setWidth 32 := eax
    rw [hq, List.map_singleton, scancode, world]
    rfl
  have same : q.stack = (saved (interrupted false ctx s)).stack := by
    rw [hq]
    exact stack
  obtain ⟨r, told, world', stack', _⟩ := leads_eoi ld q keybInterrupt [.popad, .sti, .iretd]
  obtain ⟨x, y, z, below, words⟩ := interrupted_stack ctx s false
  have off : Leads (kernel ld) keybInterrupt keybInterrupt (interrupted false ctx s) _
      (interrupted false ctx s) := Leads.perform rfl
  have leads := (off.trans (leads_pushad ld _ _ _)).trans
    (scanned.trans ((Leads.block called).trans told))
  obtain ⟨b, hb⟩ : ∃ b, b = { r with
    regs := (interrupted false ctx s).regs, stack := (interrupted false ctx s).stack } := ⟨_, rfl⟩
  have restored : perform (kernel ld) r (.popad : Instr Callee Symbol Label) = some b :=
    hb ▸ perform_popad (stack'.trans same)
  have on : perform (kernel ld) b (.sti : Instr Callee Symbol Label) =
      some { b with interrupts := true } := rfl
  have left : b.stack = x :: y :: z :: below := by
    rw [hb]
    exact words
  have runs := (Leads.perform restored).trans (Leads.perform on) _
    (@runs_iretd _ _ _ _ (kernel ld) _ keybInterrupt [] { b with interrupts := true } _ _ _ _
      left)
  refine ⟨x, y, z, _, handle_eq ld ctx s rfl (leads _ runs), ?_⟩
  change b.world = _
  rw [hb]
  exact world'.trans (congrArg endOfInterrupt queued)

theorem serves_of_goes {h : Handler} (goes : h.stops = false) (straight : h.misdirected = false) :
    Serves ld ctx s h := by
  cases h with
  | defaulthandler => exact serves_default ld
  | irq7 => exact serves_irq7 ld
  | irq15 => exact serves_irq15 ld
  | pitIrq => exact serves_pit ld
  | keyb => exact serves_keyb ld
  | divbyzero => exact serves_notifying ld rfl rfl rfl rfl rfl
  | debugtrap => exact serves_notifying ld rfl rfl rfl rfl rfl
  | breakpoint => exact serves_notifying ld rfl rfl rfl rfl rfl
  | bounderror => exact serves_notifying ld rfl rfl rfl rfl rfl
  | fpuexception => exact serves_notifying ld rfl rfl rfl rfl rfl
  | virtualizeexception => exact serves_notifying ld rfl rfl rfl rfl rfl
  | aligncheck => cases straight
  | genprotectfault => cases straight
  | _ => cases goes

end Effects

theorem increment_spurious (w : World) : (increment ld .spurious w).machine ld =
    { w.machine ld with spurious := (w.machine ld).spurious + 1 } := by
  have counted : (increment ld .spurious w).words (ld.symbol (.data .spurious)) =
      w.words (ld.symbol (.data .spurious)) + 1 := Function.update_self _ _ _
  rw [World.machine, counted]
  rfl

theorem served_irq7 (w : World) : (served ld w .irq7).machine ld = i386HandlerIrq7 (w.machine ld) ∧
    (served ld w .irq7).screen = w.screen ∧ (served ld w .irq7).keyboard = w.keyboard := by
  by_cases clear : w.master.imr &&& 0x80 = 0
  · have counts : served ld w .irq7 = increment ld .spurious w := if_pos clear
    have handler : i386HandlerIrq7 (w.machine ld) =
        { w.machine ld with spurious := (w.machine ld).spurious + 1 } := if_pos clear
    rw [counts, handler, increment_spurious]
    exact ⟨rfl, rfl, rfl⟩
  · have ends : served ld w .irq7 = endOfInterrupt w := if_neg clear
    have handler : i386HandlerIrq7 (w.machine ld) = outportb (w.machine ld) 0x20 0x20 :=
      if_neg clear
    rw [ends, handler]
    exact ⟨rfl, rfl, rfl⟩

theorem served_irq15 (w : World) :
    (served ld w .irq15).machine ld = i386HandlerIrq15 (w.machine ld) ∧
      (served ld w .irq15).screen = w.screen ∧ (served ld w .irq15).keyboard = w.keyboard := by
  by_cases clear : w.slave.imr &&& 0x80 = 0
  · have counts : served ld w .irq15 = endOfInterrupt (increment ld .spurious w) := if_pos clear
    have handler : i386HandlerIrq15 (w.machine ld) =
        outportb { w.machine ld with spurious := (w.machine ld).spurious + 1 } 0x20 0x20 :=
      if_pos clear
    rw [counts, handler, ← increment_spurious]
    exact ⟨rfl, rfl, rfl⟩
  · have ends : served ld w .irq15 =
        { endOfInterrupt w with slave := w.slave.writeCommand 0x20 } := if_neg clear
    have handler : i386HandlerIrq15 (w.machine ld) =
        outportb (outportb (w.machine ld) 0x20 0x20) 0xa0 0x20 := if_neg clear
    rw [ends, handler]
    exact ⟨rfl, rfl, rfl⟩

/-- The assembly code does with the controllers what was said of the two routines, and counts the
same interrupts as spurious. -/
theorem irq_handlers_refine (ctx : Context) (s : State World) :
    (∃ t, handle (kernel ld) .irq7 ctx s = .resumed ctx.eip ctx.cs ctx.eflags t ∧
      t.world.machine ld = i386HandlerIrq7 (s.world.machine ld) ∧
      t.world.screen = s.world.screen ∧ t.world.keyboard = s.world.keyboard) ∧
    (∃ t, handle (kernel ld) .irq15 ctx s = .resumed ctx.eip ctx.cs ctx.eflags t ∧
      t.world.machine ld = i386HandlerIrq15 (s.world.machine ld) ∧
      t.world.screen = s.world.screen ∧ t.world.keyboard = s.world.keyboard) := by
  obtain ⟨t, resumed, _, _, world⟩ := @serves_irq7 ld ctx s
  obtain ⟨t', resumed', _, _, world'⟩ := @serves_irq15 ld ctx s
  refine ⟨⟨t, resumed, ?_⟩, t', resumed', ?_⟩
  · rw [world]
    exact served_irq7 ld s.world
  · rw [world']
    exact served_irq15 ld s.world

end ServedInterrupts
