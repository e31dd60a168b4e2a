import MissyMicro.KeyboardInterrupts
import MissyMicro.ProcessorSetup
import MissyMicro.ServedInterrupts

/-!
# The kernel between its interrupts

Devices request interrupts, the controllers pass on the ones that are neither masked nor held back,
and the routine that the tables lead to runs to its end. What the program does in between is left
open as far as it does not touch the controllers. Only two routines tell the controllers that a line
other than the timer and the keyboard is through, and they tell it of line 15 alone, and one
controller of two.
-/

namespace InterruptRuns

open AssemblyCode KernelWorld ServedInterrupts
open DescriptorTables ProcessorSetup TransitionRuns
open ControllerSetup hiding masks
open InterruptControllers (Controller Machine)
open ServiceRoutines (Handler handle)
open KeyboardInterrupts (Reader)
open Terminal (Screen)

/-! ## The system -/

/-- `reader` is where the program is in `ps2_keyb_getbyte`. -/
structure System where
  world : World
  reader : Reader
  cpu : Cpu

def withLine (c : Controller) (line : Nat) : Controller := { c with irr := c.irr ||| 1#8 <<< line }

/-- A device asks for its line. -/
def requested (w : World) (irq : Fin 16) : World :=
  if irq.val < 8 then { w with master := withLine w.master irq.val }
  else { w with slave := withLine w.slave (irq.val - 8) }

def control (w : World) (m : Machine) : World := { w with master := m.master, slave := m.slave }

/-- The controllers as they are when they have handed an interrupt to the processor. -/
def acknowledged (ld : Linked) (w : World) (e : InterruptControllers.Event) : World :=
  control w (InterruptControllers.next (w.machine ld) e)

/-- The line is requested and not masked, and neither it nor a line before it is in service. -/
def Passes (c : Controller) (line : Nat) : Prop :=
  c.irr.getLsbD line = true ∧ c.imr.getLsbD line = false ∧ ∀ j ≤ line, c.isr.getLsbD j = false

/-- The slave is on line 2 of the master. -/
def CascadeOpen (c : Controller) : Prop :=
  c.imr.getLsbD 2 = false ∧ ∀ j ≤ 2, c.isr.getLsbD j = false

def Ready (w : World) (irq : Fin 16) : Prop :=
  if irq.val < 8 then irq.val ≠ 2 ∧ Passes w.master irq.val
  else Passes w.slave (irq.val - 8) ∧ CascadeOpen w.master

/-- The vector that a line gets from its controller. -/
def vector (irq : Fin 16) : Nat := 0x20 + irq.val

/-- `counted` says whether a spurious interrupt was taken as one. -/
inductive Event where
  | request (irq : Fin 16)
  | scancode (byte : BitVec 8)
  | mask (call : MaskCall)
  | display (screen : Screen)
  | read (past : U32) (result : Option U32)
  | keybInitialize
  | interrupt (irq : Fin 16)
  | spurious (irq : Fin 16) (counted : Bool)

/-- The routine that the tables lead to has run, from any place in the program. -/
def Runs (ld : Linked) (p : Placed) (cpu : Cpu) (irq : Fin 16) (w w' : World) : Prop :=
  ∃ h ctx s x y z t, dispatch p cpu (vector irq) = some (p.handler h) ∧ s.world = w ∧
    handle (kernel ld) h ctx s = .resumed x y z t ∧ t.world = w'

inductive Step (ld : Linked) (p : Placed) : System → Event → System → Prop
  | request {s : System} {irq : Fin 16} : irq.val ≠ 2 →
      Step ld p s (.request irq) { s with world := requested s.world irq }
  | scancode {s : System} {byte : BitVec 8} : Step ld p s (.scancode byte)
      { s with world := { s.world with ports := Function.update s.world.ports 0x60 byte } }
  | mask {s : System} {call : MaskCall} {m : Machine} :
      call.perform (s.world.machine ld) = some m →
      Step ld p s (.mask call) { s with world := control s.world m }
  | display {s : System} {screen : Screen} :
      Step ld p s (.display screen) { s with world := s.world.display screen }
  | read {s : System} {past : U32} {r : Option U32} {k : KeyboardInterrupts.System} :
      KeyboardInterrupts.System.read ⟨s.world.keyboard, s.reader⟩ past = (r, k) →
      Step ld p s (.read past r)
        { s with world := { s.world with keyboard := k.keyboard }, reader := k.reader }
  | keybInitialize {s : System} {out : Int} {cpu : Cpu} :
      ps2KeybInitialize p s.cpu = some (out, cpu) →
      Step ld p s .keybInitialize { s with cpu := cpu }
  | interrupt {s : System} {irq : Fin 16} {w : World} : Ready s.world irq →
      Runs ld p s.cpu irq (acknowledged ld s.world (.deliver irq)) w →
      Step ld p s (.interrupt irq) { s with world := w }
  | spurious7 {s : System} {w : World} : Runs ld p s.cpu 7 s.world w →
      Step ld p s (.spurious 7 !s.world.master.imr.getLsbD 7) { s with world := w }
  | spurious15 {s : System} {w : World} : CascadeOpen s.world.master →
      Runs ld p s.cpu 15 (acknowledged ld s.world .withdrawn) w →
      Step ld p s (.spurious 15 !s.world.slave.imr.getLsbD 7) { s with world := w }

/-- The system behind `cpu_init`. -/
def boot (w : World) (s : Processor) : System :=
  ⟨{ w with master := s.pics.master.controller, slave := s.pics.slave.controller }, .idle, s.cpu⟩

/-! ## Which routine runs -/

/-- `keyb` says whether the vector of the keyboard has been set. -/
def lineHandler (keyb : Bool) (irq : Fin 16) : Handler :=
  if irq = 0 then .pitIrq
  else if irq = 1 ∧ keyb = true then .keyb
  else if irq = 7 then .irq7
  else if irq = 15 then .irq15
  else .defaulthandler

structure Lines (p : Placed) (keyb : Bool) (cpu : Cpu) : Prop where
  routed : ∃ f, Routed p f cpu ∧ ∀ irq : Fin 16, f (vector irq) = lineHandler keyb irq

variable {ld : Linked} {p : Placed} {cpu : Cpu} {keyb : Bool}

theorem lineHandler_irq7 (keyb : Bool) : lineHandler keyb 7 = .irq7 := by cases keyb <;> rfl

theorem lineHandler_irq15 (keyb : Bool) : lineHandler keyb 15 = .irq15 := by cases keyb <;> rfl

theorem vector_lt (irq : Fin 16) : vector irq < GuardedTables.i386MaxInterrupts := by
  have max : GuardedTables.i386MaxInterrupts = 255 := rfl
  rw [vector]
  omega

theorem Lines.dispatch_eq (lines : Lines p keyb cpu) (irq : Fin 16) :
    dispatch p cpu (vector irq) = some (p.handler (lineHandler keyb irq)) := by
  obtain ⟨f, routed, same⟩ := lines.routed
  rw [routed.dispatch_eq, if_pos (vector_lt irq), same]

theorem lines_of_cpuInit {s s' : Processor} (init : cpuInit p s = some s') :
    Lines p false s'.cpu := by
  obtain ⟨started, done, started'⟩ := cpuInit_started p s
  obtain rfl := Option.some.inj (done.symm.trans init)
  refine ⟨_, started'.routed, fun irq => ?_⟩
  rw [bootHandler_eq _ (vector_lt irq)]
  revert irq
  decide +kernel

theorem Lines.keybInitialize (lines : Lines p keyb cpu) {out : Int} {cpu' : Cpu}
    (h : ps2KeybInitialize p cpu = some (out, cpu')) : Lines p true cpu' := by
  obtain ⟨f, routed, same⟩ := lines.routed
  obtain ⟨c, set, routed'⟩ := routed.setVectors [(0x21, .keyb)] (by decide)
  have done : ps2KeybInitialize p cpu = some (0, c) := by
    rw [ps2KeybInitialize, set]
    rfl
  obtain rfl := (Prod.mk.inj (Option.some.inj (done.symm.trans h))).2
  refine ⟨_, routed', fun irq => ?_⟩
  change Function.update f 0x21 .keyb (vector irq) = _
  by_cases one : irq = 1
  · subst one
    exact Function.update_self _ _ _
  · have other : vector irq ≠ 0x21 := by
      rw [vector]
      omega
    rw [Function.update_of_ne other, same]
    simp [lineHandler, one]

theorem lineHandler_goes (keyb : Bool) (irq : Fin 16) :
    (lineHandler keyb irq).stops = false ∧ (lineHandler keyb irq).misdirected = false := by
  revert keyb irq
  decide

/-- A routine that runs leaves the world as it has to, and there is one that runs. -/
theorem Lines.runs_iff (lines : Lines p keyb cpu) {irq : Fin 16} {w w' : World} :
    Runs ld p cpu irq w w' ↔ w' = served ld w (lineHandler keyb irq) := by
  obtain ⟨goes, straight⟩ := lineHandler_goes keyb irq
  constructor
  · rintro ⟨h, ctx, s, x, y, z, t, led, rfl, resumed, rfl⟩
    obtain rfl := p.handler_injective (Option.some.inj ((lines.dispatch_eq irq).symm.trans led))
    obtain ⟨t', resumed', _, _, world⟩ := @serves_of_goes ld ctx s _ goes straight
    cases resumed.symm.trans resumed'
    exact world
  · rintro rfl
    obtain ⟨s, hs⟩ : ∃ s : State World, s = ⟨fun _ => 0, false, true, fun _ => 0, 0, [], w⟩ :=
      ⟨_, rfl⟩
    obtain ⟨ctx, _⟩ : ∃ ctx : Context, ctx = ⟨fun _ => 0, 0, 0, 0, 0, []⟩ := ⟨_, rfl⟩
    obtain ⟨t, resumed, _, _, world⟩ := @serves_of_goes ld ctx s _ goes straight
    refine ⟨_, ctx, s, _, _, _, t, lines.dispatch_eq irq, hs ▸ rfl, resumed, ?_⟩
    rw [world, hs]

/-! ## Lines in service -/

/-- What an end of interrupt that names no line leaves in service. -/
def ended (isr : BitVec 8) : BitVec 8 := isr &&& (isr - 1)

theorem ended_serve : ∀ isr : BitVec 8, ∀ line < 8, (∀ j ≤ line, isr.getLsbD j = false) →
    ended (isr ||| 1#8 <<< line) = isr := by
  decide +kernel

/-- The lines that come into service with an interrupt, on the master and on the slave. -/
def serving (irq : Fin 16) : BitVec 8 × BitVec 8 :=
  if irq.val < 8 then (1#8 <<< irq.val, 0) else (1#8 <<< 2, 1#8 <<< (irq.val - 8))

/-- The ones of them that stay in service. -/
def left (keyb : Bool) (irq : Fin 16) : BitVec 8 × BitVec 8 :=
  if irq = 0 ∨ (irq = 1 ∧ keyb = true) then (0, 0)
  else if irq = 15 then (0, 0x80)
  else serving irq

variable {w : World}

theorem Passes.ended_serve {c : Controller} {line : Nat} (passes : Passes c line)
    (hline : line < 8) : ended (c.isr ||| 1#8 <<< line) = c.isr :=
  InterruptRuns.ended_serve c.isr line hline passes.2.2

/-- A line that passes its controller is not masked. -/
theorem Passes.unmasked {c : Controller} (passes : Passes c 7) : c.imr &&& 0x80 = 0 :=
  InterruptControllers.line7_iff.mpr passes.2.1

theorem acknowledged_low {irq : Fin 16} (low : irq.val < 8) :
    acknowledged ld w (.deliver irq) = { w with master := w.master.serve irq.val } :=
  congrArg (control w) (if_pos low)

theorem acknowledged_high {irq : Fin 16} (high : ¬ irq.val < 8) :
    acknowledged ld w (.deliver irq) =
      { w with master := w.master.serve 2, slave := w.slave.serve (irq.val - 8) } :=
  congrArg (control w) (if_neg high)

/-- The line of the slave is before every other line that stays in service. -/
theorem CascadeOpen.ended_serve {c : Controller} (cascade : CascadeOpen c) :
    ended (c.isr ||| 1#8 <<< 2) = c.isr :=
  InterruptRuns.ended_serve c.isr 2 (by decide) cascade.2

section Genuine

variable {irq : Fin 16}

/-- The lines in service are those that were and those that the interrupt leaves. -/
def LeavesOnly (keyb : Bool) (irq : Fin 16) (w w' : World) : Prop :=
  w'.master.isr = w.master.isr ||| (left keyb irq).1 ∧
    w'.slave.isr = w.slave.isr ||| (left keyb irq).2

theorem leaves_nothing {w' : World} (master : w'.master.isr = w.master.isr)
    (slave : w'.slave.isr = w.slave.isr) (none : left keyb irq = (0, 0)) :
    LeavesOnly keyb irq w w' := by
  rw [LeavesOnly, none, master, slave]
  exact ⟨BitVec.or_zero.symm, BitVec.or_zero.symm⟩

theorem timer_leaves (ready : Ready w 0) : LeavesOnly keyb 0 w
    (served ld (acknowledged ld w (.deliver 0)) (lineHandler keyb 0)) :=
  leaves_nothing (ready.2.ended_serve (by decide)) rfl rfl

theorem keyboard_leaves (ready : Ready w 1) : LeavesOnly true 1 w
    (served ld (acknowledged ld w (.deliver 1)) (lineHandler true 1)) :=
  leaves_nothing (ready.2.ended_serve (by decide)) rfl rfl

/-- A routine that tells the controllers nothing. -/
theorem untold_leaves {h : Handler} (routine : lineHandler keyb irq = h)
    (master : (served ld (acknowledged ld w (.deliver irq)) h).master =
      (acknowledged ld w (.deliver irq)).master)
    (slave : (served ld (acknowledged ld w (.deliver irq)) h).slave =
      (acknowledged ld w (.deliver irq)).slave) (stays : left keyb irq = serving irq) :
    LeavesOnly keyb irq w
      (served ld (acknowledged ld w (.deliver irq)) (lineHandler keyb irq)) := by
  rw [LeavesOnly, routine, master, slave, stays, serving]
  by_cases low : irq.val < 8
  · rw [acknowledged_low low, if_pos low]
    exact ⟨rfl, BitVec.or_zero.symm⟩
  · rw [acknowledged_high low, if_neg low]
    exact ⟨rfl, rfl⟩

/-- Line 7 passed, so it is not masked, and the routine takes it as spurious. -/
theorem line7_leaves (ready : Ready w 7) : LeavesOnly keyb 7 w
    (served ld (acknowledged ld w (.deliver 7)) (lineHandler keyb 7)) := by
  have clear : (acknowledged ld w (.deliver 7)).master.imr &&& 0x80 = 0 := ready.2.unmasked
  have spurious : served ld (acknowledged ld w (.deliver 7)) .irq7 =
      increment ld .spurious (acknowledged ld w (.deliver 7)) := if_pos clear
  refine @untold_leaves ld keyb w 7 .irq7 (lineHandler_irq7 keyb) ?_ ?_ (by cases keyb <;> rfl)
  · rw [spurious, increment]
  · rw [spurious, increment]

/-- The master is told, and ends its line 2, but the slave is not. -/
theorem line15_leaves (ready : Ready w 15) : LeavesOnly keyb 15 w
    (served ld (acknowledged ld w (.deliver 15)) (lineHandler keyb 15)) := by
  have clear : (acknowledged ld w (.deliver 15)).slave.imr &&& 0x80 = 0 := ready.1.unmasked
  have spurious : served ld (acknowledged ld w (.deliver 15)) .irq15 =
      endOfInterrupt (increment ld .spurious (acknowledged ld w (.deliver 15))) := if_pos clear
  have stays : left keyb 15 = (0, 0x80) := by cases keyb <;> rfl
  rw [LeavesOnly, lineHandler_irq15, spurious, stays]
  exact ⟨ready.2.ended_serve.trans BitVec.or_zero.symm, rfl⟩

theorem interrupt_leaves (ready : Ready w irq) : LeavesOnly keyb irq w
    (served ld (acknowledged ld w (.deliver irq)) (lineHandler keyb irq)) := by
  by_cases zero : irq = 0
  · subst zero
    exact timer_leaves ready
  by_cases one : irq = 1 ∧ keyb = true
  · obtain ⟨rfl, rfl⟩ := one
    exact keyboard_leaves ready
  by_cases seven : irq = 7
  · subst seven
    exact line7_leaves ready
  by_cases fifteen : irq = 15
  · subst fifteen
    exact line15_leaves ready
  · have routine : lineHandler keyb irq = .defaulthandler := by
      simp [lineHandler, zero, one, seven, fifteen]
    have stays : left keyb irq = serving irq := by
      simp [left, zero, one, fifteen]
    exact untold_leaves routine rfl rfl stays

end Genuine

/-! ## Counts -/

def count (ld : Linked) (d : ServiceRoutines.Datum) (w : World) : U32 := w.words (ld.symbol (.data d))

theorem count_increment (ld : Linked) (d d' : ServiceRoutines.Datum) (w : World) :
    count ld d' (increment ld d w) = count ld d' w + if d' = d then 1 else 0 := by
  by_cases same : d' = d
  · subst same
    rw [if_pos rfl]
    exact Function.update_self _ _ _
  · rw [if_neg same, count, count]
    refine (Function.update_of_ne (fun h => same (ld.data_injective _ _ h)) _ _).trans ?_
    exact (BitVec.add_zero _).symm

/-- What a run of `h` adds to a word. -/
def counted (w : World) (d : ServiceRoutines.Datum) : Handler → U32
  | .pitIrq => if d = .pitTickCount then 1 else 0
  | .irq7 => if d = .spurious ∧ w.master.imr &&& 0x80 = 0 then 1 else 0
  | .irq15 => if d = .spurious ∧ w.slave.imr &&& 0x80 = 0 then 1 else 0
  | _ => 0

theorem count_print (ld : Linked) (d : ServiceRoutines.Datum) (w : World) (text : List U32) :
    count ld d (w.print text) = count ld d w + 0 :=
  (BitVec.add_zero (count ld d w)).symm

theorem served_count (ld : Linked) (w : World) (d : ServiceRoutines.Datum) (h : Handler) :
    count ld d (served ld w h) = count ld d w + counted w d h := by
  cases h with
  | pitIrq => exact count_increment ld .pitTickCount d w
  | irq7 =>
    by_cases clear : w.master.imr &&& 0x80 = 0
    · have spurious : served ld w .irq7 = increment ld .spurious w := if_pos clear
      rw [spurious, count_increment, counted]
      simp only [clear, and_true]
    · have told : served ld w .irq7 = endOfInterrupt w := if_neg clear
      rw [told, counted, if_neg fun both => clear both.2]
      exact (BitVec.add_zero (count ld d w)).symm
  | irq15 =>
    by_cases clear : w.slave.imr &&& 0x80 = 0
    · have spurious : served ld w .irq15 = endOfInterrupt (increment ld .spurious w) := if_pos clear
      have words : count ld d (endOfInterrupt (increment ld .spurious w)) =
        count ld d (increment ld .spurious w) := rfl
      rw [spurious, words, count_increment, counted]
      simp only [clear, and_true]
    · have told : served ld w .irq15 =
        { endOfInterrupt w with slave := w.slave.writeCommand 0x20 } := if_neg clear
      rw [told, counted, if_neg fun both => clear both.2]
      exact (BitVec.add_zero (count ld d w)).symm
  | defaulthandler => exact count_print ld d w (line .interruptDefault)
  | keyb => exact (BitVec.add_zero (count ld d w)).symm
  | _ => exact count_print ld d w (ExceptionReports.header ld w.words _)

/-! ## Steps -/

def Event.serves : Event → Bool
  | .interrupt _ => true
  | .spurious _ _ => true
  | _ => false

variable {s t : System} {e : Event}

/-- Between the interrupts nothing counts and no line comes into or goes out of service. -/
theorem quiet_step (step : Step ld p s e t) (quiet : e.serves = false) :
    t.world.words = s.world.words ∧ t.world.master.isr = s.world.master.isr ∧
      t.world.slave.isr = s.world.slave.isr := by
  cases step with
  | @request irq other =>
    dsimp only [requested]
    split <;> exact ⟨rfl, rfl, rfl⟩
  | scancode => exact ⟨rfl, rfl, rfl⟩
  | @mask call m performed =>
    rcases call.performs (s.world.machine ld) with ⟨_, m', performed', _, words, rfl⟩ | ⟨_, none⟩
    · obtain rfl := Option.some.inj (performed'.symm.trans performed)
      exact ⟨rfl, rfl, rfl⟩
    · cases none.symm.trans performed
  | display => exact ⟨rfl, rfl, rfl⟩
  | read => exact ⟨rfl, rfl, rfl⟩
  | keybInitialize => exact ⟨rfl, rfl, rfl⟩
  | interrupt => cases quiet
  | spurious7 => cases quiet
  | spurious15 => cases quiet

def Event.setsKeyb : Event → Bool
  | .keybInitialize => true
  | _ => false

theorem step_lines (step : Step ld p s e t) (lines : Lines p keyb s.cpu) :
    Lines p (keyb || e.setsKeyb) t.cpu := by
  have same : (keyb || false) = keyb := Bool.or_false keyb
  cases step with
  | keybInitialize initialized =>
    rw [Event.setsKeyb, Bool.or_true]
    exact lines.keybInitialize initialized
  | _ => exact same.symm ▸ lines

theorem run_lines {events : List Event} (run : Run (Step ld p) s events t)
    (lines : Lines p keyb s.cpu) : Lines p (keyb || events.any Event.setsKeyb) t.cpu := by
  induction run generalizing keyb with
  | nil => exact (Bool.or_false keyb).symm ▸ lines
  | cons step _ ih =>
    rw [List.any_cons, ← Bool.or_assoc]
    exact ih (step_lines step lines)

def Event.isTick : Event → Bool
  | .interrupt irq => decide (irq = 0)
  | _ => false

/-- An interrupt that counts as spurious. -/
def Event.isTaken : Event → Bool
  | .interrupt irq => decide (irq = 7 ∨ irq = 15)
  | .spurious _ counted => counted
  | _ => false

def one (b : Bool) : U32 := if b then 1 else 0

/-- An interrupt of line 7 or line 15 that was requested is counted as spurious. -/
theorem interrupt_counted (keyb : Bool) {irq : Fin 16} (ready : Ready w irq) :
    counted (acknowledged ld w (.deliver irq)) .pitTickCount (lineHandler keyb irq) =
        one (Event.interrupt irq).isTick ∧
      counted (acknowledged ld w (.deliver irq)) .spurious (lineHandler keyb irq) =
        one (Event.interrupt irq).isTaken := by
  by_cases zero : irq = 0
  · subst zero
    cases keyb <;> exact ⟨rfl, rfl⟩
  by_cases first : irq = 1
  · subst first
    cases keyb <;> exact ⟨rfl, rfl⟩
  by_cases seven : irq = 7
  · subst seven
    have clear : (acknowledged ld w (.deliver 7)).master.imr &&& 0x80 = 0 := ready.2.unmasked
    rw [lineHandler_irq7]
    exact ⟨rfl, if_pos ⟨rfl, clear⟩⟩
  by_cases fifteen : irq = 15
  · subst fifteen
    have clear : (acknowledged ld w (.deliver 15)).slave.imr &&& 0x80 = 0 := ready.1.unmasked
    rw [lineHandler_irq15]
    exact ⟨rfl, if_pos ⟨rfl, clear⟩⟩
  · have routine : lineHandler keyb irq = .defaulthandler := by
      simp [lineHandler, zero, first, seven, fifteen]
    rw [routine]
    simp [counted, Event.isTick, Event.isTaken, one, zero, seven, fifteen]

/-- A spurious interrupt is taken as one unless the line is masked. -/
theorem spurious_counted (imr : BitVec 8) (d : ServiceRoutines.Datum) :
    (if d = .spurious ∧ imr &&& 0x80 = 0 then 1 else 0 : U32) =
      if d = .spurious then one (!imr.getLsbD 7) else 0 := by
  simp only [InterruptControllers.line7_iff]
  cases imr.getLsbD 7 <;> simp [one]

theorem step_counts (step : Step ld p s e t) (lines : Lines p keyb s.cpu) :
    count ld .pitTickCount t.world = count ld .pitTickCount s.world + one e.isTick ∧
      count ld .spurious t.world = count ld .spurious s.world + one e.isTaken := by
  by_cases quiet : e.serves = false
  · obtain ⟨words, _, _⟩ := quiet_step step quiet
    have nothing : e.isTick = false ∧ e.isTaken = false := by
      cases e <;> first | exact ⟨rfl, rfl⟩ | cases quiet
    rw [count, count, count, count, words, nothing.1, nothing.2]
    exact ⟨(BitVec.add_zero _).symm, (BitVec.add_zero _).symm⟩
  · cases step with
    | @interrupt irq w ready runs =>
      obtain rfl := lines.runs_iff.mp runs
      obtain ⟨tick, taken⟩ := @interrupt_counted ld _ keyb irq ready
      dsimp only
      rw [served_count, served_count, tick, taken]
      exact ⟨rfl, rfl⟩
    | @spurious7 w runs =>
      obtain rfl := lines.runs_iff.mp runs
      dsimp only
      rw [lineHandler_irq7, served_count, served_count, counted, counted, spurious_counted,
        spurious_counted]
      exact ⟨rfl, rfl⟩
    | @spurious15 w cascade runs =>
      obtain rfl := lines.runs_iff.mp runs
      dsimp only
      rw [lineHandler_irq15, served_count, served_count, counted, counted, spurious_counted,
        spurious_counted]
      exact ⟨rfl, rfl⟩
    | _ => exact absurd rfl quiet

/-! ## Runs -/

/-- No interrupt is spurious. -/
def Genuine (_ : System) (e : Event) : Prop := ∀ irq counted, e ≠ .spurious irq counted

theorem genuine_run {events : List Event} (run : Run (Guarded Genuine (Step ld p)) s events t) :
    Run (Step ld p) s events t :=
  run.simulates (fun s => s) (fun _ _ _ _ _ => trivial) (fun _ _ _ _ step => step.2) trivial

theorem one_add_ofNat (b : Bool) (n : Nat) :
    one b + BitVec.ofNat 32 n = BitVec.ofNat 32 (n + if b then 1 else 0) := by
  rw [BitVec.ofNat_add, BitVec.add_comm]
  cases b <;> rfl

theorem run_counts {events : List Event} (run : Run (Step ld p) s events t)
    (lines : Lines p keyb s.cpu) :
    count ld .pitTickCount t.world =
        count ld .pitTickCount s.world + BitVec.ofNat 32 (events.countP Event.isTick) ∧
      count ld .spurious t.world =
        count ld .spurious s.world + BitVec.ofNat 32 (events.countP Event.isTaken) := by
  induction run generalizing keyb with
  | nil => exact ⟨(BitVec.add_zero _).symm, (BitVec.add_zero _).symm⟩
  | cons step _ ih =>
    obtain ⟨tick, taken⟩ := step_counts step lines
    obtain ⟨ticks, takens⟩ := ih (step_lines step lines)
    rw [ticks, takens, tick, taken, BitVec.add_assoc, BitVec.add_assoc, one_add_ofNat,
      one_add_ofNat, List.countP_cons, List.countP_cons]
    exact ⟨rfl, rfl⟩

/-- A device requests its line and is served. -/
theorem serve_one (lines : Lines p keyb s.cpu) {irq : Fin 16} (device : irq.val ≠ 2)
    (ready : Ready (requested s.world irq) irq) :
    Run (Guarded Genuine (Step ld p)) s [.request irq, .interrupt irq]
      { s with
        world := served ld (acknowledged ld (requested s.world irq) (.deliver irq))
          (lineHandler keyb irq) } := by
  have served : Step ld p { s with world := requested s.world irq } (.interrupt irq) _ :=
    .interrupt ready (lines.runs_iff.mpr rfl)
  refine .cons ⟨fun _ _ h => ?_, .request device⟩ (.cons ⟨fun _ _ h => ?_, served⟩ (.nil _))
  · cases h
  · cases h

/-- The processor of the image, with controllers at rest. -/
def atRest : Processor :=
  ⟨KernelImage.blank, ⟨⟨⟨0, 0, 0, .irr, 0⟩, 0, 0, 0, .mask, false, false⟩,
    ⟨⟨0, 0, 0, .irr, 0⟩, 0, 0, 0, .mask, false, false⟩⟩, ⟨false, none, none⟩⟩

theorem passes_requested {c : Controller} {line : Nat} (low : line < 8) (imr : c.imr = 0)
    (isr : c.isr = 0) : Passes (withLine c line) line := by
  refine ⟨?_, ?_, fun j _ => ?_⟩
  · rw [withLine, BitVec.getLsbD_or, PackedBits.getLsbD_mask low, decide_eq_true rfl, Bool.or_true]
  · rw [withLine, imr]
    exact BitVec.getLsbD_zero
  · rw [withLine, isr]
    exact BitVec.getLsbD_zero

/-- The image is started, and one line below 8 is served. -/
theorem first_served {irq : Fin 16} (low : irq.val < 8) (device : irq.val ≠ 2) :
    ∃ s' t, cpuInit KernelImage.place atRest = some s' ∧
      Run (Guarded Genuine (Step KernelImage.image KernelImage.place)) (boot KernelImage.idle s')
        [.request irq, .interrupt irq] t := by
  obtain ⟨s', init, started⟩ := cpuInit_started KernelImage.place atRest
  have passes : Passes (withLine s'.pics.master.controller irq.val) irq.val := by
    rw [started.master]
    exact passes_requested low rfl rfl
  refine ⟨s', _, init, serve_one (lines_of_cpuInit init) device ?_⟩
  rw [Ready, if_pos low, requested, if_pos low]
  exact ⟨device, passes⟩

/-- A line before the first one passes, even though that one is still in service. -/
theorem passes_below : ∀ i j : Fin 8, j < i →
    Passes (withLine (Controller.serve (withLine ⟨0, 0, 0, .irr, 0⟩ i) i) j) j := by
  unfold Passes
  decide

/-- A line without a routine of its own is served, and then one before it. -/
theorem two_served {i j : Fin 16} (low : i.val < 8) (below : j.val < i.val) (device : i.val ≠ 2)
    (device' : j.val ≠ 2) (untold : lineHandler false i = .defaulthandler) :
    ∃ s' t, cpuInit KernelImage.place atRest = some s' ∧
      Run (Guarded Genuine (Step KernelImage.image KernelImage.place)) (boot KernelImage.idle s')
        [.request i, .interrupt i, .request j, .interrupt j] t := by
  obtain ⟨s', init, started⟩ := cpuInit_started KernelImage.place atRest
  have lines := lines_of_cpuInit init
  have master : (boot KernelImage.idle s').world.master = ⟨0, 0, 0, .irr, 0⟩ := started.master
  have first : Ready (requested (boot KernelImage.idle s').world i) i := by
    rw [Ready, if_pos low, requested, if_pos low]
    refine ⟨device, ?_⟩
    rw [master]
    exact passes_requested low rfl rfl
  have run := @serve_one KernelImage.image _ _ _ lines i device first
  have before : j.val < 8 := Nat.lt_trans below low
  have second : Ready (requested (served KernelImage.image (acknowledged KernelImage.image
      (requested (boot KernelImage.idle s').world i) (.deliver i)) (lineHandler false i)) j) j := by
    rw [untold, Ready, if_pos before, requested, if_pos before, requested, if_pos low, acknowledged,
      InterruptControllers.next, if_pos low]
    refine ⟨device', ?_⟩
    change Passes (withLine (Controller.serve (withLine (boot KernelImage.idle s').world.master i)
      i) j) j
    rw [master]
    exact passes_below ⟨i, low⟩ ⟨j, before⟩ below
  exact ⟨s', _, init, run.append (serve_one (s := ⟨_, _, _⟩) lines device' second)⟩

/-- Every timer interrupt is a tick. Every interrupt of line 7 or line 15 counts as spurious, and
besides there are only the spurious ones that find their line unmasked. -/
theorem interrupts_counted {s₀ s' : Processor} (init : cpuInit p s₀ = some s')
    (w : World) {events : List Event} (run : Run (Step ld p) (boot w s') events t) :
    count ld .pitTickCount t.world =
        count ld .pitTickCount w + BitVec.ofNat 32 (events.countP Event.isTick) ∧
      count ld .spurious t.world =
        count ld .spurious w + BitVec.ofNat 32 (events.countP Event.isTaken) :=
  run_counts run (lines_of_cpuInit init)

/-- One interrupt of line 7. -/
theorem line7_counted : ∃ s' t, cpuInit KernelImage.place atRest = some s' ∧
    Run (Step KernelImage.image KernelImage.place) (boot KernelImage.idle s')
      [.request 7, .interrupt 7] t ∧ count KernelImage.image .pitTickCount t.world = 0 ∧
    count KernelImage.image .spurious t.world = 1 := by
  obtain ⟨s', t, init, run⟩ := @first_served 7 (by decide) (by decide)
  obtain ⟨ticks, taken⟩ := interrupts_counted init KernelImage.idle (genuine_run run)
  exact ⟨s', t, init, genuine_run run, ticks, taken⟩

/-- Whatever happened since the start, every line's interrupt leads to a routine that gives the
program back as it was, and a line that is ready can be served. -/
theorem every_interrupt_returns {s₀ s' : Processor} (init : cpuInit p s₀ = some s')
    (w : World) {events : List Event} (run : Run (Step ld p) (boot w s') events t) (irq : Fin 16) :
    (∃ h, dispatch p t.cpu (vector irq) = some (p.handler h) ∧
      ∀ (ctx : Context) (s : State World), Resumes ctx (handle (kernel ld) h ctx s)) ∧
    (Ready t.world irq → ∃ t', Step ld p t (.interrupt irq) t') := by
  have lines := run_lines run (lines_of_cpuInit init)
  obtain ⟨keyb, lines⟩ : ∃ keyb, Lines p keyb t.cpu := ⟨_, lines⟩
  obtain ⟨goes, straight⟩ := lineHandler_goes keyb irq
  refine ⟨⟨_, lines.dispatch_eq irq, fun ctx s => ?_⟩, fun ready => ?_⟩
  · exact service_resumes (ServiceRoutines.always_restores _ goes straight) (kernel ld) ctx s
  · exact ⟨_, .interrupt ready (lines.runs_iff.mpr rfl)⟩

theorem returns_behind_line3 : ∃ s' t, cpuInit KernelImage.place atRest = some s' ∧
    Run (Step KernelImage.image KernelImage.place) (boot KernelImage.idle s')
      [.request 3, .interrupt 3] t ∧
    ∃ h, dispatch KernelImage.place t.cpu (vector 3) = some (KernelImage.place.handler h) ∧
      ∀ (ctx : Context) (s : State World),
        Resumes ctx (handle (kernel KernelImage.image) h ctx s) := by
  obtain ⟨s', t, init, run⟩ := @first_served 3 (by decide) (by decide)
  have returns := every_interrupt_returns init KernelImage.idle (genuine_run run) 3
  exact ⟨s', t, init, genuine_run run, returns.1⟩

/-! ## Lines that are held back -/

/-- The line in service that a line of a device leaves behind; 8 stands for line 7 of the slave. -/
def slot (irq : Fin 16) : Nat := if irq.val < 8 then irq.val else if irq = 15 then 8 else 2

def Held (w : World) (k : Nat) : Prop :=
  if k < 8 then w.master.isr.getLsbD k = true else w.slave.isr.getLsbD 7 = true

/-- Another line than the timer, and than the keyboard once its vector is set. -/
def Lasting (keyb : Bool) (irq : Fin 16) : Prop := ¬ (irq = 0 ∨ (irq = 1 ∧ keyb = true))

theorem not_held_of_ready {irq : Fin 16} (ready : Ready w irq) : ¬ Held w (slot irq) := by
  intro held
  by_cases low : irq.val < 8
  · rw [Ready, if_pos low] at ready
    rw [slot, if_pos low, Held, if_pos low, ready.2.2.2 _ (Nat.le_refl _)] at held
    cases held
  rw [Ready, if_neg low] at ready
  rw [slot, if_neg low] at held
  by_cases fifteen : irq = 15
  · subst fifteen
    rw [Held] at held
    exact Bool.noConfusion ((ready.1.2.2 7 (Nat.le_refl _)).symm.trans held)
  · rw [if_neg fifteen, Held] at held
    exact Bool.noConfusion ((ready.2.2 2 (Nat.le_refl _)).symm.trans held)

theorem held_of_left {w' : World} {irq : Fin 16} (leaves : LeavesOnly keyb irq w w')
    (lasting : Lasting keyb irq) : Held w' (slot irq) := by
  obtain ⟨master, slave⟩ := leaves
  rw [left, if_neg lasting] at master slave
  by_cases fifteen : irq = 15
  · subst fifteen
    rw [if_pos rfl] at slave
    change w'.slave.isr.getLsbD 7 = true
    rw [slave, BitVec.getLsbD_or]
    exact Bool.or_true _
  rw [if_neg fifteen, serving] at master
  by_cases low : irq.val < 8
  · rw [if_pos low] at master
    rw [slot, if_pos low, Held, if_pos low, master, BitVec.getLsbD_or,
      PackedBits.getLsbD_mask low, decide_eq_true rfl, Bool.or_true]
  · rw [if_neg low] at master
    rw [slot, if_neg low, if_neg fifteen]
    have bit : (1#8 <<< 2).getLsbD 2 = true := rfl
    change w'.master.isr.getLsbD 2 = true
    rw [master, BitVec.getLsbD_or, bit, Bool.or_true]

theorem LeavesOnly.held {w' : World} {irq : Fin 16} (leaves : LeavesOnly keyb irq w w') {k : Nat}
    (held : Held w k) : Held w' k := by
  obtain ⟨master, slave⟩ := leaves
  unfold Held at held ⊢
  split at held
  · rename_i low
    rw [if_pos low, master, BitVec.getLsbD_or, held, Bool.true_or]
  · rename_i high
    rw [if_neg high, slave, BitVec.getLsbD_or, held, Bool.true_or]

/-- What is in service for good stays so while no interrupt is spurious. -/
theorem step_held (step : Step ld p s e t) (lines : Lines p keyb s.cpu) (genuine : Genuine s e)
    {k : Nat} (held : Held s.world k) : Held t.world k := by
  by_cases quiet : e.serves = false
  · obtain ⟨_, master, slave⟩ := quiet_step step quiet
    rw [Held, master, slave]
    exact held
  · cases step with
    | @interrupt irq w ready runs =>
      obtain rfl := lines.runs_iff.mp runs
      exact (interrupt_leaves ready).held held
    | spurious7 => exact absurd rfl (genuine _ _)
    | spurious15 => exact absurd rfl (genuine _ _)
    | _ => exact absurd rfl quiet

/-- The lines of devices other than the timer and the keyboard that are served, in their order. The
keyboard's line is left out even before its vector is set, when it keeps itself in service too. -/
def Event.other : Event → Option (Fin 16)
  | .interrupt irq => if 2 ≤ irq.val then some irq else none
  | _ => none

/-- They all leave lines in service that were not there before, each another one. -/
theorem run_slots {events : List Event} (run : Run (Guarded Genuine (Step ld p)) s events t)
    (lines : Lines p keyb s.cpu) :
    (∀ k ∈ (events.filterMap Event.other).map slot, ¬ Held s.world k ∧ 2 ≤ k ∧ k ≤ 8) ∧
      ((events.filterMap Event.other).map slot).Nodup := by
  induction run generalizing keyb with
  | nil => exact ⟨fun k hk => absurd hk List.not_mem_nil, List.nodup_nil⟩
  | @cons s s₁ r e events guarded _ ih =>
    obtain ⟨genuine, step⟩ := guarded
    obtain ⟨unheld, nodup⟩ := ih (step_lines step lines)
    have before : ∀ k ∈ (events.filterMap Event.other).map slot,
        ¬ Held s.world k ∧ 2 ≤ k ∧ k ≤ 8 := fun k hk =>
      ⟨fun held => (unheld k hk).1 (step_held step lines genuine held), (unheld k hk).2⟩
    rw [List.filterMap_cons]
    cases served : e.other with
    | none => exact ⟨before, nodup⟩
    | some irq =>
      -- the line of this interrupt is held from now on, and so none of the later ones
      obtain ⟨rfl, above⟩ : e = .interrupt irq ∧ 2 ≤ irq.val := by
        cases e with
        | interrupt line =>
          obtain ⟨above, same⟩ := Option.ite_none_right_eq_some.mp served
          obtain rfl := Option.some.inj same
          exact ⟨rfl, above⟩
        | _ => cases served
      have lasting : Lasting keyb irq := by
        rintro (rfl | ⟨rfl, _⟩) <;> exact absurd above (by decide)
      obtain ⟨ready, held⟩ : Ready s.world irq ∧ Held s₁.world (slot irq) := by
        cases step with
        | interrupt ready runs =>
          obtain rfl := lines.runs_iff.mp runs
          exact ⟨ready, held_of_left (interrupt_leaves ready) lasting⟩
      have range : 2 ≤ slot irq ∧ slot irq ≤ 8 := by
        rw [slot]
        split
        · omega
        · split <;> omega
      dsimp only
      rw [List.map_cons, List.forall_mem_cons, List.nodup_cons]
      exact ⟨⟨⟨not_held_of_ready ready, range⟩, before⟩, fun again => (unheld _ again).1 held, nodup⟩

/-- In a whole run the kernel serves no line twice but the timer's and the keyboard's, and no more
than seven interrupts of the other lines altogether. -/
theorem other_lines_at_most_seven {s₀ s' : Processor} (init : cpuInit p s₀ = some s') (w : World)
    {events : List Event} (run : Run (Guarded Genuine (Step ld p)) (boot w s') events t) :
    (events.filterMap Event.other).Nodup ∧ (events.filterMap Event.other).length ≤ 7 := by
  obtain ⟨range, nodup⟩ := run_slots run (lines_of_cpuInit init)
  refine ⟨List.Nodup.of_map slot nodup, ?_⟩
  have inside : (events.filterMap Event.other).map slot ⊆ List.range' 2 7 := by
    intro k hk
    obtain ⟨_, low, high⟩ := range k hk
    rw [List.mem_range'_1]
    omega
  have length := (List.subperm_of_subset nodup inside).length_le
  rw [List.length_map, List.length_range'] at length
  exact length

/-- Once lines 5 and 3 have been served, neither is served again, and of the rest at most five. -/
theorem two_lines_held : ∃ s' t, cpuInit KernelImage.place atRest = some s' ∧
    Run (Guarded Genuine (Step KernelImage.image KernelImage.place)) (boot KernelImage.idle s')
      [.request 5, .interrupt 5, .request 3, .interrupt 3] t ∧
    ∀ events u, Run (Guarded Genuine (Step KernelImage.image KernelImage.place)) t events u →
      5 ∉ events.filterMap Event.other ∧ 3 ∉ events.filterMap Event.other ∧
        (events.filterMap Event.other).length ≤ 5 := by
  obtain ⟨s', t, init, run⟩ := @two_served 5 3 (by decide) (by decide) (by decide) (by decide) rfl
  refine ⟨s', t, init, run, fun events u rest => ?_⟩
  obtain ⟨nodup, length⟩ := other_lines_at_most_seven init KernelImage.idle (run.append rest)
  rw [List.filterMap_append] at nodup length
  obtain ⟨not5, nodup⟩ := List.nodup_cons.mp nodup
  obtain ⟨not3, _⟩ := List.nodup_cons.mp nodup
  rw [List.length_append] at length
  exact ⟨fun h => not5 (List.mem_cons_of_mem _ h), not3, Nat.le_of_add_le_add_left length⟩

/-! ## The timer and the keyboard -/

theorem ended_clear {isr : BitVec 8} {k : Nat} (clear : isr.getLsbD k = false) :
    (ended isr).getLsbD k = false := by
  rw [ended, BitVec.getLsbD_and, clear, Bool.false_and]

theorem left_clear : ∀ (keyb : Bool) (irq : Fin 16), ∀ k < 2,
    (k = 1 → irq = 1 → keyb = true) → (left keyb irq).1.getLsbD k = false := by
  decide

/-- Neither line is in service between two interrupts, even when some are spurious, unless the
keyboard interrupts before its vector is set. -/
theorem step_clear (step : Step ld p s e t) (lines : Lines p keyb s.cpu)
    {k : Nat} (hk : k < 2) (early : k = 1 → e = .interrupt 1 → keyb = true)
    (clear : s.world.master.isr.getLsbD k = false) : t.world.master.isr.getLsbD k = false := by
  by_cases quiet : e.serves = false
  · obtain ⟨_, master, _⟩ := quiet_step step quiet
    rw [master]
    exact clear
  · cases step with
    | @interrupt irq w ready runs =>
      obtain rfl := lines.runs_iff.mp runs
      have first (second : k = 1) (one : irq = 1) : keyb = true :=
        early second (congrArg Event.interrupt one)
      obtain ⟨master, _⟩ := @interrupt_leaves ld keyb _ irq ready
      dsimp only
      rw [master, BitVec.getLsbD_or, clear, left_clear keyb irq k hk first, Bool.or_false]
    | @spurious7 w runs =>
      obtain rfl := lines.runs_iff.mp runs
      dsimp only
      rw [lineHandler_irq7]
      by_cases unmasked : s.world.master.imr &&& 0x80 = 0
      · have spurious : served ld s.world .irq7 = increment ld .spurious s.world := if_pos unmasked
        rw [spurious]
        exact clear
      · have told : served ld s.world .irq7 = endOfInterrupt s.world := if_neg unmasked
        rw [told]
        exact ended_clear clear
    | @spurious15 w cascade runs =>
      obtain rfl := lines.runs_iff.mp runs
      have master : (served ld (acknowledged ld s.world .withdrawn) .irq15).master.isr =
          ended (s.world.master.isr ||| 1#8 <<< 2) := by
        by_cases unmasked : (acknowledged ld s.world .withdrawn).slave.imr &&& 0x80 = 0
        · exact congrArg (fun w : World => w.master.isr) (if_pos unmasked)
        · exact congrArg (fun w : World => w.master.isr) (if_neg unmasked)
      dsimp only
      rw [lineHandler_irq15, master, cascade.ended_serve]
      exact clear
    | _ => exact absurd rfl quiet

/-- The keyboard does not interrupt before its vector is set. -/
def Early (keyb : Bool) : List Event → Prop
  | [] => True
  | e :: events => (e = .interrupt 1 → keyb = true) ∧ Early (keyb || e.setsKeyb) events

theorem run_clear {events : List Event} (run : Run (Step ld p) s events t)
    (lines : Lines p keyb s.cpu) {k : Nat} (hk : k < 2) (early : k = 1 → Early keyb events)
    (clear : s.world.master.isr.getLsbD k = false) : t.world.master.isr.getLsbD k = false := by
  induction run generalizing keyb with
  | nil => exact clear
  | cons step _ ih =>
    exact ih (step_lines step lines) (fun second => (early second).2)
      (step_clear step lines hk (fun second => (early second).1) clear)

theorem boot_isr {s₀ s' : Processor} (init : cpuInit p s₀ = some s') (w : World) :
    (boot w s').world.master.isr = 0 := by
  obtain ⟨s'', done, started⟩ := cpuInit_started p s₀
  obtain rfl := Option.some.inj (done.symm.trans init)
  exact congrArg Controller.isr started.master

/-- The timer is never held back, and neither is the keyboard if it is quiet until its vector is
set: requested and not masked, they can be served, whatever happened before. -/
theorem timer_and_keyboard_served {s₀ s' : Processor} (init : cpuInit p s₀ = some s') (w : World)
    {events : List Event} (run : Run (Step ld p) (boot w s') events t) {irq : Fin 16}
    (low : irq.val < 2) (early : irq = 1 → Early false events)
    (requested : t.world.master.irr.getLsbD irq.val = true)
    (unmasked : t.world.master.imr.getLsbD irq.val = false) :
    ∃ t', Step ld p t (.interrupt irq) t' := by
  have clear (k : Nat) (hk : k ≤ irq.val) : t.world.master.isr.getLsbD k = false := by
    refine run_clear run (lines_of_cpuInit init) (by omega) (fun second => ?_) ?_
    · exact early (Fin.ext (by omega))
    · rw [boot_isr init]
      exact BitVec.getLsbD_zero
  obtain ⟨keyb, lines⟩ : ∃ keyb, Lines p keyb t.cpu := ⟨_, run_lines run (lines_of_cpuInit init)⟩
  have ready : Ready t.world irq := by
    rw [Ready, if_pos (by omega)]
    exact ⟨by omega, requested, unmasked, clear⟩
  exact ⟨_, .interrupt ready (lines.runs_iff.mpr rfl)⟩

theorem timer_served_at_once : ∃ s' t t', cpuInit KernelImage.place atRest = some s' ∧
    Run (Step KernelImage.image KernelImage.place) (boot KernelImage.idle s') [.request 0] t ∧
    t.world.master.irr.getLsbD 0 = true ∧ t.world.master.imr.getLsbD 0 = false ∧
    Step KernelImage.image KernelImage.place t (.interrupt 0) t' := by
  obtain ⟨s', init, started⟩ := cpuInit_started KernelImage.place atRest
  have run : Run (Step KernelImage.image KernelImage.place) (boot KernelImage.idle s')
      [.request 0] _ := .cons (.request (by decide)) (.nil _)
  have passes : Passes (withLine s'.pics.master.controller 0) 0 := by
    rw [started.master]
    exact passes_requested (by decide) rfl rfl
  obtain ⟨t', step⟩ := @timer_and_keyboard_served _ _ _ _ _ init KernelImage.idle _ run 0
    (by decide) (fun one => absurd one (by decide)) passes.1 passes.2.1
  exact ⟨s', _, t', init, run, passes.1, passes.2.1, step⟩

theorem only_timer_of_held {irq : Fin 16} (ready : Ready w irq) (held : Held w 1) : irq = 0 := by
  by_contra nonzero
  have first : w.master.isr.getLsbD 1 = false := by
    by_cases low : irq.val < 8
    · rw [Ready, if_pos low] at ready
      exact ready.2.2.2 1 (by omega)
    · rw [Ready, if_neg low] at ready
      exact ready.2.2 1 (by decide)
  exact Bool.noConfusion (first.symm.trans held)

theorem run_silent {events : List Event} (run : Run (Guarded Genuine (Step ld p)) s events t)
    (lines : Lines p keyb s.cpu) (held : Held s.world 1) :
    ∀ irq, .interrupt irq ∈ events → irq = 0 := by
  induction run generalizing keyb with
  | nil => exact fun irq h => absurd h List.not_mem_nil
  | cons guarded _ ih =>
    obtain ⟨genuine, step⟩ := guarded
    intro irq h
    rcases List.mem_cons.mp h with rfl | later
    · cases step with
      | interrupt ready => exact only_timer_of_held ready held
    · exact ih (step_lines step lines) (step_held step lines genuine held) irq later

/-- A key that is pressed before the keyboard has its vector is the last one: from then on no
interrupt is served but the timer's. -/
theorem early_key_silences {s₀ s' : Processor} (init : cpuInit p s₀ = some s') (w : World)
    {before later : List Event} (unset : ∀ e ∈ before, e.setsKeyb = false)
    (run : Run (Guarded Genuine (Step ld p)) (boot w s') (before ++ .interrupt 1 :: later) t) :
    ∀ irq, .interrupt irq ∈ later → irq = 0 := by
  obtain ⟨s, first, rest⟩ := run.split before
  have lines := run_lines (genuine_run first) (lines_of_cpuInit init)
  have still : (false || before.any Event.setsKeyb) = false := by
    rw [Bool.false_or, List.any_eq_false]
    exact fun e he => Bool.eq_false_iff.mp (unset e he)
  rw [still] at lines
  cases rest with
  | cons guarded tail =>
    obtain ⟨genuine, step⟩ := guarded
    refine run_silent tail (step_lines step lines) ?_
    cases step with
    | interrupt ready runs =>
      obtain rfl := lines.runs_iff.mp runs
      have lasting : Lasting false 1 := by
        unfold Lasting
        decide
      exact held_of_left (interrupt_leaves ready) lasting

/-- The keyboard interrupts first, and the timer later. -/
theorem early_key_then_timer : ∃ s' t, cpuInit KernelImage.place atRest = some s' ∧
    Run (Guarded Genuine (Step KernelImage.image KernelImage.place)) (boot KernelImage.idle s')
      ([.request 1] ++ .interrupt 1 :: [.request 0, .interrupt 0]) t ∧
    ∀ irq, .interrupt irq ∈ [Event.request 0, .interrupt 0] → irq = 0 := by
  obtain ⟨s', t, init, run⟩ := @two_served 1 0 (by decide) (by decide) (by decide) (by decide) rfl
  exact ⟨s', t, init, run,
    @early_key_silences _ _ _ _ _ init KernelImage.idle [.request 1] _ (by decide) run⟩

/-! ## Keys -/

/-- What port 0x60 holds behind an event. -/
def Event.port (byte : BitVec 8) : Event → BitVec 8
  | .scancode byte => byte
  | _ => byte

/-- The scancodes that get to `ps2_keyboard_enqueue`. -/
def typed (byte : BitVec 8) (keyb : Bool) : List Event → List U32
  | [] => []
  | .interrupt irq :: events =>
    (if irq = 1 ∧ keyb = true then [byte.setWidth 32] else []) ++ typed byte keyb events
  | e :: events => typed (e.port byte) (keyb || e.setsKeyb) events

/-- The steps of `ps2_keyb_getbyte`, with what they return. -/
def Event.reads : Event → Option (U32 × Option U32)
  | .read past result => some (past, result)
  | _ => none

def scancode : KeyboardInterrupts.Event → Option U32
  | .key scancode _ => some scancode
  | .read _ _ => none

def reads : KeyboardInterrupts.Event → Option (U32 × Option U32)
  | .key _ _ => none
  | .read past result => some (past, result)

def System.keyboard (s : System) : KeyboardInterrupts.System := ⟨s.world.keyboard, s.reader⟩

theorem print_keyboard (w : World) (text : List U32) :
    (w.print text).keyboard = w.keyboard ∧ (w.print text).ports = w.ports := ⟨rfl, rfl⟩

/-- Only one routine touches the keyboard, and none the port. -/
theorem served_keyboard (ld : Linked) (w : World) {h : Handler} (other : h ≠ .keyb) :
    (served ld w h).keyboard = w.keyboard ∧ (served ld w h).ports = w.ports := by
  cases h with
  | keyb => exact absurd rfl other
  | irq7 =>
    dsimp only [served]
    split <;> exact ⟨rfl, rfl⟩
  | irq15 =>
    dsimp only [served]
    split <;> exact ⟨rfl, rfl⟩
  | pitIrq => exact ⟨rfl, rfl⟩
  | defaulthandler => exact print_keyboard w (line .interruptDefault)
  | _ => exact print_keyboard w (ExceptionReports.header ld w.words _)

theorem lineHandler_ne_keyb {irq : Fin 16} (other : ¬ (irq = 1 ∧ keyb = true)) :
    lineHandler keyb irq ≠ .keyb := by
  revert keyb irq
  decide

/-- An event either is one of the keyboard's system or leaves that system alone. -/
theorem step_keyboard (step : Step ld p s e t) (lines : Lines p keyb s.cpu)
    (indexed : ∀ x ∈ typed (s.world.ports 0x60) keyb [e], Ps2Keyboard.Indexed x) :
    t.world.ports 0x60 = e.port (s.world.ports 0x60) ∧
      ∃ events, Run KeyboardInterrupts.Step s.keyboard events t.keyboard ∧
        events.filterMap scancode = typed (s.world.ports 0x60) keyb [e] ∧
        events.filterMap reads = e.reads.toList := by
  have same {w : World} (ports : w.ports = s.world.ports)
      (keyboard : w.keyboard = s.world.keyboard) : w.ports 0x60 = s.world.ports 0x60 ∧
      Run KeyboardInterrupts.Step s.keyboard [] ⟨w.keyboard, s.reader⟩ :=
    ⟨congrFun ports 0x60, keyboard ▸ .nil _⟩
  cases step with
  | @request irq other =>
    obtain ⟨port, run⟩ := @same (requested s.world irq) (by rw [requested]; split <;> rfl)
      (by rw [requested]; split <;> rfl)
    exact ⟨port, [], run, rfl, rfl⟩
  | scancode =>
    refine ⟨?_, [], .nil _, rfl, rfl⟩
    exact Function.update_self (0x60 : BitVec 16) _ s.world.ports
  | mask => exact ⟨rfl, [], .nil _, rfl, rfl⟩
  | display => exact ⟨rfl, [], .nil _, rfl, rfl⟩
  | @read past r k reading =>
    refine ⟨rfl, [.read past r], .cons ?_ (.nil _), rfl, rfl⟩
    have step := KeyboardInterrupts.Step.read s.keyboard past
    rw [System.keyboard, reading] at step
    exact step
  | keybInitialize => exact ⟨rfl, [], .nil _, rfl, rfl⟩
  | @interrupt irq w ready runs =>
    obtain rfl := lines.runs_iff.mp runs
    by_cases first : irq = 1 ∧ keyb = true
    · obtain ⟨rfl, rfl⟩ := first
      have known : Ps2Keyboard.Indexed ((s.world.ports 0x60).setWidth 32) :=
        indexed _ List.mem_cons_self
      obtain ⟨k, queued⟩ : ∃ k, s.world.keyboard.ps2KeyboardEnqueue
        ((s.world.ports 0x60).setWidth 32) = some k := ⟨_, Ps2Keyboard.enqueue_eq known _⟩
      have step := @KeyboardInterrupts.Step.key s.keyboard _ k queued
      refine ⟨rfl, [_], .cons step ?_, rfl, rfl⟩
      have keyboard : (served ld (acknowledged ld s.world (.deliver 1))
          (lineHandler true 1)).keyboard = k :=
        congrArg (fun q : Option Ps2Keyboard.Keyboard => q.getD _) queued
      dsimp only [System.keyboard]
      rw [keyboard]
      exact .nil _
    · obtain ⟨keyboard, ports⟩ := @served_keyboard ld (acknowledged ld s.world (.deliver irq))
        (lineHandler keyb irq) (lineHandler_ne_keyb first)
      obtain ⟨port, run⟩ := same ports keyboard
      refine ⟨port, [], run, ?_, rfl⟩
      rw [typed, if_neg first]
      rfl
  | @spurious7 w runs =>
    obtain rfl := lines.runs_iff.mp runs
    obtain ⟨keyboard, ports⟩ := @served_keyboard ld s.world (lineHandler keyb 7)
      (lineHandler_ne_keyb fun h => absurd h.1 (by decide))
    obtain ⟨port, run⟩ := same ports keyboard
    exact ⟨port, [], run, rfl, rfl⟩
  | @spurious15 w cascade runs =>
    obtain rfl := lines.runs_iff.mp runs
    obtain ⟨keyboard, ports⟩ := @served_keyboard ld (acknowledged ld s.world .withdrawn)
      (lineHandler keyb 15) (lineHandler_ne_keyb fun h => absurd h.1 (by decide))
    obtain ⟨port, run⟩ := same ports keyboard
    exact ⟨port, [], run, rfl, rfl⟩

theorem typed_cons (byte : BitVec 8) (keyb : Bool) (e : Event) (events : List Event) :
    typed byte keyb (e :: events) =
      typed byte keyb [e] ++ typed (e.port byte) (keyb || e.setsKeyb) events := by
  cases e with
  | interrupt irq =>
    have unset : (Event.interrupt irq).setsKeyb = false := rfl
    rw [typed, typed, typed, List.append_nil, unset, Bool.or_false]
    rfl
  | _ => rfl

/-- Behind the controllers, the tables and the routine, the keyboard sees a run of its own system:
the scancodes of the interrupts that are served, between the steps of the program's reads. -/
theorem run_keyboard {events : List Event} (run : Run (Step ld p) s events t)
    (lines : Lines p keyb s.cpu)
    (indexed : ∀ x ∈ typed (s.world.ports 0x60) keyb events, Ps2Keyboard.Indexed x) :
    ∃ keys, Run KeyboardInterrupts.Step s.keyboard keys t.keyboard ∧
      keys.filterMap scancode = typed (s.world.ports 0x60) keyb events ∧
      keys.filterMap reads = events.filterMap Event.reads := by
  induction run generalizing keyb with
  | nil => exact ⟨[], .nil _, rfl, rfl⟩
  | @cons s s₁ r e events step _ ih =>
    rw [typed_cons] at indexed ⊢
    obtain ⟨port, first, here, scancodes, readings⟩ := step_keyboard step lines fun x hx =>
      indexed x (List.mem_append_left _ hx)
    rw [← port] at indexed ⊢
    obtain ⟨rest, there, scancodes', readings'⟩ := ih (step_lines step lines) fun x hx =>
      indexed x (List.mem_append_right _ hx)
    refine ⟨first ++ rest, here.append there, ?_, ?_⟩
    · rw [List.filterMap_append, scancodes, scancodes']
    · rw [List.filterMap_append, readings, readings', List.filterMap_cons]
      cases e.reads <;> rfl

/-- Every run of the kernel is, for the keyboard, a run of the system in which
`ps2_keyboard_enqueue` may come between any two steps of `ps2_keyb_getbyte`. -/
theorem keyboard_refined {s₀ s' : Processor} (init : cpuInit p s₀ = some s') (w : World)
    {events : List Event} (run : Run (Step ld p) (boot w s') events t)
    (indexed : ∀ x ∈ typed (w.ports 0x60) false events, Ps2Keyboard.Indexed x) :
    ∃ keys, Run KeyboardInterrupts.Step ⟨w.keyboard, .idle⟩ keys t.keyboard ∧
      keys.filterMap scancode = typed (w.ports 0x60) false events ∧
      keys.filterMap reads = events.filterMap Event.reads :=
  run_keyboard run (lines_of_cpuInit init) indexed

/-- A key is released after the vector is set. -/
theorem key_refined : ∃ s' t keys, cpuInit KernelImage.place atRest = some s' ∧
    Run (Step KernelImage.image KernelImage.place) (boot KernelImage.idle s')
      [.keybInitialize, .scancode 0x9e, .request 1, .interrupt 1] t ∧
    Run KeyboardInterrupts.Step ⟨Ps2Keyboard.poweredOn fun _ => 0, .idle⟩ keys t.keyboard ∧
    keys.filterMap scancode = [0x9e] := by
  obtain ⟨s', init, started⟩ := cpuInit_started KernelImage.place atRest
  obtain ⟨f, routed, _⟩ := (lines_of_cpuInit init).routed
  obtain ⟨c, set, _⟩ := routed.setVectors [(0x21, .keyb)] (by decide)
  have initialized : ps2KeybInitialize KernelImage.place s'.cpu = some (0, c) := by
    rw [ps2KeybInitialize, set]
    rfl
  have lines := (lines_of_cpuInit init).keybInitialize initialized
  have master : (boot KernelImage.idle s').world.master = ⟨0, 0, 0, .irr, 0⟩ := started.master
  obtain ⟨w, hw⟩ : ∃ w : World, w = { (boot KernelImage.idle s').world with
    ports := Function.update (boot KernelImage.idle s').world.ports 0x60 0x9e } := ⟨_, rfl⟩
  have ready : Ready (requested w 1) 1 := by
    refine ⟨by decide, ?_⟩
    change Passes (withLine w.master 1) 1
    rw [hw, master]
    exact passes_requested (by decide) rfl rfl
  have run := genuine_run (@serve_one KernelImage.image _ _ ⟨w, .idle, c⟩ lines 1
    (by decide) ready)
  rw [hw] at run
  have first := @Step.keybInitialize KernelImage.image KernelImage.place
    (boot KernelImage.idle s') _ _ initialized
  have run' := Run.cons first (Run.cons (@Step.scancode _ _ _ 0x9e) run)
  have indexed : ∀ x ∈ typed (KernelImage.idle.ports 0x60) false
      [.keybInitialize, .scancode 0x9e, .request 1, .interrupt 1], Ps2Keyboard.Indexed x := by
    intro x hx
    obtain rfl := List.mem_singleton.mp hx
    exact (Ps2Keyboard.byte_indexed 0x9e).mpr (by decide)
  obtain ⟨keys, keyRun, scancodes, _⟩ := keyboard_refined init KernelImage.idle run' indexed
  exact ⟨s', _, keys, init, run', keyRun, scancodes⟩

end InterruptRuns
