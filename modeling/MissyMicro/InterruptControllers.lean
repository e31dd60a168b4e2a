import MissyMicro.TransitionRuns
import MissyMicro.PackedBits
import MissyMicro.Words

/-!
# Ends of interrupts

The two controllers are told the end of an interrupt, unless the interrupt was spurious. Whether
it was is looked up in the in-service registers, and these are read at the data ports, where the
masks are. So a masked line counts as in service and an unmasked one as spurious.
-/

namespace InterruptControllers

open TransitionRuns

inductive Register where
  | irr
  | isr
  deriving DecidableEq

/-- `eois` counts the ends of interrupts that a controller was told. -/
structure Controller where
  irr : BitVec 8
  isr : BitVec 8
  imr : BitVec 8
  selected : Register
  eois : Nat

/-- An end of interrupt is not specific: it is of the line of the highest priority in service. -/
def Controller.writeCommand (c : Controller) (byte : BitVec 8) : Controller :=
  if byte = 0x20 then { c with isr := c.isr &&& (c.isr - 1), eois := c.eois + 1 }
  else if byte = 0x0a then { c with selected := .irr }
  else if byte = 0x0b then { c with selected := .isr }
  else c

def Controller.readCommand (c : Controller) : BitVec 8 :=
  match c.selected with
  | .irr => c.irr
  | .isr => c.isr

def Controller.writeData (c : Controller) (byte : BitVec 8) : Controller := { c with imr := byte }

def Controller.readData (c : Controller) : BitVec 8 := c.imr

structure Machine where
  master : Controller
  slave : Controller
  spurious : U32

def outportb (m : Machine) (port : BitVec 16) (byte : BitVec 8) : Machine :=
  if port = 0x20 then { m with master := m.master.writeCommand byte }
  else if port = 0x21 then { m with master := m.master.writeData byte }
  else if port = 0xa0 then { m with slave := m.slave.writeCommand byte }
  else if port = 0xa1 then { m with slave := m.slave.writeData byte }
  else m

def inportb (m : Machine) (port : BitVec 16) : BitVec 8 :=
  if port = 0x20 then m.master.readCommand
  else if port = 0x21 then m.master.readData
  else if port = 0xa0 then m.slave.readCommand
  else if port = 0xa1 then m.slave.readData
  else 0xff

def i386PicGetIrqreg (m : Machine) (ocw3 : BitVec 8) : BitVec 16 × Machine :=
  let m := outportb m 0x20 ocw3
  let m := outportb m 0xa0 ocw3
  ((inportb m 0xa1).setWidth 16 <<< 8 ||| (inportb m 0x21).setWidth 16, m)

def i386PicIsrset (x : BitVec 16) (y : BitVec 8) : Bool :=
  decide (x &&& (1 <<< y.toNat) ≠ 0)

def i386PicSendEoi (m : Machine) (irq : BitVec 8) : Machine :=
  let irqreg := i386PicGetIrqreg m 0x0b
  let m := irqreg.2
  if (irq = 7 ∨ irq = 15) ∧ i386PicIsrset irqreg.1 irq = false then
    let m := if irq = 15 then outportb m 0x20 0x20 else m
    { m with spurious := m.spurious + 1 }
  else
    let m := if 8 ≤ irq.toNat then outportb m 0xa0 0x20 else m
    outportb m 0x20 0x20

def i386HandlerIrq7 (m : Machine) : Machine :=
  if inportb m 0x21 &&& 0x80 = 0 then { m with spurious := m.spurious + 1 }
  else outportb m 0x20 0x20

/-- The data port of the slave: `X86_PIC2_PORT_DATA` is defined twice, the second time as 0xa1. -/
def i386HandlerIrq15 (m : Machine) : Machine :=
  if inportb m 0xa1 &&& 0x80 = 0 then
    outportb { m with spurious := m.spurious + 1 } 0x20 0x20
  else outportb (outportb m 0x20 0x20) 0xa0 0x20

def Controller.serve (c : Controller) (line : Nat) : Controller :=
  { c with irr := c.irr &&& ~~~(1#8 <<< line), isr := c.isr ||| (1#8 <<< line) }

/-- `withdrawn` is an interrupt that the slave has taken back when it is acknowledged: the master
serves the line of the slave, and the slave serves none. -/
inductive Event where
  | deliver (irq : Fin 16)
  | withdrawn
  | setMask (master slave : BitVec 8)
  | sendEoi (irq : BitVec 8)
  | handlerIrq7
  | handlerIrq15

def next (m : Machine) : Event → Machine
  | .deliver irq =>
    if irq.val < 8 then { m with master := m.master.serve irq.val }
    else { m with master := m.master.serve 2, slave := m.slave.serve (irq.val - 8) }
  | .withdrawn => { m with master := m.master.serve 2 }
  | .setMask master slave =>
    { m with master := m.master.writeData master, slave := m.slave.writeData slave }
  | .sendEoi irq => i386PicSendEoi m irq
  | .handlerIrq7 => i386HandlerIrq7 m
  | .handlerIrq15 => i386HandlerIrq15 m

/-- The line that a call is for. -/
def Event.irq : Event → Option Nat
  | .deliver _ => none
  | .withdrawn => none
  | .setMask _ _ => none
  | .sendEoi irq => some irq.toNat
  | .handlerIrq7 => some 7
  | .handlerIrq15 => some 15

def InService (m : Machine) (irq : Nat) : Prop :=
  if irq < 8 then m.master.isr.getLsbD irq = true else m.slave.isr.getLsbD (irq - 8) = true

/-- The line is in service on none of its controllers. -/
def Ended (m : Machine) (irq : Nat) : Prop :=
  if irq < 8 then m.master.isr.getLsbD irq = false
  else m.slave.isr.getLsbD (irq - 8) = false ∧ m.master.isr.getLsbD 2 = false

/-- What a call for `irq` has to do. -/
structure Law (irq : Nat) (m m' : Machine) : Prop where
  served : InService m irq → Ended m' irq ∧ m'.spurious = m.spurious
  spurious7 : irq = 7 → ¬ InService m 7 → m'.spurious = m.spurious + 1 ∧
    m'.master.eois = m.master.eois ∧ m'.slave.eois = m.slave.eois
  spurious15 : irq = 15 → ¬ InService m 15 → m'.spurious = m.spurious + 1 ∧
    m'.slave.eois = m.slave.eois

/-- No line of a higher priority is in service. -/
def Highest (isr : BitVec 8) (line : Nat) : Prop := ∀ j < line, isr.getLsbD j = false

/-- An end of interrupt is taken for the line, on every controller that serves it. -/
def First (m : Machine) (irq : Nat) : Prop :=
  if irq < 8 then Highest m.master.isr irq
  else Highest m.slave.isr (irq - 8) ∧ (m.master.isr.getLsbD 2 = true → Highest m.master.isr 2)

/-- The mask of line 7 is what the in-service register should have held. -/
structure Meets (m : Machine) (irq : Nat) : Prop where
  first : InService m irq → First m irq
  line7 : irq = 7 → m.master.imr.getLsbD 7 = m.master.isr.getLsbD 7
  line15 : irq = 15 → m.slave.imr.getLsbD 7 = m.slave.isr.getLsbD 7

/-- The call takes line 7 of a controller as spurious. -/
def Unmasked (m : Machine) (irq : Nat) : Prop :=
  (irq = 7 ∧ m.master.imr.getLsbD 7 = false) ∨ (irq = 15 ∧ m.slave.imr.getLsbD 7 = false)

structure Told (c c' : Controller) : Prop where
  isr : c'.isr = c.isr &&& (c.isr - 1)
  eois : c'.eois = c.eois + 1

structure Untold (c c' : Controller) : Prop where
  isr : c'.isr = c.isr
  eois : c'.eois = c.eois

structure Effect (irq : Nat) (m m' : Machine) : Prop where
  counted : Unmasked m irq → m'.spurious = m.spurious + 1
  uncounted : ¬ Unmasked m irq → m'.spurious = m.spurious
  toldMaster : ¬ (irq = 7 ∧ m.master.imr.getLsbD 7 = false) → Told m.master m'.master
  untoldMaster : irq = 7 ∧ m.master.imr.getLsbD 7 = false → Untold m.master m'.master
  toldSlave : 8 ≤ irq → ¬ Unmasked m irq → Told m.slave m'.slave
  untoldSlave : irq < 8 ∨ Unmasked m irq → Untold m.slave m'.slave

variable {m : Machine}

theorem unmasked_seven : Unmasked m 7 ↔ m.master.imr.getLsbD 7 = false := by
  constructor
  · rintro (⟨_, unmasked⟩ | ⟨other, _⟩)
    · exact unmasked
    · omega
  · exact fun unmasked => Or.inl ⟨rfl, unmasked⟩

theorem unmasked_fifteen : Unmasked m 15 ↔ m.slave.imr.getLsbD 7 = false := by
  constructor
  · rintro (⟨other, _⟩ | ⟨_, unmasked⟩)
    · omega
    · exact unmasked
  · exact fun unmasked => Or.inr ⟨rfl, unmasked⟩

theorem line7_iff {x : BitVec 8} : x &&& 0x80 = 0 ↔ x.getLsbD 7 = false :=
  @PackedBits.and_mask_eq_zero 8 x 7 (by decide)

/-- The effect of a call for line 7 that takes it as spurious, and of one that does not. -/
theorem effect_seven {m' : Machine} (slave : Untold m.slave m'.slave)
    (spurious : m.master.imr.getLsbD 7 = false → m'.spurious = m.spurious + 1 ∧
      Untold m.master m'.master)
    (served : m.master.imr.getLsbD 7 = true → m'.spurious = m.spurious ∧
      Told m.master m'.master) : Effect 7 m m' := by
  cases unmasked : m.master.imr.getLsbD 7 with
  | false =>
    obtain ⟨counted, untold⟩ := spurious unmasked
    have taken := unmasked_seven.mpr unmasked
    refine ⟨fun _ => counted, fun not => absurd taken not, fun not => ?_, fun _ => untold,
      fun high => by omega, fun _ => slave⟩
    exact absurd ⟨rfl, unmasked⟩ not
  | true =>
    obtain ⟨uncounted, told⟩ := served unmasked
    have not : ¬ Unmasked m 7 := fun taken =>
      Bool.noConfusion (unmasked.symm.trans (unmasked_seven.mp taken))
    refine ⟨fun taken => absurd taken not, fun _ => uncounted, fun _ => told, fun taken => ?_,
      fun high => by omega, fun _ => slave⟩
    exact absurd (Or.inl taken) not

theorem effect_fifteen {m' : Machine} (master : Told m.master m'.master)
    (spurious : m.slave.imr.getLsbD 7 = false → m'.spurious = m.spurious + 1 ∧
      Untold m.slave m'.slave)
    (served : m.slave.imr.getLsbD 7 = true → m'.spurious = m.spurious ∧
      Told m.slave m'.slave) : Effect 15 m m' := by
  cases unmasked : m.slave.imr.getLsbD 7 with
  | false =>
    obtain ⟨counted, untold⟩ := spurious unmasked
    have taken := unmasked_fifteen.mpr unmasked
    refine ⟨fun _ => counted, fun not => absurd taken not, fun _ => master, fun seven => ?_,
      fun _ not => absurd taken not, fun _ => untold⟩
    exact absurd seven.1 (by decide)
  | true =>
    obtain ⟨uncounted, told⟩ := served unmasked
    have not : ¬ Unmasked m 15 := fun taken =>
      Bool.noConfusion (unmasked.symm.trans (unmasked_fifteen.mp taken))
    refine ⟨fun taken => absurd taken not, fun _ => uncounted, fun _ => master, fun seven => ?_,
      fun _ _ => told, fun low => ?_⟩
    · exact absurd seven.1 (by decide)
    · exact absurd (low.resolve_left (by decide)) not

theorem effect_handlerIrq7 : Effect 7 m (i386HandlerIrq7 m) := by
  refine effect_seven ?_ (fun unmasked => ?_) (fun masked => ?_)
  · rw [i386HandlerIrq7]
    split <;> exact ⟨rfl, rfl⟩
  · have zero : inportb m 0x21 &&& 0x80 = 0 := line7_iff.mpr unmasked
    rw [i386HandlerIrq7, if_pos zero]
    exact ⟨rfl, ⟨rfl, rfl⟩⟩
  · have nonzero : ¬ inportb m 0x21 &&& 0x80 = 0 := by
      intro zero
      exact Bool.noConfusion (masked.symm.trans (line7_iff.mp zero))
    rw [i386HandlerIrq7, if_neg nonzero]
    exact ⟨rfl, ⟨rfl, rfl⟩⟩

theorem effect_handlerIrq15 : Effect 15 m (i386HandlerIrq15 m) := by
  refine effect_fifteen ?_ (fun unmasked => ?_) (fun masked => ?_)
  · rw [i386HandlerIrq15]
    split <;> exact ⟨rfl, rfl⟩
  · have zero : inportb m 0xa1 &&& 0x80 = 0 := line7_iff.mpr unmasked
    rw [i386HandlerIrq15, if_pos zero]
    exact ⟨rfl, ⟨rfl, rfl⟩⟩
  · have nonzero : ¬ inportb m 0xa1 &&& 0x80 = 0 := by
      intro zero
      exact Bool.noConfusion (masked.symm.trans (line7_iff.mp zero))
    rw [i386HandlerIrq15, if_neg nonzero]
    exact ⟨rfl, ⟨rfl, rfl⟩⟩

/-- The word that is looked at holds the two masks. -/
theorem irqreg_isrset {k : BitVec 8} (hk : k.toNat < 16) :
    i386PicIsrset (i386PicGetIrqreg m 0x0b).1 k =
      if k.toNat < 8 then m.master.imr.getLsbD k.toNat else m.slave.imr.getLsbD (k.toNat - 8) := by
  have word : (i386PicGetIrqreg m 0x0b).1 =
    m.slave.imr.setWidth 16 <<< 8 ||| m.master.imr.setWidth 16 := rfl
  have bit : i386PicIsrset (i386PicGetIrqreg m 0x0b).1 k =
      (i386PicGetIrqreg m 0x0b).1.getLsbD k.toNat := by
    have clear := @PackedBits.and_mask_eq_zero 16 (i386PicGetIrqreg m 0x0b).1 k.toNat hk
    cases value : (i386PicGetIrqreg m 0x0b).1.getLsbD k.toNat with
    | false => exact decide_eq_false fun nonzero => nonzero (clear.mpr value)
    | true =>
      refine decide_eq_true fun zero => ?_
      exact Bool.noConfusion (value.symm.trans (clear.mp zero))
  rw [bit, word, BitVec.getLsbD_or, BitVec.getLsbD_shiftLeft, BitVec.getLsbD_setWidth,
    BitVec.getLsbD_setWidth]
  by_cases low : k.toNat < 8
  · simp [low, hk]
  · simp [low, hk, BitVec.getLsbD_of_ge m.master.imr k.toNat (by omega),
      show k.toNat - 8 < 16 by omega]

theorem effect_sendEoi (irq : BitVec 8) : Effect irq.toNat m (i386PicSendEoi m irq) := by
  by_cases seven : irq = 7
  · subst seven
    have set : i386PicIsrset (i386PicGetIrqreg m 0x0b).1 7 = m.master.imr.getLsbD 7 :=
      irqreg_isrset (by decide)
    refine effect_seven ?_ (fun unmasked => ?_) (fun masked => ?_)
    · rw [i386PicSendEoi]
      split <;> exact ⟨rfl, rfl⟩
    · rw [i386PicSendEoi, if_pos ⟨Or.inl rfl, set.trans unmasked⟩]
      exact ⟨rfl, ⟨rfl, rfl⟩⟩
    · rw [i386PicSendEoi, if_neg fun taken => ?_]
      · exact ⟨rfl, ⟨rfl, rfl⟩⟩
      · exact Bool.noConfusion ((set.trans masked).symm.trans taken.2)
  by_cases fifteen : irq = 15
  · subst fifteen
    have set : i386PicIsrset (i386PicGetIrqreg m 0x0b).1 15 = m.slave.imr.getLsbD 7 :=
      irqreg_isrset (by decide)
    refine effect_fifteen ?_ (fun unmasked => ?_) (fun masked => ?_)
    · rw [i386PicSendEoi]
      split <;> exact ⟨rfl, rfl⟩
    · rw [i386PicSendEoi, if_pos ⟨Or.inr rfl, set.trans unmasked⟩]
      exact ⟨rfl, ⟨rfl, rfl⟩⟩
    · rw [i386PicSendEoi, if_neg fun taken => ?_]
      · exact ⟨rfl, ⟨rfl, rfl⟩⟩
      · exact Bool.noConfusion ((set.trans masked).symm.trans taken.2)
  · have not : ¬ Unmasked m irq.toNat := by
      rintro (⟨same, _⟩ | ⟨same, _⟩)
      · exact seven (BitVec.eq_of_toNat_eq same)
      · exact fifteen (BitVec.eq_of_toNat_eq same)
    have other : ¬ ((irq = 7 ∨ irq = 15) ∧
        i386PicIsrset (i386PicGetIrqreg m 0x0b).1 irq = false) := by
      rintro ⟨same | same, _⟩
      · exact seven same
      · exact fifteen same
    rw [i386PicSendEoi, if_neg other]
    refine ⟨fun taken => absurd taken not, fun _ => ?_, fun _ => ?_, fun taken => ?_,
      fun high _ => ?_, fun low => ?_⟩
    · split <;> rfl
    · split <;> exact ⟨rfl, rfl⟩
    · exact absurd (Or.inl taken) not
    · rw [if_pos high]
      exact ⟨rfl, rfl⟩
    · rw [if_neg (by have := low.resolve_right not; omega)]
      exact ⟨rfl, rfl⟩

theorem highest_iff : ∀ isr : BitVec 8, ∀ line < 8, isr.getLsbD line = true →
    ((isr &&& (isr - 1)).getLsbD line = false ↔ ∀ j < line, isr.getLsbD j = false) := by
  decide +kernel

theorem Told.cleared_iff {c c' : Controller} (told : Told c c') {line : Nat} (hline : line < 8)
    (served : c.isr.getLsbD line = true) :
    c'.isr.getLsbD line = false ↔ Highest c.isr line := by
  rw [told.isr]
  exact highest_iff c.isr line hline served

/-- An end of interrupt brings no line into service. -/
theorem Told.clear {c c' : Controller} (told : Told c c') {line : Nat}
    (clear : c.isr.getLsbD line = false) : c'.isr.getLsbD line = false := by
  rw [told.isr, BitVec.getLsbD_and, clear, Bool.false_and]

theorem add_one_ne (x : U32) : x + 1 ≠ x := by
  bv_omega

variable {m' : Machine}

theorem Effect.counted_iff {irq : Nat} (effect : Effect irq m m') :
    m'.spurious = m.spurious + 1 ↔ Unmasked m irq := by
  constructor
  · intro counted
    by_contra not
    exact add_one_ne _ (counted.symm.trans (effect.uncounted not))
  · exact effect.counted

/-- A call for a line in service. -/
theorem Effect.served_iff {irq : Nat} (effect : Effect irq m m') (served : InService m irq) :
    Ended m' irq ∧ m'.spurious = m.spurious ↔ ¬ Unmasked m irq ∧ First m irq := by
  by_cases unmasked : Unmasked m irq
  · refine iff_of_false (fun law => ?_) fun meets => meets.1 unmasked
    exact add_one_ne _ ((effect.counted unmasked).symm.trans law.2)
  have master := effect.toldMaster fun taken => unmasked (Or.inl taken)
  have ended_iff : Ended m' irq ↔ First m irq := by
    unfold InService at served
    unfold Ended First
    by_cases low : irq < 8
    · rw [if_pos low] at served ⊢
      rw [if_pos low]
      exact master.cleared_iff low served
    · rw [if_neg low] at served ⊢
      rw [if_neg low]
      have slave := effect.toldSlave (by omega) unmasked
      have line : irq - 8 < 8 := by
        by_contra beyond
        rw [BitVec.getLsbD_of_ge _ _ (by omega)] at served
        cases served
      refine and_congr (slave.cleared_iff line served) ?_
      cases cascade : m.master.isr.getLsbD 2 with
      | false => exact iff_of_true (master.clear cascade) fun absent => Bool.noConfusion absent
      | true =>
        rw [master.cleared_iff (by decide) cascade]
        exact ⟨fun first _ => first, fun first => first rfl⟩
  constructor
  · intro law
    exact ⟨unmasked, ended_iff.mp law.1⟩
  · intro meets
    exact ⟨ended_iff.mpr meets.2, effect.uncounted unmasked⟩

/-- A lawful call for line 7 of a controller finds in the mask what the in-service register
holds. -/
theorem Effect.mask_eq {irq : Nat} {mask served : Bool} (effect : Effect irq m m')
    (unmasked_iff : Unmasked m irq ↔ mask = false) (served_iff : InService m irq ↔ served = true)
    (ended : InService m irq → Ended m' irq ∧ m'.spurious = m.spurious)
    (counted : ¬ InService m irq → m'.spurious = m.spurious + 1) : mask = served := by
  cases served with
  | false =>
    have absent : ¬ InService m irq := fun present => Bool.noConfusion (served_iff.mp present)
    exact unmasked_iff.mp (effect.counted_iff.mp (counted absent))
  | true =>
    have present := served_iff.mpr rfl
    have not := ((effect.served_iff present).mp (ended present)).1
    exact Bool.eq_true_of_not_eq_false fun clear => not (unmasked_iff.mpr clear)

theorem Effect.law_iff {irq : Nat} (effect : Effect irq m m') : Law irq m m' ↔ Meets m irq := by
  constructor
  · intro law
    refine ⟨fun served => ((effect.served_iff served).mp (law.served served)).2, ?_, ?_⟩
    · rintro rfl
      exact effect.mask_eq unmasked_seven Iff.rfl law.served fun absent =>
        (law.spurious7 rfl absent).1
    · rintro rfl
      exact effect.mask_eq unmasked_fifteen Iff.rfl law.served fun absent =>
        (law.spurious15 rfl absent).1
  · intro meets
    constructor
    · intro served
      refine (effect.served_iff served).mpr ⟨?_, meets.first served⟩
      rintro (⟨rfl, clear⟩ | ⟨rfl, clear⟩)
      · exact Bool.noConfusion (clear.symm.trans ((meets.line7 rfl).trans served))
      · exact Bool.noConfusion (clear.symm.trans ((meets.line15 rfl).trans served))
    · rintro rfl absent
      have unmasked : Unmasked m 7 :=
        unmasked_seven.mpr ((meets.line7 rfl).trans (Bool.eq_false_of_not_eq_true absent))
      exact ⟨effect.counted unmasked, (effect.untoldMaster ⟨rfl, unmasked_seven.mp unmasked⟩).eois,
        (effect.untoldSlave (Or.inr unmasked)).eois⟩
    · rintro rfl absent
      have unmasked : Unmasked m 15 :=
        unmasked_fifteen.mpr ((meets.line15 rfl).trans (Bool.eq_false_of_not_eq_true absent))
      exact ⟨effect.counted unmasked, (effect.untoldSlave (Or.inr unmasked)).eois⟩

theorem effect_next {e : Event} {irq : Nat} (h : e.irq = some irq) : Effect irq m (next m e) := by
  cases e with
  | deliver irq => cases h
  | withdrawn => cases h
  | setMask master slave => cases h
  | sendEoi irq =>
    obtain rfl := Option.some.inj h
    exact effect_sendEoi irq
  | handlerIrq7 =>
    obtain rfl := Option.some.inj h
    exact effect_handlerIrq7
  | handlerIrq15 =>
    obtain rfl := Option.some.inj h
    exact effect_handlerIrq15

def Step (m : Machine) (e : Event) (m' : Machine) : Prop := m' = next m e

/-- Every call of a sequence does what it has to. -/
def Lawful (m : Machine) (es : List Event) : Prop :=
  ∀ before e after irq, es = before ++ e :: after → e.irq = some irq →
    ∀ s, Run Step m before s → Law irq s (next s e)

def MeetsAll (m : Machine) (es : List Event) : Prop :=
  ∀ before e after irq, es = before ++ e :: after → e.irq = some irq →
    ∀ s, Run Step m before s → Meets s irq

theorem end_of_interrupt_lawful_iff (m : Machine) (es : List Event) :
    Lawful m es ↔ MeetsAll m es := by
  constructor
  · intro lawful before e after irq split call s run
    exact (effect_next call).law_iff.mp (lawful before e after irq split call s run)
  · intro meets before e after irq split call s run
    exact (effect_next call).law_iff.mpr (meets before e after irq split call s run)

/-- No line is masked and none in service. -/
def quiet : Machine := ⟨⟨0, 0, 0, .irr, 0⟩, ⟨0, 0, 0, .irr, 0⟩, 0⟩

/-- A line 7 in service is taken as spurious and stays in service. -/
theorem line7_stays_in_service :
    InService (next quiet (.deliver 7)) 7 ∧
      InService (next (next quiet (.deliver 7)) (.sendEoi 7)) 7 ∧
      (next (next quiet (.deliver 7)) (.sendEoi 7)).spurious = 1 ∧
      ¬ Lawful quiet [.deliver 7, .sendEoi 7] ∧ ¬ Lawful quiet [.deliver 7, .handlerIrq7] := by
  refine ⟨rfl, rfl, rfl, fun lawful => ?_, fun lawful => ?_⟩
  · have law := lawful [.deliver 7] (.sendEoi 7) [] 7 rfl rfl _ (.cons rfl (.nil _))
    exact Bool.noConfusion (law.served rfl).1
  · have law := lawful [.deliver 7] .handlerIrq7 [] 7 rfl rfl _ (.cons rfl (.nil _))
    exact Bool.noConfusion (law.served rfl).1

end InterruptControllers
