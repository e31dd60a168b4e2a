import MissyMicro.DescriptorTables
import MissyMicro.InterruptControllers

/-!
# Setting up the interrupt controllers

A controller takes its initialization words one after the other, all but the first at the port
where its mask is otherwise. Masking a line is a change of one bit of one mask, and so the two
masks together are the set of the lines that are turned off.
-/

namespace ControllerSetup

open InterruptControllers DescriptorTables PackedBits

/-- What a controller takes at its data port. -/
inductive Awaited where
  | mask
  | offset
  | cascade
  | mode
  deriving DecidableEq

/-- `offset` is the vector of line 0, `cascade` and `mode` are the third and the fourth
initialization word. -/
structure Chip where
  controller : Controller
  offset : BitVec 8
  cascade : BitVec 8
  mode : BitVec 8
  awaited : Awaited
  single : Bool
  withMode : Bool

/-- The first word clears the requests, the lines in service and the mask. -/
def Chip.writeCommand (c : Chip) (byte : BitVec 8) : Chip :=
  if byte &&& 0x10 = 0 then { c with controller := c.controller.writeCommand byte }
  else { c with
    controller := { c.controller with irr := 0, isr := 0, imr := 0, selected := .irr }
    mode := if byte &&& 0x01 = 0 then 0 else c.mode
    awaited := .offset
    single := decide (byte &&& 0x02 ≠ 0)
    withMode := decide (byte &&& 0x01 ≠ 0) }

def Chip.behindCascade (c : Chip) : Awaited := if c.withMode then .mode else .mask

def Chip.writeData (c : Chip) (byte : BitVec 8) : Chip :=
  match c.awaited with
  | .mask => { c with controller := c.controller.writeData byte }
  | .offset => { c with
      offset := byte &&& 0xf8
      awaited := if c.single then c.behindCascade else .cascade }
  | .cascade => { c with cascade := byte, awaited := c.behindCascade }
  | .mode => { c with mode := byte, awaited := .mask }

structure Chips where
  master : Chip
  slave : Chip

def Chips.outportb (c : Chips) (port : BitVec 16) (byte : BitVec 8) : Chips :=
  if port = 0x20 then { c with master := c.master.writeCommand byte }
  else if port = 0x21 then { c with master := c.master.writeData byte }
  else if port = 0xa0 then { c with slave := c.slave.writeCommand byte }
  else if port = 0xa1 then { c with slave := c.slave.writeData byte }
  else c

/-- The controllers as they are once they are initialized. -/
def Chips.machine (c : Chips) (spurious : U32) : Machine :=
  ⟨c.master.controller, c.slave.controller, spurious⟩

/-- A controller takes masks, in the mode of this processor, in which no interrupt ends by itself.
Its line `k` has vector `offset + k`. -/
structure Chip.Operating (offset cascade : BitVec 8) (c : Chip) : Prop where
  awaited : c.awaited = .mask
  mode : c.mode = 0x01
  offset : c.offset = offset
  cascade : c.cascade = cascade

/-- The slave hangs on line 2 of the master. -/
structure Operating (first second : BitVec 8) (c : Chips) : Prop where
  master : c.master.Operating first 0x04
  slave : c.slave.Operating second 0x02

/-- The words for both controllers, with the masks at the end. -/
def picWords (pic1Off pic2Off maskOne maskTwo : BitVec 8) : List (BitVec 16 × BitVec 8) :=
  [(0x20, 0x10 ||| 0x01), (0xa0, 0x10 ||| 0x01), (0x21, pic1Off), (0xa1, pic2Off),
    (0x21, 0x04), (0xa1, 0x02), (0x21, 0x01), (0xa1, 0x01), (0x21, maskOne), (0xa1, maskTwo)]

def i386PicInitialize (p : Placed) (c : Cpu) (pics : Chips) (pic1Off pic2Off : BitVec 8) :
    Option (Int × Cpu × Chips) := do
  let maskOne := inportb (pics.machine 0) 0x21
  let maskTwo := inportb (pics.machine 0) 0xa1
  let pics := (picWords pic1Off pic2Off maskOne maskTwo).foldl (fun c w => c.outportb w.1 w.2) pics
  let c ← setVectors [(0x27, p.handler .irq7), (0x2f, p.handler .irq15)] c
  return (0, c, pics)

/-- The port and the bit of a line. -/
def maskPort (irq : BitVec 8) : BitVec 16 × BitVec 8 :=
  if irq.toNat < 8 then (0x21, irq) else (0xa1, irq - 8)

/-- `none` is a shift by the width of an `int` or more. -/
def i386PicMaskIrq (m : Machine) (irq : BitVec 8) : Option Machine :=
  let (port, irq) := maskPort irq
  if irq.toNat < 32 then
    let irqMask := ((inportb m port).setWidth 32 ||| (1#32 <<< irq.toNat)).setWidth 8
    some (outportb m port irqMask)
  else none

def i386PicUnmaskIrq (m : Machine) (irq : BitVec 8) : Option Machine :=
  let (port, irq) := maskPort irq
  if irq.toNat < 32 then
    let irqMask := ((inportb m port).setWidth 32 &&& ~~~(1#32 <<< irq.toNat)).setWidth 8
    some (outportb m port irqMask)
  else none

def i386PicEnable (m : Machine) : Machine := outportb (outportb m 0x21 0x00) 0xa1 0x00

def i386PicDisable (m : Machine) : Machine := outportb (outportb m 0x21 0xff) 0xa1 0xff

def cpuEnableIrq (m : Machine) (irq : Int) : Option Machine :=
  i386PicUnmaskIrq m (BitVec.ofInt 8 irq)

def cpuDisableIrq (m : Machine) (irq : Int) : Option Machine :=
  i386PicMaskIrq m (BitVec.ofInt 8 irq)

def i386PicSpuriousCount (m : Machine) : U32 := m.spurious

/-- No line is requested or in service, and the same lines are masked. -/
def Controller.cleared (c : Controller) : Controller :=
  { c with irr := 0, isr := 0, selected := .irr }

/-- The words bring both controllers into operation, whatever they were waiting for before. -/
theorem picWords_operating (pics : Chips) (pic1Off pic2Off : BitVec 8) :
    let words := picWords pic1Off pic2Off pics.master.controller.imr pics.slave.controller.imr
    let done := words.foldl (fun c w => c.outportb w.1 w.2) pics
    Operating (pic1Off &&& 0xf8) (pic2Off &&& 0xf8) done ∧
      done.master.controller = Controller.cleared pics.master.controller ∧
      done.slave.controller = Controller.cleared pics.slave.controller :=
  ⟨⟨⟨rfl, rfl, rfl, rfl⟩, rfl, rfl, rfl, rfl⟩, rfl, rfl⟩

section Operation

variable {offset cascade first second : BitVec 8}

theorem Chip.Operating.writeCommand {c : Chip} (h : c.Operating offset cascade) {byte : BitVec 8}
    (plain : byte &&& 0x10 = 0) : (c.writeCommand byte).Operating offset cascade ∧
      (c.writeCommand byte).controller = c.controller.writeCommand byte := by
  rw [Chip.writeCommand, if_pos plain]
  exact ⟨⟨h.awaited, h.mode, h.offset, h.cascade⟩, rfl⟩

theorem Chip.Operating.writeData {c : Chip} (h : c.Operating offset cascade) (byte : BitVec 8) :
    (c.writeData byte).Operating offset cascade ∧
      (c.writeData byte).controller = c.controller.writeData byte := by
  obtain ⟨controller, _, _, _, _, _, _⟩ := c
  obtain ⟨rfl, rfl, rfl, rfl⟩ := h
  exact ⟨⟨rfl, rfl, rfl, rfl⟩, rfl⟩

/-- A write that is no first word. -/
def Plain (w : BitVec 16 × BitVec 8) : Prop := w.1 = 0x20 ∨ w.1 = 0xa0 → w.2 &&& 0x10 = 0

/-- Operating controllers do with a write what the machine does. -/
theorem Operating.outportb {c : Chips} (h : Operating first second c)
    {w : BitVec 16 × BitVec 8} (plain : Plain w) (spurious : U32) :
    Operating first second (c.outportb w.1 w.2) ∧
      (c.outportb w.1 w.2).machine spurious =
        InterruptControllers.outportb (c.machine spurious) w.1 w.2 := by
  obtain ⟨port, byte⟩ := w
  dsimp only [Chips.outportb, InterruptControllers.outportb, Chips.machine]
  by_cases one : port = 0x20
  · obtain ⟨operating, same⟩ := h.master.writeCommand (plain (Or.inl one))
    rw [if_pos one, if_pos one, ← same]
    exact ⟨⟨operating, h.slave⟩, rfl⟩
  rw [if_neg one, if_neg one]
  by_cases two : port = 0x21
  · obtain ⟨operating, same⟩ := h.master.writeData byte
    rw [if_pos two, if_pos two, ← same]
    exact ⟨⟨operating, h.slave⟩, rfl⟩
  rw [if_neg two, if_neg two]
  by_cases three : port = 0xa0
  · obtain ⟨operating, same⟩ := h.slave.writeCommand (plain (Or.inr three))
    rw [if_pos three, if_pos three, ← same]
    exact ⟨⟨h.master, operating⟩, rfl⟩
  rw [if_neg three, if_neg three]
  by_cases four : port = 0xa1
  · obtain ⟨operating, same⟩ := h.slave.writeData byte
    rw [if_pos four, if_pos four, ← same]
    exact ⟨⟨h.master, operating⟩, rfl⟩
  · rw [if_neg four, if_neg four]
    exact ⟨h, rfl⟩

/-- Once they operate, controllers and machine agree over every sequence of such writes. -/
theorem Operating.writes {c : Chips} (h : Operating first second c)
    {ws : List (BitVec 16 × BitVec 8)} (plain : ∀ w ∈ ws, Plain w) (spurious : U32) :
    Operating first second (ws.foldl (fun c w => c.outportb w.1 w.2) c) ∧
      (ws.foldl (fun c w => c.outportb w.1 w.2) c).machine spurious =
        ws.foldl (fun m w => InterruptControllers.outportb m w.1 w.2) (c.machine spurious) := by
  induction ws generalizing c with
  | nil => exact ⟨h, rfl⟩
  | cons w ws ih =>
    obtain ⟨operating, same⟩ := h.outportb (plain w List.mem_cons_self) spurious
    obtain ⟨rest, machine⟩ := ih operating fun v hv => plain v (List.mem_cons_of_mem _ hv)
    rw [List.foldl_cons, List.foldl_cons, ← same]
    exact ⟨rest, machine⟩

/-- From the first word on. What the controllers were waiting for before is of no account. -/
theorem initialized_controllers_operate (pics : Chips) (pic1Off pic2Off : BitVec 8)
    {ws : List (BitVec 16 × BitVec 8)} (plain : ∀ w ∈ ws, Plain w) (spurious : U32) :
    let words := picWords pic1Off pic2Off pics.master.controller.imr pics.slave.controller.imr
    let done := (words ++ ws).foldl (fun c w => c.outportb w.1 w.2) pics
    Operating (pic1Off &&& 0xf8) (pic2Off &&& 0xf8) done ∧
      done.machine spurious = ws.foldl (fun m w => InterruptControllers.outportb m w.1 w.2)
        ⟨Controller.cleared pics.master.controller, Controller.cleared pics.slave.controller,
          spurious⟩ := by
  obtain ⟨operating, master, slave⟩ := picWords_operating pics pic1Off pic2Off
  obtain ⟨stays, machine⟩ := operating.writes plain spurious
  dsimp only
  rw [List.foldl_append, ← master, ← slave]
  exact ⟨stays, machine⟩

/-- The master waits for its third word and the slave for its fourth, and all lines are masked. -/
def halfway : Chips :=
  ⟨⟨⟨0, 0, 0xff, .irr, 0⟩, 0x08, 0, 0, .cascade, false, true⟩,
    ⟨⟨0, 0, 0xff, .irr, 0⟩, 0x70, 0x02, 0, .mode, false, true⟩⟩

theorem halfway_and_enabled :
    let enable : List (BitVec 16 × BitVec 8) := [(0x21, 0x00), (0xa1, 0x00)]
    let done := (picWords 0x20 0x28 0xff 0xff ++ enable).foldl (fun c w => c.outportb w.1 w.2)
      halfway
    (∀ w ∈ enable, Plain w) ∧ Operating 0x20 0x28 done ∧ done.machine 0 =
      i386PicEnable ⟨⟨0, 0, 0xff, .irr, 0⟩, ⟨0, 0, 0xff, .irr, 0⟩, 0⟩ :=
  have plain : ∀ w ∈ [((0x21 : BitVec 16), (0x00 : BitVec 8)), (0xa1, 0x00)], Plain w := by
    simp [Plain]
  ⟨plain, initialized_controllers_operate halfway 0x20 0x28 plain 0⟩

end Operation

/-- The two masks, one behind the other. -/
def masks (m : Machine) (i : Nat) : BitVec 8 :=
  if i = 0 then m.master.imr else if i = 1 then m.slave.imr else 0

/-- The lines that are turned off. -/
def disabled (m : Machine) : Finset Nat := members (masks m) 16

def withMasks (m : Machine) (words : Nat → BitVec 8) : Machine :=
  { m with
    master := m.master.writeData (words 0)
    slave := m.slave.writeData (words 1) }

@[simp] theorem withMasks_masks (m : Machine) : withMasks m (masks m) = m := rfl

theorem masks_withMasks {m : Machine} {words : Nat → BitVec 8} (h : ∀ i, 2 ≤ i → words i = 0) :
    masks (withMasks m words) = words := by
  funext i
  match i with
  | 0 => rfl
  | 1 => rfl
  | i + 2 => exact (h (i + 2) (by omega)).symm

theorem masks_beyond {m : Machine} {i : Nat} (h : 2 ≤ i) : masks m i = 0 := by
  rw [masks, if_neg (by omega), if_neg (by omega)]

theorem narrow_or (x : BitVec 8) (k : Nat) :
    (x.setWidth 32 ||| (1#32 <<< k)).setWidth 8 = x ||| (1#8 <<< k) := by
  apply BitVec.eq_of_getLsbD_eq
  intro i hi
  simp [hi]

theorem narrow_and_not (x : BitVec 8) (k : Nat) :
    (x.setWidth 32 &&& ~~~(1#32 <<< k)).setWidth 8 = x &&& ~~~(1#8 <<< k) := by
  apply BitVec.eq_of_getLsbD_eq
  intro i hi
  simp [hi]

/-- What both functions do: one mask is read, changed at one bit and written. -/
def changed (change : (Nat → BitVec 8) → Nat → Nat → BitVec 8) (m : Machine) (irq : BitVec 8) :
    Option Machine :=
  if irq.toNat < 16 then some (withMasks m (change (masks m) irq.toNat))
  else if irq.toNat < 40 then some m else none

theorem maskPort_snd {irq : BitVec 8} (high : ¬ irq.toNat < 8) :
    (irq - 8).toNat = irq.toNat - 8 := by
  bv_omega

/-- A change of the one word that a line below 16 has its bit in, where the bits from 8 on change
nothing. -/
theorem changed_eq {change : (Nat → BitVec 8) → Nat → Nat → BitVec 8}
    {word : BitVec 8 → Nat → BitVec 8} (one : ∀ words c, change words c =
      Function.update words (c / 8) (word (words (c / 8)) (c % 8)))
    (beyond : ∀ x k, 8 ≤ k → word x k = x) (m : Machine) (irq : BitVec 8) :
    (let port := maskPort irq
      if port.2.toNat < 32 then some (outportb m port.1 (word (inportb m port.1) port.2.toNat))
      else none) = changed change m irq := by
  unfold maskPort changed
  by_cases low : irq.toNat < 8
  · have first : irq.toNat / 8 = 0 ∧ irq.toNat % 8 = irq.toNat := by omega
    rw [if_pos low, if_pos (show irq.toNat < 16 by omega)]
    dsimp only
    rw [if_pos (by omega), one, first.1, first.2]
    rfl
  rw [if_neg low]
  dsimp only
  rw [maskPort_snd low]
  by_cases below : irq.toNat < 16
  · have second : irq.toNat / 8 = 1 ∧ irq.toNat % 8 = irq.toNat - 8 := by omega
    rw [if_pos (by omega), if_pos below, one, second.1, second.2]
    rfl
  · rw [if_neg below, beyond _ _ (by omega)]
    by_cases shift : irq.toNat < 40
    · rw [if_pos (by omega), if_pos shift]
      rfl
    · rw [if_neg (by omega), if_neg shift]

theorem shift_beyond {k : Nat} (h : 8 ≤ k) : (1#8 <<< k) = 0#8 :=
  BitVec.shiftLeft_eq_zero h

theorem i386PicMaskIrq_eq (m : Machine) (irq : BitVec 8) :
    i386PicMaskIrq m irq = changed setBit m irq := by
  rw [← @changed_eq setBit (fun x k => x ||| (1#8 <<< k)) (fun words c => rfl) fun x k h => by
    rw [shift_beyond h, BitVec.or_zero]]
  simp only [i386PicMaskIrq, narrow_or]

theorem i386PicUnmaskIrq_eq (m : Machine) (irq : BitVec 8) :
    i386PicUnmaskIrq m irq = changed clearBit m irq := by
  rw [← @changed_eq clearBit (fun x k => x &&& ~~~(1#8 <<< k)) (fun words c => rfl) fun x k h => by
    rw [shift_beyond h, BitVec.not_zero, BitVec.and_allOnes]]
  simp only [i386PicUnmaskIrq, narrow_and_not]

inductive MaskCall where
  | cpuEnableIrq (irq : Int)
  | cpuDisableIrq (irq : Int)
  | i386PicEnable
  | i386PicDisable

def MaskCall.perform (m : Machine) : MaskCall → Option Machine
  | .cpuEnableIrq irq => ControllerSetup.cpuEnableIrq m irq
  | .cpuDisableIrq irq => ControllerSetup.cpuDisableIrq m irq
  | .i386PicEnable => some (ControllerSetup.i386PicEnable m)
  | .i386PicDisable => some (ControllerSetup.i386PicDisable m)

/-- The line that an argument names, which may be none of the sixteen. -/
def lineOf (irq : Int) : Nat := (irq % 256).toNat

/-- What a call means for the lines that are turned off. -/
def MaskCall.turns (lines : Finset Nat) : MaskCall → Finset Nat
  | .cpuEnableIrq irq => lines.erase (lineOf irq)
  | .cpuDisableIrq irq => if lineOf irq < 16 then insert (lineOf irq) lines else lines
  | .i386PicEnable => ∅
  | .i386PicDisable => Finset.range 16

/-- The shift that is made has a meaning. -/
def MaskCall.Defined : MaskCall → Prop
  | .cpuEnableIrq irq => lineOf irq < 40
  | .cpuDisableIrq irq => lineOf irq < 40
  | .i386PicEnable => True
  | .i386PicDisable => True

/-- Nothing but the masks is changed. -/
def OnlyMasks (m m' : Machine) : Prop := ∃ words, m' = withMasks m words

theorem ofInt_line (irq : Int) : (BitVec.ofInt 8 irq).toNat = lineOf irq := by
  have low := GuardedTables.byte_toNat irq
  rw [lineOf]
  omega

theorem disabled_withMasks {m : Machine} {words : Nat → BitVec 8} (h : ∀ i, 2 ≤ i → words i = 0) :
    disabled (withMasks m words) = members words 16 := by
  rw [disabled, masks_withMasks h]

theorem update_beyond {m : Machine} {c : Nat} (hc : c < 16) (x : BitVec 8) {i : Nat} (hi : 2 ≤ i) :
    Function.update (masks m) (c / 8) x i = 0 := by
  rw [Function.update_of_ne (by omega), masks_beyond hi]

theorem disabled_set {m : Machine} {c : Nat} (hc : c < 16) :
    disabled (withMasks m (setBit (masks m) c)) = insert c (disabled m) := by
  have beyond (i : Nat) (hi : 2 ≤ i) : setBit (masks m) c i = 0 := update_beyond hc _ hi
  rw [disabled_withMasks beyond]
  exact members_setBit (by decide) (masks m) hc

theorem disabled_clear {m : Machine} {c : Nat} (hc : c < 16) :
    disabled (withMasks m (clearBit (masks m) c)) = (disabled m).erase c := by
  have beyond (i : Nat) (hi : 2 ≤ i) : clearBit (masks m) c i = 0 := update_beyond hc _ hi
  rw [disabled_withMasks beyond]
  exact members_clearBit (by decide) (masks m) 16 c

/-- Both masks are written at once. -/
theorem disabled_both (m : Machine) :
    disabled (i386PicEnable m) = ∅ ∧ disabled (i386PicDisable m) = Finset.range 16 := by
  constructor
  · refine Finset.filter_eq_empty_iff.mpr fun c hc => ?_
    have word : masks (i386PicEnable m) (c / 8) = 0 := by
      unfold masks
      split
      · rfl
      · split <;> rfl
    rw [testBit, word]
    exact Bool.eq_false_iff.mp BitVec.getLsbD_zero
  · refine Finset.filter_true_of_mem fun c hc => ?_
    have line := Finset.mem_range.mp hc
    have word : masks (i386PicDisable m) (c / 8) = BitVec.allOnes 8 := by
      have two : c / 8 = 0 ∨ c / 8 = 1 := by omega
      rcases two with first | second
      · rw [first]
        rfl
      · rw [second]
        rfl
    rw [testBit, word, BitVec.getLsbD_allOnes, decide_eq_true_iff]
    omega

/-- One call. -/
theorem MaskCall.performs (call : MaskCall) (m : Machine) :
    (call.Defined ∧ ∃ m', call.perform m = some m' ∧ disabled m' = call.turns (disabled m) ∧
      OnlyMasks m m') ∨ (¬ call.Defined ∧ call.perform m = none) := by
  have none_beyond {irq : Int} (far : ¬ lineOf irq < 40) (change) :
      changed change m (BitVec.ofInt 8 irq) = none := by
    rw [changed, ofInt_line, if_neg (by omega), if_neg far]
  have same_between {irq : Int} (near : lineOf irq < 40) (none : ¬ lineOf irq < 16) (change) :
      changed change m (BitVec.ofInt 8 irq) = some m := by
    rw [changed, ofInt_line, if_neg none, if_pos near]
  have within {irq : Int} (line : lineOf irq < 16) (change) :
      changed change m (BitVec.ofInt 8 irq) =
        some (withMasks m (change (masks m) (lineOf irq))) := by
    rw [changed, ofInt_line, if_pos line]
  have kept : OnlyMasks m m := ⟨masks m, rfl⟩
  cases call with
  | cpuEnableIrq irq =>
    rw [MaskCall.perform, ControllerSetup.cpuEnableIrq, i386PicUnmaskIrq_eq]
    by_cases near : lineOf irq < 40
    · refine Or.inl ⟨near, ?_⟩
      by_cases line : lineOf irq < 16
      · exact ⟨_, within line _, disabled_clear line, _, rfl⟩
      · refine ⟨m, same_between near line _, (Finset.erase_eq_of_notMem fun h => ?_).symm, kept⟩
        exact line (mem_members.mp h).1
    · exact Or.inr ⟨near, none_beyond near _⟩
  | cpuDisableIrq irq =>
    rw [MaskCall.perform, ControllerSetup.cpuDisableIrq, i386PicMaskIrq_eq]
    by_cases near : lineOf irq < 40
    · refine Or.inl ⟨near, ?_⟩
      by_cases line : lineOf irq < 16
      · exact ⟨_, within line _, (disabled_set line).trans (if_pos line).symm, _, rfl⟩
      · exact ⟨m, same_between near line _, (if_neg line).symm, kept⟩
    · exact Or.inr ⟨near, none_beyond near _⟩
  | i386PicEnable =>
    exact Or.inl ⟨trivial, _, rfl, (disabled_both m).1, fun _ => 0, rfl⟩
  | i386PicDisable =>
    exact Or.inl ⟨trivial, _, rfl, (disabled_both m).2, fun _ => 0xff, rfl⟩

theorem OnlyMasks.trans {m m' m'' : Machine} (h : OnlyMasks m m') (h' : OnlyMasks m' m'') :
    OnlyMasks m m'' := by
  obtain ⟨words, rfl⟩ := h
  obtain ⟨words', rfl⟩ := h'
  exact ⟨words', rfl⟩

/-- A sequence of calls has a meaning if and only if each of its shifts has one. Then the lines
that are turned off are the ones that the calls say, and nothing else is changed. -/
theorem mask_calls_refine (m : Machine) (calls : List MaskCall) :
    ((∃ m', calls.foldlM MaskCall.perform m = some m') ↔ ∀ call ∈ calls, call.Defined) ∧
      ∀ m', calls.foldlM MaskCall.perform m = some m' →
        disabled m' = calls.foldl MaskCall.turns (disabled m) ∧ OnlyMasks m m' := by
  induction calls generalizing m with
  | nil =>
    refine ⟨iff_of_true ⟨m, rfl⟩ fun call h => absurd h List.not_mem_nil, fun m' performed => ?_⟩
    obtain rfl := Option.some.inj performed
    exact ⟨rfl, masks m, rfl⟩
  | cons call calls ih =>
    rw [List.foldlM_cons, List.foldl_cons, List.forall_mem_cons]
    rcases call.performs m with ⟨defined, next, performed, lines, only⟩ | ⟨undefined, failed⟩
    · obtain ⟨defined_iff, rest⟩ := ih next
      rw [performed, Option.bind_eq_bind, Option.bind_some, ← lines]
      refine ⟨defined_iff.trans (and_iff_right defined).symm, fun m' done => ?_⟩
      obtain ⟨turned, only'⟩ := rest m' done
      exact ⟨turned, only.trans only'⟩
    · rw [failed, Option.bind_eq_bind, Option.bind_none]
      refine ⟨iff_of_false ?_ fun all => undefined all.1, fun m' done => nomatch done⟩
      rintro ⟨m', done⟩
      cases done

end ControllerSetup
