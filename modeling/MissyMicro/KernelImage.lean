import MissyMicro.DescriptorTables
import MissyMicro.KernelWorld

/-!
# A linked kernel

The texts stand in slots of the same size, one behind the other, and so do the words of the data
sections and the routines. This is one way to link the kernel, and what was said of every linked
kernel holds of it.
-/

namespace KernelImage

open LibcString Terminal KernelWorld DescriptorTables
open ServiceRoutines hiding code
open Printf (loadByte)

universe u

/-- Where `x` is when the members of a list stand in slots from `base` on. -/
def slotOf {α : Type u} [DecidableEq α] (base size : Nat) (xs : List α) (x : α) : U32 :=
  BitVec.ofNat 32 (base + size * xs.idxOf x)

theorem slotOf_injective {α : Type u} [DecidableEq α] {base size : Nat} {xs : List α}
    (all : ∀ x, x ∈ xs) (positive : 0 < size) (fits : base + size * xs.length ≤ 2 ^ 32) :
    Function.Injective (slotOf base size xs) := by
  intro x y same
  have inside (z : α) : base + size * xs.idxOf z < 2 ^ 32 := by
    have below : size * xs.idxOf z < size * xs.length :=
      Nat.mul_lt_mul_of_pos_left (List.idxOf_lt_length_of_mem (all z)) positive
    omega
  have numbers := congrArg BitVec.toNat same
  rw [slotOf, slotOf, BitVec.toNat_ofNat, BitVec.toNat_ofNat, Nat.mod_eq_of_lt (inside x),
    Nat.mod_eq_of_lt (inside y)] at numbers
  have slots : xs.idxOf x = xs.idxOf y := Nat.eq_of_mul_eq_mul_left positive (by omega)
  exact (List.idxOf_inj (all x)).mp slots

def texts : List Text :=
  [.systemException, .systemMustHalt1, .systemMustHalt2, .divisionByZero, .debugTrap, .breakpoint,
    .overflow, .boundaryError, .badOpcode, .deviceError, .doubleFault, .invalidTss,
    .segmentNotPresent, .stackSegmentFault, .fpuException, .alignmentCheck, .machineCheck,
    .simdException, .virtualizationException, .securityException, .interruptDefault, .nonMaskable,
    .watchdogTimer, .channelError, .parityError, .unknownError, .generalProtectionFault, .gpfOther,
    .gpfGdtError, .gpfIdtError, .gpfLdtError, .gpfErrorCodeStr, .pageFault, .pageNotPresentError,
    .pageProtectionError, .pageFaultOnRead, .pageFaultOnWrite, .pageFaultInUserMode,
    .pageFaultInKernelMode, .pageFaultOnReserved, .pageFaultInstruction, .pageFaultAddr,
    .pageFaultPage]

def handlers : List Handler :=
  [.divbyzero, .debugtrap, .nmi, .breakpoint, .overflow, .bounderror, .badopcode, .deviceerror,
    .doublefault, .invalidtss, .segnotpresent, .stacksegfault, .genprotectfault, .pagefault,
    .fpuexception, .aligncheck, .machinecheck, .simdexception, .virtualizeexception,
    .securityexception, .defaulthandler, .irq7, .irq15, .pitIrq, .keyb]

def data : List Datum :=
  .gpfCode :: .pfErrorCode :: .spurious :: .pitTickCount :: handlers.map .exceptionNumber

theorem mem_texts (t : Text) : t ∈ texts := by
  cases t <;> decide

theorem mem_handlers (h : Handler) : h ∈ handlers := by
  cases h <;> decide

theorem mem_data (d : Datum) : d ∈ data := by
  cases d with
  | exceptionNumber h =>
    exact List.mem_append_right [_, _, _, _] (List.mem_map_of_mem (mem_handlers h))
  | _ => simp [data]

def symbol : Symbol → U32
  | .text t => slotOf 0x100000 128 texts t
  | .data d => slotOf 0x200000 4 data d
  | .syscallTable => 0x210000
  | .behindCall => 0x220000

/-- The bytes of the texts, each filled up with zeros. -/
def rodata (a : U32) : BitVec 8 :=
  (texts[(a.toNat - 0x100000) / 128]?.elim [] bytes).getD (a.toNat % 128) 0

theorem rodata_slot (t : Text) {k : Nat} (hk : k < 128) :
    rodata (symbol (.text t) + BitVec.ofNat 32 k) = (bytes t).getD k 0 := by
  have slot : texts.idxOf t < 43 := List.idxOf_lt_length_of_mem (mem_texts t)
  have address : (symbol (.text t) + BitVec.ofNat 32 k).toNat =
      0x100000 + 128 * texts.idxOf t + k := by
    rw [symbol, slotOf, ← BitVec.ofNat_add, BitVec.toNat_ofNat]
    omega
  have index : (0x100000 + 128 * texts.idxOf t + k - 0x100000) / 128 = texts.idxOf t := by omega
  have offset : (0x100000 + 128 * texts.idxOf t + k) % 128 = k := by omega
  rw [rodata, address, index, offset, List.getElem?_idxOf (mem_texts t)]
  rfl

/-- A text that is shorter than its slot stands there. -/
theorem rodata_text {t : Text} (short : (bytes t).length < 128) (chars : ∀ c ∈ bytes t, c ≠ 0) :
    TextAt loadByte rodata (symbol (.text t)) (bytes t) := by
  refine textAt_of_load (fun k hk => ?_) chars ?_
  · rw [loadByte, rodata_slot t (Nat.lt_trans hk short), List.getD_eq_getElem?_getD,
      List.getElem?_eq_getElem hk, Option.getD_some]
  · rw [loadByte, rodata_slot t short, List.getD_eq_getElem?_getD,
      List.getElem?_eq_none (Nat.le_refl _), Option.getD_none]

theorem texts_short (t : Text) : (bytes t).length < 128 ∧ ∀ c ∈ bytes t, c ≠ 0 := by
  have fit : texts.all fun t => decide ((bytes t).length < 128) && (bytes t).all fun c => c != 0 := by
    decide +kernel
  simpa using List.all_eq_true.mp fit t (mem_texts t)

/-- Functions that are called leave the registers at 0, and a scancode beyond `keymap` does
nothing. -/
def image : Linked where
  symbol := symbol
  rodata := rodata
  texts t := rodata_text (texts_short t).1 (texts_short t).2
  data_injective d d' same := slotOf_injective mem_data (by decide) (by decide) same
  installed _ w _ := w
  beyond k _ := k
  leaves _ _ _ := (0, 0, 0, false)

def place : Placed where
  gdt := 0x230000
  idt := 0x231000
  handler := slotOf 0x240000 0x100 handlers
  handler_injective := slotOf_injective mem_handlers (by decide) (by decide)

/-- The processor before anything is set up. -/
def blank : Cpu :=
  ⟨fun _ => 0, ⟨0, 0⟩, 0, 0, fun _ => ⟨0, 0, 0, 0, 0⟩, ⟨0, 0⟩, false⟩

/-- No key is down, no line is masked, requested or in service, and nothing is on the screen. -/
def idle : World :=
  ⟨fun _ => 0, ⟨0, 0, 0, fun _ => 0, 0, []⟩, Ps2Keyboard.poweredOn fun _ => 0, ⟨0, 0, 0, .irr, 0⟩,
    ⟨0, 0, 0, .irr, 0⟩, fun _ => 0⟩

end KernelImage
