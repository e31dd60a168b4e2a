import MissyMicro.Words

/-!
# The divisor of the interval timer

The divisor is written in two bytes, the low one first. The byte that is written as the low one
is the upper half, cut down to a byte, and so always 0.
-/

namespace IntervalTimer

def pitClockFreq : Nat := 1193182

structure PortWrite where
  port : BitVec 16
  byte : BitVec 8
  deriving DecidableEq

/-- `none` is a division by zero. -/
def i386PitStart (freq : U32) : Option (List PortWrite) :=
  if freq = 0 then none
  else
    let reloadValue : BitVec 16 := (BitVec.ofNat 32 pitClockFreq / freq).setWidth 16
    some [⟨0x43, 0x00 ||| 0x30 ||| 0x06 ||| 0⟩,
      ⟨0x40, (reloadValue &&& 0xff00).setWidth 8⟩,
      ⟨0x40, (reloadValue >>> 8).setWidth 8⟩]

/-- Without the vector that it sets. -/
def i386PitInitialize : Option (List PortWrite) :=
  i386PitStart 100

/-- A channel that takes both bytes of its divisor, the low one first. -/
structure Channel where
  both : Bool
  low : Option (BitVec 8)
  divisor : Option Nat

/-- Bits 6 and 7 of a command select the channel, bits 4 and 5 the bytes that follow. -/
def Channel.outportb (c : Channel) (w : PortWrite) : Channel :=
  if w.port = 0x43 then
    if w.byte &&& 0xc0 = 0 then ⟨decide (w.byte &&& 0x30 = 0x30), none, none⟩ else c
  else if w.port = 0x40 ∧ c.both = true then
    c.low.elim { c with low := some w.byte }
      fun low => { c with low := none, divisor := some (low.toNat + 256 * w.byte.toNat) }
  else c

/-- The divisor that a channel has after the writes, whatever it had before. -/
def Receives (writes : List PortWrite) (divisor : Nat) : Prop :=
  ∀ c : Channel, (writes.foldl Channel.outportb c).divisor = some divisor

/-- A command for both bytes of channel 0 and the two bytes. -/
theorem receives_iff {lo hi : BitVec 8} {divisor : Nat} :
    Receives [⟨0x43, 0x36⟩, ⟨0x40, lo⟩, ⟨0x40, hi⟩] divisor ↔
      lo.toNat + 256 * hi.toNat = divisor := by
  constructor
  · intro received
    exact Option.some.inj (received ⟨false, none, none⟩)
  · intro same c
    rw [← same]
    rfl

/-- The byte that stands for the low one. -/
theorem setWidth_and_high (r : BitVec 16) : (r &&& 0xff00).setWidth 8 = 0#8 := by
  apply BitVec.eq_of_getLsbD_eq
  intro i hi
  have mask : ∀ i < 8, (0xff00#16).getLsbD i = false := by decide
  rw [BitVec.getLsbD_setWidth, BitVec.getLsbD_and, BitVec.ofNat_eq_ofNat, mask i hi, Bool.and_false,
    Bool.and_false, BitVec.getLsbD_zero]

theorem setWidth_high_toNat (r : BitVec 16) : ((r >>> 8).setWidth 8).toNat = r.toNat / 256 := by
  have small := r.isLt
  rw [BitVec.toNat_setWidth, BitVec.toNat_ushiftRight, Nat.shiftRight_eq_div_pow]
  exact Nat.mod_eq_of_lt (by omega)

theorem i386PitStart_of_ne_zero {freq : U32} (hfreq : freq ≠ 0) :
    ∃ writes, i386PitStart freq = some writes ∧ ∀ divisor,
      Receives writes divisor ↔ 256 * (pitClockFreq / freq.toNat % 65536 / 256) = divisor := by
  refine ⟨_, if_neg hfreq, fun divisor => ?_⟩
  rw [setWidth_and_high]
  refine receives_iff.trans ?_
  have quotient : (BitVec.ofNat 32 pitClockFreq / freq).toNat = pitClockFreq / freq.toNat :=
    BitVec.toNat_udiv
  rw [setWidth_high_toNat, BitVec.toNat_setWidth, quotient, BitVec.toNat_ofNat]
  omega

/-- No division by zero, and the divisor is the quotient as far as 16 bits hold it. -/
def Encodes (freq : U32) : Prop :=
  ∃ writes, i386PitStart freq = some writes ∧
    (freq ≠ 0 → Receives writes (min (pitClockFreq / freq.toNat) 65535))

theorem timer_divisor_encoded_iff (freq : U32) :
    Encodes freq ↔ freq ≠ 0 ∧ pitClockFreq / freq.toNat ≤ 65535 ∧
      pitClockFreq / freq.toNat % 256 = 0 := by
  by_cases zero : freq = 0
  · refine iff_of_false ?_ fun meets => meets.1 zero
    rintro ⟨writes, started, _⟩
    rw [i386PitStart, if_pos zero] at started
    cases started
  · obtain ⟨writes, started, received⟩ := i386PitStart_of_ne_zero zero
    constructor
    · rintro ⟨writes', started', encoded⟩
      obtain rfl := Option.some.inj (started.symm.trans started')
      have divisor := (received _).mp (encoded zero)
      generalize pitClockFreq / freq.toNat = quotient at divisor ⊢
      exact ⟨zero, by omega, by omega⟩
    · rintro ⟨_, fits, whole⟩
      refine ⟨writes, started, fun _ => (received _).mpr ?_⟩
      generalize pitClockFreq / freq.toNat = quotient at fits whole ⊢
      omega

/-- At the boot value the timer gets 11776, and the quotient is 11931. -/
theorem timer_divisor_of_boot :
    i386PitInitialize = i386PitStart 100 ∧ pitClockFreq / 100 = 11931 ∧
      (∀ writes, i386PitStart 100 = some writes → Receives writes 11776) ∧ ¬ Encodes 100 := by
  obtain ⟨writes, started, received⟩ := @i386PitStart_of_ne_zero 100 (by decide)
  refine ⟨rfl, by decide, ?_, ?_⟩
  · intro writes' started'
    obtain rfl := Option.some.inj (started.symm.trans started')
    exact (received _).mpr (by decide)
  · rintro ⟨writes', started', encoded⟩
    obtain rfl := Option.some.inj (started.symm.trans started')
    have divisor := (received _).mp (encoded (by decide))
    revert divisor
    decide

end IntervalTimer
