import MissyMicro.KeyboardBounds

/-!
# Two shift keys and one flag

Both shift keys set `_shift` when they are pressed and clear it when they are released. The flag
follows them as long as neither is released under the other.
-/

namespace ShiftState

open Ps2Keyboard KeyboardBounds

/-- The number of the key. -/
def keyOf (b : BitVec 8) : BitVec 8 := b &&& 0x7f

def released (b : BitVec 8) : Bool := b &&& 0x80 ≠ 0

/-- The keys that are held after a scancode. -/
def after (held : BitVec 8 → Bool) (b : BitVec 8) : BitVec 8 → Bool :=
  Function.update held (keyOf b) (!released b)

/-- The left or the right shift key. -/
def shiftHeld (held : BitVec 8 → Bool) : Bool := held 0x2a || held 0x36

/-- Each key is pressed when it is not held, and released when it is. -/
def Alternates (held : BitVec 8 → Bool) : List (BitVec 8) → Prop
  | [] => True
  | b :: events => held (keyOf b) = released b ∧ Alternates (after held b) events

/-- The flag tells whether a shift key is held, and a key was queued accordingly. -/
structure Tracks (held : BitVec 8 → Bool) (b : BitVec 8) (s t : Keyboard) : Prop where
  shift : t.shift = shiftHeld held
  key : t.queueTail ≠ s.queueTail → ∃ e, lookup (pushed b) = some e ∧
    t.keyQueue s.queueTail = e.translate (shiftHeld held)

/-- Every scancode has its entry, and leaves the flag right. -/
def TracksAll (held : BitVec 8 → Bool) (s : Keyboard) : List (BitVec 8) → Prop
  | [] => True
  | b :: events => ∃ t, s.ps2KeyboardEnqueue (pushed b) = some t ∧
    Tracks (after held b) b s t ∧ TracksAll (after held b) t events

/-- No shift key is released under the other. -/
def Separate (held : BitVec 8 → Bool) : List (BitVec 8) → Prop
  | [] => True
  | b :: events => b.toNat % 128 < keymap.length ∧
    (released b → keyOf b = 0x2a → held 0x36 = false) ∧
    (released b → keyOf b = 0x36 → held 0x2a = false) ∧ Separate (after held b) events

theorem isBreak_pushed : ∀ b : BitVec 8, isBreak (pushed b) = released b := by
  decide +kernel

theorem isShift_pushed : ∀ b : BitVec 8, ∀ e ∈ lookup (pushed b),
    e.isShift = decide (keyOf b = 0x2a ∨ keyOf b = 0x36) := by
  decide +kernel

theorem offer_shift (s : Keyboard) (key : Option U32) : (s.offer key).shift = s.shift := by
  cases key with
  | none => rfl
  | some key =>
    unfold Keyboard.offer
    dsimp only
    split <;> rfl

theorem offer_queued {s : Keyboard} {key : Option U32}
    (longer : (s.offer key).queueTail ≠ s.queueTail) :
    ∃ k, key = some k ∧ (s.offer key).keyQueue s.queueTail = k := by
  cases key with
  | none => exact absurd rfl longer
  | some key =>
    refine ⟨key, rfl, ?_⟩
    unfold Keyboard.offer at longer ⊢
    dsimp only at longer ⊢
    split at longer
    · rename_i room
      rw [if_pos room]
      exact Function.update_self s.queueTail key s.keyQueue
    · exact absurd rfl longer

section Step

variable {held : BitVec 8 → Bool} {b : BitVec 8} {s t : Keyboard}

/-- What a call does that has an entry. -/
theorem enqueue_shift (h : s.ps2KeyboardEnqueue (pushed b) = some t) :
    ∃ e, lookup (pushed b) = some e ∧
      t.shift = (if keyOf b = 0x2a ∨ keyOf b = 0x36 then !released b else s.shift) ∧
      (t.queueTail ≠ s.queueTail → ¬ (keyOf b = 0x2a ∨ keyOf b = 0x36) ∧
        t.keyQueue s.queueTail = e.translate s.shift) := by
  have indexed := indexed_of_enqueue h
  obtain ⟨e, found⟩ : ∃ e, lookup (pushed b) = some e := ⟨_, List.getElem?_eq_getElem indexed⟩
  have shiftKey := isShift_pushed b e found
  have brk := isBreak_pushed b
  rw [enqueue_eq indexed] at h
  obtain rfl := Option.some.inj h
  refine ⟨e, found, ?_, fun longer => ?_⟩
  · rw [offer_shift]
    change (meaning s.shift (pushed b)).1 = _
    simp only [meaning, found, shiftKey, brk, decide_eq_true_eq]
    split <;> rfl
  · obtain ⟨key, delivered, stored⟩ := offer_queued longer
    simp only [meaning, found, shiftKey, brk, decide_eq_true_eq] at delivered
    by_cases h : keyOf b = 0x2a ∨ keyOf b = 0x36
    · rw [if_pos h] at delivered
      cases delivered
    · rw [if_neg h] at delivered
      refine ⟨h, stored.trans ?_⟩
      dsimp only at delivered
      split at delivered
      · exact (Option.some.inj delivered).symm
      · cases delivered

theorem shiftHeld_other (other : ¬ (keyOf b = 0x2a ∨ keyOf b = 0x36)) :
    shiftHeld (after held b) = shiftHeld held := by
  rw [not_or] at other
  obtain ⟨left, right⟩ := other
  rw [shiftHeld, after, Function.update_of_ne (Ne.symm left), Function.update_of_ne (Ne.symm right)]
  rfl

theorem shiftHeld_left (h : keyOf b = 0x2a) :
    shiftHeld (after held b) = (!released b || held 0x36) := by
  rw [shiftHeld, after, h]
  rfl

theorem shiftHeld_right (h : keyOf b = 0x36) :
    shiftHeld (after held b) = (held 0x2a || !released b) := by
  rw [shiftHeld, after, h]
  rfl

theorem flag_iff :
    (if keyOf b = 0x2a ∨ keyOf b = 0x36 then !released b else shiftHeld held) =
        shiftHeld (after held b) ↔
      (released b → keyOf b = 0x2a → held 0x36 = false) ∧
        (released b → keyOf b = 0x36 → held 0x2a = false) := by
  by_cases left : keyOf b = 0x2a
  · have apart : keyOf b ≠ 0x36 := by
      rw [left]
      decide
    rw [if_pos (Or.inl left), shiftHeld_left left]
    cases released b <;> simp [left]
  · by_cases right : keyOf b = 0x36
    · rw [if_pos (Or.inr right), shiftHeld_right right]
      cases released b <;> simp [right]
    · have other : ¬ (keyOf b = 0x2a ∨ keyOf b = 0x36) := by
        rw [not_or]
        exact ⟨left, right⟩
      rw [if_neg other, shiftHeld_other other]
      exact iff_of_true rfl ⟨fun _ h => absurd h left, fun _ h => absurd h right⟩

/-- One scancode leaves the flag right unless it releases a shift key under the other. -/
theorem tracks_iff (right : s.shift = shiftHeld held)
    (h : s.ps2KeyboardEnqueue (pushed b) = some t) :
    Tracks (after held b) b s t ↔ (released b → keyOf b = 0x2a → held 0x36 = false) ∧
      (released b → keyOf b = 0x36 → held 0x2a = false) := by
  obtain ⟨e, found, flag, queued⟩ := enqueue_shift h
  rw [right] at flag queued
  rw [← flag_iff, ← flag]
  constructor
  · exact Tracks.shift
  · intro shift
    constructor
    · exact shift
    · intro longer
      obtain ⟨other, key⟩ := queued longer
      refine ⟨e, found, ?_⟩
      rw [key, shiftHeld_other other]

theorem tracksAll_of_shift {events : List (BitVec 8)} (right : s.shift = shiftHeld held) :
    TracksAll held s events ↔ Separate held events := by
  induction events generalizing held s with
  | nil => exact Iff.rfl
  | cons b events ih =>
    constructor
    · rintro ⟨t, enqueued, tracks, rest⟩
      obtain ⟨left, right⟩ := (tracks_iff right enqueued).mp tracks
      refine ⟨(byte_indexed b).mp (indexed_of_enqueue enqueued), left, right, ?_⟩
      exact (ih tracks.shift).mp rest
    · rintro ⟨indexed, left, right', rest⟩
      have enqueued := enqueue_eq ((byte_indexed b).mpr indexed) s
      have tracks := (tracks_iff right enqueued).mpr ⟨left, right'⟩
      exact ⟨_, enqueued, tracks, (ih tracks.shift).mpr rest⟩

end Step

/-- With no key held at first, the flag is right after each scancode if and only if every key has
an entry and no shift key is released under the other. -/
theorem tracksAll_iff (keyQueue : Nat → U32) (queueTail : Nat) (events : List (BitVec 8)) :
    TracksAll (fun _ => false) ⟨keyQueue, queueTail, false⟩ events ↔
      Separate (fun _ => false) events :=
  tracksAll_of_shift rfl

/-- Left down, right down, left up. -/
theorem tracksAll_overlap : Alternates (fun _ => false) [0x2a, 0x36, 0xaa] ∧
    ¬ TracksAll (fun _ => false) (poweredOn fun _ => 0) [0x2a, 0x36, 0xaa] := by
  constructor
  · exact ⟨rfl, rfl, rfl, trivial⟩
  · intro tracks
    obtain ⟨_, _, _, _, _, _, _, left, _⟩ :=
      (@tracksAll_of_shift _ (poweredOn fun _ => 0) _ rfl).mp tracks
    exact absurd (left rfl rfl) (by decide)

end ShiftState
