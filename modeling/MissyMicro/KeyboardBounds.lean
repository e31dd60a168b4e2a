import MissyMicro.KeyboardInterrupts

/-!
# Indices of the keyboard driver

`keymap` has fewer entries than there are key numbers, and the loop that moves the keys looks
one slot ahead. Every run from the start keeps its indices in the arrays as long as neither
comes to bear.
-/

namespace KeyboardBounds

open Ps2Keyboard KeyboardInterrupts

inductive Access where
  | keymap (i : Nat)
  | keyQueue (i : Nat)

def Access.InBounds : Access → Prop
  | .keymap i => i < Ps2Keyboard.keymap.length
  | .keyQueue i => i < kbQueueSize

/-- A byte that `keyb_interrupt` takes from the keyboard, or a step of the reader. -/
inductive Input where
  | scancode (b : BitVec 8)
  | read (past : U32)

/-- `eax` is cleared before the byte comes in. -/
def pushed (b : BitVec 8) : U32 := b.setWidth 32

def advance (s : System) : Input → Option System
  | .scancode b =>
    (s.keyboard.ps2KeyboardEnqueue (pushed b)).map fun k => { s with keyboard := k }
  | .read past => some (s.read past).2

/-- What a step of the reader reads and writes of the queue. -/
def readAccesses (tail : Nat) : Reader → List Access
  | .idle => []
  | .nonempty => [.keyQueue 0]
  | .loop _ i => if i < tail then [.keyQueue (i + 1), .keyQueue i] else []
  | .done _ => []
  | .decrement _ => []

/-- All lookups in one call of `ps2_keyboard_enqueue` have the same index. -/
def accesses (s : System) : Input → List Access
  | .scancode b => .keymap (pushed b &&& ~~~0x80).toNat ::
    if (accepts s.keyboard (pushed b)).isSome then [.keyQueue s.keyboard.queueTail] else []
  | .read _ => readAccesses s.keyboard.queueTail s.reader

/-- The accesses of a run, which ends at a lookup behind `keymap`. -/
def trace (s : System) : List Input → List Access
  | [] => []
  | input :: inputs => accesses s input ++ ((advance s input).map (trace · inputs)).getD []

/-- The key has an entry; the loop is not at the last slot of a full queue. -/
def Meets (s : System) : Input → Prop
  | .scancode b => b.toNat % 128 < Ps2Keyboard.keymap.length
  | .read _ => s.keyboard.queueTail = kbQueueSize → ∀ retval, s.reader ≠ .loop retval 255

def AllMeet (s : System) : List Input → Prop
  | [] => True
  | input :: inputs => Meets s input ∧ ∀ t, advance s input = some t → AllMeet t inputs

section Steps

variable {s t : System} {input : Input}

theorem advance_scancode {b : BitVec 8} (h : advance s (.scancode b) = some t) :
    ∃ k, s.keyboard.ps2KeyboardEnqueue (pushed b) = some k ∧ t = { s with keyboard := k } := by
  obtain ⟨k, enqueued, same⟩ := Option.map_eq_some_iff.mp h
  exact ⟨k, enqueued, same.symm⟩

/-- A slot keeps its word if it is not accessed. -/
theorem advance_frame (h : advance s input = some t) {i : Nat}
    (untouched : .keyQueue i ∉ accesses s input) :
    t.keyboard.keyQueue i = s.keyboard.keyQueue i := by
  cases input with
  | scancode b =>
    obtain ⟨k, enqueued, rfl⟩ := advance_scancode h
    obtain ⟨shift, dropped | queued⟩ := enqueue_cases enqueued
    · obtain ⟨_, rfl⟩ := dropped
      rfl
    · obtain ⟨key, accepted, _, _, rfl⟩ := queued
      have apart : i ≠ s.keyboard.queueTail := by
        intro same
        rw [accesses, accepted, same] at untouched
        exact untouched (List.mem_cons_of_mem _ List.mem_cons_self)
      change Function.update s.keyboard.keyQueue s.keyboard.queueTail key i = _
      exact Function.update_of_ne apart _ _
  | read past =>
    obtain rfl := Option.some.inj h
    unfold System.read
    rw [accesses] at untouched
    cases hreader : s.reader with
    | idle => dsimp only; split <;> rfl
    | nonempty => rfl
    | loop retval j =>
      dsimp only
      by_cases turn : j < s.keyboard.queueTail
      · rw [hreader, readAccesses, if_pos turn] at untouched
        have apart : i ≠ j := by
          rintro rfl
          exact untouched (List.mem_cons_of_mem _ List.mem_cons_self)
        rw [if_pos turn]
        exact Function.update_of_ne apart _ _
      · rw [if_neg turn]
    | done retval => dsimp only; split <;> rfl
    | decrement retval => rfl

/-- No step makes the queue longer than the array. -/
theorem advance_bounded (bounded : s.keyboard.queueTail ≤ kbQueueSize)
    (h : advance s input = some t) : t.keyboard.queueTail ≤ kbQueueSize := by
  cases input with
  | scancode b =>
    obtain ⟨k, enqueued, rfl⟩ := advance_scancode h
    obtain ⟨shift, dropped | queued⟩ := enqueue_cases enqueued
    · obtain ⟨_, rfl⟩ := dropped
      exact bounded
    · obtain ⟨key, _, _, room, rfl⟩ := queued
      exact room
  | read past =>
    obtain rfl := Option.some.inj h
    unfold System.read
    cases s.reader with
    | idle => dsimp only; split <;> exact bounded
    | nonempty => exact bounded
    | loop retval j => dsimp only; split <;> exact bounded
    | done retval => dsimp only; split <;> exact bounded
    | decrement retval => exact Nat.le_trans (Nat.sub_le _ _) bounded

theorem readAccesses_inBounds_iff {tail : Nat} (bounded : tail ≤ kbQueueSize) (reader : Reader) :
    (∀ a ∈ readAccesses tail reader, a.InBounds) ↔
      (tail = kbQueueSize → ∀ retval, reader ≠ .loop retval 255) := by
  have size : kbQueueSize = 256 := rfl
  cases reader with
  | idle => simp [readAccesses]
  | nonempty => simp [readAccesses, Access.InBounds, size]
  | done retval => simp [readAccesses]
  | decrement retval => simp [readAccesses]
  | loop retval i =>
    rw [readAccesses]
    constructor
    · intro inside full retval' same
      obtain rfl : i = 255 := (Reader.loop.inj same).2
      rw [if_pos (by omega)] at inside
      have ahead : 255 + 1 < kbQueueSize := inside (.keyQueue (255 + 1)) List.mem_cons_self
      omega
    · intro off a ha
      by_cases turn : i < tail
      · rw [if_pos turn, List.mem_cons, List.mem_singleton] at ha
        have last : tail = kbQueueSize → i ≠ 255 := fun full h => off full retval (h ▸ rfl)
        rcases ha with rfl | rfl
        · change i + 1 < kbQueueSize
          omega
        · change i < kbQueueSize
          omega
      · rw [if_neg turn] at ha
        exact absurd ha List.not_mem_nil

theorem accesses_inBounds_iff (bounded : s.keyboard.queueTail ≤ kbQueueSize) :
    (∀ a ∈ accesses s input, a.InBounds) ↔ Meets s input := by
  cases input with
  | read past => exact readAccesses_inBounds_iff bounded s.reader
  | scancode b =>
    rw [Meets, ← byte_indexed]
    constructor
    · intro inside
      exact inside _ List.mem_cons_self
    · intro indexed a ha
      rw [accesses, List.mem_cons] at ha
      rcases ha with rfl | ha
      · exact indexed
      · cases accepted : accepts s.keyboard (pushed b) with
        | none =>
          rw [accepted] at ha
          exact absurd ha List.not_mem_nil
        | some key =>
          rw [accepted] at ha
          obtain rfl := List.mem_singleton.mp ha
          rw [accepts] at accepted
          split at accepted
          · rename_i room
            exact room
          · cases accepted

theorem trace_inBounds {inputs : List Input} (bounded : s.keyboard.queueTail ≤ kbQueueSize) :
    (∀ a ∈ trace s inputs, a.InBounds) ↔ AllMeet s inputs := by
  induction inputs generalizing s with
  | nil => simp [trace, AllMeet]
  | cons input inputs ih =>
    rw [trace, AllMeet, List.forall_mem_append, accesses_inBounds_iff bounded]
    refine and_congr_right fun _ => ?_
    cases advanced : advance s input with
    | none => simp
    | some t =>
      rw [Option.map_some, Option.getD_some, ih (advance_bounded bounded advanced)]
      constructor
      · intro rest t' same
        exact Option.some.inj same ▸ rest
      · intro rest
        exact rest t rfl

end Steps

/-- From the start no index leaves its array if and only if every key has an entry, and the loop
never comes to the last slot of a full queue. -/
theorem trace_inBounds_iff (memory : Nat → U32) (inputs : List Input) :
    (∀ a ∈ trace (quiet memory) inputs, a.InBounds) ↔ AllMeet (quiet memory) inputs :=
  trace_inBounds (Nat.zero_le _)

/-- 0xe0 announces an extended key. -/
theorem trace_extended : ¬ ∀ (memory : Nat → U32) (inputs : List Input),
    ∀ a ∈ trace (quiet memory) inputs, a.InBounds := by
  intro all
  have inside : Access.InBounds (.keymap 0x60) :=
    all (fun _ => 0) [.scancode 0xe0] (.keymap 0x60) List.mem_cons_self
  exact absurd inside (by decide : ¬ 0x60 < Ps2Keyboard.keymap.length)

end KeyboardBounds
