import MissyMicro.ArrayQueues
import MissyMicro.Words

/-!
# The keyboard queue

`ps2_keyboard_enqueue` turns the scancodes of released keys into key codes and
appends them to `key_queue`; `ps2_keyb_getbyte` takes the first one off by moving
all others one slot down. With the queue full that loop reads the word behind the
array, so every read is given what happens to stand there.
-/

namespace Ps2Keyboard

open ArrayQueues

/-- `KEYCODE` as far as `keymap` uses it. The code of a printable key is its character. -/
inductive Keycode where
  | char (c : Char)
  | escape
  | f1 | f2 | f3 | f4 | f5 | f6 | f7 | f8 | f9 | f10 | f11 | f12
  | kpNumlock | tab | capslock
  | lshift | lctrl | rshift | ralt
  | home | pageup | scrolllock | unknown

def Keycode.code : Keycode → U32
  | .char c => BitVec.ofNat 32 c.toNat
  | .escape => 0x1001
  | .f1 => 0x1201
  | .f2 => 0x1202
  | .f3 => 0x1203
  | .f4 => 0x1204
  | .f5 => 0x1205
  | .f6 => 0x1206
  | .f7 => 0x1207
  | .f8 => 0x1208
  | .f9 => 0x1209
  | .f10 => 0x120a
  | .f11 => 0x120b
  | .f12 => 0x120b
  | .kpNumlock => 0x300f
  | .tab => 0x4000
  | .capslock => 0x4001
  | .lshift => 0x4002
  | .lctrl => 0x4003
  | .rshift => 0x4006
  | .ralt => 0x4008
  | .home => 0x400c
  | .pageup => 0x400e
  | .scrolllock => 0x4010
  | .unknown => 0x4012

structure KeymapEntry where
  lowercase : Keycode
  uppercase : Keycode

def letter (lower upper : Char) : KeymapEntry := ⟨.char lower, .char upper⟩
def same (code : Keycode) : KeymapEntry := ⟨code, code⟩

/-- After 0x49 the table goes on with the codes from 0x50 on, so it ends early. -/
def keymap : List KeymapEntry := [
  same .unknown, same .escape, letter '1' '!', letter '2' '@',
  letter '3' '#', letter '4' '$', letter '5' '%', letter '6' '^',
  letter '7' '&', letter '8' '*', letter '9' '(', letter '0' ')',
  letter '-' '_', letter '=' '+', same (.char '\x08'), same .tab,
  letter 'q' 'Q', letter 'w' 'W', letter 'e' 'E', letter 'r' 'R',
  letter 't' 'T', letter 'y' 'Y', letter 'u' 'U', letter 'i' 'I',
  letter 'o' 'O', letter 'p' 'P', letter '[' '\x7b', letter ']' '\x7d',
  same (.char '\r'), same .lctrl, letter 'a' 'A', letter 's' 'S',
  letter 'd' 'D', letter 'f' 'F', letter 'g' 'G', letter 'h' 'H',
  letter 'j' 'J', letter 'k' 'K', letter 'l' 'L', letter ';' ':',
  letter '\x27' '\x22', letter '\x60' '~', same .lshift, letter '\x5c' '|',
  letter 'z' 'Z', letter 'x' 'X', letter 'c' 'C', letter 'v' 'V',
  letter 'b' 'B', letter 'n' 'N', letter 'm' 'M', letter ',' '<',
  letter '.' '>', letter '/' '?', same .rshift, same (.char '*'),
  same .ralt, same (.char ' '), same .capslock, same .f1,
  same .f2, same .f3, same .f4, same .f5,
  same .f6, same .f7, same .f8, same .f9,
  same .f10, same .kpNumlock, same .scrolllock, same .home,
  same (.char '8'), same .pageup, same (.char '2'), same (.char '3'),
  same (.char '0'), same (.char '.'), same .unknown, same .unknown,
  same .unknown, same .f11, same .f12]

def kbQueueSize : Nat := 256

/-- The value -1 of `ps2_keyb_getbyte`. -/
def noKey : U32 := 0xffffffff

/-- The slots of `keyQueue` from 256 on are not part of the array. -/
structure Keyboard where
  keyQueue : Nat → U32
  queueTail : Nat
  shift : Bool

/-- `keymap[scancode &~ 0x80]`. -/
def lookup (scancode : U32) : Option KeymapEntry := keymap[(scancode &&& ~~~0x80).toNat]?

def KeymapEntry.isShift (e : KeymapEntry) : Bool :=
  e.lowercase.code = Keycode.lshift.code ∨ e.lowercase.code = Keycode.rshift.code

def isBreak (scancode : U32) : Bool := scancode &&& 0x80 ≠ 0

namespace Keyboard

def push (s : Keyboard) (key : U32) : Keyboard :=
  { s with keyQueue := Function.update s.keyQueue s.queueTail key, queueTail := s.queueTail + 1 }

/-- A scancode without an entry reads past `keymap`, which has no result. -/
def ps2KeyboardEnqueue (s : Keyboard) (scancode : U32) : Option Keyboard := do
  let entry ← lookup scancode
  if entry.isShift then
    if isBreak scancode then return { s with shift := false }
    else return { s with shift := true }
  else if isBreak scancode then
    let s := if entry.isShift then { s with shift := false } else s
    if s.queueTail < kbQueueSize then
      if s.shift then return s.push entry.uppercase.code
      else return s.push entry.lowercase.code
    else return s
  else return s

/-- `key_queue[i]`, where `past` stands behind the array. -/
def slot (s : Keyboard) (past : U32) (i : Nat) : U32 :=
  if i < kbQueueSize then s.keyQueue i else past

/-- One turn of the loop of `ps2_keyboard_dequeue`. -/
def copyForward (s : Keyboard) (past : U32) (i : Nat) : Keyboard :=
  { s with keyQueue := Function.update s.keyQueue i (s.slot past (i + 1)) }

def ps2KeyboardDequeue (s : Keyboard) (past : U32) : U32 × Keyboard :=
  let retval := s.slot past 0
  let s := (List.range s.queueTail).foldl (fun s i => s.copyForward past i) s
  let s := if s.queueTail > 0 then { s with queueTail := s.queueTail - 1 } else s
  (retval, s)

def ps2KeybGetbyte (s : Keyboard) (past : U32) : U32 × Keyboard :=
  if s.queueTail > 0 then s.ps2KeyboardDequeue past else (noKey, s)

end Keyboard

def KeymapEntry.translate (e : KeymapEntry) (shift : Bool) : U32 :=
  if shift then e.uppercase.code else e.lowercase.code

/-- The shift state after a scancode, and the key it delivers: shift keys set the state
when pressed and clear it when released, every other key counts when it is released. -/
def meaning (shift : Bool) (scancode : U32) : Bool × Option U32 :=
  match lookup scancode with
  | none => (shift, none)
  | some e =>
    if e.isShift then (!isBreak scancode, none)
    else (shift, if isBreak scancode then some (e.translate shift) else none)

namespace Keyboard

/-- A key that finds the queue full is dropped. -/
def offer (s : Keyboard) : Option U32 → Keyboard
  | none => s
  | some key => if s.queueTail < kbQueueSize then s.push key else s

def withShift (s : Keyboard) (shift : Bool) : Keyboard := { s with shift := shift }

end Keyboard

/-- The scancode names an entry of `keymap`. -/
def Indexed (scancode : U32) : Prop := (scancode &&& ~~~0x80).toNat < keymap.length

instance (scancode : U32) : Decidable (Indexed scancode) :=
  inferInstanceAs (Decidable (_ < _))

/-- A byte from the keyboard names an entry with its low seven bits. -/
theorem byte_indexed (b : BitVec 8) :
    Indexed (b.setWidth 32) ↔ b.toNat % 128 < keymap.length := by
  have hmask : ∀ b : BitVec 8, (b.setWidth 32 &&& ~~~0x80#32).toNat = b.toNat % 128 := by
    decide +kernel
  exact iff_of_eq (congrArg (· < keymap.length) (hmask b))

theorem enqueue_eq {scancode : U32} (h : Indexed scancode) (s : Keyboard) :
    s.ps2KeyboardEnqueue scancode =
      some ((s.withShift (meaning s.shift scancode).1).offer (meaning s.shift scancode).2) := by
  obtain ⟨e, hlookup⟩ : ∃ e, lookup scancode = some e := ⟨_, List.getElem?_eq_getElem h⟩
  simp only [Keyboard.ps2KeyboardEnqueue, meaning, hlookup, Option.bind_eq_bind, Option.bind_some]
  cases hshift : e.isShift with
  | true =>
    cases isBreak scancode <;> rfl
  | false =>
    cases isBreak scancode with
    | false => rfl
    | true =>
      by_cases room : s.queueTail < kbQueueSize
      · cases hs : s.shift <;> simp [Keyboard.offer, Keyboard.withShift, Keyboard.push, room,
          KeymapEntry.translate, hs]
      · simp [Keyboard.offer, Keyboard.withShift, room]

theorem indexed_of_enqueue {s k : Keyboard} {scancode : U32}
    (h : s.ps2KeyboardEnqueue scancode = some k) : Indexed scancode := by
  by_contra hindex
  have hlookup : lookup scancode = none := List.getElem?_eq_none (Nat.le_of_not_lt hindex)
  rw [Keyboard.ps2KeyboardEnqueue, hlookup] at h
  cases h

theorem keymap_codes : ∀ e ∈ keymap, e.lowercase.code ≠ noKey ∧ e.uppercase.code ≠ noKey := by
  decide +kernel

/-- No key is mistaken for the answer that there is none. -/
theorem meaning_key {shift : Bool} {scancode key : U32}
    (h : (meaning shift scancode).2 = some key) : key ≠ noKey := by
  rw [meaning] at h
  cases hlookup : lookup scancode with
  | none =>
    rw [hlookup] at h
    cases h
  | some e =>
    rw [hlookup] at h
    obtain ⟨hlower, hupper⟩ := keymap_codes e (List.mem_of_getElem? hlookup)
    simp only at h
    split at h
    · cases h
    · simp only [Option.ite_none_right_eq_some, Option.some.injEq] at h
      obtain ⟨_, rfl⟩ := h
      cases shift
      · exact hlower
      · exact hupper

/-- The keys that wait in the queue, first come first. -/
structure Holding (s : Keyboard) (pending : List U32) : Prop where
  queue : Holds s.keyQueue pending
  tail : s.queueTail = pending.length
  bounded : pending.length ≤ kbQueueSize
  keys : ∀ key ∈ pending, key ≠ noKey

theorem Holding.withShift {s : Keyboard} {pending : List U32} (h : Holding s pending)
    (shift : Bool) : Holding (s.withShift shift) pending :=
  ⟨h.queue, h.tail, h.bounded, h.keys⟩

def appended (pending : List U32) : Option U32 → List U32
  | none => pending
  | some key => if pending.length < kbQueueSize then pending ++ [key] else pending

theorem Holding.offer {s : Keyboard} {pending : List U32} (h : Holding s pending)
    {key : Option U32} (hkey : ∀ k, key = some k → k ≠ noKey) :
    Holding (s.offer key) (appended pending key) := by
  cases key with
  | none => exact h
  | some key =>
    rw [Keyboard.offer, appended, h.tail]
    by_cases room : pending.length < kbQueueSize
    · rw [if_pos room, if_pos room]
      have hpush : s.push key = { s with
          keyQueue := Function.update s.keyQueue pending.length key
          queueTail := pending.length + 1 } := by
        rw [Keyboard.push, h.tail]
      rw [hpush]
      refine ⟨h.queue.push key, ?_, ?_, ?_⟩
      · simp
      · rw [List.length_append, List.length_singleton]
        exact room
      · intro k hk
        rcases List.mem_append.mp hk with hk | hk
        · exact h.keys k hk
        · rw [List.mem_singleton.mp hk]
          exact hkey key rfl
    · rw [if_neg room, if_neg room]
      exact h

/-- The loop closes the gap that the first key leaves. It reads the word behind the
array only when every key has moved. -/
theorem copyForward_all {s : Keyboard} {rest : List U32} (gap : Gapped s.keyQueue 0 rest)
    (bounded : rest.length < kbQueueSize) (past : U32) {n : Nat} :
    let t := (List.range n).foldl (fun s i => s.copyForward past i) s
    Gapped t.keyQueue n rest ∧ t.queueTail = s.queueTail ∧ t.shift = s.shift := by
  induction n with
  | zero => exact ⟨gap, rfl, rfl⟩
  | succ n ih =>
    obtain ⟨hgap, htail, hshift⟩ := ih
    rw [List.range_succ, List.foldl_append, List.foldl_cons, List.foldl_nil]
    refine ⟨hgap.close fun hn => ?_, htail, hshift⟩
    exact if_pos (by omega)

theorem getbyte_first {s : Keyboard} {key : U32} {rest : List U32} (h : Holding s (key :: rest))
    (past : U32) :
    ∃ t, s.ps2KeybGetbyte past = (key, t) ∧ Holding t rest ∧ t.shift = s.shift := by
  have htail : s.queueTail = rest.length + 1 := h.tail
  have hbound : rest.length + 1 ≤ kbQueueSize := h.bounded
  have hsome : s.queueTail > 0 := by omega
  obtain ⟨hgap, htail', hshift⟩ := copyForward_all h.queue.tail hbound past (n := s.queueTail)
  have hfirst : s.slot past 0 = key := h.queue.head
  refine ⟨_, by rw [Keyboard.ps2KeybGetbyte, if_pos hsome, Keyboard.ps2KeyboardDequeue, hfirst],
    ?_⟩
  rw [htail', if_pos hsome]
  refine ⟨⟨hgap.closed (by omega), ?_, by omega, fun k hk => h.keys k (List.mem_cons_of_mem _ hk)⟩,
    hshift⟩
  change s.queueTail - 1 = _
  omega

theorem getbyte_none {s : Keyboard} (h : Holding s []) (past : U32) :
    s.ps2KeybGetbyte past = (noKey, s) := by
  have hnone : ¬ s.queueTail > 0 := by
    rw [h.tail]
    exact Nat.lt_irrefl 0
  exact if_neg hnone

inductive Call where
  | enqueue (scancode : U32)
  | getbyte (past : U32)

def Call.Indexed : Call → Prop
  | .enqueue scancode => Ps2Keyboard.Indexed scancode
  | .getbyte _ => True

instance (call : Call) : Decidable call.Indexed :=
  match call with
  | .enqueue scancode => inferInstanceAs (Decidable (Ps2Keyboard.Indexed scancode))
  | .getbyte _ => inferInstanceAs (Decidable True)

/-- The results of the `getbyte` calls, and the state after all calls. -/
def perform (s : Keyboard) : List Call → Option (List U32 × Keyboard)
  | [] => some ([], s)
  | .enqueue scancode :: calls => (s.ps2KeyboardEnqueue scancode).bind fun s => perform s calls
  | .getbyte past :: calls =>
    (perform (s.ps2KeybGetbyte past).2 calls).map fun (results, t) =>
      ((s.ps2KeybGetbyte past).1 :: results, t)

/-- The keys that arrive while fewer than 256 are pending, each in the shift state of
its arrival. -/
def arrived (shift : Bool) (pending : Nat) : List Call → List U32
  | [] => []
  | .enqueue scancode :: calls =>
    match (meaning shift scancode).2 with
    | none => arrived (meaning shift scancode).1 pending calls
    | some key =>
      if pending < kbQueueSize then
        key :: arrived (meaning shift scancode).1 (pending + 1) calls
      else arrived (meaning shift scancode).1 pending calls
  | .getbyte _ :: calls => arrived shift (pending - 1) calls

def delivered (results : List U32) : List U32 := results.filter (· ≠ noKey)

/-- What the queue held and what arrives is what is delivered and what the queue holds. -/
theorem perform_holding {calls : List Call} {s : Keyboard} {pending : List U32}
    (h : Holding s pending) (indexed : ∀ call ∈ calls, call.Indexed) :
    ∃ results t rest, perform s calls = some (results, t) ∧ Holding t rest ∧
      pending ++ arrived s.shift pending.length calls = delivered results ++ rest := by
  induction calls generalizing s pending with
  | nil => exact ⟨[], s, pending, rfl, h, by simp [arrived, delivered]⟩
  | cons call calls ih =>
    have indexed' : ∀ c ∈ calls, c.Indexed := fun c hc => indexed c (List.mem_cons_of_mem _ hc)
    cases call with
    | enqueue scancode =>
      have henq := enqueue_eq (indexed (.enqueue scancode) List.mem_cons_self) s
      have h' := Holding.offer (h.withShift (meaning s.shift scancode).1)
        fun k => @meaning_key s.shift scancode k
      have hshift : ((s.withShift (meaning s.shift scancode).1).offer
          (meaning s.shift scancode).2).shift = (meaning s.shift scancode).1 := by
        cases (meaning s.shift scancode).2 with
        | none => rfl
        | some key =>
          rw [Keyboard.offer]
          split <;> rfl
      obtain ⟨results, t, rest, hrun, hold, hsame⟩ := ih h' indexed'
      refine ⟨results, t, rest, ?_, hold, ?_⟩
      · rw [perform, henq]
        exact hrun
      · rw [← hsame, hshift, arrived]
        cases (meaning s.shift scancode).2 with
        | none => rfl
        | some key =>
          simp only [appended]
          split
          · simp
          · rfl
    | getbyte past =>
      cases pending with
      | nil =>
        obtain ⟨results, t, rest, hrun, hold, hsame⟩ := ih h indexed'
        refine ⟨noKey :: results, t, rest, ?_, hold, ?_⟩
        · rw [perform, getbyte_none h, hrun]
          rfl
        · rw [arrived]
          simpa [delivered] using hsame
      | cons key pending =>
        obtain ⟨u, hget, h', hshift⟩ := getbyte_first h past
        obtain ⟨results, t, rest, hrun, hold, hsame⟩ := ih h' indexed'
        refine ⟨key :: results, t, rest, ?_, hold, ?_⟩
        · rw [perform, hget, hrun]
          rfl
        · have hkey := h.keys key List.mem_cons_self
          rw [arrived, ← hshift, List.cons_append]
          simp only [List.length_cons, Nat.add_sub_cancel, hsame, delivered]
          simp [hkey]

/-- The static data: an empty queue and no shift key pressed. -/
def poweredOn (memory : Nat → U32) : Keyboard := ⟨memory, 0, false⟩

theorem poweredOn_holding (memory : Nat → U32) : Holding (poweredOn memory) [] :=
  ⟨holds_nil memory, rfl, Nat.zero_le _, fun _ hk => absurd hk List.not_mem_nil⟩

/-- The keys delivered so far are the first ones that arrived, the queue holds the others,
and the next call answers -1 exactly when there are no others. -/
theorem keyboard_fifo (memory : Nat → U32) (calls : List Call)
    (indexed : ∀ call ∈ calls, call.Indexed) :
    ∃ results s pending, perform (poweredOn memory) calls = some (results, s) ∧
      arrived false 0 calls = delivered results ++ pending ∧
      ∀ past, (s.ps2KeybGetbyte past).1 = noKey ↔ pending = [] := by
  obtain ⟨results, s, pending, hrun, hold, hsame⟩ :=
    perform_holding (poweredOn_holding memory) indexed
  refine ⟨results, s, pending, hrun, hsame, fun past => ?_⟩
  cases pending with
  | nil => simp [getbyte_none hold]
  | cons key pending =>
    obtain ⟨t, hget, _⟩ := getbyte_first hold past
    simp [hget, hold.keys key List.mem_cons_self]

/-- The A key with shift held, the B key without, and one read. -/
theorem shifted_key_first : ∃ results s pending,
    perform (poweredOn fun _ => 0) [.enqueue 0x2a, .enqueue 0x9e, .enqueue 0xaa, .enqueue 0xb0,
      .getbyte 0] = some (results, s) ∧
      [0x41, 0x62] = delivered results ++ pending ∧
      ∀ past, (s.ps2KeybGetbyte past).1 = noKey ↔ pending = [] :=
  keyboard_fifo (fun _ => 0) [.enqueue 0x2a, .enqueue 0x9e, .enqueue 0xaa, .enqueue 0xb0,
    .getbyte 0] (by decide +kernel)

end Ps2Keyboard
