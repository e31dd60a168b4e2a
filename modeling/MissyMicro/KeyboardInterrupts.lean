import MissyMicro.Ps2Keyboard
import MissyMicro.TransitionRuns

/-!
# Keys that arrive during a read

`keyb_interrupt` may call `ps2_keyboard_enqueue` between any two steps of
`ps2_keyb_getbyte`. As long as the loop has a key left to move, it also moves a key
that arrives. Once it has moved the last one, and until `queue_tail` is decremented,
a new key is put one slot too far and lost.
-/

namespace KeyboardInterrupts

open ArrayQueues Ps2Keyboard TransitionRuns

/-- Where `ps2_keyb_getbyte` is: outside, past its test of `queue_tail`, in front of the
test of the loop, behind the loop, or in front of the decrement. -/
inductive Reader where
  | idle
  | nonempty
  | loop (retval : U32) (i : Nat)
  | done (retval : U32)
  | decrement (retval : U32)

structure System where
  keyboard : Keyboard
  reader : Reader

/-- One step of the reader; a step that ends the call has its result. -/
def System.read (s : System) (past : U32) : Option U32 × System :=
  match s.reader with
  | .idle =>
    if s.keyboard.queueTail > 0 then (none, { s with reader := .nonempty })
    else (some noKey, s)
  | .nonempty => (none, { s with reader := .loop (s.keyboard.slot past 0) 0 })
  | .loop retval i =>
    if i < s.keyboard.queueTail then
      (none, ⟨s.keyboard.copyForward past i, .loop retval (i + 1)⟩)
    else (none, { s with reader := .done retval })
  | .done retval =>
    if s.keyboard.queueTail > 0 then (none, { s with reader := .decrement retval })
    else (some retval, { s with reader := .idle })
  | .decrement retval =>
    (some retval, ⟨{ s.keyboard with queueTail := s.keyboard.queueTail - 1 }, .idle⟩)

/-- The key that `ps2_keyboard_enqueue` queues. -/
def accepts (s : Keyboard) (scancode : U32) : Option U32 :=
  if s.queueTail < kbQueueSize then (meaning s.shift scancode).2 else none

/-- `key` carries the key it queued, `read` the result of a call it ended. -/
inductive Event where
  | key (scancode : U32) (queued : Option U32)
  | read (past : U32) (result : Option U32)

inductive Step : System → Event → System → Prop
  | key {s : System} {scancode : U32} {k : Keyboard} :
      s.keyboard.ps2KeyboardEnqueue scancode = some k →
      Step s (.key scancode (accepts s.keyboard scancode)) { s with keyboard := k }
  | read (s : System) (past : U32) : Step s (.read past (s.read past).1) (s.read past).2

def Event.queued : Event → List U32
  | .key _ queued => queued.toList
  | .read _ _ => []

def Event.returned : Event → List U32
  | .key _ _ => []
  | .read _ result => result.toList.filter (· ≠ noKey)

/-- The last key of the queue has been moved, and it still counts in `queue_tail`. -/
def Reader.Exposed (tail : Nat) : Reader → Prop
  | .idle => False
  | .nonempty => False
  | .loop _ i => tail ≤ i
  | .done _ => True
  | .decrement _ => True

instance (tail : Nat) : (reader : Reader) → Decidable (reader.Exposed tail)
  | .idle => inferInstanceAs (Decidable False)
  | .nonempty => inferInstanceAs (Decidable False)
  | .loop _ i => inferInstanceAs (Decidable (tail ≤ i))
  | .done _ => inferInstanceAs (Decidable True)
  | .decrement _ => inferInstanceAs (Decidable True)

def Exposed (s : System) : Prop := s.reader.Exposed s.keyboard.queueTail

instance (s : System) : Decidable (Exposed s) :=
  inferInstanceAs (Decidable (s.reader.Exposed _))

/-- No key is queued in an exposed state. -/
def Sheltered (s : System) (event : Event) : Prop := event.queued ≠ [] → ¬ Exposed s

instance (s : System) (event : Event) : Decidable (Sheltered s event) :=
  inferInstanceAs (Decidable (_ → _))

/-- The key that is being returned still counts in `queue_tail`. -/
structure Taken (k : Keyboard) (key : U32) (keys : List U32) : Prop where
  tail : k.queueTail = keys.length + 1
  bounded : keys.length < kbQueueSize
  keys : ∀ x ∈ key :: keys, x ≠ noKey

/-- `keys` are the keys that were queued and not yet returned. -/
inductive Owed : System → List U32 → Prop
  | idle {k : Keyboard} {keys : List U32} : Holding k keys → Owed ⟨k, .idle⟩ keys
  | nonempty {k : Keyboard} {key : U32} {keys : List U32} :
      Holding k (key :: keys) → Owed ⟨k, .nonempty⟩ (key :: keys)
  | loop {k : Keyboard} {key : U32} {keys : List U32} {i : Nat} : Gapped k.keyQueue i keys →
      i ≤ keys.length + 1 → Taken k key keys → Owed ⟨k, .loop key i⟩ (key :: keys)
  | done {k : Keyboard} {key : U32} {keys : List U32} :
      Holds k.keyQueue keys → Taken k key keys → Owed ⟨k, .done key⟩ (key :: keys)
  | decrement {k : Keyboard} {key : U32} {keys : List U32} :
      Holds k.keyQueue keys → Taken k key keys → Owed ⟨k, .decrement key⟩ (key :: keys)

/-- A step of the reader returns the first of these keys or none. -/
theorem read_owed {s : System} {keys : List U32} (owed : Owed s keys) (past : U32) :
    ∃ rest, Owed (s.read past).2 rest ∧
      keys = (Event.read past (s.read past).1).returned ++ rest := by
  cases owed with
  | @idle k _ hold =>
    cases keys with
    | nil =>
      have hnone : ¬ k.queueTail > 0 := by
        rw [hold.tail]
        exact Nat.lt_irrefl 0
      refine ⟨[], ?_, ?_⟩
      · simp only [System.read, if_neg hnone]
        exact .idle hold
      · simp [System.read, if_neg hnone, Event.returned]
    | cons key keys =>
      have hsome : k.queueTail > 0 := by
        rw [hold.tail]
        exact Nat.zero_lt_succ _
      refine ⟨key :: keys, ?_, ?_⟩
      · simp only [System.read, if_pos hsome]
        exact .nonempty hold
      · simp [System.read, if_pos hsome, Event.returned]
  | @nonempty k key keys hold =>
    have hfirst : k.slot past 0 = key := hold.queue.head
    refine ⟨key :: keys, ?_, rfl⟩
    simp only [System.read, hfirst]
    exact .loop hold.queue.tail (Nat.zero_le _) ⟨hold.tail, hold.bounded, hold.keys⟩
  | @loop k key keys i gap hi taken =>
    have htail := taken.tail
    have hbound := taken.bounded
    by_cases turn : i < k.queueTail
    · refine ⟨key :: keys, ?_, ?_⟩
      · simp only [System.read, if_pos turn]
        refine .loop (gap.close fun hlt => ?_) (by omega) ⟨htail, hbound, taken.keys⟩
        exact if_pos (by omega)
      · simp [System.read, if_pos turn, Event.returned]
    · refine ⟨key :: keys, ?_, ?_⟩
      · simp only [System.read, if_neg turn]
        exact .done (gap.closed (by omega)) taken
      · simp [System.read, if_neg turn, Event.returned]
  | @done k key keys hold taken =>
    have hsome : k.queueTail > 0 := by
      rw [taken.tail]
      exact Nat.zero_lt_succ _
    refine ⟨key :: keys, ?_, ?_⟩
    · simp only [System.read, if_pos hsome]
      exact .decrement hold taken
    · simp [System.read, if_pos hsome, Event.returned]
  | @decrement k key keys hold taken =>
    have htail := taken.tail
    refine ⟨keys, .idle ⟨hold, ?_, Nat.le_of_lt taken.bounded, ?_⟩, ?_⟩
    · change k.queueTail - 1 = _
      omega
    · exact fun x hx => taken.keys x (List.mem_cons_of_mem _ hx)
    · simp [System.read, Event.returned, taken.keys key List.mem_cons_self]

/-- What the handler does to the queue: it drops or appends one key at most. -/
theorem enqueue_cases {s k : Keyboard} {scancode : U32}
    (h : s.ps2KeyboardEnqueue scancode = some k) :
    ∃ shift, (accepts s scancode = none ∧ k = s.withShift shift) ∨
      ∃ key, accepts s scancode = some key ∧ key ≠ noKey ∧ s.queueTail < kbQueueSize ∧
        k = (s.withShift shift).push key := by
  rw [enqueue_eq (indexed_of_enqueue h)] at h
  obtain rfl := Option.some.inj h
  refine ⟨(meaning s.shift scancode).1, ?_⟩
  rw [accepts]
  cases hkey : (meaning s.shift scancode).2 with
  | none => exact Or.inl ⟨by split <;> rfl, rfl⟩
  | some key =>
    by_cases room : s.queueTail < kbQueueSize
    · rw [if_pos room]
      exact Or.inr ⟨key, rfl, meaning_key hkey, room, if_pos room⟩
    · rw [if_neg room]
      exact Or.inl ⟨rfl, if_neg room⟩

theorem Owed.withShift {s : System} {keys : List U32} (owed : Owed s keys) (shift : Bool) :
    Owed { s with keyboard := s.keyboard.withShift shift } keys := by
  cases owed with
  | idle hold => exact .idle (hold.withShift shift)
  | nonempty hold => exact .nonempty (hold.withShift shift)
  | loop gap hi taken => exact .loop gap hi ⟨taken.tail, taken.bounded, taken.keys⟩
  | done hold taken => exact .done hold ⟨taken.tail, taken.bounded, taken.keys⟩
  | decrement hold taken => exact .decrement hold ⟨taken.tail, taken.bounded, taken.keys⟩

theorem holding_push {k : Keyboard} {keys : List U32} {key : U32} (hold : Holding k keys)
    (room : k.queueTail < kbQueueSize) (hkey : key ≠ noKey) :
    Holding (k.push key) (keys ++ [key]) := by
  have hlt : keys.length < kbQueueSize := by rwa [← hold.tail]
  have hoffer := @Holding.offer _ _ hold (some key) fun _ hk => Option.some.inj hk ▸ hkey
  rwa [Keyboard.offer, appended, if_pos room, if_pos hlt] at hoffer

/-- While a key is still to be moved, a new key waits behind the gap. -/
theorem Owed.push {s : System} {keys : List U32} (owed : Owed s keys) (sheltered : ¬ Exposed s)
    {key : U32} (room : s.keyboard.queueTail < kbQueueSize) (hkey : key ≠ noKey) :
    Owed { s with keyboard := s.keyboard.push key } (keys ++ [key]) := by
  cases owed with
  | idle hold => exact .idle (holding_push hold room hkey)
  | nonempty hold => exact .nonempty (holding_push hold room hkey)
  | @loop k first keys i gap hi taken =>
    have htail := taken.tail
    have hopen : ¬ k.queueTail ≤ i := sheltered
    have hpush : k.push key = { k with
        keyQueue := Function.update k.keyQueue (keys.length + 1) key
        queueTail := keys.length + 1 + 1 } := by
      rw [Keyboard.push, htail]
    have hlength : (keys ++ [key]).length = keys.length + 1 := by simp
    change Owed ⟨k.push key, _⟩ (first :: (keys ++ [key]))
    rw [hpush]
    refine .loop (gap.push (by omega) key) (by omega) ⟨?_, ?_, ?_⟩
    · rw [hlength]
    · change k.queueTail < kbQueueSize at room
      omega
    · intro x hx
      rw [← List.cons_append] at hx
      rcases List.mem_append.mp hx with hx | hx
      · exact taken.keys x hx
      · rw [List.mem_singleton.mp hx]
        exact hkey
  | done => exact absurd trivial sheltered
  | decrement => exact absurd trivial sheltered

/-- Every step keeps the account: what was owed and what is queued is what is returned
and what is owed then. -/
theorem step_owed {s t : System} {event : Event} {keys : List U32} (owed : Owed s keys)
    (h : Guarded Sheltered Step s event t) :
    ∃ rest, Owed t rest ∧ keys ++ event.queued = event.returned ++ rest := by
  obtain ⟨sheltered, h⟩ := h
  cases h with
  | read past =>
    obtain ⟨rest, owed', hsame⟩ := read_owed owed past
    exact ⟨rest, owed', by rwa [Event.queued, List.append_nil]⟩
  | @key scancode k h =>
    obtain ⟨shift, ⟨hnone, rfl⟩ | ⟨key, hsome, hkey, room, rfl⟩⟩ := enqueue_cases h
    · refine ⟨keys, owed.withShift shift, ?_⟩
      simp [Event.queued, Event.returned, hnone]
    · rw [hsome] at sheltered ⊢
      have hopen : ¬ Exposed s := sheltered (List.cons_ne_nil key [])
      have hopen' : ¬ Exposed { s with keyboard := s.keyboard.withShift shift } := hopen
      exact ⟨keys ++ [key], (owed.withShift shift).push hopen' room hkey, rfl⟩

theorem run_owed {s t : System} {events : List Event} {keys : List U32}
    (run : Run (Guarded Sheltered Step) s events t) (owed : Owed s keys) :
    ∃ rest, Owed t rest ∧
      keys ++ events.flatMap Event.queued = events.flatMap Event.returned ++ rest := by
  induction run generalizing keys with
  | nil => exact ⟨keys, owed, by simp⟩
  | cons h _ ih =>
    obtain ⟨mid, owed', hfirst⟩ := step_owed owed h
    obtain ⟨rest, owed'', hrest⟩ := ih owed'
    refine ⟨rest, owed'', ?_⟩
    rw [List.flatMap_cons, List.flatMap_cons, ← List.append_assoc, hfirst, List.append_assoc,
      hrest, List.append_assoc]

/-- The system before the first key and the first read. -/
def quiet (memory : Nat → U32) : System := ⟨poweredOn memory, .idle⟩

theorem quiet_owed (memory : Nat → U32) : Owed (quiet memory) [] :=
  .idle (poweredOn_holding memory)

/-- If no key is queued in an exposed state, the keys returned are the first ones queued,
and between two reads the queue holds all the others. -/
theorem returned_in_order {memory : Nat → U32} {events : List Event} {t : System}
    (run : Run (Guarded Sheltered Step) (quiet memory) events t) :
    events.flatMap Event.returned <+: events.flatMap Event.queued ∧
      (t.reader = .idle → ∃ pending, Holding t.keyboard pending ∧
        events.flatMap Event.queued = events.flatMap Event.returned ++ pending) := by
  obtain ⟨rest, owed, hsame⟩ := run_owed run (quiet_owed memory)
  rw [List.nil_append] at hsame
  refine ⟨⟨rest, hsame.symm⟩, fun hidle => ?_⟩
  cases owed with
  | idle hold => exact ⟨rest, hold, hsame⟩
  | nonempty => cases hidle
  | loop => cases hidle
  | done => cases hidle
  | decrement => cases hidle

section Play

variable (guard : System → Event → Prop) [∀ s e, Decidable (guard s e)]

/-- A schedule names the scancodes that come in, and the steps of the reader between them. -/
def play (s : System) : List (Option U32) → Option (List Event × System)
  | [] => some ([], s)
  | some scancode :: schedule => do
    let k ← s.keyboard.ps2KeyboardEnqueue scancode
    let event := Event.key scancode (accepts s.keyboard scancode)
    if guard s event then
      let (events, t) ← play { s with keyboard := k } schedule
      return (event :: events, t)
    else none
  | none :: schedule => do
    let event := Event.read 0 (s.read 0).1
    if guard s event then
      let (events, t) ← play (s.read 0).2 schedule
      return (event :: events, t)
    else none

theorem play_run {schedule : List (Option U32)} {s t : System} {events : List Event}
    (h : play guard s schedule = some (events, t)) : Run (Guarded guard Step) s events t := by
  induction schedule generalizing s events with
  | nil =>
    obtain ⟨rfl, rfl⟩ := Prod.mk.inj (Option.some.inj h)
    exact .nil _
  | cons turn schedule ih =>
    cases turn with
    | none =>
      simp only [play, Option.bind_eq_bind, Option.ite_none_right_eq_some] at h
      obtain ⟨allowed, h⟩ := h
      obtain ⟨⟨rest, t'⟩, hplay, hend⟩ := Option.bind_eq_some_iff.mp h
      obtain ⟨rfl, rfl⟩ := Prod.mk.inj (Option.some.inj hend)
      exact .cons ⟨allowed, .read s 0⟩ (ih hplay)
    | some scancode =>
      simp only [play, Option.bind_eq_bind] at h
      obtain ⟨k, henq, h⟩ := Option.bind_eq_some_iff.mp h
      simp only [Option.ite_none_right_eq_some] at h
      obtain ⟨allowed, h⟩ := h
      obtain ⟨⟨rest, t'⟩, hplay, hend⟩ := Option.bind_eq_some_iff.mp h
      obtain ⟨rfl, rfl⟩ := Prod.mk.inj (Option.some.inj hend)
      exact .cons ⟨allowed, .key henq⟩ (ih hplay)

/-- The keys returned and queued along a schedule. -/
def account (schedule : List (Option U32)) : Option (List U32 × List U32) :=
  (play guard (quiet fun _ => 0) schedule).map fun (events, _) =>
    (events.flatMap Event.returned, events.flatMap Event.queued)

theorem account_run {schedule : List (Option U32)} {returned queued : List U32}
    (h : account guard schedule = some (returned, queued)) :
    ∃ events t, Run (Guarded guard Step) (quiet fun _ => 0) events t ∧
      events.flatMap Event.returned = returned ∧ events.flatMap Event.queued = queued := by
  obtain ⟨⟨events, t⟩, hplay, hend⟩ := Option.map_eq_some_iff.mp h
  obtain ⟨hret, hqueued⟩ := Prod.mk.inj hend
  exact ⟨events, t, play_run guard hplay, hret, hqueued⟩

end Play

/-- A key that comes before the loop is through. -/
theorem early_key_kept : ∃ events t,
    Run (Guarded Sheltered Step) (quiet fun _ => 0) events t ∧
    events.flatMap Event.returned = [0x61] ∧
    events.flatMap Event.returned <+: events.flatMap Event.queued := by
  have h : account Sheltered [some 0x9e, none, none, some 0xb0, none, none, none, none, none] =
      some ([0x61], [0x61, 0x62]) := by decide +kernel
  obtain ⟨events, t, run, hret, _⟩ := account_run Sheltered h
  exact ⟨events, t, run, hret, (returned_in_order run).1⟩

/-- Fewer than 256 keys are pending. -/
def Roomy (s : System) (_ : Event) : Prop := s.keyboard.queueTail < kbQueueSize

instance (s : System) (event : Event) : Decidable (Roomy s event) :=
  inferInstanceAs (Decidable (_ < _))

/-- The B key comes in right after the loop has moved the only key, the A key. The next
read returns what the slot behind it held. -/
theorem late_key_lost : ¬ ∀ (events : List Event) (t : System),
    Run (Guarded Roomy Step) (quiet fun _ => 0) events t →
      events.flatMap Event.returned <+: events.flatMap Event.queued := by
  intro all
  have h : account Roomy [some 0x9e, none, none, none, none, some 0xb0, none, none, none, none,
      none, none, none, none] = some ([0x61, 0], [0x61, 0x62]) := by decide +kernel
  obtain ⟨events, t, run, hret, hqueued⟩ := account_run Roomy h
  have hprefix := all events t run
  rw [hret, hqueued] at hprefix
  exact absurd hprefix (by decide)

end KeyboardInterrupts
