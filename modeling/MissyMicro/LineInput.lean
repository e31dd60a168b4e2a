import MissyMicro.LibcString
import MissyMicro.Ps2Keyboard
import MissyMicro.Terminal

/-!
# Reading a line

`kernel_tty_read` stores its first key before it looks at it, and its backspace takes
one off a count that may be zero. A line is read as it was typed unless one of the two
shows: the first key is Enter or Backspace, or Backspace meets an empty line. A key whose
low byte is zero, such as Tab, ends the text of the buffer where it stands.
-/

namespace LineInput

open LibcString Ps2Keyboard Terminal

universe u v

/-- `buf` gives the byte at an offset from the buffer; addresses wrap, so offset -1 is
`0xffffffff`. `count` is signed, but `count < len` compares it as unsigned. `stores` is a
ghost record, latest first, of the offsets at which `buf` was written. -/
structure Console where
  screen : Screen
  buf : U32 → BitVec 8
  count : U32
  stores : List U32

namespace Console

def print (s : Console) (i : U32) : Console := { s with screen := s.screen.terminalPrintchar i }

/-- `buf[count] = c`. -/
def store (s : Console) (c : BitVec 8) : Console :=
  { s with buf := Function.update s.buf s.count c, stores := s.count :: s.stores }

/-- `buf[count++] = i`. -/
def append (s : Console) (i : U32) : Console :=
  { s.store (i.setWidth 8) with count := s.count + 1 }

def back (s : Console) : Console := { s with count := s.count - 1 }

def terminate (s : Console) : Console := s.store 0

end Console

/-- The loop. The list is what the next calls of `ps2_keyb_getbyte` return; where it ends
the read still waits. On -1 the inner loop calls again. -/
def readLoop (len : U32) (s : Console) : List U32 → Option (Console × List U32)
  | [] => if s.count < len then none else some (s, [])
  | i :: rest =>
    if s.count < len then
      if i = noKey then readLoop len s rest
      else if i = 0x0d then some (s, rest)
      else if i = 0x08 then readLoop len (s.back.print i) rest
      else readLoop len ((s.append i).print i) rest
    else some (s, i :: rest)

/-- The returned value is the `count` of the state after, and the list is what has not
been read. -/
def kernelTtyRead (s : Console) (len : U32) : List U32 → Option (Console × List U32)
  | [] => none
  | i :: rest =>
    if i = noKey then kernelTtyRead s len rest
    else
      (readLoop len (({ s with count := 0 }.append i).print i) rest).map fun r =>
        (r.1.terminate, r.2)

/-- Enter ends the line, and so does the last character that fits; Backspace takes the
last character off, if there is one. -/
def typed (len : Nat) (text : List (BitVec 8)) : List U32 → Option (List (BitVec 8) × List U32)
  | [] => if text.length < len then none else some (text, [])
  | i :: rest =>
    if text.length < len then
      if i = noKey then typed len text rest
      else if i = 0x0d then some (text, rest)
      else if i = 0x08 then typed len text.dropLast rest
      else typed len (text ++ [i.setWidth 8]) rest
    else some (text, i :: rest)

/-- The read ends where the line ends, the buffer holds the line as a NUL-terminated string,
and the returned value is its length. -/
def Reads (out : Option (Console × List U32)) : Option (List (BitVec 8) × List U32) → Prop
  | none => out = none
  | some (text, rest) => ∃ t, out = some (t, rest) ∧ t.count = BitVec.ofNat 32 text.length ∧
      TextAt (fun (buf : U32 → BitVec 8) a => some (buf a)) t.buf 0 text

/-- The first `text.length` bytes of the buffer are the line. -/
structure Shows (s : Console) (text : List (BitVec 8)) : Prop where
  count : s.count = BitVec.ofNat 32 text.length
  buf : ∀ j (h : j < text.length), s.buf (BitVec.ofNat 32 j) = text[j]

/-- The read ends where the line ends, and leaves its bytes with a NUL behind them. -/
def Keeps (out : Option (Console × List U32)) : Option (List (BitVec 8) × List U32) → Prop
  | none => out = none
  | some (text, rest) => ∃ t, out = some (t, rest) ∧ Shows t text ∧
      t.buf (BitVec.ofNat 32 text.length) = 0

/-- From a line of `n` characters on, no Backspace meets an empty line. -/
def Plain (len n : Nat) : List U32 → Prop
  | [] => True
  | i :: rest =>
    if n < len then
      if i = noKey then Plain len n rest
      else if i = 0x0d then True
      else if i = 0x08 then 0 < n ∧ Plain len (n - 1) rest
      else Plain len (n + 1) rest
    else True

/-- With a Backspace stored in front of the line, another one takes it off again before
Enter and before the two together fill the buffer. -/
def Recovers (len n : Nat) : List U32 → Prop
  | [] => n + 1 < len
  | i :: rest =>
    if n + 1 < len then
      if i = noKey then Recovers len n rest
      else if i = 0x0d then False
      else if i = 0x08 then if n = 0 then Plain len 0 rest else Recovers len (n - 1) rest
      else Recovers len (n + 1) rest
    else False

/-- The first key is no Enter, and it is no Backspace or a second one makes up for it. -/
def Meets (len : Nat) : List U32 → Prop
  | [] => True
  | i :: rest =>
    if i = noKey then Meets len rest
    else if i = 0x0d then False
    else if i = 0x08 then Recovers len 0 rest
    else Plain len 1 rest

section Shows

variable {s : Console} {text : List (BitVec 8)}

theorem Shows.print (h : Shows s text) (i : U32) : Shows (s.print i) text := ⟨h.count, h.buf⟩

theorem ofNat_ne {j k : Nat} (hj : j < 2 ^ 32) (hk : k < 2 ^ 32) (h : j ≠ k) :
    BitVec.ofNat 32 j ≠ BitVec.ofNat 32 k := by
  intro heq
  have hnat := congrArg BitVec.toNat heq
  rw [BitVec.toNat_ofNat, BitVec.toNat_ofNat, Nat.mod_eq_of_lt hj, Nat.mod_eq_of_lt hk] at hnat
  exact h hnat

theorem Shows.append (h : Shows s text) (fits : text.length < 2 ^ 32) (i : U32) :
    Shows (s.append i) (text ++ [i.setWidth 8]) := by
  constructor
  · rw [List.length_append, BitVec.ofNat_add, ← h.count]
    rfl
  · intro j hj
    rw [List.length_append, List.length_singleton] at hj
    change Function.update s.buf s.count (i.setWidth 8) (BitVec.ofNat 32 j) = _
    rw [h.count]
    by_cases hlast : j = text.length
    · subst j
      simp
    · have hlt : j < text.length := by omega
      rw [Function.update_of_ne (ofNat_ne (by omega) fits hlast), List.getElem_append_left hlt]
      exact h.buf j hlt

theorem Shows.back (h : Shows s text) (nonempty : 0 < text.length) :
    Shows s.back text.dropLast := by
  constructor
  · change s.count - 1 = _
    have hone : BitVec.ofNat 32 1 = 1 := rfl
    have hlen : text.length = (text.length - 1) + 1 := by omega
    rw [h.count, List.length_dropLast]
    conv_lhs => rw [hlen, BitVec.ofNat_add, hone, BitVec.add_sub_cancel]
  · intro j hj
    rw [List.length_dropLast] at hj
    rw [List.getElem_dropLast]
    exact h.buf j (by omega)

theorem Shows.terminate (h : Shows s text) (fits : text.length < 2 ^ 32) :
    Shows s.terminate text ∧ s.terminate.buf (BitVec.ofNat 32 text.length) = 0 := by
  refine ⟨⟨h.count, fun j hj => ?_⟩, ?_⟩
  · change Function.update s.buf s.count 0 (BitVec.ofNat 32 j) = _
    rw [h.count, Function.update_of_ne (ofNat_ne (by omega) fits (Nat.ne_of_lt hj))]
    exact h.buf j hj
  · change Function.update s.buf s.count 0 _ = 0
    rw [h.count, Function.update_self]

/-- A buffer shows one line only. -/
theorem Shows.length_eq {other : List (BitVec 8)} (h : Shows s text) (h' : Shows s other)
    (fits : text.length < 2 ^ 32) (fits' : other.length < 2 ^ 32) :
    text.length = other.length := by
  by_contra hne
  exact ofNat_ne fits fits' hne (h.count.symm.trans h'.count)

theorem Shows.count_lt {len : U32} (h : Shows s text) (hle : text.length ≤ len.toNat) :
    s.count < len ↔ text.length < len.toNat := by
  have hlen := len.isLt
  rw [BitVec.lt_def, h.count, BitVec.toNat_ofNat, Nat.mod_eq_of_lt (by omega)]

end Shows

/-- A loop over the keys: while it goes on, a turn uses one key, and else it is left. -/
structure KeyLoop {σ : Type u} {α : Type v} (going : σ → Prop)
    (loop : σ → List U32 → Option (α × List U32)) : Prop where
  nil : ∀ s, loop s [] = none ∨ ¬ going s ∧ ∃ a, loop s [] = some (a, [])
  turn : ∀ s i rest, going s →
    (∃ a, loop s (i :: rest) = some (a, rest)) ∨ ∃ s', loop s (i :: rest) = loop s' rest
  left : ∀ s i rest, ¬ going s → ∃ a, loop s (i :: rest) = some (a, i :: rest)

theorem KeyLoop.uses {σ : Type u} {α : Type v} {going : σ → Prop}
    {loop : σ → List U32 → Option (α × List U32)} (h : KeyLoop going loop) {keys rest : List U32}
    {s : σ} {a : α} (hloop : loop s keys = some (a, rest)) :
    rest.length ≤ keys.length ∧ (going s → rest.length < keys.length) := by
  induction keys generalizing s with
  | nil =>
    rcases h.nil s with hnone | ⟨stopped, b, hsome⟩
    · rw [hnone] at hloop
      cases hloop
    · rw [hsome] at hloop
      cases hloop
      exact ⟨Nat.le_refl _, fun goes => absurd goes stopped⟩
  | cons i keys ih =>
    rw [List.length_cons]
    by_cases goes : going s
    · have used : rest.length ≤ keys.length := by
        rcases h.turn s i keys goes with ⟨b, hsome⟩ | ⟨s', hnext⟩
        · rw [hsome] at hloop
          cases hloop
          exact Nat.le_refl _
        · rw [hnext] at hloop
          exact (ih hloop).1
      exact ⟨by omega, fun _ => by omega⟩
    · obtain ⟨b, hsome⟩ := h.left s i keys goes
      rw [hsome] at hloop
      cases hloop
      exact ⟨Nat.le_refl _, fun goes' => absurd goes' goes⟩

/-- A loop that tells the keys apart as `kernel_tty_read` does. -/
theorem keyLoop_of_branches {σ : Type u} {going : σ → Prop} [DecidablePred going]
    {loop : σ → List U32 → Option (σ × List U32)} {back char : σ → U32 → σ}
    (nil : ∀ s, loop s [] = if going s then none else some (s, []))
    (cons : ∀ s i rest, loop s (i :: rest) =
      if going s then
        if i = noKey then loop s rest
        else if i = 0x0d then some (s, rest)
        else if i = 0x08 then loop (back s i) rest
        else loop (char s i) rest
      else some (s, i :: rest)) : KeyLoop going loop := by
  constructor
  · intro s
    rw [nil]
    split
    · exact Or.inl rfl
    · rename_i full
      exact Or.inr ⟨full, s, rfl⟩
  · intro s i rest goes
    rw [cons, if_pos goes]
    split
    · exact Or.inr ⟨_, rfl⟩
    · split
      · exact Or.inl ⟨_, rfl⟩
      · split
        · exact Or.inr ⟨_, rfl⟩
        · exact Or.inr ⟨_, rfl⟩
  · intro s i rest full
    rw [cons, if_neg full]
    exact ⟨s, rfl⟩

theorem typed_loop (len : Nat) : KeyLoop (fun text => text.length < len) (typed len) :=
  @keyLoop_of_branches _ _ _ _ (fun text _ => text.dropLast) (fun text i => text ++ [i.setWidth 8])
    (fun _ => rfl) fun _ _ _ => rfl

theorem readLoop_loop (len : U32) : KeyLoop (fun s : Console => s.count < len) (readLoop len) :=
  @keyLoop_of_branches _ _ _ _ (fun s i => s.back.print i) (fun s i => (s.append i).print i)
    (fun _ => rfl) fun _ _ _ => rfl

/-- Once the count is not below `len` the loop is left at once. -/
theorem readLoop_full {len : U32} {s : Console} (full : ¬ s.count < len) (keys : List U32) :
    readLoop len s keys = some (s, keys) := by
  cases keys with
  | nil => exact if_neg full
  | cons i keys => exact if_neg full

/-- What is left of a read once its loop ends. -/
def finish (out : Option (Console × List U32)) : Option (Console × List U32) :=
  out.map fun r => (r.1.terminate, r.2)

/-- A loop that is left with all its keys has not read a line that uses one of them. -/
theorem not_keeps_full {len : U32} {n : Nat} {s : Console} {keys left : List U32}
    {text : List (BitVec 8)} (full : ¬ s.count < len) (hn : text.length < n)
    (h : left.length ≤ keys.length) :
    ¬ Keeps (finish (readLoop len s keys)) (typed n text left) := by
  rw [readLoop_full full]
  intro keeps
  cases htyped : typed n text left with
  | none =>
    rw [htyped] at keeps
    cases keeps
  | some r =>
    rw [htyped] at keeps
    obtain ⟨t, heq, -⟩ := keeps
    have hused := ((typed_loop n).uses htyped).2 hn
    rw [finish, Option.map_some, Option.some.injEq, Prod.mk.injEq] at heq
    have hkeys : keys = _ := heq.2
    rw [← hkeys] at hused
    omega

/-- A loop that finds its line full. -/
theorem keeps_full {len : U32} {s : Console} {text : List (BitVec 8)} (h : Shows s text)
    (fits : text.length < 2 ^ 32) (full : ¬ s.count < len) (keys : List U32) :
    Keeps (finish (readLoop len s keys)) (some (text, keys)) := by
  rw [readLoop_full full]
  exact ⟨s.terminate, rfl, h.terminate fits⟩

/-- While the buffer shows the line typed so far, the read comes out right exactly when no
Backspace meets an empty line. -/
theorem plain_iff {len : U32} (hlen : 2 ≤ len.toNat) (keys : List U32) {s : Console}
    {text : List (BitVec 8)} (h : Shows s text) (hle : text.length ≤ len.toNat) :
    Keeps (finish (readLoop len s keys)) (typed len.toNat text keys) ↔
      Plain len.toNat text.length keys := by
  have hbound := len.isLt
  have hcount := h.count_lt hle
  induction keys generalizing s text with
  | nil =>
    rw [typed, Plain, iff_true]
    by_cases hlt : text.length < len.toNat
    · rw [if_pos hlt, readLoop, if_pos (hcount.mpr hlt)]
      rfl
    · rw [if_neg hlt]
      exact keeps_full h (by omega) (mt hcount.mp hlt) []
  | cons i keys ih =>
    rw [typed, Plain]
    by_cases hlt : text.length < len.toNat
    · rw [if_pos hlt, if_pos hlt, readLoop, if_pos (hcount.mpr hlt)]
      by_cases hwait : i = noKey
      · rw [if_pos hwait, if_pos hwait, if_pos hwait]
        exact ih h hle hcount
      · rw [if_neg hwait, if_neg hwait, if_neg hwait]
        by_cases henter : i = 0x0d
        · rw [if_pos henter, if_pos henter, if_pos henter, iff_true]
          exact ⟨s.terminate, rfl, h.terminate (by omega)⟩
        · rw [if_neg henter, if_neg henter, if_neg henter]
          by_cases hback : i = 0x08
          · rw [if_pos hback, if_pos hback, if_pos hback]
            by_cases hempty : text = []
            · subst hempty
              have hfull : ¬ (s.back.print i).count < len := by
                have hzero : s.count = 0 := h.count
                change ¬ s.count - 1 < len
                rw [hzero, BitVec.lt_def]
                change ¬ 4294967295 < len.toNat
                omega
              constructor
              · intro keeps
                exact absurd keeps (not_keeps_full hfull hlt (Nat.le_refl _))
              · exact fun plain => absurd plain.1 (Nat.lt_irrefl 0)
            · have hpos := List.length_pos_of_ne_nil hempty
              have h' := (h.back hpos).print i
              have hshort : text.dropLast.length = text.length - 1 := List.length_dropLast
              have hle' : text.dropLast.length ≤ len.toNat := by omega
              have hnext := ih h' hle' (h'.count_lt hle')
              rw [hshort] at hnext
              exact hnext.trans ⟨fun plain => ⟨hpos, plain⟩, And.right⟩
          · rw [if_neg hback, if_neg hback, if_neg hback]
            have h' := (h.append (by omega) i).print i
            have hlong : (text ++ [i.setWidth 8]).length = text.length + 1 := by
              rw [List.length_append, List.length_singleton]
            have hle' : (text ++ [i.setWidth 8]).length ≤ len.toNat := by omega
            have hnext := ih h' hle' (h'.count_lt hle')
            rw [hlong] at hnext
            exact hnext
    · rw [if_neg hlt, if_neg hlt, iff_true]
      exact keeps_full h (by omega) (mt hcount.mp hlt) (i :: keys)

/-- With a Backspace stored in front of the line, the read comes out right exactly when a
further one takes it off in time. -/
theorem recovers_iff {len : U32} (hlen : 2 ≤ len.toNat) (keys : List U32) {s : Console}
    {text : List (BitVec 8)} (h : Shows s (0x08 :: text)) (hle : text.length + 1 ≤ len.toNat) :
    Keeps (finish (readLoop len s keys)) (typed len.toNat text keys) ↔
      Recovers len.toNat text.length keys := by
  have hbound := len.isLt
  have hcount := h.count_lt hle
  rw [List.length_cons] at hcount
  induction keys generalizing s text with
  | nil =>
    by_cases hlt : text.length + 1 < len.toNat
    · rw [typed, Recovers, if_pos (by omega), readLoop, if_pos (hcount.mpr hlt)]
      exact iff_of_true rfl hlt
    · rw [Recovers]
      exact iff_of_false (not_keeps_full (mt hcount.mp hlt) (by omega) (Nat.le_refl _)) hlt
  | cons i keys ih =>
    by_cases hlt : text.length + 1 < len.toNat
    · rw [typed, Recovers, if_pos (by omega), if_pos hlt, readLoop, if_pos (hcount.mpr hlt)]
      by_cases hwait : i = noKey
      · rw [if_pos hwait, if_pos hwait, if_pos hwait]
        exact ih h hle hcount
      · rw [if_neg hwait, if_neg hwait, if_neg hwait]
        by_cases henter : i = 0x0d
        · rw [if_pos henter, if_pos henter, if_pos henter]
          refine iff_of_false ?_ id
          rintro ⟨t, heq, shows, -⟩
          cases heq
          have hbound' : (0x08 :: text : List (BitVec 8)).length < 2 ^ 32 := by
            rw [List.length_cons]
            omega
          have hshort := (h.terminate hbound').1.length_eq shows hbound' (by omega)
          rw [List.length_cons] at hshort
          omega
        · rw [if_neg henter, if_neg henter, if_neg henter]
          by_cases hback : i = 0x08
          · rw [if_pos hback, if_pos hback, if_pos hback]
            have h' := (h.back (Nat.succ_pos _)).print i
            by_cases hempty : text = []
            · subst hempty
              rw [if_pos List.length_nil]
              exact plain_iff hlen keys h' (Nat.zero_le _)
            · have hpos := List.length_pos_of_ne_nil hempty
              have hshort : text.dropLast.length = text.length - 1 := List.length_dropLast
              rw [List.dropLast_cons_of_ne_nil hempty] at h'
              have hnext := ih h' (by omega) (h'.count_lt (by rw [List.length_cons]; omega))
              rw [hshort] at hnext
              rw [if_neg (Nat.ne_of_gt hpos)]
              exact hnext
          · rw [if_neg hback, if_neg hback, if_neg hback]
            have h' := (h.append (by rw [List.length_cons]; omega) i).print i
            rw [List.cons_append] at h'
            have hlong : (text ++ [i.setWidth 8]).length = text.length + 1 := by
              rw [List.length_append, List.length_singleton]
            have hnext := ih h' (by omega) (h'.count_lt (by rw [List.length_cons]; omega))
            rw [hlong] at hnext
            exact hnext
    · rw [Recovers, if_neg hlt]
      refine iff_of_false (not_keeps_full (mt hcount.mp hlt) (by omega) (Nat.le_refl _)) id

/-- The bytes are kept as they were typed exactly when neither slip shows. -/
theorem line_kept_iff (s : Console) (len : U32) (hlen : 2 ≤ len.toNat) (keys : List U32) :
    Keeps (kernelTtyRead s len keys) (typed len.toNat [] keys) ↔ Meets len.toNat keys := by
  have hbound := len.isLt
  have hempty : ([] : List (BitVec 8)).length < len.toNat := by
    change 0 < len.toNat
    omega
  induction keys with
  | nil =>
    rw [typed, if_pos hempty]
    exact iff_of_true rfl trivial
  | cons i keys ih =>
    rw [kernelTtyRead, typed, Meets, if_pos hempty]
    by_cases hwait : i = noKey
    · rw [if_pos hwait, if_pos hwait, if_pos hwait]
      exact ih
    · rw [if_neg hwait, if_neg hwait, if_neg hwait]
      have start : Shows { s with count := 0 } [] :=
        ⟨rfl, fun j hj => absurd hj (Nat.not_lt_zero j)⟩
      have first := (start.append (by omega) i).print i
      have hfirst : (([] : List (BitVec 8)) ++ [i.setWidth 8]).length ≤ len.toNat := by
        change 1 ≤ len.toNat
        omega
      by_cases henter : i = 0x0d
      · rw [if_pos henter, if_pos henter]
        refine iff_of_false ?_ id
        rintro ⟨t, heq, -⟩
        obtain ⟨r, hr, hpair⟩ := Option.map_eq_some_iff.mp heq
        have hrest : r.2 = keys := congrArg Prod.snd hpair
        have hused := ((readLoop_loop len).uses hr).2 ((first.count_lt hfirst).mpr hlen)
        rw [hrest] at hused
        exact Nat.lt_irrefl _ hused
      · rw [if_neg henter, if_neg henter]
        by_cases hback : i = 0x08
        · subst hback
          rw [if_pos rfl, if_pos rfl]
          exact recovers_iff hlen keys first hfirst
        · rw [if_neg hback, if_neg hback]
          exact plain_iff hlen keys first hfirst

/-- What is kept is a text if no character of it is zero. -/
theorem reads_iff_keeps (out : Option (Console × List U32))
    (line : Option (List (BitVec 8) × List U32)) :
    Reads out line ↔ Keeps out line ∧ ∀ text rest, line = some (text, rest) → ∀ c ∈ text, c ≠ 0 := by
  cases line with
  | none => exact ⟨fun waits => ⟨waits, fun _ _ h => absurd h.symm (Option.some_ne_none _)⟩, And.left⟩
  | some line =>
    obtain ⟨text, rest⟩ := line
    have address (j : Nat) : (0 : U32) + BitVec.ofNat 32 j = BitVec.ofNat 32 j := BitVec.zero_add _
    constructor
    · rintro ⟨t, rfl, count, spelled⟩
      refine ⟨⟨t, rfl, ⟨count, fun j hj => ?_⟩, ?_⟩, fun text' rest' same => ?_⟩
      · rw [← address]
        exact Option.some.inj (spelled.load_at hj)
      · rw [← address]
        exact Option.some.inj spelled.nul
      · cases same
        exact spelled.chars
    · rintro ⟨⟨t, rfl, shows, nul⟩, chars⟩
      refine ⟨t, rfl, shows.count, textAt_of_load (fun j hj => ?_) (chars text rest rfl) ?_⟩
      · rw [address]
        exact congrArg some (shows.buf j hj)
      · rw [address]
        exact congrArg some nul

/-- No character that stays in the line has a low byte of zero. -/
def Spellable (len : Nat) (keys : List U32) : Prop :=
  ∀ text rest, typed len [] keys = some (text, rest) → ∀ c ∈ text, c ≠ 0

/-- The line is read as it was typed exactly when neither slip shows and the line is a text. -/
theorem line_read_iff (s : Console) (len : U32) (hlen : 2 ≤ len.toNat) (keys : List U32) :
    Reads (kernelTtyRead s len keys) (typed len.toNat [] keys) ↔
      Meets len.toNat keys ∧ Spellable len.toNat keys := by
  rw [reads_iff_keeps, line_kept_iff s len hlen, Spellable]

/-- `a`, Tab, `b` and Enter. -/
example : ¬ Spellable 255 [0x61, 0x4000, 0x62, 0x0d] := by
  intro spellable
  exact absurd rfl (spellable [0x61, 0, 0x62] [] (by simp [typed, noKey]) 0 (by decide))

/-- A cleared screen and a buffer of zeros. -/
def blankConsole : Console := ⟨cleared fun _ => 0, fun _ => 0, 0, []⟩

/-- No key, then `h`, `i`, a `j` that is taken back, and Enter. -/
theorem two_letters_read :
    Reads (kernelTtyRead blankConsole 255 [noKey, 0x68, 0x69, 0x6a, noKey, 0x08, 0x0d])
      (typed 255 [] [noKey, 0x68, 0x69, 0x6a, noKey, 0x08, 0x0d]) := by
  have meets : Meets 255 [noKey, 0x68, 0x69, 0x6a, noKey, 0x08, 0x0d] := by
    simp [Meets, Plain, noKey]
  have line : typed 255 [] [noKey, 0x68, 0x69, 0x6a, noKey, 0x08, 0x0d] =
      some ([0x68, 0x69], []) := by
    simp [typed, noKey]
  refine (line_read_iff blankConsole 255 (by decide) _).mpr ⟨meets, fun text rest typed => ?_⟩
  cases line.symm.trans typed
  decide

/-- The first key is Enter. -/
theorem first_enter_missed : ¬ ∀ (s : Console) (len : U32), 2 ≤ len.toNat → ∀ keys : List U32,
    Reads (kernelTtyRead s len keys) (typed len.toNat [] keys) := by
  intro all
  have reads := all blankConsole 255 (by decide) [0x0d]
  have meets := ((reads_iff_keeps _ _).mp reads).1
  rw [line_kept_iff _ 255 (by decide)] at meets
  simp [Meets, noKey] at meets

end LineInput
