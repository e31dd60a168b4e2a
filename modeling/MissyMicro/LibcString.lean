import MissyMicro.Words
import Mathlib.Logic.Function.Basic

/-!
# Memory functions of the C library

The functions work on any memory in which a byte can be stored, and a store may
fault.
-/

namespace LibcString

universe u v

variable {M : Type u}

/-- The pointer `d` stays at `dst`: every turn stores to the same byte. -/
def memset (store : M → U32 → BitVec 8 → Option M) (m : M) (dst val : U32) : Nat → Option M
  | 0 => some m
  | n + 1 => (store m dst (val.setWidth 8)).bind fun m => memset store m dst val n

/-- Stores that repeat themselves collapse to the first one. -/
theorem memset_once {store : M → U32 → BitVec 8 → Option M} {m m' : M} {dst val : U32}
    (first : store m dst (val.setWidth 8) = some m')
    (again : store m' dst (val.setWidth 8) = some m') (n : Nat) :
    memset store m dst val (n + 1) = some m' := by
  have rest (k : Nat) : memset store m' dst val k = some m' := by
    induction k with
    | zero => rfl
    | succ k ih => rw [memset, again, Option.bind_some, ih]
  rw [memset, first, Option.bind_some, rest]

/-- Whatever a store does not change, none of them changes. -/
theorem memset_keeps {α : Type*} {store : M → U32 → BitVec 8 → Option M} {dst val : U32}
    {view : M → α} (one : ∀ m m', store m dst (val.setWidth 8) = some m' → view m' = view m)
    {n : Nat} {m m' : M} (h : memset store m dst val n = some m') : view m' = view m := by
  induction n generalizing m with
  | zero =>
    cases h
    rfl
  | succ n ih =>
    obtain ⟨m₁, first, rest⟩ := Option.bind_eq_some_iff.mp h
    exact (ih rest).trans (one _ _ first)

def memcpy (load : M → U32 → Option (BitVec 8)) (store : M → U32 → BitVec 8 → Option M)
    (m : M) (dst src : U32) : Nat → Option M
  | 0 => some m
  | n + 1 => (load m src).bind fun c => (store m dst c).bind fun m =>
    memcpy load store m (dst + 1) (src + 1) n

/-- The two blocks may lie in different memories. Both pointers have moved on when the difference
is taken. -/
def memcmp (load load' : U32 → Option (BitVec 8)) (s1 s2 : U32) : Nat → Option Int
  | 0 => some 0
  | n + 1 => (load s1).bind fun c => (load' s2).bind fun d =>
    if c ≠ d then
      (load (s1 + 1)).bind fun c => (load' (s2 + 1)).map fun d => (c.toNat : Int) - d.toNat
    else memcmp load load' (s1 + 1) (s2 + 1) n

/-- The value is one more than the number of characters: the loop steps over the NUL before
it ends. The fuel is the number of addresses, after which the pointer is back at `s`. -/
def strlenFrom (load : M → U32 → Option (BitVec 8)) (m : M) (s : U32) : Nat → Option U32
  | 0 => none
  | n + 1 => (load m s).bind fun c =>
    if c = 0 then some 1 else (strlenFrom load m (s + 1) n).map (· + 1)

def strlen (load : M → U32 → Option (BitVec 8)) (m : M) (s : U32) : Option U32 :=
  strlenFrom load m s (2 ^ 32)

/-- The second loop of `strncpy`. -/
def pad (store : M → U32 → BitVec 8 → Option M) (m : M) (dst : U32) : Nat → Option M
  | 0 => some m
  | n + 1 => (store m dst 0).bind fun m => pad store m (dst + 1) n

def strncpy (load : M → U32 → Option (BitVec 8)) (store : M → U32 → BitVec 8 → Option M)
    (m : M) (dst src : U32) : Nat → Option M
  | 0 => some m
  | n + 1 => (load m src).bind fun c =>
    if c = 0 then pad store m dst (n + 1)
    else (store m dst c).bind fun m => strncpy load store m (dst + 1) (src + 1) n

def strcpy (load : M → U32 → Option (BitVec 8)) (store : M → U32 → BitVec 8 → Option M)
    (m : M) (dst src : U32) : Option M :=
  (strlen load m src).bind fun len => strncpy load store m dst src len.toNat

/-- The two strings may lie in different memories. Both characters are read once more when
`len` is used up. -/
def strncmp (load load' : U32 → Option (BitVec 8)) (s1 s2 : U32) : Nat → Option Int
  | 0 => (load s1).bind fun _ => (load' s2).map fun _ => 0
  | len + 1 => (load s1).bind fun c => (load' s2).bind fun d =>
    if c = d then
      if c = 0 then some 0 else strncmp load load' (s1 + 1) (s2 + 1) len
    else some (c.toInt - d.toInt)

/-- After as many turns as there are addresses both pointers are back at the start. -/
def strcmpFrom (load load' : U32 → Option (BitVec 8)) (s1 s2 : U32) : Nat → Option Int
  | 0 => none
  | n + 1 => (load s1).bind fun c => (load' s2).bind fun d =>
    if c = d then
      if c = 0 then some 0 else strcmpFrom load load' (s1 + 1) (s2 + 1) n
    else some (c.toInt - d.toInt)

def strcmp (load load' : U32 → Option (BitVec 8)) (s1 s2 : U32) : Option Int :=
  strcmpFrom load load' s1 s2 (2 ^ 32)

/-- At `s` stand `n` characters and a NUL. -/
def StringAt (load : M → U32 → Option (BitVec 8)) (m : M) (s : U32) (n : Nat) : Prop :=
  (∀ k < n, ∃ c, load m (s + BitVec.ofNat 32 k) = some c ∧ c ≠ 0) ∧
    load m (s + BitVec.ofNat 32 n) = some 0

theorem add_ofNat_succ (s : U32) (k : Nat) :
    s + BitVec.ofNat 32 (k + 1) = s + 1 + BitVec.ofNat 32 k := by
  rw [Nat.add_comm k 1, BitVec.ofNat_add, BitVec.add_assoc]
  rfl

theorem zero_add_ofNat {k : Nat} (hk : k < 2 ^ 32) : ((0 : U32) + BitVec.ofNat 32 k).toNat = k :=
  (congrArg BitVec.toNat (BitVec.zero_add _)).trans (Nat.mod_eq_of_lt hk)

theorem add_ofNat_zero (s : U32) : s + BitVec.ofNat 32 0 = s := BitVec.add_zero s

theorem index_toNat (s : U32) {k : Nat} (hk : k < 2 ^ 32) :
    (s + BitVec.ofNat 32 k - s).toNat = k := by
  rw [BitVec.add_comm, BitVec.add_sub_cancel, BitVec.toNat_ofNat, Nat.mod_eq_of_lt hk]

/-- Different indices are different addresses. -/
theorem add_ofNat_inj {s : U32} {j k : Nat} (hj : j < 2 ^ 32) (hk : k < 2 ^ 32)
    (same : s + BitVec.ofNat 32 j = s + BitVec.ofNat 32 k) : j = k := by
  have index := index_toNat s hj
  rw [same, index_toNat s hk] at index
  exact index.symm

theorem add_index (s a : U32) : s + BitVec.ofNat 32 (a - s).toNat = a := by
  have index : BitVec.ofNat 32 (a - s).toNat = a - s := BitVec.eq_of_toNat_eq
    ((BitVec.toNat_ofNat _ _).trans (Nat.mod_eq_of_lt (a - s).isLt))
  rw [index, BitVec.add_comm, BitVec.sub_add_cancel]

section StringAt

variable {load : M → U32 → Option (BitVec 8)} {m : M}

theorem StringAt.head {s : U32} {n : Nat} (h : StringAt load m s (n + 1)) :
    ∃ c, load m s = some c ∧ c ≠ 0 := by
  have hhead := h.1 0 (Nat.succ_pos n)
  rw [add_ofNat_zero] at hhead
  exact hhead

theorem StringAt.tail {s : U32} {n : Nat} (h : StringAt load m s (n + 1)) :
    StringAt load m (s + 1) n := by
  constructor
  · intro k hk
    rw [← add_ofNat_succ]
    exact h.1 (k + 1) (Nat.succ_lt_succ hk)
  · rw [← add_ofNat_succ]
    exact h.2

theorem StringAt.nul {s : U32} (h : StringAt load m s 0) : load m s = some 0 := by
  have hend := h.2
  rw [add_ofNat_zero] at hend
  exact hend

theorem strlenFrom_eq {n fuel : Nat} {s : U32} (h : StringAt load m s n) (enough : n < fuel) :
    strlenFrom load m s fuel = some (BitVec.ofNat 32 (n + 1)) := by
  induction n generalizing s fuel with
  | zero =>
    obtain ⟨fuel, rfl⟩ := Nat.exists_eq_succ_of_ne_zero (Nat.ne_of_gt enough)
    rw [strlenFrom, h.nul, Option.bind_some, if_pos rfl]
    rfl
  | succ n ih =>
    obtain ⟨fuel, rfl⟩ := Nat.exists_eq_succ_of_ne_zero (Nat.ne_of_gt (Nat.lt_of_le_of_lt
      (Nat.zero_le _) enough))
    obtain ⟨c, hload, hc⟩ := h.head
    rw [strlenFrom, hload, Option.bind_some, if_neg hc, ih h.tail (Nat.lt_of_succ_lt_succ enough),
      Option.map_some, BitVec.ofNat_add (n + 1) 1]
    rfl

theorem strlen_eq {n : Nat} {s : U32} (h : StringAt load m s n) (hn : n < 2 ^ 32) :
    strlen load m s = some (BitVec.ofNat 32 (n + 1)) :=
  strlenFrom_eq h hn

end StringAt

/-- At `s` stand the characters of the text and a NUL. -/
def TextAt (load : M → U32 → Option (BitVec 8)) (m : M) : U32 → List (BitVec 8) → Prop
  | s, [] => load m s = some 0
  | s, c :: text => load m s = some c ∧ c ≠ 0 ∧ TextAt load m (s + 1) text

section TextAt

variable {load : M → U32 → Option (BitVec 8)} {m : M} {s : U32} {text : List (BitVec 8)}

theorem TextAt.chars (h : TextAt load m s text) : ∀ c ∈ text, c ≠ 0 := by
  induction text generalizing s with
  | nil => exact fun c hc => absurd hc List.not_mem_nil
  | cons d text ih =>
    obtain ⟨_, hd, rest⟩ := h
    intro c hc
    rcases List.mem_cons.mp hc with rfl | hc
    · exact hd
    · exact ih rest c hc

theorem TextAt.load_at (h : TextAt load m s text) {k : Nat} (hk : k < text.length) :
    load m (s + BitVec.ofNat 32 k) = some text[k] := by
  induction text generalizing s k with
  | nil => exact absurd hk (Nat.not_lt_zero k)
  | cons c text ih =>
    obtain ⟨first, _, rest⟩ := h
    cases k with
    | zero =>
      rw [add_ofNat_zero]
      exact first
    | succ k =>
      rw [add_ofNat_succ]
      exact ih rest (Nat.lt_of_succ_lt_succ hk)

theorem TextAt.nul (h : TextAt load m s text) :
    load m (s + BitVec.ofNat 32 text.length) = some 0 := by
  induction text generalizing s with
  | nil =>
    rw [List.length_nil, add_ofNat_zero]
    exact h
  | cons c text ih =>
    rw [List.length_cons, add_ofNat_succ]
    exact ih h.2.2

theorem TextAt.stringAt (h : TextAt load m s text) : StringAt load m s text.length := by
  refine ⟨fun k hk => ⟨text[k], h.load_at hk, ?_⟩, h.nul⟩
  exact h.chars _ (List.getElem_mem hk)

theorem textAt_of_load
    (chars : ∀ k (hk : k < text.length), load m (s + BitVec.ofNat 32 k) = some text[k])
    (nonzero : ∀ c ∈ text, c ≠ 0) (nul : load m (s + BitVec.ofNat 32 text.length) = some 0) :
    TextAt load m s text := by
  induction text generalizing s with
  | nil =>
    rw [List.length_nil, add_ofNat_zero] at nul
    exact nul
  | cons c text ih =>
    have first := chars 0 (Nat.zero_lt_succ _)
    rw [add_ofNat_zero] at first
    rw [List.length_cons, add_ofNat_succ] at nul
    refine ⟨first, nonzero c List.mem_cons_self, ih (fun k hk => ?_) ?_ nul⟩
    · rw [← add_ofNat_succ]
      exact chars (k + 1) (Nat.succ_lt_succ hk)
    · exact fun d hd => nonzero d (List.mem_cons_of_mem c hd)

/-- A list of bytes as a memory of its own. -/
theorem list_textAt (nonzero : ∀ c ∈ text, c ≠ 0) (short : text.length < 2 ^ 32) :
    TextAt (fun (str : List (BitVec 8)) (a : U32) => str[a.toNat]?) (text ++ [0]) 0 text := by
  refine textAt_of_load (fun k hk => ?_) nonzero ?_
  · rw [zero_add_ofNat (Nat.lt_trans hk short), List.getElem?_append_left hk,
      List.getElem?_eq_getElem hk]
  · rw [zero_add_ofNat short, List.getElem?_append_right (Nat.le_refl _), Nat.sub_self]
    rfl

/-- Addresses repeat after `2 ^ 32` characters. -/
theorem TextAt.length_lt (h : TextAt load m s text) : text.length < 2 ^ 32 := by
  by_contra long
  have hlt : text.length - 2 ^ 32 < text.length := by omega
  obtain ⟨c, hload, hc⟩ := h.stringAt.1 _ hlt
  have same : BitVec.ofNat 32 (text.length - 2 ^ 32) = BitVec.ofNat 32 text.length := by
    apply BitVec.eq_of_toNat_eq
    rw [BitVec.toNat_ofNat, BitVec.toNat_ofNat]
    omega
  rw [same, h.nul] at hload
  exact hc (Option.some.inj hload).symm

end TextAt

/-- Different characters have a difference. -/
theorem sub_toInt_ne_zero {c d : BitVec 8} (h : c ≠ d) : c.toInt - d.toInt ≠ 0 := by
  intro zero
  exact h (BitVec.eq_of_toInt_eq (Int.sub_eq_zero.mp zero))

/-- A string compared up to its NUL with a memory that can be read everywhere. -/
theorem strncmp_memory {load : M → U32 → Option (BitVec 8)} {m : M} {mem : U32 → BitVec 8}
    {s1 s2 : U32} {text : List (BitVec 8)} (h : TextAt load m s1 text) :
    ∃ diff, strncmp (load m) (fun a => some (mem a)) s1 s2 (text.length + 1) = some diff ∧
      (diff = 0 ↔ TextAt (fun mem a => some (mem a)) mem s2 text) := by
  induction text generalizing s1 s2 with
  | nil =>
    by_cases nul : 0 = mem s2
    · refine ⟨0, ?_, iff_of_true rfl (congrArg some nul.symm)⟩
      rw [List.length_nil, strncmp, h, Option.bind_some, Option.bind_some, if_pos nul, if_pos rfl]
    · refine ⟨(0 : BitVec 8).toInt - (mem s2).toInt, ?_, ?_⟩
      · rw [List.length_nil, strncmp, h, Option.bind_some, Option.bind_some, if_neg nul]
      · exact iff_of_false (sub_toInt_ne_zero nul) fun same => nul (Option.some.inj same).symm
  | cons c text ih =>
    obtain ⟨first, hc, rest⟩ := h
    by_cases same : c = mem s2
    · obtain ⟨diff, compared, equal⟩ := ih rest
      refine ⟨diff, ?_, equal.trans ?_⟩
      · rw [List.length_cons, strncmp, first, Option.bind_some, Option.bind_some, if_pos same,
          if_neg hc, compared]
      · exact ⟨fun behind => ⟨congrArg some same.symm, hc, behind⟩, fun whole => whole.2.2⟩
    · refine ⟨c.toInt - (mem s2).toInt, ?_, ?_⟩
      · rw [List.length_cons, strncmp, first, Option.bind_some, Option.bind_some, if_neg same]
      · refine iff_of_false (sub_toInt_ne_zero same) fun whole => ?_
        exact same (Option.some.inj whole.1).symm

/-- A copy of a string that is not stored over is a sequence of stores, one behind the other. -/
def storeAll (store : M → U32 → BitVec 8 → Option M) (m : M) (dst : U32) :
    List (BitVec 8) → Option M
  | [] => some m
  | c :: bytes => (store m dst c).bind fun m => storeAll store m (dst + 1) bytes

/-- The bytes that `strncpy` stores of a string: at most the string, and NULs behind it. -/
def copied (text : List (BitVec 8)) (n : Nat) : List (BitVec 8) :=
  (List.range n).map (text.getD · 0)

theorem copied_succ (text : List (BitVec 8)) (n : Nat) :
    copied text (n + 1) = text.headD 0 :: copied text.tail n := by
  rw [copied, List.range_succ_eq_map, List.map_cons, List.map_map, copied]
  cases text with
  | nil => rfl
  | cons c text => rfl

theorem copied_length (text : List (BitVec 8)) (n : Nat) : (copied text n).length = n := by
  rw [copied, List.length_map, List.length_range]

theorem copied_getD (text : List (BitVec 8)) {n k : Nat} (hk : k < n) (d : BitVec 8) :
    (copied text n).getD k d = text.getD k 0 := by
  simp [copied, hk]

section StoreAll

variable {store : M → U32 → BitVec 8 → Option M} {load : U32 → Option (BitVec 8)}

theorem pad_eq (m : M) (dst : U32) (n : Nat) :
    pad store m dst n = storeAll store m dst (copied [] n) := by
  induction n generalizing m dst with
  | zero => rfl
  | succ n ih =>
    rw [copied_succ, pad, storeAll]
    exact congrArg _ (funext fun m => ih m (dst + 1))

theorem strncpy_eq {src : U32} {text : List (BitVec 8)}
    (source : TextAt (fun _ : Unit => load) () src text) (m : M) (dst : U32) (n : Nat) :
    strncpy (fun _ => load) store m dst src n = storeAll store m dst (copied text n) := by
  induction n generalizing m dst src text with
  | zero => rfl
  | succ n ih =>
    cases text with
    | nil =>
      have nul : load src = some 0 := source
      rw [strncpy, nul, Option.bind_some, if_pos rfl, pad_eq]
    | cons c text =>
      obtain ⟨first, hc, rest⟩ := source
      have first : load src = some c := first
      rw [strncpy, first, Option.bind_some, if_neg hc, copied_succ, storeAll]
      exact congrArg _ (funext fun m => ih rest m (dst + 1))

/-- What every store keeps, all of them keep. -/
theorem storeAll_keeps {I : M → Prop}
    (stores : ∀ m m' a c, I m → store m a c = some m' → I m') {bytes : List (BitVec 8)} {m m' : M}
    {dst : U32} (inv : I m) (h : storeAll store m dst bytes = some m') : I m' := by
  induction bytes generalizing m dst with
  | nil => exact Option.some.inj h ▸ inv
  | cons c bytes ih =>
    obtain ⟨m₁, first, rest⟩ := Option.bind_eq_some_iff.mp h
    exact ih (stores _ _ _ _ inv first) rest

theorem strncpy_preserves {I : M → Prop}
    (stores : ∀ m m' a c, I m → store m a c = some m' → I m') {n : Nat} {m m' : M} {dst src : U32}
    (inv : I m) (h : strncpy (fun _ => load) store m dst src n = some m') : I m' := by
  induction n generalizing m dst src with
  | zero => exact Option.some.inj h ▸ inv
  | succ n ih =>
    obtain ⟨c, _, copied⟩ := Option.bind_eq_some_iff.mp h
    split at copied
    · rw [pad_eq] at copied
      exact storeAll_keeps stores inv copied
    · obtain ⟨m₁, first, rest⟩ := Option.bind_eq_some_iff.mp copied
      exact ih (stores _ _ _ _ inv first) rest

end StoreAll

section Relates
variable {R : M → M → Prop} {store : M → U32 → BitVec 8 → Option M}

theorem rel_bind {α : Type u} {β : Type v} {R : α → α → Prop} {Q : β → β → Prop} {x y : Option α}
    {f g : α → Option β} (h : Option.Rel R x y) (next : ∀ a b, R a b → Option.Rel Q (f a) (g b)) :
    Option.Rel Q (x.bind f) (y.bind g) := by
  cases h with
  | some related => exact next _ _ related
  | none => exact .none

theorem rel_map {α : Type u} {β : Type v} {R : α → α → Prop} {Q : β → β → Prop} {x y : Option α}
    {f g : α → β} (h : Option.Rel R x y) (next : ∀ a b, R a b → Q (f a) (g b)) :
    Option.Rel Q (x.map f) (y.map g) := by
  cases h with
  | some related => exact .some (next _ _ related)
  | none => exact .none

theorem pad_relates (stores : ∀ m m' a c, R m m' → Option.Rel R (store m a c) (store m' a c))
    {m m' : M} (related : R m m') (dst : U32) (n : Nat) :
    Option.Rel R (pad store m dst n) (pad store m' dst n) := by
  induction n generalizing m m' dst with
  | zero => exact .some related
  | succ n ih => exact rel_bind (stores _ _ dst 0 related) fun _ _ h => ih h (dst + 1)

/-- What every store respects, a copy respects. -/
theorem strncpy_relates {load : U32 → Option (BitVec 8)}
    (stores : ∀ m m' a c, R m m' → Option.Rel R (store m a c) (store m' a c)) {m m' : M}
    (related : R m m') (dst src : U32) (n : Nat) :
    Option.Rel R (strncpy (fun _ => load) store m dst src n)
      (strncpy (fun _ => load) store m' dst src n) := by
  induction n generalizing m m' dst src with
  | zero => exact .some related
  | succ n ih =>
    rw [strncpy, strncpy]
    cases load src with
    | none => exact .none
    | some c =>
      rw [Option.bind_some, Option.bind_some]
      split
      · exact pad_relates stores related dst (n + 1)
      · exact rel_bind (stores _ _ dst c related) fun _ _ h => ih h (dst + 1) (src + 1)

theorem strlen_state (load : U32 → Option (BitVec 8)) (m m' : M) (s : U32) :
    strlen (fun _ => load) m s = strlen (fun _ => load) m' s := by
  have from_state (n : Nat) (s : U32) :
      strlenFrom (fun _ => load) m s n = strlenFrom (fun _ => load) m' s n := by
    induction n generalizing s with
    | zero => rfl
    | succ n ih => simp only [strlenFrom, ih]
  exact from_state _ s

end Relates

section Room

variable {load : M → U32 → Option (BitVec 8)} {store : M → U32 → BitVec 8 → Option M}
  {I : M → Prop} {room : Nat}

theorem succ_room {dst : U32} {n : Nat} (fits : dst.toNat + (n + 1) ≤ room)
    (hroom : room < 2 ^ 32) : (dst + 1).toNat + n ≤ room := by
  have hone : (1 : U32).toNat = 1 := rfl
  rw [BitVec.toNat_add, hone, Nat.mod_eq_of_lt (by omega)]
  omega

theorem pad_keeps (hroom : room < 2 ^ 32)
    (stores : ∀ m a c, I m → a.toNat < room → ∃ m', store m a c = some m' ∧ I m')
    {n : Nat} {m : M} {dst : U32} (inv : I m) (fits : dst.toNat + n ≤ room) :
    ∃ m', pad store m dst n = some m' ∧ I m' := by
  induction n generalizing m dst with
  | zero => exact ⟨m, rfl, inv⟩
  | succ n ih =>
    obtain ⟨m', hstore, inv'⟩ := stores m dst 0 inv (by omega)
    rw [pad, hstore]
    exact ih inv' (succ_room fits hroom)

/-- The string is read while it lasts, as far as its characters are not stored over. -/
theorem strncpy_keeps (hroom : room < 2 ^ 32)
    (stores : ∀ m a c, I m → a.toNat < room → ∃ m', store m a c = some m' ∧ I m')
    {n len : Nat} {m : M} {dst src : U32} (inv : I m)
    (source : ∀ m, I m → StringAt load m src len) (fits : dst.toNat + n ≤ room) :
    ∃ m', strncpy load store m dst src n = some m' ∧ I m' := by
  induction n generalizing m dst src len with
  | zero => exact ⟨m, rfl, inv⟩
  | succ n ih =>
    cases len with
    | zero =>
      rw [strncpy, (source m inv).nul, Option.bind_some, if_pos rfl]
      exact pad_keeps hroom stores inv fits
    | succ len =>
      obtain ⟨c, hload, hc⟩ := (source m inv).head
      obtain ⟨m', hstore, inv'⟩ := stores m dst c inv (by omega)
      rw [strncpy, hload, Option.bind_some, if_neg hc, hstore]
      exact ih inv' (fun m inv => (source m inv).tail) (succ_room fits hroom)

end Room

def ramLoad (mem : U32 → BitVec 8) (a : U32) : Option (BitVec 8) := some (mem a)

def ramStore (mem : U32 → BitVec 8) (a : U32) (c : BitVec 8) : Option (U32 → BitVec 8) :=
  some (Function.update mem a c)

/-- The `n` bytes from `dst` on are given, and all others are as they were. -/
structure Overwritten (mem : U32 → BitVec 8) (dst : U32) (n : Nat) (byte : Nat → BitVec 8)
    (mem' : U32 → BitVec 8) : Prop where
  written : ∀ k < n, mem' (dst + BitVec.ofNat 32 k) = byte k
  kept : ∀ a, (∀ k < n, a ≠ dst + BitVec.ofNat 32 k) → mem' a = mem a

/-- Bytes stored one behind the other, as long as addresses do not repeat. -/
theorem storeAll_ram {bytes : List (BitVec 8)} (short : bytes.length ≤ 2 ^ 32)
    (mem : U32 → BitVec 8) (dst : U32) :
    storeAll ramStore mem dst bytes =
      some fun a => bytes[(a - dst).toNat]?.getD (mem a) := by
  induction bytes generalizing mem dst with
  | nil => rfl
  | cons c bytes ih =>
    rw [List.length_cons] at short
    rw [storeAll, ramStore, Option.bind_some, ih (Nat.le_of_succ_le short)]
    refine congrArg some (funext fun a => ?_)
    by_cases here : a = dst
    · subst here
      have start : (a - a).toNat = 0 := congrArg BitVec.toNat (BitVec.sub_self a)
      have back : (a - (a + 1)).toNat = 2 ^ 32 - 1 := by bv_omega
      rw [start, back, List.getElem?_eq_none (by omega), List.getElem?_cons_zero,
        Function.update_self]
      rfl
    · have next : (a - dst).toNat = (a - (dst + 1)).toNat + 1 := by bv_omega
      rw [next, List.getElem?_cons_succ, Function.update_of_ne here]

end LibcString
