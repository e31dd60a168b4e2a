import MissyMicro.ParsedNumbers

/-!
# Whitespace, prefixes and the end pointer

The loop over the whitespace takes one character too many, the test for `0x` looks for a
character that is both, and the end pointer is moved back once more after the loop has stopped
on the character behind the digits. Each is stated for whole strings.
-/

namespace ParsedStrings

open LibcString Numerals Strtol ParsedNumbers

/-- The string `text` stands at `p`. -/
abbrev Stands (mem : Memory) (p : U32) (text : List (BitVec 8)) : Prop :=
  TextAt (fun mem a => some (mem a)) mem p text

/-- An optional sign, and the rest. -/
def splitSign : List (BitVec 8) → Bool × List (BitVec 8)
  | [] => (false, [])
  | c :: text =>
    if c = 0x2d then (true, text) else if c = 0x2b then (false, text) else (false, c :: text)

/-- The digits that a string begins with. -/
def leadingDigits (base : Nat) : List (BitVec 8) → List Nat
  | [] => []
  | c :: text => (digitValue base c).elim [] fun d => d :: leadingDigits base text

/-- The longest prefix of the form `[+-]?digits`. -/
def numberLength (base : Nat) (text : List (BitVec 8)) : Nat :=
  text.length - (splitSign text).2.length + (leadingDigits base (splitSign text).2).length

section Reading

variable {mem : Memory} {base : Nat} {p : U32} {text : List (BitVec 8)}

theorem Stands.numeral (h : Stands mem p text) : Numeral mem base p (leadingDigits base text) := by
  induction text generalizing p with
  | nil =>
    refine ⟨trivial, ?_⟩
    have nul : mem p = 0 := Option.some.inj h
    rw [leadingDigits, List.length_nil, add_ofNat_zero, nul]
    exact digitValue_nul
  | cons c text ih =>
    obtain ⟨first, _, rest⟩ := h
    have first : mem p = c := Option.some.inj first
    rw [leadingDigits]
    cases here : digitValue base c with
    | none =>
      refine ⟨trivial, ?_⟩
      rw [Option.elim_none, List.length_nil, add_ofNat_zero, first, here]
    | some d =>
      obtain ⟨digits, stop⟩ := ih rest
      rw [Option.elim_some]
      refine ⟨⟨first ▸ here, digits⟩, ?_⟩
      rw [List.length_cons, add_ofNat_succ]
      exact stop

theorem sign_char : ∀ c : BitVec 8, (c.toInt = 0x2d ↔ c = 0x2d) ∧ (c.toInt = 0x2b ↔ c = 0x2b) := by
  decide +kernel

theorem digit_unsigned {c : BitVec 8} (le : base ≤ 36) {d : Nat}
    (here : digitValue base c = some d) : isspace c.toInt = false ∧ c ≠ 0x2d ∧ c ≠ 0x2b := by
  obtain ⟨blank, minus, plus⟩ := @digit_other (fun _ => c) base le 0 d here
  exact ⟨blank, fun same => minus ((sign_char c).1.mpr same),
    fun same => plus ((sign_char c).2.mpr same)⟩

theorem Stands.readSign (h : Stands mem p text) :
    Strtol.readSign mem p = ((splitSign text).1,
        p + BitVec.ofNat 32 (text.length - (splitSign text).2.length)) ∧
      Stands mem (Strtol.readSign mem p).2 (splitSign text).2 := by
  cases text with
  | nil =>
    have nul : mem p = 0 := Option.some.inj h
    have unsigned : Strtol.readSign mem p = (false, p) := by
      refine readSign_of_ne ?_
      rw [char, nul]
      decide
    rw [unsigned]
    exact ⟨congrArg _ (add_ofNat_zero p).symm, h⟩
  | cons c text =>
    obtain ⟨first, nonzero, rest⟩ := h
    have first' : mem p = c := Option.some.inj first
    have one : text.length + 1 - text.length = 1 := by omega
    rw [splitSign, Strtol.readSign, char, first', List.length_cons]
    by_cases minus : c = 0x2d
    · subst minus
      rw [if_pos (by decide), if_pos rfl]
      dsimp only
      rw [one]
      exact ⟨rfl, rest⟩
    · rw [if_neg fun same => minus ((sign_char c).1.mp same), if_neg minus]
      by_cases plus : c = 0x2b
      · subst plus
        rw [if_pos (by decide), if_pos rfl]
        dsimp only
        rw [one]
        exact ⟨rfl, rest⟩
      · rw [if_neg fun same => plus ((sign_char c).2.mp same), if_neg plus, List.length_cons,
          Nat.sub_self, add_ofNat_zero]
        exact ⟨rfl, first, nonzero, rest⟩

end Reading

/-- The end pointer is right: behind the longest prefix that is a number, or at the start. -/
def EndsRight (mem : Memory) (num : U32) (base : Nat) (text : List (BitVec 8)) (errno : Nat) :
    Prop :=
  ∃ r, strtol mem num true base errno = some r ∧
    r.endptr = some (if leadingDigits base (splitSign text).2 = [] then num
      else num + BitVec.ofNat 32 (numberLength base text))

theorem pred_ne (p : U32) : p - 1 ≠ p := by
  bv_omega

theorem strtol_endptr_iff {mem : Memory} {num : U32} {base : Nat} {text : List (BitVec 8)}
    (two_le : 2 ≤ base) (le : base ≤ 36) (h : Stands mem num text)
    (blank : isspace (char mem num) = false) (errno : Nat) :
    EndsRight mem num base text errno ↔ leadingDigits base (splitSign text).2 = [] := by
  obtain ⟨sign, rest⟩ := Stands.readSign h
  obtain ⟨r, returned, reads⟩ := strtol_reads two_le le blank (Stands.numeral rest) true errno
  have behind : (readSign mem num).2 +
      BitVec.ofNat 32 (leadingDigits base (splitSign text).2).length =
        num + BitVec.ofNat 32 (numberLength base text) := by
    rw [sign, numberLength, BitVec.ofNat_add, BitVec.add_assoc]
  have pointer := reads.endptr
  rw [behind, if_pos rfl] at pointer
  constructor
  · rintro ⟨r', returned', right⟩
    obtain rfl := Option.some.inj (returned.symm.trans returned')
    by_contra digits
    rw [if_neg digits] at pointer right
    exact pred_ne _ (Option.some.inj (pointer.symm.trans right))
  · intro digits
    refine ⟨r, returned, ?_⟩
    rw [pointer, if_pos digits, if_pos digits]

/-- A memory that holds a string at 0. -/
def holding (text : List (BitVec 8)) : Memory := fun a => text.getD a.toNat 0

/-- `"-x"`, without a digit. -/
theorem strtol_endptr_minus :
    2 ≤ 10 ∧ 10 ≤ 36 ∧ Stands (holding [0x2d, 0x78]) 0 [0x2d, 0x78] ∧
      isspace (char (holding [0x2d, 0x78]) 0) = false ∧
      EndsRight (holding [0x2d, 0x78]) 0 10 [0x2d, 0x78] 0 := by
  have stands : Stands (holding [0x2d, 0x78]) 0 [0x2d, 0x78] :=
    ⟨rfl, by decide, rfl, by decide, rfl⟩
  refine ⟨by decide, by decide, stands, rfl, ?_⟩
  exact (strtol_endptr_iff (by decide) (by decide) stands rfl 0).mpr rfl

/-- Of `"5"` nothing is left behind, but the end pointer is at its start. -/
theorem five_endptr :
    Stands (holding [0x35]) 0 [0x35] ∧ numberLength 10 [0x35] = 1 ∧
      strtol (holding [0x35]) 0 true 10 0 = some ⟨5, some 0, 0⟩ ∧
      ¬ EndsRight (holding [0x35]) 0 10 [0x35] 0 := by
  have called : strtol (holding [0x35]) 0 true 10 0 = some ⟨5, some 0, 0⟩ := by decide
  refine ⟨⟨rfl, by decide, rfl⟩, rfl, called, ?_⟩
  rintro ⟨r, returned, right⟩
  obtain rfl := Option.some.inj (called.symm.trans returned)
  exact absurd (Option.some.inj right) (by decide)

section Whitespace

variable {mem : Memory} {base : Nat} {ws s : List (BitVec 8)} {c : BitVec 8}

/-- The loop leaves the character behind the whitespace out, too. -/
theorem skipSpaces_run {p : U32} {n : Nat}
    (blanks : ∀ k < n, isspace (char mem (p + BitVec.ofNat 32 k)) = true)
    (next : isspace (char mem (p + BitVec.ofNat 32 n)) = false) {turns : Nat} (enough : n < turns) :
    skipSpaces mem turns p = some (p + BitVec.ofNat 32 (n + 1)) := by
  induction n generalizing p turns with
  | zero =>
    obtain ⟨turns, rfl⟩ := Nat.exists_eq_succ_of_ne_zero (Nat.ne_of_gt enough)
    rw [add_ofNat_zero] at next
    rw [skipSpaces, next]
    rfl
  | succ n ih =>
    obtain ⟨turns, rfl⟩ := Nat.exists_eq_succ_of_ne_zero (Nat.ne_of_gt (Nat.zero_lt_of_lt enough))
    have first := blanks 0 (Nat.succ_pos n)
    rw [add_ofNat_zero] at first
    rw [add_ofNat_succ] at next
    rw [skipSpaces, first, add_ofNat_succ]
    refine ih (fun k hk => ?_) next (Nat.lt_of_succ_lt_succ enough)
    rw [← add_ofNat_succ]
    exact blanks (k + 1) (Nat.succ_lt_succ hk)

theorem Stands.behind {p : U32} {front : List (BitVec 8)} (h : Stands mem p (front ++ s)) :
    Stands mem (p + BitVec.ofNat 32 front.length) s := by
  induction front generalizing p with
  | nil =>
    rw [List.length_nil, add_ofNat_zero]
    exact h
  | cons b front ih =>
    rw [List.length_cons, add_ofNat_succ]
    exact ih h.2.2

theorem Stands.behind_first {p : U32} {front : List (BitVec 8)}
    (h : Stands mem p (front ++ c :: s)) :
    Stands mem (p + BitVec.ofNat 32 (front.length + 1)) s := by
  have rest := h.behind.2.2
  rw [BitVec.add_assoc] at rest
  rw [BitVec.ofNat_add]
  exact rest

/-- The first character of a string, which may be its NUL. -/
theorem Stands.char_head {p : U32} (h : Stands mem p s) : char mem p = (s.headD 0).toInt := by
  cases s with
  | nil => exact congrArg BitVec.toInt (Option.some.inj h)
  | cons c s => exact congrArg BitVec.toInt (Option.some.inj h.1)

theorem readSpaces_blanks {p : U32} (h : Stands mem p (ws ++ s)) (nonempty : ws ≠ [])
    (blanks : ∀ b ∈ ws, isspace b.toInt = true) (next : isspace (s.headD 0).toInt = false) :
    readSpaces mem p = some (p + BitVec.ofNat 32 (ws.length + 1)) := by
  have short := h.length_lt
  rw [List.length_append] at short
  have run {k : Nat} (hk : k < ws.length) :
      isspace (char mem (p + BitVec.ofNat 32 k)) = true := by
    have inside : k < (ws ++ s).length := by
      rw [List.length_append]
      exact Nat.lt_add_right _ hk
    have here := Option.some.inj (h.load_at inside)
    rw [List.getElem_append_left hk] at here
    rw [char, here]
    exact blanks _ (List.getElem_mem hk)
  have first : isspace (char mem p) = true := by
    rw [← add_ofNat_zero p]
    exact run (List.length_pos_of_ne_nil nonempty)
  rw [readSpaces, first]
  refine skipSpaces_run (fun k hk => run hk) ?_ (by omega)
  rw [h.behind.char_head]
  exact next

/-- The number that a string begins with. -/
noncomputable def spelled (base : Nat) (text : List (BitVec 8)) : Int :=
  clamped (splitSign text).1 base (leadingDigits base (splitSign text).2)

theorem convert_spelled (two_le : 2 ≤ base) (le : base ≤ 36) {p : U32} {text : List (BitVec 8)}
    (h : Stands mem p text) (num : U32) (endptr : Bool) (errno : Nat) :
    ∃ r, convert mem num p endptr base errno = some r ∧ r.value.toInt = spelled base text := by
  obtain ⟨sign, rest⟩ := Stands.readSign h
  obtain ⟨r, returned, reads⟩ := convert_reads two_le le (Stands.numeral rest) endptr errno
  refine ⟨r, returned, ?_⟩
  rw [reads_clamped two_le reads, sign]
  rfl

/-- Both calls return, and the same number. -/
def SameValue (a b : Option Answer) : Prop :=
  ∃ r r', a = some r ∧ b = some r' ∧ r.value = r'.value

theorem sameValue_iff {a b : Option Answer} {m n : Int} (ha : ∃ r, a = some r ∧ r.value.toInt = m)
    (hb : ∃ r, b = some r ∧ r.value.toInt = n) : SameValue a b ↔ m = n := by
  obtain ⟨r, rfl, rfl⟩ := ha
  obtain ⟨r', rfl, rfl⟩ := hb
  rw [BitVec.toInt_inj]
  constructor
  · rintro ⟨q, q', same, same', equal⟩
    obtain rfl := Option.some.inj same
    obtain rfl := Option.some.inj same'
    exact equal
  · exact fun equal => ⟨r, r', rfl, rfl, equal⟩

/-- A sign, or a digit of the base. -/
def Begins (base : Nat) (c : BitVec 8) : Prop :=
  c = 0x2d ∨ c = 0x2b ∨ (digitValue base c).isSome

theorem Begins.not_space (le : base ≤ 36) (h : Begins base c) : isspace c.toInt = false := by
  rcases h with rfl | rfl | digit
  · decide
  · decide
  · obtain ⟨d, here⟩ := Option.isSome_iff_exists.mp digit
    exact (digit_unsigned le here).1

theorem strtol_spelled (two_le : 2 ≤ base) (le : base ≤ 36) {num : U32} {text : List (BitVec 8)}
    (h : Stands mem num text) (blank : isspace (char mem num) = false) (endptr : Bool)
    (errno : Nat) :
    ∃ r, strtol mem num endptr base errno = some r ∧ r.value.toInt = spelled base text := by
  rw [strtol_eq two_le le, readSpaces, blank]
  exact convert_spelled two_le le h num endptr errno

theorem strtol_behind_blanks (two_le : 2 ≤ base) (le : base ≤ 36) {num : U32}
    (h : Stands mem num (ws ++ c :: s)) (nonempty : ws ≠ [])
    (blanks : ∀ b ∈ ws, isspace b.toInt = true) (begins : Begins base c) (endptr : Bool)
    (errno : Nat) :
    ∃ r, strtol mem num endptr base errno = some r ∧ r.value.toInt = spelled base s := by
  rw [strtol_eq two_le le, readSpaces_blanks h nonempty blanks (begins.not_space le),
    Option.bind_some]
  exact convert_spelled two_le le h.behind_first num endptr errno

end Whitespace

/-- The number of one character; a sign alone is 0. -/
def alone (base : Nat) (c : BitVec 8) : Nat := (digitValue base c).getD 0

/-- A number stays the same without its first character `c`: `n` is the number that the rest begins
with. A sign at the front of the rest has ended the number behind `c`. -/
def Droppable (base : Nat) (c : BitVec 8) (s : List (BitVec 8)) : Prop :=
  let ds := leadingDigits base (splitSign s).2
  let n := value base ds
  if s.head? = some 0x2d then
    (n = 0 ∧ alone base c = 0) ∨ (Unnoticed base ds ∧ (n + alone base c) % 2 ^ 32 = 0)
  else if s.head? = some 0x2b then n = alone base c
  else if c = 0x2b then True
  else if c = 0x2d then n = 0 ∨ (Unnoticed base ds ∧ n % 2 ^ 32 = 2 ^ 31 + 1)
  else alone base c = 0 ∨ 2 ^ 31 - 1 ≤ n

section FirstCharacter

variable {base : Nat} {c : BitVec 8} {s : List (BitVec 8)}

theorem alone_lt (le : base ≤ 36) (c : BitVec 8) : alone base c < 36 := by
  rw [alone]
  cases here : digitValue base c with
  | none => decide
  | some d =>
    rw [digitValue, Option.filter_eq_some_iff] at here
    exact Nat.lt_of_lt_of_le (of_decide_eq_true here.2) le

theorem splitSign_digit (le : base ≤ 36) {d : Nat} (here : digitValue base c = some d) :
    splitSign (c :: s) = (false, c :: s) := by
  obtain ⟨_, minus, plus⟩ := digit_unsigned le here
  rw [splitSign, if_neg minus, if_neg plus]

/-- In front of a digit string a digit counts with its place. -/
theorem spelled_digit (le : base ≤ 36) {d : Nat} (here : digitValue base c = some d) :
    spelled base (c :: s) = clamped false base (d :: leadingDigits base s) := by
  rw [spelled, splitSign_digit le here, leadingDigits, here, Option.elim_some]

/-- A character in front of a sign stands alone. -/
theorem spelled_before_sign (two_le : 2 ≤ base) (le : base ≤ 36) (begins : Begins base c)
    (sign : leadingDigits base s = []) : spelled base (c :: s) = alone base c := by
  rcases begins with rfl | rfl | digit
  · change clamped true base (leadingDigits base s) = 0
    rw [sign]
    exact clamped_nil two_le true
  · change clamped false base (leadingDigits base s) = 0
    rw [sign]
    exact clamped_nil two_le false
  · obtain ⟨d, here⟩ := Option.isSome_iff_exists.mp digit
    have small := alone_lt le c
    rw [spelled_digit le here, sign, clamped_false, value_singleton]
    rw [alone, here, Option.getD_some] at small ⊢
    omega

theorem splitSign_unsigned (minus : s.head? ≠ some 0x2d) (plus : s.head? ≠ some 0x2b) :
    splitSign s = (false, s) := by
  cases s with
  | nil => rfl
  | cons c s =>
    rw [splitSign, if_neg fun same => minus (congrArg some same),
      if_neg fun same => plus (congrArg some same)]

theorem spelled_rest_iff (two_le : 2 ≤ base) (le : base ≤ 36) (begins : Begins base c) :
    spelled base s = spelled base (c :: s) ↔ Droppable base c s := by
  have small := alone_lt le c
  rw [Droppable]
  by_cases minus : s.head? = some 0x2d
  · rw [if_pos minus]
    obtain ⟨t, rfl⟩ := List.head?_eq_some_iff.mp minus
    rw [spelled_before_sign two_le le begins rfl]
    exact clamped_true_eq_iff two_le (by omega)
  by_cases plus : s.head? = some 0x2b
  · rw [if_neg minus, if_pos plus]
    obtain ⟨t, rfl⟩ := List.head?_eq_some_iff.mp plus
    rw [spelled_before_sign two_le le begins rfl]
    change clamped false base (leadingDigits base t) = _ ↔ _
    rw [clamped_false]
    change _ ↔ value base (leadingDigits base t) = _
    omega
  rw [if_neg minus, if_neg plus, splitSign_unsigned minus plus]
  have rest : spelled base s = clamped false base (leadingDigits base s) := by
    rw [spelled, splitSign_unsigned minus plus]
  rw [rest]
  rcases begins with rfl | rfl | digit
  · rw [if_neg (by decide), if_pos rfl]
    exact clamped_signs_iff two_le
  · rw [if_pos rfl]
    exact iff_of_true rfl trivial
  · obtain ⟨d, here⟩ := Option.isSome_iff_exists.mp digit
    obtain ⟨_, minus, plus⟩ := digit_unsigned le here
    rw [if_neg plus, if_neg minus, spelled_digit le here, alone, here]
    exact clamped_cons_iff (by omega) d

end FirstCharacter

def IsSign (sign : List (BitVec 8)) : Prop := sign = [] ∨ sign = [0x2b] ∨ sign = [0x2d]

/-- Characters of digits only. -/
def HexDigits (d : List (BitVec 8)) : Prop := ∀ c ∈ d, (digitValue 16 c).isSome

instance (d : List (BitVec 8)) : Decidable (HexDigits d) :=
  inferInstanceAs (Decidable (∀ c ∈ d, (digitValue 16 c).isSome))

section Prefix

variable {sign text : List (BitVec 8)}

/-- No sign at the front, and no whitespace. -/
def Unsigned (text : List (BitVec 8)) : Prop :=
  ∀ c, text.head? = some c → isspace c.toInt = false ∧ c ≠ 0x2d ∧ c ≠ 0x2b

theorem splitSign_append (hsign : IsSign sign) (unsigned : Unsigned text) :
    splitSign (sign ++ text) = (decide (sign = [0x2d]), text) := by
  rcases hsign with rfl | rfl | rfl
  · cases text with
    | nil => rfl
    | cons c text =>
      obtain ⟨_, minus, plus⟩ := unsigned c rfl
      rw [List.nil_append, splitSign, if_neg minus, if_neg plus]
      rfl
  · rfl
  · rfl

theorem HexDigits.unsigned {d : List (BitVec 8)} (h : HexDigits d) : Unsigned d := by
  intro c first
  obtain ⟨v, here⟩ := Option.isSome_iff_exists.mp (h c (List.mem_of_mem_head? first))
  exact digit_unsigned (by decide) here

theorem Stands.not_space {mem : Memory} {p : U32} (h : Stands mem p (sign ++ text))
    (hsign : IsSign sign) (unsigned : Unsigned text) : isspace (char mem p) = false := by
  have head {c : BitVec 8} {rest : List (BitVec 8)} (first : Stands mem p (c :: rest)) :
      char mem p = c.toInt := congrArg BitVec.toInt (Option.some.inj first.1)
  rcases hsign with rfl | rfl | rfl
  · cases text with
    | nil =>
      have nul : mem p = 0 := Option.some.inj h
      rw [char, nul]
      decide
    | cons c text =>
      rw [head h]
      exact (unsigned c rfl).1
  · rw [head h]
    decide
  · rw [head h]
    decide

theorem unsigned_zero_x (d : List (BitVec 8)) : Unsigned (0x30 :: 0x78 :: d) := by
  intro c first
  obtain rfl := Option.some.inj first
  decide

/-- The digits behind `0x` are not read. -/
theorem spelled_zero_x (hsign : IsSign sign) (d : List (BitVec 8)) :
    spelled 16 (sign ++ 0x30 :: 0x78 :: d) = 0 := by
  rw [spelled, splitSign_append hsign (unsigned_zero_x d)]
  exact (clamped_eq_zero_iff (by decide) _).mpr (Or.inl rfl)

end Prefix

theorem strtol_transparent_iff (mem mem' : Memory) (num num' : U32) (endptr endptr' : Bool)
    (errno errno' : Nat) :
    (∀ (base : Nat) (ws s : List (BitVec 8)) (c : BitVec 8), 2 ≤ base → base ≤ 36 →
      Stands mem num (ws ++ c :: s) → ws ≠ [] → (∀ b ∈ ws, isspace b.toInt = true) →
      Begins base c → Stands mem' num' (c :: s) →
      (SameValue (strtol mem num endptr base errno) (strtol mem' num' endptr' base errno') ↔
        Droppable base c s)) ∧
    ∀ sign d : List (BitVec 8), IsSign sign → HexDigits d →
      Stands mem num (sign ++ 0x30 :: 0x78 :: d) → Stands mem' num' (sign ++ d) →
      (SameValue (strtol mem num endptr 16 errno) (strtol mem' num' endptr' 16 errno') ↔
        value 16 (leadingDigits 16 d) = 0 ∨ (sign = [0x2d] ∧ Unnoticed 16 (leadingDigits 16 d) ∧
          value 16 (leadingDigits 16 d) % 2 ^ 32 = 0)) := by
  constructor
  · intro base ws s c two_le le h nonempty blanks begins h'
    have blank : isspace (char mem' num') = false := by
      have first : mem' num' = c := Option.some.inj h'.1
      rw [char, first]
      exact begins.not_space le
    have long := strtol_behind_blanks two_le le h nonempty blanks begins endptr errno
    have short := strtol_spelled two_le le h' blank endptr' errno'
    exact (sameValue_iff long short).trans (spelled_rest_iff two_le le begins)
  · intro sign d hsign hex h h'
    have two_le : 2 ≤ 16 := by decide
    have le : 16 ≤ 36 := by decide
    have long := strtol_spelled two_le le h (h.not_space hsign (unsigned_zero_x d)) endptr errno
    have short := strtol_spelled two_le le h' (h'.not_space hsign hex.unsigned) endptr' errno'
    refine (sameValue_iff long short).trans ?_
    rw [spelled_zero_x hsign, spelled, splitSign_append hsign hex.unsigned, eq_comm,
      clamped_eq_zero_iff two_le, decide_eq_true_iff]

/-- `" +5"` is read as `"+5"`, and `"0x0"` in base 16 as `"0"`. -/
theorem strtol_transparent_plus_zero :
    SameValue (strtol (holding [0x20, 0x2b, 0x35]) 0 false 10 0)
        (strtol (holding [0x2b, 0x35]) 0 false 10 0) ∧
      SameValue (strtol (holding [0x30, 0x78, 0x30]) 0 false 16 0)
        (strtol (holding [0x30]) 0 false 16 0) := by
  constructor
  · refine ((strtol_transparent_iff _ _ 0 0 false false 0 0).1 10 [0x20] [0x35] 0x2b (by decide)
      (by decide) ?_ (List.cons_ne_nil _ _) (by decide) (Or.inr (Or.inl rfl)) ?_).mpr trivial
    · exact ⟨rfl, by decide, rfl, by decide, rfl, by decide, rfl⟩
    · exact ⟨rfl, by decide, rfl, by decide, rfl⟩
  · refine ((strtol_transparent_iff _ _ 0 0 false false 0 0).2 [] [0x30] (Or.inl rfl) (by decide)
      ?_ ?_).mpr (Or.inl (by decide))
    · exact ⟨rfl, by decide, rfl, by decide, rfl, by decide, rfl⟩
    · exact ⟨rfl, by decide, rfl⟩

theorem not_sameValue {a b : Option Answer} {r r' : Answer} (ha : a = some r) (hb : b = some r')
    (apart : r.value ≠ r'.value) : ¬ SameValue a b := by
  rintro ⟨q, q', same, same', equal⟩
  obtain rfl := Option.some.inj (ha.symm.trans same)
  obtain rfl := Option.some.inj (hb.symm.trans same')
  exact apart equal

/-- `" 5"` is read as 0, and so is `"0x1"` in base 16. -/
theorem blank_and_prefix_not_transparent :
    (Stands (holding [0x20, 0x35]) 0 ([0x20] ++ 0x35 :: []) ∧ Begins 10 0x35 ∧
      ¬ SameValue (strtol (holding [0x20, 0x35]) 0 false 10 0)
        (strtol (holding [0x35]) 0 false 10 0)) ∧
    (Stands (holding [0x30, 0x78, 0x31]) 0 ([] ++ 0x30 :: 0x78 :: [0x31]) ∧ HexDigits [0x31] ∧
      ¬ SameValue (strtol (holding [0x30, 0x78, 0x31]) 0 false 16 0)
        (strtol (holding [0x31]) 0 false 16 0)) := by
  refine ⟨⟨⟨rfl, by decide, rfl, by decide, rfl⟩, Or.inr (Or.inr rfl), ?_⟩,
    ⟨⟨rfl, by decide, rfl, by decide, rfl, by decide, rfl⟩, by decide, ?_⟩⟩
  · exact @not_sameValue _ _ ⟨0, none, 0⟩ ⟨5, none, 0⟩ (by decide) (by decide) (by decide)
  · exact @not_sameValue _ _ ⟨0, none, 0⟩ ⟨1, none, 0⟩ (by decide) (by decide) (by decide)

end ParsedStrings
