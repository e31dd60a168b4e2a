import MissyMicro.ParsedStrings

/-!
# The base of a number

Without a base the prefix has to give one. `0x` is never found, and a number without a prefix is
left without a base: the limit is then divided by zero. Only the letter `O` gives a base, 8.
-/

namespace BasePrefixes

open LibcString Numerals Strtol ParsedNumbers ParsedStrings

/-- The place at which the loop over the digits begins, and the base that it reads them in. -/
def digitStart (mem : Memory) (num : U32) (base : Int) : Option (U32 × Int) :=
  (readSpaces mem num).map fun numstr => readPrefix mem (readSign mem numstr).2 base

def blank (c : BitVec 8) : Bool := isspace c.toInt

/-- The characters of the prefix, and the base. -/
def basePrefix (text : List (BitVec 8)) : Nat × Int :=
  if text.take 2 = [0x30, 0x78] then (2, 16)
  else if text.head? = some 0x4f then (1, 8)
  else (0, 10)

/-- Behind the whitespace and the sign. -/
def unsigned (text : List (BitVec 8)) : List (BitVec 8) := (splitSign (text.dropWhile blank)).2

/-- Where a string that begins at `num` should be read from without a base, and in which one. -/
def expectedStart (num : U32) (text : List (BitVec 8)) : U32 × Int :=
  (num + BitVec.ofNat 32 (text.length - (unsigned text).length + (basePrefix (unsigned text)).1),
    (basePrefix (unsigned text)).2)

/-- The digits behind the prefix, in its base. -/
def prefixDigits (text : List (BitVec 8)) : List Nat :=
  leadingDigits (basePrefix (unsigned text)).2.toNat
    ((unsigned text).drop (basePrefix (unsigned text)).1)

/-- A call of `strtol` returns, without a division by zero, and without a base the string is read
in the one of its prefix: from the place behind it on, as the number of the digits there. Which sign
is found is left open. -/
structure ReadsBase (mem : Memory) (num : U32) (text : List (BitVec 8)) (endptr : Bool) (base : Int)
    (errno : Nat) : Prop where
  undivided : ∀ p, digitStart mem num base ≠ some (p, 0)
  returns : ∃ r, strtol mem num endptr base errno = some r
  start : base = 0 → digitStart mem num base = some (expectedStart num text)
  number : base = 0 → ∃ r negative, strtol mem num endptr base errno = some r ∧
    r.value.toInt = clamped negative (basePrefix (unsigned text)).2.toNat (prefixDigits text)

/-- Behind whitespace and a sign the string goes on with `O`; whitespace is followed by a sign. -/
def OctalPrefix (text : List (BitVec 8)) : Prop :=
  (unsigned text).head? = some 0x4f ∧
    (text.dropWhile blank = text ∨ unsigned text ≠ text.dropWhile blank)

section Returns

variable {mem : Memory} {base : Nat} {num p : U32}

/-- Digits end before the memory repeats, if there is a NUL in it. -/
theorem exists_numeral {q : U32} (nul : mem q = 0) (p : U32) : ∃ ds, Numeral mem base p ds := by
  induction distance : (q - p).toNat generalizing p with
  | zero =>
    have here : q = p := by bv_omega
    refine ⟨[], trivial, ?_⟩
    rw [List.length_nil, add_ofNat_zero, ← here, nul]
    exact digitValue_nul
  | succ n ih =>
    cases digit : digitValue base (mem p) with
    | none =>
      refine ⟨[], trivial, ?_⟩
      rw [List.length_nil, add_ofNat_zero, digit]
    | some d =>
      obtain ⟨ds, digits, stop⟩ := ih (p + 1) (by bv_omega)
      refine ⟨d :: ds, ⟨digit, digits⟩, ?_⟩
      rw [List.length_cons, add_ofNat_succ]
      exact stop

/-- The loop over the whitespace ends at the NUL. -/
theorem skipSpaces_returns {q : U32} (nul : mem q = 0) {turns : Nat} {p : U32}
    (enough : (q - p).toNat < turns) : ∃ r, skipSpaces mem turns p = some r := by
  induction turns generalizing p with
  | zero => exact absurd enough (Nat.not_lt_zero _)
  | succ turns ih =>
    rw [skipSpaces]
    split
    · rename_i space
      have other : q ≠ p := by
        rintro rfl
        rw [char, nul] at space
        exact absurd space (by decide)
      exact ih (by bv_omega)
    · exact ⟨_, rfl⟩

theorem readSpaces_returns {q : U32} (nul : mem q = 0) (num : U32) :
    ∃ r, readSpaces mem num = some r := by
  rw [readSpaces]
  split
  · exact skipSpaces_returns nul (q - num).isLt
  · exact ⟨num, rfl⟩

section Call

variable {start : Int} (guard : start = 0 ∨ (2 ≤ start ∧ start ≤ 36)) (two_le : 2 ≤ base)
  (le : base ≤ 36) (begins : digitStart mem num start = some (p, (base : Int)))

include guard two_le le begins

theorem strtol_reads_from {ds : List Nat} (h : Numeral mem base p ds) (endptr : Bool)
    (errno : Nat) :
    ∃ r negative, strtol mem num endptr start errno = some r ∧
      Reads negative endptr base ds num (p + BitVec.ofNat 32 ds.length) errno r := by
  obtain ⟨numstr, skipped, begins⟩ := Option.map_eq_some_iff.mp begins
  obtain ⟨r, converted, reads⟩ :=
    @convert_reads_from mem base two_le le num numstr p start ds begins h endptr errno
  refine ⟨r, _, ?_, reads⟩
  rw [strtol, if_neg (by omega), skipped]
  exact converted

theorem strtol_returns {q : U32} (nul : mem q = 0) (endptr : Bool) (errno : Nat) :
    ∃ r, strtol mem num endptr start errno = some r := by
  obtain ⟨ds, numeral⟩ := @exists_numeral mem base q nul p
  obtain ⟨r, _, returned, _⟩ := strtol_reads_from guard two_le le begins numeral endptr errno
  exact ⟨r, returned⟩

end Call

end Returns

theorem letter_iff (text : List (BitVec 8)) :
    (text.headD 0).toInt = 0x4f ↔ text.head? = some 0x4f := by
  have letter : ∀ c : BitVec 8, c.toInt = 0x4f ↔ c = 0x4f := by decide +kernel
  cases text with
  | nil => exact iff_of_false (by decide) (by simp)
  | cons c text => exact (letter c).trans (Option.some_inj).symm

theorem splitSign_cases (text : List (BitVec 8)) :
    (splitSign text).2 = text ∨ ∃ c, text = c :: (splitSign text).2 := by
  cases text with
  | nil => exact Or.inl rfl
  | cons c text =>
    rw [splitSign]
    split
    · exact Or.inr ⟨c, rfl⟩
    split
    · exact Or.inr ⟨c, rfl⟩
    · exact Or.inl rfl

theorem splitSign_letter {text : List (BitVec 8)} (letter : text.head? = some 0x4f) :
    (splitSign text).2 = text := by
  obtain ⟨rest, rfl⟩ := List.head?_eq_some_iff.mp letter
  rfl

theorem splitSign_length_le (text : List (BitVec 8)) :
    (splitSign text).2.length ≤ text.length := by
  rcases splitSign_cases text with whole | ⟨c, sign⟩
  · rw [whole]
  · have length := congrArg List.length sign
    rw [List.length_cons] at length
    omega

theorem unsigned_suffix (text : List (BitVec 8)) : ∃ front, front ++ unsigned text = text := by
  obtain ⟨blanks, split⟩ := @List.dropWhile_suffix _ text blank
  rcases splitSign_cases (text.dropWhile blank) with whole | ⟨c, sign⟩
  · exact ⟨blanks, (congrArg (blanks ++ ·) whole).trans split⟩
  · refine ⟨blanks ++ [c], ?_⟩
    rw [List.append_assoc, List.singleton_append, unsigned, ← sign, split]

theorem basePrefix_letter {text : List (BitVec 8)} (letter : text.head? = some 0x4f) :
    basePrefix text = (1, 8) := by
  obtain ⟨rest, rfl⟩ := List.head?_eq_some_iff.mp letter
  rfl

/-- Another string is read in base 16 or 10. -/
theorem basePrefix_eight {text : List (BitVec 8)} (eight : (basePrefix text).2 = 8) :
    text.head? = some 0x4f := by
  by_contra other
  rw [basePrefix, if_neg other] at eight
  split at eight
  · exact absurd eight (by decide)
  · exact absurd eight (by decide)

theorem basePrefix_ne_zero (text : List (BitVec 8)) : (basePrefix text).2 ≠ 0 := by
  rw [basePrefix]
  split
  · decide
  · split <;> decide

theorem length_pos_of_letter {text : List (BitVec 8)} (letter : text.head? = some 0x4f) :
    0 < text.length := by
  obtain ⟨rest, rfl⟩ := List.head?_eq_some_iff.mp letter
  exact Nat.zero_lt_succ _

section Start

variable {mem : Memory} {num p : U32} {text : List (BitVec 8)}

theorem readPrefix_zero (p : U32) :
    readPrefix mem p 0 = if char mem p = 0x4f then (p + 1, 8) else (p, 0) := by
  rw [readPrefix, hexPrefix_false, if_neg (by decide), if_pos rfl]
  rfl

/-- Behind the sign only the letter gives a base. -/
theorem readPrefix_text (h : Stands mem p text) :
    readPrefix mem (readSign mem p).2 0 =
      if (splitSign text).2.head? = some 0x4f then
        (p + BitVec.ofNat 32 (text.length - (splitSign text).2.length + 1), 8)
      else (p + BitVec.ofNat 32 (text.length - (splitSign text).2.length), 0) := by
  obtain ⟨sign, rest⟩ := Stands.readSign h
  have letter := letter_iff (splitSign text).2
  rw [readPrefix_zero, rest.char_head, congrArg Prod.snd sign]
  by_cases here : (splitSign text).2.head? = some 0x4f
  · rw [if_pos (letter.mpr here), if_pos here, BitVec.ofNat_add, ← BitVec.add_assoc]
    rfl
  · rw [if_neg fun found => here (letter.mp found), if_neg here]

theorem blank_dropWhile (text : List (BitVec 8)) :
    isspace ((text.dropWhile blank).headD 0).toInt = false := by
  induction text with
  | nil => decide
  | cons c text ih =>
    rw [List.dropWhile_cons]
    split
    · exact ih
    · rename_i other
      exact Bool.eq_false_of_not_eq_true other

theorem readSpaces_whole (h : Stands mem num text) (whole : text.dropWhile blank = text) :
    readSpaces mem num = some num := by
  have next := blank_dropWhile text
  rw [whole, ← h.char_head] at next
  rw [readSpaces, next]
  rfl

/-- Without whitespace in front. -/
theorem digitStart_whole (h : Stands mem num text) (whole : text.dropWhile blank = text) :
    digitStart mem num 0 = some (expectedStart num text) ↔ OctalPrefix text := by
  have same : unsigned text = (splitSign text).2 := by rw [unsigned, whole]
  rw [digitStart, readSpaces_whole h whole, Option.map_some, Option.some_inj, readPrefix_text h,
    expectedStart, OctalPrefix, same]
  by_cases letter : (splitSign text).2.head? = some 0x4f
  · rw [if_pos letter, basePrefix_letter letter]
    exact iff_of_true rfl ⟨letter, Or.inl whole⟩
  · rw [if_neg letter]
    refine iff_of_false (fun equal => ?_) fun octal => letter octal.1
    exact basePrefix_ne_zero _ (congrArg Prod.snd equal).symm

/-- With whitespace in front, of which the loop leaves the next character out. -/
theorem digitStart_behind {ws s : List (BitVec 8)} {c : BitVec 8}
    (h : Stands mem num (ws ++ c :: s)) (nonempty : ws ≠ [])
    (blanks : ∀ b ∈ ws, isspace b.toInt = true) (next : isspace c.toInt = false) :
    digitStart mem num 0 =
      if (splitSign s).2.head? = some 0x4f then
        some (num + BitVec.ofNat 32 (ws.length + 1 + (s.length - (splitSign s).2.length + 1)), 8)
      else
        some (num + BitVec.ofNat 32 (ws.length + 1 + (s.length - (splitSign s).2.length)), 0) := by
  rw [digitStart, readSpaces_blanks h nonempty blanks next, Option.map_some,
    readPrefix_text h.behind_first]
  split
  · rw [BitVec.ofNat_add (ws.length + 1), ← BitVec.add_assoc]
  · rw [BitVec.ofNat_add (ws.length + 1), ← BitVec.add_assoc]

/-- Of whitespace alone the loop leaves the NUL behind. -/
theorem digitStart_spaces (h : Stands mem num text) (nonempty : text ≠ [])
    (blanks : ∀ b ∈ text, isspace b.toInt = true) :
    ∃ q, digitStart mem num 0 = some (q, 8) ∨ digitStart mem num 0 = some (q, 0) := by
  have whole : Stands mem num (text ++ []) := (List.append_nil text).symm ▸ h
  rw [digitStart, readSpaces_blanks whole nonempty blanks (by decide), Option.map_some,
    readPrefix_zero]
  split
  · exact ⟨_, Or.inl rfl⟩
  · exact ⟨_, Or.inr rfl⟩

/-- The start is right exactly if the character that is left out is a sign. -/
theorem digitStart_behind_iff {ws s : List (BitVec 8)} {c : BitVec 8}
    (h : Stands mem num (ws ++ c :: s)) (nonempty : ws ≠ [])
    (blanks : ∀ b ∈ ws, isspace b.toInt = true) (next : isspace c.toInt = false)
    {rest : List (BitVec 8)} (sign : (splitSign (c :: s)).2 = rest) :
    digitStart mem num 0 =
        some (num + BitVec.ofNat 32 ((ws ++ c :: s).length - rest.length + (basePrefix rest).1),
          (basePrefix rest).2) ↔
      rest.head? = some 0x4f ∧ rest ≠ c :: s := by
  have short := h.length_lt
  have le := splitSign_length_le s
  rw [List.length_append, List.length_cons] at short ⊢
  rw [digitStart_behind h nonempty blanks next]
  constructor
  · intro equal
    by_cases letter : (splitSign s).2.head? = some 0x4f
    · rw [if_pos letter] at equal
      obtain ⟨place, eight⟩ := Prod.mk.inj (Option.some.inj equal)
      have here := basePrefix_eight eight.symm
      have some_left := length_pos_of_letter letter
      have some_left' := length_pos_of_letter here
      rw [basePrefix_letter here] at place
      have index := add_ofNat_inj (by omega) (by omega) place
      refine ⟨here, fun whole => ?_⟩
      rw [whole, List.length_cons] at index
      omega
    · rw [if_neg letter] at equal
      exact absurd (congrArg Prod.snd (Option.some.inj equal)).symm (basePrefix_ne_zero rest)
  · rintro ⟨letter, signed⟩
    rcases splitSign_cases (c :: s) with whole | ⟨d, behind⟩
    · exact absurd (sign.symm.trans whole) signed
    · obtain ⟨_, rfl⟩ := List.cons.inj (behind.trans (congrArg (d :: ·) sign))
      have none : (splitSign s).2 = s := splitSign_letter letter
      rw [none, if_pos letter, basePrefix_letter letter]
      refine congrArg (fun k => some (num + BitVec.ofNat 32 k, (8 : Int))) ?_
      omega

theorem digitStart_iff (h : Stands mem num text) :
    digitStart mem num 0 = some (expectedStart num text) ↔ OctalPrefix text := by
  by_cases whole : text.dropWhile blank = text
  · exact digitStart_whole h whole
  have split : text.takeWhile blank ++ text.dropWhile blank = text :=
    List.takeWhile_append_dropWhile
  have next := blank_dropWhile text
  have blanks : ∀ b ∈ text.takeWhile blank, isspace b.toInt = true :=
    List.all_eq_true.mp List.all_takeWhile
  have nonempty : text.takeWhile blank ≠ [] := by
    intro none
    rw [none, List.nil_append] at split
    exact whole split
  cases rest : text.dropWhile blank with
  | nil =>
    have bare : unsigned text = [] := congrArg (fun text => (splitSign text).2) rest
    have ten : (expectedStart num text).2 = 10 := by
      rw [expectedStart, bare]
      rfl
    rw [rest, List.append_nil] at split
    obtain ⟨q, starts⟩ := digitStart_spaces (split.symm ▸ h) nonempty blanks
    rw [OctalPrefix, bare]
    refine iff_of_false (fun equal => ?_) fun octal => absurd octal.1 (by decide)
    rcases starts with eight | zero
    · have base : 8 = (expectedStart num text).2 :=
        congrArg Prod.snd (Option.some.inj (eight.symm.trans equal))
      exact absurd (base.trans ten) (by decide)
    · have base : 0 = (expectedStart num text).2 :=
        congrArg Prod.snd (Option.some.inj (zero.symm.trans equal))
      exact absurd (base.trans ten) (by decide)
  | cons c s =>
    rw [rest] at split next
    have behind := @digitStart_behind_iff mem num (text.takeWhile blank) s c (split.symm ▸ h)
      nonempty blanks next _ rfl
    rw [split] at behind
    rw [rest] at whole
    rw [expectedStart, OctalPrefix, unsigned, rest]
    exact behind.trans (and_congr_right fun _ => (or_iff_right whole).symm)

/-- A base that is given is the base that is read in. -/
theorem digitStart_given {base : Int} (nonzero : base ≠ 0) :
    digitStart mem num base =
      (readSpaces mem num).map fun numstr => ((readSign mem numstr).2, base) := by
  rw [digitStart]
  congr 1
  funext numstr
  exact readPrefix_eq _ nonzero

/-- Behind the letter the digits are found in base 8. -/
theorem numeral_octal (h : Stands mem num text) (letter : (unsigned text).head? = some 0x4f) :
    Numeral mem 8 (expectedStart num text).1 (prefixDigits text) := by
  obtain ⟨rest, behind⟩ := List.head?_eq_some_iff.mp letter
  obtain ⟨front, split⟩ := unsigned_suffix text
  have length := congrArg List.length split
  rw [List.length_append] at length
  have digits : prefixDigits text = leadingDigits 8 rest := by
    rw [prefixDigits, basePrefix_letter letter, behind]
    rfl
  have place : (expectedStart num text).1 = num + BitVec.ofNat 32 (front.length + 1) := by
    rw [expectedStart, basePrefix_letter letter]
    refine congrArg (fun k => num + BitVec.ofNat 32 (k + 1)) ?_
    omega
  rw [behind] at split
  rw [place, digits]
  have stands : Stands mem num (front ++ 0x4f :: rest) := split.symm ▸ h
  exact stands.behind_first.numeral

theorem strtol_reads_base_iff (h : Stands mem num text) {base : Int}
    (guard : base = 0 ∨ (2 ≤ base ∧ base ≤ 36)) (endptr : Bool) (errno : Nat) :
    ReadsBase mem num text endptr base errno ↔ base ≠ 0 ∨ OctalPrefix text := by
  have nul : mem (num + BitVec.ofNat 32 text.length) = 0 := Option.some.inj h.nul
  rcases guard with rfl | ⟨two_le, le⟩
  · rw [or_iff_right (not_not.mpr rfl), ← digitStart_iff h]
    constructor
    · exact fun reads => reads.start rfl
    · intro start
      have octal := ((digitStart_iff h).mp start).1
      have eight : (expectedStart num text).2 = ((8 : Nat) : Int) := by
        rw [expectedStart, basePrefix_letter octal]
        rfl
      have begins : digitStart mem num 0 =
          some ((expectedStart num text).1, ((8 : Nat) : Int)) := by
        rw [start, ← eight]
      obtain ⟨r, negative, returned, reads⟩ := strtol_reads_from (Or.inl rfl) (by decide)
        (by decide) begins (numeral_octal h octal) endptr errno
      refine ⟨fun p zero => ?_, ⟨r, returned⟩, fun _ => start, fun _ => ⟨r, negative, returned, ?_⟩⟩
      · have base : 0 = (expectedStart num text).2 :=
          congrArg Prod.snd (Option.some.inj (zero.symm.trans start))
        exact absurd (base.trans eight) (by decide)
      · rw [basePrefix_letter octal]
        exact reads_clamped (by decide) reads
  · have nonzero : base ≠ 0 := by omega
    obtain ⟨numstr, skipped⟩ := readSpaces_returns nul num
    have given := @digitStart_given mem num base nonzero
    rw [skipped, Option.map_some] at given
    obtain ⟨n, rfl⟩ := Int.eq_ofNat_of_zero_le (by omega : 0 ≤ base)
    refine iff_of_true ⟨fun p zero => ?_, ?_, fun zero => absurd zero nonzero,
      fun zero => absurd zero nonzero⟩ (Or.inl nonzero)
    · exact nonzero (congrArg Prod.snd (Option.some.inj (given.symm.trans zero)))
    · exact strtol_returns (Or.inr ⟨two_le, le⟩) (by omega) (by omega) given nul endptr errno

/-- `"O7"` is read in base 8. -/
theorem strtol_reads_base_octal :
    Stands (holding [0x4f, 0x37]) 0 [0x4f, 0x37] ∧
      ReadsBase (holding [0x4f, 0x37]) 0 [0x4f, 0x37] false 0 0 := by
  have stands : Stands (holding [0x4f, 0x37]) 0 [0x4f, 0x37] :=
    ⟨rfl, by decide, rfl, by decide, rfl⟩
  refine ⟨stands, (strtol_reads_base_iff stands (Or.inl rfl) false 0).mpr (Or.inr ?_)⟩
  exact ⟨rfl, Or.inl rfl⟩

/-- In `"1"` there is no base, and the limit is divided by 0. -/
theorem one_divided_by_zero :
    Stands (holding [0x31]) 0 [0x31] ∧ digitStart (holding [0x31]) 0 0 = some (0, 0) ∧
      strtol (holding [0x31]) 0 false 0 0 = none ∧
      ¬ ReadsBase (holding [0x31]) 0 [0x31] false 0 0 := by
  have start : digitStart (holding [0x31]) 0 0 = some (0, 0) := by decide
  exact ⟨⟨rfl, by decide, rfl⟩, start, by decide, fun reads => reads.undivided 0 start⟩

end Start

end BasePrefixes
