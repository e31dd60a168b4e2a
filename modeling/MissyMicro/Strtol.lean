import MissyMicro.LibcString
import MissyMicro.Numerals
import Mathlib.Data.List.Infix

/-!
# Numbers from text

`strtol` collects the digits in a 32-bit word and asks before each digit whether the word would
pass the limit. The limit of a negative number is 2 ^ 31, which the word itself cannot hold: a
number that is 2 ^ 31 after some of its digits goes on with a negative word, and the test
compares that. What is read is a function of the digits.
-/

namespace Strtol

open LibcString Numerals

abbrev Memory := U32 → BitVec 8

def isalpha (c : Int) : Bool := decide ((0x61 ≤ c ∧ c ≤ 0x7a) ∨ (0x41 ≤ c ∧ c ≤ 0x5a))
def isdigit (c : Int) : Bool := decide (0x30 ≤ c ∧ c ≤ 0x39)
def isspace (c : Int) : Bool := decide (c = 0x20 ∨ c = 0x09)
def isupper (c : Int) : Bool := decide (0x41 ≤ c ∧ c ≤ 0x5a)

/-- A `char` as an `int`; it is signed. -/
def char (mem : Memory) (p : U32) : Int := (mem p).toInt

def erange : Nat := 3
def longMax : U32 := 0x7fffffff
def longMin : U32 := 0x80000000

/-- `endptr` is what is stored through the pointer of that name, if anything is. -/
structure Answer where
  value : U32
  endptr : Option U32
  errno : Nat
  deriving DecidableEq

/-- The loop over the whitespace. It steps over the character that ends it, too. -/
def skipSpaces (mem : Memory) : Nat → U32 → Option U32
  | 0, _ => none
  | turns + 1, numstr =>
    if isspace (char mem numstr) then skipSpaces mem turns (numstr + 1) else some (numstr + 1)

def readSpaces (mem : Memory) (numstr : U32) : Option U32 :=
  if isspace (char mem numstr) then skipSpaces mem (2 ^ 32) numstr else some numstr

def readSign (mem : Memory) (numstr : U32) : Bool × U32 :=
  if char mem numstr = 0x2d then (true, numstr + 1)
  else if char mem numstr = 0x2b then (false, numstr + 1)
  else (false, numstr)

/-- `*numstr == '0' && *numstr+1 == 'x'`, where 1 is added to the character. -/
def hexPrefix (mem : Memory) (numstr : U32) : Bool :=
  decide (char mem numstr = 0x30 ∧ char mem numstr + 1 = 0x78)

def readPrefix (mem : Memory) (numstr : U32) (base : Int) : U32 × Int :=
  if base = 16 then (if hexPrefix mem numstr then numstr + 2 else numstr, base)
  else if base = 0 then
    let r := if hexPrefix mem numstr then (numstr + 2, 16) else (numstr, base)
    if char mem r.1 = 0x4f then (r.1 + 1, 8) else r
  else (numstr, base)

/-- The digit of a character, of any size; without one the loop is left. -/
def digit (c : Int) : Option Int :=
  if isdigit c then some (c - 0x30)
  else if isalpha c then some (c - if isupper c then 0x41 - 10 else 0x61 - 10)
  else none

structure Accumulator where
  retval : U32
  any : Int

def accumulate (base : Int) (cutoff cutlimit : U32) (a : Accumulator) (c : Int) : Accumulator :=
  if a.any < 0 ∨ cutoff.toInt < a.retval.toInt ∨
      (a.retval.toInt = cutoff.toInt ∧ cutlimit.toInt < c) then { a with any := -1 }
  else ⟨a.retval * BitVec.ofInt 32 base + BitVec.ofInt 32 c, 1⟩

/-- The loop over the digits, with the pointer that it leaves. -/
def readDigits (mem : Memory) (base : Int) (cutoff cutlimit : U32) :
    Nat → Accumulator → U32 → Option (Accumulator × U32)
  | 0, _, _ => none
  | turns + 1, a, numstr =>
    if char mem numstr = 0 then some (a, numstr)
    else (digit (char mem numstr)).elim (some (a, numstr)) fun c =>
      if base ≤ c then some (a, numstr)
      else readDigits mem base cutoff cutlimit turns (accumulate base cutoff cutlimit a c)
        (numstr + 1)

def limit (negative : Bool) : U32 := if negative then longMin else longMax

/-- What is returned and stored after the loop. -/
def finish (negative endptr : Bool) (num : U32) (errno : Nat) (r : Accumulator × U32) : Answer :=
  let retval := if r.1.any < 0 then limit negative else r.1.retval
  { value := if negative then -retval else retval
    endptr := if endptr then some (if r.1.any ≠ 0 then r.2 - 1 else num) else none
    errno := if r.1.any < 0 then erange else errno }

/-- From the sign on. Without a base there is a division by zero. -/
def convert (mem : Memory) (num numstr : U32) (endptr : Bool) (base : Int) (errno : Nat) :
    Option Answer :=
  let sign := readSign mem numstr
  let start := readPrefix mem sign.2 base
  let base := start.2
  let cutoff := limit sign.1
  if base = 0 then none
  else (readDigits mem base (cutoff / BitVec.ofInt 32 base) (cutoff % BitVec.ofInt 32 base) (2 ^ 32)
    ⟨0, 0⟩ start.1).map (finish sign.1 endptr num errno)

/-- `errno` before the call is an argument. Without a valid base nothing is stored. -/
def strtol (mem : Memory) (num : U32) (endptr : Bool) (base : Int) (errno : Nat) : Option Answer :=
  if base ≠ 0 ∧ (base < 2 ∨ 36 < base) then some ⟨0, none, erange⟩
  else (readSpaces mem num).bind fun numstr => convert mem num numstr endptr base errno

/-- The digit of a character in the base. -/
def digitValue (base : Nat) (c : BitVec 8) : Option Nat :=
  (if 0x30 ≤ c.toNat ∧ c.toNat ≤ 0x39 then some (c.toNat - 0x30)
  else if 0x41 ≤ c.toNat ∧ c.toNat ≤ 0x5a then some (c.toNat - 0x41 + 10)
  else if 0x61 ≤ c.toNat ∧ c.toNat ≤ 0x7a then some (c.toNat - 0x61 + 10)
  else none).filter fun d => d < base

/-- From `p` on stand characters of the digits. -/
def DigitsAt (mem : Memory) (base : Nat) : U32 → List Nat → Prop
  | _, [] => True
  | p, d :: ds => digitValue base (mem p) = some d ∧ DigitsAt mem base (p + 1) ds

/-- The digits, and no digit behind them. -/
structure Numeral (mem : Memory) (base : Nat) (p : U32) (ds : List Nat) : Prop where
  digits : DigitsAt mem base p ds
  stop : digitValue base (mem (p + BitVec.ofNat 32 ds.length)) = none

theorem digit_char : ∀ c : BitVec 8, digit c.toInt = (digitValue 36 c).map Int.ofNat := by
  decide +kernel

section Loop

variable {mem : Memory} {base : Nat} {p : U32} {cutoff cutlimit : U32}

theorem digitValue_filter (le : base ≤ 36) (c : BitVec 8) :
    digitValue base c = (digitValue 36 c).filter fun d => d < base := by
  rw [digitValue, digitValue, Option.filter_filter]
  congr 1
  funext d
  by_cases small : d < base
  · simp [small, Nat.lt_of_lt_of_le small le]
  · simp [small]

/-- A character without a digit ends the loop. -/
theorem readDigits_stop (le : base ≤ 36) (none_at : digitValue base (mem p) = none) (turns : Nat)
    (a : Accumulator) :
    readDigits mem base cutoff cutlimit (turns + 1) a p = some (a, p) := by
  rw [readDigits, char, digit_char]
  rw [digitValue_filter le, Option.filter_eq_none_iff] at none_at
  split
  · rfl
  cases hd : digitValue 36 (mem p) with
  | none => rfl
  | some d =>
    have large := none_at d hd
    exact if_pos (Int.ofNat_le.mpr (Nat.le_of_not_lt (by simpa using large)))

theorem digitValue_nul : digitValue base 0 = none := rfl

theorem readDigits_next (le : base ≤ 36) {d : Nat} (here : digitValue base (mem p) = some d)
    (turns : Nat) (a : Accumulator) :
    readDigits mem base cutoff cutlimit (turns + 1) a p =
      readDigits mem base cutoff cutlimit turns (accumulate base cutoff cutlimit a d) (p + 1) := by
  have nonzero : char mem p ≠ 0 := by
    intro zero
    have nul : mem p = 0 := BitVec.eq_of_toInt_eq zero
    rw [nul, digitValue_nul] at here
    cases here
  rw [digitValue_filter le, Option.filter_eq_some_iff] at here
  obtain ⟨found, small⟩ := here
  rw [readDigits, if_neg nonzero, char, digit_char, found]
  exact if_neg (Int.not_le.mpr (Int.ofNat_lt.mpr (of_decide_eq_true small)))

theorem readDigits_eq (le : base ≤ 36) {ds : List Nat} (h : Numeral mem base p ds) {turns : Nat}
    (enough : ds.length < turns) (a : Accumulator) :
    readDigits mem base cutoff cutlimit turns a p =
      some (ds.foldl (fun a (d : Nat) => accumulate base cutoff cutlimit a d) a,
        p + BitVec.ofNat 32 ds.length) := by
  obtain ⟨digits, stop⟩ := h
  induction ds generalizing p turns a with
  | nil =>
    obtain ⟨turns, rfl⟩ := Nat.exists_eq_succ_of_ne_zero (Nat.ne_of_gt enough)
    rw [List.length_nil, add_ofNat_zero] at stop ⊢
    exact readDigits_stop le stop turns a
  | cons d ds ih =>
    obtain ⟨turns, rfl⟩ := Nat.exists_eq_succ_of_ne_zero (Nat.ne_of_gt (Nat.zero_lt_of_lt enough))
    obtain ⟨here, rest⟩ := digits
    rw [List.length_cons, add_ofNat_succ] at stop ⊢
    rw [readDigits_next le here, List.foldl_cons]
    exact ih (Nat.lt_of_succ_lt_succ enough) _ rest stop

theorem DigitsAt.get {ds : List Nat} (h : DigitsAt mem base p ds) {k : Nat} (hk : k < ds.length) :
    digitValue base (mem (p + BitVec.ofNat 32 k)) = some ds[k] := by
  induction ds generalizing p k with
  | nil => exact absurd hk (Nat.not_lt_zero k)
  | cons d ds ih =>
    cases k with
    | zero =>
      rw [add_ofNat_zero]
      exact h.1
    | succ k =>
      rw [add_ofNat_succ]
      exact ih h.2 (Nat.lt_of_succ_lt_succ hk)

theorem DigitsAt.lt {ds : List Nat} (h : DigitsAt mem base p ds) : ∀ d ∈ ds, d < base := by
  intro d hd
  obtain ⟨k, hk, rfl⟩ := List.mem_iff_getElem.mp hd
  have here := h.get hk
  rw [digitValue, Option.filter_eq_some_iff] at here
  exact of_decide_eq_true here.2

/-- Addresses repeat, and the character behind the digits is none of them. -/
theorem Numeral.length_lt {ds : List Nat} (h : Numeral mem base p ds) : ds.length < 2 ^ 32 := by
  by_contra long
  have inside : ds.length - 2 ^ 32 < ds.length := by omega
  have same : BitVec.ofNat 32 (ds.length - 2 ^ 32) = BitVec.ofNat 32 ds.length := by
    apply BitVec.eq_of_toNat_eq
    rw [BitVec.toNat_ofNat, BitVec.toNat_ofNat]
    omega
  have here := h.digits.get inside
  rw [same, h.stop] at here
  cases here

end Loop

section Space

variable {mem : Memory} {base : Nat} {num : U32} {ds : List Nat}

/-- A character with a digit is no other character that is looked for. -/
theorem digitValue_other (c : BitVec 8) : (digitValue 36 c).isSome →
    isspace c.toInt = false ∧ c.toInt ≠ 0x2d ∧ c.toInt ≠ 0x2b := by
  revert c
  decide +kernel

theorem digit_other (le : base ≤ 36) {p : U32} {d : Nat} (here : digitValue base (mem p) = some d) :
    isspace (char mem p) = false ∧ char mem p ≠ 0x2d ∧ char mem p ≠ 0x2b := by
  rw [digitValue_filter le, Option.filter_eq_some_iff] at here
  exact digitValue_other _ (Option.isSome_of_mem here.1)

theorem readSign_of_ne {p : U32} (h : char mem p ≠ 0x2d ∧ char mem p ≠ 0x2b) :
    readSign mem p = (false, p) := by
  rw [readSign, if_neg h.1, if_neg h.2]

/-- Neither a sign nor a digit is whitespace. -/
theorem Numeral.not_space (le : base ≤ 36) (h : Numeral mem base (readSign mem num).2 ds)
    (nonempty : ds ≠ []) : isspace (char mem num) = false := by
  by_cases minus : char mem num = 0x2d
  · rw [minus]
    rfl
  by_cases plus : char mem num = 0x2b
  · rw [plus]
    rfl
  · obtain ⟨digits, _⟩ := h
    rw [readSign_of_ne ⟨minus, plus⟩] at digits
    cases ds with
    | nil => exact absurd rfl nonempty
    | cons d ds => exact (digit_other le digits.1).1

end Space

/-- The number that would come of the next digit passes the limit. -/
def Fires (limit : Int) (base : Nat) (ds : List Nat) : Prop :=
  ∃ (q : List Nat) (d : Nat), (q ++ [d]) <+: ds ∧
    limit < (BitVec.ofNat 32 (value base q)).toInt * base + d

/-- A number as a signed word. -/
theorem signedWord_le (n : Nat) : (BitVec.ofNat 32 n).toInt ≤ n := by
  rw [BitVec.toInt_eq_toNat_cond, BitVec.toNat_ofNat]
  split <;> omega

theorem signedWord_eq {n : Nat} (small : n < 2 ^ 31) : (BitVec.ofNat 32 n).toInt = n := by
  rw [BitVec.toInt_eq_toNat_cond, BitVec.toNat_ofNat]
  split <;> omega

section Limit

variable {base : Nat} {bound : Int} {ds : List Nat}

theorem not_fires_nil : ¬ Fires bound base [] := by
  rintro ⟨q, d, ends, _⟩
  exact List.append_ne_nil_of_right_ne_nil q (List.cons_ne_nil d [])
    (List.prefix_nil.mp ends)

theorem fires_concat {d : Nat} :
    Fires bound base (ds ++ [d]) ↔
      Fires bound base ds ∨ bound < (BitVec.ofNat 32 (value base ds)).toInt * base + d := by
  constructor
  · rintro ⟨q, e, ends, above⟩
    rcases List.prefix_concat_iff.mp ends with whole | before
    · obtain ⟨rfl, last⟩ := List.append_inj' whole rfl
      obtain rfl := List.singleton_inj.mp last
      exact Or.inr above
    · exact Or.inl ⟨q, e, before, above⟩
  · rintro (⟨q, e, before, above⟩ | above)
    · exact ⟨q, e, before.trans (List.prefix_append ds [d]), above⟩
    · exact ⟨ds, d, List.prefix_rfl, above⟩

theorem Fires.concat (h : Fires bound base ds) (d : Nat) : Fires bound base (ds ++ [d]) :=
  fires_concat.mpr (Or.inl h)

/-- A number that fires is beyond the limit. -/
theorem Fires.exceeds (positive : 0 < base) (h : Fires bound base ds) : bound < value base ds := by
  obtain ⟨q, d, ⟨rest, split⟩, above⟩ := h
  have signed := signedWord_le (value base q)
  have grown := value_le_append positive (q ++ [d]) rest
  rw [split, value_concat] at grown
  have product : (BitVec.ofNat 32 (value base q)).toInt * base ≤ (value base q : Int) * base :=
    Int.mul_le_mul_of_nonneg_right signed (Int.natCast_nonneg base)
  have grown : (value base q : Int) * base + d ≤ value base ds := by
    exact_mod_cast grown
  omega

end Limit

section Accumulate

variable {base : Nat} (two_le : 2 ≤ base) (le : base ≤ 36) (negative : Bool)

/-- The limit as a number. -/
def bound (negative : Bool) : Int := if negative then 2 ^ 31 else 2 ^ 31 - 1

theorem limit_toNat : ((limit negative).toNat : Int) = bound negative := by
  cases negative <;> rfl

include two_le le

theorem base_toNat : (BitVec.ofInt 32 base).toNat = base := by
  rw [BitVec.ofInt_natCast, BitVec.toNat_ofNat, Nat.mod_eq_of_lt (by omega)]

theorem cutoff_toInt : (limit negative / BitVec.ofInt 32 base).toInt = bound negative / base := by
  have word : (limit negative / BitVec.ofInt 32 base).toNat = (limit negative).toNat / base := by
    rw [BitVec.toNat_udiv, base_toNat two_le le]
  have small : (limit negative).toNat / base < 2 ^ 31 := by
    rw [Nat.div_lt_iff_lt_mul (by omega)]
    have below : (limit negative).toNat ≤ 2 ^ 31 := by
      cases negative <;> decide
    omega
  rw [BitVec.toInt_eq_toNat_of_lt (by omega), word, ← limit_toNat, Int.natCast_ediv]

theorem cutlimit_toInt : (limit negative % BitVec.ofInt 32 base).toInt = bound negative % base := by
  have word : (limit negative % BitVec.ofInt 32 base).toNat = (limit negative).toNat % base := by
    rw [BitVec.toNat_umod, base_toNat two_le le]
  have small : (limit negative).toNat % base < base := Nat.mod_lt _ (by omega)
  rw [BitVec.toInt_eq_toNat_of_lt (by omega), word, ← limit_toNat, Int.natCast_emod]

omit two_le le in
theorem accumulate_fired {cutoff cutlimit : U32} {a : Accumulator} {d : Int} (fired : a.any < 0) :
    accumulate base cutoff cutlimit a d = { a with any := -1 } :=
  if_pos (Or.inl fired)

/-- One digit, while none has passed the limit. -/
theorem accumulate_next {n : Nat} {any : Int} (unfired : ¬ any < 0) {d : Nat} (small : d < base) :
    accumulate base (limit negative / BitVec.ofInt 32 base) (limit negative % BitVec.ofInt 32 base)
        ⟨BitVec.ofNat 32 n, any⟩ d =
      if bound negative < (BitVec.ofNat 32 n).toInt * base + d then ⟨BitVec.ofNat 32 n, -1⟩
      else ⟨BitVec.ofNat 32 (n * base + d), 1⟩ := by
  have test := @exceeds_iff (bound negative) base (BitVec.ofNat 32 n).toInt d
    (Int.natCast_pos.mpr (by omega)) (Int.natCast_nonneg d) (Int.ofNat_lt.mpr small)
  rw [accumulate, cutoff_toInt two_le le, cutlimit_toInt two_le le]
  by_cases above : bound negative < (BitVec.ofNat 32 n).toInt * base + d
  · rw [if_pos (Or.inr (test.mpr above)), if_pos above]
  · rw [if_neg (not_or.mpr ⟨unfired, fun h => above (test.mp h)⟩), if_neg above,
      BitVec.ofInt_natCast, BitVec.ofInt_natCast, ← BitVec.ofNat_mul, ← BitVec.ofNat_add]

/-- After all digits the word holds their value, or one of them has passed the limit. -/
theorem accumulate_digits {ds : List Nat} (small : ∀ d ∈ ds, d < base) :
    let a := ds.foldl (fun a (d : Nat) => accumulate base (limit negative / BitVec.ofInt 32 base)
      (limit negative % BitVec.ofInt 32 base) a d) ⟨0, 0⟩
    (Fires (bound negative) base ds → a.any = -1) ∧
      (¬ Fires (bound negative) base ds →
        a = ⟨BitVec.ofNat 32 (value base ds), if ds = [] then 0 else 1⟩) := by
  induction ds using List.reverseRecOn with
  | nil => exact ⟨fun fires => absurd fires not_fires_nil, fun _ => rfl⟩
  | append_singleton ds d ih =>
    obtain ⟨fired, unfired⟩ := ih fun e he => small e (List.mem_append_left [d] he)
    have last := small d (List.mem_append_right ds List.mem_cons_self)
    rw [List.foldl_append, List.foldl_cons, List.foldl_nil]
    by_cases fires : Fires (bound negative) base ds
    · refine ⟨fun _ => ?_, fun not => absurd (fires.concat d) not⟩
      rw [accumulate_fired (by rw [fired fires]; decide)]
    · have next := @accumulate_next base two_le le negative (value base ds)
        (if ds = [] then 0 else 1) (by split <;> decide) d last
      rw [unfired fires, next]
      constructor
      · intro both
        rw [if_pos ((fires_concat.mp both).resolve_left fires)]
      · intro not
        rw [if_neg fun above => not (fires_concat.mpr (Or.inr above)), value_concat,
          if_neg (List.append_ne_nil_of_right_ne_nil ds (List.cons_ne_nil d []))]

end Accumulate

section Call

variable {mem : Memory} {base : Nat} (two_le : 2 ≤ base) (le : base ≤ 36)

/-- What is returned for a number of the digits `ds`, which end at `stop`. -/
structure Reads (negative endptr : Bool) (base : Nat) (ds : List Nat) (num stop : U32) (errno : Nat)
    (r : Answer) : Prop where
  endptr : r.endptr = if endptr then some (if ds = [] then num else stop - 1) else none
  fired : Fires (bound negative) base ds → r.value = limit negative ∧ r.errno = erange
  unfired : ¬ Fires (bound negative) base ds → r.errno = errno ∧
    r.value = if negative then -BitVec.ofNat 32 (value base ds) else BitVec.ofNat 32 (value base ds)

/-- The prefix that is looked for is one no string has. -/
theorem hexPrefix_false (numstr : U32) : hexPrefix mem numstr = false := by
  refine decide_eq_false ?_
  rintro ⟨zero, other⟩
  omega

theorem readPrefix_eq (numstr : U32) {base : Int} (nonzero : base ≠ 0) :
    readPrefix mem numstr base = (numstr, base) := by
  rw [readPrefix, hexPrefix_false, if_neg Bool.false_ne_true, if_neg nonzero, ite_self]

include two_le le

/-- From the place and in the base that the prefix leaves. -/
theorem convert_reads_from {num numstr p : U32} {given : Int} {ds : List Nat}
    (start : readPrefix mem (readSign mem numstr).2 given = (p, (base : Int)))
    (h : Numeral mem base p ds) (endptr : Bool) (errno : Nat) :
    ∃ r, convert mem num numstr endptr given errno = some r ∧
      Reads (readSign mem numstr).1 endptr base ds num (p + BitVec.ofNat 32 ds.length) errno r := by
  have nonzero : (base : Int) ≠ 0 := by omega
  obtain ⟨fired, unfired⟩ := accumulate_digits two_le le (readSign mem numstr).1 h.digits.lt
  rw [convert, start]
  dsimp only
  rw [if_neg nonzero, readDigits_eq le h h.length_lt, Option.map_some]
  refine ⟨_, rfl, ?_⟩
  generalize ds.foldl _ _ = a at fired unfired ⊢
  by_cases fires : Fires (bound (readSign mem numstr).1) base ds
  · have any := fired fires
    have nonempty : ds ≠ [] := by
      rintro rfl
      exact not_fires_nil fires
    have beyond : a.any < 0 := by
      rw [any]
      decide
    refine ⟨?_, fun _ => ⟨?_, if_pos beyond⟩, fun not => absurd fires not⟩
    · rw [finish, if_neg nonempty, if_pos (Int.ne_of_lt beyond)]
    · rw [finish, if_pos beyond]
      cases (readSign mem numstr).1 <;> rfl
  · have none_fired := unfired fires
    have within : ¬ a.any < 0 := by
      rw [none_fired]
      dsimp only
      split <;> decide
    refine ⟨?_, fun yes => absurd yes fires, fun _ => ⟨if_neg within, ?_⟩⟩
    · rw [finish, none_fired]
      by_cases empty : ds = []
      · simp [empty]
      · simp [empty]
    · rw [finish, if_neg within, none_fired]

theorem convert_reads {num numstr : U32} {ds : List Nat}
    (h : Numeral mem base (readSign mem numstr).2 ds) (endptr : Bool) (errno : Nat) :
    ∃ r, convert mem num numstr endptr base errno = some r ∧
      Reads (readSign mem numstr).1 endptr base ds num
        ((readSign mem numstr).2 + BitVec.ofNat 32 ds.length) errno r :=
  convert_reads_from two_le le (readPrefix_eq _ (by omega)) h endptr errno

/-- Without whitespace in front the reading begins at once. -/
theorem strtol_eq {num : U32} (endptr : Bool) (errno : Nat) :
    strtol mem num endptr base errno =
      (readSpaces mem num).bind fun numstr => convert mem num numstr endptr base errno :=
  if_neg (by omega)

theorem strtol_reads {num : U32} (blank : isspace (char mem num) = false) {ds : List Nat}
    (h : Numeral mem base (readSign mem num).2 ds) (endptr : Bool) (errno : Nat) :
    ∃ r, strtol mem num endptr base errno = some r ∧
      Reads (readSign mem num).1 endptr base ds num
        ((readSign mem num).2 + BitVec.ofNat 32 ds.length) errno r := by
  rw [strtol_eq two_le le, readSpaces, blank, if_neg Bool.false_ne_true, Option.bind_some]
  exact convert_reads two_le le h endptr errno

end Call

end Strtol
