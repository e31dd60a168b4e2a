import MissyMicro.Numerals
import MissyMicro.Printf

/-!
# Numbers as text

What `itoa_s` writes is the numeral of the number in a base from 2 to 16. The guard lets every
smaller base through as well: 1, for which the division loop does not end, 0, and the negative
bases, which are large numbers by the time they divide.
-/

namespace NumberConversion

open Printf Numerals

/-- The size of `num_str` in the branch of a directive. -/
def numStrSize : NumberKind → Nat
  | .d => 20
  | .i => 20
  | .b => 36
  | .x => 20
  | .X => 20

variable {base : Nat}

theorem numeral_eq_map (n : Nat) : numeral base n = (digitsOf base n).map digitChar := by
  rw [numeral, digitsOf]
  split <;> rfl

theorem numeral_lettermap (two_le : 2 ≤ base) (le_sixteen : base ≤ 16) (n : Nat) :
    numeral base n = (digitsOf base n).map fun d => lettermap.getD d 0 := by
  rw [numeral_eq_map]
  refine List.map_congr_left fun d hd => ?_
  have small := digitsOf_lt two_le n d hd
  rw [List.getD_eq_getElem?_getD, lettermap_digit d (by omega)]
  rfl

/-- Every `num_str` takes the text of its base. -/
theorem numStrSize_fits (kind : NumberKind) (num : U32) :
    (digitsOf kind.base num.toNat).length + 1 ≤ numStrSize kind := by
  cases kind with
  | d => exact Nat.succ_le_succ (@digitsOf_length_le 10 (by decide) _ 19 (by decide) (by omega))
  | i => exact Nat.succ_le_succ (@digitsOf_length_le 10 (by decide) _ 19 (by decide) (by omega))
  | b => exact Nat.succ_le_succ (@digitsOf_length_le 2 (by decide) _ 35 (by decide) (by omega))
  | x => exact Nat.succ_le_succ (@digitsOf_length_le 16 (by decide) _ 19 (by decide) (by omega))
  | X => exact Nat.succ_le_succ (@digitsOf_length_le 16 (by decide) _ 19 (by decide) (by omega))

theorem itoaS_canonical (two_le : 2 ≤ base) (le_sixteen : base ≤ 16) (num : U32) :
    ∃ ds : List Nat,
      itoaS num (BitVec.ofNat 32 base) = some ((ds.map fun d => lettermap.getD d 0) ++ [0]) ∧
      (∀ d ∈ ds, d < base ∧ lettermap.getD d 0 ≠ 0) ∧ ds ≠ [] ∧
      (ds.head? = some 0 → num = 0 ∧ ds = [0]) ∧ value base ds = num.toNat ∧
      (∃ buffer, takeDigits (BitVec.ofNat 32 base) 32 num [] = some buffer ∧
        buffer.length ≤ 32) ∧
      ((ds.map fun d => lettermap.getD d 0) ++ [0]).length ≤ 33 ∧
      ∀ kind : NumberKind, kind.base = base →
        ((ds.map fun d => lettermap.getD d 0) ++ [0]).length ≤ numStrSize kind := by
  have text := numeral_lettermap two_le le_sixteen num.toNat
  have size : num.toNat < base ^ 32 :=
    Nat.lt_of_lt_of_le num.isLt (Nat.pow_le_pow_left two_le 32)
  refine ⟨digitsOf base num.toNat, ?_, fun d hd => ?_, digitsOf_ne_nil _, fun first => ?_,
    value_digitsOf _, ⟨_, takeDigits_eq two_le le_sixteen size [], ?_⟩, ?_, fun kind same => ?_⟩
  · rw [itoaS_eq two_le le_sixteen, text]
  · refine ⟨digitsOf_lt two_le _ d hd, ?_⟩
    refine numeral_ne_zero two_le le_sixteen num.toNat _ ?_
    rw [text]
    exact List.mem_map_of_mem hd
  · have zero := digitsOf_head first
    refine ⟨BitVec.eq_of_toNat_eq zero, ?_⟩
    rw [zero, digitsOf, if_pos rfl]
  · rw [List.nil_append, List.length_map]
    exact (Nat.digits_length_le_iff two_le _).mpr size
  · rw [List.length_append, List.length_map]
    exact Nat.succ_le_succ (digitsOf_length_le two_le (by decide) size)
  · subst same
    rw [List.length_append, List.length_map]
    exact numStrSize_fits kind num

/-- The longest text: 32 digits in base 2. -/
theorem itoaS_canonical_binary :
    2 ≤ 2 ∧ 2 ≤ 16 ∧ ∃ ds : List Nat,
      itoaS 0xffffffff (BitVec.ofNat 32 2) = some ((ds.map fun d => lettermap.getD d 0) ++ [0]) ∧
      value 2 ds = 0xffffffff ∧ ((ds.map fun d => lettermap.getD d 0) ++ [0]).length ≤ 36 := by
  obtain ⟨ds, text, _, _, _, same, _, _, fits⟩ :=
    @itoaS_canonical 2 (by decide) (by decide) 0xffffffff
  exact ⟨by decide, by decide, ds, text, same, fits .b rfl⟩

/-- The indices into `lettermap`, as far as the loop comes. -/
def letters (base : U32) : Nat → U32 → List Nat
  | 0, _ => []
  | room + 1, num =>
    if num = 0 ∨ base = 0 then []
    else (num % base).toNat :: letters base room (num / base)

def indices (num base : U32) : List Nat :=
  if num = 0 ∨ 16 < base.toInt then [] else letters base 32 num

/-- The call ends, without a division by zero or a store behind `buffer`, and takes only digits
from `lettermap`. -/
def Converts (num base : U32) : Prop :=
  (∃ str, itoaS num base = some str) ∧ ∀ i ∈ indices num base, i < 16

theorem letters_lt {base : U32} (room : Nat) (num : U32) :
    ∀ i ∈ letters base room num, i < base.toNat := by
  induction room generalizing num with
  | zero => exact fun i hi => absurd hi List.not_mem_nil
  | succ room ih =>
    intro i hi
    rw [letters] at hi
    split at hi
    · exact absurd hi List.not_mem_nil
    · rename_i inside
      rcases List.mem_cons.mp hi with rfl | hi
      · rw [BitVec.toNat_umod]
        refine Nat.mod_lt _ (Nat.pos_of_ne_zero fun zero => inside (Or.inr ?_))
        exact BitVec.eq_of_toNat_eq zero
      · exact ih (num / base) i hi

/-- In base 1 the number stays what it is. -/
theorem takeDigits_one {num : U32} (nonzero : num ≠ 0) (room : Nat) (buffer : List (BitVec 8)) :
    takeDigits 1 room num buffer = none := by
  induction room generalizing buffer with
  | zero => exact if_neg nonzero
  | succ room ih =>
    have same : num / 1 = num := BitVec.udiv_one
    have first : (num % 1).toNat = 0 := by
      rw [BitVec.toNat_umod]
      exact Nat.mod_one _
    rw [takeDigits, if_neg nonzero, if_neg (by decide), first, same]
    exact ih _

theorem negative_large {base : U32} (negative : base.toInt < 0) : 2 ^ 31 ≤ base.toNat := by
  rw [BitVec.toInt_eq_toNat_cond] at negative
  split at negative <;> omega

/-- A quotient by a negative base is 0 or 1. -/
theorem div_negative {num base : U32} (negative : base.toInt < 0) :
    num / base = 0 ∨ num / base = 1 := by
  have large := negative_large negative
  have few : num.toNat / base.toNat < 2 := by
    rw [Nat.div_lt_iff_lt_mul (by omega)]
    omega
  have quotient : (num / base).toNat = num.toNat / base.toNat := BitVec.toNat_udiv
  rcases Nat.lt_or_ge (num.toNat / base.toNat) 1 with zero | one
  · exact Or.inl (BitVec.eq_of_toNat_eq (by change _ = 0; omega))
  · exact Or.inr (BitVec.eq_of_toNat_eq (by change _ = 1; omega))

/-- The loop ends when no index is outside, in every base that divides the number down. -/
theorem takeDigits_of_letters {base : U32} (two_le : 2 ≤ base.toNat) {room : Nat} {num : U32}
    (size : num.toNat < base.toNat ^ room) (small : ∀ i ∈ letters base room num, i < 16)
    (buffer : List (BitVec 8)) : ∃ out, takeDigits base room num buffer = some out := by
  have divides : base ≠ 0 := by
    rintro rfl
    exact absurd two_le (by decide)
  induction room generalizing num buffer with
  | zero =>
    have zero : num = 0 := BitVec.eq_of_toNat_eq (Nat.lt_one_iff.mp size)
    exact ⟨buffer, if_pos zero⟩
  | succ room ih =>
    by_cases zero : num = 0
    · exact ⟨buffer, if_pos zero⟩
    · have quotient : (num / base).toNat < base.toNat ^ room := by
        rw [BitVec.toNat_udiv, Nat.div_lt_iff_lt_mul (by omega), ← Nat.pow_succ]
        exact size
      rw [letters, if_neg (not_or.mpr ⟨zero, divides⟩)] at small
      have first := small _ List.mem_cons_self
      obtain ⟨out, taken⟩ := ih quotient (fun i hi => small i (List.mem_cons_of_mem _ hi))
        (buffer ++ [digitChar (num % base).toNat])
      refine ⟨out, ?_⟩
      rw [takeDigits, if_neg zero, if_neg divides, lettermap_digit _ first, Option.bind_some]
      exact taken

theorem converts_iff_letters {num base : U32} (two_le : 2 ≤ base.toNat)
    (loop : ¬ (num = 0 ∨ 16 < base.toInt)) :
    Converts num base ↔ ∀ i ∈ letters base 32 num, i < 16 := by
  rw [Converts, indices, if_neg loop]
  refine and_iff_right_of_imp fun small => ?_
  have size : num.toNat < base.toNat ^ 32 :=
    Nat.lt_of_lt_of_le num.isLt (Nat.pow_le_pow_left two_le 32)
  obtain ⟨out, taken⟩ := takeDigits_of_letters two_le size small []
  rw [itoaS, if_neg loop, taken, Option.bind_some, turnAround_eq]
  exact ⟨_, rfl⟩

/-- A negative base takes the number for one digit, with a 1 behind it if it divides. -/
theorem letters_negative {num base : U32} (nonzero : num ≠ 0) (negative : base.toInt < 0) :
    (∀ i ∈ letters base 32 num, i < 16) ↔ num.toNat % base.toNat < 16 := by
  have divides : base ≠ 0 := by
    rintro rfl
    exact absurd negative (by decide)
  have first : (num % base).toNat = num.toNat % base.toNat := BitVec.toNat_umod
  rw [letters, if_neg (not_or.mpr ⟨nonzero, divides⟩), List.forall_mem_cons, first]
  refine and_iff_left_of_imp fun _ i hi => ?_
  rcases div_negative negative with zero | one
  · rw [zero, letters, if_pos (Or.inl rfl)] at hi
    exact absurd hi List.not_mem_nil
  · have second : (1 % base : U32).toNat ≤ 1 := by
      rw [BitVec.toNat_umod]
      exact Nat.mod_le 1 _
    rw [one, letters, if_neg (not_or.mpr ⟨by decide, divides⟩)] at hi
    rcases List.mem_cons.mp hi with rfl | hi
    · omega
    · have rest : (1 / base : U32) = 0 := by
        refine BitVec.eq_of_toNat_eq ?_
        rw [BitVec.toNat_udiv]
        exact Nat.div_eq_of_lt (Nat.lt_of_lt_of_le (by decide) (negative_large negative))
      rw [rest, letters, if_pos (Or.inl rfl)] at hi
      exact absurd hi List.not_mem_nil

theorem itoaS_converts_iff (num base : U32) :
    Converts num base ↔
      num = 0 ∨ 2 ≤ base.toInt ∨ (base.toInt < 0 ∧ num.toNat % base.toNat < 16) := by
  by_cases loop : num = 0 ∨ 16 < base.toInt
  · refine iff_of_true ⟨⟨_, if_pos loop⟩, ?_⟩ (loop.imp id fun above => Or.inl (by omega))
    rw [indices, if_pos loop]
    exact fun i hi => absurd hi List.not_mem_nil
  obtain ⟨nonzero, guarded⟩ := not_or.mp loop
  rw [or_iff_right nonzero]
  by_cases negative : base.toInt < 0
  · rw [converts_iff_letters (Nat.le_trans (by decide) (negative_large negative)) loop,
      letters_negative nonzero negative, or_iff_right (by omega), and_iff_right negative]
  have word : (base.toNat : Int) = base.toInt := by
    rw [BitVec.toInt_eq_toNat_cond] at negative ⊢
    split at negative <;> omega
  by_cases digits : 2 ≤ base.toInt
  · rw [converts_iff_letters (by omega) loop]
    refine iff_of_true (fun i hi => ?_) (Or.inl digits)
    have below := letters_lt 32 num i hi
    omega
  · refine iff_of_false (fun converts => ?_) (by omega)
    obtain ⟨⟨str, written⟩, _⟩ := converts
    have few : base = 0 ∨ base = 1 := by
      rcases Nat.lt_or_ge base.toNat 1 with zero | one
      · exact Or.inl (BitVec.eq_of_toNat_eq (by change _ = 0; omega))
      · exact Or.inr (BitVec.eq_of_toNat_eq (by change _ = 1; omega))
    rw [itoaS, if_neg loop] at written
    rcases few with rfl | rfl
    · rw [takeDigits, if_neg nonzero, if_pos rfl] at written
      cases written
    · rw [takeDigits_one nonzero] at written
      cases written

/-- Base 1 does not end, base 0 divides by zero, base -1 takes a letter from behind `lettermap`. -/
theorem itoaS_bad_bases :
    itoaS 1 1 = none ∧ itoaS 1 0 = none ∧ itoaS 17 (-1) = none ∧
      ¬ Converts 1 1 ∧ ¬ Converts 1 0 ∧ ¬ Converts 17 (-1) := by
  have one : itoaS 1 1 = none := by decide
  have zero : itoaS 1 0 = none := by decide
  have negative : itoaS 17 (-1) = none := by decide
  have missing {num base : U32} (h : itoaS num base = none) : ¬ Converts num base := by
    rintro ⟨⟨str, written⟩, _⟩
    rw [h] at written
    cases written
  exact ⟨one, zero, negative, missing one, missing zero, missing negative⟩

end NumberConversion
