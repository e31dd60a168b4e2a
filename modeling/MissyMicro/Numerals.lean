import Mathlib.Data.Nat.Digits.Lemmas
import Mathlib.Tactic.Linarith

/-!
# Positional numerals

The value of a list of digits, the first one the most significant. A reader that multiplies and
adds can ask before each digit whether the value would pass a limit: quotient and remainder of
the limit decide it without computing the value.
-/

namespace Numerals

variable {b : Nat}

def value (b : Nat) (ds : List Nat) : Nat := ds.foldl (fun n d => n * b + d) 0

@[simp] theorem value_nil : value b [] = 0 := rfl

@[simp] theorem value_singleton (d : Nat) : value b [d] = d := by simp [value]

theorem value_concat (ds : List Nat) (d : Nat) : value b (ds ++ [d]) = value b ds * b + d := by
  rw [value, List.foldl_append]
  rfl

/-- Digits behind others shift their value up. -/
theorem value_append (ds es : List Nat) :
    value b (ds ++ es) = value b ds * b ^ es.length + value b es := by
  induction es using List.reverseRecOn with
  | nil => simp
  | append_singleton es e ih =>
    rw [← List.append_assoc, value_concat, ih, value_concat, List.length_append,
      List.length_singleton, Nat.pow_succ]
    ring

theorem value_le_append (positive : 0 < b) (ds es : List Nat) :
    value b ds ≤ value b (ds ++ es) := by
  rw [value_append]
  exact Nat.le_add_right_of_le (Nat.le_mul_of_pos_right _ (Nat.pow_pos positive))

theorem value_reverse (ds : List Nat) : value b ds.reverse = Nat.ofDigits b ds := by
  induction ds with
  | nil => rfl
  | cons d ds ih =>
    rw [List.reverse_cons, value_concat, ih, Nat.ofDigits_cons, Nat.mul_comm, Nat.add_comm]

/-- The digits of a number have its value. -/
theorem value_digits (n : Nat) : value b (Nat.digits b n).reverse = n := by
  rw [value_reverse, Nat.ofDigits_digits]

/-- The first digit is the most significant, and 0 has a digit, too. -/
def digitsOf (b n : Nat) : List Nat := if n = 0 then [0] else (Nat.digits b n).reverse

theorem digitsOf_ne_nil (n : Nat) : digitsOf b n ≠ [] := by
  rw [digitsOf]
  split
  · exact List.cons_ne_nil 0 []
  · rename_i nonzero
    exact fun empty => nonzero (Nat.digits_eq_nil_iff_eq_zero.mp (List.reverse_eq_nil_iff.mp empty))

theorem value_digitsOf (n : Nat) : value b (digitsOf b n) = n := by
  rw [digitsOf]
  split
  · rename_i zero
    rw [zero, value_singleton]
  · exact value_digits n

/-- Only 0 begins with the digit 0. -/
theorem digitsOf_head {n : Nat} (h : (digitsOf b n).head? = some 0) : n = 0 := by
  by_contra nonzero
  rw [digitsOf, if_neg nonzero, List.head?_reverse,
    List.getLast?_eq_some_getLast (Nat.digits_ne_nil_iff_ne_zero.mpr nonzero)] at h
  exact Nat.getLast_digit_ne_zero b nonzero (Option.some.inj h)

theorem digitsOf_lt (two_le : 2 ≤ b) (n : Nat) : ∀ d ∈ digitsOf b n, d < b := by
  intro d hd
  rw [digitsOf] at hd
  split at hd
  · obtain rfl := List.mem_singleton.mp hd
    omega
  · exact Nat.digits_lt_base two_le (List.mem_reverse.mp hd)

theorem digitsOf_length_le (two_le : 2 ≤ b) {n room : Nat} (one_le : 1 ≤ room)
    (hn : n < b ^ room) : (digitsOf b n).length ≤ room := by
  rw [digitsOf]
  split
  · exact one_le
  · rw [List.length_reverse]
    exact (Nat.digits_length_le_iff two_le n).mpr hn

/-- The test against quotient and remainder of the limit. -/
theorem exceeds_iff {limit base n d : Int} (positive : 0 < base) (nonneg : 0 ≤ d)
    (digit : d < base) :
    (limit / base < n ∨ (n = limit / base ∧ limit % base < d)) ↔ limit < n * base + d := by
  have split := Int.mul_ediv_add_emod limit base
  have low := Int.emod_nonneg limit (Int.ne_of_gt positive)
  have high := Int.emod_lt_of_pos limit positive
  generalize limit / base = q at *
  generalize limit % base = r at *
  rcases Int.lt_trichotomy q n with above | same | below
  · refine iff_of_true (Or.inl above) ?_
    nlinarith
  · subst same
    constructor
    · rintro (absurd' | ⟨_, behind⟩)
      · exact absurd absurd' (Int.lt_irrefl q)
      · nlinarith
    · intro exceeds
      refine Or.inr ⟨rfl, ?_⟩
      nlinarith
  · refine iff_of_false ?_ ?_
    · omega
    · nlinarith

end Numerals
