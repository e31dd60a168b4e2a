import Mathlib.Logic.Basic
import Mathlib.Order.Defs.LinearOrder

/-!
# The first difference of two sequences

Below a bound two sequences agree, or there is a first place where they differ. A loop that
compares them place by place goes on while they agree, and what it does next is what it would do
if it began there.
-/

namespace FirstDifference

universe u v

variable {α : Type u} {f g : Nat → α} {k n : Nat}

/-- The places below `n` hold the same. -/
def Agree (f g : Nat → α) (n : Nat) : Prop := ∀ k < n, f k = g k

structure FirstAt (f g : Nat → α) (k : Nat) : Prop where
  agree : Agree f g k
  differ : f k ≠ g k

theorem agree_zero : Agree f g 0 := fun k hk => absurd hk (Nat.not_lt_zero k)

theorem agree_succ : Agree f g (n + 1) ↔ Agree f g n ∧ f n = g n := by
  constructor
  · intro h
    exact ⟨fun k hk => h k (Nat.lt_succ_of_lt hk), h n (Nat.lt_succ_self n)⟩
  · rintro ⟨below, last⟩ k hk
    rcases Nat.lt_succ_iff_lt_or_eq.mp hk with hk | rfl
    · exact below k hk
    · exact last

theorem Agree.symm (h : Agree f g n) : Agree g f n := fun k hk => (h k hk).symm

theorem FirstAt.symm (h : FirstAt f g k) : FirstAt g f k := ⟨h.agree.symm, h.differ.symm⟩

theorem FirstAt.not_agree (h : FirstAt f g k) (hk : k < n) : ¬ Agree f g n :=
  fun agree => h.differ (agree k hk)

theorem FirstAt.unique {l : Nat} (h : FirstAt f g k) (h' : FirstAt f g l) : k = l := by
  rcases Nat.lt_trichotomy k l with less | same | more
  · exact absurd (h'.agree k less) h.differ
  · exact same
  · exact absurd (h.agree l more) h'.differ

/-- One of the two ends of a comparison is always reached. -/
theorem agree_or_first (f g : Nat → α) (n : Nat) : Agree f g n ∨ ∃ k < n, FirstAt f g k := by
  induction n with
  | zero => exact Or.inl agree_zero
  | succ n ih =>
    rcases ih with below | ⟨k, hk, first⟩
    · by_cases same : f n = g n
      · exact Or.inl (agree_succ.mpr ⟨below, same⟩)
      · exact Or.inr ⟨n, Nat.lt_succ_self n, below, same⟩
    · exact Or.inr ⟨k, Nat.lt_succ_of_lt hk, first⟩

/-- A loop that goes on at `i` while `P i` holds, with `n` turns left. -/
theorem skip_turns {β : Type v} {loop : Nat → Nat → β} {P : Nat → Prop}
    (turn : ∀ i n, P i → loop i (n + 1) = loop (i + 1) n) (h : ∀ i < k, P i) (n : Nat) :
    loop 0 (k + n) = loop k n := by
  induction k generalizing n with
  | zero => rw [Nat.zero_add]
  | succ k ih =>
    rw [Nat.add_right_comm, Nat.add_assoc, ih (fun i hi => h i (Nat.lt_succ_of_lt hi)),
      turn k n (h k (Nat.lt_succ_self k))]

end FirstDifference
