import Mathlib.Data.List.Basic
import Mathlib.Logic.Function.Basic

/-!
# Queues at the front of an array

A queue of `n` items lies in the first `n` slots. Taking the head leaves a gap in
slot 0, and each turn of the loop that closes the ranks moves the gap one slot up.
While the gap is among the items a new item goes one slot further than their number;
once the gap has passed the last item the ranks are closed.
-/

namespace ArrayQueues

universe u

variable {α : Type u}

/-- The items are the first slots, in order. -/
def Holds (a : Nat → α) (xs : List α) : Prop := ∀ j (h : j < xs.length), a j = xs[j]

/-- The items are the first slots with slot `gap` left out. -/
def Gapped (a : Nat → α) (gap : Nat) (xs : List α) : Prop :=
  ∀ j (h : j < xs.length), a (if j < gap then j else j + 1) = xs[j]

theorem holds_nil (a : Nat → α) : Holds a [] := fun _ h => absurd h (Nat.not_lt_zero _)

theorem Holds.push {a : Nat → α} {xs : List α} (h : Holds a xs) (x : α) :
    Holds (Function.update a xs.length x) (xs ++ [x]) := by
  intro j hj
  by_cases hlast : j = xs.length
  · subst j
    simp
  · have hlt : j < xs.length := by
      rw [List.length_append, List.length_singleton] at hj
      omega
    rw [Function.update_of_ne hlast, List.getElem_append_left hlt]
    exact h j hlt

theorem Holds.head {a : Nat → α} {x : α} {xs : List α} (h : Holds a (x :: xs)) : a 0 = x :=
  h 0 (Nat.zero_lt_succ _)

/-- Without its head the queue has a gap in slot 0. -/
theorem Holds.tail {a : Nat → α} {x : α} {xs : List α} (h : Holds a (x :: xs)) :
    Gapped a 0 xs :=
  fun j hj => h (j + 1) (Nat.succ_lt_succ hj)

/-- A turn moves the gap up. It may read a slot past the items, but then the gap is
past them too. -/
theorem Gapped.close {a : Nat → α} {i : Nat} {xs : List α} (h : Gapped a i xs) {next : α}
    (reads : i < xs.length → next = a (i + 1)) :
    Gapped (Function.update a i next) (i + 1) xs := by
  intro j hj
  have hold := h j hj
  rcases Nat.lt_trichotomy j i with hlt | rfl | hgt
  · rw [if_pos hlt] at hold
    rw [if_pos (Nat.lt_succ_of_lt hlt), Function.update_of_ne (Nat.ne_of_lt hlt)]
    exact hold
  · rw [if_neg (Nat.lt_irrefl j)] at hold
    rw [if_pos (Nat.lt_succ_self j), Function.update_self, reads hj]
    exact hold
  · rw [if_neg (Nat.lt_asymm hgt)] at hold
    rw [if_neg (Nat.not_lt.mpr (Nat.succ_le_of_lt hgt)),
      Function.update_of_ne (by omega)]
    exact hold

theorem Gapped.push {a : Nat → α} {i : Nat} {xs : List α} (h : Gapped a i xs)
    (room : i ≤ xs.length) (x : α) :
    Gapped (Function.update a (xs.length + 1) x) i (xs ++ [x]) := by
  intro j hj
  rw [List.length_append, List.length_singleton] at hj
  by_cases hlast : j = xs.length
  · subst j
    rw [if_neg (Nat.not_lt.mpr room), Function.update_self]
    simp
  · have hlt : j < xs.length := by omega
    have hne : (if j < i then j else j + 1) ≠ xs.length + 1 := by
      split <;> omega
    rw [Function.update_of_ne hne, List.getElem_append_left hlt]
    exact h j hlt

/-- Behind the last item the gap is no gap. -/
theorem Gapped.closed {a : Nat → α} {i : Nat} {xs : List α} (h : Gapped a i xs)
    (past : xs.length ≤ i) : Holds a xs := by
  intro j hj
  have hold := h j hj
  rwa [if_pos (Nat.lt_of_lt_of_le hj past)] at hold

end ArrayQueues
