/-!
# Runs of a labelled transition relation

A run takes labels in order, each by one step of the relation. The rules below
turn what one step preserves into what every run preserves, so that a system is
examined one step at a time. Restricting the steps by a guard gives the runs
whose every step meets a condition.
-/

namespace TransitionRuns

universe u v w

variable {S : Type u} {A : Type v} {T : Type w}

inductive Run (step : S → A → S → Prop) : S → List A → S → Prop
  | nil (s : S) : Run step s [] s
  | cons {s t r : S} {a : A} {as : List A} :
      step s a t → Run step t as r → Run step s (a :: as) r

/-- Keep only the steps that meet a condition on the state before and the label. -/
def Guarded (guard : S → A → Prop) (step : S → A → S → Prop) (s : S) (a : A) (t : S) : Prop :=
  guard s a ∧ step s a t

theorem Run.append {step : S → A → S → Prop} {s t r : S} {as bs : List A}
    (first : Run step s as t) (second : Run step t bs r) : Run step s (as ++ bs) r := by
  induction first with
  | nil => exact second
  | cons h _ ih => exact .cons h (ih second)

theorem Run.split {step : S → A → S → Prop} {s r : S} (as : List A) {bs : List A}
    (h : Run step s (as ++ bs) r) : ∃ t, Run step s as t ∧ Run step t bs r := by
  induction as generalizing s with
  | nil => exact ⟨s, .nil s, h⟩
  | cons a as ih =>
    cases h with
    | cons ha hrest =>
      obtain ⟨t, hs, ht⟩ := ih hrest
      exact ⟨t, .cons ha hs, ht⟩

theorem Run.mono {step step' : S → A → S → Prop} {s t : S} {as : List A}
    (h : Run step s as t) (imp : ∀ s a t, step s a t → step' s a t) : Run step' s as t := by
  induction h with
  | nil => exact .nil _
  | cons ha _ ih => exact .cons (imp _ _ _ ha) ih

/-- What every step preserves holds in every state a run reaches. -/
theorem Run.invariant {step : S → A → S → Prop} {I : S → Prop}
    (preserved : ∀ s a t, I s → step s a t → I t) {s t : S} {as : List A}
    (h : Run step s as t) (start : I s) : I t := by
  induction h with
  | nil => exact start
  | cons ha _ ih => exact ih (preserved _ _ _ start ha)

/-- A reflexive and transitive relation that each step respects relates the two
ends of a run; the invariant is available at every step. -/
theorem Run.relates {step : S → A → S → Prop} {I : S → Prop} {R : S → S → Prop}
    (refl : ∀ s, R s s) (trans : ∀ s t r, R s t → R t r → R s r)
    (preserved : ∀ s a t, I s → step s a t → I t)
    (related : ∀ s a t, I s → step s a t → R s t) {s t : S} {as : List A}
    (h : Run step s as t) (start : I s) : R s t := by
  induction h with
  | nil => exact refl _
  | cons ha _ ih =>
    exact trans _ _ _ (related _ _ _ start ha) (ih (preserved _ _ _ start ha))

/-- Forward simulation: an abstraction function that carries every concrete step
to an abstract one carries every run. -/
theorem Run.simulates {step : S → A → S → Prop} {abstract : T → A → T → Prop}
    {I : S → Prop} (view : S → T)
    (preserved : ∀ s a t, I s → step s a t → I t)
    (simulated : ∀ s a t, I s → step s a t → abstract (view s) a (view t)) {s t : S}
    {as : List A} (h : Run step s as t) (start : I s) :
    Run abstract (view s) as (view t) := by
  induction h with
  | nil => exact .nil _
  | cons ha _ ih =>
    exact .cons (simulated _ _ _ start ha) (ih (preserved _ _ _ start ha))

end TransitionRuns
