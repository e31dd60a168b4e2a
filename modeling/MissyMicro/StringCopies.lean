import MissyMicro.LibcString
import Mathlib.Data.List.GetD

/-!
# Copies of strings

`strcpy` is `strncpy` with the length that `strlen` gives, and that length counts the NUL. So the
NUL is copied as well, as the one character of the padding.
-/

namespace StringCopies

open LibcString

/-- The `n` bytes from `dst` on and the `m` bytes from `src` on have no byte in common. -/
def Apart (dst : U32) (n : Nat) (src : U32) (m : Nat) : Prop :=
  ∀ i < n, ∀ j < m, dst + BitVec.ofNat 32 i ≠ src + BitVec.ofNat 32 j

instance (dst : U32) (n : Nat) (src : U32) (m : Nat) : Decidable (Apart dst n src m) :=
  inferInstanceAs (Decidable (∀ i < n, ∀ j < m,
    dst + BitVec.ofNat 32 i ≠ src + BitVec.ofNat 32 j))

section Copies

variable {mem : U32 → BitVec 8} {dst src : U32} {text : List (BitVec 8)} {n m : Nat}

/-- Something is left of the addresses. -/
theorem Apart.lt (h : Apart dst n src m) (positive : 0 < n) : m < 2 ^ 32 := by
  by_contra full
  have inside := (dst - src).isLt
  refine h 0 positive (dst - src).toNat (by omega) ?_
  rw [add_ofNat_zero, add_index]

theorem Apart.symm (h : Apart dst n src m) : Apart src m dst n :=
  fun j hj i hi same => h i hi j hj same.symm

theorem Apart.tail (h : Apart dst (n + 1) src (m + 1)) : Apart (dst + 1) n (src + 1) m := by
  intro i hi j hj
  rw [← add_ofNat_succ, ← add_ofNat_succ]
  exact h (i + 1) (Nat.succ_lt_succ hi) (j + 1) (Nat.succ_lt_succ hj)

/-- A string that is not stored into stays. -/
theorem textAt_store {a : U32} (c : BitVec 8) (h : TextAt ramLoad mem src text)
    (other : ∀ j < text.length + 1, a ≠ src + BitVec.ofNat 32 j) :
    TextAt ramLoad (Function.update mem a c) src text := by
  have same {j : Nat} (hj : j < text.length + 1) :
      ramLoad (Function.update mem a c) (src + BitVec.ofNat 32 j) =
        ramLoad mem (src + BitVec.ofNat 32 j) :=
    congrArg some (Function.update_of_ne (other j hj).symm c mem)
  refine textAt_of_load (fun k hk => ?_) h.chars ?_
  · rw [same (Nat.lt_succ_of_lt hk), h.load_at hk]
  · rw [same (Nat.lt_succ_self _), h.nul]

/-- The string is read as it was before the copy. -/
theorem strncpy_ram (source : TextAt ramLoad mem src text)
    (apart : Apart dst n src (text.length + 1)) :
    strncpy ramLoad ramStore mem dst src n = storeAll ramStore mem dst (copied text n) := by
  induction n generalizing mem dst src text with
  | zero => rfl
  | succ n ih =>
    cases text with
    | nil =>
      have nul : ramLoad mem src = some 0 := source
      rw [strncpy, nul, Option.bind_some, if_pos rfl, pad_eq]
    | cons c text =>
      obtain ⟨first, nonzero, rest⟩ := source
      have behind : TextAt ramLoad (Function.update mem dst c) (src + 1) text := by
        refine textAt_store c rest fun j hj => ?_
        have other := apart 0 (Nat.succ_pos n) (j + 1) (Nat.succ_lt_succ hj)
        rw [add_ofNat_zero, add_ofNat_succ] at other
        exact other
      rw [strncpy, first, Option.bind_some, if_neg nonzero, copied_succ]
      exact ih behind apart.tail

theorem strncpy_overwritten (source : TextAt ramLoad mem src text)
    (apart : Apart dst n src (text.length + 1)) :
    ∃ mem', strncpy ramLoad ramStore mem dst src n = some mem' ∧
      Overwritten mem dst n (fun k => text.getD k 0) mem' := by
  have short : n < 2 ^ 32 := apart.symm.lt (Nat.succ_pos _)
  have length := copied_length text n
  refine ⟨_, (strncpy_ram source apart).trans (storeAll_ram (by omega) mem dst), ?_, ?_⟩
  · intro k hk
    have inside : k < (copied text n).length := length.symm ▸ hk
    have byte := copied_getD text hk (mem (dst + BitVec.ofNat 32 k))
    rw [List.getD_eq_getElem _ _ inside] at byte
    rw [index_toNat dst (by omega), List.getElem?_eq_getElem inside]
    exact byte
  · intro a other
    have outside : (copied text n).length ≤ (a - dst).toNat := by
      by_contra inside
      exact other _ (by omega) (add_index dst a).symm
    rw [List.getElem?_eq_none outside]
    rfl

/-- The count that `strcpy` passes on includes the NUL. -/
theorem strcpy_eq (source : TextAt ramLoad mem src text)
    (apart : Apart dst (text.length + 1) src (text.length + 1)) :
    strcpy ramLoad ramStore mem dst src =
      strncpy ramLoad ramStore mem dst src (text.length + 1) := by
  have short := apart.lt (Nat.succ_pos _)
  rw [strcpy, strlen_eq source.stringAt source.length_lt, Option.bind_some, BitVec.toNat_ofNat,
    Nat.mod_eq_of_lt short]

/-- The bytes of a string are its characters. -/
theorem text_byte (source : TextAt ramLoad mem src text) {k : Nat} (hk : k ≤ text.length) :
    text.getD k 0 = mem (src + BitVec.ofNat 32 k) := by
  rcases Nat.lt_or_eq_of_le hk with inside | rfl
  · rw [List.getD_eq_getElem _ _ inside]
    exact (Option.some.inj (source.load_at inside)).symm
  · rw [List.getD_eq_default _ _ (Nat.le_refl _)]
    exact (Option.some.inj source.nul).symm

/-- The first characters of the string, and NULs behind them. -/
def padded (mem : U32 → BitVec 8) (src : U32) (len k : Nat) : BitVec 8 :=
  if k < len then mem (src + BitVec.ofNat 32 k) else 0

theorem text_padded (source : TextAt ramLoad mem src text) (k : Nat) :
    text.getD k 0 = padded mem src text.length k := by
  rw [padded]
  split
  · exact text_byte source (Nat.le_of_lt ‹_›)
  · exact List.getD_eq_default _ _ (Nat.le_of_not_lt ‹_›)

theorem string_copied (source : TextAt ramLoad mem src text) (dst : U32) :
    (Apart dst (text.length + 1) src (text.length + 1) →
      ∃ mem', strcpy ramLoad ramStore mem dst src = some mem' ∧
        Overwritten mem dst (text.length + 1) (fun k => mem (src + BitVec.ofNat 32 k)) mem' ∧
        mem' (dst + BitVec.ofNat 32 text.length) = 0) ∧
    ∀ n, Apart dst n src (text.length + 1) →
      ∃ mem', strncpy ramLoad ramStore mem dst src n = some mem' ∧
        Overwritten mem dst n (padded mem src text.length) mem' := by
  constructor
  · intro apart
    obtain ⟨mem', copied, written, kept⟩ := strncpy_overwritten source apart
    refine ⟨mem', (strcpy_eq source apart).trans copied, ⟨fun k hk => ?_, kept⟩, ?_⟩
    · exact (written k hk).trans (text_byte source (Nat.le_of_lt_succ hk))
    · exact (written _ (Nat.lt_succ_self _)).trans (List.getD_eq_default _ _ (Nat.le_refl _))
  · intro n apart
    obtain ⟨mem', copied, written, kept⟩ := strncpy_overwritten source apart
    exact ⟨mem', copied, fun k hk => (written k hk).trans (text_padded source k), kept⟩

end Copies

/-- `"ABC"` at 0, and bytes of ones. -/
def letters : U32 → BitVec 8 := fun a =>
  if a = 0 then 0x41 else if a = 1 then 0x42 else if a = 2 then 0x43 else if a = 3 then 0 else 0xff

/-- `strcpy` copies the NUL, a shorter `strncpy` none, and a longer one fills up with NULs. -/
theorem string_copied_letters :
    TextAt ramLoad letters 0 [0x41, 0x42, 0x43] ∧ Apart 8 6 0 4 ∧
      (∃ mem', strcpy ramLoad ramStore letters 8 0 = some mem' ∧ mem' 8 = 0x41 ∧ mem' 11 = 0 ∧
        mem' 12 = 0xff) ∧
      (∃ mem', strncpy ramLoad ramStore letters 8 0 2 = some mem' ∧ mem' 9 = 0x42 ∧
        mem' 10 = 0xff) ∧
      ∃ mem', strncpy ramLoad ramStore letters 8 0 6 = some mem' ∧ mem' 10 = 0x43 ∧
        mem' 13 = 0 ∧ mem' 14 = 0xff := by
  have source : TextAt ramLoad letters 0 [0x41, 0x42, 0x43] :=
    ⟨rfl, by decide, rfl, by decide, rfl, by decide, rfl⟩
  obtain ⟨whole, part⟩ := string_copied source 8
  obtain ⟨mem₁, copied₁, after₁, nul⟩ := whole (by decide)
  obtain ⟨mem₂, copied₂, after₂⟩ := part 2 (by decide)
  obtain ⟨mem₃, copied₃, after₃⟩ := part 6 (by decide)
  exact ⟨source, by decide,
    ⟨mem₁, copied₁, after₁.written 0 (by decide), nul, after₁.kept 12 (by decide)⟩,
    ⟨mem₂, copied₂, after₂.written 1 (by decide), after₂.kept 10 (by decide)⟩,
    ⟨mem₃, copied₃, after₃.written 2 (by decide), after₃.written 5 (by decide),
      after₃.kept 14 (by decide)⟩⟩

end StringCopies
