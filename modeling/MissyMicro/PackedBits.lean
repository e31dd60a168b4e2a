import Mathlib.Data.Finset.Card
import Mathlib.Data.Finset.Range
import Mathlib.Logic.Function.Basic

/-!
# Sets of numbers packed in machine words

Bit `c` of the packed set is bit `c % w` of word `c / w`. Setting and clearing
one bit are stated against membership, and a word-by-word search is shown to
find the least number that is not a member.
-/

namespace PackedBits

variable {w : Nat}

def testBit (words : Nat → BitVec w) (c : Nat) : Bool :=
  (words (c / w)).getLsbD (c % w)

def setBit (words : Nat → BitVec w) (c : Nat) : Nat → BitVec w :=
  Function.update words (c / w) (words (c / w) ||| (1#w <<< (c % w)))

def clearBit (words : Nat → BitVec w) (c : Nat) : Nat → BitVec w :=
  Function.update words (c / w) (words (c / w) &&& ~~~(1#w <<< (c % w)))

theorem getLsbD_mask {i j : Nat} (hi : i < w) :
    (1#w <<< j).getLsbD i = decide (i = j) := by
  rw [BitVec.getLsbD_shiftLeft, BitVec.getLsbD_one]
  by_cases h : i = j
  · subst i
    simp [hi, show 0 < w by omega]
  · by_cases hlt : i < j
    · simp [hlt, h]
    · have hne : i - j ≠ 0 := by omega
      simp [h, hne]

theorem and_mask_eq_zero (x : BitVec w) {j : Nat} (hj : j < w) :
    x &&& (1#w <<< j) = 0#w ↔ x.getLsbD j = false := by
  constructor
  · intro h
    have hb := congrArg (fun y => BitVec.getLsbD y j) h
    simpa [getLsbD_mask hj] using hb
  · intro h
    apply BitVec.eq_of_getLsbD_eq
    intro i hi
    rw [BitVec.getLsbD_and, getLsbD_mask hi]
    by_cases hij : i = j
    · subst i
      simp [h]
    · simp [hij]

theorem split_index_eq {b c : Nat} (hd : b / w = c / w) (hm : b % w = c % w) :
    b = c := by
  rw [← Nat.div_add_mod b w, ← Nat.div_add_mod c w, hd, hm]

/-- The packed set determines the words. -/
theorem words_ext (hw : 0 < w) {words words' : Nat → BitVec w}
    (h : ∀ c, testBit words c = testBit words' c) : words = words' := by
  funext i
  apply BitVec.eq_of_getLsbD_eq
  intro j hj
  have hbit := h (w * i + j)
  have hdiv : (w * i + j) / w = i := by
    rw [Nat.mul_add_div hw, Nat.div_eq_of_lt hj, Nat.add_zero]
  have hmod : (w * i + j) % w = j := by rw [Nat.mul_add_mod, Nat.mod_eq_of_lt hj]
  rwa [testBit, testBit, hdiv, hmod] at hbit

@[simp] theorem testBit_setBit (hw : 0 < w) (words : Nat → BitVec w) (b c : Nat) :
    testBit (setBit words b) c = (decide (b = c) || testBit words c) := by
  simp only [testBit, setBit]
  by_cases hd : b / w = c / w
  · rw [← hd, Function.update_self, BitVec.getLsbD_or, getLsbD_mask (Nat.mod_lt _ hw)]
    by_cases hbc : b = c
    · subst c
      simp
    · have hm : ¬ c % w = b % w := fun hm => hbc (split_index_eq hd hm.symm)
      simp [hbc, hm]
  · have hbc : b ≠ c := fun h => hd (by rw [h])
    rw [Function.update_of_ne (Ne.symm hd)]
    simp [hbc]

@[simp] theorem testBit_clearBit (hw : 0 < w) (words : Nat → BitVec w) (b c : Nat) :
    testBit (clearBit words b) c = (!decide (b = c) && testBit words c) := by
  simp only [testBit, clearBit]
  by_cases hd : b / w = c / w
  · have hc := Nat.mod_lt c hw
    rw [← hd, Function.update_self, BitVec.getLsbD_and, BitVec.getLsbD_not,
      getLsbD_mask hc]
    by_cases hbc : b = c
    · subst c
      simp
    · have hm : ¬ c % w = b % w := fun hm => hbc (split_index_eq hd hm.symm)
      simp [hbc, hm, hc]
  · have hbc : b ≠ c := fun h => hd (by rw [h])
    rw [Function.update_of_ne (Ne.symm hd)]
    simp [hbc]

theorem setBit_of_testBit {words : Nat → BitVec w} {c : Nat}
    (h : testBit words c = true) : setBit words c = words := by
  funext i
  by_cases hi : i = c / w
  · subst i
    rw [setBit, Function.update_self]
    apply BitVec.eq_of_getLsbD_eq
    intro j hj
    rw [BitVec.getLsbD_or, getLsbD_mask hj]
    by_cases hjc : j = c % w
    · subst j
      simpa [testBit] using h
    · simp [hjc]
  · rw [setBit, Function.update_of_ne hi]

/-- The least clear bit of one word. -/
def firstClearBit (x : BitVec w) : Option Nat :=
  (List.range w).find? fun j => x &&& (1#w <<< j) = 0#w

/-- Scan `n` words in order, skipping the full ones. -/
def firstClear (words : Nat → BitVec w) (n : Nat) : Option Nat :=
  (List.range n).findSome? fun i =>
    if words i ≠ BitVec.allOnes w then (firstClearBit (words i)).map (i * w + ·) else none

theorem firstClearBit_some {x : BitVec w} {j : Nat} (h : firstClearBit x = some j) :
    j < w ∧ x.getLsbD j = false ∧ ∀ i, i < j → x.getLsbD i = true := by
  rw [firstClearBit, List.find?_range_eq_some] at h
  obtain ⟨hj, hmem, hmin⟩ := h
  have hlt := List.mem_range.mp hmem
  have hclear := (and_mask_eq_zero x hlt).mp (by simpa using hj)
  refine ⟨hlt, hclear, ?_⟩
  intro i hi
  have hset := hmin i hi
  have hne : x &&& (1#w <<< i) ≠ 0#w := by simpa using hset
  have := mt (and_mask_eq_zero x (by omega : i < w)).mpr hne
  simpa using this

theorem firstClearBit_none {x : BitVec w} (h : firstClearBit x = none) :
    x = BitVec.allOnes w := by
  apply BitVec.eq_of_getLsbD_eq
  intro j hj
  rw [firstClearBit, List.find?_range_eq_none] at h
  have hset := h j hj
  have hne : x &&& (1#w <<< j) ≠ 0#w := by simpa using hset
  have := mt (and_mask_eq_zero x hj).mpr hne
  simpa [hj] using this

theorem div_mod_of_word {i j : Nat} (hj : j < w) :
    (i * w + j) / w = i ∧ (i * w + j) % w = j := by
  have hw : 0 < w := by omega
  constructor
  · rw [Nat.mul_comm, Nat.mul_add_div hw, Nat.div_eq_of_lt hj, Nat.add_zero]
  · rw [Nat.mul_comm, Nat.mul_add_mod, Nat.mod_eq_of_lt hj]

/-- The bits below word `i` are the bits of the words before it. -/
theorem testBit_of_full {words : Nat → BitVec w} (hw : 0 < w) {n : Nat}
    (full : ∀ i, i < n → words i = BitVec.allOnes w) {c : Nat} (hc : c < n * w) :
    testBit words c = true := by
  have hi : c / w < n := (Nat.div_lt_iff_lt_mul hw).mpr hc
  rw [testBit, full _ hi, BitVec.getLsbD_allOnes]
  simpa using Nat.mod_lt c hw

theorem firstClear_some {words : Nat → BitVec w} {n c : Nat} (hw : 0 < w)
    (h : firstClear words n = some c) :
    c < n * w ∧ testBit words c = false ∧ ∀ b, b < c → testBit words b = true := by
  induction n with
  | zero => simp [firstClear] at h
  | succ n ih =>
    rw [firstClear, List.range_succ, List.findSome?_append, Option.or_eq_some_iff] at h
    rcases h with before | ⟨none_before, here⟩
    · obtain ⟨hlt, hrest⟩ := ih before
      exact ⟨by rw [Nat.succ_mul]; omega, hrest⟩
    · simp only [List.findSome?_singleton, Option.ite_none_right_eq_some,
        Option.map_eq_some_iff] at here
      obtain ⟨_, j, hj, rfl⟩ := here
      obtain ⟨hlt, hclear, hmin⟩ := firstClearBit_some hj
      have hpos := div_mod_of_word (i := n) hlt
      have full : ∀ i, i < n → words i = BitVec.allOnes w := by
        intro i hi
        have hskip := List.findSome?_eq_none_iff.mp none_before i (List.mem_range.mpr hi)
        by_contra hne
        rw [if_pos hne, Option.map_eq_none_iff] at hskip
        exact hne (firstClearBit_none hskip)
      refine ⟨by rw [Nat.succ_mul]; omega, ?_, ?_⟩
      · rw [testBit, hpos.1, hpos.2]
        exact hclear
      · intro b hb
        by_cases hbn : b < n * w
        · exact testBit_of_full hw full hbn
        · have hb' := div_mod_of_word (w := w) (i := n) (j := b - n * w) (by omega)
          rw [show n * w + (b - n * w) = b by omega] at hb'
          rw [testBit, hb'.1, hb'.2]
          exact hmin _ (by omega)

theorem firstClear_none {words : Nat → BitVec w} {n : Nat} (hw : 0 < w)
    (h : firstClear words n = none) {c : Nat} (hc : c < n * w) :
    testBit words c = true := by
  apply testBit_of_full hw _ hc
  intro i hi
  have hskip := List.findSome?_eq_none_iff.mp h i (List.mem_range.mpr hi)
  by_contra hne
  rw [if_pos hne, Option.map_eq_none_iff] at hskip
  exact hne (firstClearBit_none hskip)

/-- The members below `m`. -/
def members (words : Nat → BitVec w) (m : Nat) : Finset Nat :=
  (Finset.range m).filter (fun c => testBit words c)

@[simp] theorem mem_members {words : Nat → BitVec w} {m c : Nat} :
    c ∈ members words m ↔ c < m ∧ testBit words c = true := by
  simp [members]

theorem members_setBit (hw : 0 < w) (words : Nat → BitVec w) {m c : Nat} (hc : c < m) :
    members (setBit words c) m = insert c (members words m) := by
  ext b
  simp only [mem_members, Finset.mem_insert, testBit_setBit hw, Bool.or_eq_true,
    decide_eq_true_eq]
  constructor
  · rintro ⟨hb, rfl | ht⟩
    · exact Or.inl rfl
    · exact Or.inr ⟨hb, ht⟩
  · rintro (rfl | ⟨hb, ht⟩)
    · exact ⟨hc, Or.inl rfl⟩
    · exact ⟨hb, Or.inr ht⟩

theorem card_members_setBit (hw : 0 < w) {words : Nat → BitVec w} {m c : Nat} (hc : c < m)
    (clear : testBit words c = false) :
    (members (setBit words c) m).card = (members words m).card + 1 := by
  rw [members_setBit hw words hc, Finset.card_insert_of_notMem]
  simp [clear]

theorem members_clearBit (hw : 0 < w) (words : Nat → BitVec w) (m c : Nat) :
    members (clearBit words c) m = (members words m).erase c := by
  ext b
  simp only [mem_members, Finset.mem_erase, testBit_clearBit hw, Bool.and_eq_true,
    Bool.not_eq_true', decide_eq_false_iff_not]
  constructor
  · rintro ⟨hb, hne, ht⟩
    exact ⟨fun h => hne h.symm, hb, ht⟩
  · rintro ⟨hne, hb, ht⟩
    exact ⟨hb, fun h => hne h.symm, ht⟩

end PackedBits
