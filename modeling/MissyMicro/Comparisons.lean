import MissyMicro.FirstDifference
import MissyMicro.LibcString
import Mathlib.Data.Int.Order.Basic
import Mathlib.Data.List.GetD

/-!
# Comparing blocks and strings

Strings are compared up to the first difference, the first NUL or the length, whichever comes
first, and the difference of the characters there is returned. Blocks are compared up to the first
difference, too, but what is returned is the difference behind it.
-/

namespace Comparisons

open LibcString FirstDifference

/-- From `s` on, up to `bound`, the memory shows the bytes of `f`. -/
def Shown (load : U32 → Option (BitVec 8)) (s : U32) (f : Nat → BitVec 8) (bound : Nat) : Prop :=
  ∀ k ≤ bound, load (s + BitVec.ofNat 32 k) = some (f k)

theorem Shown.mono {load : U32 → Option (BitVec 8)} {s : U32} {f : Nat → BitVec 8} {bound k : Nat}
    (h : Shown load s f bound) (hk : k ≤ bound) : Shown load s f k :=
  fun i hi => h i (Nat.le_trans hi hk)

theorem add_ofNat_one (s : U32) (i : Nat) :
    s + BitVec.ofNat 32 i + 1 = s + BitVec.ofNat 32 (i + 1) := by
  rw [BitVec.ofNat_add, ← BitVec.add_assoc]
  rfl

section Strings

variable {load load' : U32 → Option (BitVec 8)} {s1 s2 : U32} {f g : Nat → BitVec 8} {k n : Nat}

/-- Equal characters that are no NUL are stepped over. -/
theorem strncmp_skip (agree : Agree f g k) (nonzero : ∀ i < k, f i ≠ 0) (h : Shown load s1 f k)
    (h' : Shown load' s2 g k) (n : Nat) :
    strncmp load load' s1 s2 (k + n) =
      strncmp load load' (s1 + BitVec.ofNat 32 k) (s2 + BitVec.ofNat 32 k) n := by
  have turn (i n : Nat) (hi : i < k) :
      strncmp load load' (s1 + BitVec.ofNat 32 i) (s2 + BitVec.ofNat 32 i) (n + 1) =
        strncmp load load' (s1 + BitVec.ofNat 32 (i + 1)) (s2 + BitVec.ofNat 32 (i + 1)) n := by
    have hi' := Nat.le_of_lt hi
    rw [strncmp, h i hi', h' i hi', Option.bind_some, Option.bind_some, if_pos (agree i hi),
      if_neg (nonzero i hi), add_ofNat_one, add_ofNat_one]
  have skipped := @skip_turns k _ (fun i n => strncmp load load' (s1 + BitVec.ofNat 32 i)
    (s2 + BitVec.ofNat 32 i) n) (· < k) turn (fun i hi => hi) n
  rw [add_ofNat_zero, add_ofNat_zero] at skipped
  exact skipped

theorem strncmp_first (first : FirstAt f g k) (hk : k < n) (nonzero : ∀ i < k, f i ≠ 0)
    (h : Shown load s1 f k) (h' : Shown load' s2 g k) :
    strncmp load load' s1 s2 n = some ((f k).toInt - (g k).toInt) := by
  obtain ⟨rest, rfl⟩ := Nat.exists_eq_add_of_lt hk
  rw [Nat.add_assoc, strncmp_skip first.agree nonzero h h', strncmp, h k (Nat.le_refl k),
    h' k (Nat.le_refl k), Option.bind_some, Option.bind_some, if_neg first.differ]

theorem strncmp_used_up (agree : Agree f g n) (nonzero : ∀ i < n, f i ≠ 0)
    (h : Shown load s1 f n) (h' : Shown load' s2 g n) :
    strncmp load load' s1 s2 n = some 0 := by
  have skipped := strncmp_skip agree nonzero h h' 0
  rw [Nat.add_zero] at skipped
  rw [skipped, strncmp, h n (Nat.le_refl n), h' n (Nat.le_refl n)]
  rfl

theorem strncmp_ended (agree : Agree f g (k + 1)) (hk : k < n) (nonzero : ∀ i < k, f i ≠ 0)
    (nul : f k = 0) (h : Shown load s1 f k) (h' : Shown load' s2 g k) :
    strncmp load load' s1 s2 n = some 0 := by
  obtain ⟨before, last⟩ := agree_succ.mp agree
  obtain ⟨rest, rfl⟩ := Nat.exists_eq_add_of_lt hk
  rw [Nat.add_assoc, strncmp_skip before nonzero h h', strncmp, h k (Nat.le_refl k),
    h' k (Nat.le_refl k), Option.bind_some, Option.bind_some, if_pos last, if_pos nul]

/-- The two loops stop at a difference or a NUL alike. -/
theorem strcmpFrom_eq {c d : BitVec 8} (hk : k < n) (hc : load (s1 + BitVec.ofNat 32 k) = some c)
    (hd : load' (s2 + BitVec.ofNat 32 k) = some d) (stop : c ≠ d ∨ c = 0) :
    strcmpFrom load load' s1 s2 n = strncmp load load' s1 s2 n := by
  induction k generalizing s1 s2 n with
  | zero =>
    obtain ⟨n, rfl⟩ := Nat.exists_eq_succ_of_ne_zero (Nat.ne_of_gt hk)
    rw [add_ofNat_zero] at hc hd
    rw [strcmpFrom, strncmp, hc, hd, Option.bind_some, Option.bind_some, Option.bind_some,
      Option.bind_some]
    by_cases same : c = d
    · rw [if_pos same, if_pos same, if_pos (stop.resolve_left fun h => h same),
        if_pos (stop.resolve_left fun h => h same)]
    · rw [if_neg same, if_neg same]
  | succ k ih =>
    obtain ⟨n, rfl⟩ := Nat.exists_eq_succ_of_ne_zero (Nat.ne_of_gt (Nat.zero_lt_of_lt hk))
    rw [add_ofNat_succ] at hc hd
    rw [strcmpFrom, strncmp, ih (Nat.lt_of_succ_lt_succ hk) hc hd]

end Strings

/-- Character `k` of a string, which ends with its NUL. -/
def charAt (text : List (BitVec 8)) (k : Nat) : BitVec 8 := text.getD k 0

/-- The place of the first NUL of two strings. -/
def firstNul (text text' : List (BitVec 8)) : Nat := min text.length text'.length

/-- What the comparison of at most `n` characters has to give. -/
structure Compared (text text' : List (BitVec 8)) (n : Nat) (diff : Int) : Prop where
  zero_iff : diff = 0 ↔
    ∀ k < n, k ≤ firstNul text text' → charAt text k = charAt text' k
  first : ∀ k < n, FirstAt (charAt text) (charAt text') k →
    diff = (charAt text k).toInt - (charAt text' k).toInt

/-- The memory from `s` on, up to the byte at index `bound`. -/
def upTo (load : U32 → Option (BitVec 8)) (s : U32) (bound : Nat) : U32 → Option (BitVec 8) :=
  fun a => if (a - s).toNat ≤ bound then load a else none

section Laws

variable {text text' : List (BitVec 8)} {n k : Nat}

theorem firstNul_comm : firstNul text text' = firstNul text' text := Nat.min_comm _ _

theorem charAt_length (text : List (BitVec 8)) : charAt text text.length = 0 :=
  List.getD_eq_default _ _ (Nat.le_refl _)

theorem charAt_ne_zero (chars : ∀ c ∈ text, c ≠ 0) (hk : k < text.length) : charAt text k ≠ 0 := by
  rw [charAt, List.getD_eq_getElem _ _ hk]
  exact chars _ (List.getElem_mem hk)

/-- Strings that agree up to the first NUL end there, and agree everywhere. -/
theorem agree_of_agree_nul (chars : ∀ c ∈ text, c ≠ 0) (chars' : ∀ c ∈ text', c ≠ 0)
    (agree : Agree (charAt text) (charAt text') (firstNul text text' + 1)) (n : Nat) :
    Agree (charAt text) (charAt text') n := by
  obtain ⟨before, last⟩ := agree_succ.mp agree
  have same : text.length = text'.length := by
    rcases Nat.lt_trichotomy text.length text'.length with less | same | more
    · rw [firstNul, Nat.min_eq_left (Nat.le_of_lt less), charAt_length] at last
      exact absurd last.symm (charAt_ne_zero chars' less)
    · exact same
    · rw [firstNul, Nat.min_eq_right (Nat.le_of_lt more), charAt_length] at last
      exact absurd last (charAt_ne_zero chars more)
  intro k hk
  by_cases inside : k < text.length
  · exact before k (by rw [firstNul]; omega)
  · rw [charAt, charAt, List.getD_eq_default _ _ (by omega), List.getD_eq_default _ _ (by omega)]

/-- The first difference is no later than the first NUL. -/
theorem first_le_nul (chars : ∀ c ∈ text, c ≠ 0) (chars' : ∀ c ∈ text', c ≠ 0)
    (first : FirstAt (charAt text) (charAt text') k) : k ≤ firstNul text text' := by
  by_contra beyond
  refine first.differ (agree_of_agree_nul chars chars' ?_ (k + 1) k (Nat.lt_succ_self k))
  exact fun i hi => first.agree i (by omega)

theorem Compared.of_agree (agree : Agree (charAt text) (charAt text') n) :
    Compared text text' n 0 :=
  ⟨iff_of_true rfl fun k hk _ => agree k hk, fun _ hk first => absurd agree (first.not_agree hk)⟩

theorem Compared.of_first (chars : ∀ c ∈ text, c ≠ 0) (chars' : ∀ c ∈ text', c ≠ 0)
    (first : FirstAt (charAt text) (charAt text') k) (hk : k < n) :
    Compared text text' n ((charAt text k).toInt - (charAt text' k).toInt) := by
  constructor
  · refine iff_of_false (sub_toInt_ne_zero first.differ) fun agree => ?_
    exact first.differ (agree k hk (first_le_nul chars chars' first))
  · intro l _ first'
    rw [first.unique first']

/-- The comparison of more characters than the shorter string has. -/
theorem Compared.beyond (chars : ∀ c ∈ text, c ≠ 0) (chars' : ∀ c ∈ text', c ≠ 0) {m : Nat}
    {diff : Int} (h : Compared text text' n diff) (hn : firstNul text text' < n)
    (hm : firstNul text text' < m) : Compared text text' m diff := by
  constructor
  · refine h.zero_iff.trans ?_
    constructor
    · exact fun agree k _ hk => agree k (Nat.lt_of_le_of_lt hk hn) hk
    · exact fun agree k _ hk => agree k (Nat.lt_of_le_of_lt hk hm) hk
  · intro k _ first
    exact h.first k (Nat.lt_of_le_of_lt (first_le_nul chars chars' first) hn) first

theorem Compared.unique {diff diff' : Int} (h : Compared text text' n diff)
    (h' : Compared text text' n diff') : diff = diff' := by
  rcases agree_or_first (charAt text) (charAt text') n with agree | ⟨k, hk, first⟩
  · rw [h.zero_iff.mpr fun k hk _ => agree k hk, h'.zero_iff.mpr fun k hk _ => agree k hk]
  · rw [h.first k hk first, h'.first k hk first]

theorem Compared.neg {diff : Int} (h : Compared text text' n diff) :
    Compared text' text n (-diff) := by
  constructor
  · rw [Int.neg_eq_zero, h.zero_iff, firstNul_comm]
    exact forall_congr' fun k => forall_congr' fun _ => forall_congr' fun _ => eq_comm
  · intro k hk first
    rw [h.first k hk first.symm, Int.neg_sub]

/-- One of the strings has ended at the first NUL, or they differ there. -/
theorem stop_at_nul (text text' : List (BitVec 8)) :
    charAt text (firstNul text text') ≠ charAt text' (firstNul text text') ∨
      charAt text (firstNul text text') = 0 := by
  rcases Nat.le_total text.length text'.length with le | le
  · rw [firstNul, Nat.min_eq_left le, charAt_length]
    exact Or.inr rfl
  · rw [firstNul, Nat.min_eq_right le, charAt_length]
    exact (em _).symm

/-- What is returned, by any two memories that show the strings as far as they are looked at. -/
theorem strncmp_compared (chars : ∀ c ∈ text, c ≠ 0) (chars' : ∀ c ∈ text', c ≠ 0) (n : Nat) :
    ∃ diff, Compared text text' n diff ∧
      ∀ load load' s1 s2, Shown load s1 (charAt text) (min n (firstNul text text')) →
        Shown load' s2 (charAt text') (min n (firstNul text text')) →
        strncmp load load' s1 s2 n = some diff := by
  have nonzero {k : Nat} (hk : k ≤ firstNul text text') : ∀ i < k, charAt text i ≠ 0 :=
    fun i hi => charAt_ne_zero chars (Nat.lt_of_lt_of_le hi (Nat.le_trans hk (Nat.min_le_left _ _)))
  rcases agree_or_first (charAt text) (charAt text') n with agree | ⟨k, hk, first⟩
  · refine ⟨0, .of_agree agree, fun load load' s1 s2 h h' => ?_⟩
    by_cases inside : n ≤ firstNul text text'
    · rw [Nat.min_eq_left inside] at h h'
      exact strncmp_used_up agree (nonzero inside) h h'
    · rw [Nat.min_eq_right (by omega)] at h h'
      have upto : Agree (charAt text) (charAt text') (firstNul text text' + 1) :=
        fun i hi => agree i (by omega)
      have nul := (stop_at_nul text text').resolve_left fun differ => differ (agree_succ.mp upto).2
      exact strncmp_ended upto (by omega) (nonzero (Nat.le_refl _)) nul h h'
  · have le := first_le_nul chars chars' first
    refine ⟨_, .of_first chars chars' first hk, fun load load' s1 s2 h h' => ?_⟩
    exact strncmp_first first hk (nonzero le) (h.mono (by omega)) (h'.mono (by omega))

end Laws

section Texts

universe u

variable {M M' : Type u} {load : M → U32 → Option (BitVec 8)}
  {load' : M' → U32 → Option (BitVec 8)} {m : M} {m' : M'} {s s1 s2 : U32}
  {text text' : List (BitVec 8)}

theorem shown_text (h : TextAt load m s text) {bound : Nat} (inside : bound ≤ text.length) :
    Shown (load m) s (charAt text) bound := by
  intro k hk
  rcases Nat.lt_or_eq_of_le (Nat.le_trans hk inside) with hk | rfl
  · rw [h.load_at hk, charAt, List.getD_eq_getElem _ _ hk]
  · rw [h.nul, charAt_length]

theorem Shown.upTo {load : U32 → Option (BitVec 8)} {f : Nat → BitVec 8} {bound : Nat}
    (h : Shown load s f bound) (small : bound < 2 ^ 32) :
    Shown (Comparisons.upTo load s bound) s f bound := by
  intro k hk
  rw [Comparisons.upTo, index_toNat s (by omega), if_pos hk]
  exact h k hk

theorem strcmp_compared (h : TextAt load m s1 text) (h' : TextAt load' m' s2 text') {n : Nat}
    {diff : Int} (compared : Compared text text' n diff) (hn : firstNul text text' < n) :
    strcmp (load m) (load' m') s1 s2 = some diff := by
  have room : firstNul text text' < 2 ^ 32 := Nat.lt_of_le_of_lt (Nat.min_le_left _ _) h.length_lt
  have here := shown_text h (Nat.min_le_left text.length text'.length)
  have here' := shown_text h' (Nat.min_le_right text.length text'.length)
  obtain ⟨diff', compared', returned⟩ := strncmp_compared h.chars h'.chars (2 ^ 32)
  rw [Nat.min_eq_right (Nat.le_of_lt room)] at returned
  rw [strcmp, strcmpFrom_eq room (here _ (Nat.le_refl _)) (here' _ (Nat.le_refl _))
    (stop_at_nul text text'), returned _ _ _ _ here here',
    compared'.unique (compared.beyond h.chars h'.chars hn room)]

theorem strncmp_laws (h : TextAt load m s1 text) (h' : TextAt load' m' s2 text') (n : Nat) :
    ∃ diff, strncmp (load m) (load' m') s1 s2 n = some diff ∧ Compared text text' n diff ∧
      strncmp (load' m') (load m) s2 s1 n = some (-diff) ∧
      strncmp (upTo (load m) s1 (min n (firstNul text text')))
        (upTo (load' m') s2 (min n (firstNul text text'))) s1 s2 n = some diff ∧
      (firstNul text text' < n → strcmp (load m) (load' m') s1 s2 = some diff) := by
  obtain ⟨diff, compared, returned⟩ := strncmp_compared h.chars h'.chars n
  obtain ⟨diff', compared', returned'⟩ := strncmp_compared h'.chars h.chars n
  have left := Nat.min_le_left text.length text'.length
  have right := Nat.min_le_right text.length text'.length
  have short := h.length_lt
  have here := shown_text h (Nat.le_trans (Nat.min_le_right n _) left)
  have here' := shown_text h' (Nat.le_trans (Nat.min_le_right n _) right)
  have small : min n (firstNul text text') < 2 ^ 32 :=
    Nat.lt_of_le_of_lt (Nat.le_trans (Nat.min_le_right n _) left) short
  refine ⟨diff, returned _ _ _ _ here here', compared, ?_,
    returned _ _ _ _ (here.upTo small) (here'.upTo small), strcmp_compared h h' compared⟩
  rw [compared.neg.unique compared']
  refine returned' _ _ _ _ ?_ ?_
  · rw [firstNul_comm]
    exact here'
  · rw [firstNul_comm]
    exact here

end Texts

/-- `"a"` and `"\xe9"`: the characters are signed. -/
theorem strncmp_laws_signed :
    TextAt (fun (str : List (BitVec 8)) (a : U32) => str[a.toNat]?) [0x61, 0] 0 [0x61] ∧
      TextAt (fun (str : List (BitVec 8)) (a : U32) => str[a.toNat]?) [0xe9, 0] 0 [0xe9] ∧
      strcmp (fun a => [0x61#8, 0][a.toNat]?) (fun a => [0xe9#8, 0][a.toNat]?) 0 0 = some 120 := by
  have letter := @list_textAt [0x61] (by decide) (by decide)
  have accent := @list_textAt [0xe9] (by decide) (by decide)
  obtain ⟨diff, _, compared, _, _, whole⟩ := strncmp_laws letter accent 2
  refine ⟨letter, accent, (whole (by decide)).trans (congrArg some ?_)⟩
  exact compared.first 0 (by decide) ⟨agree_zero, by decide⟩

section Blocks

variable {load load' : U32 → Option (BitVec 8)} {s1 s2 : U32} {f g : Nat → BitVec 8} {k n : Nat}

theorem memcmp_skip (agree : Agree f g k)
    (h : ∀ i < k, load (s1 + BitVec.ofNat 32 i) = some (f i))
    (h' : ∀ i < k, load' (s2 + BitVec.ofNat 32 i) = some (g i)) (n : Nat) :
    memcmp load load' s1 s2 (k + n) =
      memcmp load load' (s1 + BitVec.ofNat 32 k) (s2 + BitVec.ofNat 32 k) n := by
  have turn (i n : Nat) (hi : i < k) :
      memcmp load load' (s1 + BitVec.ofNat 32 i) (s2 + BitVec.ofNat 32 i) (n + 1) =
        memcmp load load' (s1 + BitVec.ofNat 32 (i + 1)) (s2 + BitVec.ofNat 32 (i + 1)) n := by
    rw [memcmp, h i hi, h' i hi, Option.bind_some, Option.bind_some,
      if_neg (not_not.mpr (agree i hi)), add_ofNat_one, add_ofNat_one]
  have skipped := @skip_turns k _ (fun i n => memcmp load load' (s1 + BitVec.ofNat 32 i)
    (s2 + BitVec.ofNat 32 i) n) (· < k) turn (fun i hi => hi) n
  rw [add_ofNat_zero, add_ofNat_zero] at skipped
  exact skipped

theorem memcmp_agree (agree : Agree f g n)
    (h : ∀ i < n, load (s1 + BitVec.ofNat 32 i) = some (f i))
    (h' : ∀ i < n, load' (s2 + BitVec.ofNat 32 i) = some (g i)) :
    memcmp load load' s1 s2 n = some 0 :=
  memcmp_skip agree h h' 0

/-- At the first difference the bytes behind it are read. -/
theorem memcmp_first (first : FirstAt f g k) (hk : k < n) (h : Shown load s1 f k)
    (h' : Shown load' s2 g k) :
    memcmp load load' s1 s2 n =
      (load (s1 + BitVec.ofNat 32 (k + 1))).bind fun c =>
        (load' (s2 + BitVec.ofNat 32 (k + 1))).map fun d => (c.toNat : Int) - d.toNat := by
  obtain ⟨rest, rfl⟩ := Nat.exists_eq_add_of_lt hk
  rw [Nat.add_assoc, memcmp_skip first.agree (fun i hi => h i (Nat.le_of_lt hi))
    fun i hi => h' i (Nat.le_of_lt hi), memcmp, h k (Nat.le_refl k), h' k (Nat.le_refl k),
    Option.bind_some, Option.bind_some, if_pos first.differ, add_ofNat_one, add_ofNat_one]

end Blocks

/-- Byte `k` of the block at `s`. -/
def byteAt (mem : U32 → BitVec 8) (s : U32) (k : Nat) : BitVec 8 := mem (s + BitVec.ofNat 32 k)

/-- A memory of which only the `n` bytes from `s` on can be read. -/
def blockOnly (mem : U32 → BitVec 8) (s : U32) (n : Nat) : U32 → Option (BitVec 8) :=
  fun a => if (a - s).toNat < n then some (mem a) else none

/-- How byte `k` of one block is to that of the other. -/
def direction (f g : Nat → BitVec 8) (k : Nat) : Int := ((f k).toNat - (g k).toNat : Int).sign

/-- The blocks are compared as they should be, no byte behind them is read, and the other way round
the sign is the opposite one. -/
structure Compares (mem mem' : U32 → BitVec 8) (s1 s2 n : U32) : Prop where
  value : ∃ r, memcmp (fun a => some (mem a)) (fun a => some (mem' a)) s1 s2 n.toNat = some r ∧
    (r = 0 ↔ Agree (byteAt mem s1) (byteAt mem' s2) n.toNat) ∧
    ∀ k < n.toNat, FirstAt (byteAt mem s1) (byteAt mem' s2) k →
      r.sign = direction (byteAt mem s1) (byteAt mem' s2) k
  reads : ∃ r, memcmp (blockOnly mem s1 n.toNat) (blockOnly mem' s2 n.toNat) s1 s2 n.toNat = some r
  swaps : ∃ r r', memcmp (fun a => some (mem a)) (fun a => some (mem' a)) s1 s2 n.toNat = some r ∧
    memcmp (fun a => some (mem' a)) (fun a => some (mem a)) s2 s1 n.toNat = some r' ∧
    r'.sign = -r.sign

section Compares

variable {mem mem' : U32 → BitVec 8} {s1 s2 s n : U32} {k : Nat}

theorem blockOnly_inside (hk : k < n.toNat) :
    blockOnly mem s n.toNat (s + BitVec.ofNat 32 k) = some (byteAt mem s k) := by
  rw [blockOnly, index_toNat s (by omega), if_pos hk]
  rfl

theorem blockOnly_behind : blockOnly mem s n.toNat (s + BitVec.ofNat 32 n.toNat) = none := by
  rw [blockOnly, index_toNat s n.isLt, if_neg (Nat.lt_irrefl _)]

theorem direction_ne_zero {f g : Nat → BitVec 8} (differ : f k ≠ g k) : direction f g k ≠ 0 := by
  rw [direction, Ne, Int.sign_eq_zero_iff_zero, Int.sub_eq_zero, Int.natCast_inj]
  exact fun same => differ (BitVec.eq_of_toNat_eq same)

theorem direction_swap (f g : Nat → BitVec 8) (k : Nat) : direction g f k = -direction f g k := by
  rw [direction, direction, ← Int.sign_neg, Int.neg_sub]

/-- What is returned is the difference behind the first one. -/
theorem memcmp_behind (first : FirstAt (byteAt mem s1) (byteAt mem' s2) k) (hk : k < n.toNat) :
    ∃ r, memcmp (fun a => some (mem a)) (fun a => some (mem' a)) s1 s2 n.toNat = some r ∧
      r.sign = direction (byteAt mem s1) (byteAt mem' s2) (k + 1) :=
  ⟨_, memcmp_first first hk (fun _ _ => rfl) fun _ _ => rfl, rfl⟩

theorem memcmp_blockOnly (first : FirstAt (byteAt mem s1) (byteAt mem' s2) k)
    (hk : k < n.toNat) :
    (∃ r, memcmp (blockOnly mem s1 n.toNat) (blockOnly mem' s2 n.toNat) s1 s2 n.toNat = some r) ↔
      k + 1 < n.toNat := by
  rw [memcmp_first first hk (fun i hi => blockOnly_inside (Nat.lt_of_le_of_lt hi hk))
    fun i hi => blockOnly_inside (Nat.lt_of_le_of_lt hi hk)]
  by_cases inside : k + 1 < n.toNat
  · rw [blockOnly_inside inside, blockOnly_inside inside]
    exact iff_of_true ⟨_, rfl⟩ inside
  · have last : k + 1 = n.toNat := by omega
    rw [last, blockOnly_behind]
    refine iff_of_false ?_ (Nat.lt_irrefl _)
    rintro ⟨r, faulted⟩
    cases faulted

theorem memcmp_compares_iff (mem mem' : U32 → BitVec 8) (s1 s2 n : U32) :
    Compares mem mem' s1 s2 n ↔
      Agree (byteAt mem s1) (byteAt mem' s2) n.toNat ∨
        ∃ k, FirstAt (byteAt mem s1) (byteAt mem' s2) k ∧ k + 1 < n.toNat ∧
          direction (byteAt mem s1) (byteAt mem' s2) (k + 1) =
            direction (byteAt mem s1) (byteAt mem' s2) k := by
  constructor
  · intro compares
    rcases agree_or_first (byteAt mem s1) (byteAt mem' s2) n.toNat with agree | ⟨k, hk, first⟩
    · exact Or.inl agree
    · obtain ⟨r, returned, _, sign⟩ := compares.value
      obtain ⟨r', returned', behind⟩ := memcmp_behind first hk
      obtain rfl := Option.some.inj (returned.symm.trans returned')
      exact Or.inr ⟨k, first, (memcmp_blockOnly first hk).mp compares.reads,
        behind.symm.trans (sign k hk first)⟩
  · rintro (agree | ⟨k, first, inside, same⟩)
    · have equal := @memcmp_agree (fun a => some (mem a)) (fun a => some (mem' a)) s1 s2 _ _ _ agree
        (fun _ _ => rfl) fun _ _ => rfl
      have swapped := @memcmp_agree (fun a => some (mem' a)) (fun a => some (mem a)) s2 s1 _ _ _
        agree.symm (fun _ _ => rfl) fun _ _ => rfl
      refine ⟨⟨0, equal, iff_of_true rfl agree, fun k hk first => ?_⟩, ⟨0, ?_⟩, 0, 0, equal,
        swapped, rfl⟩
      · exact absurd agree (first.not_agree hk)
      · exact memcmp_agree agree (fun _ hi => blockOnly_inside hi) fun _ hi => blockOnly_inside hi
    · have hk : k < n.toNat := Nat.lt_of_succ_lt inside
      obtain ⟨r, returned, behind⟩ := memcmp_behind first hk
      obtain ⟨r', swapped, behind'⟩ := memcmp_behind first.symm hk
      refine ⟨⟨r, returned, ?_, ?_⟩, (memcmp_blockOnly first hk).mpr inside, r, r', returned,
        swapped, ?_⟩
      · refine iff_of_false ?_ (first.not_agree hk)
        rintro rfl
        exact direction_ne_zero first.differ (same.symm.trans behind.symm)
      · intro l _ first'
        rw [first'.unique first, behind, same]
      · rw [behind', behind, direction_swap]

/-- The blocks 1, 0 and 0, 0 differ, but 0 is returned. -/
theorem first_byte_differs :
    memcmp (fun a => some (if a = 0 then 1 else 0)) (fun _ => some 0) 0 0 2 = some 0 ∧
      ¬ Compares (fun a => if a = 0 then 1 else 0) (fun _ => 0) 0 0 2 := by
  have returned : memcmp (fun a => some (if a = 0 then 1 else 0)) (fun _ => some 0) 0 0 2 =
      some 0 := rfl
  refine ⟨returned, fun compares => ?_⟩
  obtain ⟨r, returned', zero_iff, _⟩ := compares.value
  obtain rfl := Option.some.inj (returned'.symm.trans returned)
  exact absurd (zero_iff.mp rfl 0 (by decide)) (by decide)

end Compares

end Comparisons
