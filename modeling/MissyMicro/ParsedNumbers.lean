import MissyMicro.NumberConversion
import MissyMicro.Strtol

/-!
# What `strtol` makes of a string

Whether the limit is noticed, where the end pointer points, and what happens to a number behind
whitespace or a prefix is read off the digits. Of a positive number the limit is always noticed;
a negative one can step over it by being exactly 2 ^ 31 on the way.
-/

namespace ParsedNumbers

open LibcString Numerals NumberConversion Strtol

section Limit

variable {base : Nat} {ds : List Nat}

/-- Below 2 ^ 31 the signed word is the number, and the first digit too many is noticed. -/
theorem fires_of_exceeds {limit : Int} (small : limit < 2 ^ 31) (nonneg : 0 ≤ limit)
    (exceeds : limit < value base ds) : Fires limit base ds := by
  induction ds using List.reverseRecOn with
  | nil => exact absurd exceeds (Int.not_lt.mpr nonneg)
  | append_singleton ds d ih =>
    by_cases before : limit < value base ds
    · exact (ih before).concat d
    · refine fires_concat.mpr (Or.inr ?_)
      rw [signedWord_eq (by omega)]
      rw [value_concat] at exceeds
      exact_mod_cast exceeds

theorem fires_positive_iff (positive : 0 < base) :
    Fires (2 ^ 31 - 1) base ds ↔ 2 ^ 31 ≤ value base ds := by
  constructor
  · intro fires
    have beyond := fires.exceeds positive
    omega
  · intro beyond
    exact fires_of_exceeds (by decide) (by decide) (by omega)

/-- The number is 2 ^ 31 after some of its digits, and with each of the rest the signed word that
would come of it stays below. -/
def Unnoticed (base : Nat) (ds : List Nat) : Prop :=
  ∃ p rest, ds = p ++ rest ∧ rest ≠ [] ∧ value base p = 2 ^ 31 ∧
    ∀ (q : List Nat) (d : Nat), (q ++ [d]) <+: rest →
      (BitVec.ofNat 32 (value base (p ++ q))).toInt * base + d ≤ 2 ^ 31

theorem not_fires_append {p rest : List Nat} (first : ¬ Fires (2 ^ 31) base p)
    (below : ∀ (q : List Nat) (d : Nat), (q ++ [d]) <+: rest →
      (BitVec.ofNat 32 (value base (p ++ q))).toInt * base + d ≤ 2 ^ 31) :
    ¬ Fires (2 ^ 31) base (p ++ rest) := by
  induction rest using List.reverseRecOn with
  | nil =>
    rw [List.append_nil]
    exact first
  | append_singleton rest d ih =>
    rw [← List.append_assoc, fires_concat, not_or]
    constructor
    · exact ih fun q e before => below q e (before.trans (List.prefix_append rest [d]))
    · exact Int.not_lt.mpr (below rest d List.prefix_rfl)

theorem prefix_singleton {q : List Nat} {d e : Nat} (h : (q ++ [e]) <+: [d]) : q = [] ∧ e = d := by
  rcases List.prefix_concat_iff.mp (show (q ++ [e]) <+: [] ++ [d] from h) with whole | none
  · obtain ⟨rfl, last⟩ := List.append_inj' whole rfl
    exact ⟨rfl, List.singleton_inj.mp last⟩
  · exact absurd (List.prefix_nil.mp none)
      (List.append_ne_nil_of_right_ne_nil q (List.cons_ne_nil e []))

theorem unnoticed_of_not_fires (beyond : 2 ^ 31 < value base ds)
    (quiet : ¬ Fires (2 ^ 31) base ds) : Unnoticed base ds := by
  induction ds using List.reverseRecOn with
  | nil => exact absurd beyond (Nat.not_lt_zero _)
  | append_singleton ds d ih =>
    rw [fires_concat, not_or] at quiet
    obtain ⟨before, last⟩ := quiet
    rcases Nat.lt_trichotomy (value base ds) (2 ^ 31) with less | same | more
    · rw [signedWord_eq less] at last
      rw [value_concat] at beyond
      exact absurd (by exact_mod_cast beyond) last
    · refine ⟨ds, [d], rfl, List.cons_ne_nil d [], same, fun q e ends => ?_⟩
      obtain ⟨rfl, rfl⟩ := prefix_singleton ends
      rw [List.append_nil]
      exact Int.not_lt.mp last
    · obtain ⟨p, rest, rfl, _, half, below⟩ := ih more before
      refine ⟨p, rest ++ [d], List.append_assoc p rest [d],
        List.append_ne_nil_of_right_ne_nil rest (List.cons_ne_nil d []), half, fun q e ends => ?_⟩
      rcases List.prefix_concat_iff.mp ends with whole | inside
      · obtain ⟨rfl, same⟩ := List.append_inj' whole rfl
        obtain rfl := List.singleton_inj.mp same
        exact Int.not_lt.mp last
      · exact below q e inside

theorem Unnoticed.exceeds (two_le : 2 ≤ base) (h : Unnoticed base ds) :
    2 ^ 31 < value base ds := by
  obtain ⟨p, rest, rfl, nonempty, half, _⟩ := h
  have length : rest.length ≠ 0 := fun zero => nonempty (List.length_eq_zero_iff.mp zero)
  have shift : 2 ≤ base ^ rest.length := Nat.le_trans two_le (Nat.le_self_pow length base)
  rw [value_append, half]
  omega

theorem Unnoticed.not_fires (two_le : 2 ≤ base) (h : Unnoticed base ds) :
    ¬ Fires (2 ^ 31) base ds := by
  obtain ⟨p, rest, rfl, _, half, below⟩ := h
  refine not_fires_append (fun fires => ?_) below
  have beyond := fires.exceeds (by omega)
  omega

end Limit

/-- The number of a sign and digits. -/
def number (negative : Bool) (base : Nat) (ds : List Nat) : Int :=
  if negative then -(value base ds : Int) else value base ds

structure Saturated (negative : Bool) (base : Nat) (ds : List Nat) (errno : Nat) (r : Answer) :
    Prop where
  inside : -2 ^ 31 ≤ number negative base ds → number negative base ds < 2 ^ 31 →
    r.value.toInt = number negative base ds ∧ r.errno = errno
  below : number negative base ds < -2 ^ 31 → r.value = longMin ∧ r.errno = erange
  above : 2 ^ 31 ≤ number negative base ds → r.value = longMax ∧ r.errno = erange

open Classical in
/-- The number cut to the range of a `long`. A negative one beyond it that is not noticed is cut to
the size of a word. -/
noncomputable def clamped (negative : Bool) (base : Nat) (ds : List Nat) : Int :=
  if negative = true ∧ Unnoticed base ds then (-BitVec.ofNat 32 (value base ds)).toInt
  else max (-2 ^ 31) (min (number negative base ds) (2 ^ 31 - 1))

/-- The call saturates, whatever `errno` was and whether an end pointer is asked for or not. -/
def Saturates (mem : Memory) (num : U32) (base : Nat) (ds : List Nat) : Prop :=
  ∀ endptr errno, ∃ r, strtol mem num endptr base errno = some r ∧
    Saturated (readSign mem num).1 base ds errno r

theorem neg_signedWord {n : Nat} (small : n ≤ 2 ^ 31) :
    (-BitVec.ofNat 32 n).toInt = -(n : Int) := by
  rw [BitVec.toInt_eq_toNat_cond, BitVec.toNat_neg, BitVec.toNat_ofNat]
  split <;> omega

section Saturation

variable {mem : Memory} {base : Nat} {num : U32} {ds : List Nat}

theorem reads_saturated {negative endptr : Bool} {stop : U32} {errno : Nat} {r : Answer}
    (two_le : 2 ≤ base) (reads : Reads negative endptr base ds num stop errno r)
    (noticed : negative = true → ¬ Unnoticed base ds) : Saturated negative base ds errno r := by
  cases negative with
  | false =>
    have fires_iff := @fires_positive_iff base ds (by omega)
    refine ⟨fun _ inside => ?_, fun below => ?_, fun above => ?_⟩
    · have inside : (value base ds : Int) < 2 ^ 31 := inside
      obtain ⟨kept, word⟩ := reads.unfired fun fires => by
        have beyond := fires_iff.mp fires
        omega
      refine ⟨?_, kept⟩
      rw [word]
      exact signedWord_eq (by omega)
    · have below : (value base ds : Int) < -2 ^ 31 := below
      omega
    · have above : (2 ^ 31 : Int) ≤ value base ds := above
      exact reads.fired (fires_iff.mpr (by omega))
  | true =>
    refine ⟨fun inside _ => ?_, fun below => ?_, fun above => ?_⟩
    · have inside : (-2 ^ 31 : Int) ≤ -value base ds := inside
      obtain ⟨kept, word⟩ := reads.unfired fun fires => by
        have beyond : (2 ^ 31 : Int) < value base ds := fires.exceeds (by omega)
        omega
      refine ⟨?_, kept⟩
      rw [word]
      exact neg_signedWord (by omega)
    · have below : -(value base ds : Int) < -2 ^ 31 := below
      refine reads.fired (Classical.byContradiction fun quiet => noticed rfl ?_)
      exact unnoticed_of_not_fires (by omega) quiet
    · have above : (2 ^ 31 : Int) ≤ -value base ds := above
      omega

theorem reads_clamped {negative endptr : Bool} {stop : U32} {errno : Nat} {r : Answer}
    (two_le : 2 ≤ base) (reads : Reads negative endptr base ds num stop errno r) :
    r.value.toInt = clamped negative base ds := by
  rw [clamped]
  by_cases missed : negative = true ∧ Unnoticed base ds
  · obtain ⟨rfl, unnoticed⟩ := missed
    rw [if_pos ⟨rfl, unnoticed⟩, (reads.unfired (unnoticed.not_fires two_le)).2]
    rfl
  · rw [if_neg missed]
    have saturated := reads_saturated two_le reads fun minus unnoticed => missed ⟨minus, unnoticed⟩
    rcases Int.lt_or_le (number negative base ds) (-2 ^ 31) with below | low
    · rw [(saturated.below below).1, min_eq_left (by omega), max_eq_left (by omega)]
      rfl
    rcases Int.lt_or_le (number negative base ds) (2 ^ 31) with high | above
    · rw [(saturated.inside low high).1, min_eq_left (by omega), max_eq_right low]
    · rw [(saturated.above above).1, min_eq_right (by omega), max_eq_right (by decide)]
      rfl

theorem clamped_false (base : Nat) (ds : List Nat) :
    clamped false base ds = min (value base ds) (2 ^ 31 - 1) := by
  rw [clamped, if_neg fun both => Bool.false_ne_true both.1]
  change max (-2 ^ 31) (min (value base ds : Int) (2 ^ 31 - 1)) = _
  omega

/-- A negative number is read as one that is not only if both are 0, or if the limit is not
noticed. -/
theorem clamped_true_eq_iff (two_le : 2 ≤ base) {v : Nat} (small : v < 2 ^ 31) :
    clamped true base ds = v ↔ (value base ds = 0 ∧ v = 0) ∨
      (Unnoticed base ds ∧ (value base ds + v) % 2 ^ 32 = 0) := by
  rw [clamped]
  by_cases unnoticed : Unnoticed base ds
  · have beyond := unnoticed.exceeds two_le
    have word : (-BitVec.ofNat 32 (value base ds)).toInt = v ↔
        (value base ds + v) % 2 ^ 32 = 0 := by
      rw [BitVec.toInt_eq_toNat_cond, BitVec.toNat_neg, BitVec.toNat_ofNat]
      split <;> omega
    rw [if_pos ⟨rfl, unnoticed⟩, word, or_iff_right (by omega), and_iff_right unnoticed]
  · rw [if_neg fun both => unnoticed both.2, or_iff_left fun both => unnoticed both.1]
    change max (-2 ^ 31) (min (-(value base ds : Int)) (2 ^ 31 - 1)) = v ↔ _
    omega

theorem clamped_eq_zero_iff (two_le : 2 ≤ base) (negative : Bool) :
    clamped negative base ds = 0 ↔ value base ds = 0 ∨
      (negative = true ∧ Unnoticed base ds ∧ value base ds % 2 ^ 32 = 0) := by
  cases negative with
  | false =>
    rw [clamped_false, or_iff_left fun both => Bool.false_ne_true both.1]
    omega
  | true =>
    have zero := @clamped_true_eq_iff base ds two_le 0 (by decide)
    rw [Int.natCast_zero, and_iff_left rfl, Nat.add_zero] at zero
    rw [zero, eq_self, true_and]

theorem clamped_nil (two_le : 2 ≤ base) (negative : Bool) : clamped negative base [] = 0 :=
  (clamped_eq_zero_iff two_le negative).mpr (Or.inl rfl)

/-- Without its first digit a number is read the same only if the digit is 0, or if the rest is the
largest already. -/
theorem clamped_cons_iff (positive : 0 < base) (d : Nat) :
    clamped false base ds = clamped false base (d :: ds) ↔
      d = 0 ∨ 2 ^ 31 - 1 ≤ value base ds := by
  have shift : 0 < base ^ ds.length := Nat.pow_pos positive
  have first := @value_append base [d] ds
  rw [List.singleton_append, value_singleton] at first
  rw [clamped_false, clamped_false, first]
  rcases Nat.eq_zero_or_pos d with rfl | nonzero
  · rw [Nat.zero_mul, Nat.zero_add]
    exact iff_of_true rfl (Or.inl rfl)
  · have place : 0 < d * base ^ ds.length := Nat.mul_pos nonzero shift
    generalize d * base ^ ds.length = high at place
    omega

/-- The sign counts unless the number is 0, or a limit that is not noticed makes it the largest. -/
theorem clamped_signs_iff (two_le : 2 ≤ base) :
    clamped false base ds = clamped true base ds ↔
      value base ds = 0 ∨ (Unnoticed base ds ∧ value base ds % 2 ^ 32 = 2 ^ 31 + 1) := by
  have cut : clamped false base ds = (min (value base ds) (2 ^ 31 - 1) : Nat) :=
    clamped_false base ds
  rw [cut, eq_comm, clamped_true_eq_iff two_le (by omega)]
  refine or_congr (by omega) (and_congr_right fun unnoticed => ?_)
  have beyond := unnoticed.exceeds two_le
  omega

theorem not_saturates (two_le : 2 ≤ base) (le : base ≤ 36)
    (h : Numeral mem base (readSign mem num).2 ds) (nonempty : ds ≠ [])
    (negative : (readSign mem num).1 = true) (unnoticed : Unnoticed base ds) :
    ¬ Saturates mem num base ds := by
  intro saturates
  obtain ⟨r, returned, saturated⟩ := saturates false 0
  obtain ⟨r', returned', reads⟩ := strtol_reads two_le le (h.not_space le nonempty) h false 0
  obtain rfl := Option.some.inj (returned.symm.trans returned')
  have beyond := unnoticed.exceeds two_le
  rw [negative] at saturated reads
  have error := (saturated.below (by change -(value base ds : Int) < _; omega)).2
  exact absurd ((reads.unfired (unnoticed.not_fires two_le)).1.symm.trans error) (by decide)

theorem strtol_saturates_iff (two_le : 2 ≤ base) (le : base ≤ 36)
    (h : Numeral mem base (readSign mem num).2 ds) (nonempty : ds ≠ []) :
    Saturates mem num base ds ↔ ¬ ((readSign mem num).1 = true ∧ Unnoticed base ds) := by
  constructor
  · rintro saturates ⟨negative, unnoticed⟩
    exact not_saturates two_le le h nonempty negative unnoticed saturates
  · intro noticed endptr errno
    obtain ⟨r, returned, reads⟩ := strtol_reads two_le le (h.not_space le nonempty) h endptr errno
    refine ⟨r, returned, reads_saturated two_le reads fun negative unnoticed => ?_⟩
    exact noticed ⟨negative, unnoticed⟩

end Saturation

/-- `"-2147483648"` -/
def lowest : Memory := fun a =>
  [0x2d, 0x32, 0x31, 0x34, 0x37, 0x34, 0x38, 0x33, 0x36, 0x34, 0x38].getD a.toNat 0

theorem lowest_numeral : Numeral lowest 10 1 [2, 1, 4, 7, 4, 8, 3, 6, 4, 8] :=
  ⟨⟨rfl, rfl, rfl, rfl, rfl, rfl, rfl, rfl, rfl, rfl, trivial⟩, rfl⟩

theorem strtol_saturates_lowest :
    2 ≤ 10 ∧ 10 ≤ 36 ∧ Numeral lowest 10 1 [2, 1, 4, 7, 4, 8, 3, 6, 4, 8] ∧
      (Saturates lowest 0 10 [2, 1, 4, 7, 4, 8, 3, 6, 4, 8] ↔
        ¬ ((readSign lowest 0).1 = true ∧ Unnoticed 10 [2, 1, 4, 7, 4, 8, 3, 6, 4, 8])) :=
  ⟨by decide, by decide, lowest_numeral,
    strtol_saturates_iff (by decide) (by decide) lowest_numeral (List.cons_ne_nil _ _)⟩

/-- `"-21474836480"` -/
def tenfold : Memory := fun a =>
  [0x2d, 0x32, 0x31, 0x34, 0x37, 0x34, 0x38, 0x33, 0x36, 0x34, 0x38, 0x30].getD a.toNat 0

theorem tenfold_numeral : Numeral tenfold 10 1 [2, 1, 4, 7, 4, 8, 3, 6, 4, 8, 0] :=
  ⟨⟨rfl, rfl, rfl, rfl, rfl, rfl, rfl, rfl, rfl, rfl, rfl, trivial⟩, rfl⟩

theorem tenfold_unnoticed : Unnoticed 10 [2, 1, 4, 7, 4, 8, 3, 6, 4, 8, 0] := by
  refine ⟨[2, 1, 4, 7, 4, 8, 3, 6, 4, 8], [0], rfl, List.cons_ne_nil 0 [], by decide, ?_⟩
  intro q d ends
  obtain ⟨rfl, rfl⟩ := prefix_singleton ends
  decide

/-- It is read as 0, and no error is set. -/
theorem tenfold_not_saturated :
    (∃ r, strtol tenfold 0 false 10 0 = some r ∧ r.value = 0 ∧ r.errno = 0) ∧
      ¬ Saturates tenfold 0 10 [2, 1, 4, 7, 4, 8, 3, 6, 4, 8, 0] := by
  constructor
  · obtain ⟨r, returned, reads⟩ := @strtol_reads tenfold 10 (by decide) (by decide) 0 rfl _
      tenfold_numeral false 0
    have quiet := tenfold_unnoticed.not_fires (by decide)
    obtain ⟨kept, word⟩ := reads.unfired quiet
    exact ⟨r, returned, word.trans (by decide), kept⟩
  · exact not_saturates (by decide) (by decide) tenfold_numeral (List.cons_ne_nil _ _) rfl
      tenfold_unnoticed

section Printed

open Printf

variable {mem : Memory} {base : Nat} {str : U32}

theorem digitValue_digitChar :
    ∀ d < 16, digitValue 36 (digitChar d) = some d := by
  decide

/-- The characters of a number are read as its digits. -/
theorem digitsAt_of_chars (le_sixteen : base ≤ 16) {ds : List Nat} (small : ∀ d ∈ ds, d < base)
    (chars : ∀ k (hk : k < ds.length), mem (str + BitVec.ofNat 32 k) = digitChar ds[k]) :
    DigitsAt mem base str ds := by
  induction ds generalizing str with
  | nil => trivial
  | cons d ds ih =>
    have below := small d List.mem_cons_self
    have first := chars 0 (Nat.zero_lt_succ _)
    rw [add_ofNat_zero] at first
    constructor
    · rw [digitValue_filter (by omega), first]
      change (digitValue 36 (digitChar d)).filter _ = _
      rw [digitValue_digitChar d (by omega)]
      exact Option.filter_some_pos (decide_eq_true below)
    · refine ih (fun e he => small e (List.mem_cons_of_mem d he)) fun k hk => ?_
      rw [← add_ofNat_succ]
      exact chars (k + 1) (Nat.succ_lt_succ hk)

/-- What `itoa_s` writes is read as the number again. -/
theorem strtol_itoaS (two_le : 2 ≤ base) (le_sixteen : base ≤ 16) {num : U32}
    (le_longMax : num.toNat ≤ longMax.toNat) {out : List (BitVec 8)}
    (written : itoaS num (BitVec.ofNat 32 base) = some out)
    (stands : ∀ k (hk : k < out.length), mem (str + BitVec.ofNat 32 k) = out[k]) (errno : Nat) :
    strtol mem str false base errno = some ⟨num, none, errno⟩ := by
  have le : base ≤ 36 := by omega
  have long : longMax.toNat = 2 ^ 31 - 1 := rfl
  rw [itoaS_eq two_le le_sixteen, numeral_eq_map] at written
  obtain rfl := Option.some.inj written
  have chars : ∀ k (hk : k < (digitsOf base num.toNat).length),
      mem (str + BitVec.ofNat 32 k) = digitChar (digitsOf base num.toNat)[k] := by
    intro k hk
    have inside : k < ((digitsOf base num.toNat).map digitChar).length := by
      rw [List.length_map]
      exact hk
    rw [stands k (by rw [List.length_append]; omega), List.getElem_append_left inside,
      List.getElem_map]
  have digits := digitsAt_of_chars le_sixteen (digitsOf_lt two_le num.toNat) chars
  have nul : mem (str + BitVec.ofNat 32 (digitsOf base num.toNat).length) = 0 := by
    have last := stands (digitsOf base num.toNat).length (by simp)
    rw [last, List.getElem_append_right (by simp)]
    simp
  have first : ∃ d, digitValue base (mem str) = some d := by
    cases same : digitsOf base num.toNat with
    | nil => exact absurd same (digitsOf_ne_nil _)
    | cons d ds =>
      rw [same] at digits
      exact ⟨d, digits.1⟩
  obtain ⟨d, here⟩ := first
  obtain ⟨blank, unsigned⟩ := digit_other le here
  have sign := readSign_of_ne unsigned
  have numeral : Strtol.Numeral mem base (readSign mem str).2 (digitsOf base num.toNat) := by
    rw [sign]
    exact ⟨digits, nul ▸ digitValue_nul⟩
  obtain ⟨r, returned, reads⟩ := strtol_reads two_le le blank numeral false errno
  rw [sign] at reads
  have quiet : ¬ Fires (bound false) base (digitsOf base num.toNat) := by
    intro fires
    have beyond := (fires_positive_iff (by omega)).mp fires
    rw [value_digitsOf] at beyond
    omega
  obtain ⟨kept, word⟩ := reads.unfired quiet
  have value_eq : r.value = num := by
    rw [word, value_digitsOf]
    exact BitVec.ofNat_toNat 32 num
  rw [returned, ← kept, ← value_eq, ← show r.endptr = none from reads.endptr]

/-- The largest number, in base 16. -/
theorem strtol_itoaS_longMax :
    2 ≤ 16 ∧ 16 ≤ 16 ∧ longMax.toNat ≤ longMax.toNat ∧
      itoaS longMax (BitVec.ofNat 32 16) =
        some [0x37, 0x66, 0x66, 0x66, 0x66, 0x66, 0x66, 0x66, 0] ∧
      strtol (fun a => [0x37, 0x66, 0x66, 0x66, 0x66, 0x66, 0x66, 0x66, 0].getD a.toNat 0) 0 false
        16 0 = some ⟨longMax, none, 0⟩ := by
  have written : itoaS longMax (BitVec.ofNat 32 16) =
      some [0x37, 0x66, 0x66, 0x66, 0x66, 0x66, 0x66, 0x66, 0] := by decide
  refine ⟨by decide, by decide, Nat.le_refl _, written, ?_⟩
  exact @strtol_itoaS _ 16 0 (by decide) (by decide) longMax (Nat.le_refl _) _ written
    (by decide) 0

end Printed

end ParsedNumbers
