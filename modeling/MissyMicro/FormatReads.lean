import MissyMicro.Printf

/-!
# The bytes a format is read from

A `%` steps over the byte behind it, whatever that is. Where it is the NUL, the loop goes on
behind the string.
-/

namespace FormatReads

open LibcString LinkedRings Terminal Printf

universe u

/-- The offsets that the loop at offset `k` reads, in as many turns. -/
def formatReads (fmt : Nat → BitVec 8) : Nat → Nat → List Nat
  | 0, _ => []
  | turns + 1, k =>
    k :: if fmt k = 0 then []
      else if fmt k = 0x25 then (k + 1) :: formatReads fmt turns (k + 2)
      else formatReads fmt turns (k + 1)

/-- How many `%` stand right before offset `k`. -/
def percents (fmt : Nat → BitVec 8) : Nat → Nat
  | 0 => 0
  | k + 1 => if fmt k = 0x25 then percents fmt k + 1 else 0

section Reads

variable {fmt fmt' : Nat → BitVec 8} {turns k : Nat}

theorem formatReads_end (h : fmt k = 0) : formatReads fmt (turns + 1) k = [k] := by
  rw [formatReads, if_pos h]

theorem formatReads_literal (nonzero : fmt k ≠ 0) (literal : fmt k ≠ 0x25) :
    formatReads fmt (turns + 1) k = k :: formatReads fmt turns (k + 1) := by
  rw [formatReads, if_neg nonzero, if_neg literal]

theorem formatReads_directive (percent : fmt k = 0x25) :
    formatReads fmt (turns + 1) k = k :: (k + 1) :: formatReads fmt turns (k + 2) := by
  have nonzero : fmt k ≠ 0 := by
    rw [percent]
    decide
  rw [formatReads, if_neg nonzero, if_pos percent]

/-- The loop depends on no byte but those. -/
theorem formatLoop_congr {S : Type u} {emit : S → U32 → S} {mem : U32 → BitVec 8}
    {args : Nat → U32} (same : ∀ i ∈ formatReads fmt turns k, fmt' i = fmt i) (n : Nat) (s : S) :
    formatLoop emit mem args fmt' turns k n s = formatLoop emit mem args fmt turns k n s := by
  induction turns generalizing k n s with
  | zero => rfl
  | succ turns ih =>
    have here : fmt' k = fmt k := same k List.mem_cons_self
    rw [formatLoop, formatLoop, here]
    by_cases stop : fmt k = 0
    · rw [if_pos stop, if_pos stop]
    · rw [if_neg stop, if_neg stop]
      by_cases percent : fmt k = 0x25
      · rw [formatReads_directive percent] at same
        have next : fmt' (k + 1) = fmt (k + 1) :=
          same (k + 1) (List.mem_cons_of_mem k List.mem_cons_self)
        have rest (n : Nat) (s : S) := ih
          (fun i hi => same i (List.mem_cons_of_mem k (List.mem_cons_of_mem (k + 1) hi))) n s
        rw [if_pos percent, if_pos percent, next]
        exact congrArg _ (funext fun r => rest r.2 r.1)
      · rw [formatReads_literal stop percent] at same
        rw [if_neg percent, if_neg percent]
        exact ih (fun i hi => same i (List.mem_cons_of_mem k hi)) n _

theorem percents_percent (percent : fmt k = 0x25) : percents fmt (k + 1) = percents fmt k + 1 :=
  if_pos percent

theorem percents_other (other : fmt k ≠ 0x25) : percents fmt (k + 1) = 0 := if_neg other

theorem percents_literal (literal : fmt k ≠ 0x25) : percents fmt (k + 1) % 2 = 0 := by
  rw [percents_other literal]

/-- Behind a directive the number of `%` is even if it was even before. -/
theorem percents_directive (percent : fmt k = 0x25) (even : percents fmt k % 2 = 0) :
    percents fmt (k + 2) % 2 = 0 := by
  by_cases again : fmt (k + 1) = 0x25
  · rw [percents_percent again, percents_percent percent]
    omega
  · rw [percents_other again]

variable {n : Nat}

/-- A directive that starts before the NUL ends before it, where the `%` are even. -/
theorem directive_within (even : percents fmt n % 2 = 0) (percent : fmt k = 0x25)
    (start : percents fmt k % 2 = 0) (hk : k < n) : k + 2 ≤ n := by
  rcases Nat.lt_or_ge (k + 1) n with inside | outside
  · exact inside
  · have last : n = k + 1 := by omega
    rw [last, percents_percent percent] at even
    omega

theorem formatReads_le (stop : fmt n = 0) (even : percents fmt n % 2 = 0)
    (start : percents fmt k % 2 = 0) (hk : k ≤ n) : ∀ i ∈ formatReads fmt turns k, i ≤ n := by
  intro i hi
  induction turns generalizing k with
  | zero => exact absurd hi List.not_mem_nil
  | succ turns ih =>
    by_cases zero : fmt k = 0
    · rw [formatReads_end zero, List.mem_singleton] at hi
      omega
    · have hlt : k < n := Nat.lt_of_le_of_ne hk fun h => zero (h ▸ stop)
      by_cases percent : fmt k = 0x25
      · rw [formatReads_directive percent, List.mem_cons, List.mem_cons] at hi
        rcases hi with rfl | rfl | hi
        · exact hk
        · exact hlt
        · exact ih (percents_directive percent start) (directive_within even percent start hlt) hi
      · rw [formatReads_literal zero percent, List.mem_cons] at hi
        rcases hi with rfl | hi
        · exact hk
        · exact ih (percents_literal percent) hlt hi

/-- Where they are odd, the last one takes the NUL for its directive. -/
theorem formatReads_behind (nonzero : ∀ i < n, fmt i ≠ 0) (odd : percents fmt n % 2 = 1)
    (start : percents fmt k % 2 = 0) (hk : k ≤ n) :
    ∃ turns, n + 1 ∈ formatReads fmt turns k := by
  induction hd : n - k using Nat.strong_induction_on generalizing k with
  | _ d ih =>
    have hlt : k < n := by
      refine Nat.lt_of_le_of_ne hk fun h => ?_
      rw [h] at start
      omega
    by_cases percent : fmt k = 0x25
    · rcases Nat.lt_or_ge n (k + 2) with outside | inside
      · have last : n + 1 = k + 2 := by omega
        refine ⟨2, ?_⟩
        rw [last, formatReads_directive percent]
        exact List.mem_cons_of_mem k (List.mem_cons_of_mem (k + 1) List.mem_cons_self)
      · obtain ⟨turns, hread⟩ :=
          ih (n - (k + 2)) (by omega) (percents_directive percent start) inside rfl
        refine ⟨turns + 1, ?_⟩
        rw [formatReads_directive percent]
        exact List.mem_cons_of_mem k (List.mem_cons_of_mem (k + 1) hread)
    · obtain ⟨turns, hread⟩ := ih (n - (k + 1)) (by omega) (percents_literal percent) hlt rfl
      refine ⟨turns + 1, ?_⟩
      rw [formatReads_literal (nonzero k hlt) percent]
      exact List.mem_cons_of_mem k hread

end Reads

section Ends

variable {S : Type u} {emit : S → U32 → S} {mem : U32 → BitVec 8} {args : Nat → U32}

/-- The loop over a string comes to the NUL at `a`, if not to another before. -/
theorem printString_ends {a argument : U32} {turns : Nat} (nul : mem a = 0)
    (near : (a - argument).toNat < turns) (s : S) :
    ∃ r, printString emit mem turns s argument = some r := by
  induction turns generalizing argument s with
  | zero => exact absurd near (Nat.not_lt_zero _)
  | succ turns ih =>
    rw [printString]
    by_cases zero : mem argument = 0
    · rw [if_pos zero]
      exact ⟨s, rfl⟩
    · rw [if_neg zero]
      have apart : a ≠ argument := fun h => zero (h ▸ nul)
      have nearer : (a - (argument + 1)).toNat < turns := by
        bv_omega
      exact ih nearer _

theorem convert_ends {a : U32} (nul : mem a = 0) (s : S) (c : BitVec 8) (n : Nat) :
    ∃ r, convert emit mem args s c n = some r := by
  obtain ⟨printed, string⟩ := @printString_ends _ emit _ _ (args n) _ nul (a - args n).isLt s
  have number (base : Nat) (two_le : 2 ≤ base) (le_sixteen : base ≤ 16) :=
    printNumber_eq emit s (args n) two_le le_sixteen
  unfold convert
  split
  · exact ⟨_, congrArg (Option.map _) (number 10 (by decide) (by decide))⟩
  · split
    · exact ⟨_, congrArg (Option.map _) (number 2 (by decide) (by decide))⟩
    · split
      · exact ⟨_, congrArg (Option.map _) (number 16 (by decide) (by decide))⟩
      · split
        · exact ⟨_, congrArg (Option.map _) string⟩
        · split
          · exact ⟨_, rfl⟩
          · exact ⟨_, rfl⟩

theorem formatLoop_ends {fmt : Nat → BitVec 8} {a : U32} {n k m : Nat} (nul : mem a = 0)
    (stop : fmt n = 0) (even : percents fmt n % 2 = 0) (start : percents fmt k % 2 = 0)
    (hk : k ≤ n) (s : S) :
    ∃ r, Returns (fun turns => formatLoop emit mem args fmt turns k m s) r := by
  induction hd : n - k using Nat.strong_induction_on generalizing k m s with
  | _ d ih =>
    by_cases zero : fmt k = 0
    · exact ⟨s, formatLoop_end zero⟩
    · have hlt : k < n := Nat.lt_of_le_of_ne hk fun h => zero (h ▸ stop)
      by_cases percent : fmt k = 0x25
      · obtain ⟨⟨t, taken⟩, converted⟩ := @convert_ends _ emit _ args _ nul s (fmt (k + 1)) m
        have inside := directive_within even percent start hlt
        obtain ⟨r, rest⟩ :=
          @ih (n - (k + 2)) (by omega) _ taken (percents_directive percent start) inside t rfl
        exact ⟨r, formatLoop_directive percent converted rest⟩
      · obtain ⟨r, rest⟩ := @ih (n - (k + 1)) (by omega) _ m (percents_literal percent) hlt _ rfl
        exact ⟨r, formatLoop_literal zero percent rest⟩

end Ends

/-- No byte behind the NUL at offset `n` is read, and both functions return. -/
structure ScansWithin (mem : U32 → BitVec 8) (str : U32) (n : Nat) : Prop where
  reads : ∀ turns, ∀ i ∈ formatReads (formatAt mem str) turns 0, i ≤ n
  terminalPrintf : ∀ s args, ∃ r, Returns (fun turns => terminalPrintf s mem str args turns) r
  printf : ∀ s args, ∃ r, Returns (fun turns => printf s mem str args turns) r

theorem not_scansWithin {mem : U32 → BitVec 8} {str : U32} {n : Nat}
    (h : StringAt loadByte mem str n) (odd : percents (formatAt mem str) n % 2 = 1) :
    ¬ ScansWithin mem str n := by
  intro within
  have nonzero : ∀ i < n, formatAt mem str i ≠ 0 := by
    intro i hi
    obtain ⟨c, loaded, hc⟩ := h.1 i hi
    rw [formatAt, Option.some.inj loaded]
    exact hc
  obtain ⟨turns, behind⟩ := @formatReads_behind _ 0 n nonzero odd rfl (Nat.zero_le n)
  have inside := within.reads turns (n + 1) behind
  omega

/-- The scan stays inside the string if and only if this ends in an even number of `%`. -/
theorem scansWithin_iff {mem : U32 → BitVec 8} {str : U32} {n : Nat}
    (h : StringAt loadByte mem str n) :
    ScansWithin mem str n ↔ percents (formatAt mem str) n % 2 = 0 := by
  have stop : formatAt mem str n = 0 := Option.some.inj h.2
  constructor
  · intro within
    rcases Nat.mod_two_eq_zero_or_one (percents (formatAt mem str) n) with even | odd
    · exact even
    · exact absurd within (not_scansWithin h odd)
  · intro even
    have ends {S : Type} (emit : S → U32 → S) (args : Nat → U32) (s : S) :=
      @formatLoop_ends S emit mem args _ _ n 0 0 stop stop even rfl (Nat.zero_le n) s
    constructor
    · intro turns
      exact formatReads_le stop even rfl (Nat.zero_le n)
    · intro s args
      exact ends Screen.terminalPrintchar args s
    · intro s args
      obtain ⟨r, returned⟩ := ends (fun s c => (putchar s c).2) args s
      exact ⟨(1, r), returned.map fun s => (1, s)⟩

/-- `"%%"`. -/
theorem scansWithin_two : ScansWithin (image [0x25, 0x25]) 0 2 := by
  have string : StringAt loadByte (image [0x25, 0x25]) 0 2 := by
    constructor
    · intro k hk
      have each : k = 0 ∨ k = 1 := by omega
      rcases each with rfl | rfl
      · exact ⟨0x25, rfl, by decide⟩
      · exact ⟨0x25, rfl, by decide⟩
    · rfl
  exact (scansWithin_iff string).mpr rfl

/-- `"%"`. -/
theorem scansWithin_percent : StringAt loadByte (image [0x25]) 0 1 ∧
    ¬ ScansWithin (image [0x25]) 0 1 := by
  have string : StringAt loadByte (image [0x25]) 0 1 := by
    constructor
    · intro k hk
      obtain rfl := Nat.lt_one_iff.mp hk
      exact ⟨0x25, rfl, by decide⟩
    · rfl
  exact ⟨string, not_scansWithin string rfl⟩

end FormatReads
