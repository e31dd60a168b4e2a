import MissyMicro.CommandLoop
import MissyMicro.PrintPaths

/-!
# Which builtin a command runs

The comparison stops after as many characters as `strlen` gives. Since it counts the NUL, the
NUL is compared, too, and a command that only begins like a builtin is not taken for it. What
`ticks` prints is the output of `terminal_printf`, with the NUL behind the number.
-/

namespace CommandDispatch

open LittleEndian LibcString LinkedRings Terminal CommandLoop
open Printf (Spells Piece numeral promoted digitChar lettermap takeDigits takeDigits_eq)
open PrintedText (code)

section Compare

variable {M M' : Type} {load : M → U32 → Option (BitVec 8)} {load' : M' → U32 → Option (BitVec 8)}
  {m : M} {m' : M'} {s1 s2 : U32} {text text' : List (BitVec 8)}

/-- Two strings compared up to the NUL of the first. -/
theorem strncmp_text (h : TextAt load m s1 text) (h' : TextAt load' m' s2 text') :
    ∃ diff, strncmp (load m) (load' m') s1 s2 (text.length + 1) = some diff ∧
      (diff = 0 ↔ text' = text) := by
  induction text generalizing s1 s2 text' with
  | nil =>
    cases text' with
    | nil =>
      refine ⟨0, ?_, iff_of_true rfl rfl⟩
      rw [List.length_nil, strncmp, h, h']
      rfl
    | cons d text' =>
      obtain ⟨first, hd, _⟩ := h'
      refine ⟨(0 : BitVec 8).toInt - d.toInt, ?_, ?_⟩
      · rw [List.length_nil, strncmp, h, first]
        exact if_neg hd.symm
      · exact iff_of_false (sub_toInt_ne_zero hd.symm) (List.cons_ne_nil d text')
  | cons c text ih =>
    obtain ⟨first, hc, rest⟩ := h
    cases text' with
    | nil =>
      refine ⟨c.toInt - (0 : BitVec 8).toInt, ?_, ?_⟩
      · rw [strncmp, first, h']
        exact if_neg hc
      · exact iff_of_false (sub_toInt_ne_zero hc) (List.cons_ne_nil c text).symm
    | cons d text' =>
      obtain ⟨first', _, rest'⟩ := h'
      by_cases same : c = d
      · subst same
        obtain ⟨diff, compared, equal⟩ := ih rest rest'
        refine ⟨diff, ?_, ?_⟩
        · rw [strncmp, first, first', List.length_cons, ← compared]
          simp only [Option.bind_some, if_pos, if_neg hc]
        · rw [equal, List.cons_inj_right]
      · refine ⟨c.toInt - d.toInt, ?_, ?_⟩
        · rw [strncmp, first, first']
          exact if_neg same
        · refine iff_of_false (sub_toInt_ne_zero same) fun equal => ?_
          exact same (List.cons.inj equal).1.symm

end Compare

section Dispatch

variable {m : Bytes} {cmdstr ticks : U32} {s : Screen} {text : List (BitVec 8)}
  {table : List KtermBuiltin}

/-- The answer to a command that is no builtin's. -/
def unrecognized (s : Screen) : Int × Screen :=
  (-1, (s.terminalPuts (cstring "Error: unrecognized command")).2)

/-- The first builtin with the command for its text. -/
def named (table : List KtermBuiltin) (text : List (BitVec 8)) : Option KtermBuiltin :=
  table.find? fun b => b.commandtxt = text ++ [0]

/-- A literal ends at its only NUL. -/
def Literal (lit : List (BitVec 8)) : Prop :=
  ∃ text : List (BitVec 8), lit = text ++ [0] ∧ (∀ c ∈ text, c ≠ 0) ∧ text.length < 2 ^ 32

theorem dispatch_named (h : TextAt loadByte m cmdstr text) (short : text.length + 1 < 2 ^ 32)
    (literals : ∀ b ∈ table, Literal b.commandtxt) :
    dispatch m cmdstr ticks s table =
      some ((named table text).elim (unrecognized s) fun b => b.commandcode ticks s) := by
  induction table with
  | nil => rfl
  | cons b table ih =>
    have length : (BitVec.ofNat 32 (text.length + 1)).toNat = text.length + 1 := by
      rw [BitVec.toNat_ofNat, Nat.mod_eq_of_lt short]
    obtain ⟨lit, same, chars, fits⟩ := literals b List.mem_cons_self
    obtain ⟨diff, compared, equal⟩ := strncmp_text h (same ▸ list_textAt chars fits)
    have whole : b.commandtxt = text ++ [0] ↔ diff = 0 := by
      rw [same, List.append_left_inj, equal]
    rw [dispatch, strlen_eq h.stringAt (Nat.lt_of_succ_lt short), Option.bind_some, length,
      compared, Option.bind_some, named, List.find?_cons]
    by_cases zero : diff = 0
    · rw [if_pos zero, decide_eq_true (whole.mpr zero)]
      rfl
    · rw [if_neg zero, decide_eq_false fun h => zero (whole.mp h)]
      exact ih fun b hb => literals b (List.mem_cons_of_mem _ hb)

theorem builtins_literals : ∀ b ∈ builtins, Literal b.commandtxt := by
  intro b hb
  rw [builtins, List.mem_cons, List.mem_cons, List.mem_singleton] at hb
  rcases hb with rfl | rfl | rfl
  · exact ⟨[0x68, 0x65, 0x6c, 0x70], by decide, by decide, by decide⟩
  · exact ⟨[0x63, 0x6c, 0x65, 0x61, 0x72], by decide, by decide, by decide⟩
  · exact ⟨[0x74, 0x69, 0x63, 0x6b, 0x73], by decide, by decide, by decide⟩

theorem named_index (text : List (BitVec 8)) {i : Nat} (hi : i < builtins.length) :
    named builtins text = some builtins[i] ↔ builtins[i].commandtxt = text ++ [0] := by
  constructor
  · intro found
    rw [named] at found
    exact of_decide_eq_true (List.find?_some found :)
  · intro same
    rw [named, ← same]
    have hlt : i < 3 := hi
    have cases : i = 0 ∨ i = 1 ∨ i = 2 := by omega
    rcases cases with rfl | rfl | rfl <;> rfl

/-- A builtin is run exactly if the command is its text; every other command is refused. -/
theorem dispatch_builtins (h : TextAt loadByte m cmdstr text) (short : text.length + 1 < 2 ^ 32) :
    dispatch m cmdstr ticks s builtins =
        some ((named builtins text).elim (unrecognized s) fun b => b.commandcode ticks s) ∧
      ∀ i (hi : i < builtins.length),
        named builtins text = some builtins[i] ↔ builtins[i].commandtxt = text ++ [0] := by
  constructor
  · exact dispatch_named h short builtins_literals
  · exact fun i hi => named_index text hi

end Dispatch

/-- `"he"` is refused. -/
theorem dispatch_builtins_prefix :
    dispatch (fun a => [0x68, 0x65].getD a 0) 0 0 (cleared fun _ => 0) builtins =
        some (unrecognized (cleared fun _ => 0)) ∧
      ∀ i (hi : i < builtins.length),
        named builtins [0x68, 0x65] = some builtins[i] ↔
          builtins[i].commandtxt = [0x68, 0x65] ++ [0] := by
  have command : TextAt loadByte (fun a => [0x68, 0x65].getD a 0) 0 [0x68, 0x65] :=
    ⟨rfl, by decide, rfl, by decide, rfl⟩
  exact dispatch_builtins command (by decide)

theorem digit_byte :
    ∀ d < 10, lettermap[d]? = some ((0x30 + BitVec.ofNat 32 d).setWidth 8) := by
  decide

/-- The loop of `kterminal_ticks` takes the digits that `itoa_s` takes, the last one first. -/
theorem decimalDigits_of_takeDigits {turns : Nat} {num : U32} {buffer out : List (BitVec 8)}
    (h : takeDigits 10 turns num buffer = some out) :
    decimalDigits turns num buffer.reverse = out.reverse := by
  induction turns generalizing num buffer with
  | zero =>
    rw [takeDigits] at h
    split at h
    · exact congrArg List.reverse (Option.some.inj h)
    · cases h
  | succ turns ih =>
    rw [takeDigits] at h
    rw [decimalDigits]
    by_cases zero : num = 0
    · rw [if_pos zero] at h ⊢
      exact congrArg List.reverse (Option.some.inj h)
    · have small : (num % 10).toNat < 10 := by
        rw [BitVec.toNat_umod]
        exact Nat.mod_lt _ (by decide)
      have digit := digit_byte _ small
      rw [BitVec.ofNat_toNat, BitVec.setWidth_eq] at digit
      rw [if_neg zero, if_neg (by decide), digit, Option.bind_some] at h
      have rest := ih h
      rw [List.reverse_append] at rest
      rw [if_neg zero]
      exact rest

theorem decimalText_eq (num : U32) : decimalText num = numeral 10 num.toNat ++ [0] := by
  rw [decimalText, numeral]
  by_cases zero : num = 0
  · rw [if_pos zero, zero]
    rfl
  · have nonzero : num.toNat ≠ 0 := fun h => zero (BitVec.eq_of_toNat_eq h)
    have size : num.toNat < 10 ^ 10 := by omega
    have taken := decimalDigits_of_takeDigits (takeDigits_eq (by decide) (by decide) size [])
    rw [List.reverse_nil] at taken
    rw [if_neg zero, if_neg nonzero, taken, List.nil_append, List.map_reverse]

theorem digitChar_low : ∀ d < 16, digitChar d < 0x80 := by
  decide

theorem numeral_low (n : Nat) : ∀ c ∈ numeral 10 n ++ [0], c < 0x80 := by
  intro c hc
  rcases List.mem_append.mp hc with digit | last
  · rw [numeral] at digit
    split at digit
    · obtain rfl := List.mem_singleton.mp digit
      decide
    · obtain ⟨d, hd, rfl⟩ := List.mem_map.mp digit
      have small := Nat.digits_lt_base (by decide) (List.mem_reverse.mp hd)
      exact digitChar_low d (by omega)
  · obtain rfl := List.mem_singleton.mp last
    decide

theorem promoted_low_map {text : List (BitVec 8)} (low : ∀ c ∈ text, c < 0x80) :
    text.map promoted = text.map code :=
  List.map_congr_left fun c hc => PrintPaths.promoted_low c (low c hc)

/-- The text in front of the number. -/
def tickText : List (BitVec 8) :=
  "Current tick count: ".toList.map fun c => BitVec.ofNat 8 c.toNat

theorem tickText_plain : ∀ c ∈ tickText, c ≠ 0 ∧ c < 0x80 := by
  decide +kernel

/-- What `kterminal_ticks` prints is what `terminal_printf` prints of its format. -/
theorem kterminalTicks_printed {mem : U32 → BitVec 8} {fmt ticks : U32} {args : Nat → U32}
    (h : Spells mem fmt args (tickText.map Piece.literal ++ [.number .d ticks, .literal 0x0a]))
    (s : Screen) :
    Returns (fun turns => Printf.terminalPrintf s mem fmt args turns)
      (kterminalTicks ticks s).2 := by
  have front : Screen.charsOf (cstring "Current tick count: ") = tickText.map promoted :=
    (PrintedText.charsOf_text fun c hc => (tickText_plain c hc).1).trans
      (promoted_low_map fun c hc => (tickText_plain c hc).2).symm
  have number : (decimalText ticks).map (·.setWidth 32) =
      (numeral 10 ticks.toNat ++ [0]).map promoted := by
    rw [decimalText_eq, promoted_low_map (numeral_low ticks.toNat)]
    rfl
  have literals : (tickText.map Piece.literal).flatMap Piece.output = tickText.map promoted := by
    rw [List.flatMap_map]
    exact List.flatMap_pure_eq_map promoted tickText
  have printed := h.terminalPrintf s
  rw [List.flatMap_append, literals] at printed
  have whole : (kterminalTicks ticks s).2 = s.printAll (tickText.map promoted ++
      [Piece.number .d ticks, .literal 0x0a].flatMap Piece.output) := by
    rw [kterminalTicks, front, number]
    unfold Screen.printAll
    rw [List.foldl_append, List.flatMap_cons, List.foldl_append]
    rfl
  rw [whole]
  exact printed

end CommandDispatch
