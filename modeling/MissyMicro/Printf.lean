import Mathlib.Data.Nat.Digits.Lemmas
import MissyMicro.LibcString
import MissyMicro.LinkedRings
import MissyMicro.Terminal

/-!
# Formatted output

`terminal_printf` and `printf` walk over their format in the same way, and differ in the
function that takes the characters. A number is turned into a string first, and the loop that
prints the string is bounded by `strlen`, which counts the NUL: so the NUL is printed, too.
-/

namespace Printf

open LibcString LinkedRings Terminal

universe u

/-- The array of the literal, with its NUL. -/
def lettermap : List (BitVec 8) :=
  [0x30, 0x31, 0x32, 0x33, 0x34, 0x35, 0x36, 0x37, 0x38, 0x39, 0x61, 0x62, 0x63, 0x64, 0x65, 0x66,
    0]

/-- The first loop of `itoa_s`. `buffer` is the part that has been filled. There is no result of
a division by zero, of an index outside `lettermap`, and of a digit more than `room`, which
would be stored behind the 32 bytes. -/
def takeDigits (base : U32) : Nat → U32 → List (BitVec 8) → Option (List (BitVec 8))
  | 0, num, buffer => if num = 0 then some buffer else none
  | room + 1, num, buffer =>
    if num = 0 then some buffer
    else if base = 0 then none
    else (lettermap[(num % base).toNat]?).bind fun c =>
      takeDigits base room (num / base) (buffer ++ [c])

/-- The second loop, with the turns that are left. The last one leaves `pos` at -1. -/
def turnAround (buffer : List (BitVec 8)) :
    Nat → Nat → List (BitVec 8) → Option (List (BitVec 8))
  | 0, _, str => some str
  | left + 1, pos, str => (buffer[pos]?).bind fun c => turnAround buffer left (pos - 1) (str ++ [c])

/-- The bytes stored to `str`. In the loop `base` is converted to an unsigned number. -/
def itoaS (num base : U32) : Option (List (BitVec 8)) :=
  if num = 0 ∨ 16 < base.toInt then some [0x30, 0]
  else (takeDigits base 32 num []).bind fun buffer =>
    (turnAround buffer buffer.length (buffer.length - 1) []).map fun str => str ++ [0]

/-- A `char` as an `int`; it is signed. -/
def promoted (c : BitVec 8) : U32 := c.signExtend 32

def loadStr (str : List (BitVec 8)) (a : U32) : Option (BitVec 8) := str[a.toNat]?

section Format

variable {S : Type u} (emit : S → U32 → S) (mem : U32 → BitVec 8) (args : Nat → U32)

/-- The three number branches, with their `num_str`. -/
def printNumber (s : S) (argument base : U32) : Option S :=
  (itoaS argument base).bind fun numStr => (strlen loadStr numStr 0).map fun len =>
    ((numStr.take len.toNat).map promoted).foldl emit s

/-- The `%s` loop; without a NUL in `2 ^ 32` bytes it does not end. -/
def printString : Nat → S → U32 → Option S
  | 0, _, _ => none
  | n + 1, s, argument =>
    if mem argument = 0 then some s
    else printString n (emit s (promoted (mem argument))) (argument + 1)

/-- The character behind a `%`. `n` arguments have been taken. -/
def convert (s : S) (c : BitVec 8) (n : Nat) : Option (S × Nat) :=
  if c = 0x64 ∨ c = 0x69 then (printNumber emit s (args n) 10).map fun s => (s, n + 1)
  else if c = 0x62 then (printNumber emit s (args n) 2).map fun s => (s, n + 1)
  else if c = 0x58 ∨ c = 0x78 then (printNumber emit s (args n) 16).map fun s => (s, n + 1)
  else if c = 0x73 then (printString emit mem (2 ^ 32) s (args n)).map fun s => (s, n + 1)
  else if c = 0x63 then some (emit s (((args n).setWidth 8).setWidth 32), n + 1)
  else some (emit s (promoted c), n)

/-- The loop at offset `k` of the format, with a bound on its turns. -/
def formatLoop (fmt : Nat → BitVec 8) : Nat → Nat → Nat → S → Option S
  | 0, _, _, _ => none
  | turns + 1, k, n, s =>
    if fmt k = 0 then some s
    else if fmt k = 0x25 then
      (convert emit mem args s (fmt (k + 1)) n).bind fun r =>
        formatLoop fmt turns (k + 2) r.2 r.1
    else formatLoop fmt turns (k + 1) n (emit s (promoted (fmt k)))

/-- What stands at the offsets from `str`. -/
def formatAt (str : U32) (k : Nat) : BitVec 8 := mem (str + BitVec.ofNat 32 k)

/-- The body that the two functions share. `args` are the words that `va_arg` takes, and the
strings are not in video memory. -/
def formatted (str : U32) (turns : Nat) (s : S) : Option S :=
  formatLoop emit mem args (formatAt mem str) turns 0 0 s

end Format

def terminalPrintf (s : Screen) (mem : U32 → BitVec 8) (str : U32) (args : Nat → U32)
    (turns : Nat) : Option Screen :=
  formatted Screen.terminalPrintchar mem args str turns s

/-- In the kernel. -/
def putchar (s : Screen) (c : U32) : U32 × Screen := (c, s.terminalPrintchar c)

def printf (s : Screen) (mem : U32 → BitVec 8) (str : U32) (args : Nat → U32) (turns : Nat) :
    Option (U32 × Screen) :=
  (formatted (fun s c => (putchar s c).2) mem args str turns s).map fun s => (1, s)

def digitChar (d : Nat) : BitVec 8 :=
  if d < 10 then BitVec.ofNat 8 (0x30 + d) else BitVec.ofNat 8 (0x57 + d)

/-- `n` in the base. -/
def numeral (base n : Nat) : List (BitVec 8) :=
  if n = 0 then [0x30] else (Nat.digits base n).reverse.map digitChar

/-- A signed number in base 10. -/
def signedNumeral (n : Int) : List (BitVec 8) :=
  if n < 0 then 0x2d :: numeral 10 n.natAbs else numeral 10 n.natAbs

theorem lettermap_digit : ∀ d < 16, lettermap[d]? = some (digitChar d) := by
  decide

theorem turnAround_take (buffer : List (BitVec 8)) {left : Nat} (hleft : left ≤ buffer.length)
    (str : List (BitVec 8)) :
    turnAround buffer left (left - 1) str = some (str ++ (buffer.take left).reverse) := by
  induction left generalizing str with
  | zero => rw [turnAround, List.take_zero, List.reverse_nil, List.append_nil]
  | succ left ih =>
    rw [turnAround, Nat.add_sub_cancel, List.getElem?_eq_getElem hleft, Option.bind_some,
      ih (Nat.le_of_succ_le hleft), List.take_succ_eq_append_getElem hleft, List.reverse_append,
      List.append_assoc]
    rfl

theorem turnAround_eq (buffer : List (BitVec 8)) :
    turnAround buffer buffer.length (buffer.length - 1) [] = some buffer.reverse := by
  rw [turnAround_take buffer (Nat.le_refl _), List.take_length, List.nil_append]

theorem digitChar_ne_zero : ∀ d < 16, digitChar d ≠ 0 := by
  decide

theorem numeral_length_le {base n room : Nat} (two_le : 2 ≤ base) (one_le : 1 ≤ room)
    (hn : n < base ^ room) : (numeral base n).length ≤ room := by
  rw [numeral]
  split
  · exact one_le
  · rw [List.length_map, List.length_reverse]
    exact (Nat.digits_length_le_iff two_le n).mpr hn

section Numeral

variable {base : Nat} (two_le : 2 ≤ base) (le_sixteen : base ≤ 16)

include two_le le_sixteen

theorem numeral_ne_zero (n : Nat) : ∀ c ∈ numeral base n, c ≠ 0 := by
  intro c hc
  rw [numeral] at hc
  split at hc
  · obtain rfl := List.mem_singleton.mp hc
    decide
  · obtain ⟨d, hd, rfl⟩ := List.mem_map.mp hc
    have small := Nat.digits_lt_base two_le (List.mem_reverse.mp hd)
    exact digitChar_ne_zero d (by omega)

/-- The loop has room for every digit. -/
theorem takeDigits_eq {room : Nat} {num : U32} (hnum : num.toNat < base ^ room)
    (buffer : List (BitVec 8)) :
    takeDigits (BitVec.ofNat 32 base) room num buffer =
      some (buffer ++ (Nat.digits base num.toNat).map digitChar) := by
  have word : (BitVec.ofNat 32 base).toNat = base := by
    rw [BitVec.toNat_ofNat, Nat.mod_eq_of_lt (by omega)]
  induction room generalizing num buffer with
  | zero =>
    have zero : num = 0 := BitVec.eq_of_toNat_eq (Nat.lt_one_iff.mp hnum)
    rw [takeDigits, if_pos zero, zero]
    simp
  | succ room ih =>
    by_cases zero : num = 0
    · rw [takeDigits, if_pos zero, zero]
      simp
    · have positive : 0 < num.toNat := by
        rw [Nat.pos_iff_ne_zero]
        exact fun h => zero (BitVec.eq_of_toNat_eq h)
      have divides : BitVec.ofNat 32 base ≠ 0 := by
        intro h
        rw [h] at word
        exact absurd word.symm (Nat.ne_of_gt (Nat.lt_of_lt_of_le Nat.zero_lt_two two_le))
      have quotient : (num / BitVec.ofNat 32 base).toNat = num.toNat / base := by
        rw [BitVec.toNat_udiv, word]
      have remainder : (num % BitVec.ofNat 32 base).toNat = num.toNat % base := by
        rw [BitVec.toNat_umod, word]
      have small : num.toNat / base < base ^ room := by
        rw [Nat.div_lt_iff_lt_mul (by omega), ← Nat.pow_succ]
        exact hnum
      have digit : num.toNat % base < 16 :=
        Nat.lt_of_lt_of_le (Nat.mod_lt _ (by omega)) le_sixteen
      rw [takeDigits, if_neg zero, if_neg divides, remainder, lettermap_digit _ digit,
        Option.bind_some, ih (quotient.symm ▸ small), quotient, Nat.digits_def' two_le positive]
      simp

/-- `itoa_s` gives the digits of the unsigned number. -/
theorem itoaS_eq (num : U32) :
    itoaS num (BitVec.ofNat 32 base) = some (numeral base num.toNat ++ [0]) := by
  have signed : (BitVec.ofNat 32 base).toInt = base := by
    rw [BitVec.toInt_eq_toNat_of_lt, BitVec.toNat_ofNat, Nat.mod_eq_of_lt (by omega)]
    rw [BitVec.toNat_ofNat, Nat.mod_eq_of_lt (by omega)]
    omega
  by_cases zero : num = 0
  · rw [itoaS, if_pos (Or.inl zero), zero]
    rfl
  · have nonzero : num.toNat ≠ 0 := fun h => zero (BitVec.eq_of_toNat_eq h)
    have size : num.toNat < base ^ 32 :=
      Nat.lt_of_lt_of_le num.isLt (Nat.pow_le_pow_left two_le 32)
    have invalid : ¬ (num = 0 ∨ 16 < (BitVec.ofNat 32 base).toInt) := by
      rw [not_or, signed]
      exact ⟨zero, by omega⟩
    rw [itoaS, if_neg invalid, takeDigits_eq two_le le_sixteen size, Option.bind_some,
      turnAround_eq, Option.map_some, numeral, if_neg nonzero, List.nil_append, List.map_reverse]

end Numeral

theorem loadStr_text {text : List (BitVec 8)} (chars : ∀ c ∈ text, c ≠ 0)
    (short : text.length < 2 ^ 32) : StringAt loadStr (text ++ [0]) 0 text.length :=
  (list_textAt chars short).stringAt

/-- A number is printed with the NUL behind its digits. -/
theorem printNumber_eq {S : Type u} (emit : S → U32 → S) (s : S) (argument : U32) {base : Nat}
    (two_le : 2 ≤ base) (le_sixteen : base ≤ 16) :
    printNumber emit s argument (BitVec.ofNat 32 base) =
      some (((numeral base argument.toNat ++ [0]).map promoted).foldl emit s) := by
  have size : argument.toNat < base ^ 32 :=
    Nat.lt_of_lt_of_le argument.isLt (Nat.pow_le_pow_left two_le 32)
  have short := numeral_length_le two_le (by decide) size
  have text := loadStr_text (numeral_ne_zero two_le le_sixteen argument.toNat) (by omega)
  have length : (BitVec.ofNat 32 ((numeral base argument.toNat).length + 1)).toNat =
      (numeral base argument.toNat ++ [0]).length := by
    rw [BitVec.toNat_ofNat, List.length_append, Nat.mod_eq_of_lt (by omega)]
    rfl
  rw [printNumber, itoaS_eq two_le le_sixteen, Option.bind_some, strlen_eq text (by omega),
    Option.map_some, length, List.take_length]

/-- The number directives. -/
inductive NumberKind where
  | d | i | b | x | X

def NumberKind.char : NumberKind → BitVec 8
  | .d => 0x64
  | .i => 0x69
  | .b => 0x62
  | .x => 0x78
  | .X => 0x58

/-- The base in which the code prints the number. -/
def NumberKind.base : NumberKind → Nat
  | .d => 10
  | .i => 10
  | .b => 2
  | .x => 16
  | .X => 16

/-- What a directive stands for. -/
def NumberKind.text : NumberKind → U32 → List (BitVec 8)
  | .d, argument => signedNumeral argument.toInt
  | .i, argument => signedNumeral argument.toInt
  | .b, argument => numeral 2 argument.toNat
  | .x, argument => numeral 16 argument.toNat
  | .X, argument => numeral 16 argument.toNat

/-- A literal character, or a directive with its argument. -/
inductive Piece where
  | literal (c : BitVec 8)
  | number (kind : NumberKind) (argument : U32)
  | string (argument : U32) (text : List (BitVec 8))
  | character (argument : U32)

namespace Piece

def bytes : Piece → List (BitVec 8)
  | .literal c => [c]
  | .number kind _ => [0x25, kind.char]
  | .string _ _ => [0x25, 0x73]
  | .character _ => [0x25, 0x63]

def words : Piece → List U32
  | .literal _ => []
  | .number _ argument => [argument]
  | .string argument _ => [argument]
  | .character argument => [argument]

/-- What the piece is to be replaced by. -/
def text : Piece → List (BitVec 8)
  | .literal c => [c]
  | .number kind argument => kind.text argument
  | .string _ text => text
  | .character argument => [argument.setWidth 8]

/-- What the code passes on for it. -/
def output : Piece → List U32
  | .literal c => [promoted c]
  | .number kind argument => (numeral kind.base argument.toNat ++ [0]).map promoted
  | .string _ text => text.map promoted
  | .character argument => [(argument.setWidth 8).setWidth 32]

def isNumber : Piece → Bool
  | .number _ _ => true
  | _ => false

end Piece

def loadByte (mem : U32 → BitVec 8) (a : U32) : Option (BitVec 8) := some (mem a)

/-- A literal is no `%`, and the text of a string stands at its address. -/
def Piece.Valid (mem : U32 → BitVec 8) : Piece → Prop
  | .literal c => c ≠ 0x25
  | .string argument text => TextAt loadByte mem argument text
  | _ => True

def ArgsAt (args : Nat → U32) : Nat → List U32 → Prop
  | _, [] => True
  | n, w :: words => args n = w ∧ ArgsAt args (n + 1) words

/-- The format at `str` is made up of the pieces, and the arguments are theirs. -/
structure Spells (mem : U32 → BitVec 8) (str : U32) (args : Nat → U32) (pieces : List Piece) :
    Prop where
  format : TextAt loadByte mem str (pieces.flatMap Piece.bytes)
  args : ArgsAt args 0 (pieces.flatMap Piece.words)
  valid : ∀ piece ∈ pieces, piece.Valid mem

section Pieces

variable {S : Type u} {emit : S → U32 → S} {mem : U32 → BitVec 8} {args : Nat → U32}

theorem printString_eq {text : List (BitVec 8)} {turns : Nat} {argument : U32}
    (h : TextAt loadByte mem argument text) (enough : text.length < turns) (s : S) :
    printString emit mem turns s argument = some ((text.map promoted).foldl emit s) := by
  induction text generalizing argument turns s with
  | nil =>
    obtain ⟨turns, rfl⟩ := Nat.exists_eq_succ_of_ne_zero (Nat.ne_of_gt enough)
    exact if_pos (Option.some.inj h)
  | cons c text ih =>
    obtain ⟨turns, rfl⟩ := Nat.exists_eq_succ_of_ne_zero (Nat.ne_zero_of_lt enough)
    obtain ⟨first, hc, rest⟩ := h
    obtain rfl := Option.some.inj first
    rw [printString, if_neg hc, ih rest (Nat.lt_of_succ_lt_succ enough)]
    rfl

theorem convert_number (kind : NumberKind) (s : S) (n : Nat) :
    convert emit mem args s kind.char n =
      some ((Piece.number kind (args n)).output.foldl emit s, n + 1) := by
  cases kind
  · exact congrArg (Option.map _)
      (@printNumber_eq _ emit s (args n) 10 (by decide) (by decide))
  · exact congrArg (Option.map _)
      (@printNumber_eq _ emit s (args n) 10 (by decide) (by decide))
  · exact congrArg (Option.map _)
      (@printNumber_eq _ emit s (args n) 2 (by decide) (by decide))
  · exact congrArg (Option.map _)
      (@printNumber_eq _ emit s (args n) 16 (by decide) (by decide))
  · exact congrArg (Option.map _)
      (@printNumber_eq _ emit s (args n) 16 (by decide) (by decide))

/-- A directive passes on its output and takes its argument. -/
theorem convert_string {argument : U32} {text : List (BitVec 8)} {n : Nat}
    (h : TextAt loadByte mem argument text) (taken : args n = argument) (s : S) :
    convert emit mem args s 0x73 n =
      some ((Piece.string argument text).output.foldl emit s, n + 1) := by
  have printed := @printString_eq _ emit _ _ _ _ h h.length_lt s
  rw [← taken] at printed
  exact congrArg (Option.map _) printed

variable {fmt : Nat → BitVec 8} {k n : Nat} {s : S}

theorem formatLoop_end (h : fmt k = 0) :
    Returns (fun turns => formatLoop emit mem args fmt turns k n s) s := by
  refine ⟨1, fun turns hle => ?_⟩
  obtain ⟨turns, rfl⟩ := Nat.exists_eq_succ_of_ne_zero (Nat.ne_zero_of_lt hle)
  exact if_pos h

theorem formatLoop_literal {r : S} (nonzero : fmt k ≠ 0) (literal : fmt k ≠ 0x25)
    (rest : Returns (fun turns => formatLoop emit mem args fmt turns (k + 1) n
      (emit s (promoted (fmt k)))) r) :
    Returns (fun turns => formatLoop emit mem args fmt turns k n s) r := by
  refine Returns.turn (fun turns => ?_) rest
  rw [formatLoop, if_neg nonzero, if_neg literal]

theorem formatLoop_directive {r t : S} {m : Nat} (percent : fmt k = 0x25)
    (converted : convert emit mem args s (fmt (k + 1)) n = some (t, m))
    (rest : Returns (fun turns => formatLoop emit mem args fmt turns (k + 2) m t) r) :
    Returns (fun turns => formatLoop emit mem args fmt turns k n s) r := by
  have nonzero : fmt k ≠ 0 := by
    rw [percent]
    decide
  refine Returns.turn (fun turns => ?_) rest
  rw [formatLoop, if_neg nonzero, if_pos percent, converted]
  rfl

theorem formatAt_of_text {str : U32} {c : BitVec 8} {text : List (BitVec 8)}
    (h : TextAt loadByte mem (str + BitVec.ofNat 32 k) (c :: text)) :
    formatAt mem str k = c ∧ c ≠ 0 ∧ TextAt loadByte mem (str + BitVec.ofNat 32 (k + 1)) text := by
  obtain ⟨first, hc, rest⟩ := h
  have next : str + BitVec.ofNat 32 (k + 1) = str + BitVec.ofNat 32 k + 1 := by
    rw [BitVec.ofNat_add, BitVec.add_assoc]
    rfl
  rw [next]
  exact ⟨Option.some.inj first, hc, rest⟩

theorem directive_of_text {str : U32} {c : BitVec 8} {text : List (BitVec 8)}
    (h : TextAt loadByte mem (str + BitVec.ofNat 32 k) (0x25 :: c :: text)) :
    formatAt mem str k = 0x25 ∧ formatAt mem str (k + 1) = c ∧
      TextAt loadByte mem (str + BitVec.ofNat 32 (k + 2)) text := by
  obtain ⟨percent, _, rest⟩ := formatAt_of_text h
  obtain ⟨directive, _, rest⟩ := formatAt_of_text rest
  exact ⟨percent, directive, rest⟩

/-- The output of the pieces is passed on in order. A turn for each byte of the format and one for the NUL are enough. -/
theorem formatLoop_exact {str : U32} {pieces : List Piece} {turns : Nat}
    (format : TextAt loadByte mem (str + BitVec.ofNat 32 k) (pieces.flatMap Piece.bytes))
    (arguments : ArgsAt args n (pieces.flatMap Piece.words))
    (valid : ∀ piece ∈ pieces, piece.Valid mem)
    (enough : (pieces.flatMap Piece.bytes).length < turns) :
    formatLoop emit mem args (formatAt mem str) turns k n s =
      some ((pieces.flatMap Piece.output).foldl emit s) := by
  induction pieces generalizing turns k n s with
  | nil =>
    obtain ⟨turns, rfl⟩ := Nat.exists_eq_succ_of_ne_zero (Nat.ne_of_gt enough)
    exact if_pos (Option.some.inj format)
  | cons piece pieces ih =>
    obtain ⟨turns, rfl⟩ := Nat.exists_eq_succ_of_ne_zero (Nat.ne_zero_of_lt enough)
    have here := valid piece List.mem_cons_self
    have others : ∀ p ∈ pieces, p.Valid mem := fun p hp => valid p (List.mem_cons_of_mem _ hp)
    rw [List.flatMap_cons] at format arguments enough
    rw [List.flatMap_cons, List.foldl_append]
    -- a directive takes a turn and two bytes
    have directive {c : BitVec 8} {t : S} {m : Nat} (spelled : piece.bytes = [0x25, c])
        (converted : convert emit mem args s c n = some (t, m))
        (words : ArgsAt args m (pieces.flatMap Piece.words)) :
        formatLoop emit mem args (formatAt mem str) (turns + 1) k n s =
          some ((pieces.flatMap Piece.output).foldl emit t) := by
      rw [spelled] at format enough
      obtain ⟨percent, behind, rest⟩ := directive_of_text format
      have nonzero : formatAt mem str k ≠ 0 := by
        rw [percent]
        decide
      have fewer : (pieces.flatMap Piece.bytes).length < turns := by
        rw [List.length_append, List.length_cons] at enough
        omega
      rw [formatLoop, if_neg nonzero, if_pos percent, behind, converted]
      exact ih rest words others fewer
    cases piece with
    | literal c =>
      obtain ⟨first, nonzero, rest⟩ := formatAt_of_text format
      have fewer : (pieces.flatMap Piece.bytes).length < turns := by
        rw [List.length_append] at enough
        have one : (Piece.literal c).bytes.length = 1 := rfl
        omega
      rw [formatLoop, first, if_neg nonzero, if_neg here]
      exact ih rest arguments others fewer
    | number kind argument =>
      obtain ⟨taken, words⟩ := arguments
      subst taken
      exact directive rfl (convert_number kind s n) words
    | string argument text =>
      obtain ⟨taken, words⟩ := arguments
      exact directive rfl (convert_string here taken s) words
    | character argument =>
      obtain ⟨taken, words⟩ := arguments
      subst taken
      have converted : convert emit mem args s 0x63 n =
          some ((Piece.character (args n)).output.foldl emit s, n + 1) := rfl
      exact directive rfl converted words

end Pieces

section Spelled

variable {mem : U32 → BitVec 8} {str : U32} {args : Nat → U32} {pieces : List Piece}

theorem Spells.formatted_exact (h : Spells mem str args pieces) {S : Type u} (emit : S → U32 → S)
    {turns : Nat} (enough : (pieces.flatMap Piece.bytes).length < turns) (s : S) :
    Printf.formatted emit mem args str turns s =
      some ((pieces.flatMap Piece.output).foldl emit s) := by
  have format := h.format
  rw [← add_ofNat_zero str] at format
  exact formatLoop_exact format h.args h.valid enough

theorem Spells.formatted (h : Spells mem str args pieces) {S : Type u} (emit : S → U32 → S)
    (s : S) : Returns (fun turns => Printf.formatted emit mem args str turns s)
      ((pieces.flatMap Piece.output).foldl emit s) :=
  ⟨_, fun _ enough => h.formatted_exact emit enough s⟩

theorem Spells.terminalPrintf (h : Spells mem str args pieces) (s : Screen) :
    Returns (fun turns => Printf.terminalPrintf s mem str args turns)
      (s.printAll (pieces.flatMap Piece.output)) :=
  h.formatted Screen.terminalPrintchar s

theorem Spells.printf (h : Spells mem str args pieces) (s : Screen) :
    Returns (fun turns => Printf.printf s mem str args turns)
      (1, s.printAll (pieces.flatMap Piece.output)) :=
  (h.formatted (fun s c => (putchar s c).2) s).map fun s => (1, s)

/-- Whatever takes the characters, it gets those of the text in order; they count as characters
by their low bytes. -/
def Formats (mem : U32 → BitVec 8) (str : U32) (args : Nat → U32) (text : List (BitVec 8)) :
    Prop :=
  ∃ out : List U32, out.map (BitVec.setWidth 8) = text ∧
    ∀ (S : Type) (emit : S → U32 → S) (s : S),
      Returns (fun turns => Printf.formatted emit mem args str turns s) (out.foldl emit s)

theorem promoted_setWidth : ∀ c : BitVec 8, (promoted c).setWidth 8 = c := by
  decide +kernel

theorem NumberKind.text_ne_zero (kind : NumberKind) (argument : U32) :
    ∀ c ∈ kind.text argument, c ≠ 0 := by
  have signed (n : Int) : ∀ c ∈ signedNumeral n, c ≠ 0 := by
    intro c hc
    rw [signedNumeral] at hc
    split at hc
    · rcases List.mem_cons.mp hc with rfl | hc
      · decide
      · exact numeral_ne_zero (by decide) (by decide) _ c hc
    · exact numeral_ne_zero (by decide) (by decide) _ c hc
  cases kind
  · exact signed _
  · exact signed _
  · exact numeral_ne_zero (by decide) (by decide) _
  · exact numeral_ne_zero (by decide) (by decide) _
  · exact numeral_ne_zero (by decide) (by decide) _

/-- The NULs of a text. -/
def zeros (text : List (BitVec 8)) : Nat := text.count 0

theorem zeros_eq_zero {text : List (BitVec 8)} (chars : ∀ c ∈ text, c ≠ 0) : zeros text = 0 :=
  List.count_eq_zero.mpr fun h => chars 0 h rfl

theorem zeros_append (text text' : List (BitVec 8)) :
    zeros (text ++ text') = zeros text + zeros text' :=
  List.count_append

theorem promoted_map (text : List (BitVec 8)) :
    (text.map promoted).map (BitVec.setWidth 8) = text := by
  rw [List.map_map]
  exact (List.map_congr_left fun c _ => promoted_setWidth c).trans (List.map_id text)

theorem NumberKind.two_le_base (kind : NumberKind) : 2 ≤ kind.base := by
  cases kind <;> decide

theorem NumberKind.base_le_sixteen (kind : NumberKind) : kind.base ≤ 16 := by
  cases kind <;> decide

/-- Apart from a number, what is passed on is the text. -/
theorem Piece.output_of_other {piece : Piece} (other : piece.isNumber = false) :
    piece.output.map (BitVec.setWidth 8) = piece.text := by
  cases piece with
  | literal c => exact congrArg (fun c => [c]) (promoted_setWidth c)
  | number kind argument => exact Bool.noConfusion other
  | string argument text => exact promoted_map text
  | character argument =>
    have low : (((argument.setWidth 8).setWidth 32).setWidth 8 : BitVec 8) =
        argument.setWidth 8 := by
      rw [BitVec.setWidth_setWidth_of_le _ (by decide), BitVec.setWidth_eq]
    exact congrArg (fun c => [c]) low

/-- The one NUL too many of a number. -/
theorem Piece.zeros_output (piece : Piece) :
    zeros (piece.output.map (BitVec.setWidth 8)) =
      zeros piece.text + if piece.isNumber then 1 else 0 := by
  cases piece with
  | literal c => exact congrArg zeros (@output_of_other (.literal c) rfl)
  | number kind argument =>
    have digits := zeros_eq_zero
      (numeral_ne_zero kind.two_le_base kind.base_le_sixteen argument.toNat)
    have text := zeros_eq_zero (kind.text_ne_zero argument)
    rw [output, Piece.text, promoted_map, text, zeros_append, digits]
    rfl
  | string argument text => exact congrArg zeros (@output_of_other (.string argument text) rfl)
  | character argument => exact congrArg zeros (@output_of_other (.character argument) rfl)

theorem zeros_pieces (pieces : List Piece) :
    zeros ((pieces.flatMap Piece.output).map (BitVec.setWidth 8)) =
      zeros (pieces.flatMap Piece.text) + pieces.countP Piece.isNumber := by
  induction pieces with
  | nil => rfl
  | cons piece pieces ih =>
    rw [List.flatMap_cons, List.map_append, zeros_append, piece.zeros_output, ih,
      List.flatMap_cons, zeros_append, List.countP_cons]
    omega

theorem Spells.isNumber_of_formats (h : Spells mem str args pieces)
    (exact : Formats mem str args (pieces.flatMap Piece.text)) :
    ∀ piece ∈ pieces, piece.isNumber = false := by
  intro piece hp
  obtain ⟨out, low, passed⟩ := exact
  have kept := passed (List U32) (fun s c => c :: s) []
  have same := kept.unique (h.formatted (fun s c => c :: s) [])
  rw [List.foldl_flip_cons_eq_append', List.foldl_flip_cons_eq_append', List.append_nil,
    List.append_nil, List.reverse_inj] at same
  subst same
  have count := zeros_pieces pieces
  rw [low] at count
  have none : pieces.countP Piece.isNumber = 0 := by omega
  exact Bool.eq_false_iff.mpr (List.countP_eq_zero.mp none piece hp)

/-- Directives are replaced by their texts if and only if none of them is a number. -/
theorem formats_text_iff (h : Spells mem str args pieces) :
    Formats mem str args (pieces.flatMap Piece.text) ↔
      ∀ piece ∈ pieces, piece.isNumber = false := by
  constructor
  · exact h.isNumber_of_formats
  · intro others
    refine ⟨pieces.flatMap Piece.output, ?_, fun S emit s => h.formatted emit s⟩
    rw [List.map_flatMap]
    exact List.flatMap_congr fun piece hp => Piece.output_of_other (others piece hp)

end Spelled

/-- The bytes from address 0 on. -/
def image (bytes : List (BitVec 8)) (a : U32) : BitVec 8 := bytes.getD a.toNat 0

/-- `"%s!%c"` with the string behind it. -/
theorem formats_text_string :
    Formats (image [0x25, 0x73, 0x21, 0x25, 0x63, 0, 0x6f, 0x6b]) 0
      (fun n => if n = 0 then 6 else 0x0a) [0x6f, 0x6b, 0x21, 0x0a] := by
  have spells : Spells (image [0x25, 0x73, 0x21, 0x25, 0x63, 0, 0x6f, 0x6b]) 0
      (fun n => if n = 0 then 6 else 0x0a)
      [.string 6 [0x6f, 0x6b], .literal 0x21, .character 0x0a] := by
    constructor
    · exact ⟨rfl, by decide, rfl, by decide, rfl, by decide, rfl, by decide, rfl, by decide, rfl⟩
    · exact ⟨rfl, rfl, trivial⟩
    · intro piece hp
      rw [List.mem_cons, List.mem_cons, List.mem_singleton] at hp
      rcases hp with rfl | rfl | rfl
      · exact ⟨rfl, by decide, rfl, by decide, rfl⟩
      · exact (by decide : (0x21 : BitVec 8) ≠ 0x25)
      · trivial
  refine (formats_text_iff spells).mpr fun piece hp => ?_
  rw [List.mem_cons, List.mem_cons, List.mem_singleton] at hp
  rcases hp with rfl | rfl | rfl <;> rfl

/-- `"%d"` of 5 is not just the digit. -/
theorem formats_text_number : Spells (image [0x25, 0x64]) 0 (fun _ => 5) [.number .d 5] ∧
    [Piece.number .d 5].flatMap Piece.text = [0x35] ∧
    ¬ Formats (image [0x25, 0x64]) 0 (fun _ => 5) [0x35] := by
  have spells : Spells (image [0x25, 0x64]) 0 (fun _ => 5) [.number .d 5] := by
    constructor
    · exact ⟨rfl, by decide, rfl, by decide, rfl⟩
    · exact ⟨rfl, trivial⟩
    · intro piece hp
      obtain rfl := List.mem_singleton.mp hp
      trivial
  have text : [Piece.number .d 5].flatMap Piece.text = [0x35] := by
    have digits : Nat.digits 10 5 = [5] := Nat.digits_of_lt 10 5 (by decide) (by decide)
    have five : (5 : U32).toInt = 5 := rfl
    change signedNumeral (5 : U32).toInt ++ [] = _
    rw [five, List.append_nil, signedNumeral, if_neg (by decide), numeral, if_neg (by decide)]
    change ((Nat.digits 10 5).reverse.map digitChar) = _
    rw [digits]
    rfl
  refine ⟨spells, text, fun exact => ?_⟩
  rw [← text] at exact
  exact absurd (spells.isNumber_of_formats exact _ List.mem_cons_self) (by decide)

end Printf
