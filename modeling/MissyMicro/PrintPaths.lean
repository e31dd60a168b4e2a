import MissyMicro.PrintedText
import MissyMicro.Printf

/-!
# Two ways to print a string

`terminal_puts` passes on bytes from 0 to 255, `terminal_printf` signed characters. Both move
the cursor in the same way; but the upper half of a negative character is stored over the color
of its cell.
-/

namespace PrintPaths

open LibcString LinkedRings Terminal Screen ScreenLayout Layout PrintedText Printf

universe u

theorem promoted_control : ∀ c : BitVec 8,
    (promoted c = 0x0a ∨ promoted c = 0x0d ↔ code c = 0x0a ∨ code c = 0x0d) ∧
      (promoted c = 0x08 ↔ code c = 0x08) ∧ (promoted c = 0x09 ↔ code c = 0x09) := by
  decide +kernel

theorem promoted_low : ∀ c : BitVec 8, c < 0x80 → promoted c = code c := by
  decide +kernel

theorem promoted_color : ∀ c : BitVec 8, ¬ c < 0x80 → (promoted c).extractLsb' 8 8 = 0xff := by
  decide +kernel

theorem cell_white : ∀ c : BitVec 8,
    ((0xff : BitVec 8).setWidth 16 <<< 8) ||| (code c).setWidth 16 =
      ((0xff : BitVec 8).setWidth 16 <<< 8) ||| (promoted c).setWidth 16 := by
  decide +kernel

/-- A cell takes the color of the screen from either way if it is all ones already. -/
theorem cell_promoted_iff (s : Screen) (c : BitVec 8) :
    s.cell (code c) = s.cell (promoted c) ↔ s.colorAttrib = 0xff ∨ c < 0x80 := by
  constructor
  · intro same
    by_cases low : c < 0x80
    · exact Or.inr low
    · have color := congrArg (BitVec.extractLsb' 8 8) same
      rw [cell_attribute, cell_color, promoted_color c low] at color
      exact Or.inl (color.trans BitVec.or_allOnes)
  · intro h
    rcases h with white | low
    · rw [cell, cell, white]
      exact cell_white c
    · rw [promoted_low c low]

theorem print_promoted {α : Type u} (blank : α) (l : Layout α) (c : BitVec 8) (a : α) :
    l.print blank (promoted c) a = l.print blank (code c) a := by
  obtain ⟨line, back, tab⟩ := promoted_control c
  unfold print
  simp only [line, back, tab]

theorem marks_promoted (s : Screen) (text : List (BitVec 8)) :
    marks s promoted text = marks s code text := by
  induction text using List.reverseRecOn with
  | nil => rfl
  | append_singleton text c ih =>
    rw [marks_append, marks_append, ih]
    exact print_promoted _ _ c _

/-- The same cells, and the same cursor. -/
structure Agree (s t : Screen) : Prop where
  curX : s.curX = t.curX
  curY : s.curY = t.curY
  videoMemory : s.videoMemory = t.videoMemory

theorem agree_iff {s : Screen} {text : List (BitVec 8)} :
    Agree (s.printAll (text.map code)) (s.printAll (text.map promoted)) ↔
      ∀ p, ((marks s code text).cells p).render s code =
        ((marks s code text).cells p).render s promoted := by
  have plain := view_iff.mp (marks_render s code text)
  have signed := view_iff.mp (marks_render s promoted text)
  rw [marks_promoted] at signed
  obtain ⟨plainX, plainY, plainMemory⟩ := plain
  obtain ⟨signedX, signedY, signedMemory⟩ := signed
  constructor
  · intro agree p
    have shown := congrFun agree.videoMemory p
    rw [plainMemory, signedMemory] at shown
    exact shown
  · intro shown
    constructor
    · rw [plainX, signedX]
    · rw [plainY, signedY]
    · rw [plainMemory, signedMemory]
      exact funext shown

/-- A cell that shows no character looks the same. -/
theorem render_promoted_iff (s : Screen) (mark : Mark (BitVec 8)) :
    mark.render s code = mark.render s promoted ↔
      s.colorAttrib = 0xff ∨ ∀ c, mark = .char c → c < 0x80 := by
  cases mark with
  | old p => simp [Mark.render]
  | blank => simp [Mark.render]
  | char c =>
    rw [Mark.render, Mark.render, cell_promoted_iff]
    simp

/-- What is left of the bytes from 0x80 on makes the difference. -/
theorem agree_marks_iff {s : Screen} {text : List (BitVec 8)} :
    Agree (s.printAll (text.map code)) (s.printAll (text.map promoted)) ↔
      s.colorAttrib = 0xff ∨ ∀ p c, (marks s code text).cells p = .char c → c < 0x80 := by
  rw [agree_iff]
  constructor
  · intro shown
    by_cases white : s.colorAttrib = 0xff
    · exact Or.inl white
    · refine Or.inr fun p => ?_
      exact ((render_promoted_iff s _).mp (shown p)).resolve_left white
  · intro h p
    rw [render_promoted_iff]
    rcases h with white | low
    · exact Or.inl white
    · exact Or.inr (low p)

section Paths

variable {s : Screen} {mem : U32 → BitVec 8} {fmt : U32} {args : Nat → U32}
  {text : List (BitVec 8)}

theorem terminalPuts_eq (chars : ∀ c ∈ text, c ≠ 0) :
    (s.terminalPuts (text ++ [0])).2 = s.printAll ((text ++ [0x0d]).map code) := by
  rw [terminalPuts, charsOf_text chars, List.map_append, Screen.printAll, Screen.printAll,
    List.foldl_append]
  rfl

/-- `"%s\r"`. -/
theorem terminalPrintf_eq (s : Screen) (format : TextAt loadByte mem fmt [0x25, 0x73, 0x0d])
    (string : TextAt loadByte mem (args 0) text) :
    Returns (fun turns => terminalPrintf s mem fmt args turns)
      (s.printAll ((text ++ [0x0d]).map promoted)) := by
  have spells : Spells mem fmt args [.string (args 0) text, .literal 0x0d] := by
    constructor
    · exact format
    · exact ⟨rfl, trivial⟩
    · intro piece hp
      rw [List.mem_cons, List.mem_singleton] at hp
      rcases hp with rfl | rfl
      · exact string
      · exact (by decide : (0x0d : BitVec 8) ≠ 0x25)
  have returned := spells.terminalPrintf s
  have output : [Piece.string (args 0) text, .literal 0x0d].flatMap Piece.output =
      (text ++ [0x0d]).map promoted := by
    rw [List.map_append]
    rfl
  rwa [output] at returned

/-- The two ways agree if and only if the color is all ones, or in the end no cell shows a byte
from 0x80 on that was printed. -/
theorem paths_agree_iff (format : TextAt loadByte mem fmt [0x25, 0x73, 0x0d])
    (string : TextAt loadByte mem (args 0) text) :
    (∃ t, Returns (fun turns => terminalPrintf s mem fmt args turns) t ∧
        Agree (s.terminalPuts (text ++ [0])).2 t) ↔
      s.colorAttrib = 0xff ∨
        ∀ p c, (marks s code (text ++ [0x0d])).cells p = .char c → c < 0x80 := by
  have returned := terminalPrintf_eq s format string
  rw [terminalPuts_eq string.chars, ← agree_marks_iff]
  constructor
  · rintro ⟨t, returned', agree⟩
    obtain rfl := returned.unique returned'
    exact agree
  · intro agree
    exact ⟨_, returned, agree⟩

end Paths

theorem row_marks {text : List (BitVec 8)} (ordinary : ∀ c ∈ text, Ordinary (code c))
    (fits : text.length ≤ 80) : (marks (cleared fun _ => 0) code (text ++ [0x0d])).cells =
      written 0 (text.map .char) .old := by
  have row := @marks_row _ (cleared fun _ => 0) 0 0 rfl rfl (by decide) code text ordinary
    ((Nat.zero_add _).trans_le fits)
  rw [marks_append, row]
  rfl

/-- `"AB~"` is printed in the same way. -/
theorem paths_agree_low :
    ∃ t, Returns (fun turns => terminalPrintf (cleared fun _ => 0)
        (image [0x25, 0x73, 0x0d, 0, 0x41, 0x42, 0x7e]) 0 (fun _ => 4) turns) t ∧
      Agree ((cleared fun _ => 0).terminalPuts ([0x41, 0x42, 0x7e] ++ [0])).2 t := by
  have format : TextAt loadByte (image [0x25, 0x73, 0x0d, 0, 0x41, 0x42, 0x7e]) 0
      [0x25, 0x73, 0x0d] :=
    ⟨rfl, by decide, rfl, by decide, rfl, by decide, rfl⟩
  have string : TextAt loadByte (image [0x25, 0x73, 0x0d, 0, 0x41, 0x42, 0x7e]) 4
      [0x41, 0x42, 0x7e] :=
    ⟨rfl, by decide, rfl, by decide, rfl, by decide, rfl⟩
  refine (@paths_agree_iff _ _ _ (fun _ => 4) _ format string).mpr (Or.inr fun p c mark => ?_)
  rw [row_marks (by decide) (by decide)] at mark
  have shown := (written_char [0x41, 0x42, 0x7e] p).symm.trans mark
  split at shown
  · have low : ∀ d ∈ ([0x41, 0x42, 0x7e] : List (BitVec 8)), d < 0x80 := by decide
    rw [← Mark.char.inj shown]
    exact low _ (List.getElem_mem _)
  · cases shown

/-- The byte 0x80 is not. -/
theorem paths_disagree_high :
    TextAt loadByte (image [0x25, 0x73, 0x0d, 0, 0x80]) 0 [0x25, 0x73, 0x0d] ∧
      TextAt loadByte (image [0x25, 0x73, 0x0d, 0, 0x80]) 4 [0x80] ∧
      ¬ ∃ t, Returns (fun turns => terminalPrintf (cleared fun _ => 0)
          (image [0x25, 0x73, 0x0d, 0, 0x80]) 0 (fun _ => 4) turns) t ∧
        Agree ((cleared fun _ => 0).terminalPuts ([0x80] ++ [0])).2 t := by
  have format : TextAt loadByte (image [0x25, 0x73, 0x0d, 0, 0x80]) 0 [0x25, 0x73, 0x0d] :=
    ⟨rfl, by decide, rfl, by decide, rfl, by decide, rfl⟩
  have string : TextAt loadByte (image [0x25, 0x73, 0x0d, 0, 0x80]) 4 [0x80] :=
    ⟨rfl, by decide, rfl⟩
  refine ⟨format, string, ?_⟩
  rintro ⟨t, returned, agree⟩
  have own := @terminalPrintf_eq _ _ (fun _ => 4) _ (cleared fun _ => 0) format string
  obtain rfl := own.unique returned
  rw [terminalPuts_eq string.chars, agree_marks_iff] at agree
  have first : (marks (cleared fun _ => 0) code ([0x80] ++ [0x0d])).cells 0 = .char 0x80 :=
    congrFun (row_marks (by decide) (by decide)) 0
  have color : (cleared fun _ => 0).colorAttrib = 0x0f :=
    (terminalClrscr_view _).2
  rcases agree with white | low
  · rw [color] at white
    exact absurd white (by decide)
  · exact absurd (low 0 0x80 first) (by decide)

end PrintPaths
