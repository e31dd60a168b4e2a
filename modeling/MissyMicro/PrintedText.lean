import Mathlib.Data.List.GetD
import Mathlib.Data.List.Induction
import MissyMicro.ScreenLayout

/-!
# What printed text looks like

Lines of at most 80 characters are shown as they were printed, the last 24 of them. A longer
line wraps one character too late: character 80 is stored to the first cell of the next row,
and there the next character is stored over it.
-/

namespace PrintedText

open Terminal Screen ScreenLayout Layout

/-- A byte as an `unsigned char` passed on as an `int`. -/
def code (c : BitVec 8) : U32 := c.setWidth 32

/-- The text character by character on a cleared screen. -/
def printed (s : Screen) (text : List (BitVec 8)) : Screen :=
  s.terminalClrscr.printAll (text.map code)

/-- The claimed rows: cell `k` shows character `k`, and behind cell 1919 the screen may scroll, so
that the last row of the text is one of the two at the bottom. No character takes a cell that
shows one. -/
structure Flows (s : Screen) (text : List (BitVec 8)) : Prop where
  cells : text.length ≤ 1920 → ∀ k (h : k < text.length),
    (printed s text).videoMemory k = s.cell (code text[k])
  lastRows : 1920 < text.length → ∃ top, (text.length + 79) / 80 ≤ top + 25 ∧
    top + 24 ≤ (text.length + 79) / 80 ∧
    ∀ p < 2000, (printed s text).videoMemory p = s.cell (code (text.getD (80 * top + p) 0x20))
  spared : ∀ k < text.length, ∀ c,
    (marks s.terminalClrscr code (text.take k)).cells
      (marks s.terminalClrscr code (text.take k)).idx ≠ .char c

section LongLine

variable {s : Screen} {text : List (BitVec 8)}

theorem cleared_marks (s : Screen) (ordinary : ∀ c ∈ text, Ordinary (code c))
    (fits : text.length ≤ 80) :
    marks s.terminalClrscr code text =
      ⟨text.length, (0 : Nat), written 0 (text.map .char) .old⟩ := by
  obtain ⟨curX, curY, _⟩ := view_iff.mp (terminalClrscr_view s).1
  have row := @marks_row _ s.terminalClrscr 0 0 curX curY (by decide) code _ ordinary
    (by rw [Nat.zero_add]; exact fits)
  rw [Nat.zero_add] at row
  exact row

/-- Character 80 goes to cell 80, and only then the cursor goes to the next row. -/
theorem wrapped_marks (s : Screen) {c : BitVec 8} (ordinary : ∀ c ∈ text, Ordinary (code c))
    (last : Ordinary (code c)) (full : text.length = 80) :
    marks s.terminalClrscr code (text ++ [c]) =
      ⟨0, 1, Function.update (written 0 (text.map .char) .old) 80 (.char c)⟩ := by
  have wrap : ((80 : Nat) : Int) ≥ 80 := by decide
  have row : ¬ ((0 : Nat) : Int) + 1 > 24 := by decide
  rw [marks_append, cleared_marks s ordinary (Nat.le_of_eq full), full, List.map_singleton]
  change Layout.print _ _ _ _ = _
  rw [print_ordinary last, place, if_pos wrap, idx_eq (by decide) (by decide), Layout.nextRow,
    if_neg row]
  rfl

theorem take_ordinary (ordinary : ∀ c ∈ text, Ordinary (code c)) (k : Nat) :
    ∀ c ∈ text.take k, Ordinary (code c) :=
  fun c hc => ordinary c (List.mem_of_mem_take hc)

theorem take_row (full : 80 ≤ text.length) : (text.take 80).length = 80 := by
  rw [List.length_take]
  exact Nat.min_eq_left full

/-- Character 81 is stored over character 80. -/
theorem stored_over (ordinary : ∀ c ∈ text, Ordinary (code c)) (hlt : 80 < text.length) :
    (marks s.terminalClrscr code (text.take 81)).cells
        (marks s.terminalClrscr code (text.take 81)).idx = .char text[80] := by
  have cut : text.take 81 = text.take 80 ++ [text[80]] := (List.take_append_getElem hlt).symm
  rw [cut, wrapped_marks s (take_ordinary ordinary 80) (ordinary _ (List.getElem_mem hlt))
    (take_row (Nat.le_of_lt hlt))]
  have under : (⟨0, 1, Function.update (written 0 ((text.take 80).map Mark.char) Mark.old) 80
      (.char text[80])⟩ : Layout (Mark (BitVec 8))).idx = 80 := rfl
  rw [under]
  rfl

theorem written_char (text : List (BitVec 8)) (k : Nat) :
    written 0 (text.map Mark.char) Mark.old k =
      if h : k < text.length then .char text[k] else .old k := by
  rw [written, if_pos (Nat.zero_le k), Nat.sub_zero]
  split
  · rename_i inside
    rw [List.getD_eq_getElem _ _ (by rw [List.length_map]; exact inside), List.getElem_map]
  · rename_i outside
    exact List.getD_eq_default _ _ (by rw [List.length_map]; omega)

/-- Up to 81 characters have a cell each. -/
theorem short_marks (ordinary : ∀ c ∈ text, Ordinary (code c)) (short : text.length ≤ 81)
    {k : Nat} (h : k < text.length) :
    (marks s.terminalClrscr code text).cells k = .char text[k] := by
  by_cases fits : text.length ≤ 80
  · rw [cleared_marks s ordinary fits]
    exact (written_char text k).trans (dif_pos h)
  · have hlt : 80 < text.length := by omega
    have cut : text.take 80 ++ [text[80]] = text := by
      rw [List.take_append_getElem hlt]
      exact List.take_of_length_le short
    have shown := wrapped_marks s (take_ordinary ordinary 80)
      (ordinary _ (List.getElem_mem hlt)) (take_row (Nat.le_of_lt hlt))
    rw [cut] at shown
    rw [shown]
    by_cases last : k = 80
    · subst last
      rfl
    · have hk : k < (text.take 80).length := by
        rw [take_row (Nat.le_of_lt hlt)]
        omega
      dsimp only
      rw [Function.update_of_ne last, written_char, dif_pos hk, List.getElem_take]

/-- The text is shown with nothing lost if and only if it has at most 81 characters. -/
theorem printed_flows_iff (s : Screen) (ordinary : ∀ c ∈ text, Ordinary (code c)) :
    Flows s text ↔ text.length ≤ 81 := by
  constructor
  · intro flows
    by_contra long
    have spared := flows.spared 81 (by omega)
    exact spared _ (stored_over ordinary (by omega))
  · intro short
    constructor
    · intro _ k h
      have memory := marks_memory s.terminalClrscr code text k
      rw [short_marks ordinary short h] at memory
      exact memory.trans (cell_congr (terminalClrscr_view s).2 _)
    · intro long
      omega
    · intro k hk c
      have size : (text.take k).length = k := by
        rw [List.length_take]
        exact Nat.min_eq_left (Nat.le_of_lt hk)
      have free : ¬ k < (text.take k).length := by omega
      have row : (text.take k).length ≤ 80 := by omega
      rw [cleared_marks s (take_ordinary ordinary k) row, idx_eq row (by decide), size]
      dsimp only
      rw [Nat.mul_zero, Nat.zero_add, written_char, dif_neg free]
      intro shown
      cases shown

def whiteOnBlack : Screen := terminalInitialize ⟨0, 0, 0, fun _ => 0, 0, []⟩

/-- A row of `a`s and one character more. -/
theorem printed_flows_row : Flows whiteOnBlack (List.replicate 81 0x61) := by
  refine (printed_flows_iff _ fun c hc => ?_).mpr (by decide)
  obtain rfl := List.eq_of_mem_replicate hc
  decide

/-- The character behind a row shows where the one after it is stored. -/
theorem overwritten_memory (s : Screen) {b c : BitVec 8}
    (ordinary : ∀ c ∈ text, Ordinary (code c)) (hb : Ordinary (code b)) (hc : Ordinary (code c))
    (full : text.length = 80) :
    (printed s (text ++ [b] ++ [c])).videoMemory 80 = s.cell (code c) := by
  have inside : ¬ (0 : Int) ≥ 80 := by decide
  have memory := marks_memory s.terminalClrscr code (text ++ [b] ++ [c]) 80
  have shown : (marks s.terminalClrscr code (text ++ [b] ++ [c])).cells 80 = .char c := by
    rw [marks_append, wrapped_marks s ordinary hb full, List.map_singleton]
    change (Layout.print _ _ _ _).cells 80 = _
    rw [print_ordinary hc, place, if_neg inside]
    rfl
  rw [shown] at memory
  exact memory.trans (cell_congr (terminalClrscr_view s).2 _)

/-- Behind a row of `a`s, a `c` is stored over a `b`. -/
theorem printed_flows_overwritten : ¬ ∀ (s : Screen) (text : List (BitVec 8)),
    (∀ c ∈ text, Ordinary (code c)) → Flows s text := by
  intro all
  have ordinary : ∀ c ∈ List.replicate 80 (0x61 : BitVec 8), Ordinary (code c) := by
    intro c hc
    obtain rfl := List.eq_of_mem_replicate hc
    decide
  have flows := all whiteOnBlack (List.replicate 80 0x61 ++ [0x62] ++ [0x63])
    (by decide +kernel)
  have claimed := flows.cells (by decide) 80 (by decide)
  rw [overwritten_memory _ ordinary (by decide) (by decide) (by decide)] at claimed
  exact absurd claimed (by decide)

end LongLine

def putsAll (s : Screen) (lines : List (List (BitVec 8))) : Screen :=
  lines.foldl (fun s line => (s.terminalPuts (line ++ [0])).2) s

/-- At most 80 characters, none of which is a NUL or moves the cursor in another way. -/
structure Line (line : List (BitVec 8)) : Prop where
  fits : line.length ≤ 80
  chars : ∀ c ∈ line, c ≠ 0
  ordinary : ∀ c ∈ line, Ordinary (code c)

/-- The character at a cell of a page of rows. -/
def page (rows : List (List (BitVec 8))) (p : Nat) : BitVec 8 :=
  (rows.getD (p / 80) []).getD (p % 80) 0x20

/-- The screen shows the rows, and its cursor stands in the first row below them. -/
structure Paged (s : Screen) (rows : List (List (BitVec 8))) : Prop where
  height : rows.length ≤ 24
  curX : s.curX = 0
  curY : s.curY = rows.length
  stores : ∀ i ∈ s.stores, i < 2000
  memory : ∀ p < 2000, s.videoMemory p = s.cell (code (page rows p))

section Lines

variable {s : Screen} {line : List (BitVec 8)} {rows lines : List (List (BitVec 8))}

theorem charsOf_text (chars : ∀ c ∈ line, c ≠ 0) :
    Screen.charsOf (line ++ [0]) = line.map code := by
  have all : ∀ c ∈ line, decide (c ≠ 0) = true := fun c hc => decide_eq_true (chars c hc)
  rw [Screen.charsOf, List.takeWhile_append_of_pos all]
  simp [code]

/-- A line that fits in its row never needs a cell behind it. -/
theorem accepts_row {text : List U32} (ordinary : ∀ c ∈ text, Ordinary c) {cur : Cursor}
    (fits : cur.x + text.length ≤ 80) : cur.AcceptsAll text := by
  induction text generalizing cur with
  | nil => trivial
  | cons c text ih =>
    obtain ⟨line, back, tab⟩ := ordinary c List.mem_cons_self
    rw [List.length_cons] at fits
    have put : cur.after c = ⟨cur.x + 1, cur.y, by omega, cur.y_le⟩ := by
      rw [Cursor.after, if_neg line, if_neg back, if_neg tab, Cursor.put_inside (by omega)]
    constructor
    · rw [Cursor.Accepts, if_neg line, if_neg back, if_neg tab]
      intro _
      omega
    · rw [put]
      apply ih fun d hd => ordinary d (List.mem_cons_of_mem c hd)
      dsimp only
      omega

theorem Paged.puts_stores (paged : Paged s rows) (h : Line line) :
    ∀ i ∈ (s.terminalPuts (line ++ [0])).2.stores, i < 2000 := by
  have at_row : At s ⟨0, rows.length, Nat.zero_le _, paged.height⟩ :=
    ⟨paged.curX, paged.curY, paged.stores⟩
  have plain : ∀ c ∈ line.map code, Ordinary c := by
    intro c hc
    obtain ⟨b, hb, rfl⟩ := List.mem_map.mp hc
    exact h.ordinary b hb
  have fits : 0 + (line.map code).length ≤ 80 := by
    rw [List.length_map, Nat.zero_add]
    exact h.fits
  obtain ⟨cur, after⟩ := printAll_at at_row (accepts_row plain fits)
  rw [terminalPuts, charsOf_text h.chars]
  exact (print_at after cur.accepts_line).stores

/-- The row below the page filled in. -/
theorem Paged.row (paged : Paged s rows) (h : Line line) {p : Nat} (hp : p < 2000) :
    written (80 * rows.length) (line.map fun c => s.cell (code c)) s.videoMemory p =
      s.cell (code (page (rows ++ [line]) p)) := by
  have memory := paged.memory p hp
  have fits := h.fits
  unfold written page
  unfold page at memory
  by_cases above : p / 80 < rows.length
  · rw [if_neg (by omega), memory, List.getD_append _ _ _ _ above]
  · rw [if_pos (by omega), List.getD_append_right _ _ _ _ (by omega)]
    rw [List.getD_eq_default rows [] (by omega)] at memory
    by_cases here : p / 80 = rows.length
    · have column : p - 80 * rows.length = p % 80 := by omega
      rw [column, here, Nat.sub_self]
      by_cases inside : p % 80 < line.length
      · rw [List.getD_eq_getElem _ _ (by rw [List.length_map]; exact inside), List.getElem_map]
        exact congrArg (fun c => s.cell (code c)) (List.getD_eq_getElem line _ inside).symm
      · rw [List.getD_eq_default _ _ (by rw [List.length_map]; omega), memory]
        exact congrArg (fun c => s.cell (code c)) (List.getD_eq_default line _ (by omega)).symm
    · rw [List.getD_eq_default _ _ (by rw [List.length_map]; omega), memory,
        List.getD_eq_default [line] _ (by rw [List.length_singleton]; omega)]

/-- What a line leaves on the screen, and its color. -/
theorem Paged.puts_view (paged : Paged s rows) (h : Line line) :
    view (s.terminalPuts (line ++ [0])).2 =
        (⟨(0 + line.length : Nat), rows.length,
          written (80 * rows.length + 0) (line.map fun c => s.cell (code c)) s.videoMemory⟩ :
          Layout (BitVec 16)).nextRow (s.cell 0x20) ∧
      (s.terminalPuts (line ++ [0])).2.colorAttrib = s.colorAttrib := by
  obtain ⟨text, color⟩ := printAll_view s (line.map code)
  obtain ⟨newline, color'⟩ := terminalPrintchar_view (s.printAll (line.map code)) 0x0d
  have start : view s = ⟨(0 : Nat), rows.length, s.videoMemory⟩ :=
    view_iff.mpr ⟨paged.curX, paged.curY, rfl⟩
  have plain : ∀ c ∈ (line.map code).map fun c => (c, s.cell c), Ordinary c.1 := by
    intro c hc
    obtain ⟨d, hd, rfl⟩ := List.mem_map.mp hc
    obtain ⟨b, hb, rfl⟩ := List.mem_map.mp hd
    exact h.ordinary b hb
  have fits : 0 + ((line.map code).map fun c => (c, s.cell c)).length ≤ 80 := by
    rw [List.length_map, List.length_map, Nat.zero_add]
    exact h.fits
  have cells : ((line.map code).map fun c => (c, s.cell c)).map Prod.snd =
      line.map fun c => s.cell (code c) := by
    rw [List.map_map, List.map_map]
    rfl
  have shown := printAll_row paged.height (s.cell 0x20) s.videoMemory plain fits
  rw [List.length_map, List.length_map, cells] at shown
  rw [start, shown] at text
  rw [terminalPuts, charsOf_text h.chars]
  refine ⟨newline.trans ?_, color'.trans color⟩
  rw [text, cell_congr color]
  exact if_pos (Or.inr rfl)

/-- The page takes a line at the bottom, and gives up its first row if it is full. -/
theorem Paged.puts (paged : Paged s rows) (h : Line line) :
    Paged (s.terminalPuts (line ++ [0])).2 ((rows ++ [line]).drop (rows.length + 1 - 24)) := by
  have height := paged.height
  have stores := paged.puts_stores h
  obtain ⟨shown, color⟩ := paged.puts_view h
  generalize (s.terminalPuts (line ++ [0])).2 = t at *
  have size : (rows ++ [line]).length = rows.length + 1 := List.length_append
  by_cases full : rows.length = 24
  · have last : (rows.length : Int) + 1 > 24 := by omega
    rw [Layout.nextRow, if_pos last] at shown
    obtain ⟨curX, curY, memory⟩ := view_iff.mp shown
    have one : rows.length + 1 - 24 = 1 := by omega
    rw [one]
    refine ⟨?_, curX, ?_, stores, fun p hp => ?_⟩
    · rw [List.length_drop]
      omega
    · rw [curY, List.length_drop]
      dsimp only
      omega
    · rw [memory, cell_congr color]
      unfold scrolled
      by_cases upper : p < 1920
      · rw [if_pos upper]
        refine (paged.row h (by omega)).trans (congrArg (fun c => s.cell (code c)) ?_)
        have down : (p + 80) / 80 = p / 80 + 1 := by omega
        have column : (p + 80) % 80 = p % 80 := by omega
        rw [page, page, down, column, List.getD_eq_getElem?_getD, List.getD_eq_getElem?_getD,
          List.getD_eq_getElem?_getD, List.getD_eq_getElem?_getD, List.getElem?_drop,
          Nat.add_comm 1]
      · rw [if_neg upper, if_pos hp, page]
        rw [List.getD_eq_default (List.drop 1 _) _ (by rw [List.length_drop]; omega)]
        rfl
  · have stays : ¬ (rows.length : Int) + 1 > 24 := by omega
    rw [Layout.nextRow, if_neg stays] at shown
    obtain ⟨curX, curY, memory⟩ := view_iff.mp shown
    have none : rows.length + 1 - 24 = 0 := by omega
    rw [none, List.drop_zero]
    refine ⟨by omega, curX, ?_, stores, fun p hp => ?_⟩
    · rw [curY, size]
      dsimp only
      omega
    · rw [memory, cell_congr color]
      exact paged.row h hp

theorem putsAll_paged (paged : Paged s []) (all : ∀ line ∈ lines, Line line) :
    Paged (putsAll s lines) (lines.drop (lines.length - 24)) := by
  induction lines using List.reverseRecOn with
  | nil => exact paged
  | append_singleton lines line ih =>
    have before := ih fun l hl => all l (List.mem_append_left _ hl)
    have after := before.puts (all line (List.mem_append_right _ List.mem_cons_self))
    have run : putsAll s (lines ++ [line]) =
        ((putsAll s lines).terminalPuts (line ++ [0])).2 := List.foldl_append
    rw [run, List.length_append, List.length_singleton]
    have within : lines.length - 24 ≤ lines.length := Nat.sub_le _ _
    rw [← List.drop_append_of_le_length within, List.drop_drop, List.length_drop] at after
    have same : lines.length - 24 + (lines.length - (lines.length - 24) + 1 - 24) =
        lines.length + 1 - 24 := by omega
    rw [same] at after
    exact after

/-- Row `i` shows the line and blanks behind it. -/
def RowShows (s : Screen) (i : Nat) (line : List (BitVec 8)) : Prop :=
  ∀ j < 80, s.videoMemory (80 * i + j) = s.cell (code (line.getD j 0x20))

/-- Up to 24 lines are shown from the top, of more the last 24; the cursor stands below them. -/
structure ShowsLast (s : Screen) (lines : List (List (BitVec 8))) : Prop where
  few : lines.length ≤ 24 → (∀ i (h : i < lines.length), RowShows s i lines[i]) ∧
    ∀ i, lines.length ≤ i → i < 25 → RowShows s i []
  many : ∀ _long : 25 ≤ lines.length,
    (∀ i (h : i < 24), RowShows s i (lines.get ⟨lines.length - 24 + i, by omega⟩)) ∧
      RowShows s 24 []
  curX : s.curX = 0
  curY : s.curY = min lines.length 24
  attrib : ∀ p < 2000, (s.videoMemory p).extractLsb' 8 8 = s.colorAttrib
  stores : ∀ i ∈ s.stores, i < 2000

theorem Paged.rowShows (paged : Paged s rows) {i : Nat} (hi : i < 25) :
    RowShows s i (rows.getD i []) := by
  intro j hj
  have shown := paged.memory (80 * i + j) (by omega)
  have row : (80 * i + j) / 80 = i := by omega
  have column : (80 * i + j) % 80 = j := by omega
  rwa [page, row, column] at shown

/-- What a code has above its low byte goes into the color. -/
theorem cell_color (s : Screen) (x : U32) :
    (s.cell x).extractLsb' 8 8 = s.colorAttrib ||| x.extractLsb' 8 8 := by
  rw [cell]
  apply BitVec.eq_of_getLsbD_eq
  intro i hi
  have upper : 8 + i < 16 := by omega
  have above : ¬ 8 + i < 8 := by omega
  simp [hi, upper, above]

theorem code_color : ∀ c : BitVec 8, (code c).extractLsb' 8 8 = 0 := by
  decide +kernel

theorem cell_attribute (s : Screen) (c : BitVec 8) :
    (s.cell (code c)).extractLsb' 8 8 = s.colorAttrib := by
  rw [cell_color, code_color]
  exact BitVec.or_zero

/-- The last lines printed are the lines shown. -/
theorem putsAll_showsLast (memory : Nat → BitVec 16) (all : ∀ line ∈ lines, Line line) :
    ShowsLast (putsAll (cleared memory) lines) lines := by
  obtain ⟨clear, color⟩ := terminalClrscr_view (terminalInitialize ⟨0, 0, 0, memory, 0, []⟩)
  obtain ⟨curX, curY, shown⟩ := view_iff.mp clear
  have start : Paged (cleared memory) [] := by
    refine ⟨Nat.zero_le _, curX, curY, (cleared_at memory).stores, fun p hp => ?_⟩
    have blank := (congrFun shown p).trans (if_pos hp)
    exact blank.trans (cell_congr color 0x20).symm
  have paged := putsAll_paged start all
  have size : (lines.drop (lines.length - 24)).length = min lines.length 24 := by
    rw [List.length_drop]
    omega
  constructor
  · intro few
    have whole : lines.drop (lines.length - 24) = lines := by
      rw [Nat.sub_eq_zero_of_le few, List.drop_zero]
    rw [whole] at paged
    constructor
    · intro i hi
      have row := @Paged.rowShows _ _ paged i (by omega)
      rwa [List.getD_eq_getElem _ _ hi] at row
    · intro i hi hlt
      have row := paged.rowShows hlt
      rwa [List.getD_eq_default _ _ hi] at row
  · intro many
    constructor
    · intro i hi
      have row := @Paged.rowShows _ _ paged i (by omega)
      rwa [List.getD_eq_getElem _ _ (by omega), List.getElem_drop] at row
    · have row := @Paged.rowShows _ _ paged 24 (by decide)
      rwa [List.getD_eq_default _ _ (by omega)] at row
  · exact paged.curX
  · rw [paged.curY, size]
  · intro p hp
    rw [paged.memory p hp, cell_attribute]
  · exact paged.stores

end Lines

/-- A row of one character behind 25 full ones; the first two of them are scrolled away. -/
theorem putsAll_showsLast_scrolled :
    ShowsLast (putsAll (cleared fun _ => 0) (List.replicate 25 (List.replicate 80 0x61) ++ [[0x62]]))
      (List.replicate 25 (List.replicate 80 0x61) ++ [[0x62]]) := by
  refine putsAll_showsLast _ fun line hline => ?_
  rcases List.mem_append.mp hline with full | last
  · rw [List.eq_of_mem_replicate full]
    constructor <;> decide +kernel
  · rw [List.mem_singleton.mp last]
    constructor <;> decide

end PrintedText
