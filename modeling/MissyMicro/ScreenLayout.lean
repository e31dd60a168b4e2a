import MissyMicro.Terminal

/-!
# Where printed characters stand

The terminal moves its cursor and its cells by the characters printed, whatever the cells
hold. So a layout with entries of any type follows the terminal cell by cell, and to map its
entries commutes with printing.
-/

namespace ScreenLayout

open Terminal Screen

universe u v

structure Layout (α : Type u) where
  x : Int
  y : Int
  cells : Nat → α

namespace Layout

variable {α : Type u} {β : Type v}

/-- The cell that the next character is stored to. -/
def idx (l : Layout α) : Nat := (BitVec.ofInt 16 (l.y * 80 + l.x)).toNat

/-- The rows move up by one, and the last one is blank. -/
def scrolled (blank : α) (cells : Nat → α) (p : Nat) : α :=
  if p < 1920 then cells (p + 80) else if p < 2000 then blank else cells p

def nextRow (blank : α) (l : Layout α) : Layout α :=
  if l.y + 1 > 24 then ⟨0, l.y, scrolled blank l.cells⟩ else ⟨0, l.y + 1, l.cells⟩

def place (blank a : α) (l : Layout α) : Layout α :=
  if l.x ≥ 80 then nextRow blank ⟨l.x + 1, l.y, Function.update l.cells l.idx a⟩
  else ⟨l.x + 1, l.y, Function.update l.cells l.idx a⟩

def left (l : Layout α) : Layout α := { l with x := l.x - 1 }

/-- The character moves the cursor, and `a` is what its cell shows. -/
def print (blank : α) (l : Layout α) (c : U32) (a : α) : Layout α :=
  if c = 0x0a ∨ c = 0x0d then l.nextRow blank
  else if c = 0x08 then (l.left.place blank blank).left
  else if c = 0x09 then
    (((l.place blank blank).place blank blank).place blank blank).place blank blank
  else l.place blank a

def printAll (blank : α) (l : Layout α) (text : List (U32 × α)) : Layout α :=
  text.foldl (fun l c => l.print blank c.1 c.2) l

theorem printAll_append (blank : α) (l : Layout α) (text text' : List (U32 × α)) :
    l.printAll blank (text ++ text') = (l.printAll blank text).printAll blank text' :=
  List.foldl_append

def map (f : α → β) (l : Layout α) : Layout β := ⟨l.x, l.y, fun p => f (l.cells p)⟩

theorem scrolled_map (f : α → β) (blank : α) (cells : Nat → α) :
    (fun p => f (scrolled blank cells p)) = scrolled (f blank) (fun p => f (cells p)) := by
  funext p
  unfold scrolled
  split
  · rfl
  · split <;> rfl

theorem nextRow_map (f : α → β) (blank : α) (l : Layout α) :
    (l.nextRow blank).map f = (l.map f).nextRow (f blank) := by
  by_cases last : l.y + 1 > 24
  · have scrolls : l.nextRow blank = ⟨0, l.y, scrolled blank l.cells⟩ := if_pos last
    rw [scrolls, map, scrolled_map]
    exact (if_pos last).symm
  · have stays : l.nextRow blank = ⟨0, l.y + 1, l.cells⟩ := if_neg last
    rw [stays]
    exact (if_neg last).symm

theorem place_map (f : α → β) (blank a : α) (l : Layout α) :
    (l.place blank a).map f = (l.map f).place (f blank) (f a) := by
  have cells : (fun p => f (Function.update l.cells l.idx a p)) =
      Function.update (fun p => f (l.cells p)) l.idx (f a) :=
    Function.comp_update f l.cells l.idx a
  have stored : (⟨l.x + 1, l.y, Function.update l.cells l.idx a⟩ : Layout α).map f =
      ⟨l.x + 1, l.y, Function.update (fun p => f (l.cells p)) l.idx (f a)⟩ := by
    unfold map
    rw [cells]
  unfold place
  by_cases wrap : l.x ≥ 80
  · rw [if_pos wrap, nextRow_map, stored]
    exact (if_pos wrap).symm
  · rw [if_neg wrap, stored]
    exact (if_neg wrap).symm

/-- What the cells show does not move the cursor. -/
theorem print_map (f : α → β) (blank : α) (l : Layout α) (c : U32) (a : α) :
    (l.print blank c a).map f = (l.map f).print (f blank) c (f a) := by
  unfold print
  split
  · exact nextRow_map f blank l
  · split
    · have spaced := place_map f blank blank l.left
      exact congrArg left spaced
    · split
      · rw [place_map, place_map, place_map, place_map]
      · exact place_map f blank a l

theorem printAll_map (f : α → β) (blank : α) (l : Layout α) (text : List (U32 × α)) :
    (l.printAll blank text).map f =
      (l.map f).printAll (f blank) (text.map fun c => (c.1, f c.2)) := by
  induction text generalizing l with
  | nil => rfl
  | cons c text ih =>
    change ((l.print blank c.1 c.2).printAll blank text).map f = _
    rw [ih, print_map]
    rfl

/-- A character that only takes its cell. -/
def Ordinary (c : U32) : Prop := ¬ (c = 0x0a ∨ c = 0x0d) ∧ c ≠ 0x08 ∧ c ≠ 0x09

instance (c : U32) : Decidable (Ordinary c) := inferInstanceAs (Decidable (_ ∧ _))

theorem print_ordinary {c : U32} (ordinary : Ordinary c) (blank : α) (l : Layout α) (a : α) :
    l.print blank c a = l.place blank a := by
  obtain ⟨line, back, tab⟩ := ordinary
  rw [print, if_neg line, if_neg back, if_neg tab]

/-- The entries from `start` on replaced. -/
def written (start : Nat) (as : List α) (cells : Nat → α) (p : Nat) : α :=
  if start ≤ p then as.getD (p - start) (cells p) else cells p

theorem written_nil (start : Nat) (cells : Nat → α) : written start [] cells = cells := by
  funext p
  unfold written
  split <;> rfl

theorem written_cons (start : Nat) (a : α) (as : List α) (cells : Nat → α) :
    written start (a :: as) cells = written (start + 1) as (Function.update cells start a) := by
  funext p
  unfold written
  rcases Nat.lt_trichotomy p start with below | rfl | above
  · rw [if_neg (by omega), if_neg (by omega), Function.update_of_ne (by omega)]
  · rw [if_pos (by omega), if_neg (by omega), Function.update_self, Nat.sub_self]
    rfl
  · rw [if_pos (by omega), if_pos (by omega), Function.update_of_ne (by omega)]
    have step : p - start = (p - (start + 1)) + 1 := by omega
    rw [step]
    rfl

theorem idx_eq {x y : Nat} (hx : x ≤ 80) (hy : y ≤ 24) (cells : Nat → α) :
    (⟨x, y, cells⟩ : Layout α).idx = 80 * y + x := by
  unfold idx
  dsimp only
  rw [BitVec.toNat_ofInt]
  omega

/-- Characters that fit in the row stand side by side, and the cursor stays in it. -/
theorem printAll_row {x y : Nat} (hy : y ≤ 24) (blank : α) (cells : Nat → α)
    {text : List (U32 × α)} (ordinary : ∀ c ∈ text, Ordinary c.1)
    (fits : x + text.length ≤ 80) :
    (⟨x, y, cells⟩ : Layout α).printAll blank text =
      ⟨(x + text.length : Nat), y, written (80 * y + x) (text.map Prod.snd) cells⟩ := by
  induction text generalizing x cells with
  | nil => rw [List.map_nil, written_nil]; rfl
  | cons c text ih =>
    have first := ordinary c List.mem_cons_self
    have rest : ∀ d ∈ text, Ordinary d.1 := fun d hd => ordinary d (List.mem_cons_of_mem c hd)
    rw [List.length_cons] at fits
    have inside : ¬ (x : Int) ≥ 80 := by omega
    have placed : (⟨x, y, cells⟩ : Layout α).print blank c.1 c.2 =
        ⟨(x + 1 : Nat), y, Function.update cells (80 * y + x) c.2⟩ := by
      rw [print_ordinary first, place, if_neg inside, idx_eq (by omega) hy]
      rfl
    change ((⟨x, y, cells⟩ : Layout α).print blank c.1 c.2).printAll blank text = _
    rw [placed, ih _ rest (by omega), List.map_cons, written_cons, List.length_cons]
    have next : x + 1 + text.length = x + (text.length + 1) := by omega
    rw [next, Nat.add_assoc]

end Layout

open Layout

def view (s : Screen) : Layout (BitVec 16) := ⟨s.curX, s.curY, s.videoMemory⟩

theorem view_iff {s : Screen} {x y : Int} {cells : Nat → BitVec 16} :
    view s = ⟨x, y, cells⟩ ↔ s.curX = x ∧ s.curY = y ∧ s.videoMemory = cells := by
  rw [view, Layout.mk.injEq]

theorem copyUp_all (n : Nat) (s : Screen) :
    view ((List.range n).foldl copyUp s) = ⟨s.curX, s.curY,
        fun p => if p < n then s.videoMemory (p + 80) else s.videoMemory p⟩ ∧
      ((List.range n).foldl copyUp s).colorAttrib = s.colorAttrib := by
  induction n with
  | zero => exact ⟨rfl, rfl⟩
  | succ n ih =>
    obtain ⟨shown, color⟩ := ih
    rw [List.range_succ, List.foldl_append, List.foldl_cons, List.foldl_nil]
    generalize (List.range n).foldl copyUp s = t at *
    obtain ⟨curX, curY, memory⟩ := view_iff.mp shown
    refine ⟨view_iff.mpr ⟨curX, curY, funext fun p => ?_⟩, color⟩
    change Function.update t.videoMemory n (t.videoMemory (n + 80)) p = _
    rw [memory]
    have ahead : ¬ n + 80 < n := by omega
    dsimp only
    rw [if_neg ahead]
    rcases Nat.lt_trichotomy p n with below | rfl | above
    · rw [Function.update_of_ne (by omega), if_pos below, if_pos (by omega)]
    · rw [Function.update_self, if_pos (by omega)]
    · rw [Function.update_of_ne (by omega), if_neg (by omega), if_neg (by omega)]

theorem blank_all (start n : Nat) (s : Screen) :
    view ((List.range' start n).foldl blank s) = ⟨s.curX, s.curY,
        fun p => if start ≤ p ∧ p < start + n then s.cell 0x20 else s.videoMemory p⟩ ∧
      ((List.range' start n).foldl blank s).colorAttrib = s.colorAttrib := by
  induction n generalizing start s with
  | zero =>
    refine ⟨view_iff.mpr ⟨rfl, rfl, funext fun p => ?_⟩, rfl⟩
    rw [if_neg (by omega)]
    rfl
  | succ n ih =>
    obtain ⟨shown, color⟩ := ih (start + 1) (s.blank start)
    obtain ⟨curX, curY, memory⟩ := view_iff.mp shown
    rw [List.range'_succ, List.foldl_cons]
    refine ⟨view_iff.mpr ⟨curX, curY, memory.trans (funext fun p => ?_)⟩, color⟩
    have same : (s.blank start).cell 0x20 = s.cell 0x20 := rfl
    have stored : (s.blank start).videoMemory p =
        Function.update s.videoMemory start (s.cell 0x20) p := rfl
    rw [same, stored]
    rcases Nat.lt_trichotomy p start with below | rfl | above
    · rw [if_neg (by omega), if_neg (by omega), Function.update_of_ne (by omega)]
    · rw [if_neg (by omega), if_pos (by omega), Function.update_self]
    · rw [Function.update_of_ne (by omega)]
      by_cases inside : p < start + (n + 1)
      · rw [if_pos (by omega), if_pos (by omega)]
      · rw [if_neg (by omega), if_neg (by omega)]

theorem terminalScroll_view (s : Screen) :
    view s.terminalScroll = ⟨s.curX, s.curY, scrolled (s.cell 0x20) s.videoMemory⟩ ∧
      s.terminalScroll.colorAttrib = s.colorAttrib := by
  unfold terminalScroll
  obtain ⟨copied, color⟩ := copyUp_all (vgaVideoColumns * (vgaVideoRows - 1)) s
  generalize (List.range (vgaVideoColumns * (vgaVideoRows - 1))).foldl copyUp s = t at *
  obtain ⟨curX, curY, memory⟩ := view_iff.mp copied
  obtain ⟨blanked, color'⟩ := blank_all (vgaVideoColumns * (vgaVideoRows - 1)) vgaVideoColumns t
  obtain ⟨curX', curY', memory'⟩ := view_iff.mp blanked
  refine ⟨view_iff.mpr ⟨curX'.trans curX, curY'.trans curY,
    memory'.trans (funext fun p => ?_)⟩, color'.trans color⟩
  have same : t.cell 0x20 = s.cell 0x20 := by
    unfold cell
    rw [color]
  have last : vgaVideoColumns * (vgaVideoRows - 1) = 1920 := rfl
  have columns : vgaVideoColumns = 80 := rfl
  rw [same, memory, last, columns]
  unfold scrolled
  dsimp only
  by_cases upper : p < 1920
  · rw [if_neg (by omega), if_pos upper, if_pos upper]
  · rw [if_neg upper, if_neg upper]
    by_cases lower : p < 2000
    · rw [if_pos (by omega), if_pos lower]
    · rw [if_neg (by omega), if_neg lower]

theorem terminalClrscr_view (s : Screen) :
    view s.terminalClrscr =
        ⟨0, 0, fun p => if p < 2000 then s.cell 0x20 else s.videoMemory p⟩ ∧
      s.terminalClrscr.colorAttrib = s.colorAttrib := by
  have size : vgaVideoRows * vgaVideoColumns = 2000 := rfl
  have all : s.blankAll = (List.range' 0 2000).foldl blank s := by
    unfold blankAll
    rw [size, List.range_eq_range']
  obtain ⟨blanked, color⟩ := blank_all 0 2000 s
  rw [← all] at blanked color
  unfold terminalClrscr
  generalize s.blankAll = t at *
  obtain ⟨_, _, memory⟩ := view_iff.mp blanked
  refine ⟨view_iff.mpr ⟨rfl, rfl, memory.trans (funext fun p => ?_)⟩, color⟩
  by_cases inside : p < 2000
  · rw [if_pos (by omega), if_pos inside]
  · rw [if_neg (by omega), if_neg inside]

theorem nextRow_view (s : Screen) :
    view s.nextRow = (view s).nextRow (s.cell 0x20) ∧ s.nextRow.colorAttrib = s.colorAttrib := by
  have rows : (vgaVideoRows : Int) - 1 = 24 := rfl
  obtain ⟨shown, color⟩ := terminalScroll_view { s with curX := 0, curY := s.curY + 1 }
  obtain ⟨curX, curY, memory⟩ := view_iff.mp shown
  unfold Screen.nextRow
  dsimp only
  rw [rows]
  by_cases last : s.curY + 1 > 24
  · have scrolls : (view s).nextRow (s.cell 0x20) =
        ⟨0, s.curY, scrolled (s.cell 0x20) s.videoMemory⟩ := if_pos last
    rw [if_pos last, scrolls]
    refine ⟨view_iff.mpr ⟨curX, ?_, memory⟩, color⟩
    change Screen.curY _ - 1 = s.curY
    rw [curY]
    exact Int.add_sub_cancel s.curY 1
  · rw [if_neg last]
    exact ⟨(if_neg last).symm, rfl⟩

theorem placeChar_view (s : Screen) (c : U32) :
    view (s.placeChar c) = (view s).place (s.cell 0x20) (s.cell c) ∧
      (s.placeChar c).colorAttrib = s.colorAttrib := by
  have columns : (vgaVideoColumns : Int) = 80 := rfl
  unfold placeChar place
  rw [columns]
  by_cases wrap : s.curX ≥ 80
  · have wraps : (view s).x ≥ 80 := wrap
    rw [if_pos wraps]
    have stored : (s.store (BitVec.ofInt 16 (s.curY * 80 + s.curX)).toNat (s.cell c)).curX ≥ 80 :=
      wrap
    rw [if_pos stored]
    exact nextRow_view _
  · have stays : ¬ (view s).x ≥ 80 := wrap
    rw [if_neg stays]
    have stored : ¬ (s.store (BitVec.ofInt 16 (s.curY * 80 + s.curX)).toNat
      (s.cell c)).curX ≥ 80 := wrap
    rw [if_neg stored]
    exact ⟨rfl, rfl⟩

theorem printSpace_view (s : Screen) :
    view s.printSpace = (view s).place (s.cell 0x20) (s.cell 0x20) ∧
      s.printSpace.colorAttrib = s.colorAttrib :=
  placeChar_view s 0x20

theorem cell_congr {s t : Screen} (color : t.colorAttrib = s.colorAttrib) (c : U32) :
    t.cell c = s.cell c := by
  unfold cell
  rw [color]

/-- The terminal shows what its layout shows. -/
theorem terminalPrintchar_view (s : Screen) (c : U32) :
    view (s.terminalPrintchar c) = (view s).print (s.cell 0x20) c (s.cell c) ∧
      (s.terminalPrintchar c).colorAttrib = s.colorAttrib := by
  unfold terminalPrintchar print
  by_cases line : c = 0x0a ∨ c = 0x0d
  · rw [if_pos line, if_pos line]
    exact nextRow_view s
  · rw [if_neg line, if_neg line]
    by_cases back : c = 0x08
    · rw [if_pos back, if_pos back]
      obtain ⟨shown, color⟩ := printSpace_view { s with curX := s.curX - 1 }
      exact ⟨congrArg left shown, color⟩
    · rw [if_neg back, if_neg back]
      by_cases tab : c = 0x09
      · rw [if_pos tab, if_pos tab]
        obtain ⟨shown1, color1⟩ := printSpace_view s
        obtain ⟨shown2, color2⟩ := printSpace_view s.printSpace
        obtain ⟨shown3, color3⟩ := printSpace_view s.printSpace.printSpace
        obtain ⟨shown4, color4⟩ := printSpace_view s.printSpace.printSpace.printSpace
        have color2 := color2.trans color1
        have color3 := color3.trans color2
        refine ⟨shown4.trans ?_, color4.trans color3⟩
        rw [shown3, shown2, shown1, cell_congr color1, cell_congr color2, cell_congr color3]
      · rw [if_neg tab, if_neg tab]
        exact placeChar_view s c

theorem printAll_view (s : Screen) (text : List U32) :
    view (s.printAll text) =
        (view s).printAll (s.cell 0x20) (text.map fun c => (c, s.cell c)) ∧
      (s.printAll text).colorAttrib = s.colorAttrib := by
  induction text generalizing s with
  | nil => exact ⟨rfl, rfl⟩
  | cons c text ih =>
    obtain ⟨first, color⟩ := terminalPrintchar_view s c
    obtain ⟨shown, color'⟩ := ih (s.terminalPrintchar c)
    refine ⟨shown.trans ?_, color'.trans color⟩
    rw [first, cell_congr color]
    simp only [cell_congr color, List.map_cons]
    rfl

/-- What a cell shows: what it held at the start, a blank, or a character printed since. -/
inductive Mark (α : Type u) where
  | old (p : Nat)
  | blank
  | char (a : α)

section Marks

variable {α : Type u}

def Mark.render (s : Screen) (code : α → U32) : Mark α → BitVec 16
  | .old p => s.videoMemory p
  | .blank => s.cell 0x20
  | .char a => s.cell (code a)

/-- Where the characters of a text stand that is printed on the screen. -/
def marks (s : Screen) (code : α → U32) (text : List α) : Layout (Mark α) :=
  (⟨s.curX, s.curY, .old⟩ : Layout (Mark α)).printAll .blank
    (text.map fun a => (code a, .char a))

theorem marks_render (s : Screen) (code : α → U32) (text : List α) :
    view (s.printAll (text.map code)) = (marks s code text).map (Mark.render s code) := by
  rw [(printAll_view s _).1, marks, printAll_map, List.map_map, List.map_map]
  rfl

theorem marks_memory (s : Screen) (code : α → U32) (text : List α) (p : Nat) :
    (s.printAll (text.map code)).videoMemory p =
      ((marks s code text).cells p).render s code :=
  congrFun (congrArg cells (marks_render s code text)) p

theorem marks_append (s : Screen) (code : α → U32) (text text' : List α) :
    marks s code (text ++ text') =
      (marks s code text).printAll .blank (text'.map fun a => (code a, .char a)) := by
  rw [marks, List.map_append, printAll_append, ← marks]

/-- Characters that fit in the row the cursor is in. -/
theorem marks_row {s : Screen} {x y : Nat} (curX : s.curX = x) (curY : s.curY = y) (hy : y ≤ 24)
    {code : α → U32} {text : List α} (ordinary : ∀ a ∈ text, Ordinary (code a))
    (fits : x + text.length ≤ 80) :
    marks s code text =
      ⟨(x + text.length : Nat), y, written (80 * y + x) (text.map .char) .old⟩ := by
  have plain : ∀ c ∈ text.map fun a => (code a, Mark.char a), Ordinary c.1 := by
    intro c hc
    obtain ⟨a, ha, rfl⟩ := List.mem_map.mp hc
    exact ordinary a ha
  have row := printAll_row hy Mark.blank Mark.old plain
    (by rw [List.length_map]; exact fits)
  rw [List.length_map, List.map_map] at row
  rw [marks, curX, curY]
  exact row

end Marks

end ScreenLayout
