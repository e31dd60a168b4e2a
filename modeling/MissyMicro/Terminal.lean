import MissyMicro.TransitionRuns
import MissyMicro.Words

/-!
# The text terminal

The screen has 25 rows of 80 cells. The wrap test looks at the column before it is
advanced, so a row takes 81 characters and the last one falls on the first cell of
the next row. In the last row there is no next row, and in column 0 a backspace has
nowhere to go.
-/

namespace Terminal

open TransitionRuns

def vgaVideoRows : Nat := 25
def vgaVideoColumns : Nat := 80
def vgaVideoDefcolor : BitVec 8 := 0x0f
def vgaTabsize : Nat := 4

/-- `cursorLoc` is what the display controller was told last. `stores` is a ghost record,
latest first, of the indices at which `video_memory` was written. -/
structure Screen where
  curX : Int
  curY : Int
  colorAttrib : BitVec 8
  videoMemory : Nat → BitVec 16
  cursorLoc : BitVec 16
  stores : List Nat

namespace Screen

def store (s : Screen) (i : Nat) (x : BitVec 16) : Screen :=
  { s with videoMemory := Function.update s.videoMemory i x, stores := i :: s.stores }

/-- The cell `(uint16_t) ((color_attrib << 8) | c)`. -/
def cell (s : Screen) (c : U32) : BitVec 16 := (s.colorAttrib.setWidth 16 <<< 8) ||| c.setWidth 16

def copyUp (s : Screen) (i : Nat) : Screen := s.store i (s.videoMemory (i + vgaVideoColumns))

def blank (s : Screen) (i : Nat) : Screen := s.store i (s.cell 0x20)

def terminalScroll (s : Screen) : Screen :=
  (List.range' (vgaVideoColumns * (vgaVideoRows - 1)) vgaVideoColumns).foldl blank
    ((List.range (vgaVideoColumns * (vgaVideoRows - 1))).foldl copyUp s)

def blankAll (s : Screen) : Screen :=
  (List.range (vgaVideoRows * vgaVideoColumns)).foldl blank s

def terminalClrscr (s : Screen) : Screen := { s.blankAll with curX := 0, curY := 0 }

/-- The part of `terminal_initialize` that concerns the screen. -/
def terminalInitialize (s : Screen) : Screen :=
  { s with curX := 0, curY := 0, colorAttrib := vgaVideoDefcolor }

def terminalUpdatecursor (s : Screen) : Screen :=
  { s with cursorLoc := BitVec.ofInt 16 (s.curY * 80) + BitVec.ofInt 16 s.curX }

/-- To the start of the next row; the screen scrolls when there is none. -/
def nextRow (s : Screen) : Screen :=
  let s := { s with curX := 0, curY := s.curY + 1 }
  if s.curY > (vgaVideoRows : Int) - 1 then
    let s := s.terminalScroll
    { s with curY := s.curY - 1 }
  else s

/-- The last branch of `terminal_printchar`, with the test on the column before the
increment. -/
def placeChar (s : Screen) (c : U32) : Screen :=
  let idx := (BitVec.ofInt 16 (s.curY * vgaVideoColumns + s.curX)).toNat
  let s := s.store idx (s.cell c)
  let column := s.curX
  let s := { s with curX := s.curX + 1 }
  if column ≥ vgaVideoColumns then s.nextRow else s

/-- The space that `terminal_printchar` prints by calling itself. -/
def printSpace (s : Screen) : Screen := (s.placeChar 0x20).terminalUpdatecursor

/-- The loop of a tab. -/
def printSpaces (s : Screen) : Nat → Screen
  | 0 => s
  | n + 1 => printSpaces s.printSpace n

/-- The returned value is `c`. -/
def terminalPrintchar (s : Screen) (c : U32) : Screen :=
  let s :=
    if c = 0x0a ∨ c = 0x0d then s.nextRow
    else if c = 0x08 then
      let s := { s with curX := s.curX - 1 }
      let s := s.printSpace
      { s with curX := s.curX - 1 }
    else if c = 0x09 then s.printSpaces vgaTabsize
    else s.placeChar c
  s.terminalUpdatecursor

def printAll (s : Screen) (text : List U32) : Screen := text.foldl terminalPrintchar s

/-- The characters of a string up to its NUL, as `terminal_puts` passes them on. -/
def charsOf (str : List (BitVec 8)) : List U32 :=
  (str.takeWhile (· ≠ 0)).map (·.setWidth 32)

/-- The returned value counts the characters and the line break. -/
def terminalPuts (s : Screen) (str : List (BitVec 8)) : Nat × Screen :=
  ((charsOf str).length + 1, (s.printAll (charsOf str)).terminalPrintchar 0x0d)

/-- The calls inside `terminal_printchar` are calls of itself. -/
theorem printSpace_eq (s : Screen) : s.printSpace = s.terminalPrintchar 0x20 := rfl

end Screen

/-- Where the cursor may stand: column 80 is behind the last cell of a row. -/
structure Cursor where
  x : Nat
  y : Nat
  x_le : x ≤ 80
  y_le : y ≤ 24

namespace Cursor

def newline (cur : Cursor) : Cursor :=
  ⟨0, min (cur.y + 1) 24, Nat.zero_le _, Nat.min_le_right _ _⟩

def put (cur : Cursor) : Cursor :=
  if h : cur.x < 80 then ⟨cur.x + 1, cur.y, h, cur.y_le⟩ else cur.newline

def back (cur : Cursor) : Cursor :=
  ⟨cur.x - 1, cur.y, Nat.le_trans (Nat.sub_le _ _) cur.x_le, cur.y_le⟩

/-- Where a printed character leaves the cursor. -/
def after (cur : Cursor) (c : U32) : Cursor :=
  if c = 0x0a ∨ c = 0x0d then cur.newline
  else if c = 0x08 then cur.back
  else if c = 0x09 then cur.put.put.put.put
  else cur.put

/-- In the last row `n` more characters have cells. -/
def Fits (cur : Cursor) (n : Nat) : Prop := cur.y = 24 → cur.x + n ≤ 80

/-- A character that stays on the screen: a backspace has a column to go back to, and in
the last row a character has a cell, as have the four spaces of a tab. -/
def Accepts (cur : Cursor) (c : U32) : Prop :=
  if c = 0x0a ∨ c = 0x0d then True
  else if c = 0x08 then 0 < cur.x
  else if c = 0x09 then cur.Fits 4
  else cur.Fits 1

instance (cur : Cursor) (n : Nat) : Decidable (cur.Fits n) :=
  inferInstanceAs (Decidable (_ → _))

instance (cur : Cursor) (c : U32) : Decidable (cur.Accepts c) :=
  inferInstanceAs (Decidable (if c = 0x0a ∨ c = 0x0d then True
    else if c = 0x08 then 0 < cur.x
    else if c = 0x09 then cur.Fits 4
    else cur.Fits 1))

def AcceptsAll (cur : Cursor) : List U32 → Prop
  | [] => True
  | c :: text => cur.Accepts c ∧ (cur.after c).AcceptsAll text

theorem put_inside {cur : Cursor} (h : cur.x < 80) :
    cur.put = ⟨cur.x + 1, cur.y, h, cur.y_le⟩ := dif_pos h

theorem put_wrap {cur : Cursor} (h : ¬ cur.x < 80) : cur.put = cur.newline := dif_neg h

theorem back_put {cur : Cursor} (h : 0 < cur.x) : cur.back.put = cur := by
  have hx := cur.x_le
  have hlt : cur.back.x < 80 := by
    change cur.x - 1 < 80
    omega
  have hsucc : cur.x - 1 + 1 = cur.x := by omega
  rw [put_inside hlt]
  cases cur
  simp only [back, mk.injEq, and_true]
  exact hsucc

theorem Fits.put {cur : Cursor} {n : Nat} (h : cur.Fits (n + 1)) (hn : n ≤ 80) :
    cur.put.Fits n := by
  intro hlast
  by_cases inside : cur.x < 80
  · rw [put_inside inside] at hlast ⊢
    have hfits := h hlast
    change cur.x + 1 + n ≤ 80
    omega
  · rw [put_wrap inside]
    change 0 + n ≤ 80
    omega

theorem accepts_line (cur : Cursor) : cur.Accepts 0x0d := by
  rw [Accepts, if_pos (Or.inr rfl)]
  trivial

theorem Fits.one {cur : Cursor} {n : Nat} (h : cur.Fits (n + 1)) : cur.Fits 1 :=
  fun hlast => Nat.le_trans (Nat.add_le_add_left (Nat.le_add_left 1 n) _) (h hlast)

end Cursor

open Screen

/-- The screen shows its cursor at `cur`, and every store so far hit a cell. -/
structure At (s : Screen) (cur : Cursor) : Prop where
  x : s.curX = cur.x
  y : s.curY = cur.y
  stores : ∀ i ∈ s.stores, i < 2000

theorem fold_stores {op : Screen → Nat → Screen} (blocks : List Nat)
    (one : ∀ s i, (op s i).curX = s.curX ∧ (op s i).curY = s.curY ∧
      (op s i).stores = i :: s.stores) (s : Screen) (inside : ∀ i ∈ blocks, i < 2000)
    (stores : ∀ i ∈ s.stores, i < 2000) :
    (blocks.foldl op s).curX = s.curX ∧ (blocks.foldl op s).curY = s.curY ∧
      ∀ i ∈ (blocks.foldl op s).stores, i < 2000 := by
  induction blocks generalizing s with
  | nil => exact ⟨rfl, rfl, stores⟩
  | cons i blocks ih =>
    obtain ⟨hx, hy, hstores⟩ := one s i
    have stores' : ∀ j ∈ (op s i).stores, j < 2000 := by
      intro j hj
      rw [hstores] at hj
      rcases List.mem_cons.mp hj with rfl | hj
      · exact inside j List.mem_cons_self
      · exact stores j hj
    obtain ⟨hx', hy', hrest⟩ := ih (op s i)
      (fun j hj => inside j (List.mem_cons_of_mem i hj)) stores'
    exact ⟨hx'.trans hx, hy'.trans hy, hrest⟩

theorem copyUp_one (s : Screen) (i : Nat) : (s.copyUp i).curX = s.curX ∧
    (s.copyUp i).curY = s.curY ∧ (s.copyUp i).stores = i :: s.stores :=
  ⟨rfl, rfl, rfl⟩

theorem blank_one (s : Screen) (i : Nat) : (s.blank i).curX = s.curX ∧
    (s.blank i).curY = s.curY ∧ (s.blank i).stores = i :: s.stores :=
  ⟨rfl, rfl, rfl⟩

/-- Scrolling rewrites the cells and leaves the cursor. -/
theorem scroll_stores {s : Screen} (stores : ∀ i ∈ s.stores, i < 2000) :
    s.terminalScroll.curX = s.curX ∧ s.terminalScroll.curY = s.curY ∧
      ∀ i ∈ s.terminalScroll.stores, i < 2000 := by
  have hupper : ∀ i ∈ List.range (vgaVideoColumns * (vgaVideoRows - 1)), i < 2000 := by
    intro i hi
    exact Nat.lt_trans (List.mem_range.mp hi) (by decide)
  have hlast : ∀ i ∈ List.range' (vgaVideoColumns * (vgaVideoRows - 1)) vgaVideoColumns,
      i < 2000 := by
    intro i hi
    exact Nat.lt_of_lt_of_le (List.mem_range'_1.mp hi).2 (by decide)
  obtain ⟨hx, hy, hstores⟩ := fold_stores _ copyUp_one s hupper stores
  obtain ⟨hx', hy', hstores'⟩ := fold_stores _ blank_one _ hlast hstores
  exact ⟨hx'.trans hx, hy'.trans hy, hstores'⟩

theorem blankAll_stores {s : Screen} (stores : ∀ i ∈ s.stores, i < 2000) :
    ∀ i ∈ s.blankAll.stores, i < 2000 := by
  have hall : ∀ i ∈ List.range (vgaVideoRows * vgaVideoColumns), i < 2000 := by
    intro i hi
    exact Nat.lt_of_lt_of_le (List.mem_range.mp hi) (by decide)
  exact (fold_stores _ blank_one s hall stores).2.2

attribute [irreducible] Screen.terminalScroll Screen.blankAll

theorem clrscr_at {s : Screen} (stores : ∀ i ∈ s.stores, i < 2000) :
    At s.terminalClrscr ⟨0, 0, Nat.zero_le _, Nat.zero_le _⟩ :=
  ⟨rfl, rfl, blankAll_stores stores⟩

theorem nextRow_at {s : Screen} {cur : Cursor} (y : s.curY = cur.y)
    (stores : ∀ i ∈ s.stores, i < 2000) : At s.nextRow cur.newline := by
  have hy := cur.y_le
  rw [nextRow]
  by_cases last : s.curY + 1 > (vgaVideoRows : Int) - 1
  · rw [if_pos last]
    obtain ⟨hx', hy', hstores⟩ := @scroll_stores { s with curX := 0, curY := s.curY + 1 } stores
    refine ⟨hx', ?_, hstores⟩
    have hrows : (vgaVideoRows : Int) = 25 := rfl
    have hnew : cur.newline.y = min (cur.y + 1) 24 := rfl
    change Screen.curY _ - 1 = _
    rw [hy', hnew]
    change s.curY + 1 - 1 = _
    omega
  · rw [if_neg last]
    refine ⟨rfl, ?_, stores⟩
    have hrows : (vgaVideoRows : Int) = 25 := rfl
    have hnew : cur.newline.y = min (cur.y + 1) 24 := rfl
    change s.curY + 1 = _
    rw [hnew]
    omega

theorem updatecursor_at {s : Screen} {cur : Cursor} (h : At s cur) :
    At s.terminalUpdatecursor cur :=
  ⟨h.x, h.y, h.stores⟩

/-- The index of the cell under the cursor does not overflow. -/
theorem idx_toNat {s : Screen} {cur : Cursor} (h : At s cur) :
    (BitVec.ofInt 16 (s.curY * vgaVideoColumns + s.curX)).toNat = cur.y * 80 + cur.x := by
  have hx := cur.x_le
  have hy := cur.y_le
  have hcolumns : (vgaVideoColumns : Int) = 80 := rfl
  rw [BitVec.toNat_ofInt, h.x, h.y, hcolumns]
  omega

theorem placeChar_at {s : Screen} {cur : Cursor} (h : At s cur) (fits : cur.Fits 1) (c : U32) :
    At (s.placeChar c) cur.put := by
  have hx := cur.x_le
  have hy := cur.y_le
  have hcolumns : (vgaVideoColumns : Int) = 80 := rfl
  have stores : ∀ i ∈ (cur.y * 80 + cur.x) :: s.stores, i < 2000 := by
    intro i hi
    rcases List.mem_cons.mp hi with rfl | hi
    · by_cases last : cur.y = 24
      · have hfits := fits last
        omega
      · omega
    · exact h.stores i hi
  rw [placeChar, idx_toNat h]
  have hsx : (s.store (cur.y * 80 + cur.x) (s.cell c)).curX = cur.x := h.x
  by_cases wrap : (s.store (cur.y * 80 + cur.x) (s.cell c)).curX ≥ (vgaVideoColumns : Int)
  · rw [if_pos wrap, Cursor.put_wrap (by omega)]
    exact nextRow_at h.y stores
  · rw [if_neg wrap, Cursor.put_inside (by omega)]
    refine ⟨?_, h.y, stores⟩
    change Screen.curX _ + 1 = _
    rw [hsx]
    rfl

theorem printSpace_at {s : Screen} {cur : Cursor} (h : At s cur) (fits : cur.Fits 1) :
    At s.printSpace cur.put :=
  updatecursor_at (placeChar_at h fits 0x20)

/-- An accepted character moves the cursor as the screen layout says. -/
theorem print_at {s : Screen} {cur : Cursor} (h : At s cur) {c : U32} (accepts : cur.Accepts c) :
    At (s.terminalPrintchar c) (cur.after c) := by
  rw [terminalPrintchar, Cursor.after]
  rw [Cursor.Accepts] at accepts
  apply updatecursor_at
  by_cases line : c = 0x0a ∨ c = 0x0d
  · rw [if_pos line, if_pos line]
    exact nextRow_at h.y h.stores
  · rw [if_neg line] at accepts
    rw [if_neg line, if_neg line]
    by_cases hback : c = 0x08
    · rw [if_pos hback] at accepts
      rw [if_pos hback, if_pos hback]
      have hx := h.x
      have stepped : At { s with curX := s.curX - 1 } cur.back := by
        refine ⟨?_, h.y, h.stores⟩
        change s.curX - 1 = ((cur.x - 1 : Nat) : Int)
        omega
      have hspace := printSpace_at stepped (fun _ => by
        have := cur.x_le
        change cur.x - 1 + 1 ≤ 80
        omega)
      rw [Cursor.back_put accepts] at hspace
      refine ⟨?_, hspace.y, hspace.stores⟩
      have hx' := hspace.x
      change Screen.curX _ - 1 = ((cur.x - 1 : Nat) : Int)
      omega
    · rw [if_neg hback] at accepts
      rw [if_neg hback, if_neg hback]
      by_cases htab : c = 0x09
      · rw [if_pos htab] at accepts
        rw [if_pos htab, if_pos htab]
        have fits1 := accepts.put (by omega)
        have fits2 := fits1.put (by omega)
        have fits3 := fits2.put (by omega)
        exact printSpace_at (printSpace_at (printSpace_at (printSpace_at h accepts.one)
          fits1.one) fits2.one) fits3.one
      · rw [if_neg htab] at accepts
        rw [if_neg htab, if_neg htab]
        exact placeChar_at h accepts c

theorem printAll_at {text : List U32} {s : Screen} {cur : Cursor} (h : At s cur)
    (accepts : cur.AcceptsAll text) : ∃ cur', At (s.printAll text) cur' := by
  induction text generalizing s cur with
  | nil => exact ⟨cur, h⟩
  | cons c text ih =>
    obtain ⟨first, rest⟩ := accepts
    exact ih (print_at h first) rest

/-- The claimed bounds: the cursor and every store so far. -/
structure Bounded (s : Screen) : Prop where
  x_lo : 0 ≤ s.curX
  x_hi : s.curX ≤ 80
  y_lo : 0 ≤ s.curY
  y_hi : s.curY ≤ 24
  stores : ∀ i ∈ s.stores, i < 2000

theorem At.bounded {s : Screen} {cur : Cursor} (h : At s cur) : Bounded s := by
  have hx := cur.x_le
  have hy := cur.y_le
  have hsx := h.x
  have hsy := h.y
  refine ⟨?_, ?_, ?_, ?_, h.stores⟩ <;> omega

theorem scroll_keeps {s : Screen} {i : Nat} (h : i ∈ s.stores) : i ∈ s.terminalScroll.stores := by
  have fold {op : Screen → Nat → Screen} (one : ∀ s j, (op s j).stores = j :: s.stores)
      (blocks : List Nat) {s : Screen} (h : i ∈ s.stores) : i ∈ (blocks.foldl op s).stores := by
    induction blocks generalizing s with
    | nil => exact h
    | cons j blocks ih =>
      apply ih
      rw [one]
      exact List.mem_cons_of_mem j h
  unfold terminalScroll
  exact fold (fun _ _ => rfl) _ (fold (fun _ _ => rfl) _ h)

theorem nextRow_keeps {s : Screen} {i : Nat} (h : i ∈ s.stores) : i ∈ s.nextRow.stores := by
  rw [nextRow]
  split
  · exact @scroll_keeps { s with curX := 0, curY := s.curY + 1 } i h
  · exact h

theorem placeChar_keeps {s : Screen} {c : U32} {i : Nat}
    (h : i = (BitVec.ofInt 16 (s.curY * vgaVideoColumns + s.curX)).toNat ∨ i ∈ s.stores) :
    i ∈ (s.placeChar c).stores := by
  have hstore : i ∈ (s.store (BitVec.ofInt 16 (s.curY * vgaVideoColumns + s.curX)).toNat
      (s.cell c)).stores := List.mem_cons.mpr h
  rw [placeChar]
  split
  · exact nextRow_keeps hstore
  · exact hstore

theorem printSpace_keeps {s : Screen} {i : Nat} (h : i ∈ s.stores) : i ∈ s.printSpace.stores :=
  placeChar_keeps (Or.inr h)

/-- At the end of the last row the next store is behind the last cell. -/
theorem placeChar_overruns {s : Screen} {cur : Cursor} (h : At s cur) (full : ¬ cur.Fits 1)
    (c : U32) : 2000 ∈ (s.placeChar c).stores := by
  obtain ⟨last, hx⟩ := Classical.not_imp.mp full
  have hle := cur.x_le
  apply placeChar_keeps
  left
  rw [idx_toNat h]
  omega

/-- Of `n` spaces too many, one is the first without a cell. -/
theorem spaces_overrun {n : Nat} {s : Screen} {cur : Cursor} (h : At s cur) (hn : n ≤ 80)
    (full : ¬ cur.Fits n) : 2000 ∈ (s.printSpaces n).stores := by
  have keeps : ∀ m (s : Screen), 2000 ∈ s.stores → 2000 ∈ (s.printSpaces m).stores := by
    intro m
    induction m with
    | zero => exact fun _ h => h
    | succ m ih => exact fun s h => ih _ (printSpace_keeps h)
  induction n generalizing s cur with
  | zero => exact absurd (fun _ => cur.x_le) full
  | succ n ih =>
    by_cases fits : cur.Fits 1
    · refine ih (printSpace_at h fits) (by omega) (fun rest => full fun last => ?_)
      have hx := fits last
      rw [Cursor.put_inside (by omega)] at rest
      have hrest := rest last
      change cur.x + 1 + n ≤ 80 at hrest
      omega
    · exact keeps n _ (placeChar_overruns h fits 0x20)

/-- A character keeps the bounds exactly when it stays on the screen. -/
theorem print_bounded_iff {s : Screen} {cur : Cursor} (h : At s cur) (c : U32) :
    Bounded (s.terminalPrintchar c) ↔ cur.Accepts c := by
  constructor
  · intro bounded
    rw [Cursor.Accepts]
    by_cases line : c = 0x0a ∨ c = 0x0d
    · rw [if_pos line]
      trivial
    · rw [if_neg line]
      by_cases hback : c = 0x08
      · rw [if_pos hback]
        by_contra hzero
        have hx := h.x
        have hx0 : s.curX = 0 := by omega
        have hleft := bounded.x_lo
        rw [terminalPrintchar, if_neg line, if_pos hback] at hleft
        have hcolumn : ({ s with curX := s.curX - 1 } : Screen).printSpace.curX = 0 := by
          have hnowrap : ¬ s.curX - 1 ≥ (vgaVideoColumns : Int) := by
            have hcolumns : (vgaVideoColumns : Int) = 80 := rfl
            omega
          change (if s.curX - 1 ≥ (vgaVideoColumns : Int) then _ else _ : Screen).curX = 0
          rw [if_neg hnowrap]
          change s.curX - 1 + 1 = 0
          omega
        change 0 ≤ ({ s with curX := s.curX - 1 } : Screen).printSpace.curX - 1 at hleft
        omega
      · rw [if_neg hback]
        by_cases htab : c = 0x09
        · rw [if_pos htab]
          by_contra full
          have hover := spaces_overrun h (by omega) full
          have hstores := bounded.stores
          rw [terminalPrintchar, if_neg line, if_neg hback, if_pos htab] at hstores
          exact absurd (hstores 2000 hover) (by omega)
        · rw [if_neg htab]
          by_contra full
          have hover := placeChar_overruns h full c
          have hstores := bounded.stores
          rw [terminalPrintchar, if_neg line, if_neg hback, if_neg htab] at hstores
          exact absurd (hstores 2000 hover) (by omega)
  · exact fun accepts => (print_at h accepts).bounded

inductive Call where
  | printchar (c : U32)
  | puts (str : List (BitVec 8))
  | clrscr

def perform (s : Screen) : Call → Screen
  | .printchar c => s.terminalPrintchar c
  | .puts str => (s.terminalPuts str).2
  | .clrscr => s.terminalClrscr

def Step (s : Screen) (call : Call) (t : Screen) : Prop := t = perform s call

/-- The position of a bounded cursor. -/
def cursorOf (s : Screen) : Cursor :=
  ⟨min s.curX.toNat 80, min s.curY.toNat 24, Nat.min_le_right _ _, Nat.min_le_right _ _⟩

/-- Every character a call prints stays on the screen. -/
def Fitting (s : Screen) : Call → Prop
  | .printchar c => (cursorOf s).Accepts c
  | .puts str => (cursorOf s).AcceptsAll (charsOf str)
  | .clrscr => True

theorem Bounded.onScreen {s : Screen} (h : Bounded s) : At s (cursorOf s) := by
  have hx := h.x_lo
  have hx' := h.x_hi
  have hy := h.y_lo
  have hy' := h.y_hi
  refine ⟨?_, ?_, h.stores⟩
  · change s.curX = ((min s.curX.toNat 80 : Nat) : Int)
    omega
  · change s.curY = ((min s.curY.toNat 24 : Nat) : Int)
    omega

theorem step_bounded {s t : Screen} {call : Call} (h : Bounded s)
    (step : Guarded Fitting Step s call t) : Bounded t := by
  obtain ⟨fitting, rfl⟩ := step
  cases call with
  | printchar c => exact (print_at h.onScreen fitting).bounded
  | puts str =>
    obtain ⟨cur, hcur⟩ := printAll_at h.onScreen fitting
    exact (print_at hcur cur.accepts_line).bounded
  | clrscr => exact (clrscr_at h.stores).bounded

/-- The screen after `terminal_initialize` and `terminal_clrscr`. -/
def cleared (memory : Nat → BitVec 16) : Screen :=
  (terminalInitialize ⟨0, 0, 0, memory, 0, []⟩).terminalClrscr

theorem cleared_at (memory : Nat → BitVec 16) :
    At (cleared memory) ⟨0, 0, Nat.zero_le _, Nat.zero_le _⟩ :=
  clrscr_at (s := terminalInitialize ⟨0, 0, 0, memory, 0, []⟩)
    fun _ h => absurd h List.not_mem_nil

/-- As long as every character printed stays on the screen, so do the cursor and the stores. -/
theorem cursor_bounded {memory : Nat → BitVec 16} {calls : List Call} {t : Screen}
    (run : Run (Guarded Fitting Step) (cleared memory) calls t) : Bounded t :=
  run.invariant (I := Bounded) (fun _ _ _ h step => step_bounded h step)
    (cleared_at memory).bounded

/-- A letter, a tab and a backspace. -/
theorem short_line_bounded : ∃ t, Run (Guarded Fitting Step) (cleared fun _ => 0)
    [.puts [0x41, 0x09, 0x08]] t ∧ Bounded t := by
  have fitting : Fitting (cleared fun _ => 0) (.puts [0x41, 0x09, 0x08]) := by
    have hcursor : cursorOf (cleared fun _ => 0) = ⟨0, 0, Nat.zero_le _, Nat.zero_le _⟩ := rfl
    rw [Fitting, hcursor]
    exact ⟨by decide, by decide, by decide, trivial⟩
  have run := @Run.cons _ _ (Guarded Fitting Step) _ _ _ _ _ ⟨fitting, rfl⟩ (.nil _)
  exact ⟨_, run, cursor_bounded run⟩

/-- The first character is a backspace. -/
theorem first_backspace_leaves : ¬ ∀ (memory : Nat → BitVec 16) (calls : List Call) (t : Screen),
    Run Step (cleared memory) calls t → Bounded t := by
  intro all
  have bounded := all (fun _ => 0) [.printchar 0x08] _ (.cons rfl (.nil _))
  exact absurd ((print_bounded_iff (cleared_at _) 0x08).mp bounded) (by decide)

end Terminal
