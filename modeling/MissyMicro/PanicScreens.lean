import MissyMicro.ExceptionReports
import MissyMicro.NumberConversion
import MissyMicro.ScreenLayout

/-!
# What a stopped machine shows

The report of an exception that stops the machine has fewer rows than the screen, and each of them
is short enough. So nothing of it scrolls away, nothing that was on the screen before is left, and
what was reported can be read off the cells.
-/

namespace PanicScreens

open AssemblyCode KernelWorld ExceptionReports Terminal ScreenLayout
open ScreenLayout.Layout (Ordinary)
open ServiceRoutines hiding code
open Printf (promoted numeral)
open PrintedText (code)

universe u

/-- Rows with a line break behind each. -/
inductive Lays : List U32 → List (List U32) → Prop
  | nil : Lays [] []
  | row {row text : List U32} {rows : List (List U32)} {c : U32} : (∀ c ∈ row, Ordinary c) →
      row.length ≤ 80 → c = 0x0a ∨ c = 0x0d → Lays text rows → Lays (row ++ c :: text) (row :: rows)

theorem Lays.append {text text' : List U32} {rows rows' : List (List U32)} (h : Lays text rows)
    (h' : Lays text' rows') : Lays (text ++ text') (rows ++ rows') := by
  induction h with
  | nil => exact h'
  | @row row text rows c ordinary short newline _ ih =>
    rw [List.append_assoc, List.cons_append, List.cons_append]
    exact .row ordinary short newline ih

section Cells

variable {α : Type u}

/-- The rows of a screen from row `y` on replaced, each as far as the new one reaches. -/
def stacked (y : Nat) (rows : List (List α)) (cells : Nat → α) (p : Nat) : α :=
  if y ≤ p / 80 then (rows.getD (p / 80 - y) []).getD (p % 80) (cells p) else cells p

theorem stacked_cons {y : Nat} {row : List α} (short : row.length ≤ 80) (rows : List (List α))
    (cells : Nat → α) : stacked y (row :: rows) cells =
      stacked (y + 1) rows (Layout.written (80 * y) row cells) := by
  funext p
  have split := Nat.div_add_mod p 80
  have column := Nat.mod_lt p (show 0 < 80 by decide)
  unfold stacked Layout.written
  rcases Nat.lt_trichotomy (p / 80) y with above | same | below
  · rw [if_neg (by omega), if_neg (by omega), if_neg (by omega)]
  · have place : p - 80 * y = p % 80 := by omega
    rw [if_pos (by omega), if_neg (by omega), if_pos (by omega), same, Nat.sub_self, place]
    rfl
  · have next : p / 80 - y = p / 80 - (y + 1) + 1 := by omega
    have behind : row.getD (p - 80 * y) (cells p) = cells p := by
      rw [List.getD_eq_getElem?_getD, List.getElem?_eq_none (by omega), Option.getD_none]
    rw [if_pos (by omega), if_pos (by omega), if_pos (by omega), next, behind]
    rfl

theorem printAll_lays {text : List U32} {rows : List (List U32)} (h : Lays text rows)
    (blank : α) (shown : U32 → α) {y : Nat} (room : y + rows.length ≤ 24) (cells : Nat → α) :
    (⟨0, y, cells⟩ : Layout α).printAll blank (text.map fun c => (c, shown c)) =
      ⟨0, (y + rows.length : Nat), stacked y (rows.map fun row => row.map shown) cells⟩ := by
  induction h generalizing y cells with
  | nil =>
    have same : stacked y [] cells = cells := by
      funext p
      unfold stacked
      split <;> rfl
    rw [List.map_nil, List.map_nil, same]
    rfl
  | @row row text rows c ordinary short newline _ ih =>
    rw [List.length_cons] at room
    have plain : ∀ d ∈ row.map fun c => (c, shown c), Ordinary d.1 := by
      intro d hd
      obtain ⟨c, hc, rfl⟩ := List.mem_map.mp hd
      exact ordinary c hc
    have width : 0 + (row.map fun c => (c, shown c)).length ≤ 80 := by
      rw [List.length_map]
      omega
    have first := Layout.printAll_row (show y ≤ 24 by omega) blank cells plain width
    have down (x : Nat) (cells : Nat → α) : (⟨x, y, cells⟩ : Layout α).print blank c (shown c) =
        ⟨0, (y + 1 : Nat), cells⟩ := by
      have inside : ¬ (y : Int) + 1 > 24 := by omega
      rw [Layout.print, if_pos newline, Layout.nextRow, if_neg inside]
      rfl
    rw [List.map_append, Layout.printAll_append, List.map_cons]
    change ((Layout.printAll blank ⟨(0 : Nat), y, cells⟩ _).print blank c (shown c)).printAll blank _
      = _
    rw [first, down, ih (by omega), List.map_map, List.map_cons, stacked_cons, List.length_cons]
    · have next : y + 1 + rows.length = y + (rows.length + 1) := by omega
      rw [next]
      rfl
    · rw [List.length_map]
      exact short

end Cells

/-- A cell in the colors of a panic. -/
def attributed (c : U32) : BitVec 16 := ((0x4f : BitVec 8).setWidth 16 <<< 8) ||| c.setWidth 16

/-- From the top the rows stand one below the other, and there is nothing else. -/
structure Shows (s : Screen) (rows : List (List U32)) : Prop where
  color : s.colorAttrib = 0x4f
  cursor : s.curX = 0 ∧ s.curY = rows.length
  cells : ∀ p < 2000, s.videoMemory p = attributed ((rows.getD (p / 80) []).getD (p % 80) 0x20)

theorem shows_of_lays {text : List U32} {rows : List (List U32)} (h : Lays text rows)
    (room : rows.length ≤ 24) (w : World) : Shows ((clear w).print text).screen rows := by
  obtain ⟨s, hs⟩ : ∃ s, s = (terminalSetcolor w.screen 0x4f).2.terminalClrscr := ⟨_, rfl⟩
  have screen : ((clear w).print text).screen = s.printAll text := by
    rw [hs]
    rfl
  obtain ⟨cleared, color⟩ := terminalClrscr_view (terminalSetcolor w.screen 0x4f).2
  rw [← hs] at cleared color
  have cell (c : U32) : s.cell c = attributed c := by
    rw [Screen.cell, color]
    rfl
  obtain ⟨printed, color'⟩ := printAll_view s text
  obtain ⟨cells, hcells⟩ : ∃ cells : Nat → BitVec 16, cells = fun p =>
    if p < 2000 then attributed 0x20 else w.screen.videoMemory p := ⟨_, rfl⟩
  have start : view s = ⟨0, (0 : Nat), cells⟩ := by
    rw [cleared, hcells]
    rfl
  have attributes : (fun c => (c, s.cell c)) = fun c => (c, attributed c) :=
    funext fun c => congrArg (Prod.mk c) (cell c)
  rw [start, cell, attributes, printAll_lays h _ _ (by omega), Nat.zero_add] at printed
  obtain ⟨curX, curY, memory⟩ := view_iff.mp printed
  rw [screen]
  refine ⟨color'.trans color, ⟨curX, curY⟩, fun p hp => ?_⟩
  have blank : cells p = attributed 0x20 := by
    rw [hcells]
    exact if_pos hp
  rw [memory, stacked, if_pos (Nat.zero_le _), Nat.sub_zero, blank]
  simp only [List.getD_eq_getElem?_getD, List.getElem?_map]
  cases rows[p / 80]? with
  | none => rfl
  | some row =>
    simp only [Option.map_some, Option.getD_some, List.getElem?_map]
    cases row[p % 80]? <;> rfl

def rowOf (t : Text) : List U32 := (bytes t).map code

def exceptionRow (n : U32) (text : List (BitVec 8)) : List U32 :=
  (ascii "[System Exception 0x" ++ (numeral 16 n.toNat ++ [0]) ++ ascii "]: " ++ text).map promoted

def hexRow (text : List (BitVec 8)) (n : U32) : List U32 :=
  (text ++ (numeral 16 n.toNat ++ [0])).map promoted

/-- The first text begins with a line break. -/
def stopRows : List (List U32) := [(rowOf .systemMustHalt1).drop 1, rowOf .systemMustHalt2]

def detailRows (ports : BitVec 16 → BitVec 8) (code cr2 : U32) : Handler → List (List U32)
  | .nmi => [rowOf (nmiText ports)]
  | .pagefault => hexRow (ascii "Fault Linear Address: 0x") cr2 ::
      hexRow (ascii "Fault in Page: 0x") (cr2 &&& 0xfffff000) :: (pageFaultTexts code).map rowOf
  | _ => []

variable (ld : Linked)

/-- The report of an exception that stops the machine, by rows. -/
def reportRows (words : U32 → U32) (ports : BitVec 16 → BitVec 8) (code cr2 : U32) :
    Handler → List (List U32)
  | .securityexception => (bytes .securityException).map promoted :: stopRows
  | .deviceerror =>
    exceptionRow (ld.symbol (.data (.exceptionNumber .deviceerror))) (bytes .deviceError) :: [] ::
      [] :: stopRows
  | h => exceptionRow (words (ld.symbol (.data (.exceptionNumber h)))) (bytes (exceptionText h)) ::
      [] :: detailRows ports code cr2 h ++ [] :: stopRows

/-- A character that takes its cell whether the sign of its byte is kept or not. -/
def Printable (c : BitVec 8) : Prop := Ordinary (promoted c) ∧ Ordinary (code c)

instance (c : BitVec 8) : Decidable (Printable c) := inferInstanceAs (Decidable (_ ∧ _))

theorem printable_of_le : ∀ {c : BitVec 8}, 0x20 ≤ c.toNat → Printable c := by
  decide +kernel

/-- No control characters, and no more characters than the width. -/
def fits (width : Nat) (text : List (BitVec 8)) : Bool :=
  text.all (fun c => decide (0x20 ≤ c.toNat)) && decide (text.length ≤ width)

theorem printable_of_fits {width : Nat} {text : List (BitVec 8)} (h : fits width text = true) :
    (∀ c ∈ text, Printable c) ∧ text.length ≤ width := by
  rw [fits, Bool.and_eq_true, List.all_eq_true, decide_eq_true_iff] at h
  exact ⟨fun c hc => printable_of_le (of_decide_eq_true (h.1 c hc)), h.2⟩

/-- The texts that are no rows of their own: there are line breaks in them. -/
def broken : List Text :=
  [.systemException, .systemMustHalt1, .gpfErrorCodeStr, .pageFaultAddr, .pageFaultPage]

/-- The texts and the parts of texts that stand in rows, evaluated once. -/
theorem rows_fit :
    (KernelImage.texts.all fun t => decide (t ∈ broken) || fits 80 (bytes t)) = true ∧
      (KernelImage.handlers.all fun h => !h.stops || fits 48 (bytes (exceptionText h))) = true ∧
      fits 20 (ascii "[System Exception 0x") = true ∧ fits 3 (ascii "]: ") = true ∧
      fits 71 (ascii "Fault Linear Address: 0x") = true ∧
      fits 71 (ascii "Fault in Page: 0x") = true ∧
      fits 80 ((bytes .systemMustHalt1).drop 1) = true ∧
      bytes .systemMustHalt1 = 0x0a :: (bytes .systemMustHalt1).drop 1 ∧
      (ascii "\n\n").map promoted = [0x0a, 0x0a] := by
  decide +kernel

theorem text_fits {t : Text} (row : t ∉ broken) :
    (∀ c ∈ bytes t, Printable c) ∧ (bytes t).length ≤ 80 := by
  have fit := List.all_eq_true.mp rows_fit.1 t (KernelImage.mem_texts t)
  rw [decide_eq_false row, Bool.false_or] at fit
  exact printable_of_fits fit

theorem exceptionText_fits {h : Handler} (stops : h.stops = true) :
    (∀ c ∈ bytes (exceptionText h), Printable c) ∧ (bytes (exceptionText h)).length ≤ 48 := by
  have fit := List.all_eq_true.mp rows_fit.2.1 h (KernelImage.mem_handlers h)
  rw [stops] at fit
  exact printable_of_fits fit

theorem numeral_printable (n : Nat) : ∀ c ∈ numeral 16 n ++ [0], Printable c := by
  have digits : ∀ d < 16, Printable (Printf.digitChar d) := by decide
  intro c hc
  rcases List.mem_append.mp hc with hc | hc
  · rw [NumberConversion.numeral_eq_map] at hc
    obtain ⟨d, hd, rfl⟩ := List.mem_map.mp hc
    exact digits d (Numerals.digitsOf_lt (by decide) n d hd)
  · obtain rfl := List.mem_singleton.mp hc
    decide

theorem numeral_short (n : U32) : (numeral 16 n.toNat ++ [0]).length ≤ 9 := by
  have digits : (numeral 16 n.toNat).length ≤ 8 :=
    Printf.numeral_length_le (by decide) (by decide) n.isLt
  rw [List.length_append]
  exact Nat.succ_le_succ digits

/-- Text, number and text in one row. -/
theorem row_of_parts {before behind : List (BitVec 8)} (n : U32)
    (printable : ∀ c ∈ before ++ behind, Printable c)
    (short : before.length + behind.length ≤ 71) :
    (∀ c ∈ (before ++ (numeral 16 n.toNat ++ [0]) ++ behind).map promoted, Ordinary c) ∧
      ((before ++ (numeral 16 n.toNat ++ [0]) ++ behind).map promoted).length ≤ 80 := by
  constructor
  · intro c hc
    obtain ⟨d, hd, rfl⟩ := List.mem_map.mp hc
    rcases List.mem_append.mp hd with hd | hd
    · rcases List.mem_append.mp hd with hd | hd
      · exact (printable d (List.mem_append_left _ hd)).1
      · exact (numeral_printable n.toNat d hd).1
    · exact (printable d (List.mem_append_right _ hd)).1
  · have number := numeral_short n
    rw [List.length_map, List.length_append, List.length_append]
    omega

theorem Lays.single {row : List U32} {c : U32} (ordinary : ∀ c ∈ row, Ordinary c)
    (short : row.length ≤ 80) (newline : c = 0x0a ∨ c = 0x0d) : Lays (row ++ [c]) [row] :=
  .row ordinary short newline .nil

theorem line_lays {t : Text} (row : t ∉ broken) : Lays (line t) [rowOf t] := by
  obtain ⟨printable, short⟩ := text_fits row
  have ordinary : ∀ c ∈ rowOf t, Ordinary c := by
    intro c hc
    obtain ⟨d, hd, rfl⟩ := List.mem_map.mp hc
    exact (printable d hd).2
  rw [line, List.map_append]
  have width : (rowOf t).length ≤ 80 := by
    rw [rowOf, List.length_map]
    exact short
  exact .single ordinary width (Or.inr rfl)

theorem lines_lays {ts : List Text} (rows : ∀ t ∈ ts, t ∉ broken) :
    Lays (ts.flatMap line) (ts.map rowOf) := by
  induction ts with
  | nil => exact .nil
  | cons t ts ih =>
    have first := line_lays (rows t List.mem_cons_self)
    exact first.append (ih fun t ht => rows t (List.mem_cons_of_mem _ ht))

theorem exception_lays (n : U32) {text : List (BitVec 8)}
    (fit : (∀ c ∈ text, Printable c) ∧ text.length ≤ 48) :
    Lays (exceptionLine n text) [exceptionRow n text, []] := by
  obtain ⟨_, _, front, colon, _, _, _, _, breaks⟩ := rows_fit
  have front := printable_of_fits front
  have colon := printable_of_fits colon
  have parts : ∀ c ∈ ascii "[System Exception 0x" ++ (ascii "]: " ++ text), Printable c := by
    intro c hc
    simp only [List.mem_append] at hc
    exact hc.elim (front.1 c) fun hc => hc.elim (colon.1 c) (fit.1 c)
  have width : (ascii "[System Exception 0x").length + (ascii "]: " ++ text).length ≤ 71 := by
    rw [List.length_append]
    omega
  obtain ⟨ordinary, short⟩ := row_of_parts n parts width
  rw [← List.append_assoc] at ordinary short
  rw [exceptionLine, List.map_append, breaks]
  exact .row ordinary short (Or.inl rfl) (.single (fun c hc => absurd hc List.not_mem_nil)
    (Nat.zero_le _) (Or.inl rfl))

theorem hex_lays (n : U32) {text : List (BitVec 8)} (h : fits 71 text = true) :
    Lays (hexLine text n) [hexRow text n] := by
  obtain ⟨printable, width⟩ := printable_of_fits h
  obtain ⟨ordinary, short⟩ := @row_of_parts text [] n
    (by rw [List.append_nil]; exact printable)
    (by rw [List.length_nil, Nat.add_zero]; exact width)
  rw [List.append_nil] at ordinary short
  rw [hexLine, List.map_append]
  exact .single ordinary short (Or.inl rfl)

/-- Behind the line break that the first text begins with. -/
theorem stop_lays : ∃ text, stopLines = 0x0a :: text ∧ Lays text stopRows := by
  obtain ⟨_, _, _, _, _, _, fit, first, _⟩ := rows_fit
  obtain ⟨printable, short⟩ := printable_of_fits fit
  have row : (rowOf .systemMustHalt1).drop 1 = ((bytes .systemMustHalt1).drop 1).map code :=
    List.map_drop.symm
  refine ⟨(rowOf .systemMustHalt1).drop 1 ++ [0x0d] ++ line .systemMustHalt2, ?_, ?_⟩
  · rw [stopLines, line, first, row]
    simp
    decide
  · refine (Lays.single (fun c hc => ?_) ?_ (Or.inr rfl)).append (line_lays (by decide))
    · rw [row] at hc
      obtain ⟨d, hd, rfl⟩ := List.mem_map.mp hc
      exact (printable d hd).2
    · rw [row, List.length_map]
      exact short

theorem stopLines_lays : Lays stopLines ([] :: stopRows) := by
  obtain ⟨text, split, lays⟩ := stop_lays
  rw [split]
  exact .row (fun c hc => absurd hc List.not_mem_nil) (Nat.zero_le _) (Or.inl rfl) lays

theorem pageFaultTexts_rows (code : U32) : ∀ t ∈ pageFaultTexts code, t ∉ broken := by
  have known (t : Text) (ht : t ∈ pageFaultTexts code) : t ∈ [Text.pageNotPresentError,
      .pageProtectionError, .pageFaultOnRead, .pageFaultOnWrite, .pageFaultInKernelMode,
      .pageFaultInUserMode, .pageFaultOnReserved, .pageFaultInstruction] := by
    unfold pageFaultTexts at ht
    grind
  intro t ht
  exact (show ∀ t ∈ _, t ∉ broken by decide) t (known t ht)

theorem pageFault_lays (ports : BitVec 16 → BitVec 8) (code cr2 : U32) :
    Lays (pageFaultLines code cr2) (detailRows ports code cr2 .pagefault) := by
  have linear := hex_lays cr2 rows_fit.2.2.2.2.1
  have page := hex_lays (cr2 &&& 0xfffff000) rows_fit.2.2.2.2.2.1
  exact (linear.append page).append (lines_lays (pageFaultTexts_rows code))

/-- Everything that is printed when an exception stops the machine. -/
def report (words : U32 → U32) (ports : BitVec 16 → BitVec 8) (code cr2 : U32) (h : Handler) :
    List U32 :=
  header ld words h ++ details ports code cr2 h ++ stopLines

variable {ld} in
theorem report_lays {words : U32 → U32} {ports : BitVec 16 → BitVec 8} {code cr2 : U32}
    {h : Handler} (stops : h.stops = true) :
    Lays (report ld words ports code cr2 h) (reportRows ld words ports code cr2 h) := by
  have lays (n : U32) {text : List U32} {rows : List (List U32)} (details : Lays text rows) :
      Lays (exceptionLine n (bytes (exceptionText h)) ++ text ++ stopLines)
        (exceptionRow n (bytes (exceptionText h)) :: [] :: rows ++ [] :: stopRows) :=
    ((exception_lays n (exceptionText_fits stops)).append details).append stopLines_lays
  cases h with
  | nmi =>
    have cause : nmiText ports ∉ broken := by
      unfold nmiText
      split
      · split <;> decide
      · decide
    exact lays _ (line_lays cause)
  | pagefault => exact lays _ (pageFault_lays ports code cr2)
  | securityexception =>
    obtain ⟨text, split, stop⟩ := stop_lays
    have fit := @text_fits .securityException (by decide)
    have ordinary : ∀ c ∈ (bytes .securityException).map promoted, Ordinary c := by
      intro c hc
      obtain ⟨d, hd, rfl⟩ := List.mem_map.mp hc
      exact (fit.1 d hd).1
    have width : ((bytes .securityException).map promoted).length ≤ 80 := by
      rw [List.length_map]
      exact fit.2
    rw [report, split]
    exact (List.append_nil _).symm ▸ .row ordinary width (Or.inl rfl) stop
  | overflow => exact lays _ .nil
  | badopcode => exact lays _ .nil
  | deviceerror => exact lays _ .nil
  | doublefault => exact lays _ .nil
  | invalidtss => exact lays _ .nil
  | segnotpresent => exact lays _ .nil
  | stacksegfault => exact lays _ .nil
  | machinecheck => exact lays _ .nil
  | simdexception => exact lays _ .nil
  | _ => cases stops

theorem reportRows_length (words : U32 → U32) (ports : BitVec 16 → BitVec 8) (code cr2 : U32)
    (h : Handler) : (reportRows ld words ports code cr2 h).length ≤ 24 := by
  have texts : (pageFaultTexts code).length ≤ 5 := by
    rw [pageFaultTexts, List.length_cons, List.length_cons, List.length_cons, List.length_append]
    split <;> split <;> simp
  cases h <;> simp [reportRows, detailRows, stopRows]
  omega

theorem shows_of_panics {h : Handler} (stops : h.stops = true) {ctx : Context} {s : State World}
    (panics : Panics ld ctx s h) : ∃ t, handle (kernel ld) h ctx s = .halted t ∧
      t.interrupts = false ∧
      Shows t.world.screen (reportRows ld s.world.words s.world.ports ctx.code (s.cr 2) h) := by
  obtain ⟨t, halted, off, world⟩ := panics
  refine ⟨t, halted, off, ?_⟩
  rw [world]
  exact shows_of_lays (report_lays stops) (reportRows_length ld _ _ _ _ _) _

/-- Whatever was on the screen, and wherever the cursor was. -/
theorem panic_screen {h : Handler} (stops : h.stops = true) (ctx : Context) (s : State World) :
    ∃ t, handle (kernel ld) h ctx s = .halted t ∧ t.interrupts = false ∧
      Shows t.world.screen (reportRows ld s.world.words s.world.ports ctx.code (s.cr 2) h) :=
  shows_of_panics ld stops (panics_of_stops ld ctx s stops)

/-- A kernel with nothing on its stack. -/
def running : State World := ⟨fun _ => 0, false, true, fun _ => 0, 0, [], KernelImage.idle⟩

def startOfKernel : Context := ⟨fun _ => 0, 0x100000, 0x08, 0x202, 0, []⟩

theorem double_fault_screen : Handler.doublefault.stops = true ∧
    ∃ t, handle (kernel KernelImage.image) .doublefault startOfKernel running = .halted t ∧
      t.interrupts = false ∧ Shows t.world.screen (reportRows KernelImage.image (fun _ => 0)
        (fun _ => 0) 0 0 .doublefault) :=
  ⟨rfl, panic_screen KernelImage.image rfl startOfKernel running⟩

end PanicScreens
