import MissyMicro.PanicScreens

/-!
# What a page fault leaves to be read

The report of a page fault is all that is left of it once the machine is stopped. Its screen shows
the faulting address and the five bits of the error code, and nothing else of the machine but the
number in the first line: two of these screens look the same when these agree, and only then.
-/

namespace PanicDiagnosis

open AssemblyCode KernelWorld ExceptionReports PanicScreens Terminal
open ServiceRoutines hiding code
open Printf (promoted numeral)
open PrintedText (code)

universe u

section Rows

variable {α : Type u} {blank mark : α}

/-- What stands in front of the first mark. -/
theorem before_mark {a a' b b' : List α} (unmarked : mark ∉ a) (unmarked' : mark ∉ a') {width : Nat}
    (short : a.length < width) (short' : a'.length < width)
    (same : ∀ x < width, (a ++ mark :: b).getD x blank = (a' ++ mark :: b').getD x blank) :
    a = a' := by
  induction a generalizing a' width with
  | nil =>
    cases a' with
    | nil => rfl
    | cons c a' =>
      have first : mark = c := same 0 (by omega)
      exact absurd (first ▸ List.mem_cons_self) unmarked'
  | cons c a ih =>
    cases a' with
    | nil =>
      have first : c = mark := same 0 (by omega)
      exact absurd (first ▸ List.mem_cons_self) unmarked
    | cons c' a' =>
      have first : c = c' := same 0 (by omega)
      rw [List.length_cons] at short short'
      rw [first, ih (fun h => unmarked (List.mem_cons_of_mem c h))
        (fun h => unmarked' (List.mem_cons_of_mem c' h)) (Nat.lt_sub_of_add_lt short)
        (Nat.lt_sub_of_add_lt short') fun x hx => same (x + 1) (by omega)]

end Rows

/-- Two screens of rows look the same. -/
def Agree (rows rows' : List (List (BitVec 8))) : Prop :=
  ∀ y < 25, ∀ x < 80, (rows.getD y []).getD x 0x20 = (rows'.getD y []).getD x 0x20

theorem digits_of_numeral (n : Nat) :
    (numeral 16 n).map (fun c => Printf.lettermap.idxOf c) = Numerals.digitsOf 16 n := by
  have letters : ∀ d < 16, Printf.lettermap.idxOf (Printf.digitChar d) = d := by decide
  rw [NumberConversion.numeral_eq_map, List.map_map]
  refine (List.map_congr_left fun d hd => ?_).trans (List.map_id _)
  exact letters d (Numerals.digitsOf_lt (by decide) n d hd)

theorem numeral_injective {n n' : Nat} (same : numeral 16 n = numeral 16 n') : n = n' := by
  have digits := congrArg (List.map fun c => Printf.lettermap.idxOf c) same
  rw [digits_of_numeral, digits_of_numeral] at digits
  have value := congrArg (Numerals.value 16) digits
  rw [Numerals.value_digitsOf, Numerals.value_digitsOf] at value
  exact value

theorem unmarked_of_fits {width : Nat} {text : List (BitVec 8)} (h : fits width text = true) :
    0 ∉ text ∧ text.length ≤ width := by
  rw [fits, Bool.and_eq_true, List.all_eq_true, decide_eq_true_iff] at h
  exact ⟨fun marked => absurd (h.1 0 marked) (by decide), h.2⟩

/-- The NUL behind a number ends it. -/
theorem number_of_agree {before behind behind' : List (BitVec 8)} {n n' : U32}
    (unmarked : 0 ∉ before) (short : before.length < 72)
    (same : ∀ x < 80, (before ++ (numeral 16 n.toNat ++ [0]) ++ behind).getD x 0x20 =
      (before ++ (numeral 16 n'.toNat ++ [0]) ++ behind').getD x 0x20) : n = n' := by
  have plain (n : U32) : 0 ∉ before ++ numeral 16 n.toNat := by
    intro marked
    rcases List.mem_append.mp marked with marked | marked
    · exact unmarked marked
    · exact Printf.numeral_ne_zero (by decide) (by decide) n.toNat 0 marked rfl
  have width (n : U32) : (before ++ numeral 16 n.toNat).length < 80 := by
    have digits := numeral_short n
    rw [List.length_append, List.length_singleton] at digits
    rw [List.length_append]
    omega
  have shape (n : U32) (behind : List (BitVec 8)) :
      before ++ (numeral 16 n.toNat ++ [0]) ++ behind =
        (before ++ numeral 16 n.toNat) ++ 0 :: behind := by
    simp
  have numerals := before_mark (plain n) (plain n') (width n) (width n') fun x hx => by
    rw [← shape n behind, ← shape n' behind']
    exact same x hx
  exact BitVec.eq_of_toNat_eq (numeral_injective (List.append_cancel_left numerals))

def causes : List Text :=
  [.pageNotPresentError, .pageProtectionError, .pageFaultOnRead, .pageFaultOnWrite,
    .pageFaultInKernelMode, .pageFaultInUserMode, .pageFaultOnReserved, .pageFaultInstruction]

/-- Two columns tell the causes apart, and from a blank row. -/
def marks (row : List (BitVec 8)) : BitVec 8 × BitVec 8 := (row.getD 27 0x20, row.getD 40 0x20)

theorem marks_causes : causes.map (fun t => marks (bytes t)) =
    [(0x70, 0x73), (0x6e, 0x20), (0x6e, 0x72), (0x6e, 0x77),
      (0x6b, 0x20), (0x75, 0x20), (0x74, 0x69), (0x69, 0x65)] := by
  decide +kernel

theorem pageFaultTexts_causes (code : U32) : ∀ t ∈ pageFaultTexts code, t ∈ causes := by
  intro t ht
  unfold pageFaultTexts at ht
  simp only [causes]
  grind

theorem marks_of_agree {row row' : List (BitVec 8)}
    (same : ∀ x < 80, row.getD x 0x20 = row'.getD x 0x20) : marks row = marks row' := by
  rw [marks, marks, same 27 (by decide), same 40 (by decide)]

theorem cause_of_agree {t t' : Text} (known : t ∈ causes) (known' : t' ∈ causes)
    (same : ∀ x < 80, (bytes t).getD x 0x20 = (bytes t').getD x 0x20) : t = t' := by
  have apart : (causes.map fun t => marks (bytes t)).Nodup := by
    rw [marks_causes]
    decide
  exact List.inj_on_of_nodup_map apart known known' (marks_of_agree same)

theorem cause_not_blank {t : Text} (known : t ∈ causes)
    (same : ∀ x < 80, (bytes t).getD x 0x20 = ([] : List (BitVec 8)).getD x 0x20) : False := by
  have marked : marks (bytes t) ∈ causes.map fun t => marks (bytes t) :=
    List.mem_map_of_mem known
  rw [marks_causes, marks_of_agree same] at marked
  exact absurd marked (by decide)

theorem texts_of_agree {ts ts' : List Text} (known : ∀ t ∈ ts, t ∈ causes)
    (known' : ∀ t ∈ ts', t ∈ causes) {rest rest' : List (List (BitVec 8))} {height : Nat}
    (short : ts.length < height) (short' : ts'.length < height)
    (same : ∀ y < height, ∀ x < 80, ((ts.map bytes ++ [] :: rest).getD y []).getD x 0x20 =
      ((ts'.map bytes ++ [] :: rest').getD y []).getD x 0x20) : ts = ts' := by
  induction ts generalizing ts' height with
  | nil =>
    cases ts' with
    | nil => rfl
    | cons t' ts' =>
      have first := same 0 (by omega)
      exact (cause_not_blank (known' t' List.mem_cons_self) fun x hx => (first x hx).symm).elim
  | cons t ts ih =>
    cases ts' with
    | nil => exact (cause_not_blank (known t List.mem_cons_self) (same 0 (by omega))).elim
    | cons t' ts' =>
      have first := cause_of_agree (known t List.mem_cons_self) (known' t' List.mem_cons_self)
        (same 0 (by omega))
      rw [List.length_cons] at short short'
      rw [first, ih (fun t h => known t (List.mem_cons_of_mem _ h))
        (fun t h => known' t (List.mem_cons_of_mem _ h)) (Nat.lt_sub_of_add_lt short)
        (Nat.lt_sub_of_add_lt short') fun y hy => same (y + 1) (by omega)]

theorem and_pageFault (code : U32) : pageFaultTexts (code &&& 0x1f) = pageFaultTexts code := by
  have bit (k : U32) (low : 0x1f &&& k = k) : code &&& 0x1f &&& k = code &&& k := by
    rw [BitVec.and_assoc, low]
  rw [pageFaultTexts, bit _ (by decide), bit _ (by decide), bit _ (by decide), bit _ (by decide),
    bit _ (by decide)]
  rfl

theorem mem_pageFaultTexts (code : U32) :
    (.pageNotPresentError ∈ pageFaultTexts code ↔ code &&& 0x01 = 0) ∧
      (.pageFaultOnRead ∈ pageFaultTexts code ↔ code &&& 0x02 = 0) ∧
      (.pageFaultInKernelMode ∈ pageFaultTexts code ↔ code &&& 0x04 = 0) ∧
      (.pageFaultOnReserved ∉ pageFaultTexts code ↔ code &&& 0x08 = 0) ∧
      (.pageFaultInstruction ∉ pageFaultTexts code ↔ code &&& 0x10 = 0) := by
  unfold pageFaultTexts
  grind

theorem and_twoPow_eq_zero (code : U32) {i : Nat} (hi : i < 32) :
    code &&& BitVec.twoPow 32 i = 0 ↔ code.getLsbD i = false := by
  have power : BitVec.twoPow 32 i ≠ 0 := by
    intro zero
    have value := congrArg BitVec.toNat zero
    rw [BitVec.toNat_twoPow_of_lt hi] at value
    exact absurd value (Nat.two_pow_pos i).ne'
  rw [BitVec.and_twoPow]
  cases code.getLsbD i with
  | false => simp
  | true => simpa using power

theorem pageFaultTexts_eq_iff {code code' : U32} :
    pageFaultTexts code = pageFaultTexts code' ↔ code &&& 0x1f = code' &&& 0x1f := by
  constructor
  · intro same
    obtain ⟨bit0, bit1, bit2, bit3, bit4⟩ := mem_pageFaultTexts code
    obtain ⟨bit0', bit1', bit2', bit3', bit4'⟩ := mem_pageFaultTexts code'
    rw [same] at bit0 bit1 bit2 bit3 bit4
    have agree {i : Nat} (hi : i < 32) (zero : code &&& BitVec.twoPow 32 i = 0 ↔
        code' &&& BitVec.twoPow 32 i = 0) : code.getLsbD i = code'.getLsbD i := by
      rw [and_twoPow_eq_zero code hi, and_twoPow_eq_zero code' hi] at zero
      exact Bool.eq_iff_iff.mpr (by simpa using not_congr zero)
    have bits : ∀ i < 5, code.getLsbD i = code'.getLsbD i := by
      intro i hi
      interval_cases i
      · exact agree (by decide) (bit0.symm.trans bit0')
      · exact agree (by decide) (bit1.symm.trans bit1')
      · exact agree (by decide) (bit2.symm.trans bit2')
      · exact agree (by decide) (bit3.symm.trans bit3')
      · exact agree (by decide) (bit4.symm.trans bit4')
    have mask : ∀ i < 32, ¬ i < 5 → (0x1f : U32).getLsbD i = false := by decide
    apply BitVec.eq_of_getLsbD_eq
    intro i hi
    rw [BitVec.getLsbD_and, BitVec.getLsbD_and]
    by_cases low : i < 5
    · rw [bits i low]
    · rw [mask i hi low, Bool.and_false, Bool.and_false]
  · intro same
    rw [← and_pageFault code, same, and_pageFault]

/-- The report of a page fault, by rows, in bytes. -/
def faultRows (n code cr2 : U32) : List (List (BitVec 8)) :=
  (ascii "[System Exception 0x" ++ (numeral 16 n.toNat ++ [0]) ++
    (ascii "]: " ++ bytes .pageFault)) :: [] ::
    (ascii "Fault Linear Address: 0x" ++ (numeral 16 cr2.toNat ++ [0]) ++ []) ::
    (ascii "Fault in Page: 0x" ++ (numeral 16 (cr2 &&& 0xfffff000).toNat ++ [0]) ++ []) ::
    ((pageFaultTexts code).map bytes ++ [] ::
      [(bytes .systemMustHalt1).drop 1, bytes .systemMustHalt2])

theorem faultRows_agree {n n' code code' cr2 cr2' : U32} :
    Agree (faultRows n code cr2) (faultRows n' code' cr2') ↔
      n = n' ∧ cr2 = cr2' ∧ code &&& 0x1f = code' &&& 0x1f := by
  constructor
  · intro same
    have short (code : U32) : (pageFaultTexts code).length < 21 := by
      rw [pageFaultTexts, List.length_cons, List.length_cons, List.length_cons,
        List.length_append]
      split <;> split <;> simp
    have front := unmarked_of_fits rows_fit.2.2.1
    have linear := unmarked_of_fits rows_fit.2.2.2.2.1
    refine ⟨?_, ?_, ?_⟩
    · exact number_of_agree front.1 (by omega) (same 0 (by decide))
    · exact number_of_agree linear.1 (by omega) (same 2 (by decide))
    · have texts := texts_of_agree (pageFaultTexts_causes code) (pageFaultTexts_causes code')
        (short code) (short code') fun y hy => same (y + 4) (by omega)
      exact pageFaultTexts_eq_iff.mp texts
  · rintro ⟨rfl, rfl, bits⟩
    have texts := pageFaultTexts_eq_iff.mpr bits
    unfold Agree faultRows
    rw [texts]
    exact fun y hy x hx => rfl

theorem promoted_bytes (text : List (BitVec 8)) :
    (text.map promoted).map (fun c => c.setWidth 8) = text := by
  have low (c : BitVec 8) : (promoted c).setWidth 8 = c := by
    apply BitVec.eq_of_getLsbD_eq
    intro i hi
    have wide : i < 32 := Nat.lt_trans hi (by decide)
    rw [promoted, BitVec.getLsbD_setWidth, BitVec.getLsbD_signExtend, if_pos hi,
      decide_eq_true hi, decide_eq_true wide, Bool.true_and, Bool.true_and]
  rw [List.map_map]
  exact (List.map_congr_left fun c _ => low c).trans (List.map_id _)

theorem code_bytes (text : List (BitVec 8)) :
    (text.map code).map (fun c => c.setWidth 8) = text := by
  have low (c : BitVec 8) : (code c).setWidth 8 = c := by
    simp [code]
  rw [List.map_map]
  exact (List.map_congr_left fun c _ => low c).trans (List.map_id _)

variable (ld : Linked)

theorem reportRows_pagefault (words : U32 → U32) (ports : BitVec 16 → BitVec 8) (code cr2 : U32) :
    reportRows ld words ports code cr2 .pagefault =
      exceptionRow (words (ld.symbol (.data (.exceptionNumber .pagefault)))) (bytes .pageFault) ::
        [] :: hexRow (ascii "Fault Linear Address: 0x") cr2 ::
        hexRow (ascii "Fault in Page: 0x") (cr2 &&& 0xfffff000) ::
        ((pageFaultTexts code).map rowOf ++ [] :: stopRows) := rfl

theorem reportRows_bytes (words : U32 → U32) (ports : BitVec 16 → BitVec 8) (code cr2 : U32) :
    (reportRows ld words ports code cr2 .pagefault).map (List.map fun c => c.setWidth 8) =
      faultRows (words (ld.symbol (.data (.exceptionNumber .pagefault)))) code cr2 := by
  have texts (ts : List Text) :
      (ts.map rowOf).map (List.map fun c => c.setWidth 8) = ts.map bytes := by
    rw [List.map_map]
    exact List.map_congr_left fun t _ => code_bytes (bytes t)
  have first (n : U32) (text : List (BitVec 8)) :
      (exceptionRow n text).map (fun c => c.setWidth 8) =
        ascii "[System Exception 0x" ++ (numeral 16 n.toNat ++ [0]) ++ (ascii "]: " ++ text) := by
    rw [exceptionRow, promoted_bytes, List.append_assoc _ (ascii "]: ")]
  have hex (text : List (BitVec 8)) (n : U32) :
      (hexRow text n).map (fun c => c.setWidth 8) = text ++ (numeral 16 n.toNat ++ [0]) ++ [] := by
    rw [hexRow, promoted_bytes, List.append_nil]
  have stop : stopRows.map (List.map fun c => c.setWidth 8) =
      [(bytes .systemMustHalt1).drop 1, bytes .systemMustHalt2] := by
    rw [stopRows, List.map_cons, List.map_singleton, List.map_drop, rowOf, rowOf, code_bytes,
      code_bytes]
  rw [reportRows_pagefault]
  simp only [List.map_append, List.map_cons, first, hex, texts, stop, List.map_nil]
  rfl

theorem attributed_inj {c c' : U32} (same : attributed c = attributed c') :
    c.setWidth 8 = c'.setWidth 8 := by
  have low (c : U32) : (attributed c).setWidth 8 = c.setWidth 8 := by
    unfold attributed
    simp
  rw [← low c, same, low]

theorem agree_of_cells {s s' : Screen} {rows rows' : List (List U32)} (shows : Shows s rows)
    (shows' : Shows s' rows') (same : ∀ p < 2000, s.videoMemory p = s'.videoMemory p) :
    Agree (rows.map (List.map fun c => c.setWidth 8))
      (rows'.map (List.map fun c => c.setWidth 8)) := by
  intro y hy x hx
  have low (rows : List (List U32)) :
      ((rows.map (List.map fun c => c.setWidth 8)).getD y []).getD x (0x20 : BitVec 8) =
        ((rows.getD y []).getD x 0x20).setWidth 8 := by
    simp only [List.getD_eq_getElem?_getD, List.getElem?_map]
    cases rows[y]? with
    | none => rfl
    | some row =>
      simp only [Option.map_some, Option.getD_some, List.getElem?_map]
      cases row[x]? <;> rfl
  have row : (80 * y + x) / 80 = y := by omega
  have column : (80 * y + x) % 80 = x := by omega
  have cell := same (80 * y + x) (by omega)
  rw [shows.cells _ (by omega), shows'.cells _ (by omega), row, column] at cell
  rw [low, low]
  exact attributed_inj cell

/-- Two page faults, from any two states. -/
theorem page_fault_screens_agree (ctx ctx' : Context) (s s' : State World) :
    ∃ t t', handle (kernel ld) .pagefault ctx s = .halted t ∧
      handle (kernel ld) .pagefault ctx' s' = .halted t' ∧
      ((∀ p < 2000, t.world.screen.videoMemory p = t'.world.screen.videoMemory p) ↔
        s.world.words (ld.symbol (.data (.exceptionNumber .pagefault))) =
            s'.world.words (ld.symbol (.data (.exceptionNumber .pagefault))) ∧
          s.cr 2 = s'.cr 2 ∧ ctx.code &&& 0x1f = ctx'.code &&& 0x1f) := by
  obtain ⟨t, halted, _, shows⟩ := shows_of_panics ld rfl (panics_pagefault ld ctx s)
  obtain ⟨t', halted', _, shows'⟩ := shows_of_panics ld rfl (panics_pagefault ld ctx' s')
  refine ⟨t, t', halted, halted', fun same => ?_, ?_⟩
  · have agree := agree_of_cells shows shows' same
    rw [reportRows_bytes, reportRows_bytes] at agree
    exact faultRows_agree.mp agree
  · rintro ⟨number, address, bits⟩ p hp
    rw [shows.cells p hp, shows'.cells p hp, reportRows_pagefault, reportRows_pagefault, number,
      address, pageFaultTexts_eq_iff.mpr bits]

end PanicDiagnosis
