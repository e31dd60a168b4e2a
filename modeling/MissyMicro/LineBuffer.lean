import MissyMicro.LineInput

/-!
# The stores of a line read

The index of every store is the signed count, and the loop bound compares it as unsigned. A
line that reaches `len` characters, or a Backspace that meets an empty one, ends the loop with
an index outside the buffer, where the NUL is stored.
-/

namespace LineBuffer

open Ps2Keyboard LineInput

/-- The console once the loop has used the keys, whether or not it was left. -/
def loopSoFar (len : U32) (s : Console) : List U32 → Console
  | [] => if s.count < len then s else s.terminate
  | i :: rest =>
    if s.count < len then
      if i = noKey then loopSoFar len s rest
      else if i = 0x0d then s.terminate
      else if i = 0x08 then loopSoFar len (s.back.print i) rest
      else loopSoFar len ((s.append i).print i) rest
    else s.terminate

def readSoFar (s : Console) (len : U32) : List U32 → Console
  | [] => s
  | i :: rest =>
    if i = noKey then readSoFar s len rest
    else loopSoFar len (({ s with count := 0 }.append i).print i) rest

section Waiting

variable {len : U32} {s t : Console} {keys rest : List U32}

theorem loopSoFar_of_left (h : readLoop len s keys = some (t, rest)) :
    loopSoFar len s keys = t.terminate := by
  induction keys generalizing s with
  | nil =>
    rw [readLoop] at h
    rw [loopSoFar]
    split at h
    · cases h
    · rename_i full
      cases h
      rw [if_neg full]
  | cons i keys ih =>
    rw [readLoop] at h
    rw [loopSoFar]
    split at h
    · rename_i hlt
      rw [if_pos hlt]
      split at h
      · rename_i wait
        rw [if_pos wait]
        exact ih h
      · rename_i key
        rw [if_neg key]
        split at h
        · rename_i enter
          cases h
          rw [if_pos enter]
        · rename_i other
          rw [if_neg other]
          split at h
          · rename_i back
            rw [if_pos back]
            exact ih h
          · rename_i char
            rw [if_neg char]
            exact ih h
    · rename_i full
      cases h
      rw [if_neg full]

/-- Where the read returns, the console is the one that it returns. -/
theorem readSoFar_of_returned (h : kernelTtyRead s len keys = some (t, rest)) :
    readSoFar s len keys = t := by
  induction keys with
  | nil => cases h
  | cons i keys ih =>
    rw [kernelTtyRead] at h
    rw [readSoFar]
    split at h
    · rename_i wait
      rw [if_pos wait]
      exact ih h
    · rename_i key
      rw [if_neg key]
      obtain ⟨⟨u, left⟩, hloop, heq⟩ := Option.map_eq_some_iff.mp h
      cases heq
      exact loopSoFar_of_left hloop

end Waiting

/-- An index at which a read may store: up to `len`, or -1. -/
def Reached (len k : U32) : Prop := k.toNat ≤ len.toNat ∨ k = 0xffffffff

section Frame

variable {len : U32} {s t : Console} {keys rest : List U32}

theorem append_keeps (count : s.count < len) {k : U32} (far : ¬ Reached len k) (i : U32) :
    Reached len ((s.append i).print i).count ∧ ((s.append i).print i).buf k = s.buf k := by
  have hlt : s.count.toNat < len.toNat := count
  have hlen := len.isLt
  constructor
  · refine Or.inl ?_
    change (s.count + 1).toNat ≤ len.toNat
    have hone : (1 : U32).toNat = 1 := rfl
    rw [BitVec.toNat_add, hone]
    omega
  · refine Function.update_of_ne (fun same => far (Or.inl ?_)) _ _
    rw [same]
    exact Nat.le_of_lt hlt

theorem back_reached (hlt : s.count < len) (i : U32) : Reached len (s.back.print i).count := by
  change Reached len (s.count - 1)
  by_cases zero : s.count = 0
  · rw [zero]
    exact Or.inr rfl
  · refine Or.inl ?_
    have pos : s.count.toNat ≠ 0 := fun h => zero (BitVec.eq_of_toNat_eq h)
    have hone : (1 : U32) ≤ s.count := Nat.one_le_iff_ne_zero.mpr pos
    have hcount : s.count.toNat < len.toNat := hlt
    rw [BitVec.toNat_sub_of_le hone]
    exact Nat.le_trans (Nat.sub_le _ _) (Nat.le_of_lt hcount)

theorem readLoop_keeps {k : U32} (far : ¬ Reached len k) (count : Reached len s.count)
    (h : readLoop len s keys = some (t, rest)) : Reached len t.count ∧ t.buf k = s.buf k := by
  induction keys generalizing s with
  | nil =>
    rw [readLoop] at h
    split at h
    · cases h
    · cases h
      exact ⟨count, rfl⟩
  | cons i keys ih =>
    rw [readLoop] at h
    split at h
    · rename_i hlt
      split at h
      · exact ih count h
      · split at h
        · cases h
          exact ⟨count, rfl⟩
        · split at h
          · obtain ⟨last, kept⟩ := ih (back_reached hlt i) h
            exact ⟨last, kept⟩
          · obtain ⟨count', same⟩ := append_keeps hlt far i
            obtain ⟨last, kept⟩ := ih count' h
            exact ⟨last, kept.trans same⟩
    · cases h
      exact ⟨count, rfl⟩

/-- A read changes no byte but those behind the buffer's start up to index `len`, and the one
in front of it. -/
theorem kernelTtyRead_keeps {k : U32} (nonempty : 1 ≤ len.toNat) (far : ¬ Reached len k)
    (h : kernelTtyRead s len keys = some (t, rest)) : t.buf k = s.buf k := by
  induction keys with
  | nil => cases h
  | cons i keys ih =>
    rw [kernelTtyRead] at h
    split at h
    · exact ih h
    · obtain ⟨⟨u, left⟩, hloop, hterm⟩ := Option.map_eq_some_iff.mp h
      cases hterm
      have first : ({ s with count := 0 } : Console).count < len := nonempty
      obtain ⟨count, same⟩ := append_keeps first far i
      obtain ⟨last, kept⟩ := readLoop_keeps far count hloop
      have untouched : k ≠ u.count := by
        rintro rfl
        exact far last
      exact (Function.update_of_ne untouched _ _).trans (kept.trans same)

end Frame

/-- The index is a signed number below `len`. -/
def InBuffer (len index : U32) : Prop := 0 ≤ index.toInt ∧ index.toInt < len.toNat

instance (len index : U32) : Decidable (InBuffer len index) :=
  inferInstanceAs (Decidable (_ ∧ _))

/-- From a line of `n` characters on, the line stays below `len`, no Backspace meets an empty
line, and nothing is stored past the largest signed index. -/
def Fits (len n : Nat) : List U32 → Prop
  | [] => n < len
  | i :: rest =>
    n < len ∧
      if i = noKey then Fits len n rest
      else if i = 0x0d then n < 2 ^ 31
      else if i = 0x08 then 0 < n ∧ Fits len (n - 1) rest
      else n < 2 ^ 31 ∧ Fits len (n + 1) rest

/-- The first key counts as a character, whichever it is. -/
def FitsLine (len : Nat) : List U32 → Prop
  | [] => True
  | i :: rest => if i = noKey then FitsLine len rest else Fits len 1 rest

section Stores

variable {len : U32} {s : Console} {n : Nat}

theorem inBuffer_iff (hn : n < 2 ^ 32) :
    InBuffer len (BitVec.ofNat 32 n) ↔ n < 2 ^ 31 ∧ n < len.toNat := by
  rw [InBuffer, BitVec.toInt_ofNat', Int.bmod]
  split <;> omega

theorem inBuffer_minus_one : ¬ InBuffer len (0 - 1) := by
  rintro ⟨nonneg, _⟩
  revert nonneg
  decide

/-- One more store, at the count. -/
theorem store_iff (count : s.count = BitVec.ofNat 32 n) (hn : n < 2 ^ 32) :
    (∀ k ∈ s.count :: s.stores, InBuffer len k) ↔
      (∀ k ∈ s.stores, InBuffer len k) ∧ n < 2 ^ 31 ∧ n < len.toNat := by
  rw [List.forall_mem_cons, count, inBuffer_iff hn, and_comm]

/-- A loop that is left stores its NUL at the count. -/
theorem loopSoFar_full (full : ¬ s.count < len) (keys : List U32) :
    (loopSoFar len s keys).stores = s.count :: s.stores := by
  cases keys with
  | nil =>
    rw [loopSoFar, if_neg full]
    rfl
  | cons i keys =>
    rw [loopSoFar, if_neg full]
    rfl

/-- The stores of the loop are in the buffer exactly when those before it are and the keys
fit. -/
theorem loopSoFar_stores (keys : List U32) (count : s.count = BitVec.ofNat 32 n)
    (le : n ≤ len.toNat) :
    (∀ k ∈ (loopSoFar len s keys).stores, InBuffer len k) ↔
      (∀ k ∈ s.stores, InBuffer len k) ∧ Fits len.toNat n keys := by
  have hlen := len.isLt
  induction keys generalizing s n with
  | nil =>
    have going : s.count < len ↔ n < len.toNat := by
      rw [BitVec.lt_def, count, BitVec.toNat_ofNat, Nat.mod_eq_of_lt (by omega)]
    rw [Fits]
    by_cases hlt : n < len.toNat
    · rw [loopSoFar, if_pos (going.mpr hlt), and_iff_left hlt]
    · rw [loopSoFar_full (mt going.mp hlt), store_iff count (by omega)]
      exact iff_of_false (fun h => hlt h.2.2) (fun h => hlt h.2)
  | cons i keys ih =>
    have going : s.count < len ↔ n < len.toNat := by
      rw [BitVec.lt_def, count, BitVec.toNat_ofNat, Nat.mod_eq_of_lt (by omega)]
    rw [Fits]
    by_cases hlt : n < len.toNat
    · rw [loopSoFar, if_pos (going.mpr hlt), and_iff_right hlt]
      by_cases wait : i = noKey
      · rw [if_pos wait, if_pos wait]
        exact ih count le
      · rw [if_neg wait, if_neg wait]
        by_cases enter : i = 0x0d
        · rw [if_pos enter, if_pos enter]
          change (∀ k ∈ s.count :: s.stores, _) ↔ _
          rw [store_iff count (by omega), and_iff_left hlt]
        · rw [if_neg enter, if_neg enter]
          by_cases back : i = 0x08
          · rw [if_pos back, if_pos back]
            rcases Nat.eq_zero_or_pos n with rfl | positive
            · have hcount : (s.back.print i).count = 0 - 1 := congrArg (· - 1) count
              have left : ¬ (s.back.print i).count < len := by
                rw [hcount, BitVec.lt_def]
                change ¬ 4294967295 < len.toNat
                omega
              rw [loopSoFar_full left, hcount]
              refine iff_of_false (fun h => ?_) (fun h => absurd h.2.1 (Nat.lt_irrefl 0))
              exact inBuffer_minus_one (h _ List.mem_cons_self)
            · have hcount : (s.back.print i).count = BitVec.ofNat 32 (n - 1) := by
                change s.count - 1 = _
                have hone : BitVec.ofNat 32 1 = 1 := rfl
                obtain ⟨m, rfl⟩ : ∃ m, n = m + 1 := ⟨n - 1, by omega⟩
                rw [count, BitVec.ofNat_add, hone, BitVec.add_sub_cancel, Nat.add_sub_cancel]
              rw [and_iff_right positive]
              exact ih hcount (by omega)
          · rw [if_neg back, if_neg back]
            have hcount : ((s.append i).print i).count = BitVec.ofNat 32 (n + 1) := by
              change s.count + 1 = _
              rw [count, BitVec.ofNat_add]
              rfl
            refine (ih hcount hlt).trans ?_
            change (∀ k ∈ s.count :: s.stores, _) ∧ _ ↔ _
            rw [store_iff count (by omega), and_iff_left hlt, and_assoc]
    · rw [loopSoFar_full (mt going.mp hlt), store_iff count (by omega)]
      exact iff_of_false (fun h => hlt h.2.2) (fun h => hlt h.2.1)

/-- Every store of a read, also of one that still waits, has an index in the buffer if and only
if the keys fit. -/
theorem kernelTtyRead_inBuffer_iff (s : Console) (keys : List U32) (nonempty : 1 ≤ len.toNat) :
    (∀ k ∈ (readSoFar { s with stores := [] } len keys).stores, InBuffer len k) ↔
      FitsLine len.toNat keys := by
  induction keys with
  | nil => exact iff_of_true (List.forall_mem_nil _) trivial
  | cons i keys ih =>
    rw [readSoFar, FitsLine]
    by_cases wait : i = noKey
    · rw [if_pos wait, if_pos wait]
      exact ih
    · rw [if_neg wait, if_neg wait, loopSoFar_stores (n := 1) keys rfl nonempty]
      refine and_iff_right ?_
      change ∀ k ∈ [(0 : U32)], InBuffer len k
      exact List.forall_mem_singleton.mpr
        ((inBuffer_iff (n := 0) (by decide)).mpr ⟨by decide, nonempty⟩)

end Stores

/-- `h`, `i`, Backspace and Enter. -/
theorem kernelTtyRead_inBuffer_edited :
    FitsLine 254 [0x68, 0x69, 0x08, 0x0d] ∧
      ∀ k ∈ (readSoFar { blankConsole with stores := [] } 254 [0x68, 0x69, 0x08, 0x0d]).stores,
        InBuffer 254 k := by
  have fits : FitsLine 254 [0x68, 0x69, 0x08, 0x0d] := by simp [FitsLine, Fits, noKey]
  exact ⟨fits, (kernelTtyRead_inBuffer_iff blankConsole _ (by decide)).mpr fits⟩

/-- After `h` and two Backspaces the NUL is stored at index -1. -/
theorem kernelTtyRead_below_buffer : ¬ ∀ (s : Console) (len : U32), 1 ≤ len.toNat →
    ∀ keys, ∀ k ∈ (readSoFar { s with stores := [] } len keys).stores, InBuffer len k := by
  intro all
  have below := all blankConsole 254 (by decide) [0x68, 0x08, 0x08] (0 - 1) (by decide +kernel)
  exact inBuffer_minus_one below

end LineBuffer
