import MissyMicro.LibcString
import Mathlib.Data.List.GetD

/-!
# Searching the root table of ACPI

The search compares as many bytes as `strlen` gives for the signature, and so the NUL behind it
as well: the byte after the signature of a descriptor, its checksum, has to be 0. The first place
that is found this way is returned, and whether its bytes sum to 0 is asked afterwards.
-/

namespace AcpiTables

open LibcString

abbrev Memory := U32 → BitVec 8

/-- `"RSD PTR "` -/
def acpiSignatureRsdp : List (BitVec 8) := [0x52, 0x53, 0x44, 0x20, 0x50, 0x54, 0x52, 0x20, 0]

def acpiAlign : Nat := 0x10
def edbaMaxSeek : Nat := 1024
def edbaBaseAddr : U32 := 0x000a0000
def edbaEndAddr : U32 := 0x000fffff
def sizeofRsdpDescriptor : Nat := 20

/-- `!strncmp (ACPI_SIGNATURE_RSDP, cmp_str, strlen (ACPI_SIGNATURE_RSDP))` -/
def isRsdp (mem : Memory) (cmpStr : U32) : Option Bool :=
  let literal := fun (str : List (BitVec 8)) (a : U32) => str[a.toNat]?
  (strlen literal acpiSignatureRsdp 0).bind fun len =>
    (strncmp (literal acpiSignatureRsdp) (fun a => some (mem a)) 0 cmpStr len.toNat).map
      fun diff => decide (diff = 0)

/-- One of the two loops; the inner `none` is its end without a return. -/
def seek (mem : Memory) (area : U32) (limit i : Nat) : Option (Option U32) :=
  if i < limit then
    (isRsdp mem (area + BitVec.ofNat 32 i)).bind fun found =>
      if found then some (some (area + BitVec.ofNat 32 i))
      else seek mem area limit (i + acpiAlign)
  else some none
termination_by limit - i
decreasing_by exact Nat.sub_lt_sub_left (by assumption) (Nat.lt_add_of_pos_right (by decide))

def edbaSegment (mem : Memory) : BitVec 16 := mem 0x40f ++ mem 0x40e

def edbaArea (mem : Memory) : U32 := (edbaSegment mem).setWidth 32 * 0x10

/-- Without the lines that it prints. -/
def acpiLocateRsdp (mem : Memory) : Option U32 :=
  (seek mem (edbaArea mem) edbaMaxSeek 0).bind fun found =>
    found.elim ((seek mem edbaBaseAddr (edbaEndAddr - edbaBaseAddr).toNat 0).map (·.getD 0)) some

def acpiGetChecksum (mem : Memory) (rsdp : U32) : BitVec 8 :=
  ((List.range sizeofRsdpDescriptor).foldl
    (fun result i => result + (mem (rsdp + BitVec.ofNat 32 i)).setWidth 32) (0 : U32)).setWidth 8

inductive EarlyInit where
  | panic (msg : String)
  | found (revision : BitVec 8)
  deriving DecidableEq

/-- From the search on, up to the second panic. -/
def kernelEarlyInit (mem : Memory) : Option EarlyInit :=
  (acpiLocateRsdp mem).map fun acpiTable =>
    if acpiTable = 0 then .panic "Could not locate the ACPI tables!"
    else if acpiGetChecksum mem acpiTable > 0 then .panic "The ACPI table is invalid!"
    else .found (mem (acpiTable + 15))

/-- The signature and a byte 0 behind it. -/
def Accepted (mem : Memory) (p : U32) : Prop :=
  ∀ k < 9, mem (p + BitVec.ofNat 32 k) = acpiSignatureRsdp.getD k 0

instance (mem : Memory) (p : U32) : Decidable (Accepted mem p) :=
  inferInstanceAs (Decidable (∀ k < 9, mem (p + BitVec.ofNat 32 k) = acpiSignatureRsdp.getD k 0))

theorem acpiSignatureRsdp_textAt :
    TextAt (fun (str : List (BitVec 8)) (a : U32) => str[a.toNat]?) acpiSignatureRsdp 0
      (acpiSignatureRsdp.take 8) :=
  @list_textAt (acpiSignatureRsdp.take 8) (by decide) (by decide)

theorem textAt_iff_accepted {mem : Memory} {p : U32} :
    TextAt (fun mem a => some (mem a)) mem p (acpiSignatureRsdp.take 8) ↔ Accepted mem p := by
  have length : (acpiSignatureRsdp.take 8).length = 8 := rfl
  constructor
  · intro text k hk
    by_cases inside : k < 8
    · have char := Option.some.inj (text.load_at (length ▸ inside))
      rw [char, List.getD_eq_getElem _ _ (Nat.lt_succ_of_lt inside)]
      exact List.getElem_take
    · obtain rfl : k = 8 := by omega
      exact Option.some.inj text.nul
  · intro accepted
    refine textAt_of_load (fun k hk => ?_) (by decide) (congrArg some (accepted 8 (by decide)))
    rw [accepted k (by omega), List.getD_eq_getElem _ _ (Nat.lt_succ_of_lt (length ▸ hk))]
    exact congrArg some List.getElem_take.symm

theorem isRsdp_eq (mem : Memory) (p : U32) : isRsdp mem p = some (decide (Accepted mem p)) := by
  obtain ⟨diff, compared, equal⟩ := @strncmp_memory _ _ _ mem 0 p _ acpiSignatureRsdp_textAt
  have len : strlen (fun (str : List (BitVec 8)) (a : U32) => str[a.toNat]?) acpiSignatureRsdp 0 =
      some (BitVec.ofNat 32 9) :=
    strlen_eq acpiSignatureRsdp_textAt.stringAt (by decide)
  have nine : (BitVec.ofNat 32 9).toNat = (acpiSignatureRsdp.take 8).length + 1 := rfl
  rw [isRsdp, len, Option.bind_some, nine, compared, Option.map_some]
  exact congrArg some (decide_eq_decide.mpr (equal.trans textAt_iff_accepted))

def placesFrom (area : U32) (i n : Nat) : List U32 :=
  (List.range' i n acpiAlign).map fun i => area + BitVec.ofNat 32 i

theorem seek_eq (mem : Memory) (area : U32) {limit i n : Nat}
    (rest : limit ≤ i + acpiAlign * n) (turns : 0 < n → i + acpiAlign * (n - 1) < limit) :
    seek mem area limit i = some ((placesFrom area i n).find? fun p => Accepted mem p) := by
  have align : acpiAlign = 16 := rfl
  induction n generalizing i with
  | zero =>
    rw [seek, if_neg (by omega)]
    rfl
  | succ n ih =>
    have inside := turns (Nat.succ_pos n)
    rw [align] at rest inside
    rw [seek, if_pos (by omega), isRsdp_eq, Option.bind_some, placesFrom, List.range'_succ,
      List.map_cons, List.find?_cons]
    by_cases accepted : Accepted mem (area + BitVec.ofNat 32 i)
    · rw [decide_eq_true accepted]
      rfl
    · rw [decide_eq_false accepted, if_neg Bool.false_ne_true]
      refine ih ?_ fun positive => ?_
      · rw [align]
        omega
      · rw [align]
        omega

/-- The first KB of the EBDA, then the range from `edbaBaseAddr` on. -/
def places (mem : Memory) : List U32 :=
  placesFrom (edbaArea mem) 0 64 ++ placesFrom edbaBaseAddr 0 0x6000

theorem acpiLocateRsdp_eq (mem : Memory) :
    acpiLocateRsdp mem = some (((places mem).find? fun p => Accepted mem p).getD 0) := by
  rw [acpiLocateRsdp, @seek_eq mem (edbaArea mem) edbaMaxSeek 0 64 (by decide) fun _ => by decide,
    Option.bind_some, places, List.find?_append]
  cases (placesFrom (edbaArea mem) 0 64).find? fun p => Accepted mem p with
  | some p => rfl
  | none =>
    rw [@seek_eq mem edbaBaseAddr (edbaEndAddr - edbaBaseAddr).toNat 0 0x6000 (by decide)
      fun _ => by decide]
    rfl

/-- The sum of the first `n` bytes. -/
def byteSum (mem : Memory) (p : U32) : Nat → Nat
  | 0 => 0
  | n + 1 => byteSum mem p n + (mem (p + BitVec.ofNat 32 n)).toNat

/-- The bytes of a descriptor sum to 0 modulo 256. -/
def SumsToZero (mem : Memory) (p : U32) : Prop := byteSum mem p sizeofRsdpDescriptor % 256 = 0

instance (mem : Memory) (p : U32) : Decidable (SumsToZero mem p) :=
  inferInstanceAs (Decidable (_ = _))

theorem foldl_bytes_toNat (mem : Memory) (p : U32) (n : Nat) :
    ((List.range n).foldl (fun result i => result + (mem (p + BitVec.ofNat 32 i)).setWidth 32)
      (0 : U32)).toNat = byteSum mem p n % 2 ^ 32 := by
  induction n with
  | zero => rfl
  | succ n ih =>
    have byte := (mem (p + BitVec.ofNat 32 n)).isLt
    rw [List.range_succ, List.foldl_append, List.foldl_cons, List.foldl_nil, BitVec.toNat_add, ih,
      BitVec.toNat_setWidth, Nat.mod_add_mod,
      Nat.mod_eq_of_lt (Nat.lt_of_lt_of_le byte (by decide))]
    rfl

theorem acpiGetChecksum_eq_zero_iff (mem : Memory) (p : U32) :
    acpiGetChecksum mem p = 0 ↔ SumsToZero mem p := by
  rw [acpiGetChecksum, ← BitVec.toNat_inj, BitVec.toNat_setWidth, foldl_bytes_toNat, SumsToZero]
  change _ % 2 ^ 32 % 2 ^ 8 = 0 ↔ _
  omega

/-- A descriptor by its signature and its sum. -/
def Descriptor (mem : Memory) (p : U32) : Prop :=
  (∀ k < 8, mem (p + BitVec.ofNat 32 k) = acpiSignatureRsdp.getD k 0) ∧ SumsToZero mem p

/-- A descriptor is found, and neither panic is reached. -/
def Discovered (mem : Memory) : Prop :=
  ∃ p, acpiLocateRsdp mem = some p ∧ p ≠ 0 ∧ acpiGetChecksum mem p = 0 ∧
    kernelEarlyInit mem = some (.found (mem (p + 15)))

/-- The first place with the signature and a byte 0 behind it holds a descriptor, and is not
the address 0. -/
def FirstIsDescriptor (mem : Memory) : Prop :=
  ∃ before p after, places mem = before ++ p :: after ∧ (∀ q ∈ before, ¬ Accepted mem q) ∧
    Accepted mem p ∧ p ≠ 0 ∧ SumsToZero mem p

theorem kernelEarlyInit_found {mem : Memory} {p : U32} (located : acpiLocateRsdp mem = some p)
    (nonzero : p ≠ 0) (sum : acpiGetChecksum mem p = 0) :
    kernelEarlyInit mem = some (.found (mem (p + 15))) := by
  rw [kernelEarlyInit, located, Option.map_some, if_neg nonzero, sum, if_neg (by decide)]

theorem descriptor_discovered_iff (mem : Memory) : Discovered mem ↔ FirstIsDescriptor mem := by
  constructor
  · rintro ⟨p, located, nonzero, sum, _⟩
    rw [acpiLocateRsdp_eq] at located
    cases first : (places mem).find? fun p => Accepted mem p with
    | none =>
      rw [first] at located
      exact absurd (Option.some.inj located).symm nonzero
    | some q =>
      rw [first] at located
      obtain rfl : q = p := Option.some.inj located
      obtain ⟨accepted, before, after, split, refused⟩ := List.find?_eq_some_iff_append.mp first
      refine ⟨before, q, after, split, fun r hr => ?_, of_decide_eq_true accepted, nonzero,
        (acpiGetChecksum_eq_zero_iff mem q).mp sum⟩
      simpa using refused r hr
  · rintro ⟨before, p, after, split, refused, accepted, nonzero, sum⟩
    have first : ((places mem).find? fun p => Accepted mem p) = some p := by
      refine List.find?_eq_some_iff_append.mpr ⟨decide_eq_true accepted, before, after, split, ?_⟩
      intro r hr
      simpa using refused r hr
    have located : acpiLocateRsdp mem = some p := by
      rw [acpiLocateRsdp_eq, first]
      rfl
    have checked := (acpiGetChecksum_eq_zero_iff mem p).mpr sum
    exact ⟨p, located, nonzero, checked, kernelEarlyInit_found located nonzero checked⟩

/-- A descriptor at the start of the EBDA at 0x9fc00, with the checksum 0xe1. -/
def checksummed : Memory := fun a =>
  if a = 0x40e then 0xc0
  else if a = 0x40f then 0x9f
  else if 0x9fc00 ≤ a.toNat then (acpiSignatureRsdp.take 8 ++ [0xe1]).getD (a.toNat - 0x9fc00) 0
  else 0

theorem checksummed_refused (p : U32) : ¬ Accepted checksummed p := by
  intro accepted
  have letters : ∀ i < 9, (acpiSignatureRsdp.take 8 ++ [0xe1]).getD i 0 = 0x52 → i = 0 ∨ i = 6 := by
    decide
  -- the two places of an `R`; no NUL is behind the first, and no `S` behind the second
  have start : p = 0x9fc00 ∨ p = 0x9fc06 := by
    have first : checksummed p = 0x52 := by
      rw [← add_ofNat_zero p]
      exact accepted 0 (by decide)
    rw [checksummed] at first
    split at first
    · cases first
    split at first
    · cases first
    split at first
    · rename_i high
      have short : p.toNat - 0x9fc00 < 9 := by
        by_contra beyond
        rw [List.getD_eq_default _ _ (Nat.le_of_not_lt beyond)] at first
        cases first
      rcases letters _ short first with zero | six
      · exact Or.inl (BitVec.eq_of_toNat_eq (by change _ = 0x9fc00; omega))
      · exact Or.inr (BitVec.eq_of_toNat_eq (by change _ = 0x9fc06; omega))
    · cases first
  rcases start with rfl | rfl
  · exact absurd (accepted 8 (by decide)) (by decide)
  · exact absurd (accepted 1 (by decide)) (by decide)

/-- The descriptor is not found, and the kernel panics. -/
theorem checksummed_descriptor_missed :
    (0x9fc00 ∈ places checksummed ∧ Descriptor checksummed 0x9fc00) ∧
      acpiLocateRsdp checksummed = some 0 ∧
      kernelEarlyInit checksummed = some (.panic "Could not locate the ACPI tables!") ∧
      ¬ ((∃ p ∈ places checksummed, Descriptor checksummed p) → Discovered checksummed) := by
  have area : edbaArea checksummed + BitVec.ofNat 32 0 = 0x9fc00 := by decide
  have place : 0x9fc00 ∈ places checksummed := by
    refine List.mem_append_left _ (List.mem_map.mpr ⟨0, ?_, area⟩)
    exact List.mem_range'.mpr ⟨0, by decide, rfl⟩
  have holds : Descriptor checksummed 0x9fc00 := ⟨by decide, by decide⟩
  have missed : acpiLocateRsdp checksummed = some 0 := by
    rw [acpiLocateRsdp_eq, List.find?_eq_none.mpr fun p _ => by simpa using checksummed_refused p]
    rfl
  refine ⟨⟨place, holds⟩, missed, ?_, fun found => ?_⟩
  · rw [kernelEarlyInit, missed]
    rfl
  · obtain ⟨p, located, nonzero, _⟩ := found ⟨_, place, holds⟩
    exact nonzero (Option.some.inj (located.symm.trans missed))

end AcpiTables
