import Mathlib.Data.List.FinRange
import MissyMicro.CharDevices

/-!
# Names of devices

A name is copied by a length that each of the two branches of `register_chrdev` chooses in its
own way: the first never cuts a name that is too long, and the second cuts it to
`DEVICE_MAX - 1` bytes.
-/

namespace DeviceNames

open LibcString CharDevices

universe u

variable {P : Type u}

/-- The array with bytes stored from `start` on. -/
def overlaid (start : Nat) (bytes : List (BitVec 8)) (name : Fin deviceMaxpath → BitVec 8)
    (k : Fin deviceMaxpath) : BitVec 8 :=
  if start ≤ k.val then bytes.getD (k.val - start) (name k) else name k

theorem overlaid_nil (start : Nat) (name : Fin deviceMaxpath → BitVec 8) :
    overlaid start [] name = name := by
  funext k
  unfold overlaid
  split <;> rfl

theorem overlaid_cons {start : Nat} (h : start < deviceMaxpath) (c : BitVec 8)
    (bytes : List (BitVec 8)) (name : Fin deviceMaxpath → BitVec 8) :
    overlaid start (c :: bytes) name =
      overlaid (start + 1) bytes (Function.update name ⟨start, h⟩ c) := by
  funext k
  unfold overlaid
  rcases Nat.lt_trichotomy k.val start with below | same | above
  · have apart : k ≠ ⟨start, h⟩ := fun same => Nat.ne_of_lt below (congrArg Fin.val same)
    rw [if_neg (by omega), if_neg (by omega), Function.update_of_ne apart]
  · obtain rfl : k = ⟨start, h⟩ := Fin.ext same
    rw [if_pos (Nat.le_refl start), if_neg (by omega), Function.update_self, Nat.sub_self]
    rfl
  · have apart : k ≠ ⟨start, h⟩ := fun same => Nat.ne_of_gt above (congrArg Fin.val same)
    have step : k.val - start = (k.val - (start + 1)) + 1 := by omega
    rw [if_pos (by omega), if_pos (by omega), Function.update_of_ne apart, step]
    rfl

def withName (r : Registry P) (i : Fin deviceMax) (name : Fin deviceMaxpath → BitVec 8) :
    Registry P :=
  setDevice r i { r.charDevices i with deviceName := name }

theorem withName_deviceName (r : Registry P) (i : Fin deviceMax)
    (name : Fin deviceMaxpath → BitVec 8) :
    ((withName r i name).charDevices i).deviceName = name := by
  rw [withName, setDevice_self]

theorem withName_withName (r : Registry P) (i : Fin deviceMax)
    (name name' : Fin deviceMaxpath → BitVec 8) :
    withName (withName r i name) i name' = withName r i name' := by
  unfold withName
  rw [setDevice_self]
  unfold setDevice
  rw [Function.update_idem]

theorem withName_self (r : Registry P) (i : Fin deviceMax) :
    withName r i (r.charDevices i).deviceName = r := by
  unfold withName setDevice
  rw [Function.update_eq_self]

section Stores

variable {i : Fin deviceMax} {dst : U32} {bytes : List (BitVec 8)}

theorem succ_toNat (h : dst.toNat < deviceMaxpath) : (dst + 1).toNat = dst.toNat + 1 := by
  have path : deviceMaxpath = 255 := rfl
  bv_omega

theorem storeAll_name (fits : dst.toNat + bytes.length ≤ deviceMaxpath) (r : Registry P) :
    storeAll (storeName i) r dst bytes =
      some (withName r i (overlaid dst.toNat bytes (r.charDevices i).deviceName)) := by
  induction bytes generalizing r dst with
  | nil =>
    rw [overlaid_nil, withName_self]
    rfl
  | cons c bytes ih =>
    rw [List.length_cons] at fits
    have inside : dst.toNat < deviceMaxpath := by omega
    have stored : storeName i r dst c = some (withName r i
        (Function.update (r.charDevices i).deviceName ⟨dst.toNat, inside⟩ c)) := dif_pos inside
    have next := succ_toNat inside
    rw [storeAll, stored, Option.bind_some, ih (by omega), withName_withName,
      withName_deviceName, next, overlaid_cons inside]

/-- Bytes that do not fit are stored behind the array. -/
theorem storeAll_overflows (start : dst.toNat ≤ deviceMaxpath)
    (beyond : deviceMaxpath < dst.toNat + bytes.length) (r : Registry P) :
    storeAll (storeName i) r dst bytes = none := by
  induction bytes generalizing r dst with
  | nil =>
    rw [List.length_nil] at beyond
    omega
  | cons c bytes ih =>
    rw [List.length_cons] at beyond
    rw [storeAll]
    by_cases inside : dst.toNat < deviceMaxpath
    · have next := succ_toNat inside
      have stored : storeName i r dst c = some (withName r i
          (Function.update (r.charDevices i).deviceName ⟨dst.toNat, inside⟩ c)) := dif_pos inside
      rw [stored, Option.bind_some]
      exact ih (by omega) (by omega) _
    · have fault : storeName i r dst c = none := dif_neg inside
      rw [fault]
      rfl

end Stores

section Registration

variable {r : Registry P} {i : Fin deviceMax} {memory : U32 → BitVec 8} {name : U32}
  {text : List (BitVec 8)} {deviceOps : Option P} {bytes : Nat}

/-- The slot before its name is stored. -/
def claimed (r : Registry P) (i : Fin deviceMax) (deviceOps : Option P) : Registry P :=
  setDevice r i { r.charDevices i with allocated := true, chrdevFns := deviceOps }

theorem claimed_deviceName (r : Registry P) (i : Fin deviceMax) (deviceOps : Option P) :
    ((claimed r i deviceOps).charDevices i).deviceName = (r.charDevices i).deviceName := by
  rw [claimed, setDevice_self]

theorem fillSlot_named (source : TextAt (fun _ : Unit => fun a => some (memory a)) () name text)
    (fits : bytes ≤ deviceMaxpath) :
    fillSlot memory r i name deviceOps bytes = some ((i : Int), withName (claimed r i deviceOps) i
      (overlaid 0 (copied text bytes) (r.charDevices i).deviceName)) := by
  have room : (0 : U32).toNat + (copied text bytes).length ≤ deviceMaxpath := by
    rw [copied_length]
    change 0 + bytes ≤ _
    omega
  rw [fillSlot, strncpy_eq source, ← claimed, storeAll_name room, claimed_deviceName]
  rfl

theorem fillSlot_overflows
    (source : TextAt (fun _ : Unit => fun a => some (memory a)) () name text)
    (beyond : deviceMaxpath < bytes) : fillSlot memory r i name deviceOps bytes = none := by
  have room : deviceMaxpath < (0 : U32).toNat + (copied text bytes).length := by
    rw [copied_length]
    change _ < 0 + bytes
    omega
  rw [fillSlot, strncpy_eq source, storeAll_overflows (Nat.zero_le _) room]
  rfl

/-- Slot `i` is free; it is the first one, or the one asked for. -/
def Grants (r : Registry P) (major : Int) (i : Fin deviceMax) : Prop :=
  (r.charDevices i).allocated = false ∧
    ((major = 0 ∧ ∀ j < i, (r.charDevices j).allocated = true) ∨ (0 < major ∧ major = i))

/-- The number of bytes copied of a name of that length. -/
def copyLength (major : Int) (length : Nat) : Nat :=
  if major = 0 then if length + 1 > deviceMaxpath then length + 1 else deviceMaxpath
  else if length + 1 < deviceMaxpath then length + 1 else deviceMax - 1

theorem strlen_text (source : TextAt (fun _ : Unit => fun a => some (memory a)) () name text)
    (short : text.length + 1 < 2 ^ 32) :
    ∃ len : U32, strlen (fun _ a => some (memory a)) r name = some len ∧
      len.toNat = text.length + 1 := by
  refine ⟨_, strlen_eq source.stringAt (Nat.lt_of_succ_lt short), ?_⟩
  rw [BitVec.toNat_ofNat, Nat.mod_eq_of_lt short]

theorem searchSlot_first (source : TextAt (fun _ : Unit => fun a => some (memory a)) () name text)
    (short : text.length + 1 < 2 ^ 32) (free : (r.charDevices i).allocated = false)
    (before : ∀ j < i, (r.charDevices j).allocated = true) {slots : List (Fin deviceMax)}
    (increasing : slots.Pairwise (· < ·)) (hi : i ∈ slots) :
    searchSlot memory r name deviceOps slots =
      fillSlot memory r i name deviceOps (copyLength 0 text.length) := by
  induction slots with
  | nil => exact absurd hi List.not_mem_nil
  | cons j slots ih =>
    obtain ⟨first, rest⟩ := List.pairwise_cons.mp increasing
    rw [searchSlot]
    rcases List.mem_cons.mp hi with rfl | later
    · obtain ⟨len, measured, length⟩ := @strlen_text _ r _ _ _ source short
      rw [if_pos free, measured, Option.bind_some, length]
      rfl
    · have taken : ¬ (r.charDevices j).allocated = false := by
        rw [before j (first i later)]
        exact Bool.noConfusion
      rw [if_neg taken]
      exact ih rest later

theorem registerChrdev_granted
    (source : TextAt (fun _ : Unit => fun a => some (memory a)) () name text)
    (short : text.length + 1 < 2 ^ 32) {major : Int} (grants : Grants r major i) :
    registerChrdev memory r major name deviceOps =
      fillSlot memory r i name deviceOps (copyLength major text.length) := by
  obtain ⟨free, asked⟩ := grants
  rcases asked with ⟨rfl, before⟩ | ⟨positive, rfl⟩
  · rw [registerChrdev, if_pos rfl]
    exact searchSlot_first source short free before (List.pairwise_lt_finRange _)
      (List.mem_finRange i)
  · have nonzero : ¬ ((i : Nat) : Int) = 0 := by omega
    obtain ⟨len, measured, length⟩ := @strlen_text _ r _ _ _ source short
    have slot : (⟨((i : Nat) : Int).toNat, i.isLt⟩ : Fin deviceMax) = i := rfl
    rw [registerChrdev, if_neg nonzero, if_pos positive,
      dif_pos (show ((i : Nat) : Int).toNat < deviceMax from i.isLt), slot, if_pos free, measured,
      Option.bind_some, length, copyLength, if_neg nonzero]

/-- The name cut to its array, with a NUL behind it. -/
structure Stored (r t : Registry P) (i : Fin deviceMax) (text : List (BitVec 8))
    (deviceOps : Option P) : Prop where
  name : ∀ k (hk : k < deviceMaxpath), k ≤ (text.take (deviceMaxpath - 1)).length →
    (t.charDevices i).deviceName ⟨k, hk⟩ = (text.take (deviceMaxpath - 1)).getD k 0
  chrdevFns : (t.charDevices i).chrdevFns = deviceOps
  others : ∀ j, j ≠ i → t.charDevices j = r.charDevices j

/-- Where the name is too long for the second branch, the array has to hold the rest already. -/
def NameFits (r : Registry P) (major : Int) (i : Fin deviceMax) (text : List (BitVec 8)) : Prop :=
  if major = 0 then text.length < deviceMaxpath
  else text.length + 1 < deviceMaxpath ∨ ∀ k : Fin deviceMaxpath, deviceMax - 1 ≤ k.val →
    (r.charDevices i).deviceName k = (text.take (deviceMaxpath - 1)).getD k 0

theorem overlaid_copied (text : List (BitVec 8)) (bytes : Nat)
    (name : Fin deviceMaxpath → BitVec 8) (k : Fin deviceMaxpath) :
    overlaid 0 (copied text bytes) name k = if k.val < bytes then text.getD k 0 else name k := by
  rw [overlaid, if_pos (Nat.zero_le _), Nat.sub_zero]
  split
  · rename_i inside
    exact copied_getD text inside _
  · rename_i outside
    rw [List.getD_eq_getElem?_getD, List.getElem?_eq_none (by rw [copied_length]; omega)]
    rfl

theorem cut_getD (text : List (BitVec 8)) {n k : Nat} (hk : k < n) :
    (text.take n).getD k 0 = text.getD k 0 := by
  rw [List.getD_eq_getElem?_getD, List.getD_eq_getElem?_getD, List.getElem?_take_of_lt hk]

theorem stored_iff : Stored r (withName (claimed r i deviceOps) i
      (overlaid 0 (copied text bytes) (r.charDevices i).deviceName)) i text deviceOps ↔
    ∀ k : Fin deviceMaxpath, k.val ≤ (text.take (deviceMaxpath - 1)).length →
      (if k.val < bytes then text.getD k 0 else (r.charDevices i).deviceName k) =
        (text.take (deviceMaxpath - 1)).getD k 0 := by
  constructor
  · intro stored k hk
    have name := stored.name k.val k.isLt hk
    rw [withName_deviceName, overlaid_copied] at name
    exact name
  · intro name
    constructor
    · intro k hk inside
      rw [withName_deviceName, overlaid_copied]
      exact name ⟨k, hk⟩ inside
    · rw [withName, setDevice_self, claimed, setDevice_self]
    · intro j hj
      rw [withName, setDevice_other hj, claimed, setDevice_other hj]

theorem fillSlot_copied_iff
    (source : TextAt (fun _ : Unit => fun a => some (memory a)) () name text)
    (fits : bytes ≤ deviceMaxpath) :
    (∃ t, fillSlot memory r i name deviceOps bytes = some ((i : Int), t) ∧
      Stored r t i text deviceOps) ↔
    ∀ k : Fin deviceMaxpath, k.val ≤ (text.take (deviceMaxpath - 1)).length →
      (if k.val < bytes then text.getD k 0 else (r.charDevices i).deviceName k) =
        (text.take (deviceMaxpath - 1)).getD k 0 := by
  rw [fillSlot_named source fits, ← stored_iff]
  constructor
  · rintro ⟨t, same, stored⟩
    rwa [(Prod.mk.inj (Option.some.inj same)).2]
  · intro stored
    exact ⟨_, rfl, stored⟩

theorem cut_whole (short : text.length < deviceMaxpath) :
    text.take (deviceMaxpath - 1) = text :=
  List.take_of_length_le (Nat.le_sub_one_of_lt short)

/-- The branch that searches for a slot. -/
theorem fillSlot_any_iff
    (source : TextAt (fun _ : Unit => fun a => some (memory a)) () name text) :
    (∃ t, fillSlot memory r i name deviceOps (copyLength 0 text.length) = some ((i : Int), t) ∧
      Stored r t i text deviceOps) ↔ text.length < deviceMaxpath := by
  by_cases long : text.length + 1 > deviceMaxpath
  · have beyond : deviceMaxpath < copyLength 0 text.length := by
      rw [copyLength, if_pos rfl, if_pos long]
      exact long
    rw [fillSlot_overflows source beyond]
    refine iff_of_false ?_ (by omega)
    rintro ⟨t, same, _⟩
    cases same
  · have all : copyLength 0 text.length = deviceMaxpath := by
      rw [copyLength, if_pos rfl, if_neg long]
    rw [all, fillSlot_copied_iff source (Nat.le_refl _)]
    refine iff_of_true (fun k _ => ?_) (by omega)
    rw [if_pos k.isLt, cut_whole (by omega)]

/-- The branch that is given the slot. -/
theorem fillSlot_given_iff
    (source : TextAt (fun _ : Unit => fun a => some (memory a)) () name text) {major : Int}
    (given : ¬ major = 0) :
    (∃ t, fillSlot memory r i name deviceOps (copyLength major text.length) = some ((i : Int), t) ∧
      Stored r t i text deviceOps) ↔
    text.length + 1 < deviceMaxpath ∨ ∀ k : Fin deviceMaxpath, deviceMax - 1 ≤ k.val →
      (r.charDevices i).deviceName k = (text.take (deviceMaxpath - 1)).getD k 0 := by
  have path : deviceMaxpath = 255 := rfl
  have max : deviceMax = 10 := rfl
  by_cases short : text.length + 1 < deviceMaxpath
  · have all : copyLength major text.length = text.length + 1 := by
      rw [copyLength, if_neg given, if_pos short]
    rw [all, fillSlot_copied_iff source (Nat.le_of_lt short), cut_whole (by omega)]
    refine iff_of_true (fun k hk => ?_) (Or.inl short)
    rw [if_pos (by omega)]
  · have few : copyLength major text.length = deviceMax - 1 := by
      rw [copyLength, if_neg given, if_neg short]
    rw [few, fillSlot_copied_iff source (by decide), or_iff_right short]
    constructor
    · intro name k hk
      have length : (text.take (deviceMaxpath - 1)).length = deviceMaxpath - 1 := by
        rw [List.length_take]
        omega
      have last := k.isLt
      have rest := name k (by omega)
      rwa [if_neg (by omega)] at rest
    · intro name k _
      split
      · exact (cut_getD text (by omega)).symm
      · exact name k (by omega)

theorem fillSlot_stores_iff
    (source : TextAt (fun _ : Unit => fun a => some (memory a)) () name text) {major : Int} :
    (∃ t, fillSlot memory r i name deviceOps (copyLength major text.length) = some ((i : Int), t) ∧
      Stored r t i text deviceOps) ↔ NameFits r major i text := by
  unfold NameFits
  by_cases any : major = 0
  · rw [if_pos any, any]
    exact fillSlot_any_iff source
  · rw [if_neg any]
    exact fillSlot_given_iff source any

/-- A free slot takes the operations and the name, and no other byte is written, if and only if the
name fits. -/
theorem registerChrdev_stores_iff
    (source : TextAt (fun _ : Unit => fun a => some (memory a)) () name text)
    (short : text.length + 1 < 2 ^ 32) {major : Int} (grants : Grants r major i) :
    (∃ t, registerChrdev memory r major name deviceOps = some ((i : Int), t) ∧
      Stored r t i text deviceOps) ↔ NameFits r major i text := by
  rw [registerChrdev_granted source short grants]
  exact fillSlot_stores_iff source

end Registration

/-- `n` letters, and NULs behind them. -/
def letters (n : Nat) (a : U32) : BitVec 8 := if a.toNat < n then 0x61 else 0

theorem letters_text {n : Nat} (hn : n < 2 ^ 32) :
    TextAt (fun _ : Unit => fun a => some (letters n a)) () 0 (List.replicate n 0x61) := by
  refine textAt_of_load (fun k hk => ?_) (fun c hc => ?_) ?_
  · rw [List.length_replicate] at hk
    rw [List.getElem_replicate, letters, zero_add_ofNat (by omega), if_pos hk]
  · rw [List.eq_of_mem_replicate hc]
    decide
  · rw [List.length_replicate, letters, zero_add_ofNat hn, if_neg (Nat.lt_irrefl n)]

theorem zero_lt_deviceMax : 0 < deviceMax := by decide

theorem one_lt_deviceMax : 1 < deviceMax := by decide

def slot0 : Fin deviceMax := ⟨0, zero_lt_deviceMax⟩
def slot1 : Fin deviceMax := ⟨1, one_lt_deviceMax⟩

theorem empty_grants : Grants (emptyRegistry : Registry Unit) 1 slot1 :=
  ⟨rfl, Or.inr ⟨by decide, rfl⟩⟩

theorem empty_grants_any : Grants (emptyRegistry : Registry Unit) 0 slot0 :=
  ⟨rfl, Or.inl ⟨rfl, fun j hj => absurd hj (Nat.not_lt_zero j.val)⟩⟩

/-- Three letters fit. -/
theorem registerChrdev_stores_short :
    ∃ t, registerChrdev (letters 3) (emptyRegistry : Registry Unit) 1 0 (some ()) = some (1, t) ∧
      Stored emptyRegistry t slot1 (List.replicate 3 0x61) (some ()) := by
  have source := @letters_text 3 (by decide)
  have fits : NameFits (emptyRegistry : Registry Unit) 1 slot1 (List.replicate 3 0x61) := by
    rw [NameFits, if_neg (by decide)]
    exact Or.inl (by decide)
  exact (registerChrdev_stores_iff source (by decide) empty_grants).mpr fits

/-- 254 letters are cut to nine, and 255 go to any slot with the NUL behind its array. -/
theorem registerChrdev_stores_long :
    (¬ ∃ t, registerChrdev (letters 254) (emptyRegistry : Registry Unit) 1 0 (some ()) =
        some (1, t) ∧ Stored emptyRegistry t slot1 (List.replicate 254 0x61) (some ())) ∧
      ¬ ∃ t, registerChrdev (letters 255) (emptyRegistry : Registry Unit) 0 0 (some ()) =
        some (0, t) ∧ Stored emptyRegistry t slot0 (List.replicate 255 0x61) (some ()) := by
  have cut := @letters_text 254 (by decide)
  have long := @letters_text 255 (by decide)
  have length (n : Nat) : (List.replicate n (0x61 : BitVec 8)).length = n := List.length_replicate
  constructor
  · intro stores
    rw [registerChrdev_granted cut (by rw [length]; decide) empty_grants] at stores
    have fits := (fillSlot_stores_iff cut).mp stores
    rw [NameFits, if_neg (by decide), length] at fits
    rcases fits with short | rest
    · exact absurd short (by decide)
    · have tenth := rest ⟨9, by decide⟩ (by decide)
      rw [cut_getD _ (by decide)] at tenth
      exact absurd tenth (by decide)
  · intro stores
    rw [registerChrdev_granted long (by rw [length]; decide) empty_grants_any] at stores
    have fits := (fillSlot_stores_iff long).mp stores
    rw [NameFits, if_pos rfl, length] at fits
    exact absurd fits (by decide)

end DeviceNames
