import MissyMicro.CharDevices

/-!
# Indices of the kernel's tables

Four tables are filled by index. The guards are written independently of each other: one lets
the index behind its table through, two do not exist, and two look at an index that has lost
its upper bits.
-/

namespace GuardedTables

open LibcString CharDevices

universe u v

def gdtMaxDescriptors : Nat := 10
def i386MaxInterrupts : Nat := 255
def syscallMax : Nat := 256

structure Idtentry where
  offsetLo : BitVec 16
  codeSelector : BitVec 16
  zero : BitVec 8
  typeAttrib : BitVec 8
  offsetHi : BitVec 16

/-- A store by index; `none` is one outside the table. -/
def storeAt {α : Type u} {n : Nat} (table : Fin n → α) (i : Nat) (a : α) : Option (Fin n → α) :=
  if h : i < n then some (Function.update table ⟨i, h⟩ a) else none

/-- The value that the stores to one entry leave there. -/
def descriptor (base limit : U32) (flags : BitVec 16) : BitVec 64 :=
  let upper : BitVec 64 := (limit &&& 0x000f0000).setWidth 64
  let upper := upper ||| (((flags.setWidth 32 : U32) <<< 8) &&& 0x00f0ff00).setWidth 64
  let upper := upper ||| ((base >>> 16) &&& 0x000000ff).setWidth 64
  let upper := upper ||| (base &&& 0xff000000).setWidth 64
  (upper <<< 32 ||| (base <<< 16).setWidth 64) ||| (limit &&& 0x0000ffff).setWidth 64

def i386GdtSetentry (gdt : Fin gdtMaxDescriptors → BitVec 64) (idx : BitVec 8) (base limit : U32)
    (flags : BitVec 16) : Option (Int × (Fin gdtMaxDescriptors → BitVec 64)) :=
  if idx.toNat > gdtMaxDescriptors then some (-1, gdt)
  else (storeAt gdt idx.toNat (descriptor base limit flags)).map fun gdt => (0, gdt)

def i386IdtSetvector (idt : Fin i386MaxInterrupts → Idtentry) (idx : BitVec 8) (addr : U32)
    (codesel : BitVec 16) (attr : BitVec 8) : Option (Fin i386MaxInterrupts → Idtentry) :=
  storeAt idt idx.toNat ⟨(addr &&& ~~~0xffff0000).setWidth 16, codesel, 0, attr,
    (addr >>> 16).setWidth 16⟩

/-- Without the line that it prints. -/
def cpuSetvector (idt : Fin i386MaxInterrupts → Idtentry) (vector : Int) (addr : U32) :
    Option (Fin i386MaxInterrupts → Idtentry) :=
  i386IdtSetvector idt (BitVec.ofInt 8 vector) addr 0x08 (0x0e ||| 0x80 ||| 0x00)

def installSyscall (syscallTable : Fin syscallMax → U32) (idx c : U32) :
    Option (Fin syscallMax → U32) :=
  storeAt syscallTable idx.toNat c

structure Tables (P : Type u) where
  gdt : Fin gdtMaxDescriptors → BitVec 64
  idt : Fin i386MaxInterrupts → Idtentry
  registry : Registry P
  syscallTable : Fin syscallMax → U32

/-- The argument of `i386_gdt_setentry` is converted to a `uint8_t` by its caller. -/
inductive Call (P : Type u) where
  | gdtSetentry (idx : Int) (base limit : U32) (flags : BitVec 16)
  | setvector (vector : Int) (addr : U32)
  | registerChrdev (memory : U32 → BitVec 8) (major : Int) (name : U32) (deviceOps : Option P)
  | chrdevRead (major : Int) (buf length : U32)
  | chrdevWrite (major : Int) (buf length : U32)
  | installSyscall (idx c : U32)

section Calls

variable {P : Type u} {F : Type v}

/-- What a call returns; the inner `none` is of a function that returns nothing. -/
def perform (ops : P → ChrdevOps F) (t : Tables P) :
    Call P → Option (Option (Answer F) × Tables P)
  | .gdtSetentry idx base limit flags =>
    (i386GdtSetentry t.gdt (BitVec.ofInt 8 idx) base limit flags).map fun r =>
      (some (.value r.1), { t with gdt := r.2 })
  | .setvector vector addr => (cpuSetvector t.idt vector addr).map fun idt =>
    (none, { t with idt := idt })
  | .registerChrdev memory major name deviceOps =>
    (CharDevices.registerChrdev memory t.registry major name deviceOps).map fun r =>
      (some (.value r.1), { t with registry := r.2 })
  | .chrdevRead major buf length =>
    (CharDevices.chrdevRead ops t.registry major buf length).map fun r =>
      (some r.1, { t with registry := r.2 })
  | .chrdevWrite major buf length =>
    (CharDevices.chrdevWrite ops t.registry major buf length).map fun r =>
      (some r.1, { t with registry := r.2 })
  | .installSyscall idx c => (GuardedTables.installSyscall t.syscallTable idx c).map fun table =>
    (none, { t with syscallTable := table })

inductive Slot where
  | gdt (i : Int)
  | idt (i : Int)
  | charDevices (i : Int)
  | syscallTable (i : Int)

def Slot.Inside : Slot → Prop
  | .gdt i => 0 ≤ i ∧ i < gdtMaxDescriptors
  | .idt i => 0 ≤ i ∧ i < i386MaxInterrupts
  | .charDevices i => 0 ≤ i ∧ i < deviceMax
  | .syscallTable i => 0 ≤ i ∧ i < syscallMax

/-- The slots that the search looks at. -/
def searched (r : Registry P) : List (Fin deviceMax) → List Int
  | [] => []
  | major :: rest => (major : Int) ::
    if (r.charDevices major).allocated = false then [] else searched r rest

def registered (r : Registry P) (major : Int) : List Int :=
  if major = 0 then searched r (List.finRange deviceMax) else if major > 0 then [major] else []

/-- The entries that a call reads or writes. -/
def accesses (t : Tables P) : Call P → List Slot
  | .gdtSetentry idx _ _ _ =>
    if (BitVec.ofInt 8 idx).toNat > gdtMaxDescriptors then [] else [.gdt (BitVec.ofInt 8 idx).toNat]
  | .setvector vector _ => [.idt (BitVec.ofInt 8 vector).toNat]
  | .registerChrdev _ major _ _ => (registered t.registry major).map .charDevices
  | .chrdevRead major _ _ => [.charDevices major]
  | .chrdevWrite major _ _ => [.charDevices major]
  | .installSyscall idx _ => [.syscallTable idx.toNat]

/-- The entry that the argument names. -/
def Call.argument : Call P → Slot
  | .gdtSetentry idx _ _ _ => .gdt idx
  | .setvector vector _ => .idt vector
  | .registerChrdev _ major _ _ => .charDevices major
  | .chrdevRead major _ _ => .charDevices major
  | .chrdevWrite major _ _ => .charDevices major
  | .installSyscall idx _ => .syscallTable idx.toNat

/-- The call returns an error, and every table is as it was. -/
def Rejected (ops : P → ChrdevOps F) (t : Tables P) (call : Call P) : Prop :=
  ∃ t', perform ops t call = some (some (.value (-1)), t') ∧ t'.gdt = t.gdt ∧ t'.idt = t.idt ∧
    t'.registry.charDevices = t.registry.charDevices ∧ t'.syscallTable = t.syscallTable

structure Guarded (ops : P → ChrdevOps F) (t : Tables P) (call : Call P) : Prop where
  inside : ∀ slot ∈ accesses t call, slot.Inside
  rejects : ¬ call.argument.Inside → Rejected ops t call

/-- The argument is in range, or the guard that the call has stops it. -/
def Call.Meets : Call P → Prop
  | .gdtSetentry idx _ _ _ => (0 ≤ idx ∧ idx < gdtMaxDescriptors) ∨ gdtMaxDescriptors < idx % 256
  | .setvector vector _ => 0 ≤ vector ∧ vector < i386MaxInterrupts
  | .registerChrdev _ major _ _ => major < deviceMax
  | .chrdevRead major _ _ => 0 ≤ major ∧ major < deviceMax
  | .chrdevWrite major _ _ => 0 ≤ major ∧ major < deviceMax
  | .installSyscall idx _ => idx.toNat < syscallMax

variable {ops : P → ChrdevOps F} {t : Tables P}

theorem storeAt_other {α : Type u} {n i : Nat} {table table' : Fin n → α} {a : α}
    (h : storeAt table i a = some table') {j : Fin n} (apart : j.val ≠ i) :
    table' j = table j := by
  unfold storeAt at h
  split at h
  · obtain rfl := Option.some.inj h
    exact Function.update_of_ne (fun same => apart (congrArg Fin.val same)) _ _
  · cases h

theorem fillSlot_other {memory : U32 → BitVec 8} {r r' : Registry P} {i : Fin deviceMax}
    {name : U32} {deviceOps : Option P} {bytes : Nat} {out : Int}
    (h : fillSlot memory r i name deviceOps bytes = some (out, r')) {j : Fin deviceMax}
    (apart : j ≠ i) : r'.charDevices j = r.charDevices j := by
  obtain ⟨copied, stored, same⟩ := Option.map_eq_some_iff.mp h
  obtain rfl := (Prod.mk.inj same).2
  have stores (m m' : Registry P) (a : U32) (c : BitVec 8)
      (kept : m.charDevices j = r.charDevices j) (store : storeName i m a c = some m') :
      m'.charDevices j = r.charDevices j := by
    unfold storeName at store
    split at store
    · obtain rfl := Option.some.inj store
      rw [setDevice_other apart]
      exact kept
    · cases store
  exact strncpy_preserves stores (setDevice_other apart r _) stored

theorem searchSlot_other {memory : U32 → BitVec 8} {r r' : Registry P} {name : U32}
    {deviceOps : Option P} {slots : List (Fin deviceMax)} {out : Int}
    (h : searchSlot memory r name deviceOps slots = some (out, r')) {j : Fin deviceMax}
    (apart : (j : Int) ∉ searched r slots) : r'.charDevices j = r.charDevices j := by
  induction slots with
  | nil =>
    obtain rfl := (Prod.mk.inj (Option.some.inj h)).2
    rfl
  | cons i slots ih =>
    rw [searched, List.mem_cons, not_or] at apart
    obtain ⟨first, rest⟩ := apart
    rw [searchSlot] at h
    by_cases free : (r.charDevices i).allocated = false
    · rw [if_pos free] at h
      obtain ⟨len, _, filled⟩ := Option.bind_eq_some_iff.mp h
      exact fillSlot_other filled fun same => first (same ▸ rfl)
    · rw [if_neg free] at h rest
      exact ih h rest

theorem registerChrdev_other {memory : U32 → BitVec 8} {r r' : Registry P} {major : Int}
    {name : U32} {deviceOps : Option P} {out : Int}
    (h : CharDevices.registerChrdev memory r major name deviceOps = some (out, r'))
    {j : Fin deviceMax} (apart : (j : Int) ∉ registered r major) :
    r'.charDevices j = r.charDevices j := by
  unfold CharDevices.registerChrdev at h
  unfold registered at apart
  by_cases any : major = 0
  · rw [if_pos any] at h apart
    exact searchSlot_other h apart
  · rw [if_neg any] at h apart
    by_cases positive : major > 0
    · rw [if_pos positive] at h apart
      split at h
      · rename_i inside
        split at h
        · obtain ⟨len, _, filled⟩ := Option.bind_eq_some_iff.mp h
          refine fillSlot_other filled fun same => apart (List.mem_singleton.mpr ?_)
          rw [same]
          exact Int.toNat_of_nonneg (Int.le_of_lt positive)
        · obtain rfl := (Prod.mk.inj (Option.some.inj h)).2
          rfl
      · cases h
    · rw [if_neg positive] at h
      obtain rfl := (Prod.mk.inj (Option.some.inj h)).2
      rfl

theorem chrdevCall_devices {field : ChrdevOps F → Option F} {r r' : Registry P} {major : Int}
    {buf length : U32} {answer : Answer F}
    (h : chrdevCall field ops r major buf length = some (answer, r')) :
    r'.charDevices = r.charDevices := by
  unfold chrdevCall at h
  split at h
  · dsimp only at h
    split at h
    · obtain ⟨fns, _, called⟩ := Option.bind_eq_some_iff.mp h
      split at called
      · obtain rfl := (Prod.mk.inj (Option.some.inj called)).2
        rfl
      · obtain rfl := (Prod.mk.inj (Option.some.inj called)).2
        rfl
    · obtain rfl := (Prod.mk.inj (Option.some.inj h)).2
      rfl
  · cases h

/-- The entries that are not among the slots are kept. -/
structure Kept (t t' : Tables P) (slots : List Slot) : Prop where
  gdt : ∀ i : Fin gdtMaxDescriptors, .gdt i ∉ slots → t'.gdt i = t.gdt i
  idt : ∀ i : Fin i386MaxInterrupts, .idt i ∉ slots → t'.idt i = t.idt i
  charDevices : ∀ i : Fin deviceMax, .charDevices i ∉ slots →
    t'.registry.charDevices i = t.registry.charDevices i
  syscallTable : ∀ i : Fin syscallMax, .syscallTable i ∉ slots →
    t'.syscallTable i = t.syscallTable i

/-- A call changes no entry that it does not access. -/
theorem perform_kept {call : Call P} {out : Option (Answer F)} {t' : Tables P}
    (h : perform ops t call = some (out, t')) : Kept t t' (accesses t call) := by
  cases call with
  | gdtSetentry idx base limit flags =>
    obtain ⟨r, set, same⟩ := Option.map_eq_some_iff.mp h
    obtain rfl := (Prod.mk.inj same).2
    refine ⟨fun i untouched => ?_, fun _ _ => rfl, fun _ _ => rfl, fun _ _ => rfl⟩
    unfold i386GdtSetentry at set
    split at set
    · obtain rfl := Option.some.inj set
      rfl
    · rename_i low
      obtain ⟨gdt, stored, rfl⟩ := Option.map_eq_some_iff.mp set
      refine storeAt_other stored fun same => untouched ?_
      rw [accesses, if_neg low, same]
      exact List.mem_cons_self
  | setvector vector addr =>
    obtain ⟨idt, stored, same⟩ := Option.map_eq_some_iff.mp h
    obtain rfl := (Prod.mk.inj same).2
    refine ⟨fun _ _ => rfl, fun i untouched => ?_, fun _ _ => rfl, fun _ _ => rfl⟩
    refine storeAt_other stored fun same => untouched ?_
    rw [accesses, same]
    exact List.mem_cons_self
  | registerChrdev memory major name deviceOps =>
    obtain ⟨r, called, same⟩ := Option.map_eq_some_iff.mp h
    obtain rfl := (Prod.mk.inj same).2
    refine ⟨fun _ _ => rfl, fun _ _ => rfl, fun i untouched => ?_, fun _ _ => rfl⟩
    exact registerChrdev_other called fun hi => untouched (List.mem_map_of_mem hi)
  | chrdevRead major buf length =>
    obtain ⟨r, called, same⟩ := Option.map_eq_some_iff.mp h
    obtain rfl := (Prod.mk.inj same).2
    refine ⟨fun _ _ => rfl, fun _ _ => rfl, fun i _ => ?_, fun _ _ => rfl⟩
    exact congrFun (chrdevCall_devices called) i
  | chrdevWrite major buf length =>
    obtain ⟨r, called, same⟩ := Option.map_eq_some_iff.mp h
    obtain rfl := (Prod.mk.inj same).2
    refine ⟨fun _ _ => rfl, fun _ _ => rfl, fun i _ => ?_, fun _ _ => rfl⟩
    exact congrFun (chrdevCall_devices called) i
  | installSyscall idx c =>
    obtain ⟨table, stored, same⟩ := Option.map_eq_some_iff.mp h
    obtain rfl := (Prod.mk.inj same).2
    refine ⟨fun _ _ => rfl, fun _ _ => rfl, fun _ _ => rfl, fun i untouched => ?_⟩
    refine storeAt_other stored fun same => untouched ?_
    rw [accesses, same]
    exact List.mem_cons_self

/-- The registries hold the same devices at the slots. -/
def SameDevices (S : Slot → Prop) (r r' : Registry P) : Prop :=
  ∀ i : Fin deviceMax, S (.charDevices i) → r.charDevices i = r'.charDevices i

theorem fillSlot_agree {S : Slot → Prop} {memory : U32 → BitVec 8} {r r' : Registry P}
    {i : Fin deviceMax} (same : SameDevices S r r') (here : S (.charDevices i)) (name : U32)
    (deviceOps : Option P) (bytes : Nat) :
    Option.Rel (fun a b => a.1 = b.1 ∧ SameDevices S a.2 b.2)
      (fillSlot memory r i name deviceOps bytes) (fillSlot memory r' i name deviceOps bytes) := by
  have set {r r' : Registry P} (same : SameDevices S r r') (d : CharDevice P → CharDevice P) :
      SameDevices S (setDevice r i (d (r.charDevices i))) (setDevice r' i (d (r'.charDevices i))) := by
    intro j hj
    by_cases other : j = i
    · subst other
      rw [setDevice_self, setDevice_self, same j hj]
    · rw [setDevice_other other, setDevice_other other, same j hj]
  have stores (m m' : Registry P) (a : U32) (c : BitVec 8) (same : SameDevices S m m') :
      Option.Rel (SameDevices S) (storeName i m a c) (storeName i m' a c) := by
    rw [storeName, storeName]
    split
    · rename_i inside
      exact .some (set same fun d =>
        { d with deviceName := Function.update d.deviceName ⟨a.toNat, inside⟩ c })
    · exact .none
  have filled := set same fun d => { d with allocated := true, chrdevFns := deviceOps }
  have copied := @strncpy_relates _ _ _ (fun a => some (memory a)) stores _ _ filled 0 name bytes
  exact rel_map copied fun _ _ related => ⟨rfl, related⟩

theorem searchSlot_agree {S : Slot → Prop} {memory : U32 → BitVec 8} {r r' : Registry P}
    (same : SameDevices S r r') (name : U32) (deviceOps : Option P) (slots : List (Fin deviceMax))
    (reads : ∀ i ∈ searched r slots, S (.charDevices i)) :
    Option.Rel (fun a b => a.1 = b.1 ∧ SameDevices S a.2 b.2)
      (searchSlot memory r name deviceOps slots) (searchSlot memory r' name deviceOps slots) := by
  induction slots with
  | nil => exact .some ⟨rfl, same⟩
  | cons i slots ih =>
    rw [searched, List.forall_mem_cons] at reads
    obtain ⟨here, reads⟩ := reads
    rw [searchSlot, searchSlot, ← same i here]
    by_cases free : (r.charDevices i).allocated = false
    · rw [if_pos free, if_pos free, strlen_state _ r r']
      cases strlen (fun _ a => some (memory a)) r' name with
      | none => exact .none
      | some len => exact fillSlot_agree same here name deviceOps _
    · rw [if_neg free] at reads
      rw [if_neg free, if_neg free]
      exact ih reads

theorem registerChrdev_agree {S : Slot → Prop} {memory : U32 → BitVec 8} {r r' : Registry P}
    (same : SameDevices S r r') (major : Int) (name : U32) (deviceOps : Option P)
    (reads : ∀ i ∈ registered r major, S (.charDevices i)) :
    Option.Rel (fun a b => a.1 = b.1 ∧ SameDevices S a.2 b.2)
      (CharDevices.registerChrdev memory r major name deviceOps)
      (CharDevices.registerChrdev memory r' major name deviceOps) := by
  rw [CharDevices.registerChrdev, CharDevices.registerChrdev]
  unfold registered at reads
  by_cases any : major = 0
  · rw [if_pos any] at reads ⊢
    rw [if_pos any]
    exact searchSlot_agree same name deviceOps _ reads
  rw [if_neg any] at reads ⊢
  rw [if_neg any]
  by_cases positive : major > 0
  · rw [if_pos positive] at reads ⊢
    rw [if_pos positive]
    split
    · rename_i inside
      have natural := Int.toNat_of_nonneg (Int.le_of_lt positive)
      have here : S (.charDevices (⟨major.toNat, inside⟩ : Fin deviceMax)) := by
        change S (.charDevices (major.toNat : Int))
        rw [natural]
        exact reads major List.mem_cons_self
      rw [← same _ here]
      split
      · rw [strlen_state _ r r']
        cases strlen (fun _ a => some (memory a)) r' name with
        | none => exact .none
        | some len => exact fillSlot_agree same here name deviceOps _
      · exact .some ⟨rfl, same⟩
    · exact .none
  · rw [if_neg positive, if_neg positive]
    exact .some ⟨rfl, same⟩

theorem chrdevCall_agree {S : Slot → Prop} {field : ChrdevOps F → Option F} {r r' : Registry P}
    (same : SameDevices S r r') (major : Int) (buf length : U32) (reads : S (.charDevices major)) :
    Option.Rel (fun a b => a.1 = b.1 ∧ SameDevices S a.2 b.2)
      (chrdevCall field ops r major buf length) (chrdevCall field ops r' major buf length) := by
  unfold chrdevCall
  split
  · rename_i inside
    have here : S (.charDevices (⟨major.toNat, inside.2⟩ : Fin deviceMax)) := by
      change S (.charDevices (major.toNat : Int))
      rw [Int.toNat_of_nonneg inside.1]
      exact reads
    dsimp only
    rw [← same _ here]
    split
    · cases (r.charDevices ⟨major.toNat, inside.2⟩).chrdevFns with
      | none => exact .none
      | some fns =>
        rw [Option.bind_some, Option.bind_some]
        split
        · exact .some ⟨rfl, same⟩
        · exact .some ⟨rfl, same⟩
    · exact .some ⟨rfl, same⟩
  · exact .none

/-- The tables hold the same entries at the slots. -/
structure SameAt (S : Slot → Prop) (t u : Tables P) : Prop where
  gdt : ∀ i : Fin gdtMaxDescriptors, S (.gdt i) → t.gdt i = u.gdt i
  idt : ∀ i : Fin i386MaxInterrupts, S (.idt i) → t.idt i = u.idt i
  charDevices : SameDevices S t.registry u.registry
  syscallTable : ∀ i : Fin syscallMax, S (.syscallTable i) → t.syscallTable i = u.syscallTable i

theorem storeAt_agree {α : Type u} {n i : Nat} {Q : Fin n → Prop} {table table' : Fin n → α}
    (same : ∀ j, Q j → table j = table' j) (a : α) :
    Option.Rel (fun x y : Fin n → α => ∀ j, Q j → x j = y j) (storeAt table i a)
      (storeAt table' i a) := by
  rw [storeAt, storeAt]
  split
  · refine .some fun j hj => ?_
    rw [Function.update_apply, Function.update_apply, same j hj]
  · exact .none

/-- What a call returns and stores depends on no other entries than those it accesses. -/
theorem perform_agree {S : Slot → Prop} (same : SameAt S t u) (call : Call P)
    (reads : ∀ slot ∈ accesses t call, S slot) :
    Option.Rel (fun a b => a.1 = b.1 ∧ SameAt S a.2 b.2) (perform ops t call)
      (perform ops u call) := by
  have devices {r r' : Registry P} (h : SameDevices S r r') :
      SameAt S { t with registry := r } { u with registry := r' } :=
    ⟨same.gdt, same.idt, h, same.syscallTable⟩
  cases call with
  | gdtSetentry idx base limit flags =>
    rw [perform, perform, i386GdtSetentry, i386GdtSetentry]
    split
    · exact .some ⟨rfl, same⟩
    · rw [Option.map_map, Option.map_map]
      refine rel_map (storeAt_agree same.gdt _) fun a b h => ⟨rfl, ?_⟩
      exact ⟨h, same.idt, same.charDevices, same.syscallTable⟩
  | setvector vector addr =>
    refine rel_map (storeAt_agree same.idt _) fun a b h => ⟨rfl, ?_⟩
    exact ⟨same.gdt, h, same.charDevices, same.syscallTable⟩
  | registerChrdev memory major name deviceOps =>
    refine rel_map (registerChrdev_agree same.charDevices major name deviceOps fun i hi => ?_)
      fun a b h => ⟨congrArg (fun v => some (Answer.value v)) h.1, devices h.2⟩
    exact reads _ (List.mem_map_of_mem hi)
  | chrdevRead major buf length =>
    exact rel_map (chrdevCall_agree same.charDevices major buf length
      (reads _ List.mem_cons_self)) fun a b h => ⟨congrArg some h.1, devices h.2⟩
  | chrdevWrite major buf length =>
    exact rel_map (chrdevCall_agree same.charDevices major buf length
      (reads _ List.mem_cons_self)) fun a b h => ⟨congrArg some h.1, devices h.2⟩
  | installSyscall idx c =>
    refine rel_map (storeAt_agree same.syscallTable _) fun a b h => ⟨rfl, ?_⟩
    exact ⟨same.gdt, same.idt, same.charDevices, h⟩

/-- The low byte of an argument. -/
theorem byte_toNat (v : Int) : ((BitVec.ofInt 8 v).toNat : Int) = v % 256 := by
  rw [BitVec.toNat_ofInt]
  omega

theorem gdtSetentry_guarded_iff {idx : Int} {base limit : U32} {flags : BitVec 16} :
    Guarded ops t (.gdtSetentry idx base limit flags) ↔
      (0 ≤ idx ∧ idx < gdtMaxDescriptors) ∨ gdtMaxDescriptors < idx % 256 := by
  have low := byte_toNat idx
  have max : gdtMaxDescriptors = 10 := rfl
  by_cases high : (BitVec.ofInt 8 idx).toNat > gdtMaxDescriptors
  · have rejected : Rejected ops t (.gdtSetentry idx base limit flags) := by
      refine ⟨t, ?_, rfl, rfl, rfl, rfl⟩
      rw [perform, i386GdtSetentry, if_pos high]
      rfl
    refine iff_of_true ⟨fun slot hslot => ?_, fun _ => rejected⟩ (Or.inr (by omega))
    rw [accesses, if_pos high] at hslot
    exact absurd hslot List.not_mem_nil
  · have inside_iff : (∀ slot ∈ accesses t (.gdtSetentry idx base limit flags), slot.Inside) ↔
        (BitVec.ofInt 8 idx).toNat < gdtMaxDescriptors := by
      rw [accesses, if_neg high, List.forall_mem_singleton, Slot.Inside]
      omega
    have accepted : ¬ Rejected ops t (.gdtSetentry idx base limit flags) := by
      rintro ⟨t', performed, _⟩
      rw [perform, i386GdtSetentry, if_neg high, Option.map_map] at performed
      obtain ⟨gdt, _, same⟩ := Option.map_eq_some_iff.mp performed
      cases same
    constructor
    · intro guarded
      have range : 0 ≤ idx ∧ idx < gdtMaxDescriptors := by
        by_contra outside
        exact accepted (guarded.rejects outside)
      exact Or.inl range
    · intro meets
      have range : 0 ≤ idx ∧ idx < gdtMaxDescriptors := by omega
      exact ⟨inside_iff.mpr (by omega), fun outside => absurd range outside⟩

theorem setvector_guarded_iff {vector : Int} {addr : U32} :
    Guarded ops t (.setvector vector addr) ↔ 0 ≤ vector ∧ vector < i386MaxInterrupts := by
  have low := byte_toNat vector
  have max : i386MaxInterrupts = 255 := rfl
  constructor
  · intro guarded
    by_contra outside
    obtain ⟨t', performed, _⟩ := guarded.rejects outside
    obtain ⟨idt, _, same⟩ := Option.map_eq_some_iff.mp performed
    cases same
  · intro range
    refine ⟨fun slot hslot => ?_, fun outside => absurd range outside⟩
    obtain rfl := List.mem_singleton.mp hslot
    change 0 ≤ _ ∧ _ < _
    omega

/-- A call that reads the slot of its argument and has no guard. -/
theorem unguarded_iff {call : Call P} (only : accesses t call = [call.argument]) :
    Guarded ops t call ↔ call.argument.Inside := by
  constructor
  · intro guarded
    exact guarded.inside _ (only ▸ List.mem_cons_self)
  · intro inside
    refine ⟨fun slot hslot => ?_, fun outside => absurd inside outside⟩
    rw [only] at hslot
    obtain rfl := List.mem_singleton.mp hslot
    exact inside

theorem installSyscall_guarded_iff {idx c : U32} :
    Guarded ops t (.installSyscall idx c) ↔ idx.toNat < syscallMax := by
  rw [unguarded_iff rfl]
  constructor
  · intro inside
    exact Int.ofNat_lt.mp inside.2
  · intro below
    exact ⟨Int.natCast_nonneg _, Int.ofNat_lt.mpr below⟩

theorem searched_inside (r : Registry P) (slots : List (Fin deviceMax)) :
    ∀ i ∈ searched r slots, Slot.Inside (.charDevices i) := by
  induction slots with
  | nil => exact fun i hi => absurd hi List.not_mem_nil
  | cons major rest ih =>
    intro i hi
    rw [searched, List.mem_cons] at hi
    rcases hi with rfl | hi
    · exact ⟨Int.natCast_nonneg _, Int.ofNat_lt.mpr major.isLt⟩
    · split at hi
      · exact absurd hi List.not_mem_nil
      · exact ih i hi

theorem storeAt_outside {α : Type u} {n i : Nat} (h : n ≤ i) (table : Fin n → α) (a : α) :
    storeAt table i a = none := dif_neg (Nat.not_lt.mpr h)

theorem chrdevCall_outside {field : ChrdevOps F → Option F} {r : Registry P} {major : Int}
    (h : ¬ Slot.Inside (.charDevices major)) (buf length : U32) :
    chrdevCall field ops r major buf length = none := by
  refine dif_neg fun inside => h ⟨inside.1, ?_⟩
  exact Int.toNat_of_nonneg inside.1 ▸ Int.ofNat_lt.mpr inside.2

/-- An index outside its table faults. -/
theorem perform_outside {call : Call P} (outside : ¬ ∀ slot ∈ accesses t call, slot.Inside) :
    perform ops t call = none := by
  cases call with
  | gdtSetentry idx base limit flags =>
    rw [accesses] at outside
    split at outside
    · exact absurd (fun _ h => absurd h List.not_mem_nil) outside
    · rename_i low
      rw [List.forall_mem_singleton, Slot.Inside] at outside
      rw [perform, i386GdtSetentry, if_neg low, storeAt_outside (by omega)]
      rfl
  | setvector vector addr =>
    rw [accesses, List.forall_mem_singleton, Slot.Inside] at outside
    rw [perform, cpuSetvector, i386IdtSetvector, storeAt_outside (by omega)]
    rfl
  | registerChrdev memory major name deviceOps =>
    obtain ⟨slot, hslot, past⟩ := not_forall₂.mp outside
    obtain ⟨i, hi, rfl⟩ := List.mem_map.mp hslot
    rw [perform, CharDevices.registerChrdev]
    unfold registered at hi
    by_cases any : major = 0
    · rw [if_pos any] at hi
      exact absurd (searched_inside _ _ i hi) past
    · rw [if_neg any] at hi ⊢
      by_cases positive : major > 0
      · rw [if_pos positive] at hi ⊢
        obtain rfl := List.mem_singleton.mp hi
        have beyond : ¬ (0 ≤ i ∧ i < deviceMax) := past
        rw [dif_neg (by omega)]
        rfl
      · rw [if_neg positive] at hi
        exact absurd hi List.not_mem_nil
  | chrdevRead major buf length =>
    rw [accesses, List.forall_mem_singleton] at outside
    rw [perform, chrdevRead, chrdevCall_outside outside]
    rfl
  | chrdevWrite major buf length =>
    rw [accesses, List.forall_mem_singleton] at outside
    rw [perform, chrdevWrite, chrdevCall_outside outside]
    rfl
  | installSyscall idx c =>
    rw [accesses, List.forall_mem_singleton, Slot.Inside] at outside
    rw [perform, GuardedTables.installSyscall, storeAt_outside (by omega)]
    rfl

theorem registerChrdev_guarded_iff {memory : U32 → BitVec 8} {major : Int} {name : U32}
    {deviceOps : Option P} :
    Guarded ops t (.registerChrdev memory major name deviceOps) ↔ major < deviceMax := by
  have max : deviceMax = 10 := rfl
  constructor
  · intro guarded
    by_contra outside
    have only : registered t.registry major = [major] := by
      rw [registered, if_neg (by omega), if_pos (by omega)]
    have inside : Slot.Inside (.charDevices major) := by
      refine guarded.inside _ ?_
      rw [accesses, only]
      exact List.mem_cons_self
    exact outside inside.2
  · intro below
    constructor
    · intro slot hslot
      obtain ⟨i, hi, rfl⟩ := List.mem_map.mp hslot
      rw [registered] at hi
      split at hi
      · exact searched_inside _ _ i hi
      · split at hi
        · rename_i positive
          obtain rfl := List.mem_singleton.mp hi
          exact ⟨Int.le_of_lt positive, below⟩
        · exact absurd hi List.not_mem_nil
    · intro outside
      have negative : major < 0 := by
        by_contra nonneg
        exact outside ⟨Int.not_lt.mp nonneg, below⟩
      refine ⟨{ t with registry := { t.registry with errno := ERANGE } }, ?_, rfl, rfl, rfl, rfl⟩
      rw [perform, CharDevices.registerChrdev, if_neg (by omega), if_neg (by omega)]
      rfl

/-- Every index is inside its table, and an argument out of range is rejected, if and only if the
argument is in range or stopped by the guard of its function. -/
theorem guarded_iff (ops : P → ChrdevOps F) (t : Tables P) (call : Call P) :
    Guarded ops t call ↔ call.Meets := by
  cases call with
  | gdtSetentry idx base limit flags => exact gdtSetentry_guarded_iff
  | setvector vector addr => exact setvector_guarded_iff
  | registerChrdev memory major name deviceOps => exact registerChrdev_guarded_iff
  | chrdevRead major buf length => exact unguarded_iff rfl
  | chrdevWrite major buf length => exact unguarded_iff rfl
  | installSyscall idx c => exact installSyscall_guarded_iff

end Calls

/-- The tables before anything is entered. -/
def zeroed : Tables Unit :=
  ⟨fun _ => 0, fun _ => ⟨0, 0, 0, 0, 0⟩, emptyRegistry, fun _ => 0⟩

def noOps (_ : Unit) : ChrdevOps Unit := ⟨none, none⟩

/-- One argument behind each table, and none is rejected. -/
theorem guarded_behind :
    ¬ Guarded noOps zeroed (.gdtSetentry 10 0 0 0) ∧ ¬ Guarded noOps zeroed (.setvector 255 0) ∧
      ¬ Guarded noOps zeroed (.registerChrdev (fun _ => 0) 10 0 none) ∧
      ¬ Guarded noOps zeroed (.installSyscall 256 0) := by
  rw [gdtSetentry_guarded_iff, setvector_guarded_iff, registerChrdev_guarded_iff,
    installSyscall_guarded_iff]
  decide

end GuardedTables
