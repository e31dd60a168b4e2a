import MissyMicro.LibcString
import MissyMicro.TransitionRuns

/-!
# Character devices

A fixed table holds the registered drivers. Major number 0 in a request asks for
any free slot, and slot 0 is one of those it can get.
-/

namespace CharDevices

open LibcString TransitionRuns

universe u v

def deviceMax : Nat := 10
def deviceMaxpath : Nat := 255

def ERANGE : Nat := 3
def EMFILE : Nat := 7
def ENODEV : Nat := 8
def ENOSYS : Nat := 9

/-- The two operations that are ever called; `none` is a NULL pointer. -/
structure ChrdevOps (F : Type v) where
  readChrdev : Option F
  writeChrdev : Option F

/-- `P` is the type of the non-NULL pointers to a driver's operations. -/
structure CharDevice (P : Type u) where
  allocated : Bool
  deviceName : Fin deviceMaxpath → BitVec 8
  chrdevFns : Option P

structure Registry (P : Type u) where
  charDevices : Fin deviceMax → CharDevice P
  errno : Nat

section Registry

variable {P : Type u} {F : Type v}

/-- The table as the kernel starts: in zeroed memory. -/
def emptyRegistry : Registry P := ⟨fun _ => ⟨false, fun _ => 0, none⟩, 0⟩

def setDevice (r : Registry P) (i : Fin deviceMax) (d : CharDevice P) : Registry P :=
  { r with charDevices := Function.update r.charDevices i d }

theorem setDevice_self (r : Registry P) (i : Fin deviceMax) (d : CharDevice P) :
    (setDevice r i d).charDevices i = d := Function.update_self ..

theorem setDevice_other {i j : Fin deviceMax} (h : j ≠ i) (r : Registry P) (d : CharDevice P) :
    (setDevice r i d).charDevices j = r.charDevices j := Function.update_of_ne h ..

/-- A store at an offset from a slot's `device_name`; outside the array it faults. -/
def storeName (i : Fin deviceMax) (r : Registry P) (offset : U32) (c : BitVec 8) :
    Option (Registry P) :=
  if h : offset.toNat < deviceMaxpath then
    some (setDevice r i { r.charDevices i with
      deviceName := Function.update (r.charDevices i).deviceName ⟨offset.toNat, h⟩ c })
  else none

/-- The stores into a slot that was found free. -/
def fillSlot (memory : U32 → BitVec 8) (r : Registry P) (i : Fin deviceMax) (name : U32)
    (deviceOps : Option P) (bytes : Nat) : Option (Int × Registry P) :=
  let r := setDevice r i { r.charDevices i with allocated := true, chrdevFns := deviceOps }
  (strncpy (fun _ a => some (memory a)) (storeName i) r 0 name bytes).map fun r => ((i : Int), r)

/-- The loop over the slots from `major` on. -/
def searchSlot (memory : U32 → BitVec 8) (r : Registry P) (name : U32) (deviceOps : Option P) :
    List (Fin deviceMax) → Option (Int × Registry P)
  | [] => some (-1, { r with errno := EMFILE })
  | major :: rest =>
    if (r.charDevices major).allocated = false then
      (strlen (fun _ a => some (memory a)) r name).bind fun len =>
        fillSlot memory r major name deviceOps
          (if len.toNat > deviceMaxpath then len.toNat else deviceMaxpath)
    else searchSlot memory r name deviceOps rest

/-- `none` is an access outside an array, or a name without a NUL. -/
def registerChrdev (memory : U32 → BitVec 8) (r : Registry P) (major : Int) (name : U32)
    (deviceOps : Option P) : Option (Int × Registry P) :=
  if major = 0 then searchSlot memory r name deviceOps (List.finRange deviceMax)
  else if major > 0 then
    if h : major.toNat < deviceMax then
      if (r.charDevices ⟨major.toNat, h⟩).allocated = false then
        (strlen (fun _ a => some (memory a)) r name).bind fun len =>
          fillSlot memory r ⟨major.toNat, h⟩ name deviceOps
            (if len.toNat < deviceMaxpath then len.toNat else deviceMax - 1)
      else some (-1, { r with errno := ERANGE })
    else none
  else some (-1, { r with errno := ERANGE })

/-- A call is answered by a function of the driver or with a value. -/
inductive Answer (F : Type v) where
  | invoke (fn : F) (buf length : U32)
  | value (v : Int)

/-- The body that `chrdev_read` and `chrdev_write` share. -/
def chrdevCall (field : ChrdevOps F → Option F) (ops : P → ChrdevOps F) (r : Registry P)
    (major : Int) (buf length : U32) : Option (Answer F × Registry P) :=
  if h : 0 ≤ major ∧ major.toNat < deviceMax then
    let d := r.charDevices ⟨major.toNat, h.2⟩
    if d.allocated then
      d.chrdevFns.bind fun fns =>
        match field (ops fns) with
        | some fn => some (.invoke fn buf length, r)
        | none => some (.value (-1), { r with errno := ENOSYS })
    else some (.value (-1), { r with errno := ENODEV })
  else none

def chrdevRead (ops : P → ChrdevOps F) (r : Registry P) (major : Int) (buf length : U32) :
    Option (Answer F × Registry P) :=
  chrdevCall ChrdevOps.readChrdev ops r major buf length

def chrdevWrite (ops : P → ChrdevOps F) (r : Registry P) (major : Int) (buf length : U32) :
    Option (Answer F × Registry P) :=
  chrdevCall ChrdevOps.writeChrdev ops r major buf length

/-- A request within the documented limits. -/
structure Request (P : Type u) where
  memory : U32 → BitVec 8
  major : Fin deviceMax
  name : U32
  length : Nat
  deviceOps : P
  named : StringAt (fun (_ : Unit) a => some (memory a)) () name length
  short : length ≤ 254

def Request.register (q : Request P) (r : Registry P) : Option (Int × Registry P) :=
  registerChrdev q.memory r q.major q.name (some q.deviceOps)

/-- Slot `i` is free, and it is the one asked for, or any was. -/
def Request.Gets (q : Request P) (r : Registry P) (i : Fin deviceMax) : Prop :=
  (r.charDevices i).allocated = false ∧ (q.major.val = 0 ∨ q.major = i)

/-- The slot takes the operations; of the rest only its name changes. -/
structure Filled (r t : Registry P) (i : Fin deviceMax) (p : P) : Prop where
  allocated : (t.charDevices i).allocated = true
  chrdevFns : (t.charDevices i).chrdevFns = some p
  others : ∀ j, j ≠ i → t.charDevices j = r.charDevices j
  errno : t.errno = r.errno

theorem fillSlot_filled (q : Request P) (r : Registry P) (i : Fin deviceMax) {bytes : Nat}
    (hbytes : bytes ≤ deviceMaxpath) :
    ∃ t, fillSlot q.memory r i q.name (some q.deviceOps) bytes = some ((i : Int), t) ∧
      Filled r t i q.deviceOps := by
  have stores (m : Registry P) (a : U32) (c : BitVec 8) (inv : Filled r m i q.deviceOps)
      (ha : a.toNat < deviceMaxpath) :
      ∃ m', storeName i m a c = some m' ∧ Filled r m' i q.deviceOps := by
    refine ⟨_, dif_pos ha, ?_, ?_, fun j hj => ?_, inv.errno⟩
    · rw [setDevice_self]
      exact inv.allocated
    · rw [setDevice_self]
      exact inv.chrdevFns
    · rw [setDevice_other hj]
      exact inv.others j hj
  have start : Filled r (setDevice r i { r.charDevices i with
      allocated := true, chrdevFns := some q.deviceOps }) i q.deviceOps := by
    refine ⟨?_, ?_, fun j hj => setDevice_other hj _ _, rfl⟩
    · rw [setDevice_self]
    · rw [setDevice_self]
  have fits : (0 : U32).toNat + bytes ≤ deviceMaxpath := by
    change 0 + bytes ≤ _
    omega
  obtain ⟨t, hcopy, filled⟩ := @strncpy_keeps _ (fun _ a => some (q.memory a)) (storeName i)
    (fun m => Filled r m i q.deviceOps) deviceMaxpath (by decide) stores bytes q.length _ 0 q.name
    start (fun _ _ => q.named) fits
  refine ⟨t, ?_, filled⟩
  rw [fillSlot, hcopy]
  rfl

/-- `strlen` counts the NUL as well, which still fits. -/
theorem Request.strlen_name (q : Request P) (r : Registry P) :
    ∃ len : U32, strlen (fun _ a => some (q.memory a)) r q.name = some len ∧
      len.toNat ≤ deviceMaxpath := by
  have hshort := q.short
  refine ⟨BitVec.ofNat 32 (q.length + 1), strlen_eq q.named (by omega), ?_⟩
  rw [BitVec.toNat_ofNat, Nat.mod_eq_of_lt (by omega)]
  exact Nat.succ_le_succ hshort

/-- The search fills the first free slot, if there is one. -/
theorem searchSlot_cases (q : Request P) (r : Registry P) (slots : List (Fin deviceMax)) :
    (∃ i t, (r.charDevices i).allocated = false ∧
      searchSlot q.memory r q.name (some q.deviceOps) slots = some ((i : Int), t) ∧
      Filled r t i q.deviceOps) ∨
    ((∀ i ∈ slots, (r.charDevices i).allocated = true) ∧
      searchSlot q.memory r q.name (some q.deviceOps) slots =
        some (-1, { r with errno := EMFILE })) := by
  induction slots with
  | nil => exact Or.inr ⟨fun i hi => absurd hi List.not_mem_nil, rfl⟩
  | cons i slots ih =>
    rw [searchSlot]
    by_cases free : (r.charDevices i).allocated = false
    · rw [if_pos free]
      obtain ⟨len, hlen, hle⟩ := q.strlen_name r
      rw [hlen, Option.bind_some, if_neg (Nat.not_lt.mpr hle)]
      obtain ⟨t, hfill, filled⟩ := fillSlot_filled q r i (Nat.le_refl deviceMaxpath)
      exact Or.inl ⟨i, t, free, hfill, filled⟩
    · rw [if_neg free]
      rcases ih with found | ⟨taken, hfail⟩
      · exact Or.inl found
      · refine Or.inr ⟨fun j hj => ?_, hfail⟩
        rcases List.mem_cons.mp hj with rfl | hj
        · exact eq_true_of_ne_false free
        · exact taken j hj

/-- A request gets a slot it asked for, or there is none and it leaves the table alone. -/
theorem register_cases (q : Request P) (r : Registry P) :
    (∃ i t, q.Gets r i ∧ q.register r = some ((i : Int), t) ∧ Filled r t i q.deviceOps) ∨
    ((∀ i, ¬ q.Gets r i) ∧ ∃ e, q.register r = some (-1, { r with errno := e })) := by
  rw [Request.register, registerChrdev]
  by_cases any : q.major.val = 0
  · rw [if_pos (by omega)]
    rcases searchSlot_cases q r (List.finRange deviceMax) with ⟨i, t, free, hfill, filled⟩ |
      ⟨taken, hfail⟩
    · exact Or.inl ⟨i, t, ⟨free, Or.inl any⟩, hfill, filled⟩
    · refine Or.inr ⟨fun i gets => ?_, EMFILE, hfail⟩
      have hi := taken i (List.mem_finRange i)
      rw [gets.1] at hi
      cases hi
  · rw [if_neg (by omega), if_pos (by omega)]
    have hslot : (⟨(q.major : Int).toNat, q.major.isLt⟩ : Fin deviceMax) = q.major := rfl
    rw [dif_pos (show (q.major : Int).toNat < deviceMax from q.major.isLt), hslot]
    by_cases free : (r.charDevices q.major).allocated = false
    · rw [if_pos free]
      obtain ⟨len, hlen, hle⟩ := q.strlen_name r
      have hbytes : (if len.toNat < deviceMaxpath then len.toNat else deviceMax - 1) ≤
          deviceMaxpath := by
        split
        · exact hle
        · decide
      rw [hlen, Option.bind_some]
      obtain ⟨t, hfill, filled⟩ := fillSlot_filled q r q.major hbytes
      exact Or.inl ⟨q.major, t, ⟨free, Or.inr rfl⟩, hfill, filled⟩
    · rw [if_neg free]
      refine Or.inr ⟨fun i gets => ?_, ERANGE, rfl⟩
      rcases gets.2 with hany | hslot'
      · exact any hany
      · subst hslot'
        exact free gets.1

/-- One registration and the value it returned. -/
def Step (r : Registry P) (call : Request P × Int) (t : Registry P) : Prop :=
  call.1.register r = some (call.2, t)

/-- What the successful calls returned, with the operations registered for it. -/
def granted (calls : List (Request P × Int)) : List (Int × P) :=
  (calls.filter fun call => call.2 ≠ -1).map fun call => (call.2, call.1.deviceOps)

def majors (calls : List (Request P × Int)) : List Int := (granted calls).map Prod.fst

/-- The major number asked for has been given away, or all of them have. -/
def Refused (calls : List (Request P × Int)) (q : Request P) : Prop :=
  (0 < q.major.val ∧ (q.major : Int) ∈ majors calls) ∨
    (q.major.val = 0 ∧ ∀ i : Fin deviceMax, (i : Int) ∈ majors calls)

/-- The table knows what has been granted. -/
structure Agrees (r : Registry P) (calls : List (Request P × Int)) : Prop where
  distinct : (majors calls).Nodup
  inside : ∀ v ∈ majors calls, ∃ i : Fin deviceMax, v = i
  taken : ∀ i : Fin deviceMax, (r.charDevices i).allocated = true ↔ (i : Int) ∈ majors calls
  fns : ∀ (i : Fin deviceMax) p, ((i : Int), p) ∈ granted calls →
    (r.charDevices i).chrdevFns = some p

theorem granted_append (calls : List (Request P × Int)) (call : Request P × Int) :
    granted (calls ++ [call]) =
      granted calls ++ if call.2 = -1 then [] else [(call.2, call.1.deviceOps)] := by
  rw [granted, List.filter_append, List.map_append, ← granted]
  by_cases failed : call.2 = -1 <;> simp [failed]

theorem empty_agrees : Agrees (emptyRegistry : Registry P) [] := by
  refine ⟨List.nodup_nil, fun v hv => absurd hv List.not_mem_nil, fun i => ?_,
    fun i p hp => absurd hp List.not_mem_nil⟩
  exact iff_of_false Bool.false_ne_true List.not_mem_nil

/-- The history refuses a request when the table has no slot for it. -/
theorem refused_iff {r : Registry P} {calls : List (Request P × Int)} (h : Agrees r calls)
    (q : Request P) : (∀ i, ¬ q.Gets r i) ↔ Refused calls q := by
  constructor
  · intro none
    have taken {i : Fin deviceMax} (asked : q.major.val = 0 ∨ q.major = i) :
        (i : Int) ∈ majors calls := by
      rw [← h.taken i]
      exact eq_true_of_ne_false fun free => none i ⟨free, asked⟩
    by_cases any : q.major.val = 0
    · exact Or.inr ⟨any, fun i => taken (Or.inl any)⟩
    · exact Or.inl ⟨Nat.pos_of_ne_zero any, taken (Or.inr rfl)⟩
  · rintro refused i ⟨free, asked⟩
    have hi : ¬ (i : Int) ∈ majors calls := by
      rw [← h.taken i, free]
      exact Bool.false_ne_true
    rcases refused with ⟨hpos, hmajor⟩ | ⟨-, all⟩
    · rcases asked with any | rfl
      · omega
      · exact hi hmajor
    · exact hi (all i)

/-- A call that grants nothing and leaves the table alone. -/
theorem Agrees.congr {r t : Registry P} {calls calls' : List (Request P × Int)}
    (h : Agrees r calls) (table : t.charDevices = r.charDevices)
    (same : granted calls' = granted calls) : Agrees t calls' := by
  have hmajors : majors calls' = majors calls := congrArg (List.map Prod.fst) same
  constructor
  · rw [hmajors]
    exact h.distinct
  · rw [hmajors]
    exact h.inside
  · rw [hmajors, table]
    exact h.taken
  · rw [same, table]
    exact h.fns

/-- A call that fills a free slot. -/
theorem Agrees.grant {r t : Registry P} {calls calls' : List (Request P × Int)}
    {i : Fin deviceMax} {p : P} (h : Agrees r calls)
    (free : (r.charDevices i).allocated = false) (filled : Filled r t i p)
    (more : granted calls' = granted calls ++ [((i : Int), p)]) : Agrees t calls' := by
  have hi : ¬ (i : Int) ∈ majors calls := by
    rw [← h.taken i, free]
    exact Bool.false_ne_true
  have hmajors : majors calls' = majors calls ++ [(i : Int)] := by
    rw [majors, more, List.map_append, ← majors]
    rfl
  constructor
  · rw [hmajors, List.nodup_append]
    refine ⟨h.distinct, List.pairwise_singleton _ _, ?_⟩
    rintro v hv w hw rfl
    rw [List.mem_singleton] at hw
    subst hw
    exact hi hv
  · intro v hv
    rw [hmajors, List.mem_append, List.mem_singleton] at hv
    rcases hv with hv | rfl
    · exact h.inside v hv
    · exact ⟨i, rfl⟩
  · intro j
    rw [hmajors, List.mem_append, List.mem_singleton]
    by_cases same : j = i
    · subst same
      exact iff_of_true filled.allocated (Or.inr rfl)
    · rw [filled.others j same, h.taken j]
      have hne : ¬ (j : Int) = i := fun heq => same (Fin.ext (by omega))
      exact ⟨Or.inl, fun hj => hj.resolve_right hne⟩
  · intro j q hq
    rw [more, List.mem_append, List.mem_singleton] at hq
    rcases hq with hq | hq
    · have hj : (j : Int) ∈ majors calls := List.mem_map_of_mem hq
      have hne : j ≠ i := by
        rintro rfl
        exact hi hj
      rw [filled.others j hne]
      exact h.fns j q hq
    · obtain ⟨hj, rfl⟩ := Prod.mk.inj hq
      have same : j = i := Fin.ext (by omega)
      rw [same]
      exact filled.chrdevFns

/-- A request has one outcome. -/
theorem step_unique {r t t' : Registry P} {q : Request P} {v w : Int} (step : Step r (q, v) t)
    (heq : q.register r = some (w, t')) : v = w ∧ t = t' := by
  have hpair := Option.some.inj (step.symm.trans heq)
  exact ⟨congrArg Prod.fst hpair, congrArg Prod.snd hpair⟩

theorem step_agrees {r t : Registry P} {calls : List (Request P × Int)}
    {call : Request P × Int} (h : Agrees r calls) (step : Step r call t) :
    Agrees t (calls ++ [call]) := by
  obtain ⟨q, v⟩ := call
  rcases register_cases q r with ⟨i, t', gets, heq, filled⟩ | ⟨-, e, heq⟩
  · obtain ⟨rfl, rfl⟩ := step_unique step heq
    have hne : ¬ (i : Int) = -1 := by omega
    apply h.grant gets.1 filled
    rw [granted_append, if_neg hne]
  · obtain ⟨rfl, rfl⟩ := step_unique step heq
    have same : granted (calls ++ [(q, (-1 : Int))]) = granted calls := by
      rw [granted_append, if_pos rfl, List.append_nil]
    exact @Agrees.congr _ r _ _ _ h rfl same

theorem run_agrees {r t : Registry P} {past calls : List (Request P × Int)} (h : Agrees r past)
    (run : Run Step r calls t) : Agrees t (past ++ calls) := by
  induction run generalizing past with
  | nil =>
    rw [List.append_nil]
    exact h
  | cons step _ ih =>
    have hnext := ih (step_agrees h step)
    rw [List.append_assoc] at hnext
    exact hnext

/-- What a call on a registered driver comes to. -/
def answerOf (r : Registry P) (fn : Option F) (buf length : U32) : Answer F × Registry P :=
  match fn with
  | some fn => (.invoke fn buf length, r)
  | none => (.value (-1), { r with errno := ENOSYS })

/-- The table behaves as the calls that were made promise. -/
structure Keeps (F : Type v) (r : Registry P) (calls : List (Request P × Int)) : Prop where
  distinct : (majors calls).Nodup
  inside : ∀ v ∈ majors calls, 0 ≤ v ∧ v ≤ 9
  returns : ∀ q : Request P, ∃ v t, Step r (q, v) t
  refuses : ∀ q v t, Step r (q, v) t → (v = -1 ↔ Refused calls q)
  unchanged : ∀ q t, Step r (q, -1) t → t.charDevices = r.charDevices
  others : ∀ q v t, Step r (q, v) t → v ≠ -1 → ∀ j : Fin deviceMax, (j : Int) ≠ v →
    t.charDevices j = r.charDevices j
  dispatch : ∀ v p, (v, p) ∈ granted calls → ∀ (ops : P → ChrdevOps F) buf length,
    chrdevRead ops r v buf length = some (answerOf r (ops p).readChrdev buf length) ∧
    chrdevWrite ops r v buf length = some (answerOf r (ops p).writeChrdev buf length)
  absent : ∀ i : Fin deviceMax, (i : Int) ∉ majors calls →
    ∀ (ops : P → ChrdevOps F) buf length,
      chrdevRead ops r i buf length = some (.value (-1), { r with errno := ENODEV }) ∧
      chrdevWrite ops r i buf length = some (.value (-1), { r with errno := ENODEV })

section Agrees

variable {r : Registry P} {calls : List (Request P × Int)}

theorem chrdevCall_slot (field : ChrdevOps F → Option F) (ops : P → ChrdevOps F)
    (r : Registry P) (i : Fin deviceMax) (buf length : U32) :
    chrdevCall field ops r i buf length =
      if (r.charDevices i).allocated then
        (r.charDevices i).chrdevFns.bind fun fns => some (answerOf r (field (ops fns)) buf length)
      else some (.value (-1), { r with errno := ENODEV }) := by
  have inside : 0 ≤ (i : Int) ∧ (i : Int).toNat < deviceMax :=
    ⟨Int.natCast_nonneg _, i.isLt⟩
  rw [chrdevCall, dif_pos inside]
  have hslot : (⟨(i : Int).toNat, inside.2⟩ : Fin deviceMax) = i := rfl
  rw [hslot]
  have hanswer (fns : P) : (match field (ops fns) with
      | some fn => some (.invoke fn buf length, r)
      | none => some (.value (-1), { r with errno := ENOSYS })) =
      some (answerOf r (field (ops fns)) buf length) := by
    cases field (ops fns) <;> rfl
  simp only [hanswer]

theorem Agrees.call (h : Agrees r calls) (field : ChrdevOps F → Option F)
    (ops : P → ChrdevOps F) {v : Int} {p : P} (hp : (v, p) ∈ granted calls) (buf length : U32) :
    chrdevCall field ops r v buf length = some (answerOf r (field (ops p)) buf length) := by
  have hv : v ∈ majors calls := List.mem_map_of_mem hp
  obtain ⟨i, rfl⟩ := h.inside v hv
  rw [chrdevCall_slot, if_pos ((h.taken i).mpr hv), h.fns i p hp, Option.bind_some]

theorem Agrees.call_absent (h : Agrees r calls) (field : ChrdevOps F → Option F)
    (ops : P → ChrdevOps F) {i : Fin deviceMax} (hi : (i : Int) ∉ majors calls)
    (buf length : U32) : chrdevCall field ops r i buf length =
      some (.value (-1), { r with errno := ENODEV }) := by
  rw [chrdevCall_slot, if_neg (fun taken => hi ((h.taken i).mp taken))]

theorem Agrees.keeps (h : Agrees r calls) : Keeps F r calls := by
  constructor
  · exact h.distinct
  · intro v hv
    obtain ⟨i, rfl⟩ := h.inside v hv
    have hi : i.val < 10 := i.isLt
    omega
  · intro q
    rcases register_cases q r with ⟨i, t, -, heq, -⟩ | ⟨-, e, heq⟩
    · exact ⟨_, _, heq⟩
    · exact ⟨_, _, heq⟩
  · intro q v t step
    rw [← refused_iff h]
    rcases register_cases q r with ⟨i, t', gets, heq, -⟩ | ⟨none, e, heq⟩
    · obtain ⟨rfl, -⟩ := step_unique step heq
      exact iff_of_false (by omega) fun none => none i gets
    · exact iff_of_true (step_unique step heq).1 none
  · intro q t step
    rcases register_cases q r with ⟨i, t', -, heq, -⟩ | ⟨-, e, heq⟩
    · have hv := (step_unique step heq).1
      omega
    · obtain ⟨-, rfl⟩ := step_unique step heq
      rfl
  · intro q v t step hv j hj
    rcases register_cases q r with ⟨i, t', -, heq, filled⟩ | ⟨-, e, heq⟩
    · obtain ⟨rfl, rfl⟩ := step_unique step heq
      exact filled.others j fun hji => hj (congrArg (fun k : Fin deviceMax => (k : Int)) hji)
    · exact absurd (step_unique step heq).1 hv
  · exact fun v p hp ops buf length => ⟨h.call _ ops hp buf length, h.call _ ops hp buf length⟩
  · exact fun i hi ops buf length =>
      ⟨h.call_absent _ ops hi buf length, h.call_absent _ ops hi buf length⟩

end Agrees

/-- After any registrations the table keeps what they were promised. -/
theorem registry_keeps {calls : List (Request P × Int)} {r : Registry P}
    (run : Run Step emptyRegistry calls r) : Keeps F r calls :=
  (run_agrees empty_agrees run).keeps

end Registry

/-- A driver named `tty` that takes any slot and cannot be read. -/
def ttyRequest : Request Unit where
  memory a := if a = 0x10 then 0x74 else if a = 0x11 then 0x74 else if a = 0x12 then 0x79 else 0
  major := ⟨0, by decide⟩
  name := 0x10
  length := 3
  deviceOps := ()
  named := by
    refine ⟨fun k hk => ?_, rfl⟩
    match k, hk with
    | 0, _ => exact ⟨_, rfl, by decide⟩
    | 1, _ => exact ⟨_, rfl, by decide⟩
    | 2, _ => exact ⟨_, rfl, by decide⟩
  short := by decide

theorem two_drivers_kept : ∃ r, Run Step emptyRegistry [(ttyRequest, 0), (ttyRequest, 1)] r ∧
    Keeps Unit r [(ttyRequest, 0), (ttyRequest, 1)] := by
  have granted : ((ttyRequest.register emptyRegistry).bind fun first =>
      (ttyRequest.register first.2).map fun second => (first.1, second.1)) = some (0, 1) := by
    decide +kernel
  obtain ⟨first, hfirst, hmap⟩ := Option.bind_eq_some_iff.mp granted
  obtain ⟨second, hsecond, hpair⟩ := Option.map_eq_some_iff.mp hmap
  obtain ⟨v, r⟩ := first
  obtain ⟨w, t⟩ := second
  obtain ⟨rfl, rfl⟩ := Prod.mk.inj hpair
  have run : Run Step emptyRegistry [(ttyRequest, 0), (ttyRequest, 1)] t :=
    .cons hfirst (.cons hsecond (.nil t))
  exact ⟨t, run, registry_keeps run⟩

end CharDevices
