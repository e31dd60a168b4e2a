import Mathlib.Data.Finset.Card
import Mathlib.Data.List.Induction
import MissyMicro.LinkedRings
import MissyMicro.Multiboot

/-!
# The boot information block

`multiboot_data_init` finds the memory sizes and the memory map. A Multiboot 2 block is a
list of tags behind a header of 8 bytes, but the search adds 8 to a tag pointer, so it
begins at byte 64. It follows the sizes it reads there wherever they lead.
-/

namespace BootInformation

open LittleEndian LinkedRings Multiboot

def memszPresent : U32 := 0x0001
def mmapPresent : U32 := 0x0040

def mboot2TypetagEnd : U32 := 0x00
def mboot2TypetagMemsz : U32 := 0x04
def mboot2TypetagMmap : U32 := 0x06

def sizeofMultiboot2Tag : U32 := 8

/-- `tag->type`, promoted to `unsigned int`. -/
def tagType (mem : Bytes) (tag : U32) : U32 := (load16 mem tag.toNat).setWidth 32

def tagSize (mem : Bytes) (tag : U32) : U32 := load32 mem (tag.toNat + 4)

def nextTag (mem : Bytes) (tag : U32) : U32 := tag + ((tagSize mem tag + 7) &&& ~~~7)

def typeBytes (tag : U32) : List Nat := List.range' tag.toNat 2
def sizeBytes (tag : U32) : List Nat := List.range' (tag.toNat + 4) 4

/-- The returned pointer and the lines it printed. `reads` is a ghost record of the bytes of
the block that were read, latest first. -/
structure Search where
  tag : U32
  reads : List Nat
  puts : List String

/-- The loop of `mboot2_find_tag`. -/
def findTagFrom (mem : Bytes) (type : U32) : Nat → U32 → List Nat → Option Search
  | 0, _, _ => none
  | fuel + 1, tag, reads =>
    if tagType mem tag = mboot2TypetagEnd then some ⟨0, typeBytes tag ++ reads, []⟩
    else if tagType mem tag = type then some ⟨tag, typeBytes tag ++ reads, []⟩
    else findTagFrom mem type fuel (nextTag mem tag) (sizeBytes tag ++ (typeBytes tag ++ reads))

/-- `mb2_start` is the address of the block; adding 8 to it adds 8 tags. -/
def mboot2FindTag (fuel : Nat) (mem : Bytes) (mb2Start type : U32) : Option Search :=
  if mb2Start = 0 then some ⟨0, [], ["mb2_start is NULL"]⟩
  else findTagFrom mem type fuel (mb2Start + 8 * sizeofMultiboot2Tag) []

/-- `mb2_start` is `mbPtr` for both searches. -/
def multibootDataInit (fuel : Nat) (mem : Bytes) (st : MultibootState) (mbPtr magic : U32) :
    Option (Int × MultibootState) :=
  let st := { st with bootMagic := magic }
  if magic = multibootMagic then
    let st := { st with mbInf := mbPtr }
    let flags := load32 mem mbPtr.toNat
    if flags &&& memszPresent = 0 then some (-1, st)
    else
      let memorySz := load32 mem (mbPtr.toNat + 4) + load32 mem (mbPtr.toNat + 8)
      let st := { st with mbMemorySz := memorySz }
      if flags &&& mmapPresent = 0 then some (-1, st)
      else some (0, { st with mbMemoryMap := load32 mem (mbPtr.toNat + 48) })
  else if magic = multiboot2Magic then
    (mboot2FindTag fuel mem mbPtr mboot2TypetagMemsz).bind fun msize =>
      if msize.tag = 0 then some (-1, st)
      else
        let memorySz := load32 mem (msize.tag.toNat + 8) + load32 mem (msize.tag.toNat + 12)
        let st := { st with mbMemorySz := memorySz }
        (mboot2FindTag fuel mem mbPtr mboot2TypetagMmap).map fun mmap =>
          (if mmap.tag = 0 then -1 else 0, { st with mb2MemoryMap := mmap.tag })
  else some (-1, st)

section Search

variable {mem : Bytes} {type tag start : U32} {xs : List U32} {reads : List Nat}

/-- The search goes past this tag. -/
def Passed (mem : Bytes) (type tag : U32) : Prop :=
  tagType mem tag ≠ mboot2TypetagEnd ∧ tagType mem tag ≠ type

instance : Decidable (Passed mem type tag) :=
  inferInstanceAs (Decidable (tagType mem tag ≠ mboot2TypetagEnd ∧ tagType mem tag ≠ type))

def headerBytes (tag : U32) : List Nat := sizeBytes tag ++ typeBytes tag

theorem findTagFrom_stable (mem : Bytes) (type tag : U32) (reads : List Nat) :
    Stable (fun fuel => findTagFrom mem type fuel tag reads) := by
  intro fuel r h
  induction fuel generalizing tag reads with
  | zero => cases h
  | succ fuel ih =>
    dsimp only at h ih ⊢
    rw [findTagFrom] at h ⊢
    split at h
    · rename_i ended
      rwa [if_pos ended]
    · rename_i goes
      rw [if_neg goes]
      split at h
      · rename_i found
        rwa [if_pos found]
      · rename_i other
        rw [if_neg other]
        exact ih _ _ h

/-- The loop reads the headers of the tags that it passes. -/
theorem findTagFrom_walk {r : Search} (path : Path (nextTag mem) start xs tag)
    (passed : ∀ x ∈ xs, Passed mem type x)
    (stop : Returns (fun fuel => findTagFrom mem type fuel tag
      ((xs.reverse.flatMap headerBytes) ++ reads)) r) :
    Returns (fun fuel => findTagFrom mem type fuel start reads) r := by
  induction xs generalizing start reads with
  | nil =>
    cases path
    exact stop
  | cons x xs ih =>
    obtain ⟨rfl, path⟩ := path
    obtain ⟨goes, other⟩ := passed start List.mem_cons_self
    refine Returns.turn (fun fuel => ?_)
      (@ih _ (sizeBytes start ++ (typeBytes start ++ reads)) path
        (fun y hy => passed y (List.mem_cons_of_mem _ hy)) ?_)
    · rw [findTagFrom, if_neg goes, if_neg other]
    · rw [List.reverse_cons, List.flatMap_append, List.flatMap_singleton, headerBytes] at stop
      simpa only [List.append_assoc] using stop

/-- What the search returns at the first tag that it does not pass. -/
def atTag (mem : Bytes) (tag : U32) (reads : List Nat) : Search :=
  ⟨if tagType mem tag = mboot2TypetagEnd then 0 else tag, typeBytes tag ++ reads, []⟩

theorem findTagFrom_stops (stops : ¬ Passed mem type tag) :
    Returns (fun fuel => findTagFrom mem type fuel tag reads) (atTag mem tag reads) := by
  refine Returns.turn (g := fun _ => some (atTag mem tag reads)) (fun fuel => ?_)
    (.of_eq fun _ => rfl)
  rw [findTagFrom, atTag]
  by_cases ended : tagType mem tag = mboot2TypetagEnd
  · rw [if_pos ended, if_pos ended]
  · have found : tagType mem tag = type := by
      by_contra other
      exact stops ⟨ended, other⟩
    rw [if_neg ended, if_pos found, if_neg ended]

/-- A search that returns has walked to a tag that it does not pass. -/
theorem findTagFrom_sound {fuel : Nat} {r : Search}
    (h : findTagFrom mem type fuel start reads = some r) :
    ∃ xs tag, Path (nextTag mem) start xs tag ∧ (∀ x ∈ xs, Passed mem type x) ∧
      ¬ Passed mem type tag ∧ r = atTag mem tag (xs.reverse.flatMap headerBytes ++ reads) := by
  induction fuel generalizing start reads with
  | zero => cases h
  | succ fuel ih =>
    rw [findTagFrom] at h
    split at h
    · rename_i ended
      refine ⟨[], start, rfl, fun x hx => absurd hx List.not_mem_nil, fun h => h.1 ended, ?_⟩
      rw [atTag, if_pos ended]
      exact (Option.some.inj h).symm
    · rename_i goes
      split at h
      · rename_i found
        refine ⟨[], start, rfl, fun x hx => absurd hx List.not_mem_nil, fun h => h.2 found, ?_⟩
        rw [atTag, if_neg goes]
        exact (Option.some.inj h).symm
      · rename_i other
        obtain ⟨xs, tag, path, passed, stops, rfl⟩ := ih h
        refine ⟨start :: xs, tag, ⟨rfl, path⟩, ?_, stops, ?_⟩
        · intro x hx
          rcases List.mem_cons.mp hx with rfl | hx
          · exact ⟨goes, other⟩
          · exact passed x hx
        · rw [List.reverse_cons, List.flatMap_append, List.flatMap_singleton, headerBytes]
          simp only [List.append_assoc]

/-- The search that begins at byte 64 of the block comes to `x`, past the tags in `xs`. -/
structure Walk (mem : Bytes) (type start : U32) (xs : List U32) (x : U32) : Prop where
  path : Path (nextTag mem) (start + 8 * sizeofMultiboot2Tag) xs x
  passed : ∀ y ∈ xs, Passed mem type y

theorem mboot2FindTag_iff {r : Search} (placed : start ≠ 0) :
    Returns (fun fuel => mboot2FindTag fuel mem start type) r ↔
      ∃ xs tag, Walk mem type start xs tag ∧ ¬ Passed mem type tag ∧
        r = atTag mem tag (xs.reverse.flatMap headerBytes) := by
  have loop (fuel : Nat) : mboot2FindTag fuel mem start type =
      findTagFrom mem type fuel (start + 8 * sizeofMultiboot2Tag) [] := by
    rw [mboot2FindTag, if_neg placed]
  simp only [loop]
  constructor
  · rintro ⟨n, hn⟩
    obtain ⟨xs, tag, path, passed, stops, rfl⟩ := findTagFrom_sound (hn n (Nat.le_refl n))
    refine ⟨xs, tag, ⟨path, passed⟩, stops, ?_⟩
    rw [List.append_nil]
  · rintro ⟨xs, tag, ⟨path, passed⟩, stops, rfl⟩
    refine findTagFrom_walk path passed ?_
    rw [List.append_nil]
    exact findTagFrom_stops stops

end Search

def totalSize (mem : Bytes) (start : U32) : Nat := (load32 mem start.toNat).toNat

/-- A header of 8 bytes, the tags in order, and a tag of type 0. -/
structure InfoBlock (mem : Bytes) (start : U32) (tags : List U32) (last : U32) : Prop where
  placed : start ≠ 0
  bound : start.toNat + totalSize mem start ≤ 2 ^ 32
  chain : Path (nextTag mem) (start + sizeofMultiboot2Tag) tags last
  types : ∀ x ∈ tags, tagType mem x ≠ mboot2TypetagEnd
  ended : tagType mem last = mboot2TypetagEnd
  sizes : ∀ x ∈ tags ++ [last], 8 ≤ (tagSize mem x).toNat
  inside : ∀ x ∈ tags ++ [last], start.toNat + 8 ≤ x.toNat ∧
    x.toNat + (tagSize mem x).toNat ≤ start.toNat + totalSize mem start

/-- The address of the first tag of the type, and the null pointer when there is none. -/
def firstTag (mem : Bytes) (tags : List U32) (type : U32) : U32 :=
  (tags.find? fun x => tagType mem x = type).getD 0

section Blocks

variable {mem : Bytes} {start type last : U32} {tags : List U32}

theorem firstTag_of_cut {us vs : List U32} {f : U32} (cut : tags = us ++ f :: vs)
    (before : ∀ y ∈ us, tagType mem y ≠ type) (found : tagType mem f = type) :
    firstTag mem tags type = f := by
  rw [firstTag, List.find?_eq_some_iff_append.mpr]
  · rfl
  · exact ⟨decide_eq_true found, us, vs, cut, fun y hy => by simpa using before y hy⟩

theorem firstTag_of_absent (absent : ∀ x ∈ tags, tagType mem x ≠ type) :
    firstTag mem tags type = 0 := by
  rw [firstTag, List.find?_eq_none.mpr fun x hx => by simpa using absent x hx]
  rfl

/-- Either a first tag of the type or none. -/
theorem firstTag_cases (mem : Bytes) (tags : List U32) (type : U32) :
    (∃ us f vs, tags = us ++ f :: vs ∧ (∀ y ∈ us, tagType mem y ≠ type) ∧
      tagType mem f = type) ∨ ∀ x ∈ tags, tagType mem x ≠ type := by
  induction tags with
  | nil => exact Or.inr fun x hx => absurd hx List.not_mem_nil
  | cons x tags ih =>
    by_cases found : tagType mem x = type
    · exact Or.inl ⟨[], x, tags, rfl, fun y hy => absurd hy List.not_mem_nil, found⟩
    · have ahead {us : List U32} (h : ∀ y ∈ us, tagType mem y ≠ type) :
          ∀ y ∈ x :: us, tagType mem y ≠ type := by
        intro y hy
        rcases List.mem_cons.mp hy with rfl | hy
        · exact found
        · exact h y hy
      rcases ih with ⟨us, f, vs, rfl, before, hf⟩ | absent
      · exact Or.inl ⟨x :: us, f, vs, rfl, ahead before, hf⟩
      · exact Or.inr (ahead absent)

/-- The search comes to a tag of the list with none of the type before it. -/
def JoinsInTime (mem : Bytes) (type start : U32) (tags : List U32) (last : U32) : Prop :=
  ∃ us x vs, tags ++ [last] = us ++ x :: vs ∧ (∀ y ∈ us, tagType mem y ≠ type) ∧
    ∃ xs, Walk mem type start xs x

/-- The search comes to a type of 0, or to the type at the null pointer. -/
def EndsAnywhere (mem : Bytes) (type start : U32) : Prop :=
  ∃ xs x, Walk mem type start xs x ∧
    (tagType mem x = mboot2TypetagEnd ∨ x = 0 ∧ tagType mem x = type)

/-- Tags between the place where the search joins the list and the tag where it stops. -/
theorem Walk.follow {xs ys : List U32} {x y : U32} (walk : Walk mem type start xs x)
    (path : Path (nextTag mem) x ys y) (passed : ∀ z ∈ ys, Passed mem type z) :
    Walk mem type start (xs ++ ys) y := by
  constructor
  · exact Path.append_iff.mpr ⟨x, walk.path, path⟩
  · intro z hz
    rcases List.mem_append.mp hz with hz | hz
    · exact walk.passed z hz
    · exact passed z hz

/-- Once in the list, the search follows it to the first tag that it does not pass. -/
theorem JoinsInTime.reaches {us vs : List U32} {f : U32}
    (joins : JoinsInTime mem type start tags last)
    (path : Path (nextTag mem) (start + sizeofMultiboot2Tag) us f)
    (cut : tags ++ [last] = us ++ f :: vs) (passed : ∀ y ∈ us, Passed mem type y)
    (stays : tagType mem f = type ∨ vs = []) : ∃ xs, Walk mem type start xs f := by
  obtain ⟨us', x, vs', cut', before, xs, walk⟩ := joins
  rw [cut] at cut'
  rcases List.append_eq_append_iff.mp cut' with ⟨ws, rfl, hf⟩ | ⟨ws, rfl, hx⟩
  · cases ws with
    | nil =>
      obtain ⟨rfl, _⟩ := List.cons.inj hf
      exact ⟨xs, walk⟩
    | cons w ws =>
      obtain ⟨rfl, rest⟩ := List.cons.inj hf
      rcases stays with found | rfl
      · exact absurd found (before f (List.mem_append_right _ List.mem_cons_self))
      · cases ws <;> cases rest
  · cases ws with
    | nil =>
      obtain ⟨rfl, _⟩ := List.cons.inj hx
      exact ⟨xs, walk⟩
    | cons w ws =>
      obtain ⟨rfl, _⟩ := List.cons.inj hx
      refine ⟨xs ++ x :: ws, walk.follow ⟨rfl, path.split.2⟩ fun y hy => ?_⟩
      exact passed y (List.mem_append_right us' hy)

variable (block : InfoBlock mem start tags last)

include block

theorem InfoBlock.tag_ne_zero {x : U32} (hx : x ∈ tags) : x ≠ 0 := by
  rintro rfl
  have hle := (block.inside 0 (List.mem_append_left _ hx)).1
  have hzero : (0 : U32).toNat = 0 := rfl
  omega

theorem InfoBlock.passed {us : List U32} (listed : ∀ y ∈ us, y ∈ tags)
    (before : ∀ y ∈ us, tagType mem y ≠ type) : ∀ y ∈ us, Passed mem type y :=
  fun y hy => ⟨block.types y (listed y hy), before y hy⟩

/-- `mboot2_find_tag` returns the first tag of the type if and only if its search joins the
list before that tag; where the list has none, ending anywhere will do. -/
theorem mboot2FindTag_first_iff :
    (∃ r, Returns (fun fuel => mboot2FindTag fuel mem start type) r ∧
        r.tag = firstTag mem tags type) ↔
      JoinsInTime mem type start tags last ∨
        (∀ x ∈ tags, tagType mem x ≠ type) ∧ EndsAnywhere mem type start := by
  simp only [mboot2FindTag_iff block.placed]
  constructor
  · rintro ⟨_, ⟨xs, tag, walk, stops, rfl⟩, hr⟩
    rw [atTag] at hr
    rcases firstTag_cases mem tags type with ⟨us, f, vs, cut, before, found⟩ | absent
    · rw [firstTag_of_cut cut before found] at hr
      have hf : f ∈ tags := cut ▸ List.mem_append_right us List.mem_cons_self
      by_cases ended : tagType mem tag = mboot2TypetagEnd
      · rw [if_pos ended] at hr
        exact absurd hr.symm (block.tag_ne_zero hf)
      · rw [if_neg ended] at hr
        subst hr
        refine Or.inl ⟨us, tag, vs ++ [last], ?_, before, xs, walk⟩
        rw [cut, List.append_assoc, List.cons_append]
    · rw [firstTag_of_absent absent] at hr
      refine Or.inr ⟨absent, xs, tag, walk, ?_⟩
      by_cases ended : tagType mem tag = mboot2TypetagEnd
      · exact Or.inl ended
      · rw [if_neg ended] at hr
        refine Or.inr ⟨hr, ?_⟩
        by_contra other
        exact stops ⟨ended, other⟩
  · intro condition
    have stop {xs : List U32} {tag : U32} (walk : Walk mem type start xs tag)
        (stops : ¬ Passed mem type tag) (result : (if tagType mem tag = mboot2TypetagEnd then 0
          else tag) = firstTag mem tags type) :
        ∃ r : Search, (∃ xs tag, Walk mem type start xs tag ∧ ¬ Passed mem type tag ∧
          r = atTag mem tag (xs.reverse.flatMap headerBytes)) ∧ r.tag = firstTag mem tags type :=
      ⟨_, ⟨xs, tag, walk, stops, rfl⟩, result⟩
    rcases firstTag_cases mem tags type with ⟨us, f, vs, cut, before, found⟩ | absent
    · have hf : f ∈ tags := cut ▸ List.mem_append_right us List.mem_cons_self
      have joins : JoinsInTime mem type start tags last := by
        rcases condition with joins | ⟨absent, _⟩
        · exact joins
        · exact absurd found (absent f hf)
      have listed : ∀ y ∈ us, y ∈ tags := fun y hy => cut ▸ List.mem_append_left _ hy
      have cut' : tags ++ [last] = us ++ f :: (vs ++ [last]) := by
        rw [cut, List.append_assoc, List.cons_append]
      have path : Path (nextTag mem) (start + sizeofMultiboot2Tag) us f := by
        have chain := block.chain
        rw [cut] at chain
        exact chain.split.1
      obtain ⟨xs, walk⟩ := joins.reaches path cut' (block.passed listed before) (Or.inl found)
      refine stop walk (fun h => h.2 found) ?_
      rw [if_neg (block.types f hf), firstTag_of_cut cut before found]
    · have nothing := firstTag_of_absent absent
      rcases condition with joins | ⟨_, xs, x, walk, ended | ⟨rfl, found⟩⟩
      · obtain ⟨xs, walk⟩ := joins.reaches block.chain rfl
          (block.passed (fun y hy => hy) absent) (Or.inr rfl)
        refine stop walk (fun h => h.1 block.ended) ?_
        rw [if_pos block.ended, nothing]
      · refine stop walk (fun h => h.1 ended) ?_
        rw [if_pos ended, nothing]
      · refine stop walk (fun h => h.2 found) ?_
        rw [ite_self, nothing]

end Blocks

/-- A command line of 48 characters puts the second tag at byte 64. -/
def alignedWords : List U32 := [104, 0, 1, 56, 0, 0, 0, 0, 0, 0, 0, 0, 0, 0, 0, 0,
  4, 16, 640, 130048, 0, 8]

theorem alignedWords_block :
    InfoBlock (ofWords 0x10000 alignedWords) 0x10000 [0x10008, 0x10040] 0x10050 := by
  constructor
  · decide
  · decide +kernel
  · decide +kernel
  · simp only [List.forall_mem_cons, List.not_mem_nil, false_implies, implies_true]
    decide +kernel
  · decide +kernel
  · simp only [List.cons_append, List.nil_append, List.forall_mem_cons, List.not_mem_nil,
      false_implies, implies_true]
    decide +kernel
  · simp only [List.cons_append, List.nil_append, List.forall_mem_cons, List.not_mem_nil,
      false_implies, implies_true]
    decide +kernel

theorem mboot2FindTag_first_aligned :
    ∃ r, Returns (fun fuel => mboot2FindTag fuel (ofWords 0x10000 alignedWords) 0x10000
        mboot2TypetagMemsz) r ∧
      r.tag = firstTag (ofWords 0x10000 alignedWords) [0x10008, 0x10040] mboot2TypetagMemsz := by
  refine (mboot2FindTag_first_iff alignedWords_block).mpr (Or.inl ?_)
  refine ⟨[0x10008], 0x10040, [0x10050], rfl, List.forall_mem_singleton.mpr ?_, [], rfl, ?_⟩
  · decide +kernel
  · exact List.forall_mem_nil _

/-- The memory size tag right behind the header, and nothing after the end tag. -/
def shortWords : List U32 := [32, 0, 4, 16, 640, 130048, 0, 8]

theorem mboot2FindTag_misses :
    InfoBlock (ofWords 0x10000 shortWords) 0x10000 [0x10008] 0x10018 ∧
      ¬ ∃ r, Returns (fun fuel => mboot2FindTag fuel (ofWords 0x10000 shortWords) 0x10000
          mboot2TypetagMemsz) r ∧
        r.tag = firstTag (ofWords 0x10000 shortWords) [0x10008] mboot2TypetagMemsz := by
  constructor
  · constructor
    · decide
    · decide +kernel
    · decide +kernel
    · simp only [List.forall_mem_cons, List.not_mem_nil, false_implies, implies_true]
      decide +kernel
    · decide +kernel
    · simp only [List.cons_append, List.nil_append, List.forall_mem_cons, List.not_mem_nil,
        false_implies, implies_true]
      decide +kernel
    · simp only [List.cons_append, List.nil_append, List.forall_mem_cons, List.not_mem_nil,
        false_implies, implies_true]
      decide +kernel
  · rintro ⟨r, returns, hr⟩
    have placed : (0x10000 : U32) ≠ 0 := by decide
    have null := (@mboot2FindTag_iff (ofWords 0x10000 shortWords) _ _ _ placed).mpr
      ⟨[], 0x10040, ⟨rfl, List.forall_mem_nil _⟩,
        fun (h : Passed _ mboot2TypetagMemsz _) => h.1 (by decide +kernel), rfl⟩
    rw [returns.unique null] at hr
    revert hr
    decide +kernel

section Reads

variable {mem : Bytes} {start type : U32}

/-- Header `k` from byte 64 on, where each is followed at its size, rounded up to 8. -/
def headerAt (mem : Bytes) (start : U32) (k : Nat) : U32 :=
  (nextTag mem)^[k] (start + 8 * sizeofMultiboot2Tag)

/-- `n` bytes from `x` on lie in the block. -/
def InBlock (mem : Bytes) (start x : U32) (n : Nat) : Prop :=
  start.toNat ≤ x.toNat ∧ x.toNat + n ≤ start.toNat + totalSize mem start

/-- The block has room for `total_size / 8` headers. One of the first ones up to that number has
a type that ends the search, and the sizes before it do not lead out of the block. -/
def EndsInRoom (mem : Bytes) (type start : U32) : Prop :=
  ∃ k ≤ totalSize mem start / 8, ¬ Passed mem type (headerAt mem start k) ∧
    InBlock mem start (headerAt mem start k) 2 ∧
    ∀ j < k, InBlock mem start (headerAt mem start j) 8

theorem typeBytes_inside {tag : U32} {lo hi : Nat} :
    (∀ b ∈ typeBytes tag, lo ≤ b ∧ b < hi) ↔ lo ≤ tag.toNat ∧ tag.toNat + 2 ≤ hi := by
  simp only [typeBytes, List.mem_range'_1]
  constructor
  · intro h
    have first := h tag.toNat (by omega)
    have second := h (tag.toNat + 1) (by omega)
    omega
  · rintro h b hb
    omega

theorem headerBytes_inside {tag : U32} {lo hi : Nat} :
    (∀ b ∈ headerBytes tag, lo ≤ b ∧ b < hi) ↔ lo ≤ tag.toNat ∧ tag.toNat + 8 ≤ hi := by
  simp only [headerBytes, List.forall_mem_append, typeBytes_inside, sizeBytes, List.mem_range'_1]
  constructor
  · rintro ⟨hsize, htype⟩
    have last := hsize (tag.toNat + 7) (by omega)
    omega
  · rintro h
    exact ⟨fun b hb => by omega, by omega⟩

theorem path_headers (mem : Bytes) (start : U32) (k : Nat) : Path (nextTag mem)
    (start + 8 * sizeofMultiboot2Tag) ((List.range k).map (headerAt mem start))
    (headerAt mem start k) := by
  induction k with
  | zero => rfl
  | succ k ih =>
    rw [List.range_succ, List.map_append]
    refine Path.append_iff.mpr ⟨_, ih, rfl, ?_⟩
    exact (Function.iterate_succ_apply' (nextTag mem) k _).symm

/-- Headers are 8 bytes apart, or a multiple of that. -/
theorem headerAt_mod (mem : Bytes) (start : U32) (k : Nat) :
    (headerAt mem start k).toNat % 8 = start.toNat % 8 := by
  induction k with
  | zero =>
    have front : (8 * sizeofMultiboot2Tag).toNat = 64 := rfl
    have eq : headerAt mem start 0 = start + 8 * sizeofMultiboot2Tag := rfl
    rw [eq, BitVec.toNat_add, front]
    omega
  | succ k ih =>
    have rounded (x : U32) : (x &&& ~~~7).toNat % 8 = 0 := by
      have low : (x &&& ~~~7) &&& 7 = 0 := by
        rw [BitVec.and_assoc]
        exact BitVec.and_zero
      have seven : (7 : U32).toNat = 2 ^ 3 - 1 := rfl
      have nat := congrArg BitVec.toNat low
      rwa [BitVec.toNat_and, seven, Nat.and_two_pow_sub_one_eq_mod] at nat
    have step : headerAt mem start (k + 1) = nextTag mem (headerAt mem start k) :=
      Function.iterate_succ_apply' (nextTag mem) k _
    have multiple := rounded (tagSize mem (headerAt mem start k) + 7)
    rw [step, nextTag, BitVec.toNat_add]
    omega

/-- A header that comes again never ends the search, so those before the end are all different. -/
theorem headerAt_inj {k : Nat} (passed : ∀ j < k, Passed mem type (headerAt mem start j))
    (stops : ¬ Passed mem type (headerAt mem start k)) {i j : Nat} (hi : i < k) (hj : j < k)
    (same : headerAt mem start i = headerAt mem start j) : i = j := by
  have later {i j : Nat} (hj : j < k) (hlt : i < j)
      (same : headerAt mem start i = headerAt mem start j) : False := by
    have again : headerAt mem start (k - j + i) = headerAt mem start (k - j + j) := by
      rw [headerAt, headerAt, Function.iterate_add_apply, Function.iterate_add_apply]
      exact congrArg ((nextTag mem)^[k - j]) same
    rw [Nat.sub_add_cancel (Nat.le_of_lt hj)] at again
    exact stops (again ▸ passed _ (by omega))
  rcases Nat.lt_trichotomy i j with hlt | heq | hgt
  · exact (later hj hlt same).elim
  · exact heq
  · exact (later hi hgt same.symm).elim

/-- There is no room for more of them. -/
theorem headers_le {k : Nat} (passed : ∀ j < k, Passed mem type (headerAt mem start j))
    (stops : ¬ Passed mem type (headerAt mem start k))
    (inside : ∀ j < k, InBlock mem start (headerAt mem start j) 8) :
    k ≤ totalSize mem start / 8 := by
  have place (j : Nat) (hj : j < k) :
      ((headerAt mem start j).toNat - start.toNat) / 8 < totalSize mem start / 8 := by
    obtain ⟨above, below⟩ := inside j hj
    have aligned := headerAt_mod mem start j
    omega
  have distinct : ∀ i ∈ Finset.range k, ∀ j ∈ Finset.range k,
      ((headerAt mem start i).toNat - start.toNat) / 8 =
        ((headerAt mem start j).toNat - start.toNat) / 8 → i = j := by
    intro i hi j hj same
    have aboveI := (inside i (Finset.mem_range.mp hi)).1
    have aboveJ := (inside j (Finset.mem_range.mp hj)).1
    have alignedI := headerAt_mod mem start i
    have alignedJ := headerAt_mod mem start j
    refine headerAt_inj passed stops (Finset.mem_range.mp hi) (Finset.mem_range.mp hj) ?_
    exact BitVec.eq_of_toNat_eq (by omega)
  have room : (Finset.range k).card ≤ (Finset.range (totalSize mem start / 8)).card :=
    Finset.card_le_card_of_injOn _
      (fun j hj => Finset.mem_range.mpr (place j (Finset.mem_range.mp hj))) distinct
  rwa [Finset.card_range, Finset.card_range] at room

/-- The bytes that the search has read when it stops at header `k`. -/
theorem reads_inside {k : Nat} :
    (∀ b ∈ (atTag mem (headerAt mem start k)
        (((List.range k).map (headerAt mem start)).reverse.flatMap headerBytes)).reads,
      start.toNat ≤ b ∧ b < start.toNat + totalSize mem start) ↔
      InBlock mem start (headerAt mem start k) 2 ∧
        ∀ j < k, InBlock mem start (headerAt mem start j) 8 := by
  rw [atTag, List.forall_mem_append, typeBytes_inside]
  refine and_congr_right fun _ => ?_
  simp only [List.mem_flatMap, List.mem_reverse, List.mem_map, List.mem_range]
  constructor
  · exact fun read j hj => headerBytes_inside.mp fun b hb => read b ⟨_, ⟨j, hj, rfl⟩, hb⟩
  · rintro inside b ⟨_, ⟨j, hj, rfl⟩, hb⟩
    exact headerBytes_inside.mpr (inside j hj) b hb

/-- A walk of `k` headers is the first `k` ones. -/
theorem Walk.headers {xs : List U32} {tag : U32} (walk : Walk mem type start xs tag) :
    xs = (List.range xs.length).map (headerAt mem start) ∧
      tag = headerAt mem start xs.length := by
  have path := walk.path
  refine ⟨?_, path.iterate.1.symm⟩
  induction xs using List.reverseRecOn generalizing tag with
  | nil => rfl
  | append_singleton xs x ih =>
    obtain ⟨before, _⟩ := path.split
    have walk' : Walk mem type start xs x :=
      ⟨before, fun y hy => walk.passed y (List.mem_append_left _ hy)⟩
    rw [List.length_append, List.length_singleton, List.range_succ, List.map_append,
      ← ih walk' before, List.map_singleton, headerAt, before.iterate.1]

/-- The search returns, and reads nothing outside the block, if and only if there is no block
or one of the headers that have room in it ends the search in time. -/
theorem mboot2FindTag_confined_iff (mem : Bytes) (start type : U32) :
    (∃ r, Returns (fun fuel => mboot2FindTag fuel mem start type) r ∧
        ∀ b ∈ r.reads, start.toNat ≤ b ∧ b < start.toNat + totalSize mem start) ↔
      start = 0 ∨ EndsInRoom mem type start := by
  by_cases placed : start = 0
  · subst placed
    refine iff_of_true ⟨_, .of_eq fun _ => rfl, fun b hb => absurd hb List.not_mem_nil⟩ (Or.inl rfl)
  · simp only [mboot2FindTag_iff placed, placed, false_or]
    constructor
    · rintro ⟨_, ⟨xs, tag, walk, stops, rfl⟩, inside⟩
      obtain ⟨all, rfl⟩ := walk.headers
      have passed := walk.passed
      generalize xs.length = k at *
      subst all
      obtain ⟨last, headers⟩ := reads_inside.mp inside
      have passed' : ∀ j < k, Passed mem type (headerAt mem start j) := fun j hj =>
        passed _ (List.mem_map_of_mem (List.mem_range.mpr hj))
      exact ⟨k, headers_le passed' stops headers, stops, last, headers⟩
    · rintro ⟨k, _, stops, last, headers⟩
      -- the search ends at the first header that it does not pass
      have ends : ∃ k, ¬ Passed mem type (headerAt mem start k) := ⟨k, stops⟩
      have least : Nat.find ends ≤ k := Nat.find_min' ends stops
      refine ⟨_, ⟨_, _, ⟨path_headers mem start (Nat.find ends), ?_⟩, Nat.find_spec ends, rfl⟩, ?_⟩
      · intro y hy
        obtain ⟨j, hj, rfl⟩ := List.mem_map.mp hy
        exact not_not.mp (Nat.find_min ends (List.mem_range.mp hj))
      · refine reads_inside.mpr ⟨?_, fun j hj => headers j (Nat.lt_of_lt_of_le hj least)⟩
        rcases Nat.lt_or_eq_of_le least with before | same
        · obtain ⟨above, below⟩ := headers _ before
          exact ⟨above, by omega⟩
        · rwa [same]

/-- A tag of size 0 is its own successor. -/
theorem Walk.stuck {xs : List U32} {tag : U32} (walk : Walk mem type start xs tag)
    (same : nextTag mem (start + 8 * sizeofMultiboot2Tag) = start + 8 * sizeofMultiboot2Tag) :
    tag = start + 8 * sizeofMultiboot2Tag := by
  have path := walk.path
  clear walk
  induction xs with
  | nil => exact path.symm
  | cons x xs ih =>
    obtain ⟨rfl, path⟩ := path
    rw [same] at path
    exact ih path

end Reads

/-- At byte 64 of the block a tag of type 1 and of size 0. -/
def loopWords : List U32 := [88, 0, 1, 0, 0, 0, 0, 0, 0, 0, 0, 0, 0, 0, 0, 0, 1, 0, 0, 0, 0, 8]

theorem mboot2FindTag_loops : ¬ ∃ r, Returns (fun fuel =>
    mboot2FindTag fuel (ofWords 0x10000 loopWords) 0x10000 mboot2TypetagMemsz) r := by
  rintro ⟨r, returns⟩
  obtain ⟨xs, tag, walk, stops, _⟩ := (mboot2FindTag_iff (by decide)).mp returns
  rw [walk.stuck (by decide +kernel)] at stops
  revert stops
  decide +kernel

end BootInformation
