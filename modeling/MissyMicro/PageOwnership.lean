import MissyMicro.PageMapping

/-!
# Frames of the page tables

Every present table has a present entry, so a table exists exactly as long as one
of its pages is mapped. Mapping pages and unmapping them again therefore gives
back every block taken for a table, in whatever order the pages go.
-/

namespace PageOwnership

open PackedBits BlockAllocator Words Mmu PageTables PageMapping TransitionRuns
open BlockAllocator.Balloc

/-- No present table is empty. -/
def Occupied (s : Machine) : Prop := ∀ t, t < 1023 → Present (s.pde t) → ¬ s.Empty t

theorem not_empty_iff {s : Machine} {t : Nat} (present : Present (s.pde t)) :
    ¬ s.Empty t ↔ ∃ p, p < 1024 ∧ entry s t p ≠ none := by
  constructor
  · intro h
    by_contra none_left
    apply h
    intro p hp found
    apply none_left
    refine ⟨p, hp, ?_⟩
    rw [entry, if_pos ⟨present, found⟩]
    exact Option.some_ne_none _
  · rintro ⟨p, hp, h⟩ empty
    apply h
    rw [entry, if_neg (fun h => empty p hp h.2)]

/-- A page that is mapped has a table. -/
theorem present_of_entry {s : Machine} {t p : Nat} (h : entry s t p ≠ none) :
    Present (s.pde t) := by
  by_contra absent
  apply h
  rw [entry, if_neg (fun h => absent h.1)]

section Preserved

variable {s : Machine} (owned : Owned s) {t : Nat} (ht : t < 1023)

include owned

include ht

theorem map_occupied (occupied : Occupied s) (supplied : Supplied s t) {p : Nat} (hp : p < 1024)
    (phys : U32) : Occupied ((s.withTable t).setPte t p (phys ||| 3)) := by
  have owned' := withTable_owned owned ht (supplied.spare owned)
  have present := withTable_present (supplied.spare owned)
  intro t' ht' present'
  rw [not_empty_iff present']
  rw [setPte_pde owned' ht present] at present'
  by_cases h : t = t'
  · subst t'
    refine ⟨p, hp, ?_⟩
    rw [setPte_entry owned' ht present _ ht', if_pos ⟨rfl, rfl⟩, if_pos (present_or_flags phys)]
    exact Option.some_ne_none _
  · rw [withTable_pde_other (supplied.spare owned) h] at present'
    obtain ⟨q, hq, hentry⟩ := (not_empty_iff present').mp (occupied t' ht' present')
    refine ⟨q, hq, ?_⟩
    rw [setPte_entry owned' ht present _ ht', if_neg (fun h' => h h'.1),
      withTable_entry owned supplied ht' hq]
    exact hentry

theorem unmap_occupied (occupied : Occupied s) (present : Present (s.pde t)) (p : Nat) :
    Occupied ((s.clearPte t p).collect t) := by
  have owned' := clearPte_owned owned ht present p
  have hpde := clearPte_pde (p := p) (owned.apart t ht present)
  have hclear {t' q : Nat} (ht' : t' < 1023) := clearPte_entry owned ht present p ht' q
  generalize s.clearPte t p = s' at owned' hpde hclear ⊢
  have others {t' : Nat} (ht' : t' < 1023) (h : t ≠ t') (present' : Present (s.pde t')) :
      ∃ q, q < 1024 ∧ entry s' t' q ≠ none := by
    obtain ⟨q, hq, hentry⟩ := (not_empty_iff present').mp (occupied t' ht' present')
    refine ⟨q, hq, ?_⟩
    rw [hclear ht', if_neg (fun h' => h h'.1)]
    exact hentry
  by_cases empty : s'.Empty t
  · have hcollect : s'.collect t = s'.dropTable t := if_pos empty
    rw [hcollect]
    intro t' ht' present'
    obtain ⟨hne, hp, _⟩ := dropTable_present present'
    rw [not_empty_iff present']
    rw [hpde] at hp
    obtain ⟨q, hq, hentry⟩ := others ht' hne hp
    refine ⟨q, hq, ?_⟩
    rw [dropTable_entry owned' empty ht' hq]
    exact hentry
  · have hcollect : s'.collect t = s' := if_neg empty
    rw [hcollect]
    intro t' ht' present'
    by_cases h : t = t'
    · subst t'
      exact empty
    · rw [not_empty_iff present']
      rw [hpde] at present'
      exact others ht' h present'

end Preserved

/-- The tables of `x` that `s` did not have. -/
def grown (s x : Machine) : Finset Nat :=
  (Finset.range 1023).filter fun t => Present (x.pde t) ∧ ¬ Present (s.pde t)

theorem mem_grown {s x : Machine} {t : Nat} :
    t ∈ grown s x ↔ t < 1023 ∧ Present (x.pde t) ∧ ¬ Present (s.pde t) := by
  rw [grown, Finset.mem_filter, Finset.mem_range]

/-- Since `s`, blocks were taken for new tables and for nothing else. -/
structure Grown (s x : Machine) : Prop where
  kept : ∀ t, t < 1023 → Present (s.pde t) → x.pde t = s.pde t
  fresh : ∀ t ∈ grown s x, x.table t ≠ 0 ∧ ¬ s.balloc.Used (x.table t)
  bits : ∀ c, x.balloc.Used c ↔ s.balloc.Used c ∨ ∃ t ∈ grown s x, x.table t = c
  count : x.balloc.freeBlocks + BitVec.ofNat 32 (grown s x).card = s.balloc.freeBlocks

namespace Grown

variable {s x y : Machine}

theorem refl (s : Machine) : Grown s s := by
  have hnone : grown s s = ∅ := by
    apply Finset.eq_empty_of_forall_notMem
    intro t ht
    obtain ⟨_, hp, hn⟩ := mem_grown.mp ht
    exact hn hp
  refine ⟨fun _ _ _ => rfl, ?_, ?_, ?_⟩
  · simp [hnone]
  · simp [hnone]
  · simp [hnone]

/-- Only directory and bitmap matter. -/
theorem congr (g : Grown s x) (hpde : ∀ t, y.pde t = x.pde t) (hb : y.balloc = x.balloc) :
    Grown s y := by
  have hgrown : grown s y = grown s x := by
    ext t
    rw [mem_grown, mem_grown, hpde]
  have htable : ∀ t, y.table t = x.table t := by
    intro t
    rw [Machine.table, hpde, Machine.table]
  refine ⟨fun t ht present => (hpde t).trans (g.kept t ht present), ?_, ?_, ?_⟩
  · intro t ht
    rw [hgrown] at ht
    rw [htable]
    exact g.fresh t ht
  · intro c
    rw [hgrown, hb, g.bits c]
    simp only [htable]
  · rw [hgrown, hb]
    exact g.count

theorem absent (g : Grown s x) {t : Nat} (ht : t < 1023) (h : ¬ Present (x.pde t)) :
    ¬ Present (s.pde t) := by
  intro present
  rw [g.kept t ht present] at h
  exact h present

theorem grown_newTable (g : Grown s x) (spare : Spare x) {t : Nat} (ht : t < 1023)
    (absent : ¬ Present (x.pde t)) : grown s (x.newTable t) = insert t (grown s x) := by
  have present : Present ((x.newTable t).pde t) := by
    rw [newTable_pde spare.dir, if_pos rfl]
    exact present_or_flags _
  ext t'
  rw [Finset.mem_insert, mem_grown, mem_grown]
  by_cases h : t = t'
  · subst t'
    simp [ht, present, g.absent ht absent]
  · rw [newTable_pde_other spare h]
    simp [Ne.symm h]

theorem newTable (g : Grown s x) (owned : Owned x) (nonnull : (ballocGet x.balloc).1 ≠ 0)
    {t : Nat} (ht : t < 1023) (absent : ¬ Present (x.pde t)) : Grown s (x.newTable t) := by
  obtain ⟨h0, _, unused, used, count⟩ := ballocGet_fresh nonnull
  have spare := owned.spare nonnull
  have htable := newTable_table (s := x) spare.dir t
  have hnew : t ∉ grown s x := fun h => absent (mem_grown.mp h).2.1
  have hgrown := g.grown_newTable spare ht absent
  have hold {t' : Nat} (ht' : t' ∈ grown s x) : (x.newTable t).table t' = x.table t' :=
    newTable_table_other spare (fun h => hnew (h ▸ ht'))
  refine ⟨?_, ?_, ?_, ?_⟩
  · intro t' ht' present'
    have hne : t ≠ t' := fun h => g.absent ht absent (h ▸ present')
    rw [newTable_pde_other spare hne]
    exact g.kept t' ht' present'
  · intro t' ht'
    rw [hgrown] at ht'
    rcases Finset.mem_insert.mp ht' with rfl | ht'
    · rw [htable]
      exact ⟨h0, fun h => unused ((g.bits _).mpr (Or.inl h))⟩
    · rw [hold ht']
      exact g.fresh t' ht'
  · intro c
    rw [newTable_balloc, used, g.bits, hgrown]
    constructor
    · rintro (rfl | hs | ⟨t', ht', rfl⟩)
      · exact Or.inr ⟨t, Finset.mem_insert_self t _, htable⟩
      · exact Or.inl hs
      · exact Or.inr ⟨t', Finset.mem_insert_of_mem ht', hold ht'⟩
    · rintro (hs | ⟨t', ht', rfl⟩)
      · exact Or.inr (Or.inl hs)
      · rcases Finset.mem_insert.mp ht' with rfl | ht'
        · exact Or.inl htable.symm
        · exact Or.inr (Or.inr ⟨t', ht', (hold ht').symm⟩)
  · have h1 : BitVec.ofNat 32 1 = 1 := rfl
    rw [newTable_balloc, count, hgrown, Finset.card_insert_of_notMem hnew, BitVec.ofNat_add, h1,
      ← g.count, BitVec.add_comm _ 1, ← BitVec.add_assoc, BitVec.sub_add_cancel]

theorem grown_dropTable (s x : Machine) (t : Nat) :
    grown s (x.dropTable t) = (grown s x).erase t := by
  have hzero : ¬ Present (0 : U32) := by decide
  ext t'
  rw [Finset.mem_erase, mem_grown, mem_grown, dropTable_pde]
  by_cases h : t = t'
  · subst t'
    rw [if_pos rfl]
    exact ⟨fun h => absurd h.2.1 hzero, fun h => absurd rfl h.1⟩
  · rw [if_neg h]
    exact ⟨fun h' => ⟨Ne.symm h, h'⟩, fun h' => h'.2⟩

/-- Dropping a table gives its block back. -/
theorem dropTable_bits {t : Nat} (nonzero : x.table t ≠ 0) :
    (∀ c, (x.dropTable t).balloc.Used c ↔ c ≠ x.table t ∧ x.balloc.Used c) ∧
      (x.dropTable t).balloc.freeBlocks = x.balloc.freeBlocks + 1 := by
  have hnonnull : x.pde t &&& 0xFFFFF000 ≠ 0 := by
    intro h
    have hframe := blockOf_masked (x.pde t)
    rw [h] at hframe
    exact nonzero hframe.symm
  refine ⟨fun c => ?_, ballocFree_count hnonnull⟩
  change (ballocFree x.balloc (x.pde t &&& 0xFFFFF000)).Used c ↔ _
  rw [ballocFree_used hnonnull, blockOf_masked]
  rfl

theorem dropTable (g : Grown s x) (owned : Owned x) {t : Nat} (ht : t ∈ grown s x) :
    Grown s (x.dropTable t) := by
  obtain ⟨hlt, present, absent⟩ := mem_grown.mp ht
  obtain ⟨h0, unused⟩ := g.fresh t ht
  obtain ⟨hbits, hcount⟩ := dropTable_bits h0
  have hgrown := grown_dropTable s x t
  have hold {t' : Nat} (h : t ≠ t') : (x.dropTable t).table t' = x.table t' := by
    rw [Machine.table, dropTable_pde, if_neg h, Machine.table]
  refine ⟨?_, ?_, ?_, ?_⟩
  · intro t' ht' present'
    have hne : t ≠ t' := fun h => absent (h ▸ present')
    rw [dropTable_pde, if_neg hne]
    exact g.kept t' ht' present'
  · intro t' ht'
    rw [hgrown] at ht'
    obtain ⟨hne, ht'⟩ := Finset.mem_erase.mp ht'
    rw [hold (Ne.symm hne)]
    exact g.fresh t' ht'
  · intro c
    rw [hbits, g.bits, hgrown]
    constructor
    · rintro ⟨hc, hs | ⟨t', ht', rfl⟩⟩
      · exact Or.inl hs
      · have hne : t' ≠ t := fun h => hc (by rw [h])
        exact Or.inr ⟨t', Finset.mem_erase.mpr ⟨hne, ht'⟩, hold (Ne.symm hne)⟩
    · rintro (hs | ⟨t', ht', rfl⟩)
      · exact ⟨fun h => unused (h ▸ hs), Or.inl hs⟩
      · obtain ⟨hne, ht'⟩ := Finset.mem_erase.mp ht'
        obtain ⟨hlt', present', _⟩ := mem_grown.mp ht'
        rw [hold (Ne.symm hne)]
        refine ⟨fun h => ?_, Or.inr ⟨t', ht', rfl⟩⟩
        exact hne (owned.distinct t' t hlt' hlt present' present h)
  · have hcard := Finset.card_erase_add_one ht
    have h1 : BitVec.ofNat 32 1 = 1 := rfl
    rw [hcount, hgrown, ← g.count, ← hcard, BitVec.ofNat_add, h1, BitVec.add_assoc,
      BitVec.add_comm 1]

end Grown

/-- A run from `s` that unmaps only pages which `s` does not map. -/
structure Held (s x : Machine) : Prop where
  owned : Owned x
  occupied : Occupied x
  grown : Grown s x
  keeps : ∀ t p, t < 1023 → p < 1024 → entry s t p ≠ none → entry x t p ≠ none

theorem Held.map {s x y : Machine} (h : Held s x) {phys virt : U32} {r : Int}
    (assumed : Assumed x (.map phys virt r)) (hstep : Step x (.map phys virt r) y) :
    Held s y := by
  rcases map_cases h.owned assumed hstep with rfl | rfl
  · exact h
  · obtain ⟨_, below, supplied⟩ := assumed
    have ht := below.pdeIndex_lt
    have owned' := withTable_owned h.owned ht (supplied.spare h.owned)
    have present := withTable_present (supplied.spare h.owned)
    have grown' : Grown s (x.withTable (pdeIndex virt)) := by
      rw [Machine.withTable]
      split
      · exact h.grown
      · rename_i absent
        exact h.grown.newTable h.owned (supplied absent).1 ht absent
    refine ⟨setPte_owned owned' ht present _,
      map_occupied h.owned ht h.occupied supplied (pteIndex_lt virt) phys,
      grown'.congr (setPte_pde owned' ht present _) rfl, ?_⟩
    intro t p ht' hp mapped
    rw [setPte_entry owned' ht present _ ht', withTable_entry h.owned supplied ht' hp]
    split
    · rw [if_pos (present_or_flags phys)]
      exact Option.some_ne_none _
    · exact h.keeps t p ht' hp mapped

/-- A table of `s` has a page left, so only a table made since can go. -/
theorem Held.unmap {s x y : Machine} (h : Held s x) (occupied : Occupied s) {virt r : U32}
    (below : Below virt) (unmapped : translation s (frameOf virt) = none)
    (hstep : Step x (.unmap virt r) y) : Held s y := by
  rw [translation_page s below] at unmapped
  have ht := below.pdeIndex_lt
  rcases unmap_cases h.owned below hstep with heq | ⟨present, heq⟩
  · rwa [heq]
  · rw [heq]
    have owned' := clearPte_owned h.owned ht present (pteIndex virt)
    have hpde := clearPte_pde (p := pteIndex virt) (h.owned.apart _ ht present)
    have hbal : (x.clearPte (pdeIndex virt) (pteIndex virt)).balloc = x.balloc := by
      rw [Machine.clearPte]
      split <;> rfl
    have grown' := h.grown.congr hpde hbal
    have occ := unmap_occupied h.owned ht h.occupied present (pteIndex virt)
    have keeps' : ∀ t p, t < 1023 → p < 1024 → entry s t p ≠ none →
        entry (x.clearPte (pdeIndex virt) (pteIndex virt)) t p ≠ none := by
      intro t p ht' hp mapped
      rw [clearPte_entry h.owned ht present _ ht', if_neg]
      · exact h.keeps t p ht' hp mapped
      · rintro ⟨rfl, rfl⟩
        exact mapped unmapped
    generalize x.clearPte (pdeIndex virt) (pteIndex virt) = x' at owned' hpde grown' keeps' occ ⊢
    have present' : Present (x'.pde (pdeIndex virt)) := by rwa [hpde]
    refine ⟨collect_owned owned' ht present', occ, ?_, ?_⟩
    · by_cases empty : x'.Empty (pdeIndex virt)
      · have hcollect : x'.collect (pdeIndex virt) = x'.dropTable (pdeIndex virt) := if_pos empty
        rw [hcollect]
        apply grown'.dropTable owned'
        refine mem_grown.mpr ⟨ht, present', fun old => ?_⟩
        obtain ⟨p, hp, mapped⟩ := (not_empty_iff old).mp (occupied _ ht old)
        exact (not_empty_iff present').mpr ⟨p, hp, keeps' _ p ht hp mapped⟩ empty
      · have hcollect : x'.collect (pdeIndex virt) = x' := if_neg empty
        rw [hcollect]
        exact grown'
    · intro t p ht' hp mapped
      rw [collect_entry owned' ht' hp]
      exact keeps' t p ht' hp mapped

theorem step_occupied {s t : Machine} {call : PageCall} (owned : Owned s) (occupied : Occupied s)
    (h : Guarded Assumed Step s call t) : Occupied t := by
  obtain ⟨assumed, h⟩ := h
  cases call with
  | map phys virt r =>
    rcases map_cases owned assumed h with rfl | rfl
    · exact occupied
    · exact map_occupied owned (Below.pdeIndex_lt assumed.2.1) occupied assumed.2.2
        (pteIndex_lt virt) phys
  | unmap virt r =>
    rcases unmap_cases owned assumed h with heq | ⟨present, heq⟩
    · rwa [heq]
    · rw [heq]
      exact unmap_occupied owned (Below.pdeIndex_lt assumed) occupied present _

theorem run_occupied {s t : Machine} {calls : List PageCall}
    (run : Run (Guarded Assumed Step) s calls t) (owned : Owned s) (occupied : Occupied s) :
    Owned t ∧ Occupied t :=
  run.invariant (I := fun s => Owned s ∧ Occupied s)
    (fun _ _ _ h hs => ⟨(step_refines h.1 hs).1, step_occupied h.1 h.2 hs⟩) ⟨owned, occupied⟩

def IsMap : PageCall → Prop
  | .map _ _ _ => True
  | .unmap _ _ => False

theorem run_other {T T' : Nat → Option U32} {calls : List PageCall} (run : Run MapStep T calls T')
    {v : Nat} (h : ∀ call ∈ calls, call.page ≠ v) : T' v = T v := by
  induction run with
  | nil => rfl
  | cons hstep _ ih =>
    rw [ih (fun call hcall => h call (List.mem_cons_of_mem _ hcall))]
    exact hstep.other (h _ List.mem_cons_self)

/-- Unmapping never maps a page, and what it touches stays unmapped. -/
theorem run_unmaps {T T' : Nat → Option U32} {calls : List PageCall} (run : Run MapStep T calls T')
    (unmaps : ∀ call ∈ calls, ¬ IsMap call) {v : Nat}
    (h : T v = none ∨ ∃ call ∈ calls, call.page = v) : T' v = none := by
  induction run with
  | nil =>
    rcases h with h | ⟨_, hmem, _⟩
    · exact h
    · cases hmem
  | @cons T U T' call calls hstep _ ih =>
    apply ih (fun c hc => unmaps c (List.mem_cons_of_mem _ hc))
    cases hstep with
    | map => exact absurd trivial (unmaps _ List.mem_cons_self)
    | taken => exact absurd trivial (unmaps _ List.mem_cons_self)
    | @unmap virt =>
      by_cases hv : v = frameOf virt
      · subst hv
        exact Or.inl (Function.update_self _ _ _)
      · rw [Function.update_of_ne hv]
        rcases h with h | ⟨c, hc, hpage⟩
        · exact Or.inl h
        · rcases List.mem_cons.mp hc with rfl | hc
          · exact absurd hpage.symm hv
          · exact Or.inr ⟨c, hc, hpage⟩

theorem run_held {s x t : Machine} {calls : List PageCall} (occupied : Occupied s)
    (run : Run (Guarded Assumed Step) x calls t) (h : Held s x)
    (fresh : ∀ call ∈ calls, IsMap call ∨ translation s call.page = none) : Held s t := by
  induction run with
  | nil => exact h
  | @cons x y t call calls hstep _ ih =>
    obtain ⟨assumed, hstep⟩ := hstep
    have rest := fun c hc => fresh c (List.mem_cons_of_mem call hc)
    cases call with
    | map phys virt r => exact ih (h.map assumed hstep) rest
    | unmap virt r =>
      refine ih (h.unmap occupied assumed ?_ hstep) rest
      rcases fresh _ List.mem_cons_self with himpossible | hpage
      · exact absurd himpossible id
      · exact hpage

/-- When the same pages are mapped as before, no table made since is left. -/
theorem Held.restored {s t : Machine} (h : Held s t) (same : translation t = translation s) :
    (∀ d, d < 1023 → (Present (t.pde d) ↔ Present (s.pde d))) ∧
    (∀ d, d < 1023 → Present (s.pde d) → t.pde d = s.pde d) ∧
    t.balloc.mBmp = s.balloc.mBmp ∧ t.balloc.freeBlocks = s.balloc.freeBlocks := by
  have hnone : PageOwnership.grown s t = ∅ := by
    apply Finset.eq_empty_of_forall_notMem
    intro d hd
    obtain ⟨hlt, present, absent⟩ := mem_grown.mp hd
    obtain ⟨p, hp, mapped⟩ := (not_empty_iff present).mp (h.occupied d hlt present)
    have hpage := congrFun same (1024 * d + p)
    have hdiv : (1024 * d + p) / 1024 = d := by omega
    have hmod : (1024 * d + p) % 1024 = p := by omega
    rw [translation_eq _ (by omega), translation_eq _ (by omega), hdiv, hmod] at hpage
    rw [hpage] at mapped
    exact absent (present_of_entry mapped)
  refine ⟨?_, h.grown.kept, ?_, ?_⟩
  · intro d hd
    constructor
    · intro present
      by_contra absent
      have hmem := mem_grown.mpr ⟨hd, present, absent⟩
      rw [hnone] at hmem
      cases hmem
    · intro present
      rwa [h.grown.kept d hd present]
  · apply words_ext (by decide)
    intro c
    have hbits := h.grown.bits c
    simp only [hnone, Finset.notMem_empty, false_and, exists_false, or_false] at hbits
    exact Bool.eq_iff_iff.mpr hbits
  · have hcount := h.grown.count
    rw [hnone] at hcount
    simpa using hcount

/-- The address that a call unmaps. -/
def unmapped : PageCall → Option U32
  | .map _ _ _ => none
  | .unmap virt _ => some virt

theorem unmapped_calls {calls : List PageCall} {virts : List U32}
    (h : calls.map unmapped = virts.map some) :
    (∀ call ∈ calls, ¬ IsMap call) ∧ calls.map PageCall.page = virts.map frameOf := by
  induction calls generalizing virts with
  | nil =>
    cases virts with
    | nil => exact ⟨by simp, rfl⟩
    | cons virt virts => cases h
  | cons call calls ih =>
    cases virts with
    | nil => cases h
    | cons virt virts =>
      obtain ⟨hhead, htail⟩ := List.cons.inj h
      obtain ⟨hcalls, hpages⟩ := ih htail
      cases call with
      | map => cases hhead
      | unmap virt' result =>
        cases hhead
        refine ⟨?_, congrArg (List.cons (frameOf virt)) hpages⟩
        intro call hcall
        rcases List.mem_cons.mp hcall with rfl | hcall
        · exact id
        · exact hcalls call hcall

/-- Unmapping never faults, whatever the order. -/
theorem unmaps_run {s : Machine} (owned : Owned s) {virts : List U32}
    (below : ∀ virt ∈ virts, Below virt) :
    ∃ unmaps t, Run (Guarded Assumed Step) s unmaps t ∧
      unmaps.map unmapped = virts.map some := by
  induction virts generalizing s with
  | nil => exact ⟨[], s, .nil s, rfl⟩
  | cons virt virts ih =>
    have hvirt := below virt List.mem_cons_self
    obtain ⟨result, s', hunmap, owned', _⟩ := unmap_refines owned hvirt
    obtain ⟨unmaps, t, hrun, htargets⟩ := ih owned'
      (fun virt hmem => below virt (List.mem_cons_of_mem _ hmem))
    refine ⟨.unmap virt result :: unmaps, t, .cons ⟨hvirt, .unmap hunmap⟩ hrun, ?_⟩
    exact congrArg (List.cons (some virt)) htargets

/-- A run that maps pages which `s` does not map and then unmaps just these. -/
theorem maps_unmaps_restored {s t : Machine} {maps unmaps : List PageCall} (owned : Owned s)
    (occupied : Occupied s) (run : Run (Guarded Assumed Step) s (maps ++ unmaps) t)
    (hmaps : ∀ call ∈ maps, IsMap call) (hunmaps : ∀ call ∈ unmaps, ¬ IsMap call)
    (fresh : ∀ call ∈ maps, translation s call.page = none)
    (pages : ∀ v, v ∈ unmaps.map PageCall.page ↔ v ∈ maps.map PageCall.page) :
    (∀ d, d < 1023 → (Present (t.pde d) ↔ Present (s.pde d))) ∧
    (∀ d, d < 1023 → Present (s.pde d) → t.pde d = s.pde d) ∧
    t.balloc.mBmp = s.balloc.mBmp ∧ t.balloc.freeBlocks = s.balloc.freeBlocks := by
  have allowed : ∀ call ∈ maps ++ unmaps, IsMap call ∨ translation s call.page = none := by
    intro call hcall
    rcases List.mem_append.mp hcall with hcall | hcall
    · exact Or.inl (hmaps call hcall)
    · obtain ⟨call', hcall', hpage⟩ :=
        List.mem_map.mp ((pages call.page).mp (List.mem_map_of_mem hcall))
      rw [← hpage]
      exact Or.inr (fresh call' hcall')
  have held := run_held occupied run ⟨owned, occupied, .refl s, fun _ _ _ _ h => h⟩ allowed
  apply held.restored
  obtain ⟨u, first, second⟩ := (run_refines run owned).split maps
  funext v
  by_cases hv : v ∈ unmaps.map PageCall.page
  · obtain ⟨call, hcall, hpage⟩ := List.mem_map.mp hv
    obtain ⟨call', hcall', hpage'⟩ := List.mem_map.mp ((pages v).mp hv)
    rw [run_unmaps second hunmaps (Or.inr ⟨call, hcall, hpage⟩), ← hpage', fresh call' hcall']
  · have hv' : v ∉ maps.map PageCall.page := fun h => hv ((pages v).mpr h)
    rw [run_other second (fun call hcall h => hv (List.mem_map.mpr ⟨call, hcall, h⟩)),
      run_other first (fun call hcall h => hv' (List.mem_map.mpr ⟨call, hcall, h⟩))]

/-- The frames stay distinct, marked and in use over every run, and after a run that
maps unmapped pages, unmapping them in any order gives back all it took. -/
theorem ownership_and_restoration {s u : Machine} {calls : List PageCall} (owned : Owned s)
    (occupied : Occupied s) (run : Run (Guarded Assumed Step) s calls u) :
    (Owned u ∧ Occupied u) ∧
    ((∀ call ∈ calls, IsMap call) → (∀ call ∈ calls, translation s call.page = none) →
      ∀ virts : List U32, (∀ virt ∈ virts, Below virt) →
      (∀ v, v ∈ virts.map frameOf ↔ v ∈ calls.map PageCall.page) →
      ∃ unmaps t, Run (Guarded Assumed Step) u unmaps t ∧
        unmaps.map unmapped = virts.map some ∧
        (∀ d, d < 1023 → (Present (t.pde d) ↔ Present (s.pde d))) ∧
        (∀ d, d < 1023 → Present (s.pde d) → t.pde d = s.pde d) ∧
        t.balloc.mBmp = s.balloc.mBmp ∧ t.balloc.freeBlocks = s.balloc.freeBlocks) := by
  have inv := run_occupied run owned occupied
  refine ⟨inv, fun hmaps fresh virts below pages => ?_⟩
  obtain ⟨unmaps, t, hrun, htargets⟩ := unmaps_run inv.1 below
  obtain ⟨hunmaps, hpages⟩ := unmapped_calls htargets
  refine ⟨unmaps, t, hrun, htargets, ?_⟩
  refine maps_unmaps_restored owned occupied (run.append hrun) hmaps hunmaps fresh ?_
  rw [hpages]
  exact pages

theorem emptySpace_occupied : Occupied emptySpace :=
  fun _ ht present => absurd present (emptySpace_absent ht)

/-- Two pages of one table, mapped in an empty space and unmapped in the other order. -/
theorem shared_table_returned : ∃ u unmaps t,
    Run (Guarded Assumed Step) emptySpace [.map 0x8000 0x400000 0, .map 0x9000 0x401000 0] u ∧
      Run (Guarded Assumed Step) u unmaps t ∧
      unmaps.map unmapped = [some 0x401000, some 0x400000] ∧
      t.balloc.mBmp = emptySpace.balloc.mBmp := by
  obtain ⟨u, run⟩ := two_pages_mapped
  obtain ⟨_, restores⟩ := ownership_and_restoration emptySpace_owned emptySpace_occupied run
  have fresh : ∀ call ∈ [PageCall.map 0x8000 0x400000 0, .map 0x9000 0x401000 0],
      translation emptySpace call.page = none := by
    refine List.forall_mem_cons.mpr ⟨?_, List.forall_mem_singleton.mpr ?_⟩
    · exact emptySpace_translation (show Below 0x400000 by decide)
    · exact emptySpace_translation (show Below 0x401000 by decide)
  obtain ⟨unmaps, t, unmapRun, order, _, _, bits, _⟩ := restores
    (List.forall_mem_cons.mpr ⟨trivial, List.forall_mem_singleton.mpr trivial⟩) fresh
    [0x401000, 0x400000]
    (List.forall_mem_cons.mpr ⟨by decide, List.forall_mem_singleton.mpr (by decide)⟩)
    (fun v => by simp [PageCall.page, or_comm])
  exact ⟨u, unmaps, t, run, unmapRun, order, bits⟩

end PageOwnership
