import MissyMicro.Words

/-!
# Two-level page translation

Physical memory is an array of 4 KB frames of 1024 words. The processor finds
the frame of a virtual address through the directory frame in `cr3` and the
table frame in the directory entry; a missing entry is a page fault. Cached
translations are not modelled.
-/

namespace Mmu

abbrev PhysMem := Nat → Nat → U32

def put (m : PhysMem) (frame word : Nat) (x : U32) : PhysMem :=
  fun f w => if f = frame ∧ w = word then x else m f w

@[simp] theorem put_same (m : PhysMem) (frame word : Nat) (x : U32) :
    put m frame word x frame word = x := by
  simp [put]

theorem put_frame (m : PhysMem) {frame f : Nat} (word w : Nat) (x : U32) (h : f ≠ frame) :
    put m frame word x f w = m f w := by
  simp [put, h]

theorem put_word (m : PhysMem) (frame f : Nat) {word w : Nat} (x : U32) (h : w ≠ word) :
    put m frame word x f w = m f w := by
  simp [put, h]

def Present (entry : U32) : Prop := entry &&& 1 ≠ 0

instance (entry : U32) : Decidable (Present entry) :=
  inferInstanceAs (Decidable (entry &&& 1 ≠ 0))

def frameOf (addr : U32) : Nat := addr.toNat / 4096
def wordOf (addr : U32) : Nat := addr.toNat % 4096 / 4
def pdeIndex (va : U32) : Nat := va.toNat / 0x400000
def pteIndex (va : U32) : Nat := va.toNat / 4096 % 1024

/-- A store to a physical address. -/
def store (m : PhysMem) (addr x : U32) : PhysMem := put m (frameOf addr) (wordOf addr) x

/-- The table entry that maps `va`. -/
def walk (m : PhysMem) (cr3 va : U32) : Option U32 :=
  let pde := m (frameOf cr3) (pdeIndex va)
  if Present pde then
    let pte := m (frameOf pde) (pteIndex va)
    if Present pte then some pte else none
  else none

/-- The physical page of `va`, with the flags masked off. -/
def translateVirt (m : PhysMem) (cr3 va : U32) : Option U32 :=
  (walk m cr3 va).map (· &&& ~~~0xfff)

def loadVirt (m : PhysMem) (cr3 va : U32) : Option U32 :=
  (walk m cr3 va).map fun pte => m (frameOf pte) (wordOf va)

def storeVirt (m : PhysMem) (cr3 va x : U32) : Option PhysMem :=
  (walk m cr3 va).map fun pte => put m (frameOf pte) (wordOf va) x

def loadVirt8 (m : PhysMem) (cr3 va : U32) : Option (BitVec 8) :=
  (walk m cr3 va).map fun pte => Words.byteOf (m (frameOf pte) (wordOf va)) (va.toNat % 4)

def storeVirt8 (m : PhysMem) (cr3 va : U32) (x : BitVec 8) : Option PhysMem :=
  (walk m cr3 va).map fun pte =>
    put m (frameOf pte) (wordOf va)
      (Words.setByte (m (frameOf pte) (wordOf va)) (va.toNat % 4) x)

theorem pdeIndex_lt (va : U32) : pdeIndex va < 1024 := by
  have := va.isLt
  rw [pdeIndex]
  omega

theorem pteIndex_lt (va : U32) : pteIndex va < 1024 := Nat.mod_lt _ (by decide)

theorem frameOf_or_flags (addr : U32) {flags : U32} (h : flags.toNat < 4096) :
    frameOf (addr ||| flags) = frameOf addr :=
  Words.or_flags_div addr h

/-- Addresses of one virtual page are walked alike. -/
theorem walk_congr (m : PhysMem) (cr3 : U32) {va va' : U32}
    (h : va.toNat / 4096 = va'.toNat / 4096) : walk m cr3 va = walk m cr3 va' := by
  have hd : pdeIndex va = pdeIndex va' := by
    simp only [pdeIndex]
    omega
  have ht : pteIndex va = pteIndex va' := by
    simp only [pteIndex, h]
  rw [walk, walk, hd, ht]

/-- A walk depends on one directory entry and, if it is present, on one table entry. -/
theorem walk_agrees {m m' : PhysMem} {cr3 cr3' va : U32}
    (directory : m' (frameOf cr3') (pdeIndex va) = m (frameOf cr3) (pdeIndex va))
    (table : Present (m (frameOf cr3) (pdeIndex va)) →
      m' (frameOf (m (frameOf cr3) (pdeIndex va))) (pteIndex va) =
        m (frameOf (m (frameOf cr3) (pdeIndex va))) (pteIndex va)) :
    walk m' cr3' va = walk m cr3 va := by
  rw [walk, walk, directory]
  by_cases present : Present (m (frameOf cr3) (pdeIndex va))
  · rw [if_pos present, if_pos present, table present]
  · rw [if_neg present, if_neg present]

theorem walk_eq_some {m : PhysMem} {cr3 va pte : U32} :
    walk m cr3 va = some pte ↔
      Present (m (frameOf cr3) (pdeIndex va)) ∧ Present pte ∧
        m (frameOf (m (frameOf cr3) (pdeIndex va))) (pteIndex va) = pte := by
  by_cases hd : Present (m (frameOf cr3) (pdeIndex va))
  · by_cases ht : Present (m (frameOf (m (frameOf cr3) (pdeIndex va))) (pteIndex va))
    · have hw : walk m cr3 va = some (m (frameOf (m (frameOf cr3) (pdeIndex va)))
          (pteIndex va)) := by
        simp only [walk, if_pos hd, if_pos ht]
      rw [hw, Option.some.injEq]
      exact ⟨fun h => ⟨hd, h ▸ ht, h⟩, fun h => h.2.2⟩
    · have hw : walk m cr3 va = none := by simp only [walk, if_pos hd, if_neg ht]
      rw [hw]
      refine ⟨fun h => (by cases h), ?_⟩
      rintro ⟨_, hp, rfl⟩
      exact absurd hp ht
  · have hw : walk m cr3 va = none := by simp only [walk, if_neg hd]
    rw [hw]
    exact ⟨fun h => (by cases h), fun h => absurd h.1 hd⟩

end Mmu
