import Mathlib.Algebra.BigOperators.Group.List.Basic
import Mathlib.Data.Nat.ModEq
import Mathlib.Logic.Function.Basic
import MissyMicro.FreeList

/-!
# Freeing into a ring of header records

Headers are records at addresses here, so two of them never share a byte. Whatever the
two tests of `kernel_free` decide, the ring stays one increasing ring and the sizes add
up. A byte memory whose headers are clear of each other behaves as its records do.
-/

namespace HeaderRecords

open LittleEndian LinkedRings
open KernelHeap (headerAdd headerSize)

structure MHeader where
  next : Nat
  sz : Nat

abbrev Headers := Nat → MHeader

namespace Headers

def next (m : Headers) (h : Nat) : Nat := (m h).next
def sz (m : Headers) (h : Nat) : Nat := (m h).sz

def setNext (m : Headers) (h x : Nat) : Headers := Function.update m h { m h with next := x }
def setSz (m : Headers) (h x : Nat) : Headers := Function.update m h { m h with sz := x }

variable (m : Headers) (h x : Nat)

@[simp] theorem next_setNext (h' : Nat) :
    (m.setNext h x).next h' = if h' = h then x else m.next h' := by
  by_cases heq : h' = h
  · subst h'
    simp [next, setNext]
  · simp [next, setNext, heq]

@[simp] theorem sz_setNext (h' : Nat) : (m.setNext h x).sz h' = m.sz h' := by
  by_cases heq : h' = h
  · subst h'
    simp [sz, setNext]
  · simp [sz, setNext, heq]

@[simp] theorem next_setSz (h' : Nat) : (m.setSz h x).next h' = m.next h' := by
  by_cases heq : h' = h
  · subst h'
    simp [next, setSz]
  · simp [next, setSz, heq]

@[simp] theorem sz_setSz (h' : Nat) :
    (m.setSz h x).sz h' = if h' = h then x else m.sz h' := by
  by_cases heq : h' = h
  · subst h'
    simp [sz, setSz]
  · simp [sz, setSz, heq]

end Headers

/-- The loop stops at this header. -/
def Between (m : Headers) (blk hdr : Nat) : Prop :=
  (hdr < blk ∧ blk < m.next hdr) ∨ (m.next hdr ≤ hdr ∧ (hdr < blk ∨ blk < m.next hdr))

instance (m : Headers) (blk hdr : Nat) : Decidable (Between m blk hdr) :=
  inferInstanceAs (Decidable (_ ∨ _))

def findBetween (m : Headers) (blk : Nat) : Nat → Nat → Option Nat
  | 0, _ => none
  | fuel + 1, hdr =>
    if Between m blk hdr then some hdr else findBetween m blk fuel (m.next hdr)

def linkUpper (m : Headers) (blk hdr : Nat) : Headers :=
  if headerAdd blk (m.sz blk) = m.next hdr then
    let m := m.setSz blk ((m.sz blk + m.sz (m.next hdr)) % 2 ^ 32)
    m.setNext blk (m.next (m.next hdr))
  else m.setNext blk (m.next hdr)

def linkLower (m : Headers) (blk hdr : Nat) : Headers :=
  if headerAdd hdr (m.sz hdr) = blk then
    let m := m.setSz hdr ((m.sz hdr + m.sz blk) % 2 ^ 32)
    m.setNext hdr (m.next blk)
  else m.setNext hdr blk

/-- The records and `free_hdr` afterwards. -/
def kernelFree (fuel : Nat) (m : Headers) (freeHdr blk : Nat) : Option (Headers × Nat) :=
  (findBetween m blk fuel freeHdr).map fun hdr => (linkLower (linkUpper m blk hdr) blk hdr, hdr)

/-- The sum of the sizes on a list. -/
def total (m : Headers) (hs : List Nat) : Nat := (hs.map m.sz).sum

theorem total_append (m : Headers) (xs ys : List Nat) :
    total m (xs ++ ys) = total m xs + total m ys := by
  simp [total]

theorem total_cons (m : Headers) (x : Nat) (xs : List Nat) :
    total m (x :: xs) = m.sz x + total m xs := by
  simp [total]

theorem total_congr {m m' : Headers} {hs : List Nat} (same : ∀ h ∈ hs, m'.sz h = m.sz h) :
    total m' hs = total m hs := by
  rw [total, total, List.map_congr_left same]

section Links

variable {m : Headers} {blk p : Nat}

/-- Linking upwards changes no header but the block's own. -/
theorem linkUpper_other {h : Nat} (hne : h ≠ blk) :
    (linkUpper m blk p).next h = m.next h ∧ (linkUpper m blk p).sz h = m.sz h := by
  rw [linkUpper]
  split <;> simp [hne]

/-- Linking downwards changes no header but the one below. -/
theorem linkLower_other {h : Nat} (hne : h ≠ p) :
    (linkLower m blk p).next h = m.next h ∧ (linkLower m blk p).sz h = m.sz h := by
  rw [linkLower]
  split <;> simp [hne]

/-- A ring without the block does not see the link upwards. -/
theorem linkUpper_kept {xs : List Nat} {x : Nat} (fresh : blk ∉ xs)
    (ring : Ring (Function.update m.next p x) xs) :
    Ring (Function.update (linkUpper m blk p).next p x) xs ∧
      total (linkUpper m blk p) xs = total m xs := by
  have same {h : Nat} (hh : h ∈ xs) := @linkUpper_other m blk p h fun heq => fresh (heq ▸ hh)
  refine ⟨ring.congr fun h hh => ?_, total_congr fun h hh => (same hh).2⟩
  by_cases hp : h = p
  · subst h
    rw [Function.update_self, Function.update_self]
  · rw [Function.update_of_ne hp, Function.update_of_ne hp, (same hh).1]

/-- The block takes over what comes behind `p`: all of it, or all but the neighbour that it
swallows. -/
theorem linkUpper_spec {base : Nat} {us vs : List Nat} (ring : Ring m.next (us ++ p :: vs))
    (nodup : (us ++ p :: vs).Nodup)
    (inner : headerAdd blk (m.sz blk) = m.next p → ∃ ws, vs = m.next p :: ws)
    (hbase : base ∈ us ++ p :: vs)
    (keep : headerAdd blk (m.sz blk) = m.next p → base ≠ m.next p) :
    ∃ ws, ws.Sublist vs ∧ base ∈ us ++ p :: ws ∧
      Ring (Function.update m.next p ((linkUpper m blk p).next blk)) (us ++ p :: ws) ∧
      total m ws + (linkUpper m blk p).sz blk ≡ total m vs + m.sz blk [MOD 2 ^ 32] := by
  have hout {x : Nat} (hx : x ∈ us ++ vs) : x ≠ p := ne_middle nodup hx
  by_cases merges : headerAdd blk (m.sz blk) = m.next p
  · obtain ⟨ws, rfl⟩ := inner merges
    have hnext : (linkUpper m blk p).next blk = m.next (m.next p) := by
      rw [linkUpper, if_pos merges]
      simp
    have hsz : (linkUpper m blk p).sz blk = (m.sz blk + m.sz (m.next p)) % 2 ^ 32 := by
      rw [linkUpper, if_pos merges]
      simp
    refine ⟨ws, List.sublist_cons_self _ _, ?_, ?_, ?_⟩
    · exact (mem_insert_iff.mp hbase).resolve_left (keep merges)
    · rw [hnext]
      refine ring.remove (Function.update_self _ _ _) fun x hx => ?_
      exact Function.update_of_ne (hout (mem_middle hx)) _ _
    · rw [hsz, total_cons]
      have hmod := (Nat.mod_modEq (m.sz blk + m.sz (m.next p)) (2 ^ 32)).add_left (total m ws)
      refine hmod.trans (congrArg (· % 2 ^ 32) ?_)
      omega
  · have hnext : (linkUpper m blk p).next blk = m.next p := by
      rw [linkUpper, if_neg merges]
      simp
    have hsz : (linkUpper m blk p).sz blk = m.sz blk := by
      rw [linkUpper, if_neg merges]
      simp
    refine ⟨vs, List.Sublist.refl vs, hbase, ?_, ?_⟩
    · rw [hnext, Function.update_eq_self]
      exact ring
    · rw [hsz]

/-- The header below swallows the block or links to it. -/
theorem linkLower_spec {us ws : List Nat}
    (ring : Ring (Function.update m.next p (m.next blk)) (us ++ p :: ws))
    (nodup : (us ++ p :: ws).Nodup) (fresh : blk ∉ us ++ p :: ws) :
    ∃ ys, (ys = us ++ p :: ws ∨ ys = us ++ p :: blk :: ws) ∧ Ring (linkLower m blk p).next ys ∧
      total (linkLower m blk p) ys ≡ total m (us ++ p :: ws) + m.sz blk [MOD 2 ^ 32] := by
  have hp : p ∈ us ++ p :: ws := List.mem_append_right us List.mem_cons_self
  have hpb : p ≠ blk := fun heq => fresh (heq ▸ hp)
  have hout {x : Nat} (hx : x ∈ us ++ ws) : x ≠ p := ne_middle nodup hx
  have sums : total (linkLower m blk p) us = total m us ∧
      total (linkLower m blk p) ws = total m ws :=
    ⟨total_congr fun h hh => (linkLower_other (hout (List.mem_append_left _ hh))).2,
      total_congr fun h hh => (linkLower_other (hout (List.mem_append_right _ hh))).2⟩
  by_cases merges : headerAdd p (m.sz p) = blk
  · have hnext : (linkLower m blk p).next p = m.next blk := by
      rw [linkLower, if_pos merges]
      simp
    have hsz : (linkLower m blk p).sz p = (m.sz p + m.sz blk) % 2 ^ 32 := by
      rw [linkLower, if_pos merges]
      simp
    refine ⟨us ++ p :: ws, Or.inl rfl, ring.congr fun x hx => ?_, ?_⟩
    · by_cases hxp : x = p
      · subst x
        rw [hnext, Function.update_self]
      · rw [(linkLower_other hxp).1, Function.update_of_ne hxp]
    · rw [total_append, total_cons, sums.1, sums.2, hsz, total_append, total_cons]
      have hmod := ((Nat.mod_modEq (m.sz p + m.sz blk) (2 ^ 32)).add_right (total m ws)).add_left
        (total m us)
      refine hmod.trans (congrArg (· % 2 ^ 32) ?_)
      omega
  · have hnext : (linkLower m blk p).next p = blk := by
      rw [linkLower, if_neg merges]
      simp
    have hsz : (linkLower m blk p).sz p = m.sz p := by
      rw [linkLower, if_neg merges]
      simp
    refine ⟨us ++ p :: blk :: ws, Or.inr rfl, ring.insert hnext ?_ fun x hx => ?_, ?_⟩
    · rw [(linkLower_other hpb.symm).1, Function.update_self]
    · have hxp := hout hx
      rw [(linkLower_other hxp).1, Function.update_of_ne hxp]
    · rw [total_append, total_cons, total_cons, sums.1, sums.2, hsz,
        (linkLower_other hpb.symm).2, total_append, total_cons]
      refine congrArg (· % 2 ^ 32) ?_
      omega

end Links

/-- An increasing ring from `base`, entered at `freeHdr`. -/
structure FreeRing (m : Headers) (base freeHdr : Nat) (nodes : List Nat) : Prop where
  ring : Ring m.next (base :: nodes)
  sorted : (base :: nodes).Pairwise (· < ·)
  freeHdr : freeHdr ∈ base :: nodes

/-- From every header of the ring the search ends, and the block joins the ring or is
swallowed; the ring stays increasing, keeps `base`, and grows by the size of the block. -/
theorem free_keeps_ring {m : Headers} {base freeHdr blk : Nat} {nodes : List Nat}
    (free : FreeRing m base freeHdr nodes) (base_pos : 0 < base) (above : base < blk)
    (fresh : blk ∉ base :: nodes) (fits : blk + headerSize * m.sz blk ≤ 2 ^ 32) :
    ∃ m' hdr nodes', Returns (fun fuel => kernelFree fuel m freeHdr blk) (m', hdr) ∧
      FreeRing m' base hdr nodes' ∧
      total m' (base :: nodes') ≡ total m (base :: nodes) + m.sz blk [MOD 2 ^ 32] := by
  obtain ⟨ring, sorted, hfree⟩ := free
  obtain ⟨p, us, vs, hcut, hpb, hmax, hsorted⟩ := sorted_cut sorted above fresh
  have hp : p ∈ base :: nodes := hcut ▸ List.mem_append_right us List.mem_cons_self
  have hfind : Returns (fun fuel => findBetween m blk fuel freeHdr) p :=
    ring.search sorted above fresh hp hpb hmax (fun _ _ between => if_pos between)
      (fun _ _ between => if_neg between) hfree
  have hend : headerAdd blk (m.sz blk) ≠ base := by
    rw [headerAdd]
    rw [headerSize] at fits ⊢
    omega
  have keep (merges : headerAdd blk (m.sz blk) = m.next p) : base ≠ m.next p := fun heq =>
    hend (merges.trans heq.symm)
  have nodup : (us ++ p :: vs).Nodup := hcut ▸ FreeList.nodup_of_sorted sorted
  have hbase : base ∈ us ++ p :: vs := hcut ▸ List.mem_cons_self
  have fresh' : blk ∉ us ++ p :: vs := hcut ▸ fresh
  obtain ⟨ws, hsub, hbase', upper, hsum⟩ := linkUpper_spec (hcut ▸ ring) nodup
    (fun merges => ring.cut_after hcut (keep merges).symm) hbase keep
  have hsub' : (us ++ p :: ws).Sublist (us ++ p :: vs) :=
    (List.Sublist.refl us).append (hsub.cons_cons p)
  have freshUpper : blk ∉ us ++ p :: ws := fun h => fresh' (hsub'.subset h)
  obtain ⟨upper', hsizes⟩ := linkUpper_kept freshUpper upper
  obtain ⟨ys, hys, lower, htotal⟩ :=
    linkLower_spec upper' (nodup.sublist hsub') freshUpper
  -- the new ring lies between the upper part without the block and the old ring with it
  have hinner : (us ++ p :: ws).Sublist ys ∧ ys.Sublist (us ++ p :: blk :: vs) := by
    have hmiddle : (us ++ p :: ws).Sublist (us ++ p :: blk :: ws) :=
      (List.Sublist.refl us).append ((List.sublist_cons_self blk ws).cons_cons p)
    have houter : (us ++ p :: blk :: ws).Sublist (us ++ p :: blk :: vs) :=
      (List.Sublist.refl us).append ((hsub.cons_cons blk).cons_cons p)
    rcases hys with rfl | rfl
    · exact ⟨List.Sublist.refl _, hmiddle.trans houter⟩
    · exact ⟨hmiddle, houter⟩
  have increasing := hsorted.sublist hinner.2
  obtain ⟨zs, hzs⟩ := exists_insert hcut blk
  obtain ⟨nodes', rfl⟩ := sorted_head increasing (hinner.1.subset hbase') fun y hy =>
    head_le (hzs ▸ hsorted) (hzs ▸ hinner.2.subset hy)
  have hpYs := hinner.1.subset (List.mem_append_right us List.mem_cons_self)
  refine ⟨_, p, nodes', hfind.map _, ⟨lower, increasing, hpYs⟩, ?_⟩
  have hsum' := (hsum.add_left (m.sz p)).add_left (total m us)
  rw [hsizes] at htotal
  refine htotal.trans ?_
  rw [hcut, total_append, total_append, total_cons, total_cons]
  refine Nat.ModEq.trans (congrArg (· % 2 ^ 32) ?_) (hsum'.trans (congrArg (· % 2 ^ 32) ?_))
  · omega
  · omega

/-- A block of 16 bytes, 128 bytes below a free one. -/
def gapRecords : Headers := fun h =>
  if h = 0x100 then ⟨0x10a0, 0⟩
  else if h = 0x10a0 then ⟨0x100, 32⟩
  else if h = 0x1020 then ⟨0, 16⟩
  else ⟨0, 0⟩

/-- Both tests count in headers: the block swallows the free one that it does not touch. -/
theorem gap_swallowed : ∃ m' hdr nodes',
    Returns (fun fuel => kernelFree fuel gapRecords 0x10a0 0x1020) (m', hdr) ∧
      FreeRing m' 0x100 hdr nodes' ∧
      total m' (0x100 :: nodes') ≡ total gapRecords [0x100, 0x10a0] + 16 [MOD 2 ^ 32] := by
  have free : FreeRing gapRecords 0x100 0x10a0 [0x10a0] :=
    ⟨⟨0x100, rfl, rfl, rfl⟩, by decide, by decide⟩
  exact free_keeps_ring free (by decide) (by decide) (by decide) (by decide)

/-- The headers of a byte memory as records. -/
def records (m : Bytes) : Headers := fun h => ⟨KernelHeap.next m h, KernelHeap.sz m h⟩

/-- The memory holds the records of these headers. -/
def Holds (m : Bytes) (r : Headers) (hs : List Nat) : Prop := ∀ h ∈ hs, records m h = r h

section Bytes

variable {m : Bytes} {r : Headers} {hs : List Nat} {h x : Nat}

theorem Holds.next (holds : Holds m r hs) (hh : h ∈ hs) : KernelHeap.next m h = r.next h :=
  congrArg MHeader.next (holds h hh)

theorem Holds.sz (holds : Holds m r hs) (hh : h ∈ hs) : KernelHeap.sz m h = r.sz h :=
  congrArg MHeader.sz (holds h hh)

theorem Holds.of_fields (fields : ∀ h ∈ hs, KernelHeap.next m h = r.next h ∧
    KernelHeap.sz m h = r.sz h) : Holds m r hs := by
  intro h hh
  obtain ⟨hnext, hsz⟩ := fields h hh
  rw [records, hnext, hsz]
  rfl

variable (clear : ∀ h ∈ hs, ∀ h' ∈ hs, KernelHeap.Clear h h')

include clear

theorem Holds.setNext (holds : Holds m r hs) (hh : h ∈ hs) (hx : x < 2 ^ 32) :
    Holds (KernelHeap.setNext m h x) (r.setNext h x) hs := by
  refine .of_fields fun h' hh' => ?_
  rw [KernelHeap.next_setNext (clear h hh h' hh') hx, KernelHeap.sz_setNext (clear h hh h' hh'),
    holds.next hh', holds.sz hh', Headers.next_setNext, Headers.sz_setNext]
  exact ⟨rfl, rfl⟩

theorem Holds.setSz (holds : Holds m r hs) (hh : h ∈ hs) (hx : x < 2 ^ 32) :
    Holds (KernelHeap.setSz m h x) (r.setSz h x) hs := by
  refine .of_fields fun h' hh' => ?_
  rw [KernelHeap.next_setSz (clear h hh h' hh'), KernelHeap.sz_setSz (clear h hh h' hh') hx,
    holds.next hh', holds.sz hh', Headers.next_setSz, Headers.sz_setSz]
  exact ⟨rfl, rfl⟩

variable {blk p : Nat} (hblk : blk ∈ hs) (hp : p ∈ hs)

include hblk hp

theorem Holds.linkUpper (holds : Holds m r hs) (hnext : r.next p ∈ hs) :
    Holds (KernelHeap.linkUpper m blk p) (linkUpper r blk p) hs := by
  have hlt : r.next p < 2 ^ 32 := holds.next hp ▸ KernelHeap.next_lt m p
  rw [KernelHeap.linkUpper, HeaderRecords.linkUpper, holds.next hp, holds.sz hblk,
    holds.sz hnext]
  by_cases merges : headerAdd blk (r.sz blk) = r.next p
  · rw [if_pos merges, if_pos merges]
    have holds' := holds.setSz clear hblk (Nat.mod_lt (r.sz blk + r.sz (r.next p)) (by decide))
    have hlt' := KernelHeap.next_lt
      (KernelHeap.setSz m blk ((r.sz blk + r.sz (r.next p)) % 2 ^ 32)) (r.next p)
    simp only [holds'.next hp, Headers.next_setSz, holds'.next hnext] at hlt' ⊢
    exact holds'.setNext clear hblk hlt'
  · rw [if_neg merges, if_neg merges]
    exact holds.setNext clear hblk hlt

theorem Holds.linkLower (holds : Holds m r hs) (hlt : blk < 2 ^ 32) :
    Holds (KernelHeap.linkLower m blk p) (linkLower r blk p) hs := by
  rw [KernelHeap.linkLower, HeaderRecords.linkLower, holds.sz hp, holds.sz hblk]
  by_cases merges : headerAdd p (r.sz p) = blk
  · rw [if_pos merges, if_pos merges]
    have holds' := holds.setSz clear hp (Nat.mod_lt (r.sz p + r.sz blk) (by decide))
    have hlt' := KernelHeap.next_lt
      (KernelHeap.setSz m p ((r.sz p + r.sz blk) % 2 ^ 32)) blk
    simp only [holds'.next hblk, Headers.next_setSz] at hlt' ⊢
    exact holds'.setNext clear hp hlt'
  · rw [if_neg merges, if_neg merges]
    exact holds.setNext clear hp hlt

end Bytes

theorem findBetween_records {m : Bytes} {r : Headers} {hs : List Nat} {blk p fuel start : Nat}
    (closed : ∀ h ∈ hs, r.next h ∈ hs) (hstart : start ∈ hs)
    (same : ∀ h ∈ hs, KernelHeap.next m h = r.next h)
    (found : findBetween r blk fuel start = some p) :
    KernelHeap.findBetween m blk fuel start = some p ∧ p ∈ hs := by
  induction fuel generalizing start with
  | zero => cases found
  | succ fuel ih =>
    have between : KernelHeap.Between m blk start ↔ Between r blk start := by
      rw [KernelHeap.Between, Between, same start hstart]
    rw [findBetween] at found
    rw [KernelHeap.findBetween, if_congr between rfl rfl, same start hstart]
    by_cases stops : Between r blk start
    · rw [if_pos stops] at found ⊢
      exact ⟨found, Option.some.inj found ▸ hstart⟩
    · rw [if_neg stops] at found ⊢
      exact ih (closed start hstart) found

/-- Where the headers of the ring and of the block are clear of each other, `kernel_free` on
bytes does what it does on records. -/
theorem kernelFree_records {σ : Type} {s : KernelHeap.Heap σ} {r r' : Headers} {hs : List Nat}
    {blk hdr fuel : Nat} (clear : ∀ h ∈ blk :: hs, ∀ h' ∈ blk :: hs, KernelHeap.Clear h h')
    (closed : ∀ h ∈ hs, r.next h ∈ hs) (hfree : s.freeHdr ∈ hs) (hlt : blk < 2 ^ 32)
    (holds : Holds s.mem r (blk :: hs)) (free : kernelFree fuel r s.freeHdr blk = some (r', hdr)) :
    ∃ m, KernelHeap.kernelFree fuel s (blk + 8) = some { s with mem := m, freeHdr := hdr } ∧
      Holds m r' (blk :: hs) := by
  have hmem {h : Nat} (hh : h ∈ hs) : h ∈ blk :: hs := List.mem_cons_of_mem _ hh
  obtain ⟨p, hsearch, heq⟩ := Option.map_eq_some_iff.mp free
  obtain ⟨rfl, rfl⟩ := Prod.mk.inj heq
  obtain ⟨hbytes, hp⟩ := findBetween_records closed hfree (fun h hh => holds.next (hmem hh)) hsearch
  have hptr : (blk + 8 + (2 ^ 32 - KernelHeap.headerSize)) % 2 ^ 32 = blk := by
    rw [headerSize]
    omega
  have upper := holds.linkUpper clear List.mem_cons_self (hmem hp) (hmem (closed p hp))
  refine ⟨_, ?_, upper.linkLower clear List.mem_cons_self (hmem hp) hlt⟩
  simp only [KernelHeap.kernelFree, hptr, hbytes, Option.map_some]

end HeaderRecords
