import Mathlib.Algebra.Order.Group.Multiset
import Mathlib.Data.Multiset.AddSub
import MissyMicro.KernelHeap

/-!
# Pools of blocks

What the heap does, without headers and links: there are free blocks, live blocks and a
break. A request takes a free block or the upper end of one; when none is big enough the
pool grows at the break, by two blocks to give out one of them.
-/

namespace BlockPool

open KernelHeap

structure Pool where
  free : Multiset Block
  live : Multiset Block
  brk : Nat

/-- `n` bytes of the block `b` go out as another block; what is left joins the rest. -/
inductive Takes (n : Nat) (b : Block) (rest : Multiset Block) : Block → Multiset Block → Prop
  | whole : b.size = n → Takes n b rest b rest
  | upper : n + 8 ≤ b.size →
      Takes n b rest ⟨b.start + (b.size - n), n⟩ (⟨b.start, b.size - n⟩ ::ₘ rest)

/-- `k` blocks in a row. -/
def row (start size : Nat) : Nat → Multiset Block
  | 0 => 0
  | k + 1 => ⟨start, size⟩ ::ₘ row (start + size) size k

/-- A request for `n` bytes that lets the pool grow by `k` blocks of `size` bytes. It asks for
more than one and keeps them only if they are too small for it. -/
inductive Allocs (n size : Nat) : Nat → Pool → Pool → Prop
  | taken {b c : Block} {rest free live : Multiset Block} {brk : Nat} : Takes n b rest c free →
      Allocs n size 0 ⟨b ::ₘ rest, live, brk⟩ ⟨free, c ::ₘ live, brk⟩
  | refused {k : Nat} {free live : Multiset Block} {brk : Nat} : (∀ b ∈ free, b.size < n) →
      (1 < k → size < n + 8) →
      Allocs n size k ⟨free, live, brk⟩ ⟨row brk size k + free, live, brk + k * size⟩
  | fetched {c : Block} {free free' live : Multiset Block} {brk : Nat} :
      (∀ b ∈ free, b.size < n) → n + 8 ≤ size → Takes n ⟨brk, size⟩ free c free' →
      Allocs n size 2 ⟨free, live, brk⟩
        ⟨⟨brk + size, size⟩ ::ₘ free', c ::ₘ live, brk + size + size⟩

/-- The blocks are laid out between `base` and the break. -/
def Pool.Laid (base : Nat) (p : Pool) : Prop :=
  ∃ blocks : List Block, (blocks : Multiset Block) = p.free + p.live ∧ Layout base p.brk blocks

variable {base n size k : Nat} {b c : Block} {rest free free' : Multiset Block} {p p' : Pool}

theorem Takes.le (h : Takes n b rest c free) : n ≤ b.size := by
  cases h with
  | whole exactly => exact exactly.ge
  | upper room => omega

/-- Blocks that are not touched stay. -/
theorem Takes.of_cons {d : Block} (h : Takes n b (d ::ₘ rest) c free) :
    ∃ free', free = d ::ₘ free' ∧ Takes n b rest c free' := by
  cases h with
  | whole exactly => exact ⟨rest, rfl, .whole exactly⟩
  | upper room => exact ⟨_, Multiset.cons_swap _ _ _, .upper room⟩

/-- A pool that can serve the request from what it gets stops after two blocks. -/
theorem Allocs.le_two (h : Allocs n size k p p') (room : n + 8 ≤ size) : k ≤ 2 := by
  cases h with
  | taken _ => exact Nat.zero_le 2
  | refused _ again => exact Nat.le_of_not_lt fun hk => absurd (again (by omega)) (by omega)
  | fetched _ _ _ => exact le_refl 2

theorem Allocs.le_one (h : Allocs n size k p p') (room : n + 8 ≤ size)
    (same : p'.live = p.live) : k ≤ 1 := by
  cases h with
  | taken _ => exact Nat.zero_le 1
  | refused _ again => exact Nat.le_of_not_lt fun hk => absurd (again hk) (by omega)
  | fetched _ _ _ =>
    have hcard := congrArg Multiset.card same
    rw [Multiset.card_cons] at hcard
    exact absurd hcard (Nat.succ_ne_self _)

/-- It grows, or refuses, only when no block is big enough. -/
theorem Allocs.small (h : Allocs n size k p p') (refused : 0 < k ∨ p'.live = p.live) :
    ∀ b ∈ p.free, b.size < n := by
  cases h with
  | taken _ =>
    rcases refused with hk | same
    · exact absurd hk (lt_irrefl 0)
    · have hcard := congrArg Multiset.card same
      rw [Multiset.card_cons] at hcard
      exact absurd hcard (Nat.succ_ne_self _)
  | refused small _ => exact small
  | fetched small _ _ => exact small

theorem Takes.cons {d : Block} (h : Takes n b rest c free) :
    Takes n b (d ::ₘ rest) c (d ::ₘ free) := by
  cases h with
  | whole exactly => exact .whole exactly
  | upper room =>
    rw [Multiset.cons_swap]
    exact .upper room

section Laid

variable (laid : p.Laid base)

include laid

theorem Pool.Laid.apart (hb : b ∈ p.free + p.live) (hc : c ∈ p.free + p.live) (hne : b ≠ c) :
    b.Apart c := by
  obtain ⟨blocks, heq, layout⟩ := laid
  rw [← heq, Multiset.mem_coe] at hb hc
  exact layout.apart.forall hb hc hne

/-- A free block and a live one are never the same. -/
theorem Pool.Laid.cross (hb : b ∈ p.free) (hc : c ∈ p.live) : b.Apart c := by
  obtain ⟨blocks, heq, layout⟩ := laid
  obtain ⟨xs, hxs⟩ := Quotient.exists_rep p.free
  obtain ⟨ys, hys⟩ := Quotient.exists_rep p.live
  rw [← hxs] at hb heq
  rw [← hys] at hc heq
  have hperm : blocks.Perm (xs ++ ys) := Multiset.coe_eq_coe.mp heq
  exact (List.pairwise_append.mp (layout.perm hperm).apart).2.2 b hb c hc

theorem Pool.Laid.bounds (hb : b ∈ p.free + p.live) :
    base + 8 ≤ b.start ∧ 8 ≤ b.size ∧ b.start + b.size ≤ p.brk := by
  obtain ⟨blocks, heq, layout⟩ := laid
  rw [← heq, Multiset.mem_coe] at hb
  exact ⟨layout.start_le b hb, layout.size_le b hb, layout.end_le b hb⟩

end Laid

/-- No block ends where another one starts. -/
def Separate (free : Multiset Block) : Prop :=
  ∀ b ∈ free, ∀ c ∈ free, b.start + b.size ≠ c.start

/-- The block touches none of the others. -/
def Untouched (b : Block) (free : Multiset Block) : Prop :=
  ∀ c ∈ free, b.start + b.size ≠ c.start ∧ c.start + c.size ≠ b.start

theorem separate_cons (pos : 0 < b.size) :
    Separate (b ::ₘ free) ↔ Untouched b free ∧ Separate free := by
  constructor
  · intro h
    have hb := Multiset.mem_cons_self b free
    refine ⟨fun c hc => ?_, fun c hc d hd => ?_⟩
    · have hc := Multiset.mem_cons_of_mem (b := b) hc
      exact ⟨h b hb c hc, h c hc b hb⟩
    · exact h c (Multiset.mem_cons_of_mem hc) d (Multiset.mem_cons_of_mem hd)
  · rintro ⟨untouched, separate⟩ c hc d hd
    rcases Multiset.mem_cons.mp hc with rfl | hc'
    · rcases Multiset.mem_cons.mp hd with rfl | hd'
      · omega
      · exact (untouched d hd').1
    · rcases Multiset.mem_cons.mp hd with rfl | hd'
      · exact (untouched c hc').2
      · exact separate c hc' d hd'

/-- What is left below a taken block touches no block that the whole did not touch. -/
theorem Takes.separate (h : Takes n b rest c free) (hn : 0 < n)
    (apart : ∀ d ∈ rest, b.Apart d ∧ 0 < d.size) (separate : Separate (b ::ₘ rest)) :
    Separate free := by
  cases h with
  | whole exactly =>
    subst exactly
    exact ((separate_cons hn).mp separate).2
  | upper room =>
    obtain ⟨untouched, separate⟩ := (separate_cons (by omega)).mp separate
    refine (separate_cons (by dsimp only; omega)).mpr ⟨fun d hd => ?_, separate⟩
    have hsize := (apart d hd).2
    refine ⟨?_, (untouched d hd).2⟩
    rcases (apart d hd).1 with h | h
    · dsimp only
      omega
    · dsimp only
      omega

/-- A block at the break, where nothing free ends. -/
theorem Separate.grow (separate : Separate p.free) (laid : p.Laid base) (hsize : 0 < size)
    (below : ∀ b ∈ p.free, b.start + b.size ≠ p.brk) : Separate (⟨p.brk, size⟩ ::ₘ p.free) := by
  refine (separate_cons hsize).mpr ⟨fun b hb => ?_, separate⟩
  have hbounds := laid.bounds (Multiset.mem_add.mpr (Or.inl hb))
  refine ⟨?_, below b hb⟩
  dsimp only
  omega

/-- As long as nothing free ends at the break when the pool grows, and it does not grow
again and again in vain. -/
theorem Allocs.separate (h : Allocs n size k p p') (laid : p.Laid base) (hn : 8 ≤ n)
    (hsize : 8 ≤ size) (once : size < n + 8 → k ≤ 1)
    (below : 0 < k → ∀ b ∈ p.free, b.start + b.size ≠ p.brk) (separate : Separate p.free) :
    Separate p'.free := by
  cases h with
  | @taken b c rest free live brk takes =>
    obtain ⟨blocks, heq, layout⟩ := laid
    refine takes.separate (by omega) (fun d hd => ?_) separate
    obtain ⟨rest, rfl⟩ := Quotient.exists_rep rest
    obtain ⟨live, rfl⟩ := Quotient.exists_rep live
    have hperm : blocks.Perm (b :: (rest ++ live)) := Multiset.coe_eq_coe.mp heq
    have layout := layout.perm hperm
    have hd' : d ∈ rest ++ live := List.mem_append_left live hd
    have hpos := layout.size_le d (List.mem_cons_of_mem _ hd')
    exact ⟨(List.pairwise_cons.mp layout.apart).1 d hd', by omega⟩
  | @refused k free live brk _ again =>
    rcases k with _ | _ | k
    · rw [row, zero_add]
      exact separate
    · rw [row, row, Multiset.cons_add, zero_add]
      exact separate.grow laid (by omega) (below Nat.one_pos)
    · have hone := once (again (by omega))
      omega
  | @fetched c free free' live brk _ room takes =>
    have hfirst : Separate (⟨brk, size⟩ ::ₘ free) :=
      separate.grow laid (by omega) (below (by decide))
    have hold {d : Block} (hd : d ∈ free) : 8 ≤ d.size ∧ d.start + d.size ≤ brk :=
      (laid.bounds (Multiset.mem_add.mpr (Or.inl hd))).2
    have hsep : Separate free' := by
      refine takes.separate (by omega) (fun d hd => ?_) hfirst
      obtain ⟨hpos, hle⟩ := hold hd
      exact ⟨Or.inr hle, by omega⟩
    refine (separate_cons (by dsimp only; omega)).mpr ⟨fun d hd => ?_, hsep⟩
    cases takes with
    | whole exactly =>
      dsimp only at exactly
      omega
    | upper _ =>
      rcases Multiset.mem_cons.mp hd with rfl | hd
      · dsimp only
        omega
      · obtain ⟨hpos, hle⟩ := hold hd
        dsimp only
        omega

/-- The blocks fill the ranges below the break, and none reaches over the end of its own. -/
structure Tiled (ranges : Multiset Block) (brk : Nat) (blocks : Multiset Block) : Prop where
  pos : ∀ r ∈ ranges, 0 < r.size
  below : ∀ r ∈ ranges, r.start + r.size ≤ brk
  apart : ∀ r ∈ ranges, ∀ r' ∈ ranges, r ≠ r' → r.Apart r'
  inside : ∀ b ∈ blocks, ∃ r ∈ ranges, r.start ≤ b.start ∧ b.start + b.size ≤ r.start + r.size
  covered : ∀ r ∈ ranges, ∀ a, r.start ≤ a → a < r.start + r.size →
    ∃ b ∈ blocks, b.start ≤ a ∧ a < b.start + b.size

section Tiled

variable {ranges blocks : Multiset Block} {brk : Nat}

theorem Tiled.nil (brk : Nat) : Tiled 0 brk 0 where
  pos := fun _ h => absurd h (Multiset.notMem_zero _)
  below := fun _ h => absurd h (Multiset.notMem_zero _)
  apart := fun _ h => absurd h (Multiset.notMem_zero _)
  inside := fun _ h => absurd h (Multiset.notMem_zero _)
  covered := fun _ h => absurd h (Multiset.notMem_zero _)

/-- One block is cut in two. -/
theorem Tiled.cut (tiled : Tiled ranges brk (b ::ₘ blocks)) (hn : n ≤ b.size) :
    Tiled ranges brk (⟨b.start, b.size - n⟩ ::ₘ ⟨b.start + (b.size - n), n⟩ ::ₘ blocks) := by
  refine ⟨tiled.pos, tiled.below, tiled.apart, fun c hc => ?_, fun r hr a hlo hhi => ?_⟩
  · have hb := tiled.inside b (Multiset.mem_cons_self b blocks)
    simp only [Multiset.mem_cons] at hc
    rcases hc with rfl | rfl | hc
    · obtain ⟨r, hr, hlo, hhi⟩ := hb
      refine ⟨r, hr, hlo, ?_⟩
      dsimp only
      omega
    · obtain ⟨r, hr, hlo, hhi⟩ := hb
      refine ⟨r, hr, ?_, ?_⟩
      · dsimp only
        omega
      · dsimp only
        omega
    · exact tiled.inside c (Multiset.mem_cons_of_mem hc)
  · obtain ⟨c, hc, hstart, hend⟩ := tiled.covered r hr a hlo hhi
    rcases Multiset.mem_cons.mp hc with rfl | hc
    · by_cases hcut : a < c.start + (c.size - n)
      · exact ⟨_, Multiset.mem_cons_self _ _, hstart, hcut⟩
      · refine ⟨_, Multiset.mem_cons_of_mem (Multiset.mem_cons_self _ _), ?_, ?_⟩
        · exact not_lt.mp hcut
        · dsimp only
          omega
    · exact ⟨c, Multiset.mem_cons_of_mem (Multiset.mem_cons_of_mem hc), hstart, hend⟩

/-- A range of one block at the break. -/
theorem Tiled.grow (tiled : Tiled ranges brk blocks) (hsize : 0 < size) :
    Tiled (⟨brk, size⟩ ::ₘ ranges) (brk + size) (⟨brk, size⟩ ::ₘ blocks) := by
  have hself := Multiset.mem_cons_self (⟨brk, size⟩ : Block) ranges
  refine ⟨fun r hr => ?_, fun r hr => ?_, fun r hr r' hr' hne => ?_, fun b hb => ?_,
    fun r hr a hlo hhi => ?_⟩
  · rcases Multiset.mem_cons.mp hr with rfl | hr
    · exact hsize
    · exact tiled.pos r hr
  · rcases Multiset.mem_cons.mp hr with rfl | hr
    · exact le_refl _
    · exact le_trans (tiled.below r hr) (Nat.le_add_right _ _)
  · rcases Multiset.mem_cons.mp hr with rfl | hr
    · rcases Multiset.mem_cons.mp hr' with rfl | hr'
      · exact absurd rfl hne
      · exact Or.inr (tiled.below r' hr')
    · rcases Multiset.mem_cons.mp hr' with rfl | hr'
      · exact Or.inl (tiled.below r hr)
      · exact tiled.apart r hr r' hr' hne
  · rcases Multiset.mem_cons.mp hb with rfl | hb
    · exact ⟨_, hself, le_refl _, le_refl _⟩
    · obtain ⟨r, hr, h⟩ := tiled.inside b hb
      exact ⟨r, Multiset.mem_cons_of_mem hr, h⟩
  · rcases Multiset.mem_cons.mp hr with rfl | hr
    · exact ⟨_, Multiset.mem_cons_self _ _, hlo, hhi⟩
    · obtain ⟨b, hb, h⟩ := tiled.covered r hr a hlo hhi
      exact ⟨b, Multiset.mem_cons_of_mem hb, h⟩

theorem Tiled.row (tiled : Tiled ranges brk blocks) (hsize : 0 < size) (k : Nat) :
    Tiled (row brk size k + ranges) (brk + k * size) (row brk size k + blocks) := by
  induction k generalizing brk ranges blocks with
  | zero =>
    rw [BlockPool.row, zero_add, zero_add, Nat.zero_mul, Nat.add_zero]
    exact tiled
  | succ k ih =>
    have h := ih (tiled.grow hsize)
    rw [Multiset.add_cons, Multiset.add_cons] at h
    rw [BlockPool.row, Multiset.cons_add, Multiset.cons_add, Nat.succ_mul, Nat.add_comm (k * size),
      ← Nat.add_assoc]
    exact h

theorem Takes.tiled {live : Multiset Block} (h : Takes n b rest c free)
    (tiled : Tiled ranges brk ((b ::ₘ rest) + live)) : Tiled ranges brk (free + (c ::ₘ live)) := by
  have hle := h.le
  rw [Multiset.cons_add] at tiled
  cases h with
  | whole _ =>
    rw [Multiset.add_cons]
    exact tiled
  | upper _ =>
    rw [Multiset.add_cons, Multiset.cons_add, Multiset.cons_swap]
    exact tiled.cut hle

theorem Allocs.tiled (h : Allocs n size k p p') (hsize : 0 < size)
    (tiled : Tiled ranges p.brk (p.free + p.live)) :
    Tiled (BlockPool.row p.brk size k + ranges) p'.brk (p'.free + p'.live) := by
  cases h with
  | taken takes =>
    rw [BlockPool.row, zero_add]
    exact takes.tiled tiled
  | refused _ _ =>
    rw [add_assoc]
    exact tiled.row hsize k
  | @fetched c free free' live brk _ _ takes =>
    have h := (tiled.grow hsize).grow hsize
    dsimp only at h
    rw [← Multiset.cons_add, ← Multiset.cons_add,
      Multiset.cons_swap ⟨brk + size, size⟩ ⟨brk, size⟩ free] at h
    rw [BlockPool.row, BlockPool.row, BlockPool.row, Multiset.cons_add, Multiset.cons_add, zero_add,
      Multiset.cons_swap]
    exact takes.cons.tiled h

/-- A block that holds a byte of a range lies in it. -/
theorem Tiled.holds (tiled : Tiled ranges brk blocks) {r : Block} (hr : r ∈ ranges) {a : Nat}
    (hlo : r.start ≤ a) (hhi : a < r.start + r.size) :
    ∃ b ∈ blocks, b.start ≤ a ∧ a < b.start + b.size ∧ r.start ≤ b.start ∧
      b.start + b.size ≤ r.start + r.size := by
  obtain ⟨b, hb, hstart, hend⟩ := tiled.covered r hr a hlo hhi
  obtain ⟨r', hr', hlo', hhi'⟩ := tiled.inside b hb
  have hsame : r' = r := by
    by_contra hne
    rcases tiled.apart r' hr' r hr hne with h | h <;> omega
  subst hsame
  exact ⟨b, hb, hstart, hend, hlo', hhi'⟩

/-- A range without a live block is one free block, if no two free blocks touch. -/
theorem Tiled.whole (tiled : Tiled ranges p.brk (p.free + p.live)) (laid : p.Laid base)
    (separate : Separate p.free) {r : Block} (hr : r ∈ ranges)
    (unused : ∀ b ∈ p.live, ¬ (r.start ≤ b.start ∧ b.start + b.size ≤ r.start + r.size)) :
    r ∈ p.free := by
  have hpos := tiled.pos r hr
  have cover {a : Nat} (hlo : r.start ≤ a) (hhi : a < r.start + r.size) :
      ∃ b ∈ p.free, b.start ≤ a ∧ a < b.start + b.size ∧ r.start ≤ b.start ∧
        b.start + b.size ≤ r.start + r.size := by
    obtain ⟨b, hb, h⟩ := tiled.holds hr hlo hhi
    rcases Multiset.mem_add.mp hb with hb | hb
    · exact ⟨b, hb, h⟩
    · exact absurd h.2.2 (unused b hb)
  obtain ⟨b, hb, hstart, _, hlo, hhi⟩ := cover (le_refl _) (Nat.lt_add_of_pos_right hpos)
  have hfirst : b.start = r.start := le_antisymm hstart hlo
  have hsize := (laid.bounds (Multiset.mem_add.mpr (Or.inl hb))).2.1
  have hlast : b.start + b.size = r.start + r.size := by
    by_contra hne
    obtain ⟨c, hc, hstart', hend', _⟩ := cover (a := b.start + b.size) (by omega) (by omega)
    have hbc : b ≠ c := by
      rintro rfl
      omega
    rcases laid.apart (Multiset.mem_add.mpr (Or.inl hb)) (Multiset.mem_add.mpr (Or.inl hc)) hbc with
      h | h
    · exact separate b hb c hc (le_antisymm h hstart')
    · omega
  have heq : b = r := by
    cases b
    cases r
    simp only at hfirst hlast ⊢
    rw [hfirst]
    congr 1
    omega
  exact heq ▸ hb

end Tiled

structure Aligned (q : Nat) (p : Pool) : Prop where
  brk : q ∣ p.brk
  start : ∀ b ∈ p.free + p.live, q ∣ b.start
  size : ∀ b ∈ p.free + p.live, q ∣ b.size

section Aligned

variable {q : Nat} {live : Multiset Block} {brk : Nat}

theorem Takes.aligned (h : Takes n b rest c free) (hn : q ∣ n)
    (aligned : Aligned q ⟨b ::ₘ rest, live, brk⟩) : Aligned q ⟨free, c ::ₘ live, brk⟩ := by
  have hle := h.le
  obtain ⟨hbrk, hstart, hsize⟩ := aligned
  have hb : b ∈ (b ::ₘ rest) + live := Multiset.mem_add.mpr (Or.inl (Multiset.mem_cons_self b rest))
  have hleft : q ∣ b.size - n := Nat.dvd_sub (hsize b hb) hn
  cases h with
  | whole _ =>
    have heq : rest + (b ::ₘ live) = (b ::ₘ rest) + live := by
      rw [Multiset.add_cons, Multiset.cons_add]
    refine ⟨hbrk, ?_, ?_⟩
    · rw [heq]
      exact hstart
    · rw [heq]
      exact hsize
  | upper _ =>
    have hold {d : Block} (hd : d ∈ rest + live) : d ∈ (b ::ₘ rest) + live := by
      rw [Multiset.cons_add]
      exact Multiset.mem_cons_of_mem hd
    refine ⟨hbrk, fun d hd => ?_, fun d hd => ?_⟩
    · simp only [Multiset.cons_add, Multiset.add_cons, Multiset.mem_cons] at hd
      rcases hd with rfl | rfl | hd
      · exact (Nat.dvd_add_right (hstart b hb)).mpr hleft
      · exact hstart b hb
      · exact hstart d (hold hd)
    · simp only [Multiset.cons_add, Multiset.add_cons, Multiset.mem_cons] at hd
      rcases hd with rfl | rfl | hd
      · exact hn
      · exact hleft
      · exact hsize d (hold hd)

theorem Aligned.grow (aligned : Aligned q ⟨free, live, brk⟩) (hsize : q ∣ size) :
    Aligned q ⟨⟨brk, size⟩ ::ₘ free, live, brk + size⟩ := by
  refine ⟨(Nat.dvd_add_right aligned.brk).mpr hsize, fun b hb => ?_, fun b hb => ?_⟩
  · rw [Multiset.cons_add] at hb
    rcases Multiset.mem_cons.mp hb with rfl | hb
    · exact aligned.brk
    · exact aligned.start b hb
  · rw [Multiset.cons_add] at hb
    rcases Multiset.mem_cons.mp hb with rfl | hb
    · exact hsize
    · exact aligned.size b hb

theorem Aligned.row (aligned : Aligned q ⟨free, live, brk⟩) {k : Nat} (hsize : 0 < k → q ∣ size) :
    Aligned q ⟨row brk size k + free, live, brk + k * size⟩ := by
  induction k generalizing brk free with
  | zero =>
    rw [BlockPool.row, zero_add, Nat.zero_mul, Nat.add_zero]
    exact aligned
  | succ k ih =>
    have hsize := hsize (Nat.succ_pos k)
    have h := ih (aligned.grow hsize) fun _ => hsize
    rw [Multiset.add_cons] at h
    rw [BlockPool.row, Multiset.cons_add, Nat.succ_mul, Nat.add_comm (k * size), ← Nat.add_assoc]
    exact h

/-- The size has to be a multiple if the request is served, and the blocks if there are any. -/
theorem Allocs.aligned (h : Allocs n size k p p') (aligned : Aligned q p)
    (served : (∃ b ∈ p.free, n ≤ b.size) ∨ k = 2 ∧ n + 8 ≤ size → q ∣ n)
    (hsize : 0 < k → q ∣ size) : Aligned q p' := by
  cases h with
  | @taken b _ rest _ _ _ takes =>
    exact takes.aligned (served (Or.inl ⟨b, Multiset.mem_cons_self b rest, takes.le⟩)) aligned
  | refused _ _ => exact aligned.row hsize
  | fetched _ room takes =>
    have hsize := hsize (by decide)
    have h := (aligned.grow hsize).grow hsize
    rw [Multiset.cons_swap] at h
    exact takes.cons.aligned (served (Or.inr ⟨rfl, room⟩)) h

end Aligned

end BlockPool
