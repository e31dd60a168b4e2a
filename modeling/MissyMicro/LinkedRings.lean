import Mathlib.Logic.Function.Iterate
import Mathlib.Order.Lattice
import Mathlib.Order.Nat
import Mathlib.Tactic.Common

/-!
# Linked rings

A successor function links cells into rings. A ring is a path that ends where it
began, so it can be entered at any cell, and inserting or removing a cell changes
one link. In a ring whose cells increase from its first one, the successor of a
cell is the next larger cell. A loop with fuel that follows the links is decided
by the cell where it stops.
-/

namespace LinkedRings

universe u v

variable {α : Type u} {β : Type v}

/-- Enough fuel gives the result. -/
def Returns (f : Nat → Option β) (r : β) : Prop := ∃ n, ∀ fuel, n ≤ fuel → f fuel = some r

theorem Returns.unique {f : Nat → Option β} {r r' : β} (h : Returns f r) (h' : Returns f r') :
    r = r' := by
  obtain ⟨n, hn⟩ := h
  obtain ⟨m, hm⟩ := h'
  have hr := hn (max n m) (le_max_left n m)
  rw [hm (max n m) (le_max_right n m)] at hr
  exact (Option.some.inj hr).symm

theorem Returns.of_eq {f : Nat → Option β} {r : β} (h : ∀ fuel, f fuel = some r) : Returns f r :=
  ⟨0, fun fuel _ => h fuel⟩

/-- A loop that has returned is not changed by more fuel. -/
def Stable (f : Nat → Option β) : Prop := ∀ fuel r, f fuel = some r → f (fuel + 1) = some r

theorem Stable.returns {f : Nat → Option β} (h : Stable f) {n : Nat} {r : β} (hr : f n = some r) :
    Returns f r := by
  refine ⟨n, fun fuel hle => ?_⟩
  induction hle with
  | refl => exact hr
  | step _ ih => exact h _ _ ih

theorem Stable.map {f : Nat → Option α} (h : Stable f) (g : α → β) :
    Stable (fun fuel => (f fuel).map g) := by
  intro fuel r hr
  obtain ⟨x, hx, rfl⟩ := Option.map_eq_some_iff.mp hr
  simp only [h fuel x hx, Option.map_some]

/-- One turn of a loop costs one unit of fuel. -/
theorem Returns.turn {f g : Nat → Option β} {r : β} (h : ∀ fuel, f (fuel + 1) = g fuel)
    (hg : Returns g r) : Returns f r := by
  obtain ⟨n, hn⟩ := hg
  refine ⟨n + 1, fun fuel hle => ?_⟩
  obtain ⟨k, rfl⟩ : ∃ k, fuel = k + 1 := ⟨fuel - 1, by omega⟩
  rw [h, hn k (by omega)]

theorem Returns.bind {f : Nat → Option α} {g : Nat → α → Option β} {x : α} {r : β}
    (hf : Returns f x) (hg : Returns (fun fuel => g fuel x) r) :
    Returns (fun fuel => (f fuel).bind (g fuel)) r := by
  obtain ⟨n, hn⟩ := hf
  obtain ⟨m, hm⟩ := hg
  refine ⟨max n m, fun fuel hle => ?_⟩
  have hx := hn fuel (le_trans (le_max_left n m) hle)
  have hr := hm fuel (le_trans (le_max_right n m) hle)
  simp only [hx, Option.bind_some, hr]

theorem Returns.map {f : Nat → Option α} {x : α} (hf : Returns f x) (g : α → β) :
    Returns (fun fuel => (f fuel).map g) (g x) := by
  obtain ⟨n, hn⟩ := hf
  refine ⟨n, fun fuel hle => ?_⟩
  simp only [hn fuel hle, Option.map_some]

variable {next next' : α → α} {a b c : α} {xs ys : List α}

/-- From `a`, the links run through the cells in the list and then reach `b`. -/
def Path (next : α → α) : α → List α → α → Prop
  | a, [], b => a = b
  | a, x :: xs, b => a = x ∧ Path next (next x) xs b

instance Path.decidable [DecidableEq α] (next : α → α) :
    (a : α) → (xs : List α) → (b : α) → Decidable (Path next a xs b)
  | a, [], b => inferInstanceAs (Decidable (a = b))
  | a, x :: xs, b =>
    have := Path.decidable next (next x) xs b
    inferInstanceAs (Decidable (a = x ∧ Path next (next x) xs b))

theorem Path.append_iff :
    Path next a (xs ++ ys) c ↔ ∃ b, Path next a xs b ∧ Path next b ys c := by
  induction xs generalizing a with
  | nil => exact ⟨fun h => ⟨a, rfl, h⟩, fun ⟨b, hab, h⟩ => by cases hab; exact h⟩
  | cons x xs ih =>
    constructor
    · rintro ⟨rfl, h⟩
      obtain ⟨b, hxs, hys⟩ := ih.mp h
      exact ⟨b, ⟨rfl, hxs⟩, hys⟩
    · rintro ⟨b, ⟨rfl, hxs⟩, hys⟩
      exact ⟨rfl, ih.mpr ⟨b, hxs, hys⟩⟩

/-- A path through `b` splits there. -/
theorem Path.split (h : Path next a (xs ++ b :: ys) c) :
    Path next a xs b ∧ Path next (next b) ys c := by
  obtain ⟨d, hxs, rfl, hys⟩ := Path.append_iff.mp h
  exact ⟨hxs, hys⟩

theorem Path.join (hxs : Path next a xs b) (hys : Path next (next b) ys c) :
    Path next a (xs ++ b :: ys) c :=
  Path.append_iff.mpr ⟨b, hxs, rfl, hys⟩

theorem Path.congr (same : ∀ x ∈ xs, next' x = next x) (h : Path next a xs b) :
    Path next' a xs b := by
  induction xs generalizing a with
  | nil => exact h
  | cons x xs ih =>
    obtain ⟨rfl, hxs⟩ := h
    refine ⟨rfl, ?_⟩
    rw [same a List.mem_cons_self]
    exact ih (fun y hy => same y (List.mem_cons_of_mem _ hy)) hxs

theorem Path.head_eq (h : Path next a xs b) : a = xs.headD b := by
  cases xs with
  | nil => exact h
  | cons x xs => exact h.1

/-- The cell before the end of a path. -/
theorem Path.last (h : Path next (next c) xs b) :
    next (xs.getLastD c) = b ∧ xs.getLastD c ∈ c :: xs := by
  induction xs generalizing c with
  | nil => exact ⟨h, List.mem_cons_self⟩
  | cons x xs ih =>
    obtain ⟨_, hxs⟩ := h
    obtain ⟨hnext, hmem⟩ := ih hxs
    rw [List.getLastD_cons]
    exact ⟨hnext, List.mem_cons_of_mem _ hmem⟩

theorem Path.iterate (h : Path next a xs b) :
    next^[xs.length] a = b ∧ ∀ j, j < xs.length → next^[j] a ∈ xs := by
  induction xs generalizing a with
  | nil => exact ⟨h, fun j hj => absurd hj (Nat.not_lt_zero j)⟩
  | cons x xs ih =>
    obtain ⟨rfl, hxs⟩ := h
    obtain ⟨hend, hmem⟩ := ih hxs
    refine ⟨hend, fun j hj => ?_⟩
    cases j with
    | zero => exact List.mem_cons_self
    | succ j => exact List.mem_cons_of_mem _ (hmem j (Nat.lt_of_succ_lt_succ hj))

/-- The cells of the list, linked in order and back to the first. -/
def Ring (next : α → α) (xs : List α) : Prop := ∃ a, Path next a xs a

/-- A ring entered at one of its cells leads through all others back to it. -/
theorem Ring.around (h : Ring next (xs ++ a :: ys)) : Path next (next a) (ys ++ xs) a := by
  obtain ⟨b, hring⟩ := h
  obtain ⟨hxs, hys⟩ := hring.split
  exact Path.append_iff.mpr ⟨b, hys, hxs⟩

theorem Ring.rotate (h : Ring next xs) (ha : a ∈ xs) :
    ∃ ys, Path next (next a) ys a ∧ xs.Perm (a :: ys) := by
  obtain ⟨us, vs, rfl⟩ := List.append_of_mem ha
  exact ⟨vs ++ us, h.around, List.perm_middle.trans (List.perm_append_comm.cons a)⟩

theorem Ring.path_last (h : Ring next (xs ++ [b, a])) : Path next (next a) xs b := by
  have hring : Ring next ((xs ++ [b]) ++ a :: []) := by
    rw [List.append_assoc]
    exact h
  exact hring.around.split.1

/-- From the first cell to the last one, and from there to the first. -/
theorem Ring.path_end (h : Ring next (xs ++ [a])) :
    Path next (xs.headD a) xs a ∧ next a = xs.headD a := by
  obtain ⟨b, ring⟩ := h
  have hb : b = xs.headD a := by
    rw [ring.head_eq]
    cases xs <;> rfl
  subst hb
  exact ring.split

theorem Ring.mem_next (h : Ring next xs) (ha : a ∈ xs) : next a ∈ xs := by
  obtain ⟨ys, around, perm⟩ := h.rotate ha
  rw [perm.mem_iff, around.head_eq]
  cases ys with
  | nil => exact List.mem_cons_self
  | cons y ys => exact List.mem_cons_of_mem a List.mem_cons_self

theorem Ring.mem_iterate (h : Ring next xs) (ha : a ∈ xs) (k : Nat) : next^[k] a ∈ xs := by
  induction k generalizing a with
  | zero => exact ha
  | succ k ih => exact ih (h.mem_next ha)

theorem Ring.reaches (h : Ring next xs) (ha : a ∈ xs) (hb : b ∈ xs) : ∃ k, next^[k] a = b := by
  obtain ⟨ys, around, perm⟩ := h.rotate ha
  rcases List.mem_cons.mp (perm.mem_iff.mp hb) with rfl | hb
  · exact ⟨0, rfl⟩
  · obtain ⟨us, vs, rfl⟩ := List.append_of_mem hb
    exact ⟨us.length + 1, around.split.1.iterate.1⟩

/-- The first part of the way around that ends at `b`. -/
theorem Ring.path_to (h : Ring next xs) (nodup : xs.Nodup) (ha : a ∈ xs) (hb : b ∈ xs) :
    ∃ ys, Path next a ys b ∧ b ∉ ys ∧ ∀ y ∈ ys, y ∈ xs := by
  obtain ⟨zs, around, perm⟩ := h.rotate hb
  have hrest : b ∉ zs := (List.nodup_cons.mp (perm.nodup_iff.mp nodup)).1
  rcases List.mem_cons.mp (perm.mem_iff.mp ha) with rfl | ha
  · exact ⟨[], rfl, List.not_mem_nil, fun y hy => absurd hy List.not_mem_nil⟩
  · obtain ⟨us, vs, rfl⟩ := List.append_of_mem ha
    refine ⟨a :: vs, ⟨rfl, around.split.2⟩, fun hb' => hrest (List.mem_append_right us hb'), ?_⟩
    intro y hy
    exact perm.mem_iff.mpr (List.mem_cons_of_mem b (List.mem_append_right us hy))

/-- Behind a cell there is a first one with the property, or the way around has none. -/
theorem Ring.find_cases (h : Ring next xs) (nodup : xs.Nodup) (ha : a ∈ xs) (q : α → Prop)
    [DecidablePred q] :
    (∃ ys b, Path next (next a) ys b ∧ (∀ y ∈ ys, y ∈ xs) ∧ (∀ y ∈ ys, ¬ q y) ∧ a ∉ ys ∧
      b ∈ xs ∧ q b) ∨
    ∃ ys, Path next (next a) ys a ∧ (∀ y ∈ ys, y ∈ xs) ∧ a ∉ ys ∧ ∀ x ∈ xs, ¬ q x := by
  obtain ⟨others, around, perm⟩ := h.rotate ha
  have hmem : ∀ y ∈ others, y ∈ xs := fun y hy => perm.mem_iff.mpr (List.mem_cons_of_mem _ hy)
  have hfresh : a ∉ others := (List.nodup_cons.mp (perm.nodup_iff.mp nodup)).1
  cases hfind : others.find? (fun y => decide (q y)) with
  | some b =>
    obtain ⟨hq, ys, zs, rfl, hbefore⟩ := List.find?_eq_some_iff_append.mp hfind
    refine Or.inl ⟨ys, b, around.split.1, fun y hy => hmem y (List.mem_append_left _ hy), ?_,
      fun hy => hfresh (List.mem_append_left _ hy), hmem b ?_, of_decide_eq_true hq⟩
    · intro y hy
      simpa using hbefore y hy
    · exact List.mem_append_right ys List.mem_cons_self
  | none =>
    have none : ∀ y ∈ others, ¬ q y := by
      intro y hy
      simpa using List.find?_eq_none.mp hfind y hy
    by_cases hq : q a
    · exact Or.inl ⟨others, a, around, hmem, none, hfresh, ha, hq⟩
    · refine Or.inr ⟨others, around, hmem, hfresh, fun x hx => ?_⟩
      rcases List.mem_cons.mp (perm.mem_iff.mp hx) with rfl | hx
      · exact hq
      · exact none x hx

/-- A cell of a ring and the others. -/
theorem mem_middle {p x : α} {us vs : List α} (hx : x ∈ us ++ vs) : x ∈ us ++ p :: vs :=
  List.perm_middle.mem_iff.mpr (List.mem_cons_of_mem p hx)

theorem ne_middle {p x : α} {us vs : List α} (nodup : (us ++ p :: vs).Nodup)
    (hx : x ∈ us ++ vs) : x ≠ p := by
  rintro rfl
  exact (List.nodup_cons.mp (List.perm_middle.nodup_iff.mp nodup)).1 hx

/-- Linking `b` in after `a`. -/
theorem Ring.insert (h : Ring next (xs ++ a :: ys)) (hab : next' a = b) (hb : next' b = next a)
    (same : ∀ x ∈ xs ++ ys, next' x = next x) : Ring next' (xs ++ a :: b :: ys) := by
  obtain ⟨c, h⟩ := h
  obtain ⟨hxs, hys⟩ := h.split
  refine ⟨c, (hxs.congr fun x hx => same x (List.mem_append_left _ hx)).join ⟨hab, ?_⟩⟩
  rw [hb]
  exact hys.congr fun x hx => same x (List.mem_append_right _ hx)

/-- Linking `b` out after `a`. -/
theorem Ring.remove (h : Ring next (xs ++ a :: b :: ys)) (hab : next' a = next b)
    (same : ∀ x ∈ xs ++ ys, next' x = next x) : Ring next' (xs ++ a :: ys) := by
  obtain ⟨c, h⟩ := h
  obtain ⟨hxs, _, hys⟩ := h.split
  refine ⟨c, (hxs.congr fun x hx => same x (List.mem_append_left _ hx)).join ?_⟩
  rw [hab]
  exact hys.congr fun x hx => same x (List.mem_append_right _ hx)

theorem Ring.congr (h : Ring next xs) (same : ∀ x ∈ xs, next' x = next x) : Ring next' xs := by
  obtain ⟨a, h⟩ := h
  exact ⟨a, h.congr same⟩

/-- The successor of a cell stands after it, unless it is the first. -/
theorem Ring.cut_after {us vs : List α} (h : Ring next (a :: xs)) (cut : a :: xs = us ++ b :: vs)
    (hne : next b ≠ a) : ∃ ws, vs = next b :: ws := by
  rw [cut] at h
  have hnext := h.around.head_eq
  cases vs with
  | cons v vs => exact ⟨vs, by rw [hnext]; rfl⟩
  | nil =>
    cases us with
    | nil => exact absurd (hnext.trans (List.cons.inj cut).1.symm) hne
    | cons u us => exact absurd (hnext.trans (List.cons.inj cut).1.symm) hne

theorem Ring.cut_next (h : Ring next (a :: xs)) (hb : b ∈ a :: xs) (hc : next b = c)
    (hne : c ≠ a) : ∃ us vs, a :: xs = us ++ b :: c :: vs := by
  obtain ⟨us, vs, cut⟩ := List.append_of_mem hb
  obtain ⟨ws, rfl⟩ := h.cut_after cut (hc ▸ hne)
  exact ⟨us, ws, hc ▸ cut⟩

/-- A loop that turns at every cell of a path, and remembers the cell before. -/
theorem Path.walk {f : Nat → α → α → Option β} {r : β} (h : Path next a xs b)
    (turn : ∀ x ∈ xs, ∀ fuel prev, f (fuel + 1) prev x = f fuel x (next x)) {prev : α}
    (stop : Returns (fun fuel => f fuel (xs.getLastD prev) b) r) :
    Returns (fun fuel => f fuel prev a) r := by
  induction xs generalizing a prev with
  | nil =>
    cases h
    exact stop
  | cons x xs ih =>
    obtain ⟨rfl, hxs⟩ := h
    rw [List.getLastD_cons] at stop
    exact Returns.turn (fun fuel => turn a List.mem_cons_self fuel prev)
      (ih hxs (fun y hy => turn y (List.mem_cons_of_mem _ hy)) stop)

section Sorted

variable [LinearOrder α] (ring : Ring next (a :: xs)) (sorted : (a :: xs).Pairwise (· < ·))

include ring sorted

/-- The successor in a sorted ring is the next larger cell; after the largest comes the
first. -/
theorem Ring.next_cases {x : α} (hx : x ∈ a :: xs) :
    (x < next x ∧ ∀ y ∈ a :: xs, x < y → next x ≤ y) ∨
      (next x = a ∧ ∀ y ∈ a :: xs, y ≤ x) := by
  obtain ⟨us, vs, hsplit⟩ := List.append_of_mem hx
  rw [hsplit] at ring sorted ⊢
  have hnext := ring.around.head_eq
  obtain ⟨_, hright, hleft⟩ := List.pairwise_append.mp sorted
  obtain ⟨hlt, hvs⟩ := List.pairwise_cons.mp hright
  have below {y : α} (hy : y ∈ us) : y < x := hleft y hy x List.mem_cons_self
  cases vs with
  | nil =>
    refine Or.inr ⟨?_, fun y hy => ?_⟩
    · cases us with
      | nil => exact hnext.trans (List.cons.inj hsplit).1.symm
      | cons u us => exact hnext.trans (List.cons.inj hsplit).1.symm
    · rcases List.mem_append.mp hy with hy | hy
      · exact le_of_lt (below hy)
      · exact le_of_eq (List.mem_singleton.mp hy)
  | cons v vs =>
    have hnext : next x = v := hnext
    obtain ⟨hv, _⟩ := List.pairwise_cons.mp hvs
    rw [hnext]
    refine Or.inl ⟨hlt v List.mem_cons_self, fun y hy hxy => ?_⟩
    rcases List.mem_append.mp hy with hy | hy
    · exact absurd (below hy) (not_lt.mpr (le_of_lt hxy))
    · rcases List.mem_cons.mp hy with rfl | hy
      · exact absurd hxy (lt_irrefl _)
      · rcases List.mem_cons.mp hy with rfl | hy
        · exact le_refl _
        · exact le_of_lt (hv y hy)

/-- After the last cell comes the first. -/
theorem Ring.next_last {us : List α} {p : α} (hlast : a :: xs = us ++ [p]) :
    next p = a ∧ ∀ y ∈ a :: xs, y ≤ p := by
  have hp : p ∈ a :: xs := hlast ▸ List.mem_append_right us List.mem_cons_self
  have hmax : ∀ y ∈ a :: xs, y ≤ p := by
    rw [hlast] at sorted ⊢
    intro y hy
    rcases List.mem_append.mp hy with hy | hy
    · exact le_of_lt ((List.pairwise_append.mp sorted).2.2 y hy p List.mem_cons_self)
    · exact le_of_eq (List.mem_singleton.mp hy)
  rcases ring.next_cases sorted hp with ⟨hgt, _⟩ | ⟨hfirst, _⟩
  · exact absurd hgt (not_lt.mpr (hmax _ (ring.mem_next hp)))
  · exact ⟨hfirst, hmax⟩

/-- A value falls behind the cell `x`: before its successor, or, behind the last cell of the
ring, beyond either end. -/
def Gap (next : α → α) (b x : α) : Prop :=
  (x < b ∧ b < next x) ∨ (next x ≤ x ∧ (x < b ∨ b < next x))

section Gap

variable {b p : α} (above : a < b) (fresh : b ∉ a :: xs) (hp : p ∈ a :: xs) (hlt : p < b)
  (hmax : ∀ y ∈ a :: xs, y < b → y ≤ p)

include ring sorted above fresh hp hlt hmax

/-- In a sorted ring a value above the first cell falls behind the largest cell below it. -/
theorem Ring.gap_iff {x : α} (hx : x ∈ a :: xs) : Gap next b x ↔ x = p := by
  have hnext := ring.mem_next hx
  have hne : next x ≠ b := fun heq => fresh (heq ▸ hnext)
  rw [Gap]
  rcases ring.next_cases sorted hx with ⟨hgt, hmin⟩ | ⟨hfirst, hlast⟩
  · constructor
    · rintro (⟨hxb, hbn⟩ | ⟨hle, _⟩)
      · refine le_antisymm (hmax x hx hxb) (not_lt.mp fun hxp => ?_)
        exact absurd (hmin p hp hxp) (not_le.mpr (lt_trans hlt hbn))
      · exact absurd hgt (not_lt.mpr hle)
    · rintro rfl
      refine Or.inl ⟨hlt, lt_of_not_ge fun hle => ?_⟩
      exact absurd (hmax _ hnext (lt_of_le_of_ne hle hne)) (not_le.mpr hgt)
  · rw [hfirst]
    constructor
    · rintro (⟨_, hba⟩ | ⟨_, hxb | hba⟩)
      · exact absurd hba (not_lt.mpr (le_of_lt above))
      · exact le_antisymm (hmax x hx hxb) (hlast p hp)
      · exact absurd hba (not_lt.mpr (le_of_lt above))
    · rintro rfl
      exact Or.inr ⟨hlast a List.mem_cons_self, Or.inl hlt⟩

/-- A loop that follows the links and stops where the value falls finds that cell from
every cell of the ring. -/
theorem Ring.search {f : Nat → α → Option α}
    (stop : ∀ fuel x, Gap next b x → f (fuel + 1) x = some x)
    (turn : ∀ fuel x, ¬ Gap next b x → f (fuel + 1) x = f fuel (next x)) {start : α}
    (hstart : start ∈ a :: xs) : Returns (fun fuel => f fuel start) p := by
  have gap {x : α} (hx : x ∈ a :: xs) : Gap next b x ↔ x = p :=
    ring.gap_iff sorted above fresh hp hlt hmax hx
  have nodup : (a :: xs).Nodup := sorted.imp fun h => ne_of_lt h
  obtain ⟨ys, path, hfresh, hmem⟩ := ring.path_to nodup hstart hp
  refine @Path.walk _ _ _ _ _ _ (fun fuel _ x => f fuel x) _ path ?_ start ?_
  · intro x hx fuel _
    have hne : x ≠ p := fun heq => hfresh (heq ▸ hx)
    exact turn fuel x fun h => hne ((gap (hmem x hx)).mp h)
  · exact Returns.turn (g := fun _ => some p) (fun fuel => stop fuel p ((gap hp).mpr rfl))
      (.of_eq fun _ => rfl)

end Gap

end Sorted

theorem mem_insert_iff {p c : α} {us vs : List α} :
    c ∈ us ++ p :: b :: vs ↔ c = b ∨ c ∈ us ++ p :: vs := by
  rw [List.append_cons us p (b :: vs), List.append_cons us p vs, List.perm_middle.mem_iff,
    List.mem_cons]

theorem head_le [LinearOrder α] (sorted : (a :: xs).Pairwise (· < ·)) (hb : b ∈ a :: xs) :
    a ≤ b := by
  rcases List.mem_cons.mp hb with rfl | hb
  · exact le_refl _
  · exact le_of_lt ((List.pairwise_cons.mp sorted).1 b hb)

/-- A sorted list begins with its least cell. -/
theorem sorted_head [LinearOrder α] (sorted : xs.Pairwise (· < ·)) (ha : a ∈ xs)
    (least : ∀ x ∈ xs, a ≤ x) : ∃ ys, xs = a :: ys := by
  cases xs with
  | nil => exact absurd ha List.not_mem_nil
  | cons x ys =>
    have heq : x = a := le_antisymm (head_le sorted ha) (least x List.mem_cons_self)
    exact ⟨ys, congrArg (· :: ys) heq⟩

/-- The largest cell below a value, and the list cut after it. -/
theorem sorted_cut [LinearOrder α] {b : α} (sorted : (a :: xs).Pairwise (· < ·)) (above : a < b)
    (fresh : b ∉ a :: xs) : ∃ p us vs, a :: xs = us ++ p :: vs ∧ p < b ∧
      (∀ y ∈ a :: xs, y < b → y ≤ p) ∧ (us ++ p :: b :: vs).Pairwise (· < ·) := by
  induction xs generalizing a with
  | nil =>
    refine ⟨a, [], [], rfl, above, fun y hy _ => le_of_eq (List.mem_singleton.mp hy), ?_⟩
    exact List.pairwise_pair.mpr above
  | cons x xs ih =>
    obtain ⟨hax, hxs⟩ := List.pairwise_cons.mp sorted
    have hlt := hax x List.mem_cons_self
    rcases lt_trichotomy x b with hxb | rfl | hbx
    · obtain ⟨p, us, vs, hsplit, hp, hmax, hsorted⟩ :=
        ih hxs hxb (fun h => fresh (List.mem_cons_of_mem _ h))
      refine ⟨p, a :: us, vs, by rw [hsplit, List.cons_append], hp, ?_, ?_⟩
      · intro y hy hyb
        rcases List.mem_cons.mp hy with rfl | hy
        · exact le_trans (le_of_lt hlt) (hmax x List.mem_cons_self hxb)
        · exact hmax y hy hyb
      · refine List.pairwise_cons.mpr ⟨fun y hy => ?_, hsorted⟩
        rcases mem_insert_iff.mp hy with rfl | hy
        · exact above
        · exact hax y (hsplit ▸ hy)
    · exact absurd (List.mem_cons_of_mem _ List.mem_cons_self) fresh
    · have hbelow : ∀ y ∈ x :: xs, b < y := by
        intro y hy
        rcases List.mem_cons.mp hy with rfl | hy
        · exact hbx
        · exact lt_trans hbx ((List.pairwise_cons.mp hxs).1 y hy)
      refine ⟨a, [], x :: xs, rfl, above, ?_, ?_⟩
      · intro y hy hyb
        rcases List.mem_cons.mp hy with rfl | hy
        · exact le_refl _
        · exact absurd hyb (not_lt.mpr (le_of_lt (hbelow y hy)))
      · refine List.pairwise_cons.mpr ⟨?_, List.pairwise_cons.mpr ⟨hbelow, hxs⟩⟩
        intro y hy
        rcases List.mem_cons.mp hy with rfl | hy
        · exact above
        · exact hax y hy

theorem exists_insert {p : α} {us vs : List α} (cut : a :: xs = us ++ p :: vs) (b : α) :
    ∃ ys, a :: ys = us ++ p :: b :: vs := by
  cases us with
  | nil => exact ⟨b :: vs, congrArg (· :: b :: vs) (List.cons.inj cut).1⟩
  | cons u us =>
    exact ⟨us ++ p :: b :: vs, congrArg (· :: (us ++ p :: b :: vs)) (List.cons.inj cut).1⟩

theorem exists_remove {p : α} {us vs : List α} (cut : a :: xs = us ++ p :: b :: vs) :
    ∃ ys, a :: ys = us ++ p :: vs := by
  cases us with
  | nil => exact ⟨vs, congrArg (· :: vs) (List.cons.inj cut).1⟩
  | cons u us => exact ⟨us ++ p :: vs, congrArg (· :: (us ++ p :: vs)) (List.cons.inj cut).1⟩

/-- Two lists that differ in one inner cell. -/
theorem insert_perm {p : α} {us vs : List α} (cut : a :: xs = us ++ p :: vs)
    (cut' : a :: ys = us ++ p :: b :: vs) : ys.Perm (b :: xs) := by
  have hinner : (us ++ p :: b :: vs).Perm (b :: (us ++ p :: vs)) := by
    rw [List.append_cons us p (b :: vs), List.append_cons us p vs]
    exact List.perm_middle
  rw [← cut, ← cut'] at hinner
  exact (hinner.trans (List.Perm.swap a b xs)).cons_inv

end LinkedRings
