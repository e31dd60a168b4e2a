import MissyMicro.FreeList

/-!
# Allocation from the free list and from fresh memory

The loop of `kernel_alloc` takes the first header that fits. When it comes around
without one it fetches a block, and because it goes on behind that block it comes
around once more and fetches a second one before it takes the first.
-/

namespace HeapGrowth

open LittleEndian LinkedRings KernelHeap BlockPool FreeList

variable {σ : Type} {base brk : Nat} {nodes : List Nat} {live : List Block} {s : Heap σ}

/-- Every call of `kspace_sbrk` fails or returns the break and moves it up. -/
structure FreshSbrk (sbrk : Sbrk σ) (brk : σ → Nat) : Prop where
  cases : ∀ e n, (sbrk e n).1 = sbrkFailed ∧ brk (sbrk e n).2 = brk e ∨
    (sbrk e n).1 = brk e ∧ brk (sbrk e n).2 = brk e + n ∧ brk e + n < 2 ^ 32

/-- This one does. -/
def FreshAt (sbrk : Sbrk σ) (brk : σ → Nat) (e : σ) (n : Nat) : Prop :=
  (sbrk e n).1 = sbrkFailed ∧ brk (sbrk e n).2 = brk e ∨
    (sbrk e n).1 = brk e ∧ brk (sbrk e n).2 = brk e + n ∧ brk e + n < 2 ^ 32

/-- `k` calls succeed one after the other. -/
inductive Fetches (sbrk : Sbrk σ) (size : Nat) : σ → Nat → σ → Prop
  | nil (e : σ) : Fetches sbrk size e 0 e
  | cons {e f : σ} {k : Nat} : (sbrk e size).1 ≠ sbrkFailed →
      Fetches sbrk size (sbrk e size).2 k f → Fetches sbrk size e (k + 1) f

/-- After `k` calls that succeed one fails. -/
def FailsAfter (sbrk : Sbrk σ) (size : Nat) (e : σ) (k : Nat) (e' : σ) : Prop :=
  ∃ f, Fetches sbrk size e k f ∧ (sbrk f size).1 = sbrkFailed ∧ e' = (sbrk f size).2

/-- From here on the calls for this size are fresh until one fails. -/
def FreshAlong (sbrk : Sbrk σ) (brk : σ → Nat) (size : Nat) (e : σ) : Prop :=
  ∀ k f, Fetches sbrk size e k f → FreshAt sbrk brk f size

/-- What `morecore` asks for. -/
def moreSize (allocSz : Nat) : Nat := max (allocSz + 8) minRequestSize

variable {sbrk : Sbrk σ} {brkOf : σ → Nat}

/-- The end of a block is never where the scaled sum points. -/
theorem headerAdd_ne {h n : Nat} (pos : 0 < n) (hlt : h + n < 2 ^ 32) : headerAdd h n ≠ h + n := by
  have hsplit : h + 8 * n = h + n + 7 * n := by omega
  rw [headerAdd, headerSize]
  intro heq
  have hsum := Nat.mod_add_div (h + 8 * n) (2 ^ 32)
  rw [heq] at hsum
  have hdvd : 2 ^ 32 ∣ 7 * n := ⟨_, (Nat.add_left_cancel (hsum.trans hsplit)).symm⟩
  have hcoprime : Nat.Coprime (2 ^ 32) 7 := by decide
  have hle := Nat.le_of_dvd pos (hcoprime.dvd_of_dvd_mul_left hdvd)
  exact absurd hlt (not_lt.mpr (le_trans hle (Nat.le_add_left n h)))

/-- The heap after `morecore` has linked a block in at the old break, the last of the ring. -/
structure Fetched (sbrk : Sbrk σ) (base : Nat) (brkOf : σ → Nat) (nodes : List Nat)
    (live : List Block) (n : Nat) (s s' : Heap σ) : Prop where
  ok : brkOf s.env ≠ sbrkFailed
  env : s'.env = (sbrk s.env (moreSize n)).2
  moved : brkOf s'.env = brkOf s.env + moreSize n
  inv : HeapInv base (brkOf s'.env) (nodes ++ [brkOf s.env]) live s'
  behind : ∃ us, base :: nodes = us ++ [s'.freeHdr]
  size : sz s'.mem (brkOf s.env) = moreSize n
  same : ∀ h ∈ base :: nodes, sz s'.mem h = sz s.mem h

theorem moreSize_le (n : Nat) : n + 8 ≤ moreSize n ∧ 1024 ≤ moreSize n := by
  rw [moreSize, minRequestSize]
  omega

theorem morecore_spec {n : Nat} (fresh : FreshAt sbrk brkOf s.env (moreSize n))
    (inv : HeapInv base (brkOf s.env) nodes live s) (hn : n + 8 < 2 ^ 32)
    (apart : (sbrk s.env (moreSize n)).1 ≠ sbrkFailed → ∀ hdr ∈ base :: nodes,
      Between s.mem (brkOf s.env) hdr → ¬ Merges s.mem (brkOf s.env) (moreSize n) hdr) :
    ((sbrk s.env (moreSize n)).1 = sbrkFailed ∧
        brkOf (sbrk s.env (moreSize n)).2 = brkOf s.env ∧ ∀ fuel,
        morecore sbrk fuel s n = some (0, { s with env := (sbrk s.env (moreSize n)).2 })) ∨
      ((sbrk s.env (moreSize n)).1 ≠ sbrkFailed ∧
        ∃ s', Returns (fun fuel => morecore sbrk fuel s n) (brkOf s.env, s') ∧
          Fetched sbrk base brkOf nodes live n s s') := by
  have hnu : (if (n + headerSize) % 2 ^ 32 < minRequestSize then minRequestSize
      else (n + headerSize) % 2 ^ 32) = moreSize n := by
    rw [moreSize, minRequestSize, headerSize, Nat.mod_eq_of_lt hn]
    split <;> omega
  have hmore := moreSize_le n
  rcases fresh with ⟨failed, hsame⟩ | ⟨hret, hmoved, hlt⟩
  · refine Or.inl ⟨failed, hsame, fun fuel => ?_⟩
    simp only [morecore, hnu, if_pos failed]
  · have hok : ¬ brkOf s.env = sbrkFailed := by
      rw [sbrkFailed]
      omega
    rw [hret] at apart ⊢
    obtain ⟨inv₁, old⟩ := inv.extend (le_trans (by decide) hmore.2) hlt (sbrk s.env (moreSize n)).2
    have apart₁ : ∀ hdr ∈ base :: nodes,
        Between (setSz s.mem (brkOf s.env) (moreSize n)) (brkOf s.env) hdr →
          ¬ Merges (setSz s.mem (brkOf s.env) (moreSize n)) (brkOf s.env) (moreSize n) hdr := by
      intro hdr hmem
      obtain ⟨hnext, hsz⟩ := old hdr (Or.inl hmem)
      rw [Between, Merges, hnext, hsz]
      exact apart hok hdr hmem
    obtain ⟨m, p, nodes', us, vs, returns, inv₂, hcut, hcut', hmax, hsz, _⟩ := free_spec inv₁ apart₁
    -- Nothing in the ring is above the break, so `p` is its last header.
    have hvs : vs = [] := by
      refine List.eq_nil_iff_forall_not_mem.mpr fun v hv => ?_
      have hmem : v ∈ base :: nodes :=
        hcut ▸ List.mem_append_right us (List.mem_cons_of_mem _ hv)
      have hle := hmax v hmem (inv.lt_brk hmem)
      have hsorted := inv.sorted
      rw [hcut] at hsorted
      have hlt := (List.pairwise_cons.mp (List.pairwise_append.mp hsorted).2.1).1 v hv
      omega
    subst hvs
    have hnodes : nodes' = nodes ++ [brkOf s.env] := by
      have hcons : base :: nodes' = base :: (nodes ++ [brkOf s.env]) := by
        rw [hcut', ← List.cons_append, hcut, List.append_assoc]
        rfl
      exact (List.cons.inj hcons).2
    subst hnodes
    have hptr : (brkOf s.env + headerSize) % 2 ^ 32 = brkOf s.env + 8 := by
      rw [headerSize]
      omega
    rw [← hmoved] at inv₂
    refine Or.inr ⟨hok, { mem := m, freeHdr := p, env := (sbrk s.env (moreSize n)).2 }, ?_,
      ⟨hok, rfl, hmoved, inv₂, ⟨us, hcut⟩, ?_, fun h hh => ?_⟩⟩
    · simp only [morecore, hnu, hret, if_neg hok, hptr]
      exact returns.map _
    · rw [hsz _ (Or.inr List.mem_cons_self), sz_setSz (fun h => absurd rfl h) (by omega),
        if_pos rfl]
    · rw [hsz h (Or.inl hh)]
      exact (old h (Or.inl hh)).2

/-- One more free block, the fetched one. -/
theorem Fetched.free {n : Nat} {s' : Heap σ} (h : Fetched sbrk base brkOf nodes live n s s') :
    (freeBlocks s'.mem (nodes ++ [brkOf s.env]) : Multiset Block) =
      ⟨brkOf s.env, moreSize n⟩ ::ₘ (freeBlocks s.mem nodes : Multiset Block) :=
  Multiset.coe_eq_coe.mpr (freeBlocks_insert (b := ⟨brkOf s.env, moreSize n⟩)
    (List.perm_append_singleton _ _) h.size fun x hx => h.same x (List.mem_cons_of_mem _ hx))

/-- The next block is above the fetched one, which ends at the break. -/
theorem Fetched.apart {n : Nat} {s' : Heap σ} (first : Fetched sbrk base brkOf nodes live n s s')
    (upper : headerAdd (brkOf s'.env) (moreSize n) ≠ base) :
    ∀ hdr ∈ base :: (nodes ++ [brkOf s.env]), Between s'.mem (brkOf s'.env) hdr →
      ¬ Merges s'.mem (brkOf s'.env) (moreSize n) hdr := by
  have inv := first.inv
  have hmore := moreSize_le n
  have hbrk := inv.layout.brk_lt
  have hfetched : brkOf s.env ∈ base :: (nodes ++ [brkOf s.env]) :=
    List.mem_cons_of_mem _ (List.mem_append_right _ List.mem_cons_self)
  obtain ⟨hnext, hmax⟩ := inv.ring.next_last inv.sorted List.cons_append.symm
  intro hdr hmem between
  have heq := (between_iff inv.ring inv.sorted (inv.lt_brk List.mem_cons_self)
    (fun hmem => absurd (inv.lt_brk hmem) (lt_irrefl _)) hfetched (inv.lt_brk hfetched)
    (fun y hy _ => hmax y hy) hmem).mp between
  rw [heq, Merges, hnext, first.size]
  rintro (hupper | hlower)
  · exact upper hupper
  · rw [first.moved] at hlower hbrk
    exact headerAdd_ne (Nat.lt_of_lt_of_le (by decide) hmore.2) hbrk hlower

/-- The header that the loop of `kernel_alloc` finds first. -/
def FirstFit (m : Bytes) (freeHdr n hdr : Nat) : Prop :=
  ∃ k, (next m)^[k] (next m freeHdr) = hdr ∧ n ≤ sz m hdr ∧
    ∀ j, j < k → sz m ((next m)^[j] (next m freeHdr)) < n

/-- What an allocation of `n` bytes with the header leaves. -/
def Allocated (base : Nat) (brkOf : σ → Nat) (live : List Block) (n : Nat) (r : Nat × Heap σ) :
    Prop :=
  (r.1 = 0 ∧ ∃ nodes, HeapInv base (brkOf r.2.env) nodes live r.2) ∨
    ∃ start nodes, r.1 = start + 8 ∧ HeapInv base (brkOf r.2.env) nodes (⟨start, n⟩ :: live) r.2

def poolOf (m : Bytes) (nodes : List Nat) (live : List Block) (brk : Nat) : Pool :=
  ⟨freeBlocks m nodes, live, brk⟩

theorem poolOf_laid (inv : HeapInv base brk nodes live s) :
    (poolOf s.mem nodes live brk).Laid base :=
  ⟨_, (Multiset.coe_add _ _).symm, inv.layout⟩

/-- The result of a request for `n` bytes with the header, its effect on the pool, and the
calls for more memory that it made. -/
def Serves (sbrk : Sbrk σ) (base : Nat) (brkOf : σ → Nat) (nodes : List Nat) (live : List Block)
    (s : Heap σ) (n size : Nat) (r : Nat × Heap σ) : Prop :=
  ∃ k nodes' live', HeapInv base (brkOf r.2.env) nodes' live' r.2 ∧
    Allocs n size k (poolOf s.mem nodes live (brkOf s.env))
      (poolOf r.2.mem nodes' live' (brkOf r.2.env)) ∧
    (Fetches sbrk size s.env k r.2.env ∨ r.1 = 0 ∧ FailsAfter sbrk size s.env k r.2.env) ∧
    (r.1 = 0 ∧ live' = live ∨ ∃ start, r.1 = start + 8 ∧ live' = ⟨start, n⟩ :: live)

theorem Serves.allocated {n size : Nat} {r : Nat × Heap σ}
    (h : Serves sbrk base brkOf nodes live s n size r) : Allocated base brkOf live n r := by
  obtain ⟨_, nodes', live', inv, _, _, ⟨h0, rfl⟩ | ⟨start, hptr, rfl⟩⟩ := h
  · exact Or.inl ⟨h0, nodes', inv⟩
  · exact Or.inr ⟨start, nodes', hptr, inv⟩

theorem small_free {n : Nat} (small : ∀ x ∈ base :: nodes, sz s.mem x < n) :
    ∀ b ∈ (freeBlocks s.mem nodes : Multiset Block), b.size < n := by
  intro b hb
  obtain ⟨h, hh, rfl⟩ := List.mem_map.mp hb
  exact small h (List.mem_cons_of_mem _ hh)

/-- The loop walks past headers that are too small. -/
theorem findHeader_walk {n prev hdr h : Nat} {xs : List Nat} {r : Nat × Heap σ}
    (path : Path (next s.mem) hdr xs h) (small : ∀ x ∈ xs, sz s.mem x < n)
    (notFree : s.freeHdr ∉ xs)
    (stop : Returns (fun fuel => findHeader sbrk n fuel s (xs.getLastD prev) h) r) :
    Returns (fun fuel => findHeader sbrk n fuel s prev hdr) r := by
  refine @Path.walk _ _ _ _ _ _ (fun fuel prev hdr => findHeader sbrk n fuel s prev hdr) _ path
    ?_ prev stop
  intro x hx fuel prev
  have hsmall : ¬ n ≤ sz s.mem x := not_le.mpr (small x hx)
  have hne : ¬ x = s.freeHdr := fun heq => notFree (heq ▸ hx)
  rw [findHeader, if_neg hsmall, if_neg hne]

/-- It takes the first one that fits. -/
theorem findHeader_takes (inv : HeapInv base brk nodes live s) {n prev h : Nat}
    {xs : List Nat} (hprev : prev ∈ base :: nodes)
    (path : Path (next s.mem) (next s.mem prev) xs h) (hxs : ∀ x ∈ xs, x ∈ base :: nodes)
    (small : ∀ x ∈ xs, sz s.mem x < n) (notFree : s.freeHdr ∉ xs) (hn : 8 ≤ n)
    (fits : FitsWell s.mem n h) :
    ∃ r start nodes' rest,
      Returns (fun fuel => findHeader sbrk n fuel s prev (next s.mem prev)) r ∧
      r.1 = start + 8 ∧ r.2.env = s.env ∧ HeapInv base brk nodes' (⟨start, n⟩ :: live) r.2 ∧
      (freeBlocks s.mem nodes : Multiset Block) = ⟨h, sz s.mem h⟩ ::ₘ rest ∧
      Takes n ⟨h, sz s.mem h⟩ rest ⟨start, n⟩ (freeBlocks r.2.mem nodes') := by
  obtain ⟨hnext, hmem⟩ := path.last
  have hq : xs.getLastD prev ∈ base :: nodes := by
    rcases List.mem_cons.mp hmem with heq | hmem
    · rw [heq]
      exact hprev
    · exact hxs _ hmem
  obtain ⟨start, nodes', rest, hptr, inv', henv, hfree, takes⟩ := take_spec inv hq hnext hn fits
  have hfits : n ≤ sz s.mem h := by
    rcases fits with hfit | hfit <;> omega
  refine ⟨takeHeader s (xs.getLastD prev) h n, start, nodes', rest,
    findHeader_walk path small notFree ?_, hptr, henv, inv', hfree, takes⟩
  refine Returns.turn (g := fun _ => some (takeHeader s (xs.getLastD prev) h n)) (fun fuel => ?_)
    (.of_eq fun _ => rfl)
  rw [findHeader, if_pos hfits]

/-- Back at `free_hdr`, it asks for more memory. -/
theorem findHeader_wraps {n prev : Nat} {xs : List Nat} {r : Nat × Heap σ}
    (path : Path (next s.mem) (next s.mem prev) xs s.freeHdr)
    (small : ∀ x ∈ xs, sz s.mem x < n) (notFree : s.freeHdr ∉ xs)
    (smallFree : sz s.mem s.freeHdr < n)
    (more : Returns (fun fuel => (morecore sbrk fuel s n).bind fun (hdr, s) =>
      if hdr = 0 then some (0, s) else findHeader sbrk n fuel s hdr (next s.mem hdr)) r) :
    Returns (fun fuel => findHeader sbrk n fuel s prev (next s.mem prev)) r := by
  refine findHeader_walk path small notFree (Returns.turn (fun fuel => ?_) more)
  rw [findHeader, if_neg (not_le.mpr smallFree), if_pos rfl]

/-- A failed fetch ends the allocation. -/
theorem findHeader_fails {n prev : Nat} {e : σ} {xs : List Nat}
    (path : Path (next s.mem) (next s.mem prev) xs s.freeHdr)
    (small : ∀ x ∈ xs, sz s.mem x < n) (notFree : s.freeHdr ∉ xs)
    (smallFree : sz s.mem s.freeHdr < n)
    (hfail : ∀ fuel, morecore sbrk fuel s n = some (0, { s with env := e })) :
    Returns (fun fuel => findHeader sbrk n fuel s prev (next s.mem prev))
      (0, { s with env := e }) := by
  refine findHeader_wraps path small notFree smallFree (.of_eq fun fuel => ?_)
  rw [hfail]
  rfl

/-- After a fetch the loop goes on behind the fetched block. -/
theorem findHeader_fetches (inv : HeapInv base (brkOf s.env) nodes live s) {n prev : Nat}
    {xs : List Nat} {s' : Heap σ} {r : Nat × Heap σ}
    (path : Path (next s.mem) (next s.mem prev) xs s.freeHdr)
    (small : ∀ x ∈ xs, sz s.mem x < n) (notFree : s.freeHdr ∉ xs)
    (smallFree : sz s.mem s.freeHdr < n)
    (returns : Returns (fun fuel => morecore sbrk fuel s n) (brkOf s.env, s'))
    (rest : Returns (fun fuel =>
      findHeader sbrk n fuel s' (brkOf s.env) (next s'.mem (brkOf s.env))) r) :
    Returns (fun fuel => findHeader sbrk n fuel s prev (next s.mem prev)) r := by
  have hne : ¬ brkOf s.env = 0 := by
    have hbase := inv.layout.base_le
    omega
  refine findHeader_wraps path small notFree smallFree (returns.bind ?_)
  simp only [if_neg hne]
  exact rest

/-- The last two headers of a ring: the loop comes from the last one around to the other. -/
theorem path_before_last {last p : Nat} {us : List Nat}
    (inv : HeapInv base brk nodes live s) (hnodes : base :: nodes = us ++ [p, last]) :
    Path (next s.mem) (next s.mem last) us p ∧ p ∉ us ∧ ∀ x ∈ us, x ∈ base :: nodes := by
  have ring := inv.ring
  have hnodup := nodup_of_sorted inv.sorted
  rw [hnodes] at ring hnodup ⊢
  refine ⟨ring.path_last, fun hp => ?_, fun x hx => List.mem_append_left _ hx⟩
  exact ne_middle hnodup (List.mem_append_left _ hp) rfl

/-- The second fetch: the loop comes around to the first block and takes it. -/
theorem alloc_second {s' : Heap σ} {n fetched : Nat}
    (again : Fetched sbrk base brkOf (nodes ++ [fetched]) live n s s') (hn : 8 ≤ n)
    (small : ∀ x ∈ base :: nodes, sz s.mem x < n) (hsize : sz s.mem fetched = moreSize n) :
    ∃ r start nodes' rest, Returns (fun fuel =>
        findHeader sbrk n fuel s' (brkOf s.env) (next s'.mem (brkOf s.env))) r ∧
      r.1 = start + 8 ∧ r.2.env = s'.env ∧
      HeapInv base (brkOf s'.env) nodes' (⟨start, n⟩ :: live) r.2 ∧
      (freeBlocks s'.mem (nodes ++ [fetched] ++ [brkOf s.env]) : Multiset Block) =
        ⟨fetched, moreSize n⟩ ::ₘ rest ∧
      Takes n ⟨fetched, moreSize n⟩ rest ⟨start, n⟩ (freeBlocks r.2.mem nodes') := by
  obtain ⟨us, hcut⟩ := again.behind
  obtain ⟨hus, hfree⟩ : us = base :: nodes ∧ [s'.freeHdr] = [fetched] :=
    List.append_inj' (hcut.symm.trans List.cons_append.symm) rfl
  have hfree := List.singleton_inj.mp hfree
  have hlast : base :: (nodes ++ [fetched] ++ [brkOf s.env]) = us ++ [s'.freeHdr, brkOf s.env] := by
    rw [← List.cons_append, hcut, List.append_assoc]
    rfl
  obtain ⟨path, hfresh, hmem⟩ := path_before_last again.inv hlast
  have hfetched : fetched ∈ base :: (nodes ++ [fetched]) :=
    List.mem_cons_of_mem _ (List.mem_append_right _ List.mem_cons_self)
  have hsize' : sz s'.mem fetched = moreSize n := (again.same fetched hfetched).trans hsize
  rw [hfree] at path hfresh
  rw [← hsize']
  refine findHeader_takes again.inv ?_ path hmem ?_ ?_ hn ?_
  · exact List.mem_cons_of_mem _ (List.mem_append_right _ List.mem_cons_self)
  · intro x hx
    rw [hus] at hx
    rw [again.same x (List.mem_append_left [fetched] hx)]
    exact small x hx
  · rw [hfree]
    exact hfresh
  · rw [FitsWell, hsize']
    exact Or.inr (moreSize_le n).1

/-- The first fetch: the loop comes around to `free_hdr` once more and fetches again. -/
theorem alloc_first {s₀ : Heap σ} {n : Nat} (fresh : FreshAt sbrk brkOf s.env (moreSize n))
    (ok : (sbrk s₀.env (moreSize n)).1 ≠ sbrkFailed)
    (first : Fetched sbrk base brkOf nodes live n s₀ s)
    (small : ∀ x ∈ base :: nodes, sz s₀.mem x < n) (hn : 8 ≤ n) (hlt : n + 8 < 2 ^ 32)
    (upper : (sbrk s.env (moreSize n)).1 ≠ sbrkFailed →
      headerAdd (brkOf s.env) (moreSize n) ≠ base) :
    ∃ r, Returns (fun fuel =>
        findHeader sbrk n fuel s (brkOf s₀.env) (next s.mem (brkOf s₀.env))) r ∧
      Serves sbrk base brkOf nodes live s₀ n (moreSize n) r := by
  have inv := first.inv
  have hmore := moreSize_le n
  obtain ⟨us, hcut⟩ := first.behind
  have hlast : base :: (nodes ++ [brkOf s₀.env]) = us ++ [s.freeHdr, brkOf s₀.env] := by
    rw [← List.cons_append, hcut, List.append_assoc]
    rfl
  obtain ⟨path, hfresh, _⟩ := path_before_last inv hlast
  have small' : ∀ x ∈ base :: nodes, sz s.mem x < n := by
    intro x hx
    rw [first.same x hx]
    exact small x hx
  have smallUs : ∀ x ∈ us, sz s.mem x < n := fun x hx =>
    small' x (hcut ▸ List.mem_append_left _ hx)
  have smallFree : sz s.mem s.freeHdr < n :=
    small' _ (hcut ▸ List.mem_append_right us List.mem_cons_self)
  have hone : Fetches sbrk (moreSize n) s₀.env 1 s.env :=
    first.env ▸ .cons ok (.nil _)
  rcases morecore_spec fresh inv hlt (fun ok => first.apart (upper ok)) with
    ⟨failed, hsame, hfail⟩ | ⟨ok', s', returns, again⟩
  · refine ⟨_, findHeader_fails path smallUs hfresh smallFree hfail, 1,
      nodes ++ [brkOf s₀.env], live, ?_, ?_, Or.inr ⟨rfl, _, hone, failed, rfl⟩,
      Or.inl ⟨rfl, rfl⟩⟩
    · dsimp only
      rw [hsame]
      exact inv.withEnv _
    · dsimp only
      rw [hsame, first.moved, poolOf, poolOf, first.free]
      have h := @Allocs.refused n (moreSize n) 1 (freeBlocks s₀.mem nodes) live (brkOf s₀.env)
        (small_free small) fun h => absurd h (lt_irrefl _)
      rw [row, row, Multiset.cons_add, zero_add, Nat.one_mul] at h
      exact h
  · obtain ⟨r, start, nodes', rest, hr, hptr, henv, inv', hfree, takes⟩ :=
      alloc_second again hn small' first.size
    have htwo : Fetches sbrk (moreSize n) s₀.env 2 r.2.env := by
      rw [henv, again.env, first.env]
      rw [first.env] at ok'
      exact .cons ok (.cons ok' (.nil _))
    refine ⟨r, findHeader_fetches inv path smallUs hfresh smallFree returns hr, 2, nodes',
      ⟨start, n⟩ :: live, ?_, ?_, Or.inl htwo, Or.inr ⟨start, hptr, rfl⟩⟩
    · rw [henv]
      exact inv'
    · rw [again.free, first.free, Multiset.cons_swap] at hfree
      obtain rfl := (Multiset.cons_inj_right _).mp hfree
      obtain ⟨free', hfree', takes⟩ := takes.of_cons
      rw [poolOf, poolOf, hfree', henv, again.moved, first.moved]
      exact .fetched (small_free small) hmore.1 takes

theorem FirstFit.onList {n hdr : Nat} (h : FirstFit s.mem s.freeHdr n hdr) : OnList s hdr := by
  obtain ⟨k, hk, _⟩ := h
  exact ⟨k + 1, hk⟩

/-- Neither of the two blocks that an allocation can fetch passes a test of adjacency. -/
def FetchesApart (sbrk : Sbrk σ) (s : Heap σ) (nu : Nat) : Prop :=
  ∀ hdr, OnList s hdr → (sbrk s.env nu).1 ≠ sbrkFailed →
    (Between s.mem (sbrk s.env nu).1 hdr → ¬ Merges s.mem (sbrk s.env nu).1 nu hdr) ∧
      ((sbrk (sbrk s.env nu).2 nu).1 ≠ sbrkFailed →
        Between s.mem (sbrk (sbrk s.env nu).2 nu).1 hdr →
          headerAdd (sbrk (sbrk s.env nu).2 nu).1 nu ≠ next s.mem hdr)

/-- The last header of the ring is the one below the second block. -/
theorem second_apart {n : Nat} {s' : Heap σ} (fresh : FreshAt sbrk brkOf s.env (moreSize n))
    (again : FreshAt sbrk brkOf s'.env (moreSize n))
    (inv : HeapInv base (brkOf s.env) nodes live s)
    (first : Fetched sbrk base brkOf nodes live n s s') (apart : FetchesApart sbrk s (moreSize n))
    (ok : (sbrk s'.env (moreSize n)).1 ≠ sbrkFailed) :
    headerAdd (brkOf s'.env) (moreSize n) ≠ base := by
  obtain ⟨us, hcut⟩ := first.behind
  obtain ⟨hnext, hmax⟩ := inv.ring.next_last inv.sorted hcut
  have hp : s'.freeHdr ∈ base :: nodes := hcut ▸ List.mem_append_right us List.mem_cons_self
  have hret : (sbrk s.env (moreSize n)).1 ≠ sbrkFailed := by
    rcases fresh with ⟨_, hsame⟩ | ⟨hret, _⟩
    · have hmoved := first.moved
      have hmore := moreSize_le n
      rw [first.env, hsame] at hmoved
      omega
    · rw [hret]
      exact first.ok
  have hret' : (sbrk s'.env (moreSize n)).1 = brkOf s'.env := by
    rcases again with ⟨failed, _⟩ | ⟨hret', _⟩
    · exact absurd failed ok
    · exact hret'
  have hbeyond : s'.freeHdr < (sbrk s'.env (moreSize n)).1 := by
    rw [hret']
    exact first.inv.lt_brk (List.mem_append_left [brkOf s.env] hp)
  have hlast := (apart _ (inv.onList_iff.mpr hp) hret).2
  rw [← first.env, hnext] at hlast
  rw [← hret']
  refine hlast ok (Or.inr ⟨?_, Or.inl hbeyond⟩)
  rw [hnext]
  exact hmax base List.mem_cons_self

/-- From the header after `free_hdr` on there is a first one that is big enough, or none. -/
theorem search_cases (inv : HeapInv base brk nodes live s) (n : Nat) :
    (∃ xs h, Path (next s.mem) (next s.mem s.freeHdr) xs h ∧ (∀ x ∈ xs, x ∈ base :: nodes) ∧
      (∀ x ∈ xs, sz s.mem x < n) ∧ s.freeHdr ∉ xs ∧ n ≤ sz s.mem h) ∨
    ∃ xs, Path (next s.mem) (next s.mem s.freeHdr) xs s.freeHdr ∧
      (∀ x ∈ xs, sz s.mem x < n) ∧ s.freeHdr ∉ xs ∧ ∀ x ∈ base :: nodes, sz s.mem x < n := by
  rcases inv.ring.find_cases (nodup_of_sorted inv.sorted) inv.freeHdr
      (fun x => n ≤ sz s.mem x) with
    ⟨xs, h, path, hxs, small, notFree, _, hfits⟩ | ⟨xs, path, hxs, notFree, none⟩
  · exact Or.inl ⟨xs, h, path, hxs, fun x hx => not_le.mp (small x hx), notFree, hfits⟩
  · refine Or.inr ⟨xs, path, fun x hx => ?_, notFree, fun x hx => not_le.mp (none x hx)⟩
    exact not_le.mp (none x (hxs x hx))

/-- No header is big enough: `morecore` fails, or fetches what serves the request. -/
theorem alloc_grown (inv : HeapInv base (brkOf s.env) nodes live s) {n : Nat} (hn : 8 ≤ n)
    (hlt : n + 8 < 2 ^ 32) {xs : List Nat}
    (path : Path (next s.mem) (next s.mem s.freeHdr) xs s.freeHdr)
    (small : ∀ x ∈ xs, sz s.mem x < n) (notFree : s.freeHdr ∉ xs)
    (hall : ∀ x ∈ base :: nodes, sz s.mem x < n)
    (fresh : FreshAt sbrk brkOf s.env (moreSize n))
    (again : (sbrk s.env (moreSize n)).1 ≠ sbrkFailed →
      FreshAt sbrk brkOf (sbrk s.env (moreSize n)).2 (moreSize n))
    (apart : FetchesApart sbrk s (moreSize n)) :
    ∃ r, Returns (fun fuel => findHeader sbrk n fuel s s.freeHdr (next s.mem s.freeHdr)) r ∧
      Serves sbrk base brkOf nodes live s n (moreSize n) r := by
  have smallFree := hall _ inv.freeHdr
  have apart' (ok : (sbrk s.env (moreSize n)).1 ≠ sbrkFailed) : ∀ hdr ∈ base :: nodes,
      Between s.mem (brkOf s.env) hdr → ¬ Merges s.mem (brkOf s.env) (moreSize n) hdr := by
    intro hdr hmem
    have h := (apart hdr (inv.onList_iff.mpr hmem) ok).1
    rcases fresh with ⟨failed, _⟩ | ⟨hret, _⟩
    · exact absurd failed ok
    · rw [hret] at h
      exact h
  rcases morecore_spec fresh inv hlt apart' with
    ⟨failed, hsame, hfail⟩ | ⟨ok, s', returns, fetched⟩
  · refine ⟨_, findHeader_fails path small notFree smallFree hfail, 0, nodes, live, ?_, ?_,
      Or.inr ⟨rfl, _, .nil _, failed, rfl⟩, Or.inl ⟨rfl, rfl⟩⟩
    · dsimp only
      rw [hsame]
      exact inv.withEnv _
    · dsimp only
      rw [hsame]
      have h := @Allocs.refused n (moreSize n) 0 (freeBlocks s.mem nodes) live (brkOf s.env)
        (small_free hall) fun h => absurd h (by omega)
      rw [row, zero_add, Nat.zero_mul, Nat.add_zero] at h
      exact h
  · have again' : FreshAt sbrk brkOf s'.env (moreSize n) := fetched.env ▸ again ok
    obtain ⟨r, hr, serves⟩ := alloc_first again' ok fetched hall hn hlt
      (second_apart fresh again' inv fetched apart)
    exact ⟨r, findHeader_fetches inv path small notFree smallFree returns hr, serves⟩

theorem alloc_spec (inv : HeapInv base (brkOf s.env) nodes live s) {n : Nat} (hn : 8 ≤ n)
    (hlt : n + 8 < 2 ^ 32)
    (fits : ∀ hdr, FirstFit s.mem s.freeHdr n hdr → FitsWell s.mem n hdr)
    (fresh : (∀ hdr, OnList s hdr → sz s.mem hdr < n) →
      FreshAt sbrk brkOf s.env (moreSize n) ∧ ((sbrk s.env (moreSize n)).1 ≠ sbrkFailed →
        FreshAt sbrk brkOf (sbrk s.env (moreSize n)).2 (moreSize n)))
    (apart : (∀ hdr, OnList s hdr → sz s.mem hdr < n) → FetchesApart sbrk s (moreSize n)) :
    ∃ r, Returns (fun fuel => findHeader sbrk n fuel s s.freeHdr (next s.mem s.freeHdr)) r ∧
      Serves sbrk base brkOf nodes live s n (moreSize n) r := by
  rcases search_cases inv n with
    ⟨xs, h, path, hxs, small, notFree, hfits⟩ | ⟨xs, path, small, notFree, hall⟩
  · have first : FitsWell s.mem n h :=
      fits h ⟨xs.length, path.iterate.1, hfits, fun j hj => small _ (path.iterate.2 j hj)⟩
    obtain ⟨r, start, nodes', rest, hr, hptr, henv, inv', hblocks, takes⟩ :=
      findHeader_takes inv inv.freeHdr path hxs small notFree hn first
    refine ⟨r, hr, 0, nodes', ⟨start, n⟩ :: live, ?_, ?_, ?_, Or.inr ⟨start, hptr, rfl⟩⟩
    · rw [henv]
      exact inv'
    · rw [poolOf, poolOf, henv, hblocks]
      exact .taken takes
    · rw [henv]
      exact Or.inl (.nil _)
  · have hnone : ∀ hdr, OnList s hdr → sz s.mem hdr < n := fun hdr onList =>
      hall hdr (inv.onList_iff.mp onList)
    obtain ⟨hfresh, again⟩ := fresh hnone
    exact alloc_grown inv hn hlt path small notFree hall hfresh again (apart hnone)

/-- What `morecore` asks for, with the wrap of its sum. -/
def fetchSize (allocSz : Nat) : Nat :=
  let nu := (allocSz + headerSize) % 2 ^ 32
  if nu < minRequestSize then minRequestSize else nu

theorem morecore_fetch (fuel : Nat) (s : Heap σ) (n : Nat) : morecore sbrk fuel s n =
    if (sbrk s.env (fetchSize n)).1 = sbrkFailed then
      some (0, { s with env := (sbrk s.env (fetchSize n)).2 })
    else
      (kernelFree fuel { s with
          mem := setSz s.mem (sbrk s.env (fetchSize n)).1 (fetchSize n)
          env := (sbrk s.env (fetchSize n)).2 }
        (((sbrk s.env (fetchSize n)).1 + headerSize) % 2 ^ 32)).map
          fun t => ((sbrk s.env (fetchSize n)).1, t) := rfl

theorem fetchSize_pos (n : Nat) : 0 < fetchSize n ∧ fetchSize n < 2 ^ 32 := by
  rw [fetchSize, minRequestSize]
  split <;> omega

theorem fetchSize_eq {n : Nat} (hlt : n + 8 < 2 ^ 32) : fetchSize n = moreSize n := by
  rw [fetchSize, moreSize, minRequestSize, headerSize, Nat.mod_eq_of_lt hlt]
  split <;> omega

theorem fetchSize_wrapped {n : Nat} (large : 2 ^ 32 ≤ n + 8) (hlt : n < 2 ^ 32) :
    fetchSize n = moreSize 0 := by
  have hmod : (n + 8) % 2 ^ 32 = n + 8 - 2 ^ 32 := by omega
  rw [fetchSize, moreSize, minRequestSize, headerSize, hmod]
  rw [if_pos (by omega)]
  rfl

theorem morecore_eq (fuel : Nat) (s : Heap σ) {n : Nat} (large : 2 ^ 32 ≤ n + 8)
    (hlt : n < 2 ^ 32) : morecore sbrk fuel s n = morecore sbrk fuel s 0 := by
  have hsame : fetchSize n = fetchSize 0 := fetchSize_wrapped large hlt
  rw [fetchSize, fetchSize] at hsame
  rw [morecore, morecore]
  dsimp only at hsame ⊢
  rw [hsame]

/-- No block is big enough for such a request. -/
theorem wrapped_small {n : Nat} (large : 2 ^ 32 ≤ n + 8)
    (inv : HeapInv base brk nodes live s) : ∀ x ∈ base :: nodes, sz s.mem x < n := by
  intro x hx
  rcases List.mem_cons.mp hx with rfl | hmem
  · rw [inv.baseSz]
    omega
  · have hblock := List.mem_append_left live (mem_freeBlocks s.mem hmem)
    have hstart := inv.layout.start_le _ hblock
    have hend := inv.layout.end_le _ hblock
    have hbrk := inv.layout.brk_lt
    have hpos := inv.layout.base_pos
    dsimp only at hstart hend
    omega

/-- So the loop fetches until that fails, at the latest where the break would wrap. -/
theorem findHeader_drains {n d prev : Nat} {xs : List Nat} (large : 2 ^ 32 ≤ n + 8)
    (hlt : n < 2 ^ 32) (inv : HeapInv base (brkOf s.env) nodes live s)
    (left : 2 ^ 32 ≤ brkOf s.env + d * moreSize 0)
    (path : Path (next s.mem) (next s.mem prev) xs s.freeHdr)
    (hxs : ∀ x ∈ xs, x ∈ base :: nodes) (notFree : s.freeHdr ∉ xs)
    (fresh : FreshAlong sbrk brkOf (moreSize 0) s.env)
    (upper : ∀ k f, Fetches sbrk (moreSize 0) s.env k f →
      headerAdd (brkOf f) (moreSize 0) ≠ base)
    (apart : (sbrk s.env (moreSize 0)).1 ≠ sbrkFailed → ∀ hdr ∈ base :: nodes,
      Between s.mem (brkOf s.env) hdr → ¬ Merges s.mem (brkOf s.env) (moreSize 0) hdr) :
    ∃ r k nodes', Returns (fun fuel => findHeader sbrk n fuel s prev (next s.mem prev)) r ∧
      r.1 = 0 ∧ HeapInv base (brkOf r.2.env) nodes' live r.2 ∧
      poolOf r.2.mem nodes' live (brkOf r.2.env) =
        ⟨row (brkOf s.env) (moreSize 0) k + freeBlocks s.mem nodes, live,
          brkOf s.env + k * moreSize 0⟩ ∧
      FailsAfter sbrk (moreSize 0) s.env k r.2.env := by
  induction d generalizing s nodes prev xs with
  | zero =>
    have hbrk := inv.layout.brk_lt
    omega
  | succ d ih =>
    have small := wrapped_small large inv
    have smallFree := small _ inv.freeHdr
    have smallXs : ∀ x ∈ xs, sz s.mem x < n := fun x hx => small x (hxs x hx)
    have hzero : (0 : Nat) + 8 < 2 ^ 32 := by decide
    rcases morecore_spec (fresh 0 _ (.nil _)) inv hzero apart with
      ⟨failed, hsame, hfail⟩ | ⟨ok, s', returns, fetched⟩
    · have fails := findHeader_fails path smallXs notFree smallFree fun fuel =>
        (morecore_eq fuel s large hlt).trans (hfail fuel)
      refine ⟨_, 0, nodes, fails, rfl, ?_, ?_, _, .nil _, failed, rfl⟩
      · dsimp only
        rw [hsame]
        exact inv.withEnv _
      · dsimp only
        rw [hsame, row, zero_add, Nat.zero_mul, Nat.add_zero, poolOf]
    · have cons {k : Nat} {f : σ} (hf : Fetches sbrk (moreSize 0) s'.env k f) :
          Fetches sbrk (moreSize 0) s.env (k + 1) f := .cons ok (fetched.env ▸ hf)
      obtain ⟨us, hcut⟩ := fetched.behind
      have hlast : base :: (nodes ++ [brkOf s.env]) = us ++ [s'.freeHdr, brkOf s.env] := by
        rw [← List.cons_append, hcut, List.append_assoc]
        rfl
      obtain ⟨path', notFree', hus⟩ := path_before_last fetched.inv hlast
      have left' : 2 ^ 32 ≤ brkOf s'.env + d * moreSize 0 := by
        rw [fetched.moved, Nat.add_assoc, Nat.add_comm (moreSize 0), ← Nat.succ_mul]
        exact left
      obtain ⟨r, k, nodes', rest, h0, inv', hpool, fails⟩ := ih fetched.inv left' path' hus notFree'
        (fun k f hf => fresh (k + 1) f (cons hf)) (fun k f hf => upper (k + 1) f (cons hf))
        (fun _ => fetched.apart (upper 1 _ (cons (.nil _))))
      have returns' : Returns (fun fuel => morecore sbrk fuel s n) (brkOf s.env, s') := by
        simp only [morecore_eq _ s large hlt]
        exact returns
      refine ⟨r, k + 1, nodes',
        findHeader_fetches inv path smallXs notFree smallFree returns' rest, h0, inv', ?_, ?_⟩
      · rw [hpool, fetched.free, fetched.moved, row, Multiset.add_cons, Multiset.cons_add,
          Nat.succ_mul, Nat.add_assoc, Nat.add_comm (moreSize 0)]
      · obtain ⟨f, hf, failed, henv⟩ := fails
        exact ⟨f, cons hf, failed, henv⟩

/-- Such a request is refused. -/
theorem alloc_wrapped {n : Nat} (large : 2 ^ 32 ≤ n + 8) (hlt : n < 2 ^ 32)
    (inv : HeapInv base (brkOf s.env) nodes live s)
    (fresh : FreshAlong sbrk brkOf (moreSize 0) s.env)
    (upper : ∀ k f, Fetches sbrk (moreSize 0) s.env k f →
      headerAdd (brkOf f) (moreSize 0) ≠ base)
    (apart : (sbrk s.env (moreSize 0)).1 ≠ sbrkFailed → ∀ hdr ∈ base :: nodes,
      Between s.mem (brkOf s.env) hdr → ¬ Merges s.mem (brkOf s.env) (moreSize 0) hdr) :
    ∃ r, Returns (fun fuel => findHeader sbrk n fuel s s.freeHdr (next s.mem s.freeHdr)) r ∧
      Serves sbrk base brkOf nodes live s n (moreSize 0) r := by
  have small := wrapped_small large inv
  obtain ⟨xs, path, notFree, hxs⟩ := inv.ring.path_to (nodup_of_sorted inv.sorted)
    (inv.ring.mem_next inv.freeHdr) inv.freeHdr
  have left : 2 ^ 32 ≤ brkOf s.env + 2 ^ 32 * moreSize 0 := by
    rw [moreSize, minRequestSize]
    omega
  obtain ⟨r, k, nodes', returns, h0, inv', hpool, fails⟩ :=
    findHeader_drains large hlt inv left path hxs notFree fresh upper apart
  refine ⟨r, returns, k, nodes', live, inv', ?_, Or.inr ⟨h0, fails⟩, Or.inl ⟨h0, rfl⟩⟩
  rw [hpool, poolOf]
  refine .refused (small_free small) fun _ => ?_
  rw [moreSize, minRequestSize]
  omega

end HeapGrowth
