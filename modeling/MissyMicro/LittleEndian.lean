import Mathlib.Tactic.Common

/-!
# Byte memory with little-endian words

A word at address `a` is the four bytes from `a` on, least significant first, and
addresses need not be aligned. Loads after stores are decided by whether the two
four-byte ranges are the same or disjoint.
-/

namespace LittleEndian

abbrev Bytes := Nat → BitVec 8

def load16 (m : Bytes) (a : Nat) : BitVec 16 := m (a + 1) ++ m a

def load32 (m : Bytes) (a : Nat) : BitVec 32 := load16 m (a + 2) ++ load16 m a

def load64 (m : Bytes) (a : Nat) : BitVec 64 := load32 m (a + 4) ++ load32 m a

def store32 (m : Bytes) (a : Nat) (x : BitVec 32) : Bytes :=
  fun b => if a ≤ b ∧ b < a + 4 then x.extractLsb' (8 * (b - a)) 8 else m b

theorem load32_congr {m m' : Bytes} {a : Nat} (h : ∀ b, a ≤ b → b < a + 4 → m b = m' b) :
    load32 m a = load32 m' a := by
  rw [load32, load32, load16, load16, load16, load16, h a (by omega) (by omega),
    h (a + 1) (by omega) (by omega), h (a + 2) (by omega) (by omega),
    h (a + 2 + 1) (by omega) (by omega)]

theorem split_bytes (x : BitVec 32) :
    (x.extractLsb' 24 8 ++ x.extractLsb' 16 8) ++ (x.extractLsb' 8 8 ++ x.extractLsb' 0 8) = x := by
  rw [BitVec.extractLsb'_append_extractLsb'_eq_extractLsb' (by decide),
    BitVec.extractLsb'_append_extractLsb'_eq_extractLsb' (by decide),
    BitVec.extractLsb'_append_extractLsb'_eq_extractLsb' (by decide)]
  simp

@[simp] theorem load32_store32_same (m : Bytes) (a : Nat) (x : BitVec 32) :
    load32 (store32 m a x) a = x := by
  have h0 : store32 m a x a = x.extractLsb' 0 8 := by simp [store32]
  have h1 : store32 m a x (a + 1) = x.extractLsb' 8 8 := by simp [store32]
  have h2 : store32 m a x (a + 2) = x.extractLsb' 16 8 := by simp [store32]
  have h3 : store32 m a x (a + 2 + 1) = x.extractLsb' 24 8 := by
    simp [store32, Nat.add_assoc]
  rw [load32, load16, load16, h0, h1, h2, h3]
  exact split_bytes x

theorem store32_other (m : Bytes) {a b : Nat} (x : BitVec 32) (h : b < a ∨ a + 4 ≤ b) :
    store32 m a x b = m b := by
  rw [store32, if_neg (by omega)]

theorem load32_store32_disjoint (m : Bytes) {a b : Nat} (x : BitVec 32)
    (h : b + 4 ≤ a ∨ a + 4 ≤ b) : load32 (store32 m a x) b = load32 m b :=
  load32_congr (fun _ _ _ => store32_other m x (by omega))

/-- A memory that holds the given words from `base` on. -/
def ofWords (base : Nat) (words : List (BitVec 32)) : Bytes :=
  fun a => (words.getD ((a - base) / 4) 0).extractLsb' (8 * ((a - base) % 4)) 8

theorem load32_ofWords (base : Nat) (words : List (BitVec 32)) (i : Nat) :
    load32 (ofWords base words) (base + 4 * i) = words.getD i 0 := by
  have byte (k : Nat) (hk : k < 4) :
      ofWords base words (base + 4 * i + k) = (words.getD i 0).extractLsb' (8 * k) 8 := by
    have hdiv : (base + 4 * i + k - base) / 4 = i := by omega
    have hmod : (base + 4 * i + k - base) % 4 = k := by omega
    rw [ofWords, hdiv, hmod]
  have byte0 := byte 0 (by omega)
  rw [Nat.add_zero] at byte0
  rw [load32, load16, load16, Nat.add_assoc (base + 4 * i) 2 1, byte 3 (by omega),
    byte 2 (by omega), byte 1 (by omega), byte0]
  exact split_bytes _

end LittleEndian
