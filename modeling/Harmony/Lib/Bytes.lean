import Mathlib.Tactic.IntervalCases

/-!
# Byte-addressed memory

A memory is a function from addresses to bytes. `store m a n f` writes the `n` bytes `f 0 … f (n-1)`
at `a`; everything else is a case of it: a 64-bit store writes the eight bytes of the word, lowest
first, and clearing a block writes zeros. `load64` reads eight bytes back, little-endian.

* `load64_store64`: a word is read back as it was written.
* `load64_store_of_disjoint`: a store elsewhere is not seen.
* `load64_store_block`: a word inside a stored block is the word its bytes spell.
-/

namespace Harmony.Lib

/-- Memory: a byte at every address. -/
abbrev Mem := Nat → BitVec 8

/-- Byte `i` of a word, byte 0 the lowest. -/
def byteOf (w : BitVec 64) (i : Nat) : BitVec 8 := w.extractLsb' (8 * i) 8

/-- The word that eight bytes spell, lowest byte first. -/
def wordOf (f : Nat → BitVec 8) : BitVec 64 :=
  f 7 ++ f 6 ++ f 5 ++ f 4 ++ f 3 ++ f 2 ++ f 1 ++ f 0

/-- Write the `n` bytes of `f` at `a`. -/
def store (m : Mem) (a n : Nat) (f : Nat → BitVec 8) : Mem :=
  fun x => if a ≤ x ∧ x < a + n then f (x - a) else m x

/-- The 64-bit load at `a`. -/
def load64 (m : Mem) (a : Nat) : BitVec 64 := wordOf fun i => m (a + i)

/-- The 64-bit store of `w` at `a`. -/
def store64 (m : Mem) (a : Nat) (w : BitVec 64) : Mem := store m a 8 (byteOf w)

theorem wordOf_congr {f g : Nat → BitVec 8} (h : ∀ i, i < 8 → f i = g i) : wordOf f = wordOf g := by
  simp only [wordOf, h 0 (by decide), h 1 (by decide), h 2 (by decide), h 3 (by decide),
    h 4 (by decide), h 5 (by decide), h 6 (by decide), h 7 (by decide)]

theorem getLsbD_wordOf (f : Nat → BitVec 8) {j : Nat} (hj : j < 64) :
    (wordOf f).getLsbD j = (f (j / 8)).getLsbD (j % 8) := by
  unfold wordOf
  simp only [BitVec.getLsbD_append]
  interval_cases j <;> simp

theorem wordOf_byteOf (w : BitVec 64) : wordOf (byteOf w) = w := by
  apply BitVec.eq_of_getLsbD_eq
  intro j hj
  rw [getLsbD_wordOf _ hj, byteOf, BitVec.getLsbD_extractLsb']
  have h8 : j % 8 < 8 := Nat.mod_lt _ (by decide)
  simp only [h8, decide_true, Bool.true_and]
  congr 1
  omega

theorem wordOf_zero : wordOf (fun _ => 0) = 0 := by decide

theorem store_apply_of_mem {m : Mem} {a n x : Nat} {f : Nat → BitVec 8} (h : a ≤ x ∧ x < a + n) :
    store m a n f x = f (x - a) := if_pos h

theorem store_apply_of_not_mem {m : Mem} {a n x : Nat} {f : Nat → BitVec 8}
    (h : ¬ (a ≤ x ∧ x < a + n)) : store m a n f x = m x := if_neg h

/-- A store at offset `k` of a block, read at offset `i` of it. -/
theorem store_offset (m : Mem) (b k n i : Nat) (f : Nat → BitVec 8) :
    store m (b + k) n f (b + i) = if k ≤ i ∧ i < k + n then f (i - k) else m (b + i) := by
  by_cases h : k ≤ i ∧ i < k + n
  · rw [if_pos h, store_apply_of_mem (by omega)]
    congr 1
    omega
  · rw [if_neg h, store_apply_of_not_mem (by omega)]

theorem load64_congr {m m' : Mem} {a : Nat} (h : ∀ i, i < 8 → m (a + i) = m' (a + i)) :
    load64 m a = load64 m' a := wordOf_congr h

theorem load64_store_of_disjoint {m : Mem} {a b n : Nat} {f : Nat → BitVec 8}
    (h : a + 8 ≤ b ∨ b + n ≤ a) : load64 (store m b n f) a = load64 m a := by
  apply load64_congr
  intro i hi
  exact store_apply_of_not_mem (by omega)

theorem load64_store_block {m : Mem} {a b n : Nat} {f : Nat → BitVec 8} (hb : b ≤ a)
    (hn : a + 8 ≤ b + n) : load64 (store m b n f) a = wordOf fun i => f (a - b + i) := by
  apply wordOf_congr
  intro i hi
  rw [store_apply_of_mem (by omega)]
  congr 1
  omega

theorem load64_store64 (m : Mem) (a : Nat) (w : BitVec 64) : load64 (store64 m a w) a = w := by
  rw [store64, load64_store_block (Nat.le_refl a) (Nat.le_refl _)]
  simp only [Nat.sub_self, Nat.zero_add]
  exact wordOf_byteOf w

theorem load64_store64_of_disjoint {m : Mem} {a b : Nat} {w : BitVec 64}
    (h : a + 8 ≤ b ∨ b + 8 ≤ a) : load64 (store64 m b w) a = load64 m a :=
  load64_store_of_disjoint h

end Harmony.Lib
