import Harmony.Paging.Address
import Mathlib.Logic.ExistsUnique

/-!
# The parts of a virtual address

A virtual address is four indices of nine bits and an offset in a page; the bits above them repeat
bit 47. The code takes an address apart in two ways, `page_table_index` with a level and
`p1_index` to `p4_index` without, each with a truncation to 16 bits and then to nine
(`paging/virtual_address.rs`, `PageTableOffset` of `paging/page_table.rs`).

* `signExtend_eq`: `new_truncate` is the sign extension of the low 48 bits.
* `canonical_iff_bits`: the addresses `try_new` accepts are those whose bits 47 to 63 are equal.
* `Page.ofIndices`: the page with four given indices.
* `virt_addr_decomposes`: the parts determine the page, and any four indices are those of one page.
-/

namespace Harmony

/-! ### The indices -/

/-- `PageTableOffset::new_truncate(word as u16)`. -/
def PageTableOffset.newTruncate (word : Nat) : Nat := word % 2 ^ 16 % 512

namespace VirtAddr

/-- `VirtAddr::p1_index`. -/
def p1Index (v : VirtAddr) : Nat := PageTableOffset.newTruncate (v.addr >>> 12)

/-- `VirtAddr::p2_index`. -/
def p2Index (v : VirtAddr) : Nat := PageTableOffset.newTruncate (v.addr >>> 12 >>> 9)

/-- `VirtAddr::p3_index`. -/
def p3Index (v : VirtAddr) : Nat := PageTableOffset.newTruncate (v.addr >>> 12 >>> 9 >>> 9)

/-- `VirtAddr::p4_index`. -/
def p4Index (v : VirtAddr) : Nat := PageTableOffset.newTruncate (v.addr >>> 12 >>> 9 >>> 9 >>> 9)

/-- The indices with a level are those without. -/
theorem pageTableIndex_eq_pIndex (v : VirtAddr) :
    v.pageTableIndex 4 = v.p4Index ∧ v.pageTableIndex 3 = v.p3Index ∧
      v.pageTableIndex 2 = v.p2Index ∧ v.pageTableIndex 1 = v.p1Index := by
  simp only [pageTableIndex, p4Index, p3Index, p2Index, p1Index, PageTableOffset.newTruncate,
    ← Nat.shiftRight_add]
  trivial

/-! ### The sign extension -/

/-- `new_truncate` is the sign extension of the low 48 bits. -/
theorem signExtend_eq (a : Nat) :
    ((BitVec.ofNat 48 a).signExtend 64).toNat = newTruncate a := by
  rw [newTruncate_eq, BitVec.toNat_signExtend, BitVec.msb_eq_decide, BitVec.toNat_setWidth,
    BitVec.toNat_ofNat, Nat.mod_eq_of_lt (by omega)]
  simp only [decide_eq_true_eq]
  split_ifs <;> omega

theorem newTruncate_newTruncate (a : Nat) : newTruncate (newTruncate a) = newTruncate a := by
  rw [canonical_iff, newTruncate_eq]
  split_ifs <;> omega

theorem isSome_tryNew {a : Nat} : (tryNew a).isSome ↔ newTruncate a = a := by
  unfold tryNew
  split_ifs with h
  · exact iff_of_true rfl h
  · exact iff_of_false (by simp) h

theorem high_bits_false_iff (a : BitVec 64) :
    (∀ i, 47 ≤ i → i < 64 → a.getLsbD i = false) ↔ a.toNat < 2 ^ 47 := by
  constructor
  · intro h
    refine Nat.lt_pow_two_of_testBit _ fun i hi => ?_
    by_cases hi64 : i < 64
    · exact h i hi hi64
    · exact BitVec.getLsbD_of_ge a i (Nat.le_of_not_lt hi64)
  · intro h i hi _
    exact Nat.testBit_lt_two_pow (Nat.lt_of_lt_of_le h (Nat.pow_le_pow_right (by decide) hi))

/-- **The accepted words are those whose bits 47 to 63 are equal.** -/
theorem canonical_iff_bits (a : BitVec 64) :
    newTruncate a.toNat = a.toNat ↔
      ∀ i, 47 ≤ i → i < 64 → a.getLsbD i = a.getLsbD 47 := by
  have hlow := high_bits_false_iff a
  have hhigh := high_bits_false_iff (~~~a)
  rw [BitVec.toNat_not] at hhigh
  have hnot : ∀ i, i < 64 → ((~~~a).getLsbD i = false ↔ a.getLsbD i = true) := by
    intro i hi
    simp [hi]
  have hlt := a.isLt
  rw [canonical_iff]
  constructor
  · rintro (h | ⟨h, _⟩) i hi hi64
    · rw [hlow.mpr h i hi hi64, hlow.mpr h 47 (by decide) (by decide)]
    · have hbits := hhigh.mpr (by omega)
      rw [(hnot i hi64).mp (hbits i hi hi64),
        (hnot 47 (by decide)).mp (hbits 47 (by decide) (by decide))]
  · intro h
    cases h47 : a.getLsbD 47 with
    | false =>
      exact Or.inl (hlow.mp fun i hi hi64 => (h i hi hi64).trans h47)
    | true =>
      have hbits := hhigh.mp fun i hi hi64 => (hnot i hi64).mpr ((h i hi hi64).trans h47)
      exact Or.inr ⟨by omega, hlt⟩

end VirtAddr

/-! ### The page of four indices -/

/-- Four indices put together: `i4 << 39 | i3 << 30 | i2 << 21 | i1 << 12`. -/
def joined (i4 i3 i2 i1 : Nat) : Nat := i4 <<< 39 ||| i3 <<< 30 ||| i2 <<< 21 ||| i1 <<< 12

/-- Bits that do not overlap are added. -/
theorem or_eq_add {k a b : Nat} (ha : a % 2 ^ k = 0) (hb : b < 2 ^ k) : a ||| b = a + b := by
  have hshift : (a / 2 ^ k) <<< k = a := by
    rw [Nat.shiftLeft_eq, Nat.div_mul_cancel (Nat.dvd_of_mod_eq_zero ha)]
  have hadd := Nat.shiftLeft_add_eq_or_of_lt hb (a / 2 ^ k)
  rw [hshift] at hadd
  exact hadd.symm

theorem joined_eq {i4 i3 i2 i1 : Nat} (h3 : i3 < 512) (h2 : i2 < 512) (h1 : i1 < 512) :
    joined i4 i3 i2 i1 = i4 * 2 ^ 39 + i3 * 2 ^ 30 + i2 * 2 ^ 21 + i1 * 2 ^ 12 := by
  have h43 : i4 * 2 ^ 39 ||| i3 * 2 ^ 30 = i4 * 2 ^ 39 + i3 * 2 ^ 30 :=
    or_eq_add (k := 39) (by omega) (by omega)
  have h432 : i4 * 2 ^ 39 + i3 * 2 ^ 30 ||| i2 * 2 ^ 21 =
      i4 * 2 ^ 39 + i3 * 2 ^ 30 + i2 * 2 ^ 21 := or_eq_add (k := 30) (by omega) (by omega)
  unfold joined
  simp only [Nat.shiftLeft_eq]
  rw [h43, h432]
  exact or_eq_add (k := 21) (by omega) (by omega)

/-- The sign extension of a page's indices is its address. -/
theorem Page.newTruncate_joined (p : Page) :
    VirtAddr.newTruncate (joined (p.index 4) (p.index 3) (p.index 2) (p.index 1)) =
      p.base.addr := by
  rw [joined_eq (p.index_lt 3) (p.index_lt 2) (p.index_lt 1), VirtAddr.newTruncate_eq]
  have hp := canonical_iff.mp p.base.canonical
  have haligned : p.base.addr % 4096 = 0 := p.aligned
  simp only [index, VirtAddr.pageTableIndex_eq]
  simp only [Nat.reducePow, Nat.reduceMul, Nat.reduceAdd, Nat.reduceSub] at *
  split_ifs <;> omega

/-- The address with the given indices and no offset. -/
def VirtAddr.ofIndices (i4 i3 i2 i1 : Fin 512) : VirtAddr :=
  ⟨VirtAddr.newTruncate (joined i4 i3 i2 i1), VirtAddr.newTruncate_newTruncate _⟩

theorem VirtAddr.addr_ofIndices (i4 i3 i2 i1 : Fin 512) :
    (VirtAddr.ofIndices i4 i3 i2 i1).addr =
      VirtAddr.newTruncate (i4 * 2 ^ 39 + i3 * 2 ^ 30 + i2 * 2 ^ 21 + i1 * 2 ^ 12) := by
  unfold ofIndices
  dsimp only
  rw [joined_eq i3.isLt i2.isLt i1.isLt]

theorem VirtAddr.ofIndices_aligned (i4 i3 i2 i1 : Fin 512) :
    (VirtAddr.ofIndices i4 i3 i2 i1).addr % pageSize = 0 := by
  rw [addr_ofIndices, newTruncate_eq]
  unfold pageSize
  split_ifs <;> omega

/-- The page with the given indices. -/
def Page.ofIndices (i4 i3 i2 i1 : Fin 512) : Page :=
  ⟨VirtAddr.ofIndices i4 i3 i2 i1, VirtAddr.ofIndices_aligned i4 i3 i2 i1⟩

theorem Page.index_ofIndices (i4 i3 i2 i1 : Fin 512) :
    (ofIndices i4 i3 i2 i1).index 4 = i4 ∧ (ofIndices i4 i3 i2 i1).index 3 = i3 ∧
      (ofIndices i4 i3 i2 i1).index 2 = i2 ∧ (ofIndices i4 i3 i2 i1).index 1 = i1 := by
  have h4 := i4.isLt
  have h3 := i3.isLt
  have h2 := i2.isLt
  have h1 := i1.isLt
  simp only [index, VirtAddr.pageTableIndex_eq, base, ofIndices, VirtAddr.addr_ofIndices,
    VirtAddr.newTruncate_eq]
  simp only [Nat.reducePow, Nat.reduceMul, Nat.reduceAdd, Nat.reduceSub]
  split_ifs <;> omega

/-- **Virtual addresses decompose uniquely.**

* `try_new` accepts a word exactly if its bits 47 to 63 are equal; `new_truncate` of any word is
  accepted, and of an accepted word it is the word;
* for a page, the indices with a level are those without, they are below 512, the one at level 4 is
  below 256 exactly in the lower half, and their sign extension is the address;
* four indices below 512 are those of exactly one page. -/
theorem virt_addr_decomposes (a : BitVec 64) (p : Page) (i4 i3 i2 i1 : Fin 512) :
    (((VirtAddr.tryNew a.toNat).isSome ↔
        ∀ i, 47 ≤ i → i < 64 → a.getLsbD i = a.getLsbD 47) ∧
      (VirtAddr.tryNew (VirtAddr.newTruncate a.toNat)).isSome ∧
      ((VirtAddr.tryNew a.toNat).isSome → VirtAddr.newTruncate a.toNat = a.toNat)) ∧
    ((p.base.pageTableIndex 4 = p.base.p4Index ∧ p.base.pageTableIndex 3 = p.base.p3Index ∧
        p.base.pageTableIndex 2 = p.base.p2Index ∧ p.base.pageTableIndex 1 = p.base.p1Index) ∧
      (∀ level, p.base.pageTableIndex level < 512) ∧
      (p.base.pageTableIndex 4 < 256 ↔ p.base.addr < 2 ^ 47) ∧
      ((BitVec.ofNat 48 (joined (p.base.pageTableIndex 4) (p.base.pageTableIndex 3)
        (p.base.pageTableIndex 2) (p.base.pageTableIndex 1))).signExtend 64).toNat = p.base.addr) ∧
    (∃! q : Page, q.base.pageTableIndex 4 = i4 ∧ q.base.pageTableIndex 3 = i3 ∧
      q.base.pageTableIndex 2 = i2 ∧ q.base.pageTableIndex 1 = i1) := by
  refine ⟨⟨?_, ?_, VirtAddr.isSome_tryNew.mp⟩, ⟨p.base.pageTableIndex_eq_pIndex,
    p.base.pageTableIndex_lt, p.index_four_lt_iff, ?_⟩, Page.ofIndices i4 i3 i2 i1,
    Page.index_ofIndices i4 i3 i2 i1, ?_⟩
  · rw [VirtAddr.isSome_tryNew]
    exact VirtAddr.canonical_iff_bits a
  · rw [VirtAddr.isSome_tryNew]
    exact VirtAddr.newTruncate_newTruncate _
  · rw [VirtAddr.signExtend_eq]
    exact p.newTruncate_joined
  · rintro q ⟨h4, h3, h2, h1⟩
    obtain ⟨g4, g3, g2, g1⟩ := Page.index_ofIndices i4 i3 i2 i1
    exact Page.ext_indices (h4.trans g4.symm) (h3.trans g3.symm) (h2.trans g2.symm)
      (h1.trans g1.symm)

end Harmony
