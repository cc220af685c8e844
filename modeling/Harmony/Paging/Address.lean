import Harmony.Env

/-!
# Addresses, frames and pages

Model of `PhysAddr` (`paging/physical_address.rs`), `VirtAddr` (`paging/virtual_address.rs`),
`RawFrame` (`paging/frames.rs`) and `Page` (`paging/pages.rs`). An address type carries what its
constructors check: a `PhysAddr` is below `2 ^ 52`, a `VirtAddr` is 48-bit sign-extended, a `Page`
starts on a page boundary. A `RawFrame` does not carry its alignment: `within_frame` builds one
from any address.

* `canonical_iff`: the canonical addresses are the two halves `[0, 2^47)` and `[2^64 - 2^47, 2^64)`.
* `pageTableIndex_eq`: the index at a level is nine bits of the address.
* `Page.ext_indices`: the four indices determine the page.
-/

namespace Harmony

/-- `PAGE_SIZE`. -/
def pageSize : Nat := 4096

/-- `FRAME_SIZE`. -/
def frameSize : Nat := 4096

/-! ## Physical addresses -/

/-- `PhysAddr(u64)`, up to 52 bits. -/
structure PhysAddr where
  addr : Nat
  lt : addr < 2 ^ 52
  deriving DecidableEq

/-- `PhysAddr::new_truncate`. -/
def PhysAddr.newTruncate (addr : Nat) : PhysAddr :=
  ⟨addr % (1 <<< 52), Nat.mod_lt _ (by decide)⟩

/-- `PhysAddr::try_new`. -/
def PhysAddr.tryNew (addr : Nat) : Option PhysAddr :=
  if (PhysAddr.newTruncate addr).addr = addr then some (PhysAddr.newTruncate addr) else none

/-- `PhysAddr::new`. -/
def PhysAddr.new (addr : Nat) : Except Panic PhysAddr :=
  match PhysAddr.tryNew addr with
  | some a => .ok a
  | none => .error (.message "Invalid Physical Address: Must be up to 52 bits")

theorem PhysAddr.new_of_lt {a : Nat} (h : a < 2 ^ 52) : PhysAddr.new a = .ok ⟨a, h⟩ := by
  have h1 : PhysAddr.newTruncate a = ⟨a, h⟩ := by
    simp only [PhysAddr.newTruncate, PhysAddr.mk.injEq]
    exact Nat.mod_eq_of_lt h
  simp [PhysAddr.new, PhysAddr.tryNew, h1]

theorem PhysAddr.new_eq_ok {a : Nat} {p : PhysAddr} (h : PhysAddr.new a = .ok p) : p.addr = a := by
  unfold PhysAddr.new PhysAddr.tryNew at h
  by_cases h1 : (PhysAddr.newTruncate a).addr = a
  · rw [if_pos h1] at h
    obtain rfl := Except.ok.inj h
    exact h1
  · rw [if_neg h1] at h
    exact absurd h (by simp)

/-! ## Virtual addresses -/

/-- `VirtAddr::new_truncate`: `((addr << 16) as i64 >> 16) as usize`. -/
def VirtAddr.newTruncate (addr : Nat) : Nat :=
  ((BitVec.ofNat 64 addr <<< 16).sshiftRight 16).toNat

/-- `VirtAddr(usize)`, 48-bit sign-extended. -/
structure VirtAddr where
  addr : Nat
  canonical : VirtAddr.newTruncate addr = addr
  deriving DecidableEq

/-- `VirtAddr::try_new`. -/
def VirtAddr.tryNew (addr : Nat) : Option VirtAddr :=
  if h : VirtAddr.newTruncate addr = addr then some ⟨addr, h⟩ else none

/-- `VirtAddr::new`. -/
def VirtAddr.new (addr : Nat) : Except Panic VirtAddr :=
  match VirtAddr.tryNew addr with
  | some a => .ok a
  | none => .error (.message "Invalid address: Must be 48-bit sign-extended")

/-- `VirtAddr::page_table_index`. -/
def VirtAddr.pageTableIndex (v : VirtAddr) (level : Nat) : Nat :=
  (v.addr >>> 12 >>> ((level - 1) * 9)) % 2 ^ 16 % 512

/-- The value of a 64-bit word from its signed value. -/
theorem toNat_of_toInt (x : BitVec 64) : (x.toNat : Int) = x.toInt % 2 ^ 64 := by
  have := x.isLt
  rw [BitVec.toInt_eq_toNat_cond]
  split_ifs <;> omega

theorem VirtAddr.newTruncate_eq (a : Nat) :
    VirtAddr.newTruncate a = if a % 2 ^ 48 < 2 ^ 47 then a % 2 ^ 48
      else a % 2 ^ 48 + (2 ^ 64 - 2 ^ 48) := by
  have hs : (BitVec.ofNat 64 a <<< 16).toNat = a % 2 ^ 48 * 2 ^ 16 := by
    rw [BitVec.toNat_shiftLeft, BitVec.toNat_ofNat, Nat.shiftLeft_eq]
    omega
  have hi := toNat_of_toInt ((BitVec.ofNat 64 a <<< 16).sshiftRight 16)
  rw [BitVec.toInt_sshiftRight, Int.shiftRight_eq_div_pow, BitVec.toInt_eq_toNat_cond, hs] at hi
  unfold VirtAddr.newTruncate
  have hlt : a % 2 ^ 48 < 2 ^ 48 := Nat.mod_lt _ (by decide)
  generalize a % 2 ^ 48 = r at hi hlt
  split_ifs at hi ⊢ <;> omega

/-- **The canonical addresses are the two halves.** -/
theorem canonical_iff {a : Nat} :
    VirtAddr.newTruncate a = a ↔ a < 2 ^ 47 ∨ (2 ^ 64 - 2 ^ 47 ≤ a ∧ a < 2 ^ 64) := by
  rw [VirtAddr.newTruncate_eq]
  split_ifs <;> omega

theorem VirtAddr.lt (v : VirtAddr) : v.addr < 2 ^ 64 := by
  have := canonical_iff.mp v.canonical
  omega

theorem VirtAddr.new_eq_ok {a : Nat} {v : VirtAddr} (h : VirtAddr.new a = .ok v) : v.addr = a := by
  unfold VirtAddr.new VirtAddr.tryNew at h
  by_cases h1 : VirtAddr.newTruncate a = a
  · rw [dif_pos h1] at h
    obtain rfl := Except.ok.inj h
    rfl
  · rw [dif_neg h1] at h
    exact absurd h (by simp)

theorem VirtAddr.new_of_canonical {a : Nat} (h : VirtAddr.newTruncate a = a) :
    VirtAddr.new a = .ok ⟨a, h⟩ := by
  simp [VirtAddr.new, VirtAddr.tryNew, h]

theorem VirtAddr.pageTableIndex_lt (v : VirtAddr) (level : Nat) : v.pageTableIndex level < 512 :=
  Nat.mod_lt _ (by decide)

theorem VirtAddr.pageTableIndex_eq (v : VirtAddr) (level : Nat) :
    v.pageTableIndex level = v.addr / 2 ^ (12 + (level - 1) * 9) % 512 := by
  unfold VirtAddr.pageTableIndex
  rw [Nat.shiftRight_eq_div_pow, Nat.shiftRight_eq_div_pow, Nat.div_div_eq_div_mul, ← Nat.pow_add]
  omega

/-! ## Frames -/

/-- `RawFrame`. -/
structure RawFrame where
  base : PhysAddr
  deriving DecidableEq

namespace RawFrame

/-- `RawFrame::try_from_start_address`. -/
def tryFromStartAddress (base : PhysAddr) : Option RawFrame :=
  if base.addr % frameSize = 0 then some ⟨base⟩ else none

/-- `RawFrame::from_start_address`. -/
def fromStartAddress (base : PhysAddr) : Except Panic RawFrame :=
  match tryFromStartAddress base with
  | some f => .ok f
  | none => .error (.unwrap "UnalignedAddress")

/-- The number of the frame: its index in the retype table. -/
def number (f : RawFrame) : Nat := f.base.addr / frameSize

/-- The frame starts on a frame boundary. -/
def Aligned (f : RawFrame) : Prop := f.base.addr % frameSize = 0

instance (f : RawFrame) : Decidable f.Aligned := inferInstanceAs (Decidable (_ = _))

theorem fromStartAddress_eq_ok {a : PhysAddr} {f : RawFrame}
    (h : fromStartAddress a = .ok f) : f.base = a ∧ f.Aligned := by
  unfold fromStartAddress tryFromStartAddress at h
  by_cases h1 : a.addr % frameSize = 0
  · rw [if_pos h1] at h
    obtain rfl := Except.ok.inj h
    exact ⟨rfl, h1⟩
  · rw [if_neg h1] at h
    exact absurd h (by simp)

theorem fromStartAddress_of_aligned {a : PhysAddr} (h : a.addr % frameSize = 0) :
    fromStartAddress a = .ok ⟨a⟩ := by
  simp [fromStartAddress, tryFromStartAddress, h]

theorem Aligned.base_eq {f : RawFrame} (h : f.Aligned) : f.base.addr = f.number * frameSize := by
  unfold Aligned at h
  unfold number
  have := Nat.div_add_mod f.base.addr frameSize
  rw [h] at this
  rw [Nat.mul_comm]
  omega

theorem ext_number {f g : RawFrame} (hf : f.Aligned) (hg : g.Aligned)
    (h : f.number = g.number) : f = g := by
  have : f.base.addr = g.base.addr := by rw [hf.base_eq, hg.base_eq, h]
  cases f with
  | mk a => cases g with
    | mk b => cases a; cases b; simp_all

end RawFrame

/-! ## Pages -/

/-- `Page`. -/
structure Page where
  startAddress : VirtAddr
  aligned : startAddress.addr % pageSize = 0
  deriving DecidableEq

namespace Page

/-- `Page::try_from_start_address`. -/
def tryFromStartAddress (addr : VirtAddr) : Option Page :=
  if h : addr.addr % pageSize = 0 then some ⟨addr, h⟩ else none

/-- `Page::from_start_address`. -/
def fromStartAddress (addr : VirtAddr) : Except Panic Page :=
  match tryFromStartAddress addr with
  | some p => .ok p
  | none => .error (.unwrap "Unaligned")

/-- `Page::containing_address`. -/
def containingAddress (addr : VirtAddr) : Except Panic Page :=
  match VirtAddr.new (addr.addr / pageSize * pageSize) with
  | .ok a => fromStartAddress a
  | .error e => .error e

/-- `Page::base`. -/
def base (p : Page) : VirtAddr := p.startAddress

theorem fromStartAddress_eq_ok {a : VirtAddr} {p : Page} (h : fromStartAddress a = .ok p) :
    p.base = a := by
  unfold fromStartAddress tryFromStartAddress at h
  by_cases h1 : a.addr % pageSize = 0
  · rw [dif_pos h1] at h
    obtain rfl := Except.ok.inj h
    rfl
  · rw [dif_neg h1] at h
    exact absurd h (by simp)

theorem containingAddress_eq_ok {a : VirtAddr} {p : Page} (h : containingAddress a = .ok p) :
    p.base.addr = a.addr / pageSize * pageSize := by
  unfold containingAddress at h
  cases hv : VirtAddr.new (a.addr / pageSize * pageSize) with
  | error e => rw [hv] at h; exact absurd h (by simp)
  | ok v =>
    rw [hv] at h
    rw [fromStartAddress_eq_ok h, VirtAddr.new_eq_ok hv]

/-- The index of the page at a level. -/
def index (p : Page) (level : Nat) : Nat := p.base.pageTableIndex level

theorem index_lt (p : Page) (level : Nat) : p.index level < 512 :=
  p.base.pageTableIndex_lt level

theorem ext_base {p q : Page} (h : p.base.addr = q.base.addr) : p = q := by
  obtain ⟨⟨a, _⟩, _⟩ := p
  obtain ⟨⟨b, _⟩, _⟩ := q
  obtain rfl : a = b := h
  rfl

/-- **The four indices determine the page.** -/
theorem ext_indices {p q : Page} (h4 : p.index 4 = q.index 4) (h3 : p.index 3 = q.index 3)
    (h2 : p.index 2 = q.index 2) (h1 : p.index 1 = q.index 1) : p = q := by
  simp only [index, VirtAddr.pageTableIndex_eq] at h1 h2 h3 h4
  have hp := canonical_iff.mp p.base.canonical
  have hq := canonical_iff.mp q.base.canonical
  have ap : p.base.addr % 4096 = 0 := p.aligned
  have aq : q.base.addr % 4096 = 0 := q.aligned
  refine ext_base ?_
  simp only [Nat.reducePow, Nat.reduceMul, Nat.reduceAdd, Nat.reduceSub] at *
  omega

/-- A page is in the lower half iff its top index is below 256. -/
theorem index_four_lt_iff (p : Page) : p.index 4 < 256 ↔ p.base.addr < 2 ^ 47 := by
  have hp := canonical_iff.mp p.base.canonical
  simp only [index, VirtAddr.pageTableIndex_eq]
  simp only [Nat.reducePow, Nat.reduceMul, Nat.reduceAdd, Nat.reduceSub] at *
  omega

end Page

/-- The page of an address. -/
def VirtAddr.page (v : VirtAddr) : Page where
  startAddress :=
    { addr := v.addr / pageSize * pageSize
      canonical := by
        refine canonical_iff.mpr ?_
        have := canonical_iff.mp v.canonical
        simp only [pageSize]
        omega }
  aligned := Nat.mul_mod_left _ _

-- the sign extension of a symbolic address does not evaluate; its results are the lemmas above
attribute [irreducible] VirtAddr.new

end Harmony
