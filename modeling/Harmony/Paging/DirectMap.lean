import Harmony.KPtr

/-!
# The direct map and its inverse

`to_virtual` adds the physical memory offset `PMO` to a physical address, and `from_virtual`
subtracts it again (`paging/physical_address.rs`). A physical address has 52 bits and `PMO` leaves
47 at most, so the sum can pass the top of the address space. Where the build checks for overflow
that is a panic. Where it wraps, the sum is a small number, and `VirtAddr::new` takes it for an
address of the lower half if it is below `2 ^ 47`.

* `PhysAddr.toVirtual_eq_ok`: the addresses `to_virtual` returns.
* `PhysAddr.fromVirtual_toVirtual`: the subtraction wraps back, so `from_virtual` is the inverse on
  all of them.
* `direct_map_above_iff`: the ones below `PMO` are those that have wrapped.
-/

namespace Harmony

open Lib

variable {env : Env} {a b : PhysAddr} {v : VirtAddr}

/-- The sum passes the top of the address space and is taken for a lower-half address. -/
def PhysAddr.WrapsLow (env : Env) (a : PhysAddr) : Prop :=
  2 ^ 64 ≤ env.pmo + a.addr ∧ env.pmo + a.addr < 2 ^ 64 + 2 ^ 47

instance (env : Env) (a : PhysAddr) : Decidable (a.WrapsLow env) :=
  inferInstanceAs (Decidable (_ ∧ _))

/-- What `to_virtual` returns: the sum, or what is left of it after the wrap. -/
theorem PhysAddr.toVirtual_eq_ok (h : a.toVirtual env = .ok v) :
    (env.pmo + a.addr < 2 ^ 64 ∧ v.addr = env.pmo + a.addr) ∨
      (env.overflowChecks = false ∧ a.WrapsLow env ∧ v.addr + 2 ^ 64 = env.pmo + a.addr) := by
  unfold toVirtual at h
  cases hadd : env.add env.pmo a.addr with
  | error p => simp [hadd] at h
  | ok virt =>
    simp only [hadd] at h
    have haddr := VirtAddr.new_eq_ok h
    have hcanonical := canonical_iff.mp v.canonical
    have hlt := env.pmo_lt
    have ha := a.lt
    rcases Env.add_eq_ok hadd with ⟨hfits, rfl⟩ | ⟨hoff, hwrap, rfl⟩
    · exact Or.inl ⟨hfits, haddr⟩
    · refine Or.inr ⟨hoff, ⟨hwrap, ?_⟩, ?_⟩ <;> omega

/-- A sum that wraps into the lower half is returned where overflow is not checked. -/
theorem PhysAddr.toVirtual_of_wrapsLow (hoff : env.overflowChecks = false) (h : a.WrapsLow env) :
    ∃ v, a.toVirtual env = .ok v ∧ v.addr = env.pmo + a.addr - 2 ^ 64 := by
  obtain ⟨hge, hlt⟩ := h
  have hmod : (env.pmo + a.addr) % 2 ^ 64 = env.pmo + a.addr - 2 ^ 64 := by
    rw [Nat.mod_eq_sub_mod hge]
    exact Nat.mod_eq_of_lt (by omega)
  have hcanonical : VirtAddr.newTruncate (env.pmo + a.addr - 2 ^ 64) =
      env.pmo + a.addr - 2 ^ 64 := canonical_iff.mpr (Or.inl (by omega))
  refine ⟨⟨_, hcanonical⟩, ?_, rfl⟩
  unfold toVirtual
  rw [Env.add_wraps hoff hge, hmod]
  exact VirtAddr.new_of_canonical hcanonical

/-- **`from_virtual` gives the physical address back**, wrapped or not. -/
theorem PhysAddr.fromVirtual_toVirtual (h : a.toVirtual env = .ok v) :
    fromVirtual env v = .ok a := by
  have hsub : env.sub v.addr env.pmo = .ok a.addr := by
    rcases toVirtual_eq_ok h with ⟨_, haddr⟩ | ⟨hoff, hwraps, haddr⟩
    · rw [haddr, Env.sub_of_le env (Nat.le_add_right _ _), Nat.add_sub_cancel_left]
    · have hlt := a.lt
      rw [Env.sub_wraps hoff (by have := hwraps.2; have := env.pmo_high; omega), haddr,
        Nat.add_sub_cancel_left, Nat.mod_eq_of_lt (Nat.lt_trans hlt (by decide))]
  unfold fromVirtual
  simp only [hsub]
  exact PhysAddr.new_of_lt a.lt

/-- The pointer to a frame's object leads back to the frame: the assertion that it is aligned makes
the frame start on a boundary, wherever `PMO` does. -/
theorem KPtr.frame_of_pointer {f : RawFrame} {m m' : Machine} (hpmo : env.pmo % pageSize = 0)
    (h : pointer env f m = .ok v m') : (KPtr.mk v).frame env = .ok f := by
  have hspec := wp_pointer env f m
  unfold wp at hspec
  rw [h] at hspec
  obtain ⟨_, hv, haligned⟩ := hspec
  have hbase : f.base.addr % frameSize = 0 := by
    unfold pageSize at hpmo haligned
    unfold frameSize
    rcases PhysAddr.toVirtual_eq_ok hv with ⟨_, haddr⟩ | ⟨_, _, haddr⟩ <;> omega
  unfold KPtr.frame
  simp only [PhysAddr.fromVirtual_toVirtual hv]
  exact RawFrame.fromStartAddress_of_aligned hbase

theorem KPtr.frame_of_fromFrameUnchecked {frame : KernelFrame} {p : KPtr} {m m' : Machine}
    (hpmo : env.pmo % pageSize = 0) (h : fromFrameUnchecked env frame m = .ok p m') :
    p.frame env = .ok frame.intoRaw := by
  unfold fromFrameUnchecked at h
  obtain ⟨ptr, m₁, hptr, hrest⟩ := bind_eq_ok h
  cases hrest
  exact frame_of_pointer hpmo hptr

theorem KPtr.frame_of_newUnchecked {frame : KernelFrame} {value : PageBytes} {p : KPtr}
    {m m' : Machine} (hpmo : env.pmo % pageSize = 0)
    (h : newUnchecked env frame value m = .ok p m') : p.frame env = .ok frame.intoRaw := by
  unfold newUnchecked at h
  obtain ⟨ptr, m₁, hptr, hrest⟩ := bind_eq_ok h
  obtain ⟨a, m₂, _, hrest⟩ := bind_eq_ok hrest
  obtain ⟨_, m₃, _, hrest⟩ := bind_eq_ok hrest
  obtain ⟨_, m₄, _, hrest⟩ := bind_eq_ok hrest
  cases hrest
  exact frame_of_pointer hpmo hptr

/-- **The direct map in the `release` profile.** For every `PMO` accepted at boot and every physical
address:

* what `to_virtual` returns is at or above `PMO` exactly if the sum does not wrap into the lower
  half;
* `from_virtual` of what it returns is the physical address;
* no other physical address has the same virtual one;
* where `PMO` is page aligned, `KPtr::frame` returns the frame the pointer was built from. -/
theorem direct_map_above_iff (env : Env) (hoff : env.overflowChecks = false) (a : PhysAddr) :
    ((∀ v, a.toVirtual env = .ok v → env.pmo ≤ v.addr) ↔ ¬ a.WrapsLow env) ∧
    (∀ v, a.toVirtual env = .ok v → PhysAddr.fromVirtual env v = .ok a) ∧
    (∀ b v, a.toVirtual env = .ok v → b.toVirtual env = .ok v → a = b) ∧
    (env.pmo % pageSize = 0 → ∀ (frame : KernelFrame) (p : KPtr) (m m' : Machine),
      (KPtr.fromFrameUnchecked env frame m = .ok p m' ∨
        ∃ value, KPtr.newUnchecked env frame value m = .ok p m') →
      p.frame env = .ok frame.intoRaw) := by
  refine ⟨⟨fun habove hwraps => ?_, fun hnot v hv => ?_⟩, fun v => PhysAddr.fromVirtual_toVirtual,
    fun b v ha hb => ?_, fun hpmo frame p m m' hmade => ?_⟩
  · obtain ⟨v, hv, haddr⟩ := PhysAddr.toVirtual_of_wrapsLow hoff hwraps
    have hle := habove v hv
    have hlow := hwraps.2
    have hhigh := env.pmo_high
    omega
  · rcases PhysAddr.toVirtual_eq_ok hv with ⟨_, haddr⟩ | ⟨_, hwraps, _⟩
    · omega
    · exact absurd hwraps hnot
  · exact Except.ok.inj ((PhysAddr.fromVirtual_toVirtual ha).symm.trans
      (PhysAddr.fromVirtual_toVirtual hb))
  · rcases hmade with h | ⟨value, h⟩
    · exact KPtr.frame_of_fromFrameUnchecked hpmo h
    · exact KPtr.frame_of_newUnchecked hpmo h

/-- The first page above what the direct map can hold. -/
def aboveTheMap : PhysAddr := ⟨0x800000001000, by decide⟩

theorem direct_map_above_iff_aboveTheMap :
    ((∀ v, aboveTheMap.toVirtual .release = .ok v → Env.release.pmo ≤ v.addr) ↔
      ¬ aboveTheMap.WrapsLow .release) ∧ aboveTheMap.WrapsLow .release :=
  ⟨(direct_map_above_iff .release rfl aboveTheMap).1, by decide⟩

/-- It gets the address `0x1000`, in the lower half. -/
theorem to_virtual_wraps_into_lower_half :
    ∃ v, aboveTheMap.toVirtual .release = .ok v ∧ v.addr = 0x1000 ∧ v.addr < Env.release.pmo := by
  have hwraps : aboveTheMap.WrapsLow .release := by decide
  obtain ⟨v, hv, haddr⟩ := PhysAddr.toVirtual_of_wrapsLow rfl hwraps
  refine ⟨v, hv, haddr, ?_⟩
  rw [haddr]
  decide

end Harmony
