import Harmony.Paging.EntryOps

/-!
# Which frames and pages are aligned

`from_start_address` and `try_from_start_address` check that a frame or a page starts on a boundary,
and `Page::containing_address` rounds down to one. `RawFrame::within_frame` (`paging/frames.rs`) is
meant to do the same for frames, but takes the remainder where it should round: the base of the
frame is the offset of the address. So the frame is one that starts on a boundary only if the
address does, and the address is in it only if it is below the frame size.

An entry made from such a frame has the offset in its flag bits and is read back as something else,
and the retype table is always asked for frame 0.
-/

namespace Harmony

open Lib

/-- `RawFrame::within_frame`. -/
def RawFrame.withinFrame (addr : PhysAddr) : Except Panic RawFrame :=
  match PhysAddr.new (addr.addr % frameSize) with
  | .ok base => .ok ⟨base⟩
  | .error p => .error p

/-- The address is in the frame. -/
def RawFrame.Contains (f : RawFrame) (a : PhysAddr) : Prop :=
  f.base.addr ≤ a.addr ∧ a.addr < f.base.addr + frameSize

/-- The entry's word after `set`, read back by `get`. -/
def RawFrame.ReadsBack (f : RawFrame) (flags : PageTableFlags) : Prop :=
  ∀ value, PageTableEntry.get
    (PageTableEntry.setBits value (PageTableEntry.encode f flags)).1 = .ok (some (f, flags))

section Frames

variable {f : RawFrame} {flags : PageTableFlags}

theorem RawFrame.withinFrame_eq (a : PhysAddr) :
    ∃ f, withinFrame a = .ok f ∧ f.base.addr = a.addr % frameSize := by
  have hlt : a.addr % frameSize < 2 ^ 52 := Nat.lt_of_le_of_lt (Nat.mod_le _ _) a.lt
  refine ⟨⟨⟨_, hlt⟩⟩, ?_, rfl⟩
  unfold withinFrame
  rw [PhysAddr.new_of_lt hlt]

/-- A frame that starts on a boundary is read back. -/
theorem RawFrame.Aligned.readsBack (hf : f.Aligned) (hne : f.base.addr ≠ 0 ∨ flags.bits ≠ 0) :
    f.ReadsBack flags := by
  intro value
  rw [PageTableEntry.setBits_eq, PageTableEntry.get_eq, PageTableEntry.decode_encode hf hne]

/-- What is read back starts on a boundary. -/
theorem RawFrame.ReadsBack.aligned (h : f.ReadsBack flags) : f.Aligned := by
  have hget := h 0
  rw [PageTableEntry.get_eq] at hget
  exact PageTableEntry.aligned_of_decode (Except.ok.inj hget)

theorem RawFrame.readsBack_iff (hne : f.base.addr ≠ 0 ∨ flags.bits ≠ 0) :
    f.ReadsBack flags ↔ f.Aligned := ⟨ReadsBack.aligned, fun hf => hf.readsBack hne⟩

theorem RawFrame.aligned_of_tryFromStartAddress {base : PhysAddr}
    (h : tryFromStartAddress base = some f) : f.Aligned := by
  unfold tryFromStartAddress at h
  split_ifs at h with haligned
  obtain rfl := Option.some.inj h
  exact haligned

/-- What `within_frame` makes of an address, in terms of the address. -/
theorem RawFrame.withinFrame_props {a : PhysAddr} (h : f.base.addr = a.addr % frameSize) :
    (f.Aligned ↔ a.addr % frameSize = 0) ∧ (f.Contains a ↔ a.addr < frameSize) ∧
      (f.number = a.addr / frameSize ↔ a.addr < frameSize) := by
  unfold Aligned Contains number
  rw [h]
  unfold frameSize
  refine ⟨by omega, by omega, by omega⟩

end Frames

theorem Page.fromStartAddress_of {v : VirtAddr} (h : v.addr % pageSize = 0) :
    fromStartAddress v = .ok ⟨v, h⟩ := by
  unfold fromStartAddress tryFromStartAddress
  simp only [dif_pos h]

/-- `containing_address` does not panic. -/
theorem Page.containingAddress_of (v : VirtAddr) : containingAddress v = .ok v.page := by
  have hnew : VirtAddr.new (v.addr / pageSize * pageSize) = .ok v.page.startAddress :=
    VirtAddr.new_of_canonical v.page.startAddress.canonical
  unfold containingAddress fromStartAddress tryFromStartAddress
  rw [hnew]
  simp only [dif_pos v.page.aligned]

/-- Its page contains the address. -/
theorem VirtAddr.page_contains (v : VirtAddr) :
    v.page.base.addr ≤ v.addr ∧ v.addr < v.page.base.addr + pageSize := by
  have hbase : v.page.base.addr = v.addr / pageSize * pageSize := rfl
  rw [hbase]
  unfold pageSize
  omega

/-- **Which frames and pages are right.**

* A frame of `within_frame` starts on a boundary exactly if the address does. The address is in it,
  and the retype table is asked for the address's frame, exactly if the address is below the frame
  size. An entry made from it is read back exactly if the address starts on a boundary.
* A frame of `from_start_address` or `try_from_start_address` starts on a boundary, and every entry
  made from it is read back, but for frame 0 without flags.
* A page starts on a boundary; `containing_address` does not panic, and its page contains the
  address. -/
theorem within_frame_aligned_iff (a base : PhysAddr) (v : VirtAddr) (flags : PageTableFlags) :
    (∃ f, RawFrame.withinFrame a = .ok f ∧
      (f.Aligned ↔ a.addr % frameSize = 0) ∧
      (f.Contains a ↔ a.addr < frameSize) ∧
      (f.number = a.addr / frameSize ↔ a.addr < frameSize) ∧
      (f.base.addr ≠ 0 ∨ flags.bits ≠ 0 → (f.ReadsBack flags ↔ a.addr % frameSize = 0))) ∧
    (∀ f, RawFrame.fromStartAddress base = .ok f ∨ RawFrame.tryFromStartAddress base = some f →
      f.Aligned ∧ (f.base.addr ≠ 0 ∨ flags.bits ≠ 0 → f.ReadsBack flags)) ∧
    (∀ p, Page.fromStartAddress v = .ok p ∨ Page.tryFromStartAddress v = some p →
      p.base.addr % pageSize = 0) ∧
    (∃ p, Page.containingAddress v = .ok p ∧ p.base.addr % pageSize = 0 ∧
      p.base.addr ≤ v.addr ∧ v.addr < p.base.addr + pageSize) := by
  refine ⟨?_, fun f hf => ?_, fun p _ => p.aligned,
    v.page, Page.containingAddress_of v, v.page.aligned, v.page_contains⟩
  · obtain ⟨f, hf, hbase⟩ := RawFrame.withinFrame_eq a
    obtain ⟨haligned, hcontains, hnumber⟩ := RawFrame.withinFrame_props hbase
    exact ⟨f, hf, haligned, hcontains, hnumber,
      fun hne => (RawFrame.readsBack_iff hne).trans haligned⟩
  · have haligned : f.Aligned := hf.elim (fun h => (RawFrame.fromStartAddress_eq_ok h).2)
      RawFrame.aligned_of_tryFromStartAddress
    exact ⟨haligned, haligned.readsBack⟩

/-- An address in the second frame. -/
def inSecondFrame : PhysAddr := ⟨0x1234, by decide⟩

/-- Its frame starts at `0x234`, does not contain it, is looked up as frame 0 and is not read back.
-/
theorem within_frame_takes_remainder :
    ∃ f, RawFrame.withinFrame inSecondFrame = .ok f ∧ f.base.addr = 0x234 ∧ ¬ f.Aligned ∧
      ¬ f.Contains inSecondFrame ∧ f.number = 0 ∧ ¬ f.ReadsBack .present := by
  obtain ⟨f, hf, hbase⟩ := RawFrame.withinFrame_eq inSecondFrame
  obtain ⟨haligned, hcontains, _⟩ := RawFrame.withinFrame_props hbase
  have hnot : ¬ f.Aligned := fun h => absurd (haligned.mp h) (by decide)
  refine ⟨f, hf, hbase, hnot, fun h => absurd (hcontains.mp h) (by decide), ?_,
    fun h => hnot h.aligned⟩
  unfold RawFrame.number
  rw [hbase]
  rfl

end Harmony
