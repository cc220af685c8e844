import Harmony.Paging.PageTable

/-!
# A page-table entry as an optional mapping

The operations of `PageTableEntry` (`paging/page_table.rs`) on the one word they work on, next to an
entry that is what it stands for, an `Option Mapping`. The word 0 stands for no mapping, and a frame
and flags share the other words.

`set` and `reset` replace the whole word and always agree with the abstract entry. `set_flags` keeps
the frame bits and replaces the others, and on an unmapped slot the frame bits are those of frame 0:
the slot then maps it. So the two entries agree exactly as long as `set_flags` is only used on a
slot that is mapped: `entry_agrees_iff`.
-/

namespace Harmony

open Lib

namespace PageTableEntry

/-! ### The operations -/

/-- `PageTableEntry::new`. -/
def new : BitVec 64 := 0

/-- `set_bits`: the word after the swap, and the old one taken apart. -/
def setBits (value bits : BitVec 64) : BitVec 64 × Except Panic (Option Mapping) :=
  (bits, if value = 0 then .ok none else (parts value).map some)

/-- `PageTableEntry::reset`. -/
def reset (value : BitVec 64) : BitVec 64 × Except Panic (Option Mapping) := setBits value 0

/-- `PageTableEntry::set_flags`: the word after the update, and the flags of the old one. -/
def setFlags (value : BitVec 64) (flags : PageTableFlags) :
    BitVec 64 × Except Panic PageTableFlags :=
  ((value &&& frameMask) ||| flags.bits,
    match PageTableFlags.fromBits (value &&& flagsMask) with
    | some flags => .ok flags
    | none => .error (.unwrap "from_bits"))

/-- `PageTableEntry::set` on the word at an address is `set_bits` of the word that is there. -/
theorem set_eq_setBits (a : Nat) (frame : RawFrame) (attributes : PageTableFlags) :
    set a frame attributes = (do
      let old ← load a
      modify fun m => m.store64 a (setBits old (encode frame attributes)).1
      orPanic (setBits old (encode frame attributes)).2) := rfl

end PageTableEntry

/-- An operation on an entry. What is written has a frame that starts where a frame does and flags
with `PRESENT`. -/
inductive MappingOp where
  | get
  | set (frame : RawFrame) (attributes : PageTableFlags) (aligned : frame.Aligned)
      (mapped : attributes.contains .present = true)
  | reset
  | setFlags (flags : PageTableFlags) (mapped : flags.contains .present = true)

/-- What an operation returns: a mapping, if there was one, or flags. -/
inductive MappingAnswer where
  | mapping (m : Option Mapping)
  | flags (flags : PageTableFlags)
  deriving DecidableEq

/-- Physical frame 0. -/
def RawFrame.zero : RawFrame := ⟨⟨0, Nat.two_pow_pos 52⟩⟩

/-- No flags. -/
def PageTableFlags.empty : PageTableFlags := ⟨0, BitVec.zero_and⟩

namespace MappingOp

open PageTableEntry (encode)

/-- The operation on the word: the word after it, and what it returns. -/
def run : MappingOp → BitVec 64 → BitVec 64 × Except Panic MappingAnswer
  | .get, value => (value, (PageTableEntry.get value).map .mapping)
  | .set frame attributes _ _, value =>
    ((PageTableEntry.setBits value (encode frame attributes)).1,
      (PageTableEntry.setBits value (encode frame attributes)).2.map .mapping)
  | .reset, value =>
    ((PageTableEntry.reset value).1, (PageTableEntry.reset value).2.map .mapping)
  | .setFlags flags _, value =>
    ((PageTableEntry.setFlags value flags).1, (PageTableEntry.setFlags value flags).2.map .flags)

/-- The operation on the abstract entry. Changing the flags of no mapping leaves no mapping. -/
def apply : MappingOp → Option Mapping → Option Mapping × MappingAnswer
  | .get, m => (m, .mapping m)
  | .set frame attributes _ _, m => (some (frame, attributes), .mapping m)
  | .reset, m => (none, .mapping m)
  | .setFlags flags _, m =>
    (m.map fun old => (old.1, flags), .flags ((m.map Prod.snd).getD .empty))

end MappingOp

/-! ### What one operation does -/

section Word

variable {value : BitVec 64} {m : Option Mapping}

open PageTableEntry

theorem PageTableFlags.ne_zero_of_present {flags : PageTableFlags}
    (h : flags.contains .present = true) : flags.bits ≠ 0 := by
  intro h0
  rw [contains, h0] at h
  simp [PageTableFlags.present] at h

/-- `set_bits` returns what the old word says. -/
theorem PageTableEntry.setBits_eq (value bits : BitVec 64) :
    setBits value bits = (bits, .ok (decode value)) :=
  congrArg (Prod.mk bits) (get_eq value)

/-- `set_flags` returns the flag bits of the old word. -/
theorem PageTableEntry.setFlags_eq (value : BitVec 64) (flags : PageTableFlags) :
    setFlags value flags = ((value &&& frameMask) ||| flags.bits,
      .ok ⟨value &&& flagsMask, flagBits_known value⟩) := by
  unfold setFlags PageTableFlags.fromBits
  rw [dif_pos (flagBits_known value)]

/-- They are those of the mapping the old word stands for. -/
theorem PageTableEntry.flags_of_decode (value : BitVec 64) :
    ⟨value &&& flagsMask, flagBits_known value⟩ = ((decode value).map Prod.snd).getD .empty := by
  unfold decode
  split_ifs with h
  · subst h
    rfl
  · rfl

/-- **Each operation returns what it returns on the mapping the word stands for**, and does not
panic. -/
theorem MappingOp.run_snd (op : MappingOp) (value : BitVec 64) :
    (op.run value).2 = .ok (op.apply (decode value)).2 := by
  cases op with
  | get => rw [run, get_eq]; rfl
  | set frame attributes _ _ => rw [run, setBits_eq]; rfl
  | reset => rw [run, PageTableEntry.reset, setBits_eq]; rfl
  | setFlags flags _ =>
    rw [run, setFlags_eq, flags_of_decode]
    rfl

/-- New flags for a word that stands for a mapping. -/
theorem PageTableEntry.decode_setFlags {frame : RawFrame} {old flags : PageTableFlags}
    (h : decode value = some (frame, old)) (hflags : flags.bits ≠ 0) :
    decode (setFlags value flags).1 = some (frame, flags) := by
  have hframe : value &&& frameMask = BitVec.ofNat 64 frame.base.addr := by
    unfold decode at h
    split_ifs at h
    cases h
    rw [BitVec.ofNat_toNat, BitVec.setWidth_eq]
  have hword : (setFlags value flags).1 = encode frame flags := by
    rw [setFlags_eq, hframe]
    exact BitVec.or_comm _ _
  rw [hword]
  exact decode_encode (aligned_of_decode h) (Or.inr hflags)

/-- **Every operation keeps the two entries together**, but for new flags on an unmapped slot. -/
theorem MappingOp.decode_run (op : MappingOp)
    (hmapped : ∀ flags h, op = .setFlags flags h → m ≠ none)
    (h : decode value = m) : decode (op.run value).1 = (op.apply m).1 := by
  cases op with
  | get => exact h
  | set frame attributes aligned mapped =>
    exact decode_encode aligned (Or.inr (PageTableFlags.ne_zero_of_present mapped))
  | reset => rfl
  | setFlags flags mapped =>
    cases m with
    | none => exact absurd rfl (hmapped flags mapped rfl)
    | some old => exact decode_setFlags h (PageTableFlags.ne_zero_of_present mapped)

/-- **New flags on an unmapped slot map frame 0.** -/
theorem PageTableEntry.get_setFlags_zero {flags : PageTableFlags}
    (mapped : flags.contains .present = true) :
    get (setFlags 0 flags).1 = .ok (some (.zero, flags)) := by
  have hword : (setFlags 0 flags).1 = encode .zero flags := by
    rw [setFlags_eq]
    exact (BitVec.zero_or).trans BitVec.or_zero.symm
  rw [hword, get_eq]
  exact congrArg Except.ok
    (decode_encode rfl (Or.inr (PageTableFlags.ne_zero_of_present mapped)))

end Word

/-! ### Sequences of operations -/

/-- The entry of the code and the abstract one. -/
structure EntryPair where
  word : BitVec 64
  mapping : Option Mapping

/-- A new entry, and no mapping. -/
def EntryPair.new : EntryPair := ⟨PageTableEntry.new, none⟩

/-- One operation on both. -/
def EntryPair.Step (e : EntryPair) (op : MappingOp) (e' : EntryPair) : Prop :=
  e' = ⟨(op.run e.word).1, (op.apply e.mapping).1⟩

/-- Whatever comes next returns the same on both: `get` what is mapped, `set` and `reset` the old
mapping, `set_flags` its flags. -/
def EntryPair.Agrees (e : EntryPair) : Prop :=
  ∀ op : MappingOp, (op.run e.word).2 = .ok (op.apply e.mapping).2

/-- The operation does not give new flags to an unmapped slot. -/
def EntryPair.Keeps (e : EntryPair) (op : MappingOp) : Prop :=
  ∀ flags h, op = .setFlags flags h → e.mapping ≠ none

theorem EntryPair.not_agrees_of_not_keeps {e : EntryPair} {op : MappingOp}
    (h : PageTableEntry.decode e.word = e.mapping) (hnot : ¬ e.Keeps op) :
    ∃ e', e.Step op e' ∧ ¬ e'.Agrees := by
  simp only [Keeps, not_forall, not_not] at hnot
  obtain ⟨flags, mapped, rfl, hnone⟩ := hnot
  refine ⟨_, rfl, fun hagrees => ?_⟩
  rw [hnone, PageTableEntry.decode_eq_none] at h
  have hget := hagrees .get
  simp only [MappingOp.run, MappingOp.apply, h, hnone,
    PageTableEntry.get_setFlags_zero mapped] at hget
  cases hget

/-- **An entry agrees with its abstract mapping exactly as long as no unmapped slot is given new
flags.** For every sequence of operations from a new entry; no operation ever panics, on whatever
word. -/
theorem entry_agrees_iff (ops : List MappingOp) :
    (∀ (op : MappingOp) (value : BitVec 64), ∃ answer, (op.run value).2 = .ok answer) ∧
    (Along EntryPair.Step .new ops EntryPair.Agrees ↔
      StepsAlong EntryPair.Step .new ops EntryPair.Keeps) := by
  refine ⟨fun op value => ⟨_, op.run_snd value⟩, ?_⟩
  refine along_iff (I := fun e => PageTableEntry.decode e.word = e.mapping) rfl ?_ ?_ ?_
  · intro e h op
    rw [op.run_snd, h]
  · rintro e op _ h hkeeps rfl
    exact op.decode_run hkeeps h
  · exact fun e op => EntryPair.not_agrees_of_not_keeps

/-- `set_flags(PRESENT)` on a new entry makes it map frame 0. -/
theorem set_flags_maps_frame_zero :
    let op : MappingOp := .setFlags .present rfl
    PageTableEntry.get (op.run PageTableEntry.new).1 = .ok (some (.zero, .present)) ∧
      (op.apply none).1 = none ∧ ¬ Along EntryPair.Step .new [op] EntryPair.Agrees := by
  intro op
  refine ⟨PageTableEntry.get_setFlags_zero rfl, rfl, fun halong => ?_⟩
  have hkeeps : ¬ EntryPair.new.Keeps op := fun hkeeps => hkeeps .present rfl rfl rfl
  obtain ⟨e, hstep, hnot⟩ := EntryPair.not_agrees_of_not_keeps rfl hkeeps
  exact hnot (halong [op] [] e rfl (.cons hstep (.nil e)))

end Harmony
