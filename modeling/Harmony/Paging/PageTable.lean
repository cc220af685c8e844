import Harmony.BumpAllocator
import Harmony.KPtr

/-!
# Page tables

Model of `PageTableEntry`, `AnyPageTable` and `Addrspace` (`paging/page_table.rs`). A table is a
page of 512 words in physical memory, reached through the direct map; an `Addrspace` is the
address of its L4 table. `map_to` walks down from level 4, making the tables that are missing, and
writes the entry at level 1.

`PageTableFlags` is the `x86_64` crate's: it names bits 0 to 11 and 52 to 63, the bits an entry has
beside its frame.

* `decode_encode`: an entry written for a frame and flags is read back as them.
* `PageTableEntry.get_eq`: `get` does not panic.
-/

namespace Harmony

open Lib

/-! ## Entries -/

/-- `PageTableFlags::all()`. -/
def PageTableFlags.all : BitVec 64 := 0xFFF0000000000FFF

/-- `PageTableFlags`. -/
structure PageTableFlags where
  bits : BitVec 64
  known : bits &&& ~~~PageTableFlags.all = 0
  deriving DecidableEq

namespace PageTableFlags

/-- `from_bits`. -/
def fromBits (bits : BitVec 64) : Option PageTableFlags :=
  if h : bits &&& ~~~all = 0 then some ⟨bits, h⟩ else none

def present : PageTableFlags := ⟨1, by decide⟩
def writable : PageTableFlags := ⟨1 <<< 1, by decide⟩
def userAccessible : PageTableFlags := ⟨1 <<< 2, by decide⟩
def hugePage : PageTableFlags := ⟨1 <<< 7, by decide⟩
def noExecute : PageTableFlags := ⟨1 <<< 63, by decide⟩

/-- `a | b`. -/
def union (a b : PageTableFlags) : PageTableFlags where
  bits := a.bits ||| b.bits
  known := by
    rw [BitVec.and_or_distrib_right, a.known, b.known]
    rfl

/-- `a.contains(b)`. -/
def contains (a b : PageTableFlags) : Bool := a.bits &&& b.bits == b.bits

/-- `PRESENT` is no part of another flag. -/
theorem contains_union_present (a : PageTableFlags) {b : PageTableFlags}
    (h : present.bits &&& b.bits = 0) : (a.union present).contains b = a.contains b := by
  have hor : (a.bits ||| present.bits) &&& b.bits = a.bits &&& b.bits := by
    rw [BitVec.and_or_distrib_right, h]
    exact BitVec.or_zero
  unfold contains union
  rw [hor]

end PageTableFlags

/-- `FRAME_MASK`. -/
def frameMask : BitVec 64 := 0x000FFFFFFFFFF000

/-- `FLAGS_MASK`. -/
def flagsMask : BitVec 64 := ~~~frameMask

/-- What an entry says: a frame and its flags. -/
abbrev Mapping := RawFrame × PageTableFlags

namespace PageTableEntry

/-- A nonzero entry, taken apart: `get` and `set_bits` after their zero test. -/
def parts (value : BitVec 64) : Except Panic Mapping := do
  let base ← PhysAddr.new (value &&& frameMask).toNat
  let frame ← RawFrame.fromStartAddress base
  match PageTableFlags.fromBits (value &&& flagsMask) with
  | some flags => .ok (frame, flags)
  | none => .error (.unwrap "from_bits")

/-- `PageTableEntry::get`, on the word it loads. -/
def get (value : BitVec 64) : Except Panic (Option Mapping) :=
  if value = 0 then .ok none else (parts value).map some

/-- `attributes.bits() | frame.base().as_u64()`. -/
def encode (frame : RawFrame) (attributes : PageTableFlags) : BitVec 64 :=
  attributes.bits ||| BitVec.ofNat 64 frame.base.addr

/-- `PageTableEntry::set` on the entry at physical address `a`: a swap, and the old entry taken
apart. -/
def set (a : Nat) (frame : RawFrame) (attributes : PageTableFlags) : KM (Option Mapping) := do
  let old ← load a
  modify fun m => m.store64 a (encode frame attributes)
  orPanic (get old)

theorem frameBits_lt (value : BitVec 64) : (value &&& frameMask).toNat < 2 ^ 52 := by
  rw [BitVec.toNat_and]
  exact Nat.lt_of_le_of_lt Nat.and_le_right (by decide)

theorem frameBits_aligned (value : BitVec 64) : (value &&& frameMask).toNat % frameSize = 0 := by
  rw [BitVec.toNat_and, show frameSize = 2 ^ 12 from rfl, Nat.and_mod_two_pow,
    show frameMask.toNat % 2 ^ 12 = 0 from rfl, Nat.and_zero]

theorem flagBits_known (value : BitVec 64) :
    value &&& flagsMask &&& ~~~PageTableFlags.all = 0 := by
  rw [BitVec.and_assoc]
  exact BitVec.and_zero

/-- What a word says as an entry: nothing when it is zero. -/
def decode (value : BitVec 64) : Option Mapping :=
  if value = 0 then none
  else some (⟨⟨(value &&& frameMask).toNat, frameBits_lt value⟩⟩,
    ⟨value &&& flagsMask, flagBits_known value⟩)

section Words

variable {value : BitVec 64} {frame : RawFrame} {flags : PageTableFlags}

theorem getLsbD_frameMask :
    ∀ i < 64, frameMask.getLsbD i = (decide (12 ≤ i) && decide (i < 52)) := by
  decide

/-- **`get` does not panic**: the frame bits are a frame and every other bit is a flag. -/
theorem get_eq (value : BitVec 64) : get value = .ok (decode value) := by
  unfold get decode
  split_ifs with h0
  · rfl
  · have hbase : RawFrame.fromStartAddress ⟨(value &&& frameMask).toNat, frameBits_lt value⟩ =
        .ok ⟨⟨_, frameBits_lt value⟩⟩ :=
      RawFrame.fromStartAddress_of_aligned (frameBits_aligned value)
    unfold parts PageTableFlags.fromBits
    rw [PhysAddr.new_of_lt (frameBits_lt value), dif_pos (flagBits_known value)]
    simp only [bind, Except.bind, hbase]
    rfl

theorem decode_eq_none : decode value = none ↔ value = 0 := by
  unfold decode
  split_ifs with h
  · exact iff_of_true rfl h
  · exact iff_of_false (by simp) h

theorem aligned_of_decode (h : decode value = some (frame, flags)) : frame.Aligned := by
  unfold decode at h
  split_ifs at h
  cases h
  exact frameBits_aligned value

/-- What an entry says determines its word. -/
theorem encode_of_decode (h : decode value = some (frame, flags)) : encode frame flags = value := by
  unfold decode at h
  split_ifs at h
  cases h
  unfold encode
  rw [BitVec.ofNat_toNat, BitVec.setWidth_eq]
  ext i hi
  simp only [flagsMask, BitVec.getElem_or, BitVec.getElem_and, BitVec.getElem_not]
  cases value[i] <;> cases frameMask[i] <;> rfl

theorem ofNat_and_frameMask (hf : frame.Aligned) :
    BitVec.ofNat 64 frame.base.addr &&& frameMask = BitVec.ofNat 64 frame.base.addr := by
  apply BitVec.eq_of_getLsbD_eq
  intro i hi
  rw [BitVec.getLsbD_and, getLsbD_frameMask i hi, BitVec.getLsbD_ofNat]
  by_cases hlow : i < 12
  · have hbit : frame.base.addr.testBit i = false := by
      have hmod : frame.base.addr % 2 ^ 12 = 0 := hf
      have := Nat.testBit_mod_two_pow frame.base.addr 12 i
      rwa [hmod, Nat.zero_testBit, decide_eq_true hlow, Bool.true_and, eq_comm] at this
    simp [hbit]
  · by_cases hhigh : i < 52
    · simp [hhigh, Nat.le_of_not_lt hlow]
    · have hbit : frame.base.addr.testBit i = false :=
        Nat.testBit_lt_two_pow (Nat.lt_of_lt_of_le frame.base.lt
          (Nat.pow_le_pow_right (by decide) (Nat.le_of_not_lt hhigh)))
      simp [hbit]

/-- **An entry written for a frame and flags is read back as them**, unless both are zero. -/
theorem decode_encode (hf : frame.Aligned) (hne : frame.base.addr ≠ 0 ∨ flags.bits ≠ 0) :
    decode (encode frame flags) = some (frame, flags) := by
  have hframe : encode frame flags &&& frameMask = BitVec.ofNat 64 frame.base.addr := by
    unfold encode
    rw [BitVec.and_or_distrib_right, ofNat_and_frameMask hf,
      show flags.bits &&& frameMask = 0 from flags.known]
    exact BitVec.zero_or
  have hflags : encode frame flags &&& flagsMask = flags.bits := by
    have hk : flags.bits &&& frameMask = 0 := flags.known
    have hb := ofNat_and_frameMask hf
    unfold encode flagsMask
    ext i hi
    have h1 := congrArg (fun w : BitVec 64 => w[i]) hk
    have h2 := congrArg (fun w : BitVec 64 => w[i]) hb
    simp only [BitVec.getElem_and] at h1 h2
    simp only [BitVec.getElem_or, BitVec.getElem_and, BitVec.getElem_not]
    revert h1 h2
    cases (BitVec.ofNat 64 frame.base.addr)[i] <;> cases flags.bits[i] <;>
      cases frameMask[i] <;> simp
  have hnat : (BitVec.ofNat 64 frame.base.addr).toNat = frame.base.addr := by
    rw [BitVec.toNat_ofNat]
    exact Nat.mod_eq_of_lt (Nat.lt_trans frame.base.lt (by decide))
  have h0 : encode frame flags ≠ 0 := by
    intro h0
    rw [h0] at hframe hflags
    rcases hne with h | h
    · exact h (by rw [← hnat, ← hframe]; rfl)
    · exact h (hflags.symm.trans BitVec.zero_and)
  unfold decode
  rw [if_neg h0]
  simp only [hframe, hflags, hnat]

end Words

end PageTableEntry

/-! ## Tables -/

/-- The value of an `AnyPageTable`: its 512 words. -/
abbrev AnyPageTable := Nat → BitVec 64

/-- `AnyPageTable::new`. -/
def AnyPageTable.new : AnyPageTable := fun _ => 0

/-- The bytes of a table. -/
def AnyPageTable.bytes (t : AnyPageTable) : PageBytes := fun i => byteOf (t (i / 8)) (i % 8)

/-- `AnyPageTable::current_raw`. -/
def AnyPageTable.currentRaw : KM RawFrame := do
  let base ← orPanic (PhysAddr.new (← get).cr3.base.addr)
  orPanic (RawFrame.fromStartAddress base)

/-- `AnyPageTable::current`. -/
def AnyPageTable.current (env : Env) : KM KPtr := do
  let frame ← AnyPageTable.currentRaw
  let k ← unwrapOk "try_as_kernel" (← frame.tryAsKernel env)
  KPtr.fromFrameUnchecked env k

/-- One turn of `clone_kernel`'s loop: entry `i` of the current table, at physical address
`table`, mapped into the new one. -/
def AnyPageTable.cloneEntry (table : Nat) (new : AnyPageTable) (i : Nat) : KM AnyPageTable := do
  match ← orPanic (PageTableEntry.get (← load (table + 8 * i))) with
  | some (frame, flags) => pure (Function.update new i (PageTableEntry.encode frame flags))
  | none => pure new

/-- `AnyPageTable::clone_kernel`; when it returns, `current` goes out of scope. -/
def AnyPageTable.cloneKernel (env : Env) : KM AnyPageTable := do
  let current ← AnyPageTable.current env
  let table ← orPanic (directMap env current.inner)
  let new ← (List.range' 256 256).foldlM (AnyPageTable.cloneEntry table) AnyPageTable.new
  current.drop env
  pure new

/-- `AnyPageTable::new_l4`. -/
def AnyPageTable.newL4 (env : Env) (frame : RawFrame) : KM (Except RetypeError KPtr) := do
  let table ← AnyPageTable.cloneKernel env
  KPtr.new env frame table.bytes

/-! ## `Addrspace::map_to` -/

/-- `MapperError`. -/
inductive MapperError where
  | frameAllocationError
  | hugeParentEntry
  | alreadyMapped (frame : RawFrame)
  deriving DecidableEq

section MapTo

variable (env : Env) (page : Page) (frame : RawFrame) (flags parentFlags : PageTableFlags)

/-- The table under an empty entry at `entry`: a fresh kernel frame, cleared, and the entry set to
it. `none` when no frame is left. -/
def newTable (entry : Nat) (a : BumpAllocator) : KM (Option Nat × BumpAllocator) := do
  match ← a.allocKernelFrame env with
  | (none, a) => pure (none, a)
  | (some k, a) =>
    let fresh := k.intoRaw
    let addr ← orPanic (fresh.ptr env)
    modify fun m => m.store addr pageSize AnyPageTable.new.bytes
    let _ ← PageTableEntry.set entry fresh (parentFlags.union PageTableFlags.present)
    pure (some addr, a)

/-- The loop of `map_to` from `level` down, with the table at physical address `table`. -/
def mapToLoop : Nat → Nat → BumpAllocator → KM (Except MapperError Unit × BumpAllocator)
  | 0, _, a => pure (.ok (), a)
  | lower + 1, table, a => do
    let entry := table + 8 * page.base.pageTableIndex (lower + 1)
    match ← orPanic (PageTableEntry.get (← load entry)) with
    | some (next, entryFlags) =>
      if lower = 0 then pure (.error (.alreadyMapped next), a)
      else if entryFlags.contains .hugePage then pure (.error .hugeParentEntry, a)
      else
        let table ← orPanic (next.ptr env)
        mapToLoop lower table a
    | none =>
      if lower = 0 then
        let _ ← PageTableEntry.set entry frame flags
        mapToLoop lower table a
      else
        match ← newTable env parentFlags entry a with
        | (none, a) => pure (.error .frameAllocationError, a)
        | (some table, a) => mapToLoop lower table a

/-- `Addrspace::map_to`, on the L4 table at physical address `l4`. -/
def mapTo (l4 : Nat) (a : BumpAllocator) : KM (Except MapperError Unit × BumpAllocator) := do
  note (.mapTo page)
  mapToLoop env page frame flags parentFlags 4 l4 a

end MapTo

/-! ## What the parts of `map_to` do -/

section Spec

variable {m : Machine}

/-- `set` swaps the word and reports what was there. -/
theorem PageTableEntry.set_eq (a : Nat) (frame : RawFrame) (attributes : PageTableFlags)
    (m : Machine) : PageTableEntry.set a frame attributes m =
      .ok (PageTableEntry.decode (load64 m.mem a))
        (m.store64 a (PageTableEntry.encode frame attributes)) := by
  refine (bind_of_eq_ok (show load a m = .ok (load64 m.mem a) m from rfl)).trans ?_
  rw [PageTableEntry.get_eq]
  rfl

/-- The words of a table written to a page are read back as they are. -/
theorem load64_table (mem : Mem) (a : Nat) (t : AnyPageTable) {i : Nat} (hi : i < 512) :
    load64 (store mem a pageSize t.bytes) (a + 8 * i) = t i := by
  rw [load64_store_block (Nat.le_add_right _ _) (by simp only [pageSize]; omega)]
  refine Eq.trans (wordOf_congr ?_) (wordOf_byteOf (t i))
  intro j hj
  have hq : (a + 8 * i - a + j) / 8 = i := by omega
  have hr : (a + 8 * i - a + j) % 8 = j := by omega
  rw [AnyPageTable.bytes, hq, hr]

end Spec

end Harmony
