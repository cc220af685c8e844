import Harmony.Paging.MapTo

/-!
# Loading the first process

Model of `Process::load` and `Segment::load` (`arch/x86_64/bootup.rs`). `load` makes an address
space (`setup`), places the `PT_LOAD` segments of the ELF image, then the stack pages below the
untyped window, then the window itself: page `i` of the window maps physical frame `i`.

Outside the source:

* `Goblin` is the `goblin` crate: what it reads from the image as header and program headers. It is
  arbitrary, so the results are about every header and every list of program headers.
* `Program` is the image as a slice. A copy that starts in the slice may run past it when a header
  is malformed; `outside` is what the kernel finds there, `none` where the access faults.

The source's `while vcurrent < vm_range.end` is recursion on a bound for the bytes left.
-/

namespace Harmony

open Lib

/-! ## The image -/

/-- `program: &[u8]`. -/
structure Program where
  /-- `as_ptr()`. -/
  addr : Nat
  len : Nat
  bytes : Nat → BitVec 8
  /-- What lies at an offset past the slice; `none` where nothing is mapped. -/
  outside : Nat → Option (BitVec 8)

/-- The byte at an offset from the start of the image. -/
def Program.read (p : Program) (i : Nat) : Option (BitVec 8) :=
  if i < p.len then some (p.bytes i) else p.outside i

/-- `goblin::elf64::header::Header`, the fields `load` reads. -/
structure Header where
  entry : Nat
  phoff : Nat
  phentsize : Nat
  phnum : Nat

/-- `SIZEOF_EHDR`. -/
def sizeofEhdr : Nat := 64

/-- `goblin::elf64::program_header::ProgramHeader`, the fields `load` reads. -/
structure ProgramHeader where
  type : Nat
  flags : BitVec 32
  offset : Nat
  vaddr : Nat
  filesz : Nat
  memsz : Nat
  offset_lt : offset < 2 ^ 64
  vaddr_lt : vaddr < 2 ^ 64
  filesz_lt : filesz < 2 ^ 64
  memsz_lt : memsz < 2 ^ 64

/-- `PT_LOAD`. -/
def ptLoad : Nat := 1

/-- `PF_X`. -/
def pfX : BitVec 32 := 1

/-- `PF_W`. -/
def pfW : BitVec 32 := 2

/-- `PF_R`. -/
def pfR : BitVec 32 := 4

/-- What the `goblin` crate makes of an image. -/
structure Goblin where
  /-- `Header::from_bytes`, on the first bytes of the image. -/
  header : (Nat → BitVec 8) → Header
  /-- `ProgramHeader::from_raw_parts`, at an offset of the image; `none` where the read faults. -/
  programHeaders : Program → Nat → Nat → Option (List ProgramHeader)

/-! ## `Segment::load` -/

section Segment

variable (env : Env) (l4 : Nat) (program : Program) (ph : ProgramHeader)

/-- `pflags`. -/
def segmentFlags : PageTableFlags :=
  let pflags := PageTableFlags.present.union .userAccessible
  let pflags := if ph.flags &&& pfW ≠ 0 then pflags.union .writable else pflags
  if ph.flags &&& pfX = 0 then pflags.union .noExecute else pflags

/-- The parent flags of user pages. -/
def userParents : PageTableFlags := PageTableFlags.writable.union .userAccessible

/-- `count` bytes of the image from an offset on. -/
def Program.copyFrom (p : Program) (start count : Nat) : Except Panic (Nat → BitVec 8) :=
  if (List.range count).all fun i => (p.read (start + i)).isSome then
    .ok fun i => (p.read (start + i)).getD 0
  else .error .fault

/-- The two writes to a segment's page, at physical address `page`: `write_bytes` and `copy`. -/
def fillPage (page vcurrent fcurrent count : Nat) : KM Unit := do
  modify fun m => m.store page pageSize fun _ => 0
  if 0 < count then
    let bytes ← orPanic (program.copyFrom fcurrent count)
    modify fun m => m.store (page + vcurrent % pageSize) count bytes

/-- One turn of the loop: a frame for the page of `vcurrent`, mapped and filled. Returns the two
cursors. -/
def segmentPage (fileEnd vcurrent fcurrent : Nat) (a : BumpAllocator) :
    KM (Nat × Nat × BumpAllocator) := do
  let (r, a) ← a.allocUserFrame env
  let frame := (← unwrap "alloc_user_frame" r).intoRaw
  let addr ← orPanic (VirtAddr.new vcurrent)
  let page ← orPanic (Page.containingAddress addr)
  assert (ph.flags &&& pfR != 0) "flags & PF_R != 0"
  let (r, a) ← mapTo env page frame (segmentFlags ph) userParents l4 a
  unwrapOk "map_to" r
  let offsetPage ← orPanic (frame.ptr env)
  let left ← orPanic (env.sub fileEnd fcurrent)
  let count := min left (pageSize - vcurrent % pageSize)
  fillPage program offsetPage vcurrent fcurrent count
  let vcurrent ← orPanic (env.add vcurrent (pageSize - vcurrent % pageSize))
  let fcurrent ← orPanic (env.add fcurrent count)
  pure (vcurrent, fcurrent, a)

/-- The loop, with a bound for the bytes left. -/
def segmentLoop (vmEnd fileEnd : Nat) :
    Nat → Nat → Nat → BumpAllocator → KM BumpAllocator
  | 0, _, _, a => pure a
  | left + 1, vcurrent, fcurrent, a =>
    if vcurrent < vmEnd then do
      let (vcurrent, fcurrent, a) ← segmentPage env l4 program ph fileEnd vcurrent fcurrent a
      segmentLoop vmEnd fileEnd left vcurrent fcurrent a
    else pure a

/-- `Segment::load`. -/
def segmentLoad (a : BumpAllocator) : KM BumpAllocator := do
  let vmEnd ← orPanic (env.add ph.vaddr ph.memsz)
  let fileEnd ← orPanic (env.add ph.offset ph.filesz)
  assert (vmEnd ≤ 0xFFFF800000000000) "vm_range.end <= 0xFFFF800000000000"
  assert (fileEnd ≤ program.len) "file_range.end <= self.program.len()"
  assert (ph.memsz ≥ ph.filesz) "self.header.p_memsz >= self.header.p_filesz"
  segmentLoop env l4 program ph vmEnd fileEnd (vmEnd - ph.vaddr) ph.vaddr ph.offset a

end Segment

/-! ## `Process::load` -/

/-- The arguments of `load` beside the image. -/
structure LoadArgs where
  stackPages : Nat
  untypedMemoryOffset : Nat
  untypedMemoryLength : Nat

/-- `Process`. -/
structure Process where
  entry : Nat
  rsp : Nat
  l4Table : KPtr

section Process

variable (env : Env) (goblin : Goblin) (program : Program) (args : LoadArgs)

/-- The start of `load`: the assertions on the arguments, and the new L4 table. -/
def setup : KM (KPtr × BumpAllocator) := do
  assert (args.untypedMemoryOffset % pageSize == 0) "untyped_memory_offset % PAGE_SIZE == 0"
  assert (args.untypedMemoryLength % pageSize == 0) "untyped_memory_length % PAGE_SIZE == 0"
  let windowEnd ← orPanic (env.add args.untypedMemoryOffset args.untypedMemoryLength)
  assert (windowEnd < 0xFFFF800000000000)
    "untyped_memory_offset + untyped_memory_length < 0xFFFF_8000_0000_0000"
  assert (program.addr % 16 == 0) "ELF must be aligned to 16 bytes"
  let (r, a) ← BumpAllocator.new.allocUntypedFrame env
  let l4Frame ← unwrap "alloc_untyped_frame" r
  let l4Table ← unwrapOk "new_l4" (← AnyPageTable.newL4 env l4Frame)
  pure (l4Table, a)

/-- Reading the headers: `header` and `phdrs`. -/
def readHeaders : KM (Header × List ProgramHeader) := do
  assert (sizeofEhdr ≤ program.len) "program[..SIZEOF_EHDR]"
  let header := goblin.header program.bytes
  let phEnd ← orPanic (env.add header.phoff (header.phentsize * header.phnum))
  assert (program.len > phEnd) "program.len() > e_phoff + e_phentsize * e_phnum"
  assert ((program.addr + header.phoff) % 2 ^ 64 % 8 == 0)
    "phdr_start as usize % core::mem::align_of::<ProgramHeader>() == 0"
  match goblin.programHeaders program header.phoff header.phnum with
  | some phdrs => pure (header, phdrs)
  | none => throw .fault

/-- One turn of the loop over the program headers. -/
def loadSegment (l4 : Nat) (a : BumpAllocator) (ph : ProgramHeader) : KM BumpAllocator :=
  if ph.type = ptLoad then segmentLoad env l4 program ph a else pure a

/-- The flags of a stack page. -/
def stackFlags : PageTableFlags :=
  ((PageTableFlags.present.union .writable).union .userAccessible).union .noExecute

/-- One turn of the loop over the stack pages. -/
def stackPage (l4 : Nat) (a : BumpAllocator) (i : Nat) : KM BumpAllocator := do
  let rsp := args.untypedMemoryOffset
  let (r, a) ← a.allocUserFrame env
  let frame := (← unwrap "alloc_user_frame" r).intoRaw
  let next ← orPanic (env.add i 1)
  let depth ← orPanic (env.mul pageSize next)
  let addr ← orPanic (env.sub rsp depth)
  let addr ← orPanic (VirtAddr.new addr)
  let page ← orPanic (Page.fromStartAddress addr)
  let (r, a) ← mapTo env page frame stackFlags userParents l4 a
  unwrapOk "map_to" r
  pure a

/-- One turn of the loop over the untyped window. -/
def windowPage (l4 : Nat) (a : BumpAllocator) (i : Nat) : KM BumpAllocator := do
  let start ← orPanic (env.mul i frameSize)
  let base ← orPanic (PhysAddr.new start)
  let frame ← orPanic (RawFrame.fromStartAddress base)
  let addr ← orPanic (env.add frame.base.addr args.untypedMemoryOffset)
  let addr ← orPanic (VirtAddr.new addr)
  let page ← orPanic (Page.fromStartAddress addr)
  let (r, a) ← mapTo env page frame .present .present l4 a
  unwrapOk "map_to" r
  pure a

/-- Everything `load` places in the new address space, at the L4 table at physical address `l4`. -/
def place (phdrs : List ProgramHeader) (l4 : Nat) (a : BumpAllocator) : KM Unit := do
  let a ← phdrs.foldlM (loadSegment env program l4) a
  let a ← (List.range args.stackPages).foldlM (stackPage env args l4) a
  let _ ← (List.range (args.untypedMemoryLength / pageSize)).foldlM (windowPage env args l4) a
  pure ()

/-- `Process::load`. Its error type is empty: it returns `Ok` or panics. -/
def Process.load : KM Process := do
  let (l4Table, a) ← setup env program args
  let l4 ← orPanic (directMap env l4Table.inner)
  let (header, phdrs) ← readHeaders env goblin program
  place env program args phdrs l4 a
  pure ⟨header.entry, args.untypedMemoryOffset, l4Table⟩

end Process

end Harmony
