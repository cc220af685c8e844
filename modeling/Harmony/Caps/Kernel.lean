import Harmony.Caps.Slot
import Harmony.Kapi
import Harmony.Paging.PageTable
import Harmony.Trap

/-!
# The capability system as the kernel runs it

Model of `harmony/kernel/src/component.rs` (threads, `exercise_cap`, `dispatch`), of the lookups in
`caps.rs`, and of the system call entry `syscall.rs`.

A kernel object fills a frame and is reached through counted pointers. The state holds the objects
under the pointers that lead to them, the thread the core runs, and the machine below: the retype
table with its counters, memory and CR3. A program that dereferences a pointer to an object of
another type is not Rust the compiler accepts; the model stops there with a fault.

Rust gives a pointer back where its owner goes out of scope. The model writes these drops out,
where the compiler puts them, and keeps a ledger beside the counters: `handles p` is the number of
pointers to `p` made or cloned, less those dropped. A pointer turned into a raw frame stays in it.
The ledger counts a pointer as one, whatever the counter below does (a drop takes two references,
see `KPtr.drop_of_two_le`, which also says why no object is ever destroyed).

`Thread::dispatch` leaves the kernel for good: nothing above it on the stack is dropped. In the
model it is a stop, like a panic, with the state as it then is.

What comes from outside the capability system is a parameter (`Outside`): the layout the compiler
gives an object's bytes, `Addrspace::get` (a `todo!()` in the source) and the registers the system
call entry saved. The operation is given decoded (see `Operation.ofArgs`).
-/

namespace Harmony

open Lib

/-! ## Objects -/

/-- `NUM_SLOTS`: `PAGE_SIZE / SLOT_SIZE`. -/
def numSlots : Nat := pageSize / 32

instance : NeZero numSlots := ⟨by decide⟩

/-- `RawCapEntry`: a capability table. -/
abbrev RawCapEntry := SlotId numSlots → CapSlot

/-- `RawCapEntry::default`. -/
def RawCapEntry.default : RawCapEntry := fun _ => CapSlot.default

/-- `Thread`; its `exec_ctx` is the registers and the frame of the L4 table. -/
structure Thread where
  regs : Regs
  l4Frame : RawFrame
  resources : KPtr

/-- The thread's `ExecCtx`. -/
def Thread.execCtx (t : Thread) : ExecCtx := ⟨t.regs, BitVec.ofNat 64 t.l4Frame.base.addr⟩

/-- A kernel object. A page table is kept with the level it was built for. -/
inductive Object where
  | capTable (slots : RawCapEntry)
  | thread (thread : Thread)
  | pageTable (level : BitVec 8) (table : AnyPageTable)

/-- The state of the kernel, on one core. -/
structure Kernel where
  machine : Machine
  /-- The object a pointer leads to. -/
  objects : KPtr → Option Object
  /-- `ACTIVE_THREAD`. -/
  active : Option KPtr
  /-- Pointers made or cloned, less those dropped. -/
  handles : KPtr → Int

/-- How a system call ends without returning. -/
inductive Stop where
  | panic (p : Panic)
  /-- `ExecCtx::dispatch` on the thread: the core is in user mode, with this context. -/
  | dispatched (thread : KPtr) (ctx : ExecCtx)

/-- Kernel code over the objects. -/
abbrev CM (α : Type) := EStateM Stop Kernel α

/-- Code of the machine below. -/
def onMachine {α : Type} (x : KM α) : CM α := fun k =>
  match x k.machine with
  | .ok a m => .ok a { k with machine := m }
  | .error p m => .error (.panic p) { k with machine := m }

/-- `todo!()`. -/
def todo {α : Type} : CM α := throw (.panic (.message "not yet implemented"))

/-- The ledger with `n` more pointers to `p`. -/
def Kernel.hold (k : Kernel) (p : KPtr) (n : Int) : Kernel :=
  { k with handles := k.handles + Pi.single p n }

/-- The object at `p` replaced. -/
def Kernel.setObject (k : Kernel) (p : KPtr) (o : Object) : Kernel :=
  { k with objects := Function.update k.objects p (some o) }

/-- What `exercise_cap` gets from outside the capability system. -/
structure Outside where
  /-- The bytes of a capability table in memory. -/
  capTableBytes : RawCapEntry → PageBytes
  /-- The bytes of a thread in memory. -/
  threadBytes : Thread → PageBytes
  /-- `Addrspace::get` on the caller's address space. -/
  get : Page → Option (RawFrame × PageTableFlags)
  /-- `SyscallCtx::current()`. -/
  ctx : SyscallCtx

/-- An object's bytes. -/
def Outside.bytes (x : Outside) : Object → PageBytes
  | .capTable slots => x.capTableBytes slots
  | .thread thread => x.threadBytes thread
  | .pageTable _ table => table.bytes

section Pointers

variable (env : Env)

/-! ## Pointers to objects -/

/-- `KPtr::clone`. -/
def cloneHandle (p : KPtr) : CM KPtr := do
  let q ← onMachine (p.clone env)
  modify fun k => k.hold q 1
  pure q

/-- A pointer goes out of scope (`KPtr::drop`). -/
def dropHandle (p : KPtr) : CM Unit := do
  onMachine (p.drop env)
  modify fun k => k.hold p (-1)

/-- `Option<KPtr<_>>::clone`. -/
def cloneOption : Option KPtr → CM (Option KPtr)
  | none => pure none
  | some p => return some (← cloneHandle env p)

/-- `Resource::clone`. -/
def cloneResource : Resource → CM Resource
  | .empty => pure .empty
  | .capEntry table => return .capEntry (← cloneHandle env table)
  | .thread thread => return .thread (← cloneHandle env thread)
  | .pageTable table flags => return .pageTable (← cloneHandle env table) flags

/-- An `Option<KPtr<_>>` goes out of scope. -/
def dropOption : Option KPtr → CM Unit
  | none => pure ()
  | some p => dropHandle env p

/-- A `Resource` goes out of scope. -/
def dropResource : Resource → CM Unit
  | .empty => pure ()
  | .capEntry table => dropHandle env table
  | .thread thread => dropHandle env thread
  | .pageTable table _ => dropHandle env table

/-- A `CapSlot` goes out of scope, field by field. -/
def dropSlot (slot : CapSlot) : CM Unit := do
  dropOption env slot.child
  dropResource env slot.resource

/-- An object that was not stored goes out of scope. -/
def dropObject : Object → CM Unit
  | .capTable slots => (List.finRange numSlots).forM fun s => dropSlot env (slots s)
  | .thread thread => dropHandle env thread.resources
  | .pageTable _ _ => pure ()

/-- `KPtr::new`: the object is stored in the frame, or dropped. -/
def newObject (x : Outside) (frame : RawFrame) (o : Object) : CM (Except RetypeError KPtr) := do
  match ← onMachine (KPtr.new env frame (x.bytes o)) with
  | .error e => do
    dropObject env o
    pure (.error e)
  | .ok p => do
    modify fun k => (k.setObject p o).hold p 1
    pure (.ok p)

/-! ## Slots -/

/-- The slot `s` of the table behind `p`. -/
def slotAt (p : KPtr) (s : SlotId numSlots) : CM CapSlot := do
  match (← get).objects p with
  | some (.capTable slots) => pure (slots s)
  | _ => throw (.panic .fault)

/-- `AtomicCapSlot::get`: a clone of the slot, field by field. -/
def AtomicCapSlot.get (p : KPtr) (s : SlotId numSlots) : CM CapSlot := do
  let slot ← slotAt p s
  let child ← cloneOption env slot.child
  let resource ← cloneResource env slot.resource
  pure ⟨child, resource⟩

/-- `AtomicCapSlot::replace`: the old slot comes out. -/
def AtomicCapSlot.replace (p : KPtr) (s : SlotId numSlots) (slot : CapSlot) : CM CapSlot := do
  match (← MonadState.get).objects p with
  | some (.capTable slots) => do
    modify fun k => k.setObject p (.capTable (Function.update slots s slot))
    pure (slots s)
  | _ => throw (.panic .fault)

/-- `AtomicCapSlot::change`: the copy is changed by `fun` and put back, the old slot dropped. -/
def AtomicCapSlot.change (p : KPtr) (s : SlotId numSlots) (f : CapSlot → CM CapSlot) : CM Unit := do
  let slot ← AtomicCapSlot.get env p s
  let slot ← f slot
  let old ← AtomicCapSlot.replace p s slot
  dropSlot env old

/-- One step of a lookup: `slot.child()` clones the whole slot and drops its resource; then `this`
is dropped, whether the lookup ends here or goes on in the child (the tail call has taken over). -/
def AtomicCapSlot.child (this : KPtr) (offset : SlotId numSlots) : CM (Option KPtr) := do
  let slot ← AtomicCapSlot.get env this offset
  dropResource env slot.resource
  dropHandle env this
  pure slot.child

/-! ## Lookups -/

/-- `KPtr<RawCapEntry>::find`: the slot, with the pointer to its table that keeps it. -/
def CapEntry.find (this : KPtr) (cap : CapId) : CM (Except CapError (KPtr × SlotId numSlots)) := do
  match ← TrieEntry.get (AtomicCapSlot.child env) this cap with
  | none => pure (.error .notFound)
  | some found => pure (.ok found)

/-- `get_capability`. -/
def CapEntry.getCapability (this : KPtr) (cap : CapId) : CM (Except CapError CapSlot) := do
  match ← CapEntry.find env this cap with
  | .error e => pure (.error e)
  | .ok (table, s) => do
    let slot ← AtomicCapSlot.get env table s
    dropHandle env table
    pure (.ok slot)

/-- `get_resource_as`; `tryFrom` is the conversion of `T`. -/
def CapEntry.getResourceAs {T : Type} (tryFrom : Resource → Option T) (this : KPtr) (cap : CapId) :
    CM (Except CapError T) := do
  match ← CapEntry.getCapability env this cap with
  | .error e => pure (.error e)
  | .ok slot =>
    match tryFrom slot.resource with
    | some t => do
      dropOption env slot.child
      pure (.ok t)
    | none => do
      dropResource env slot.resource
      dropOption env slot.child
      pure (.error .invalidArgument)

end Pointers

/-- `TryFrom<Resource> for KPtr<RawCapEntry>`. -/
def Resource.asCapEntry : Resource → Option KPtr
  | .capEntry table => some table
  | _ => none

/-- `TryFrom<Resource> for (KPtr<AnyPageTable>, PageCapFlags)`. -/
def Resource.asPageTable : Resource → Option (KPtr × PageCapFlags)
  | .pageTable table flags => some (table, flags)
  | _ => none

/-! ## Operations -/

/-- The arguments of a system call, decoded: an operation on one kind of resource, or none. -/
inductive Operation where
  | capTable (op : CapTableOp numSlots)
  | thread (op : ThreadOp)
  | invalid
  deriving DecidableEq

/-- `CapTableOp::from_args`. -/
def Operation.asCapTableOp : Operation → Option (CapTableOp numSlots)
  | .capTable op => some op
  | _ => none

/-- `ThreadOp::from_args`. -/
def Operation.asThreadOp : Operation → Option ThreadOp
  | .thread op => some op
  | _ => none

/-- `UNTYPED_MEMORY_OFFSET`. -/
def untypedMemoryOffset : Nat := 0x700000000000

/-- The registers of a new thread. -/
def Regs.start (entry stackPointer : BitVec 64) : Regs where
  scratch := ⟨0, 0, 0, 0, 0, 0, 0, 0, 0⟩
  preserved := ⟨0, 0, 0, 0, 0, 0⟩
  control := { rip := entry, rsp := stackPointer, rflags := 0x202 }

namespace Thread

section

variable (env : Env) (x : Outside)

/-- The thread behind a pointer. -/
def deref (p : KPtr) : CM Thread := do
  match (← get).objects p with
  | some (.thread t) => pure t
  | _ => throw (.panic .fault)

/-- `self.resources.clone()`. -/
def cloneResources (self : KPtr) : CM KPtr := do
  let t ← deref self
  cloneHandle env t.resources

/-- `self.addrspace().get(region)`. -/
def lookup (self : KPtr) (region : Page) : CM (Option (RawFrame × PageTableFlags)) := do
  let t ← deref self
  let _ ← onMachine (orPanic (t.l4Frame.base.toVirtual env))
  pure (x.get region)

/-- The frame that `Construct` builds in: the region's page, mapped and present. -/
def region (self : KPtr) (region : Nat) : CM (Except CapError RawFrame) := do
  let limit ← onMachine (RawFrame.memoryLimit env)
  if limit < region then
    return .error .invalidArgument
  let pageAddress ← onMachine (orPanic (env.add region untypedMemoryOffset))
  match (VirtAddr.tryNew pageAddress).bind Page.tryFromStartAddress with
  | none => pure (.error .invalidArgument)
  | some page =>
    match ← lookup env x self page with
    | none => pure (.error .invalidArgument)
    | some (frame, flags) =>
      if flags.contains .present then pure (.ok frame) else pure (.error .invalidArgument)

/-- The resource that `Construct` makes in the frame. In the `Thread` case the test of the level is
`!flags.level() == 4`, on the bits of a `u8`; and `Thread::new` has turned `page_table` into a raw
frame when `KPtr::new` drops the thread it could not store. -/
def build (self : KPtr) (frame : RawFrame) : ConstructArgs → CM (Except CapError Resource)
  | .capTable => do
    match ← newObject env x frame (.capTable .default) with
    | .error _ => pure (.error .invalidArgument)
    | .ok ptr => pure (.ok (.capEntry ptr))
  | .thread entry stackPointer capTable pageTable => do
    match ← CapEntry.getResourceAs env Resource.asCapEntry (← cloneResources env self) capTable with
    | .error e => pure (.error e)
    | .ok capTable =>
      match ← CapEntry.getResourceAs env Resource.asPageTable
        (← cloneResources env self) pageTable with
      | .error e => do
        dropHandle env capTable
        pure (.error e)
      | .ok (pageTable, flags) =>
        if ~~~flags.level = 4 then do
          dropHandle env pageTable
          dropHandle env capTable
          pure (.error .invalidArgument)
        else do
          let l4Frame ← onMachine (pageTable.intoRaw env)
          match ← newObject env x frame
              (.thread ⟨.start entry stackPointer, l4Frame, capTable⟩) with
          | .error _ => pure (.error .invalidArgument)
          | .ok ptr => pure (.ok (.thread ptr))
  | .pageTable level => do
    if 4 < level ∨ level = 0 then
      return .error .invalidArgument
    let table ← if level = 4 then onMachine (AnyPageTable.cloneKernel env) else pure .new
    match ← newObject env x frame (.pageTable level table) with
    | .error _ => pure (.error .invalidArgument)
    | .ok ptr => pure (.ok (.pageTable ptr ⟨level⟩))

/-- The operations on a capability table. -/
def onCapTable (self table : KPtr) : CapTableOp numSlots → CM (Except CapError Nat)
  | .link slot otherTableCap => do
    match ← CapEntry.getResourceAs env Resource.asCapEntry (← cloneResources env self)
        otherTableCap with
    | .error e => pure (.error e)
    | .ok otherTable => do
      AtomicCapSlot.change env table slot fun cap => do
        dropOption env cap.child
        pure (cap.withChild (some otherTable))
      pure (.ok 0)
  | .unlink slot => do
    AtomicCapSlot.change env table slot fun cap => do
      dropOption env cap.child
      pure (cap.withChild none)
    pure (.ok 0)
  | .construct kind region slot => do
    match ← Thread.region env x self region with
    | .error e => pure (.error e)
    | .ok frame =>
      match ← build env x self frame kind with
      | .error e => pure (.error e)
      | .ok resource => do
        AtomicCapSlot.change env table slot fun cap => do
          dropResource env cap.resource
          pure (cap.withResource resource)
        pure (.ok 0)
  | .drop _ => todo
  | .copy _ _ _ => todo

/-- `saver.save_state(regs)` on the thread behind `p`. -/
def saveState (saver : Saver) (p : KPtr) : CM Unit := do
  let t ← deref p
  modify fun k => k.setObject p (.thread { t with regs := saver.saveState t.regs })

/-- `Thread::dispatch`: it does not return, and `this` is not dropped. -/
def dispatch {α : Type} (this : KPtr) (saver : Saver) : CM α := do
  let current := (← get).active
  match current with
  | some p => saveState saver p
  | none => pure ()
  let this' ← cloneHandle env this
  modify fun k => { k with active := some this' }
  dropOption env current
  let t ← deref this
  throw (.dispatched this t.execCtx)

/-- `Thread::exercise_cap`. The cloned slot's child, and the table the operation is on, are dropped
last. -/
def exerciseCap (self : KPtr) (capability : CapId) (op : Operation) : CM (Except CapError Nat) := do
  match ← CapEntry.getCapability env (← cloneResources env self) capability with
  | .error e => pure (.error e)
  | .ok slot =>
    match slot.resource with
    | .empty => do
      dropOption env slot.child
      pure (.error .notFound)
    | .capEntry capabilityTable => do
      let result ← match op.asCapTableOp with
        | none => pure (.error .invalidArgument)
        | some operation => onCapTable env x self capabilityTable operation
      dropHandle env capabilityTable
      dropOption env slot.child
      pure result
    | .thread thread =>
      match op.asThreadOp with
      | none => do
        dropHandle env thread
        dropOption env slot.child
        pure (.error .invalidArgument)
      | some .activate => dispatch env thread (.syscall x.ctx)
      | some .changeAffinity => todo
    | .pageTable _ _ => todo

/-- `Thread::current`. -/
def current : CM (Option KPtr) := do
  cloneOption env (← get).active

end

end Thread

/-- `syscall::handle`, with the arguments after the first decoded. -/
def handle (env : Env) (x : Outside) (a : Nat) (op : Operation) : CM Int := do
  match ← Thread.current env with
  | none => throw (.panic (.unwrap "Thread::current()"))
  | some thread =>
    if h : a < 2 ^ 32 then do
      let code ← match ← Thread.exerciseCap env x thread (UInt32.ofNatLT a h) op with
        | .ok result =>
          if result < 2 ^ 63 then pure (result : Int)
          else throw (.panic (.unwrap "TryFromIntError"))
        | .error e => pure e.toErrno
      dropHandle env thread
      pure code
    else do
      dropHandle env thread
      pure CapError.invalidArgument.toErrno

end Harmony
