import Harmony.Lib.X86
import Harmony.Paging.Address

/-!
# Saving and resuming a trapped register file

Model of the entry stubs and saved contexts
(`harmony/kernel/src/arch/x86_64/interrupts/handlers.rs`) and of `ExecCtx::dispatch`
(`.../exec.rs`): the pushes of `syscall_interrupt` and of the `interrupt!` macro, the offsets
`SyscallCtx::current` and `IrqCtx::current` read them back at, the `repr(C)` layout of the saved
registers, and the loads of `dispatch`.

`current` reads the control registers where the processor pushed them, but the preserved registers
from word 12 below the stack end and the scratch registers from word 21, one word below where the
last of each was pushed: every register is read as its neighbour, and the first of each block as
the word below (`SyscallCtx.current_reads`, `IrqCtx.current_reads`). `dispatch` loads exactly what
a context holds (`dispatch_loads`).

* `trapped_registers_recovered`: so a register file survives a trap iff all its saved registers
  have one value.
-/

namespace Harmony

open Lib Lib.X86

/-! ## The saved registers -/

/-- `PreservedRegs`, `repr(C)`. -/
structure PreservedRegs where
  rbx : BitVec 64
  rbp : BitVec 64
  r12 : BitVec 64
  r13 : BitVec 64
  r14 : BitVec 64
  r15 : BitVec 64
  deriving DecidableEq

/-- `ScratchRegs`, `repr(C)`. -/
structure ScratchRegs where
  rax : BitVec 64
  rcx : BitVec 64
  rdx : BitVec 64
  rsi : BitVec 64
  rdi : BitVec 64
  r8 : BitVec 64
  r9 : BitVec 64
  r10 : BitVec 64
  r11 : BitVec 64
  deriving DecidableEq

/-- `ControlRegs`, `repr(C)`. -/
structure ControlRegs where
  rflags : BitVec 64
  rsp : BitVec 64
  rip : BitVec 64
  deriving DecidableEq

/-- `Regs`, `repr(C)`. -/
structure Regs where
  scratch : ScratchRegs
  preserved : PreservedRegs
  control : ControlRegs

/-- `ExecCtx`, `repr(C)`; the frame is its address. -/
structure ExecCtx where
  regs : Regs
  l4Frame : BitVec 64

/-- A `PreservedRegs` read at `a`. -/
def PreservedRegs.read (mem : Mem) (a : Nat) : PreservedRegs where
  rbx := load64 mem (a + 8 * 0)
  rbp := load64 mem (a + 8 * 1)
  r12 := load64 mem (a + 8 * 2)
  r13 := load64 mem (a + 8 * 3)
  r14 := load64 mem (a + 8 * 4)
  r15 := load64 mem (a + 8 * 5)

/-- A `ScratchRegs` read at `a`. -/
def ScratchRegs.read (mem : Mem) (a : Nat) : ScratchRegs where
  rax := load64 mem (a + 8 * 0)
  rcx := load64 mem (a + 8 * 1)
  rdx := load64 mem (a + 8 * 2)
  rsi := load64 mem (a + 8 * 3)
  rdi := load64 mem (a + 8 * 4)
  r8 := load64 mem (a + 8 * 5)
  r9 := load64 mem (a + 8 * 6)
  r10 := load64 mem (a + 8 * 7)
  r11 := load64 mem (a + 8 * 8)

/-- The words of an `ExecCtx`, in order. -/
def ExecCtx.words (x : ExecCtx) : List (BitVec 64) :=
  let s := x.regs.scratch
  let p := x.regs.preserved
  let c := x.regs.control
  [s.rax, s.rcx, s.rdx, s.rsi, s.rdi, s.r8, s.r9, s.r10, s.r11,
    p.rbx, p.rbp, p.r12, p.r13, p.r14, p.r15, c.rflags, c.rsp, c.rip, x.l4Frame]

/-! ## The entry stubs -/

/-- `push_preserved!`. -/
def pushPreserved : List Reg := [.r15, .r14, .r13, .r12, .rbp, .rbx]

/-- `push_scratch!`. -/
def pushScratch : List Reg := [.r11, .r10, .r9, .r8, .rdi, .rsi, .rdx, .rcx, .rax]

/-- `syscall_interrupt`, up to its handler; `ret` is the address after the `call`. -/
def syscallInterrupt (ret : BitVec 64) : List Instr :=
  pushPreserved.map .push ++ [.subRsp 8, .call ret]

/-- `interrupt!`, up to its handler. -/
def interrupt (ret : BitVec 64) : List Instr :=
  pushPreserved.map .push ++ pushScratch.map .push ++ [.call ret]

/-! ## Reading the context back -/

/-- `SyscallCtx`. -/
@[ext]
structure SyscallCtx where
  controlRegs : ControlRegs
  preservedRegs : PreservedRegs
  deriving DecidableEq

/-- `IrqCtx`. -/
@[ext]
structure IrqCtx where
  controlRegs : ControlRegs
  preservedRegs : PreservedRegs
  scratchRegs : ScratchRegs
  deriving DecidableEq

/-- `gdt::interrupt_stack_end`: the stack is one page from `start`. -/
def interruptStackEnd (start : BitVec 64) : BitVec 64 := start + BitVec.ofNat 64 pageSize

/-- `*stack_end.sub(k)`. -/
def below (mem : Mem) (stackEnd : BitVec 64) (k : Nat) : BitVec 64 :=
  load64 mem (stackEnd.toNat - 8 * k)

/-- `SyscallCtx::current`. -/
def SyscallCtx.current (mem : Mem) (stackEnd : BitVec 64) : SyscallCtx where
  controlRegs :=
    { rsp := below mem stackEnd 2, rflags := below mem stackEnd 3, rip := below mem stackEnd 5 }
  preservedRegs := PreservedRegs.read mem (stackEnd.toNat - 8 * 12)

/-- `IrqCtx::current`. -/
def IrqCtx.current (mem : Mem) (stackEnd : BitVec 64) : IrqCtx where
  controlRegs :=
    { rsp := below mem stackEnd 2, rflags := below mem stackEnd 3, rip := below mem stackEnd 5 }
  preservedRegs := PreservedRegs.read mem (stackEnd.toNat - 8 * 12)
  scratchRegs := ScratchRegs.read mem (stackEnd.toNat - 8 * 21)

/-- `SyscallCtx::save_state`. -/
def SyscallCtx.saveState (x : SyscallCtx) (regs : Regs) : Regs :=
  { regs with control := x.controlRegs, preserved := x.preservedRegs }

/-- `IrqCtx::save_state`. -/
def IrqCtx.saveState (x : IrqCtx) (_regs : Regs) : Regs :=
  { control := x.controlRegs, preserved := x.preservedRegs, scratch := x.scratchRegs }

/-- The savers: `NoopSaver`, and the two contexts. -/
inductive Saver where
  | noop
  | syscall (ctx : SyscallCtx)
  | irq (ctx : IrqCtx)
  deriving DecidableEq

/-- `SaveState::save_state`. -/
def Saver.saveState : Saver → Regs → Regs
  | .noop, regs => regs
  | .syscall ctx, regs => ctx.saveState regs
  | .irq ctx, regs => ctx.saveState regs

/-- The user's control registers. -/
def userControl (c : Cpu) : ControlRegs := ⟨c.rflags, c.rsp, c.rip⟩

def userPreserved (c : Cpu) : PreservedRegs :=
  ⟨c.reg .rbx, c.reg .rbp, c.reg .r12, c.reg .r13, c.reg .r14, c.reg .r15⟩

def userScratch (c : Cpu) : ScratchRegs :=
  ⟨c.reg .rax, c.reg .rcx, c.reg .rdx, c.reg .rsi, c.reg .rdi, c.reg .r8, c.reg .r9, c.reg .r10,
    c.reg .r11⟩

/-! ## `ExecCtx::dispatch` -/

/-- The start of `dispatch`: the address space and the segment selectors. -/
def dispatchSwitch : List Instr :=
  [.pop .rax, .movFromCr3 .rbx, .load .rax .rdi (8 * 18), .cmp .rax .rbx, .movToCr3 .rax,
    .movImm16 .rax ((4 * 8) ||| 3), .movSeg .ds .rax, .movSeg .es .rax, .movSeg .fs .rax,
    .movSeg .gs .rax]

/-- The registers `dispatch` loads off RDI and their offsets, RDI itself apart. -/
def dispatchTable : List (Reg × Nat) :=
  [(.rax, 8 * 0), (.rcx, 8 * 1), (.rdx, 8 * 2), (.rsi, 8 * 3),
    (.r8, 8 * 5), (.r9, 8 * 6), (.r10, 8 * 7), (.r11, 8 * 8),
    (.rbx, 8 * 9), (.rbp, 8 * 10), (.r12, 8 * 11), (.r13, 8 * 12), (.r14, 8 * 13), (.r15, 8 * 14)]

/-- The end of `dispatch`: the frame for `iretq`, and RDI. -/
def dispatchReturn : List Instr :=
  [.pushImm ((4 * 8) ||| 3), .pushMem .rdi (8 * 16), .pushMem .rdi (8 * 15),
    .pushImm ((3 * 8) ||| 3), .pushMem .rdi (8 * 17), .load .rdi .rdi (8 * 4), .iretq]

/-- `ExecCtx::dispatch`. -/
def dispatch : List Instr :=
  dispatchSwitch ++ (dispatchTable.map fun e => .load e.1 .rdi e.2) ++ dispatchReturn

/-- The processor is about to run `dispatch` on the context `x`: RDI points to it in memory, and
the stack has room below it for the frame `iretq` pops. -/
structure Dispatches (d : Cpu) (x : ExecCtx) : Prop where
  words : ∀ k w, x.words[k]? = some w → load64 d.mem ((d.reg .rdi).toNat + 8 * k) = w
  in_range : (d.reg .rdi).toNat + 8 * 19 ≤ 2 ^ 64
  stack : d.rsp.toNat + 8 < 2 ^ 64
  room : 8 * 4 ≤ d.rsp.toNat
  apart : (d.reg .rdi).toNat + 8 * 19 ≤ d.rsp.toNat - 8 * 4 ∨ d.rsp.toNat + 8 ≤ (d.reg .rdi).toNat

/-! ## What the stubs leave on the stack -/

section Stack

variable {flags : BitVec 64 → BitVec 64 → BitVec 64} {c : Cpu} {stackEnd ret : BitVec 64}

/-- The processor when the syscall handler starts. -/
def syscallEntry (flags : BitVec 64 → BitVec 64 → BitVec 64) (c : Cpu) (stackEnd ret : BitVec 64) :
    Cpu :=
  (c.trap stackEnd).execAll flags (syscallInterrupt ret)

/-- The processor when an interrupt's handler starts. -/
def irqEntry (flags : BitVec 64 → BitVec 64 → BitVec 64) (c : Cpu) (stackEnd ret : BitVec 64) :
    Cpu :=
  (c.trap stackEnd).execAll flags (interrupt ret)

/-- What the handler's code has kept by the time it reads the context: everything above its own
frame. -/
def Kept (s : Cpu) (stackEnd : BitVec 64) (mem : Mem) : Prop :=
  ∀ x, s.rsp.toNat ≤ x → x < stackEnd.toNat → mem x = s.mem x

theorem Kept.below {s : Cpu} {mem : Mem} {k : Nat} (h : Kept s stackEnd mem) (hk : 0 < k)
    (hs : s.rsp.toNat ≤ stackEnd.toNat - 8 * k) (hend : 8 * k ≤ stackEnd.toNat) :
    below mem stackEnd k = below s.mem stackEnd k := by
  refine load64_congr fun i hi => h _ ?_ ?_
  · omega
  · omega

/-- The words the processor and `push_preserved!` push. -/
def savedWords (c : Cpu) : List (BitVec 64) :=
  [c.ss.setWidth 64, c.rsp, c.rflags, c.cs.setWidth 64, c.rip] ++ pushPreserved.map c.reg

/-- The stack both stubs start with. -/
theorem trap_pushPreserved (halign : stackEnd &&& ~~~15 = stackEnd) :
    (c.trap stackEnd).execAll flags (pushPreserved.map .push) =
      ({ c with rsp := stackEnd } : Cpu).pushAll (savedWords c) := by
  unfold Cpu.trap savedWords
  rw [halign, Cpu.exec_pushes, Cpu.pushAll_append, Cpu.pushAll_reg]

theorem syscallEntry_eq (flags : BitVec 64 → BitVec 64 → BitVec 64) (c : Cpu) (ret : BitVec 64)
    (halign : stackEnd &&& ~~~15 = stackEnd) :
    ∃ rflags, syscallEntry flags c stackEnd ret =
      Cpu.push
        { ({ c with rsp := stackEnd } : Cpu).pushAll (savedWords c) with
          rsp := (({ c with rsp := stackEnd } : Cpu).pushAll (savedWords c)).rsp - 8#64
          rflags := rflags } ret := by
  unfold syscallEntry syscallInterrupt
  rw [Cpu.execAll_append, trap_pushPreserved halign]
  exact ⟨_, rfl⟩

theorem irqEntry_eq (flags : BitVec 64 → BitVec 64 → BitVec 64) (c : Cpu) (ret : BitVec 64)
    (halign : stackEnd &&& ~~~15 = stackEnd) :
    irqEntry flags c stackEnd ret =
      ({ c with rsp := stackEnd } : Cpu).pushAll
        (savedWords c ++ pushScratch.map c.reg ++ [ret]) := by
  unfold irqEntry interrupt
  rw [Cpu.execAll_append, Cpu.execAll_append, trap_pushPreserved halign, Cpu.exec_pushes,
    Cpu.pushAll_append, Cpu.pushAll_append, Cpu.pushAll_reg]
  rfl

/-- Where the syscall stub leaves the stack: the saved words, the word `sub rsp, 8` skips, and the
return address. -/
theorem syscallEntry_stack (flags : BitVec 64 → BitVec 64 → BitVec 64) (c : Cpu) (ret : BitVec 64)
    (halign : stackEnd &&& ~~~15 = stackEnd)
    (hroom : 8 * 21 ≤ stackEnd.toNat) :
    (syscallEntry flags c stackEnd ret).rsp.toNat = stackEnd.toNat - 8 * 13 ∧
      (∀ k w, (savedWords c)[k]? = some w →
        below (syscallEntry flags c stackEnd ret).mem stackEnd (k + 1) = w) ∧
      below (syscallEntry flags c stackEnd ret).mem stackEnd 12 = below c.mem stackEnd 12 := by
  obtain ⟨rflags, heq⟩ := syscallEntry_eq flags c ret halign
  rw [heq]
  have hlen : (savedWords c).length = 11 := rfl
  have hfit : 8 * (savedWords c).length ≤ ({ c with rsp := stackEnd } : Cpu).rsp.toNat := by
    rw [hlen]; exact Nat.le_trans (by decide) hroom
  generalize hp : ({ c with rsp := stackEnd } : Cpu).pushAll (savedWords c) = p
  have hprsp : p.rsp.toNat = stackEnd.toNat - 88 := by rw [← hp]; exact Cpu.pushAll_rsp hfit
  -- the skipped word
  have hskip : (p.rsp - 8#64).toNat = stackEnd.toNat - 96 := by
    have := Cpu.push_rsp (c := p) (w := 0) (by omega)
    have hdef : (p.push 0).rsp.toNat = (p.rsp - 8#64).toNat := rfl
    omega
  generalize hq : ({ p with rsp := p.rsp - 8#64, rflags := rflags } : Cpu) = q
  have hqrsp : q.rsp.toNat = stackEnd.toNat - 96 := by rw [← hq]; exact hskip
  have hqmem : q.mem = p.mem := by rw [← hq]
  have hmem : (q.push ret).mem = store64 p.mem (stackEnd.toNat - 104) ret := by
    rw [Cpu.push_mem (by omega), hqrsp, hqmem]
    congr 1
  refine ⟨?_, ?_, ?_⟩
  · rw [Cpu.push_rsp (by omega)]
    omega
  · intro k w hk
    have hk11 : k < 11 := hlen ▸ (List.getElem?_eq_some_iff.mp hk).1
    unfold below
    rw [hmem, load64_store64_of_disjoint (by omega), ← hp]
    exact Cpu.pushAll_load hfit hk
  · unfold below
    rw [hmem, load64_store64_of_disjoint (by omega), ← hp]
    refine Cpu.pushAll_load_below hfit ?_
    rw [hlen]
    show stackEnd.toNat - 8 * 12 + 8 ≤ stackEnd.toNat - 8 * 11
    omega

theorem irqEntry_stack (flags : BitVec 64 → BitVec 64 → BitVec 64) (c : Cpu) (ret : BitVec 64)
    (halign : stackEnd &&& ~~~15 = stackEnd)
    (hroom : 8 * 21 ≤ stackEnd.toNat) :
    (irqEntry flags c stackEnd ret).rsp.toNat = stackEnd.toNat - 8 * 21 ∧
      ∀ k w, (savedWords c ++ pushScratch.map c.reg ++ [ret])[k]? = some w →
        below (irqEntry flags c stackEnd ret).mem stackEnd (k + 1) = w := by
  rw [irqEntry_eq flags c ret halign]
  have hfit : 8 * (savedWords c ++ pushScratch.map c.reg ++ [ret]).length ≤
      ({ c with rsp := stackEnd } : Cpu).rsp.toNat := hroom
  exact ⟨Cpu.pushAll_rsp hfit, fun k w hk => Cpu.pushAll_load hfit hk⟩

/-- A field of a block that starts at word `k`. -/
theorem load64_field {mem : Mem} {k : Nat} (j : Nat) (hj : j < k) (hroom : 8 * k ≤ stackEnd.toNat) :
    load64 mem (stackEnd.toNat - 8 * k + 8 * j) = below mem stackEnd (k - j) := by
  unfold below
  congr 1
  omega

/-- **What `SyscallCtx::current` reads**: the control registers, and each preserved register as the
one saved before it, RBX as the word the stub skipped. -/
theorem SyscallCtx.current_reads {mem : Mem} (halign : stackEnd &&& ~~~15 = stackEnd)
    (hroom : 8 * 21 ≤ stackEnd.toNat)
    (hkept : Kept (syscallEntry flags c stackEnd ret) stackEnd mem) :
    SyscallCtx.current mem stackEnd =
      ⟨userControl c, below c.mem stackEnd 12, c.reg .rbx, c.reg .rbp, c.reg .r12, c.reg .r13,
        c.reg .r14⟩ := by
  obtain ⟨hrsp, hsaved, hskip⟩ := syscallEntry_stack flags c ret halign hroom
  have hread : ∀ k w, (savedWords c)[k]? = some w → below mem stackEnd (k + 1) = w := by
    intro k w hk
    have hk11 : k < 11 := (List.getElem?_eq_some_iff.mp hk).1
    rw [hkept.below (Nat.succ_pos k) (by omega) (by omega)]
    exact hsaved k w hk
  have h12 : below mem stackEnd 12 = below c.mem stackEnd 12 := by
    rw [hkept.below (by decide) (by omega) (by omega), hskip]
  have hfield : ∀ j, j < 12 → load64 mem (stackEnd.toNat - 8 * 12 + 8 * j) =
      below mem stackEnd (12 - j) := fun j hj => load64_field j hj (by omega)
  unfold SyscallCtx.current PreservedRegs.read userControl
  rw [hread 1 _ rfl, hread 2 _ rfl, hread 4 _ rfl, (hfield 0 (by decide)).trans h12,
    (hfield 1 (by decide)).trans (hread 10 _ rfl), (hfield 2 (by decide)).trans (hread 9 _ rfl),
    (hfield 3 (by decide)).trans (hread 8 _ rfl), (hfield 4 (by decide)).trans (hread 7 _ rfl),
    (hfield 5 (by decide)).trans (hread 6 _ rfl)]

/-- **What `IrqCtx::current` reads**: the control registers, and each other register as the one
saved before it; RAX is read as the handler's return address, RBX as R11. -/
theorem IrqCtx.current_reads {mem : Mem} (halign : stackEnd &&& ~~~15 = stackEnd)
    (hroom : 8 * 21 ≤ stackEnd.toNat) (hkept : Kept (irqEntry flags c stackEnd ret) stackEnd mem) :
    IrqCtx.current mem stackEnd =
      ⟨userControl c,
        ⟨c.reg .r11, c.reg .rbx, c.reg .rbp, c.reg .r12, c.reg .r13, c.reg .r14⟩,
        ⟨ret, c.reg .rax, c.reg .rcx, c.reg .rdx, c.reg .rsi, c.reg .rdi, c.reg .r8, c.reg .r9,
          c.reg .r10⟩⟩ := by
  obtain ⟨hrsp, hsaved⟩ := irqEntry_stack flags c ret halign hroom
  have hread : ∀ k w, (savedWords c ++ pushScratch.map c.reg ++ [ret])[k]? = some w →
      below mem stackEnd (k + 1) = w := by
    intro k w hk
    have hk21 : k < 21 := (List.getElem?_eq_some_iff.mp hk).1
    rw [hkept.below (Nat.succ_pos k) (by omega) (by omega)]
    exact hsaved k w hk
  have hpres : ∀ j, j < 12 → load64 mem (stackEnd.toNat - 8 * 12 + 8 * j) =
      below mem stackEnd (12 - j) := fun j hj => load64_field j hj (by omega)
  have hscr : ∀ j, j < 21 → load64 mem (stackEnd.toNat - 8 * 21 + 8 * j) =
      below mem stackEnd (21 - j) := fun j hj => load64_field j hj (by omega)
  unfold IrqCtx.current PreservedRegs.read ScratchRegs.read userControl
  rw [hread 1 _ rfl, hread 2 _ rfl, hread 4 _ rfl,
    (hpres 0 (by decide)).trans (hread 11 _ rfl), (hpres 1 (by decide)).trans (hread 10 _ rfl),
    (hpres 2 (by decide)).trans (hread 9 _ rfl), (hpres 3 (by decide)).trans (hread 8 _ rfl),
    (hpres 4 (by decide)).trans (hread 7 _ rfl), (hpres 5 (by decide)).trans (hread 6 _ rfl),
    (hscr 0 (by decide)).trans (hread 20 _ rfl), (hscr 1 (by decide)).trans (hread 19 _ rfl),
    (hscr 2 (by decide)).trans (hread 18 _ rfl), (hscr 3 (by decide)).trans (hread 17 _ rfl),
    (hscr 4 (by decide)).trans (hread 16 _ rfl), (hscr 5 (by decide)).trans (hread 15 _ rfl),
    (hscr 6 (by decide)).trans (hread 14 _ rfl), (hscr 7 (by decide)).trans (hread 13 _ rfl),
    (hscr 8 (by decide)).trans (hread 12 _ rfl)]

end Stack

/-! ## What `dispatch` loads -/

/-- The register file a context resumes with. -/
structure Resumes (x : ExecCtx) (r : Cpu) : Prop where
  scratch : userScratch r = x.regs.scratch
  preserved : userPreserved r = x.regs.preserved
  control : userControl r = x.regs.control

section Dispatch

variable {flags : BitVec 64 → BitVec 64 → BitVec 64} {d : Cpu} {x : ExecCtx}

theorem Dispatches.address (h : Dispatches d x) {k : Nat} (hk : k < 19) :
    (d.reg .rdi + BitVec.ofNat 64 (8 * k)).toNat = (d.reg .rdi).toNat + 8 * k := by
  have hr := h.in_range
  rw [BitVec.toNat_add, BitVec.toNat_ofNat, Nat.mod_eq_of_lt (show 8 * k < 2 ^ 64 by omega),
    Nat.mod_eq_of_lt (by omega)]

/-- A word of the context, read while the frame for `iretq` is being pushed. -/
theorem Dispatches.loadAt_pushAll (h : Dispatches d x) {c : Cpu} (hreg : c.reg .rdi = d.reg .rdi)
    (hmem : c.mem = d.mem) (hrsp : c.rsp = d.rsp + 8) (ws : List (BitVec 64)) (hws : ws.length ≤ 5)
    {k : Nat} {w : BitVec 64} (hk : x.words[k]? = some w) :
    (c.pushAll ws).loadAt .rdi (8 * k) = w := by
  have hk19 : k < 19 := (List.getElem?_eq_some_iff.mp hk).1
  have hs := h.stack
  have hroom := h.room
  have hrsp' : c.rsp.toNat = d.rsp.toNat + 8 := by
    rw [hrsp, BitVec.toNat_add]
    exact Nat.mod_eq_of_lt hs
  unfold Cpu.loadAt
  rw [Cpu.pushAll_reg, hreg, h.address hk19]
  have hsame : load64 (c.pushAll ws).mem ((d.reg .rdi).toNat + 8 * k) =
      load64 c.mem ((d.reg .rdi).toNat + 8 * k) := by
    rcases h.apart with hlow | hhigh
    · exact Cpu.pushAll_load_below (by omega) (by omega)
    · exact Cpu.pushAll_load_above (by omega) (by omega)
  rw [hsame, hmem]
  exact h.words k w hk

/-- The state `dispatch` enters user code from: the frame it pushed, with the loaded registers. -/
theorem dispatch_frame (h : Dispatches d x) {c : Cpu} (hreg : c.reg .rdi = d.reg .rdi)
    (hmem : c.mem = d.mem) (hrsp : c.rsp = d.rsp + 8) :
    c.execAll flags dispatchReturn =
      ((c.pushAll [(4 * 8) ||| 3, x.regs.control.rsp, x.regs.control.rflags, (3 * 8) ||| 3,
        x.regs.control.rip]).setReg .rdi x.regs.scratch.rdi).exec flags .iretq := by
  have hload : ∀ (ws : List (BitVec 64)) (k : Nat) (w : BitVec 64), ws.length ≤ 5 →
      x.words[k]? = some w → (c.pushAll ws).loadAt .rdi (8 * k) = w :=
    fun ws k w hws hk => h.loadAt_pushAll hreg hmem hrsp ws hws hk
  have h₁ := hload [(4 * 8) ||| 3] 16 _ (by decide) rfl
  have h₂ := hload [(4 * 8) ||| 3, x.regs.control.rsp] 15 _ (by simp) rfl
  have h₃ := hload [(4 * 8) ||| 3, x.regs.control.rsp, x.regs.control.rflags, (3 * 8) ||| 3] 17 _
    (by simp) rfl
  have h₄ := hload [(4 * 8) ||| 3, x.regs.control.rsp, x.regs.control.rflags, (3 * 8) ||| 3,
    x.regs.control.rip] 4 _ (by simp) rfl
  simp only [Cpu.pushAll_cons, Cpu.pushAll_nil] at h₁ h₂ h₃ h₄
  simp only [dispatchReturn, Cpu.execAll_cons, Cpu.exec, Cpu.pushAll_cons, Cpu.pushAll_nil, h₁, h₂,
    h₃, h₄]
  rfl

/-- **`dispatch` resumes with exactly what the context holds.** -/
theorem dispatch_loads (flags : BitVec 64 → BitVec 64 → BitVec 64) (h : Dispatches d x) :
    Resumes x (d.execAll flags dispatch) := by
  unfold dispatch
  rw [Cpu.execAll_append, Cpu.execAll_append]
  generalize hc₁ : d.execAll flags dispatchSwitch = c₁
  have hmem₁ : c₁.mem = d.mem := by rw [← hc₁]; rfl
  have hreg₁ : c₁.reg .rdi = d.reg .rdi := by rw [← hc₁]; rfl
  have hrsp₁ : c₁.rsp = d.rsp + 8 := by rw [← hc₁]; rfl
  obtain ⟨hmem₂, hrsp₂, hother, hloads⟩ := Cpu.exec_loads flags .rdi c₁ dispatchTable
    (by decide) (by decide)
  generalize hc₂ : c₁.execAll flags (dispatchTable.map fun e => .load e.1 .rdi e.2) = c₂ at *
  have hreg₂ : c₂.reg .rdi = d.reg .rdi := (hother .rdi (by decide)).trans hreg₁
  rw [dispatch_frame h hreg₂ (hmem₂.trans hmem₁) (hrsp₂.trans hrsp₁)]
  generalize hws : [(4 * 8) ||| 3, x.regs.control.rsp, x.regs.control.rflags, (3 * 8) ||| 3,
    x.regs.control.rip] = ws
  have hlen : ws.length = 5 := by rw [← hws]; rfl
  -- a register off the table holds its word of the context
  have hreg : ∀ g k w, (g, 8 * k) ∈ dispatchTable → x.words[k]? = some w → g ≠ .rdi →
      (((c₂.pushAll ws).setReg .rdi x.regs.scratch.rdi).exec flags .iretq).reg g = w := by
    intro g k w hg hk hne
    have hset : (((c₂.pushAll ws).setReg .rdi x.regs.scratch.rdi).exec flags .iretq).reg g =
        (c₂.pushAll ws).reg g := if_neg hne
    rw [hset, Cpu.pushAll_reg, hloads _ hg]
    exact h.loadAt_pushAll hreg₁ hmem₁ hrsp₁ [] (Nat.zero_le 5) hk
  have hfit : 8 * ws.length ≤ c₂.rsp.toNat := by
    have hs := h.stack
    have hroom := h.room
    rw [hlen, hrsp₂, hrsp₁, BitVec.toNat_add]
    show _ ≤ (d.rsp.toNat + 8) % 2 ^ 64
    omega
  have hpeek : ∀ k w, k < 5 → ws[4 - k]? = some w → (c₂.pushAll ws).peek k = w := by
    intro k w hk hw
    exact Cpu.pushAll_peek hfit (by omega) (by rw [hlen]; exact hw)
  constructor
  · simp only [userScratch]
    rw [hreg .rax 0 _ (by decide) rfl (by decide), hreg .rcx 1 _ (by decide) rfl (by decide),
      hreg .rdx 2 _ (by decide) rfl (by decide), hreg .rsi 3 _ (by decide) rfl (by decide),
      hreg .r8 5 _ (by decide) rfl (by decide), hreg .r9 6 _ (by decide) rfl (by decide),
      hreg .r10 7 _ (by decide) rfl (by decide), hreg .r11 8 _ (by decide) rfl (by decide)]
    rfl
  · simp only [userPreserved]
    rw [hreg .rbx 9 _ (by decide) rfl (by decide), hreg .rbp 10 _ (by decide) rfl (by decide),
      hreg .r12 11 _ (by decide) rfl (by decide), hreg .r13 12 _ (by decide) rfl (by decide),
      hreg .r14 13 _ (by decide) rfl (by decide), hreg .r15 14 _ (by decide) rfl (by decide)]
  · show ControlRegs.mk ((c₂.pushAll ws).peek 2) ((c₂.pushAll ws).peek 3)
      ((c₂.pushAll ws).peek 0) = _
    rw [hpeek 2 _ (by decide) (by rw [← hws]; rfl), hpeek 3 _ (by decide) (by rw [← hws]; rfl),
      hpeek 0 _ (by decide) (by rw [← hws]; rfl)]

end Dispatch

/-! ## A register file through a trap -/

/-- The preserved registers and the word the syscall stub skips all have one value. -/
def SyscallUniform (c : Cpu) (stackEnd : BitVec 64) : Prop :=
  below c.mem stackEnd 12 = c.reg .rbx ∧ c.reg .rbx = c.reg .rbp ∧ c.reg .rbp = c.reg .r12 ∧
    c.reg .r12 = c.reg .r13 ∧ c.reg .r13 = c.reg .r14 ∧ c.reg .r14 = c.reg .r15

/-- All registers and the handler's return address have one value. -/
def IrqUniform (c : Cpu) (ret : BitVec 64) : Prop :=
  (ret = c.reg .rax ∧ c.reg .rax = c.reg .rcx ∧ c.reg .rcx = c.reg .rdx ∧ c.reg .rdx = c.reg .rsi ∧
    c.reg .rsi = c.reg .rdi ∧ c.reg .rdi = c.reg .r8 ∧ c.reg .r8 = c.reg .r9 ∧
    c.reg .r9 = c.reg .r10 ∧ c.reg .r10 = c.reg .r11) ∧
  c.reg .r11 = c.reg .rbx ∧ c.reg .rbx = c.reg .rbp ∧ c.reg .rbp = c.reg .r12 ∧
    c.reg .r12 = c.reg .r13 ∧ c.reg .r13 = c.reg .r14 ∧ c.reg .r14 = c.reg .r15

/-- The context `SyscallCtx::current` should return. -/
def SyscallCtx.ofUser (c : Cpu) : SyscallCtx := ⟨userControl c, userPreserved c⟩

/-- The context `IrqCtx::current` should return. -/
def IrqCtx.ofUser (c : Cpu) : IrqCtx := ⟨userControl c, userPreserved c, userScratch c⟩

theorem interruptStackEnd_room {start : BitVec 64} (h : start.toNat + pageSize < 2 ^ 64) :
    8 * 21 ≤ (interruptStackEnd start).toNat := by
  unfold interruptStackEnd
  rw [BitVec.toNat_add, BitVec.toNat_ofNat]
  simp only [pageSize] at h ⊢
  omega

section Recovered

variable {flags : BitVec 64 → BitVec 64 → BitVec 64} {c : Cpu} {stackEnd ret : BitVec 64}
  {mem : Mem}

theorem SyscallCtx.current_iff (halign : stackEnd &&& ~~~15 = stackEnd)
    (hroom : 8 * 21 ≤ stackEnd.toNat)
    (hkept : Kept (syscallEntry flags c stackEnd ret) stackEnd mem) :
    SyscallCtx.current mem stackEnd = SyscallCtx.ofUser c ↔ SyscallUniform c stackEnd := by
  rw [SyscallCtx.current_reads halign hroom hkept]
  simp only [SyscallCtx.ofUser, userPreserved, SyscallUniform, SyscallCtx.mk.injEq,
    PreservedRegs.mk.injEq, true_and]

theorem IrqCtx.current_iff (halign : stackEnd &&& ~~~15 = stackEnd)
    (hroom : 8 * 21 ≤ stackEnd.toNat)
    (hkept : Kept (irqEntry flags c stackEnd ret) stackEnd mem) :
    IrqCtx.current mem stackEnd = IrqCtx.ofUser c ↔ IrqUniform c ret := by
  rw [IrqCtx.current_reads halign hroom hkept]
  simp only [IrqCtx.ofUser, userPreserved, userScratch, IrqUniform, IrqCtx.mk.injEq,
    PreservedRegs.mk.injEq, ScratchRegs.mk.injEq, true_and]
  exact And.comm

end Recovered

/-- **A register file survives a trap iff all the registers saved have one value.** For both entry
stubs, whatever the handler did below its frame: what `current` returns is the user's file, and what
`dispatch` resumes with from a context filled by it is the user's file, iff the registers `current`
shifts by one word are all equal. -/
theorem trapped_registers_recovered (flags : BitVec 64 → BitVec 64 → BitVec 64) (c : Cpu)
    (start ret : BitVec 64) (hstart : start.toNat + pageSize < 2 ^ 64)
    (halign : interruptStackEnd start &&& ~~~15 = interruptStackEnd start) :
    (∀ mem,
      Kept (syscallEntry flags c (interruptStackEnd start) ret) (interruptStackEnd start) mem →
      (SyscallCtx.current mem (interruptStackEnd start) = SyscallCtx.ofUser c ↔
        SyscallUniform c (interruptStackEnd start)) ∧
      ∀ regs l4 d,
        Dispatches d ⟨(SyscallCtx.current mem (interruptStackEnd start)).saveState regs, l4⟩ →
        ((userControl (d.execAll flags dispatch) = userControl c ∧
          userPreserved (d.execAll flags dispatch) = userPreserved c) ↔
        SyscallUniform c (interruptStackEnd start))) ∧
    (∀ mem, Kept (irqEntry flags c (interruptStackEnd start) ret) (interruptStackEnd start) mem →
      (IrqCtx.current mem (interruptStackEnd start) = IrqCtx.ofUser c ↔ IrqUniform c ret) ∧
      ∀ regs l4 d,
        Dispatches d ⟨(IrqCtx.current mem (interruptStackEnd start)).saveState regs, l4⟩ →
        ((userControl (d.execAll flags dispatch) = userControl c ∧
          userPreserved (d.execAll flags dispatch) = userPreserved c ∧
          userScratch (d.execAll flags dispatch) = userScratch c) ↔
        IrqUniform c ret)) := by
  have hroom := interruptStackEnd_room hstart
  refine ⟨fun mem hkept => ?_, fun mem hkept => ?_⟩
  · have hiff := SyscallCtx.current_iff halign hroom hkept
    refine ⟨hiff, fun regs l4 d hd => ?_⟩
    have hres := dispatch_loads flags hd
    rw [hres.control, hres.preserved, ← hiff]
    simp only [SyscallCtx.saveState, SyscallCtx.ofUser]
    exact ⟨fun h => SyscallCtx.ext h.1 h.2, fun h => by rw [h]; exact ⟨rfl, rfl⟩⟩
  · have hiff := IrqCtx.current_iff halign hroom hkept
    refine ⟨hiff, fun regs l4 d hd => ?_⟩
    have hres := dispatch_loads flags hd
    rw [hres.control, hres.preserved, hres.scratch, ← hiff]
    simp only [IrqCtx.saveState, IrqCtx.ofUser]
    exact ⟨fun h => IrqCtx.ext h.1 h.2.1 h.2.2, fun h => by rw [h]; exact ⟨rfl, rfl, rfl⟩⟩

/-- A processor with every register 0, RBX apart. -/
def cpuWithRbx (w : BitVec 64) : Cpu where
  reg := fun r => if r = .rbx then w else 0
  rsp := 0
  rip := 0
  rflags := 0
  cs := 0
  ss := 0
  seg := fun _ => 0
  cr3 := 0
  mem := fun _ => 0

/-- All registers 0: the syscall context is the user's. -/
theorem trapped_registers_recovered_zero :
    SyscallCtx.current
      (syscallEntry (fun _ _ => 0) (cpuWithRbx 0) (interruptStackEnd 0x10000) 0).mem
      (interruptStackEnd 0x10000) = SyscallCtx.ofUser (cpuWithRbx 0) := by
  refine (((trapped_registers_recovered (fun _ _ => 0) (cpuWithRbx 0) 0x10000 0 (by decide)
    (by decide)).1 _ fun _ _ _ => rfl).1).mpr ?_
  exact ⟨by decide, by decide, by decide, by decide, by decide, by decide⟩

/-- **A syscall made with RBX = 1 and RBP = 0 is resumed with RBX = 0 and RBP = 1.** -/
theorem syscall_shifts_rbx :
    (SyscallCtx.current
      (syscallEntry (fun _ _ => 0) (cpuWithRbx 1) (interruptStackEnd 0x10000) 0).mem
      (interruptStackEnd 0x10000)).preservedRegs = ⟨0, 1, 0, 0, 0, 0⟩ ∧
    SyscallCtx.current
      (syscallEntry (fun _ _ => 0) (cpuWithRbx 1) (interruptStackEnd 0x10000) 0).mem
      (interruptStackEnd 0x10000) ≠ SyscallCtx.ofUser (cpuWithRbx 1) := by
  have hkept : Kept (syscallEntry (fun _ _ => 0) (cpuWithRbx 1) (interruptStackEnd 0x10000) 0)
      (interruptStackEnd 0x10000) _ := fun _ _ _ => rfl
  rw [SyscallCtx.current_reads (by decide) (by decide) hkept]
  decide

end Harmony
