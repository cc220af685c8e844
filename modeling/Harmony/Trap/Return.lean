import Harmony.Lib.Run
import Harmony.Lib.Stack
import Harmony.Trap

/-!
# The way back from a trap

The other half of the entry stubs (`interrupts/handlers.rs`): the pops and the `iretq` of
`interrupt!` and of `syscall_interrupt`, and around them `raw_syscall` (`kapi/src/raw.rs`). What a
handler does is not modelled here, only what a compiled function keeps to: it returns with the stack
where it was and the preserved registers as they were, and writes where it may.

For the way back through the stubs the stack need not end on a 16-byte boundary: the processor
aligns it, and the stubs undo what is there.

* **`interrupts_unseen`**: user code that is interrupted any number of times, at any points, does
  what it does without.
* **`raw_syscall_returns`**: the caller of `raw_syscall` gets its stack and preserved registers
  back, whether `handle` returns or the thread is suspended and dispatched later. For the second the
  interrupt stack has to end on a 16-byte boundary, which its type `[u8; 4096]` does not ask for.
  `SyscallCtx::current` reads the preserved registers one word off, and this does not show here:
  `raw_syscall` has saved them on the user stack itself.
-/

namespace Harmony

open Lib Lib.X86 Lib.X86.Cpu

/-! ## The code -/

/-- `pop_scratch!`. -/
def popScratch : List Reg := [.rax, .rcx, .rdx, .rsi, .rdi, .r8, .r9, .r10, .r11]

/-- `pop_preserved!`. -/
def popPreserved : List Reg := [.rbx, .rbp, .r12, .r13, .r14, .r15]

/-- `interrupt!`, from where its handler returns to. -/
def interruptReturn : List Instr := popScratch.map .pop ++ popPreserved.map .pop ++ [.iretq]

/-- `syscall_interrupt`, from where its handler returns to. -/
def syscallReturn : List Instr := [.addRsp 8] ++ popPreserved.map .pop ++ [.iretq]

/-- The registers `raw_syscall` pushes. -/
def rawPush : List Reg := [.rbx, .rbp, .r12, .r13, .r14, .r15]

/-- The registers `raw_syscall` pops. -/
def rawPop : List Reg := [.r15, .r14, .r13, .r12, .rbp, .rbx]

/-- `raw_syscall` up to its `int 0x80`; `next` is the address after it. -/
def rawSyscallEntry (flags : BitVec 64 → BitVec 64 → BitVec 64) (c : Cpu) (next : BitVec 64) :
    Cpu :=
  { c.execAll flags (rawPush.map .push) with rip := next }

/-- `raw_syscall` after its `int 0x80`. -/
def rawSyscallReturn (flags : BitVec 64 → BitVec 64 → BitVec 64) (c : Cpu) : Cpu :=
  (c.execAll flags (rawPop.map .pop)).ret

/-! ## The frame of a trap -/

section Frame

variable {flags : BitVec 64 → BitVec 64 → BitVec 64} {c : Cpu} {stackEnd ret : BitVec 64}

/-- Where the processor starts to push. -/
def aligned (stackEnd : BitVec 64) : BitVec 64 := stackEnd &&& ~~~15

theorem aligned_aligned (stackEnd : BitVec 64) :
    aligned stackEnd &&& ~~~15 = aligned stackEnd := by
  unfold aligned
  rw [BitVec.and_assoc, BitVec.and_self]

theorem trap_aligned (c : Cpu) (stackEnd : BitVec 64) :
    c.trap stackEnd = c.trap (aligned stackEnd) := by
  unfold Cpu.trap
  rw [aligned_aligned]
  rfl

theorem aligned_le (stackEnd : BitVec 64) : (aligned stackEnd).toNat ≤ stackEnd.toNat := by
  unfold aligned
  rw [BitVec.toNat_and]
  exact Nat.and_le_left

theorem aligned_add (stackEnd : BitVec 64) : aligned stackEnd + (stackEnd &&& 15) = stackEnd := by
  unfold aligned
  rw [BitVec.add_eq_or_of_and_eq_zero, ← BitVec.and_or_distrib_left]
  · rw [show (~~~15 ||| 15 : BitVec 64) = BitVec.allOnes 64 by decide, BitVec.and_allOnes]
  · rw [BitVec.and_comm stackEnd 15, BitVec.and_assoc, ← BitVec.and_assoc (~~~15)]
    rw [show (~~~15 &&& 15 : BitVec 64) = 0#64 by decide, BitVec.zero_and, BitVec.and_zero]

/-- What the processor leaves out to align the stack. -/
theorem aligned_toNat (stackEnd : BitVec 64) :
    stackEnd.toNat = (aligned stackEnd).toNat + (stackEnd &&& 15).toNat := by
  have hadd := congrArg BitVec.toNat (aligned_add stackEnd)
  have hle := aligned_le stackEnd
  have hlow : (stackEnd &&& 15).toNat ≤ 15 := by
    rw [BitVec.toNat_and]
    exact Nat.and_le_right
  have hlt := (aligned stackEnd).isLt
  rw [BitVec.toNat_add] at hadd
  omega

theorem le_aligned (stackEnd : BitVec 64) : stackEnd.toNat ≤ (aligned stackEnd).toNat + 15 := by
  have hsplit := aligned_toNat stackEnd
  have hlow : (stackEnd &&& 15).toNat ≤ 15 := by
    rw [BitVec.toNat_and]
    exact Nat.and_le_right
  omega

/-- What the processor pushes, from the top. -/
def frameWords (c : Cpu) : List (BitVec 64) :=
  [c.rip, c.cs.setWidth 64, c.rflags, c.rsp, c.ss.setWidth 64]

/-- The frame back in the registers. -/
theorem Holds_iretq {d : Cpu} (h : d.Holds (frameWords c)) :
    d.exec flags .iretq =
      { d with rip := c.rip, cs := c.cs, rflags := c.rflags, rsp := c.rsp, ss := c.ss } := by
  have hwidth : ∀ w : BitVec 16, (w.setWidth 64).setWidth 16 = w := fun w => by
    rw [BitVec.setWidth_setWidth_of_le _ (by decide), BitVec.setWidth_eq]
  rw [Holds.iretq flags h, hwidth, hwidth]

theorem irqEntry_aligned (flags : BitVec 64 → BitVec 64 → BitVec 64) (c : Cpu)
    (stackEnd ret : BitVec 64) :
    irqEntry flags c stackEnd ret =
      ({ c with rsp := aligned stackEnd } : Cpu).pushAll
        (savedWords c ++ pushScratch.map c.reg ++ [ret]) := by
  rw [← irqEntry_eq flags c ret (aligned_aligned stackEnd)]
  unfold irqEntry
  rw [trap_aligned]

/-- The stack when an interrupt's handler starts. -/
theorem irqEntry_holds (flags : BitVec 64 → BitVec 64 → BitVec 64) (c : Cpu) (ret : BitVec 64)
    (hroom : 8 * 21 ≤ (aligned stackEnd).toNat) :
    (irqEntry flags c stackEnd ret).rsp.toNat = (aligned stackEnd).toNat - 8 * 21 ∧
      (irqEntry flags c stackEnd ret).Holds
        (ret :: (popScratch.map c.reg ++ (popPreserved.map c.reg ++ frameWords c))) := by
  have hfit : 8 * (savedWords c ++ pushScratch.map c.reg ++ [ret]).length ≤
      ({ c with rsp := aligned stackEnd } : Cpu).rsp.toNat := hroom
  rw [irqEntry_aligned]
  exact ⟨pushAll_rsp hfit, (Holds.nil _).pushAll hfit⟩

/-- An interrupt's stub leaves the segments, CR3 and memory off its stack alone. -/
theorem irqEntry_frame (flags : BitVec 64 → BitVec 64 → BitVec 64) (c : Cpu) (ret : BitVec 64)
    (hroom : 8 * 21 ≤ (aligned stackEnd).toNat) :
    (irqEntry flags c stackEnd ret).seg = c.seg ∧ (irqEntry flags c stackEnd ret).cr3 = c.cr3 ∧
      ∀ x, x < (aligned stackEnd).toNat - 8 * 21 ∨ (aligned stackEnd).toNat ≤ x →
        (irqEntry flags c stackEnd ret).mem x = c.mem x := by
  rw [irqEntry_aligned]
  generalize hws : savedWords c ++ pushScratch.map c.reg ++ [ret] = ws
  have hlen : ws.length = 21 := by
    rw [← hws]
    rfl
  generalize hd : ({ c with rsp := aligned stackEnd } : Cpu) = d
  have hrsp : d.rsp = aligned stackEnd := by rw [← hd]
  have hsame := pushAll_eq d ws
  refine ⟨?_, ?_, fun x hx => ?_⟩
  · rw [hsame, ← hd]
  · rw [hsame, ← hd]
  · rw [pushAll_mem (by rw [hlen, hrsp]; exact hroom) (by rw [hlen, hrsp]; exact hx), ← hd]

theorem syscallEntry_aligned (flags : BitVec 64 → BitVec 64 → BitVec 64) (c : Cpu)
    (stackEnd ret : BitVec 64) :
    syscallEntry flags c stackEnd ret = syscallEntry flags c (aligned stackEnd) ret := by
  unfold syscallEntry
  rw [trap_aligned]

/-- The stack when the syscall handler starts. -/
theorem syscallEntry_holds (flags : BitVec 64 → BitVec 64 → BitVec 64) (c : Cpu) (ret : BitVec 64)
    (hroom : 8 * 21 ≤ (aligned stackEnd).toNat) :
    (syscallEntry flags c stackEnd ret).rsp.toNat = (aligned stackEnd).toNat - 8 * 13 ∧
      ∃ skipped, (syscallEntry flags c stackEnd ret).Holds
        (ret :: skipped :: (popPreserved.map c.reg ++ frameWords c)) := by
  have hstack := syscallEntry_stack flags c ret (aligned_aligned stackEnd) hroom
  obtain ⟨rflags, heq⟩ := syscallEntry_eq flags c ret (aligned_aligned stackEnd)
  rw [syscallEntry_aligned]
  refine ⟨hstack.1, ?_⟩
  rw [heq]
  have hfit : 8 * (savedWords c).length ≤ ({ c with rsp := aligned stackEnd } : Cpu).rsp.toNat :=
    Nat.le_trans (show 8 * 11 ≤ 8 * 21 by decide) hroom
  have hsaved := (Holds.nil { c with rsp := aligned stackEnd }).pushAll hfit
  have hrsp : (({ c with rsp := aligned stackEnd } : Cpu).pushAll (savedWords c)).rsp.toNat =
      (aligned stackEnd).toNat - 8 * 11 := pushAll_rsp hfit
  generalize ({ c with rsp := aligned stackEnd } : Cpu).pushAll (savedWords c) = p at hsaved hrsp
  have hskip : ({ p with rsp := p.rsp - 8#64, rflags := rflags } : Cpu).Holds _ :=
    hsaved.skip (by omega) rfl rfl
  have hlow : (p.rsp - 8#64).toNat = p.rsp.toNat - 8 := push_rsp (w := 0) (by omega)
  refine ⟨_, hskip.push ?_ ret⟩
  show 8 ≤ (p.rsp - 8#64).toNat
  omega

/-- The syscall stub leaves memory off its stack alone. -/
theorem syscallEntry_mem (flags : BitVec 64 → BitVec 64 → BitVec 64) (c : Cpu) (ret : BitVec 64)
    (hroom : 8 * 21 ≤ (aligned stackEnd).toNat) {x : Nat}
    (hx : x < (aligned stackEnd).toNat - 8 * 13 ∨ (aligned stackEnd).toNat ≤ x) :
    (syscallEntry flags c stackEnd ret).mem x = c.mem x := by
  obtain ⟨rflags, heq⟩ := syscallEntry_eq flags c ret (aligned_aligned stackEnd)
  rw [syscallEntry_aligned, heq]
  have hlen : (savedWords c).length = 11 := rfl
  generalize hd : ({ c with rsp := aligned stackEnd } : Cpu) = d
  have hrsp : d.rsp = aligned stackEnd := by rw [← hd]
  have hfit : 8 * (savedWords c).length ≤ d.rsp.toNat := by
    rw [hlen, hrsp]
    omega
  have hpushed : (d.pushAll (savedWords c)).rsp.toNat = (aligned stackEnd).toNat - 8 * 11 := by
    rw [pushAll_rsp hfit, hlen, hrsp]
  have hmem : (d.pushAll (savedWords c)).mem x = c.mem x := by
    rw [pushAll_mem hfit (by rw [hlen, hrsp]; omega), ← hd]
  generalize d.pushAll (savedWords c) = p at hpushed hmem
  have hskip : (p.rsp - 8#64).toNat = p.rsp.toNat - 8 := push_rsp (w := 0) (by omega)
  rw [push_mem (show 8 ≤ (p.rsp - 8#64).toNat by omega), hskip]
  exact (store_apply_of_not_mem (by omega)).trans hmem

end Frame

/-! ## Interrupts -/

/-- What user code cannot tell apart: the same processor state, and the same memory outside the
page of the interrupt stack. -/
structure Unseen (start : BitVec 64) (c d : Cpu) : Prop where
  same : d = { c with mem := d.mem }
  mem : ∀ x, ¬ (start.toNat ≤ x ∧ x < start.toNat + pageSize) → d.mem x = c.mem x

/-- The part of the interrupt stack that is left to a handler called in `s`. -/
def HandlerStack (start : BitVec 64) (s : Cpu) (x : Nat) : Prop :=
  start.toNat ≤ x ∧ x < s.rsp.toNat + 8

/-- User code is interrupted: the stub, a handler that writes on its part of the stack only, and the
stub again. -/
def Interrupted (flags : BitVec 64 → BitVec 64 → BitVec 64) (start : BitVec 64) (c c' : Cpu) :
    Prop :=
  ∃ ret h, Called popPreserved (HandlerStack start (irqEntry flags c (interruptStackEnd start) ret))
    (irqEntry flags c (interruptStackEnd start) ret) h ∧ c' = h.execAll flags interruptReturn

section Interrupts

variable {flags : BitVec 64 → BitVec 64 → BitVec 64} {start : BitVec 64} {c c' d : Cpu}

theorem Unseen.refl (c : Cpu) : Unseen start c c := ⟨rfl, fun _ _ => rfl⟩

theorem Unseen.symm (h : Unseen start c d) : Unseen start d c := by
  refine ⟨?_, fun x hx => (h.mem x hx).symm⟩
  rw [h.same]

theorem Unseen.trans (h : Unseen start c c') (h' : Unseen start c' d) : Unseen start c d := by
  refine ⟨?_, fun x hx => (h'.mem x hx).trans (h.mem x hx)⟩
  rw [h'.same, h.same]

/-- **An interrupt is not seen.** -/
theorem Interrupted.unseen (hstart : start.toNat + pageSize < 2 ^ 64)
    (h : Interrupted flags start c c') : Unseen start c c' := by
  obtain ⟨ret, h, hcalled, rfl⟩ := h
  have hend : (interruptStackEnd start).toNat = start.toNat + pageSize := by
    unfold interruptStackEnd
    rw [BitVec.toNat_add]
    exact Nat.mod_eq_of_lt hstart
  have hle := aligned_le (interruptStackEnd start)
  have hge := le_aligned (interruptStackEnd start)
  have hpage : pageSize = 4096 := rfl
  have hroom : 8 * 21 ≤ (aligned (interruptStackEnd start)).toNat := by omega
  obtain ⟨hrsp, hholds⟩ := irqEntry_holds flags c ret hroom
  -- down the stack: the scratch registers, the preserved ones, the frame
  have hh := hcalled.holds hholds fun x hx _ hwrites => by
    unfold HandlerStack at hwrites
    omega
  unfold interruptReturn
  rw [execAll_append, execAll_append]
  obtain ⟨reg₁, rsp₁, heq₁, _, hscratch, hkept, hholds₁⟩ := hh.pops flags popScratch c.reg
    (by decide)
  rw [heq₁]
  obtain ⟨reg₂, rsp₂, heq₂, _, hpreserved, hkept₂, hholds₂⟩ := hholds₁.pops flags
    popPreserved c.reg (by decide)
  rw [heq₂, execAll_cons, Holds_iretq hholds₂]
  have hreg : reg₂ = c.reg := by
    funext r
    by_cases hr : r ∈ popPreserved
    · exact hpreserved r hr
    · exact (hkept₂ r hr).trans (hscratch r (by revert hr; cases r <;> decide))
  obtain ⟨hseg, hcr3, hmem⟩ := irqEntry_frame flags c ret hroom
  refine ⟨?_, fun x hx => ?_⟩
  · simp only [execAll, List.foldl_nil, hreg, hcalled.seg.trans hseg, hcalled.cr3.trans hcr3]
  · have hoff : ¬ HandlerStack start (irqEntry flags c (interruptStackEnd start) ret) x := by
      unfold HandlerStack
      omega
    exact (hcalled.mem x hoff).trans (hmem x (by omega))

/-- A step of user code, or an interrupt. -/
inductive Interruptible {ι : Type} (flags : BitVec 64 → BitVec 64 → BitVec 64) (start : BitVec 64)
    (user : Cpu → ι → Cpu → Prop) : Cpu → Option ι → Cpu → Prop
  | user {c c' : Cpu} {i : ι} (h : user c i c') : Interruptible flags start user c (some i) c'
  | interrupt {c c' : Cpu} (h : Interrupted flags start c c') :
      Interruptible flags start user c none c'

/-- User code does not see the interrupt stack: what it does in one state it does in every state
that only differs there. -/
def Blind {ι : Type} (start : BitVec 64) (user : Cpu → ι → Cpu → Prop) : Prop :=
  ∀ c i c' d, Unseen start c d → user c i c' → ∃ d', user d i d' ∧ Unseen start c' d'

/-- **Interrupts are not seen.** User code that is interrupted at any points of its run, any number
of times, does what it does without interrupts, and ends in the same state but for the interrupt
stack. -/
theorem interrupts_unseen {ι : Type} {user : Cpu → ι → Cpu → Prop} {ls : List (Option ι)}
    (hstart : start.toNat + pageSize < 2 ^ 64) (hblind : Blind start user)
    (hrun : Run (Interruptible flags start user) c ls c') :
    ∃ d, Run user c (ls.filterMap id) d ∧ Unseen start c' d := by
  refine hrun.simulates ?_ ?_ (Unseen.refl c)
  · intro s l t a hsa hstep hl
    cases hstep with
    | user _ => cases hl
    | interrupt hint => exact (hint.unseen hstart).symm.trans hsa
  · intro s l t a e hsa hstep hl
    cases hstep with
    | interrupt _ => cases hl
    | user hu =>
      obtain rfl := Option.some.inj hl
      exact hblind s _ t a hsa hu

end Interrupts

/-- A handler that returns at once, with `value` in RAX. -/
def Cpu.returning (s : Cpu) (value : BitVec 64) : Cpu :=
  { s.setReg .rax value with rsp := s.rsp + 8 }

theorem Cpu.returning_rax (s : Cpu) (value : BitVec 64) :
    (Cpu.returning s value).reg .rax = value := by
  show (if Reg.rax = Reg.rax then value else s.reg .rax) = value
  exact if_pos rfl

theorem Cpu.returning_mem (s : Cpu) (value : BitVec 64) : (Cpu.returning s value).mem = s.mem := rfl

theorem Cpu.called_returning (writes : Nat → Prop) (s : Cpu) (value : BitVec 64) :
    Called popPreserved writes s (Cpu.returning s value) :=
  ⟨rfl, by intro r hr; exact if_neg (by rintro rfl; exact absurd hr (by decide)), rfl, rfl,
    fun _ _ => rfl⟩

/-- All registers zero, with the stack pointer at `0x8000`. -/
def quietCpu : Cpu where
  reg _ := 0
  rsp := 0x8000
  rip := 0x1000
  rflags := 0x202
  cs := 0x1b
  ss := 0x23
  seg _ := 0x23
  cr3 := 0x3000
  mem _ := 0

/-- User code that counts in RAX. -/
def counts (c : Cpu) (_ : Unit) (c' : Cpu) : Prop := c' = c.setReg .rax (c.reg .rax + 1)

theorem counts_blind (start : BitVec 64) : Blind start counts := by
  rintro c i c' d ⟨hsame, hmem⟩ rfl
  refine ⟨_, rfl, ?_, hmem⟩
  rw [hsame]
  rfl

theorem interrupts_unseen_counting : ∃ c' d,
    Run (Interruptible (fun _ _ => 0) 0x2000 counts) quietCpu [some (), none, some ()] c' ∧
    Run counts quietCpu [(), ()] d ∧ Unseen 0x2000 c' d := by
  have hint : ∀ c, Interrupted (fun _ _ => 0) 0x2000 c _ := fun c =>
    ⟨0x99, _, Cpu.called_returning _ _ 7, rfl⟩
  have hrun :
    Run (Interruptible (fun _ _ => 0) 0x2000 counts) quietCpu [some (), none, some ()] _ :=
    .cons (.user rfl) (.cons (.interrupt (hint _)) (.cons (.user rfl) (.nil _)))
  obtain ⟨d, hd, hunseen⟩ := interrupts_unseen (by decide) (counts_blind _) hrun
  exact ⟨_, d, hrun, hd, hunseen⟩

/-! ## System calls -/

/-- How a system call comes back. -/
inductive WayBack where
  | returned
  | dispatched

/-- The processor is back in user mode after a system call made in `u`, with `value` in RAX. -/
inductive Resumed (flags : BitVec 64 → BitVec 64 → BitVec 64) (stackEnd ret : BitVec 64) (u : Cpu) :
    WayBack → BitVec 64 → Cpu → Prop
  /-- `handle` has returned `value`, and has kept what the stub saved. -/
  | returned {writes : Nat → Prop} {h : Cpu}
      (hcalled : Called popPreserved writes (syscallEntry flags u stackEnd ret) h)
      (hkeeps : ∀ x, (syscallEntry flags u stackEnd ret).rsp.toNat + 8 ≤ x →
        x < (aligned stackEnd).toNat → ¬ writes x) :
      Resumed flags stackEnd ret u .returned (h.reg .rax) (h.execAll flags syscallReturn)
  /-- `handle` has switched to another thread, which saved the registers over `old`, and the thread
  is dispatched with them later. -/
  | dispatched {mem : Mem} {old : Regs} {x : ExecCtx} {d : Cpu}
      (hkept : Kept (syscallEntry flags u stackEnd ret) stackEnd mem)
      (hsaved : x.regs = (SyscallCtx.current mem stackEnd).saveState old) (hd : Dispatches d x) :
      Resumed flags stackEnd ret u .dispatched old.scratch.rax (d.execAll flags dispatch)

section Syscalls

variable {flags : BitVec 64 → BitVec 64 → BitVec 64} {stackEnd ret next value : BitVec 64}
  {c u r : Cpu} {way : WayBack}

/-- `syscall_interrupt` returns with the frame of the trap, the preserved registers and what the
handler left in the others. -/
theorem syscallReturn_eq {writes : Nat → Prop} {h : Cpu}
    (hroom : 8 * 21 ≤ (aligned stackEnd).toNat)
    (hcalled : Called popPreserved writes (syscallEntry flags u stackEnd ret) h)
    (hkeeps : ∀ x, (syscallEntry flags u stackEnd ret).rsp.toNat + 8 ≤ x →
      x < (aligned stackEnd).toNat → ¬ writes x) :
    ∃ reg, h.execAll flags syscallReturn = { h with
        reg := reg, rip := u.rip, cs := u.cs, rflags := u.rflags, rsp := u.rsp, ss := u.ss } ∧
      (∀ g ∈ popPreserved, reg g = u.reg g) ∧ ∀ g, g ∉ popPreserved → reg g = h.reg g := by
  obtain ⟨hrsp, skipped, hholds⟩ := syscallEntry_holds flags u ret hroom
  have hh := hcalled.holds hholds fun x hx hlt => by
    refine hkeeps x hx ?_
    simp only [List.length_cons, List.length_append, List.length_map, popPreserved, frameWords,
      List.length_nil] at hlt
    omega
  have hadd : (h.exec flags (.addRsp 8)).Holds (popPreserved.map u.reg ++ frameWords u) :=
    hh.tail rfl rfl
  unfold syscallReturn
  rw [execAll_append, execAll_append]
  obtain ⟨reg, rsp, heq, _, hvalues, hothers, hframe⟩ :=
    hadd.pops flags popPreserved u.reg (by decide)
  refine ⟨reg, ?_, hvalues, hothers⟩
  show Cpu.execAll flags ((h.exec flags (.addRsp 8)).execAll flags _) [.iretq] = _
  rw [heq, execAll_cons, Holds_iretq hframe]
  rfl

/-- Whichever way it comes back, user code goes on where it was. `SyscallCtx::current` looks for the
frame where the stack ends, so there it has to end where the processor starts to push. -/
theorem Resumed.control (halign : way = .dispatched → stackEnd &&& ~~~15 = stackEnd)
    (hroom : 8 * 21 ≤ (aligned stackEnd).toNat) (h : Resumed flags stackEnd ret u way value r) :
    r.rsp = u.rsp ∧ r.rip = u.rip ∧ r.reg .rax = value := by
  cases h with
  | returned hcalled hkeeps =>
    obtain ⟨reg, heq, _, hothers⟩ := syscallReturn_eq hroom hcalled hkeeps
    rw [heq]
    exact ⟨rfl, rfl, hothers .rax (by decide)⟩
  | @dispatched mem old x d hkept hsaved hd =>
    have hend := halign rfl
    have hloads := dispatch_loads flags hd
    have hreads := SyscallCtx.current_reads hend (by rwa [aligned, hend] at hroom) hkept
    have hcontrol := hloads.control
    have hscratch := hloads.scratch
    rw [hsaved, hreads] at hcontrol hscratch
    exact ⟨congrArg ControlRegs.rsp hcontrol, congrArg ControlRegs.rip hcontrol,
      congrArg ScratchRegs.rax hscratch⟩

/-- **A stack that ends 8 bytes off.** The context is read one word too high: the thread is
dispatched with its selectors for RIP and RSP. -/
theorem Resumed.control_off (hoff : stackEnd &&& 15 = 8)
    (hroom : 8 * 21 ≤ (aligned stackEnd).toNat)
    (h : Resumed flags stackEnd ret u .dispatched value r) :
    r.rip = u.cs.setWidth 64 ∧ r.rsp = u.ss.setWidth 64 := by
  cases h with
  | @dispatched mem old x d hkept hsaved hd =>
    have hend : stackEnd.toNat = (aligned stackEnd).toNat + 8 := by
      rw [aligned_toNat stackEnd, hoff]
      rfl
    obtain ⟨hrsp, hwords, _⟩ :=
      syscallEntry_stack flags u ret (aligned_aligned stackEnd) hroom
    rw [← syscallEntry_aligned] at hrsp hwords
    have hread : ∀ k w, (savedWords u)[k]? = some w → below mem stackEnd (k + 2) = w := by
      intro k w hk
      have hk11 : k < 11 := (List.getElem?_eq_some_iff.mp hk).1
      rw [hkept.below (by omega) (by omega) (by omega), ← hwords k w hk]
      unfold below
      congr 1
      omega
    have hcontrol := (dispatch_loads flags hd).control
    rw [hsaved] at hcontrol
    exact ⟨(congrArg ControlRegs.rip hcontrol).trans (hread 3 _ rfl),
      (congrArg ControlRegs.rsp hcontrol).trans (hread 0 _ rfl)⟩

/-- What `raw_syscall` has on the user stack when it enters the kernel. -/
theorem rawSyscallEntry_holds (flags : BitVec 64 → BitVec 64 → BitVec 64) (next : BitVec 64)
    (hroom : 8 * 6 ≤ c.rsp.toNat) (hfits : c.rsp.toNat + 8 < 2 ^ 64) :
    (rawSyscallEntry flags c next).rsp.toNat = c.rsp.toNat - 8 * 6 ∧
      (rawSyscallEntry flags c next).Holds (rawPop.map c.reg ++ [c.top]) := by
  have hcaller : c.Holds [c.top] := by
    refine ⟨hfits, fun k w hk => ?_⟩
    have hlt : k < 1 := (List.getElem?_eq_some_iff.mp hk).1
    obtain rfl : k = 0 := by omega
    exact Option.some.inj hk
  have hroom' : 8 * (rawPush.map c.reg).length ≤ c.rsp.toNat := hroom
  unfold rawSyscallEntry
  rw [exec_pushes]
  exact ⟨pushAll_rsp hroom', (hcaller.pushAll hroom').congr rfl fun _ _ _ => rfl⟩

/-- **`raw_syscall` returns to its caller**, with the caller's stack and preserved registers and the
answer in RAX, when `handle` returned; and when the thread was suspended by its call and dispatched
later, if the interrupt stack ends on a 16-byte boundary. If it ends 8 bytes off, the thread is
dispatched with its selectors for RIP and RSP. -/
theorem raw_syscall_returns (hroom : 8 * 21 ≤ (aligned stackEnd).toNat)
    (hstack : 8 * 6 ≤ c.rsp.toNat) (hfits : c.rsp.toNat + 8 < 2 ^ 64)
    (h : Resumed flags stackEnd ret (rawSyscallEntry flags c next) way value r)
    (hmem : ∀ x, c.rsp.toNat - 8 * 6 ≤ x → x < c.rsp.toNat + 8 →
      r.mem x = (rawSyscallEntry flags c next).mem x) :
    ((way = .dispatched → stackEnd &&& ~~~15 = stackEnd) →
      r.rip = next ∧ (rawSyscallReturn flags r).rip = c.top ∧
        (rawSyscallReturn flags r).rsp = c.rsp + 8 ∧
        (rawSyscallReturn flags r).reg .rax = value ∧
        ∀ g ∈ rawPush, (rawSyscallReturn flags r).reg g = c.reg g) ∧
    (way = .dispatched → stackEnd &&& 15 = 8 →
      r.rip = c.cs.setWidth 64 ∧ r.rsp = c.ss.setWidth 64) := by
  constructor
  · intro halign
    obtain ⟨hrsp, hrip, hrax⟩ := h.control halign hroom
    obtain ⟨hentry, hholds⟩ := rawSyscallEntry_holds flags next hstack hfits
    have hr : r.Holds (rawPop.map c.reg ++ [c.top]) := by
      refine hholds.congr hrsp fun x hx hlt => hmem x (by omega) ?_
      simp only [List.length_append, List.length_map, rawPop, List.length_cons,
        List.length_nil] at hlt
      omega
    obtain ⟨reg, rsp, heq, hpopped, hvalues, hothers, hlast⟩ :=
      hr.pops flags rawPop c.reg (by decide)
    have hrsp' : rsp = c.rsp := by
      refine BitVec.eq_of_toNat_eq ?_
      rw [hpopped, hrsp, hentry, show 8 * rawPop.length = 8 * 6 from rfl]
      omega
    unfold rawSyscallReturn
    rw [heq, hlast.ret]
    refine ⟨hrip, rfl, ?_, (hothers .rax (by decide)).trans hrax, fun g hg => hvalues g ?_⟩
    · show rsp + 8 = c.rsp + 8
      rw [hrsp']
    · revert hg
      cases g <;> decide
  · rintro rfl hoff
    have hentry := pushAll_eq c (rawPush.map c.reg)
    have hoffset := h.control_off hoff hroom
    unfold rawSyscallEntry at hoffset
    rw [exec_pushes, hentry] at hoffset
    exact hoffset

/-- `handle` answers at once. -/
theorem Resumed.answered (flags : BitVec 64 → BitVec 64 → BitVec 64) (u : Cpu)
    (stackEnd ret value : BitVec 64) : Resumed flags stackEnd ret u .returned value
      ((Cpu.returning (syscallEntry flags u stackEnd ret) value).execAll flags syscallReturn) := by
  have h := Resumed.returned
    (Cpu.called_returning (fun _ => False) (syscallEntry flags u stackEnd ret) value)
    fun _ _ _ h => h
  rwa [Cpu.returning_rax] at h

/-- A call that is answered at once writes on the interrupt stack only. -/
theorem syscallReturn_mem (flags : BitVec 64 → BitVec 64 → BitVec 64) (u : Cpu)
    (stackEnd ret value : BitVec 64) (hroom : 8 * 21 ≤ (aligned stackEnd).toNat) {x : Nat}
    (hx : (aligned stackEnd).toNat ≤ x) :
    ((Cpu.returning (syscallEntry flags u stackEnd ret) value).execAll flags syscallReturn).mem x =
      u.mem x := by
  have hcalled := Cpu.called_returning (fun _ => False) (syscallEntry flags u stackEnd ret) value
  have hmem := Cpu.returning_mem (syscallEntry flags u stackEnd ret) value
  generalize Cpu.returning (syscallEntry flags u stackEnd ret) value = h at hcalled hmem ⊢
  obtain ⟨reg, heq, _⟩ := syscallReturn_eq hroom hcalled fun _ _ _ h => h
  rw [heq]
  exact (congrFun hmem x).trans (syscallEntry_mem flags u ret hroom (.inr hx))

end Syscalls

/-- A call that `handle` answers with 5. -/
theorem raw_syscall_returns_five : ∃ r : Cpu,
    Resumed (fun _ _ => 0) 0x3008 0x99 (rawSyscallEntry (fun _ _ => 0) quietCpu 0x1234)
      .returned 5 r ∧
    (rawSyscallReturn (fun _ _ => 0) r).rsp = 0x8008 ∧
    (rawSyscallReturn (fun _ _ => 0) r).reg .rax = 5 := by
  have haligned : (aligned 0x3008).toNat = 0x3000 := by decide
  have hrsp : quietCpu.rsp.toNat = 0x8000 := by decide
  have hlast : quietCpu.rsp + 8 = 0x8008 := by decide
  generalize quietCpu = c at hrsp hlast ⊢
  have hresumed := Resumed.answered (fun _ _ => 0) (rawSyscallEntry (fun _ _ => 0) c 0x1234)
    0x3008 0x99 5
  have hmem : ∀ x, c.rsp.toNat - 8 * 6 ≤ x → x < c.rsp.toNat + 8 → _ = _ := fun x hge _ =>
    syscallReturn_mem (fun _ _ => 0) (rawSyscallEntry (fun _ _ => 0) c 0x1234) 0x3008 0x99 5
      (by rw [haligned]; decide) (x := x) (by rw [haligned]; omega)
  obtain ⟨_, _, hback, hrax, _⟩ := (raw_syscall_returns (by rw [haligned]; decide) (by omega)
    (by omega) hresumed hmem).1 WayBack.noConfusion
  exact ⟨_, hresumed, hback.trans hlast, hrax⟩

end Harmony
