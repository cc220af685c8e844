import Harmony.Lib.Bytes

/-!
# A small x86-64

The instructions that save, load and switch register files: pushes and pops, loads, stack
adjustment, `call`, control-register and segment moves, and `iretq`. Memory is byte-addressed;
addresses and words are 64 bits.

The value arithmetic leaves in RFLAGS is a parameter `flags`: nothing here reads it.

* `trap`: what the processor does when user code enters the kernel.
* `pushAll_load`: after a list of words is pushed, word `k` of it is `8 * (k + 1)` below where the
  stack pointer was; `pushAll_load_above`, `pushAll_load_below`: everything else is as before.
* `exec_pushes`: a list of register pushes pushes the registers' values.
* `exec_loads`: a list of loads off one base register loads the words it names.
-/

namespace Harmony.Lib.X86

/-- The general registers, RSP apart. -/
inductive Reg where
  | rax | rcx | rdx | rsi | rdi | r8 | r9 | r10 | r11
  | rbx | rbp | r12 | r13 | r14 | r15
  deriving DecidableEq, Repr

/-- The data segment registers. -/
inductive Seg where
  | ds | es | fs | gs
  deriving DecidableEq, Repr

structure Cpu where
  reg : Reg → BitVec 64
  rsp : BitVec 64
  rip : BitVec 64
  rflags : BitVec 64
  cs : BitVec 16
  ss : BitVec 16
  seg : Seg → BitVec 16
  cr3 : BitVec 64
  mem : Mem

inductive Instr where
  | push (r : Reg)
  | pushImm (w : BitVec 64)
  /-- `push [base + off]`. -/
  | pushMem (base : Reg) (off : Nat)
  | pop (r : Reg)
  /-- `sub rsp, n`. -/
  | subRsp (n : Nat)
  /-- `add rsp, n`. -/
  | addRsp (n : Nat)
  /-- `mov dst, [base + off]`. -/
  | load (dst base : Reg) (off : Nat)
  /-- `mov dst, imm` to the low 16 bits of `dst`. -/
  | movImm16 (dst : Reg) (w : BitVec 16)
  /-- `mov seg, src` from the low 16 bits of `src`. -/
  | movSeg (seg : Seg) (src : Reg)
  | movFromCr3 (dst : Reg)
  | movToCr3 (src : Reg)
  | cmp (a b : Reg)
  /-- `call` of a routine that is to return to `ret`. -/
  | call (ret : BitVec 64)
  | iretq

namespace Cpu

def setReg (c : Cpu) (r : Reg) (w : BitVec 64) : Cpu :=
  { c with reg := fun r' => if r' = r then w else c.reg r' }

/-- Push a word. -/
def push (c : Cpu) (w : BitVec 64) : Cpu :=
  { c with rsp := c.rsp - 8, mem := store64 c.mem (c.rsp - 8).toNat w }

/-- The word at the top of the stack. -/
def top (c : Cpu) : BitVec 64 := load64 c.mem c.rsp.toNat

def pushAll (c : Cpu) (ws : List (BitVec 64)) : Cpu := ws.foldl push c

/-- The word at `[base + off]`. -/
def loadAt (c : Cpu) (base : Reg) (off : Nat) : BitVec 64 :=
  load64 c.mem (c.reg base + BitVec.ofNat 64 off).toNat

/-- Word `k` from the top of the stack. -/
def peek (c : Cpu) (k : Nat) : BitVec 64 :=
  load64 c.mem (c.rsp + BitVec.ofNat 64 (8 * k)).toNat

/-- One instruction. -/
def exec (flags : BitVec 64 → BitVec 64 → BitVec 64) (c : Cpu) : Instr → Cpu
  | .push r => c.push (c.reg r)
  | .pushImm w => c.push w
  | .pushMem base off => c.push (c.loadAt base off)
  | .pop r => { c.setReg r c.top with rsp := c.rsp + 8 }
  | .subRsp n => { c with
      rsp := c.rsp - BitVec.ofNat 64 n, rflags := flags c.rsp (BitVec.ofNat 64 n) }
  | .addRsp n => { c with
      rsp := c.rsp + BitVec.ofNat 64 n, rflags := flags c.rsp (BitVec.ofNat 64 n) }
  | .load dst base off => c.setReg dst (c.loadAt base off)
  | .movImm16 dst w => c.setReg dst ((c.reg dst).extractLsb' 16 48 ++ w)
  | .movSeg seg src =>
    { c with seg := fun s => if s = seg then (c.reg src).setWidth 16 else c.seg s }
  | .movFromCr3 dst => c.setReg dst c.cr3
  | .movToCr3 src => { c with cr3 := c.reg src }
  | .cmp a b => { c with rflags := flags (c.reg a) (c.reg b) }
  | .call ret => c.push ret
  | .iretq => { c with
      rip := c.peek 0, cs := (c.peek 1).setWidth 16, rflags := c.peek 2, rsp := c.peek 3,
      ss := (c.peek 4).setWidth 16 }

def execAll (flags : BitVec 64 → BitVec 64 → BitVec 64) (c : Cpu) (is : List Instr) : Cpu :=
  is.foldl (exec flags) c

/-- A trap from ring 3: the processor switches to the stack that ends at `stackEnd`, aligns it to
16 bytes and pushes SS, RSP, RFLAGS, CS and RIP. -/
def trap (c : Cpu) (stackEnd : BitVec 64) : Cpu :=
  ({ c with rsp := stackEnd &&& ~~~15 } : Cpu).pushAll
    [c.ss.setWidth 64, c.rsp, c.rflags, c.cs.setWidth 64, c.rip]

/-! ## Pushing a list -/

section Push

variable {c : Cpu} {w : BitVec 64} {ws : List (BitVec 64)}

@[simp] theorem pushAll_nil (c : Cpu) : c.pushAll [] = c := rfl

@[simp] theorem pushAll_cons (c : Cpu) (w : BitVec 64) (ws : List (BitVec 64)) :
    c.pushAll (w :: ws) = (c.push w).pushAll ws := rfl

theorem pushAll_append (c : Cpu) (ws vs : List (BitVec 64)) :
    c.pushAll (ws ++ vs) = (c.pushAll ws).pushAll vs := List.foldl_append

@[simp] theorem pushAll_reg (c : Cpu) (ws : List (BitVec 64)) : (c.pushAll ws).reg = c.reg := by
  induction ws generalizing c with
  | nil => rfl
  | cons w ws ih => exact ih (c.push w)

theorem push_rsp (h : 8 ≤ c.rsp.toNat) : (c.push w).rsp.toNat = c.rsp.toNat - 8 := by
  show (c.rsp - 8#64).toNat = _
  rw [BitVec.toNat_sub_of_le (by simpa [BitVec.le_def] using h)]
  rfl

theorem pushAll_rsp (h : 8 * ws.length ≤ c.rsp.toNat) :
    (c.pushAll ws).rsp.toNat = c.rsp.toNat - 8 * ws.length := by
  induction ws generalizing c with
  | nil => simp
  | cons w ws ih =>
    simp only [List.length_cons] at h ⊢
    have hp := push_rsp (c := c) (w := w) (by omega)
    rw [pushAll_cons, ih (by omega), hp]
    omega

theorem push_mem (h : 8 ≤ c.rsp.toNat) :
    (c.push w).mem = store64 c.mem (c.rsp.toNat - 8) w := by
  show store64 c.mem (c.push w).rsp.toNat w = _
  rw [push_rsp h]

/-- Pushing writes nothing at or above where the stack pointer was. -/
theorem pushAll_load_above {a : Nat} (h : 8 * ws.length ≤ c.rsp.toNat) (ha : c.rsp.toNat ≤ a) :
    load64 (c.pushAll ws).mem a = load64 c.mem a := by
  induction ws generalizing c with
  | nil => rfl
  | cons w ws ih =>
    simp only [List.length_cons] at h
    have hp := push_rsp (c := c) (w := w) (by omega)
    rw [pushAll_cons, ih (by omega) (by omega), push_mem (by omega),
      load64_store64_of_disjoint (by omega)]

/-- Pushing writes nothing below where the stack pointer ends up. -/
theorem pushAll_load_below {a : Nat} (h : 8 * ws.length ≤ c.rsp.toNat)
    (ha : a + 8 ≤ c.rsp.toNat - 8 * ws.length) :
    load64 (c.pushAll ws).mem a = load64 c.mem a := by
  induction ws generalizing c with
  | nil => rfl
  | cons w ws ih =>
    simp only [List.length_cons] at h ha
    have hp := push_rsp (c := c) (w := w) (by omega)
    rw [pushAll_cons, ih (by omega) (by omega), push_mem (by omega),
      load64_store64_of_disjoint (by omega)]

/-- **Where a pushed word is.** -/
theorem pushAll_load {k : Nat} (h : 8 * ws.length ≤ c.rsp.toNat) (hk : ws[k]? = some w) :
    load64 (c.pushAll ws).mem (c.rsp.toNat - 8 * (k + 1)) = w := by
  induction ws generalizing c k with
  | nil => exact absurd hk (by simp)
  | cons v ws ih =>
    simp only [List.length_cons] at h
    have hp := push_rsp (c := c) (w := v) (by omega)
    rw [pushAll_cons]
    cases k with
    | zero =>
      obtain rfl : v = w := by simpa using hk
      rw [pushAll_load_above (by omega) (by omega), push_mem (by omega)]
      exact load64_store64 _ _ _
    | succ k =>
      have hrest := ih (c := c.push v) (k := k) (by omega) (by simpa using hk)
      rw [hp] at hrest
      rw [show c.rsp.toNat - 8 * (k + 1 + 1) = c.rsp.toNat - 8 - 8 * (k + 1) by omega]
      exact hrest

/-- The words pushed last are on top. -/
theorem pushAll_peek {k : Nat} (h : 8 * ws.length ≤ c.rsp.toNat) (hk : k < ws.length)
    (hw : ws[ws.length - 1 - k]? = some w) : (c.pushAll ws).peek k = w := by
  have hlt := c.rsp.isLt
  have hrsp := pushAll_rsp h
  unfold peek
  rw [BitVec.toNat_add, BitVec.toNat_ofNat, Nat.mod_eq_of_lt (show 8 * k < 2 ^ 64 by omega),
    Nat.mod_eq_of_lt (by omega), hrsp]
  have hload := pushAll_load h hw
  rw [show c.rsp.toNat - 8 * (ws.length - 1 - k + 1) = c.rsp.toNat - 8 * ws.length + 8 * k by omega]
    at hload
  exact hload

end Push

/-- Pushing registers pushes their values. -/
theorem exec_pushes (flags : BitVec 64 → BitVec 64 → BitVec 64) (c : Cpu) (rs : List Reg) :
    c.execAll flags (rs.map .push) = c.pushAll (rs.map c.reg) := by
  induction rs generalizing c with
  | nil => rfl
  | cons r rs ih => exact ih (c.push (c.reg r))

/-- Writing another register leaves the words off a base register. -/
theorem loadAt_setReg (c : Cpu) {r base : Reg} (w : BitVec 64) (off : Nat) (h : r ≠ base) :
    (c.setReg r w).loadAt base off = c.loadAt base off := by
  have hb : (c.setReg r w).reg base = c.reg base := if_neg h.symm
  unfold loadAt
  rw [hb]
  rfl

/-- **Loading a register file**: each register listed gets its word, as long as the base register
is not among them and none is listed twice. -/
theorem exec_loads (flags : BitVec 64 → BitVec 64 → BitVec 64) (base : Reg) (c : Cpu)
    (table : List (Reg × Nat)) (hbase : ∀ e ∈ table, e.1 ≠ base)
    (hnodup : (table.map Prod.fst).Nodup) :
    let c' := c.execAll flags (table.map fun e => .load e.1 base e.2)
    c'.mem = c.mem ∧ c'.rsp = c.rsp ∧ (∀ r, r ∉ table.map Prod.fst → c'.reg r = c.reg r) ∧
      ∀ e ∈ table, c'.reg e.1 = c.loadAt base e.2 := by
  induction table generalizing c with
  | nil => exact ⟨rfl, rfl, fun _ _ => rfl, fun e he => absurd he List.not_mem_nil⟩
  | cons p table ih =>
    obtain ⟨hp, hnodup'⟩ := List.nodup_cons.mp hnodup
    have hne : p.1 ≠ base := hbase p List.mem_cons_self
    obtain ⟨hmem, hrsp, hother, hload⟩ := ih (c.setReg p.1 (c.loadAt base p.2))
      (fun e he => hbase e (List.mem_cons_of_mem p he)) hnodup'
    refine ⟨hmem, hrsp, fun r hr => ?_, fun e he => ?_⟩
    · rw [List.map_cons, List.mem_cons, not_or] at hr
      exact (hother r hr.2).trans (if_neg hr.1)
    · rcases List.mem_cons.mp he with rfl | he
      · exact (hother e.1 hp).trans (if_pos rfl)
      · exact (hload e he).trans (loadAt_setReg c (c.loadAt base p.2) e.2 hne)

theorem execAll_cons (flags : BitVec 64 → BitVec 64 → BitVec 64) (c : Cpu) (i : Instr)
    (is : List Instr) : c.execAll flags (i :: is) = (c.exec flags i).execAll flags is := rfl

theorem execAll_append (flags : BitVec 64 → BitVec 64 → BitVec 64) (c : Cpu) (is js : List Instr) :
    c.execAll flags (is ++ js) = (c.execAll flags is).execAll flags js := List.foldl_append

end Cpu

end Harmony.Lib.X86
