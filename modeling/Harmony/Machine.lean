import Harmony.Lib.Bytes
import Harmony.Lib.Wp
import Harmony.Paging.Address
import Harmony.Retype.Entry

/-!
# The machine the kernel runs on

Physical memory, the retype table and CR3, with a record of the calls that matter afterwards. Kernel
code is a program over this state that may panic (`KM`); a panic keeps the state it happened in.

Physical memory is reached through the direct map: the kernel computes `PMO + address` and
dereferences it. `directMap` is that dereference, seen from the other side: a pointer at or above
`PMO` is the physical address it was made from, and a pointer below `PMO` is not in the map.
-/

namespace Harmony

open Lib

/-- What happened in a run: the calls and effects that leave no trace in memory. -/
inductive Event where
  /-- `Addrspace::map_to` was called on the page. -/
  | mapTo (page : Page)
  /-- A kernel object was written into the frame (`KPtr::new_unchecked`). -/
  | construct (frame : RawFrame)
  /-- The object in the frame was destroyed (`drop_in_place`). -/
  | dropInPlace (frame : RawFrame)
  /-- The object in the frame was moved out (`read`). -/
  | moveOut (frame : RawFrame)
  deriving DecidableEq

structure Machine where
  /-- Physical memory. -/
  mem : Mem
  /-- `RETYPE_TABLE`'s `retype_map`, one entry a frame. -/
  retypeMap : List RetypeEntry
  /-- The frame in CR3. -/
  cr3 : RawFrame
  /-- Latest event first. -/
  trace : List Event

/-- Kernel code: returns, or panics in the state it had reached. -/
abbrev KM (α : Type) := EStateM Panic Machine α

/-- Code that touches nothing, and may panic. -/
def orPanic {α : Type} : Except Panic α → KM α
  | .ok a => pure a
  | .error p => throw p

/-- `assert!`. -/
def assert (c : Bool) (text : String) : KM Unit :=
  if c then pure () else throw (.assertion text)

/-- `Option::unwrap`. -/
def unwrap {α : Type} (text : String) : Option α → KM α
  | some a => pure a
  | none => throw (.unwrap text)

/-- `Result::unwrap`. -/
def unwrapOk {ε α : Type} (text : String) : Except ε α → KM α
  | .ok a => pure a
  | .error _ => throw (.unwrap text)

/-- Record an event. -/
def note (e : Event) : KM Unit := modify fun m => { m with trace := e :: m.trace }

/-- `PhysAddr::to_virtual`. -/
def PhysAddr.toVirtual (env : Env) (a : PhysAddr) : Except Panic VirtAddr :=
  match env.add env.pmo a.addr with
  | .ok virt => VirtAddr.new virt
  | .error p => .error p

/-- The physical address behind a direct-map pointer. -/
def directMap (env : Env) (v : VirtAddr) : Except Panic Nat :=
  if env.pmo ≤ v.addr then .ok (v.addr - env.pmo) else .error .fault

/-- `frame.base().to_virtual()`, dereferenced. -/
def RawFrame.ptr (env : Env) (f : RawFrame) : Except Panic Nat :=
  match f.base.toVirtual env with
  | .ok v => directMap env v
  | .error p => .error p

/-- A 64-bit load through the direct map. -/
def load (a : Nat) : KM (BitVec 64) := return load64 (← get).mem a

/-- A 64-bit store through the direct map. -/
def Machine.store64 (m : Machine) (a : Nat) (w : BitVec 64) : Machine :=
  { m with mem := Lib.store64 m.mem a w }

/-- A block of bytes written through the direct map. -/
def Machine.store (m : Machine) (a n : Nat) (f : Nat → BitVec 8) : Machine :=
  { m with mem := Lib.store m.mem a n f }

@[simp] theorem Machine.store64_mem (m : Machine) (a : Nat) (w : BitVec 64) :
    (m.store64 a w).mem = Lib.store64 m.mem a w := rfl

@[simp] theorem Machine.store_mem (m : Machine) (a n : Nat) (f : Nat → BitVec 8) :
    (m.store a n f).mem = Lib.store m.mem a n f := rfl

theorem orPanic_ok_bind {α β : Type} {x : Except Panic α} {a : α} (k : α → KM β) (m : Machine)
    (h : x = .ok a) : (orPanic x >>= k) m = k a m := by
  rw [h]
  rfl

theorem orPanic_error_bind {α β : Type} {x : Except Panic α} {p : Panic} (k : α → KM β)
    (m : Machine) (h : x = .error p) : (orPanic x >>= k) m = .error p m := by
  rw [h]
  rfl

theorem orPanic_eq_ok {α : Type} {x : Except Panic α} {a : α} {m m' : Machine}
    (h : orPanic x m = .ok a m') : x = .ok a ∧ m' = m := by
  cases x with
  | ok b =>
    injection h with h1 h2
    exact ⟨congrArg Except.ok h1, h2.symm⟩
  | error p => cases h

section Wp

variable {α ε : Type} {Q : α → Machine → Prop} {E : Panic → Machine → Prop} {m : Machine}

/-- Code that touches nothing: what it returns, or the state as it was. -/
theorem wp_orPanic {x : Except Panic α} (hok : ∀ a, x = .ok a → Q a m)
    (herr : ∀ p, x = .error p → E p m) : wp (orPanic x) Q E m := by
  cases x with
  | ok a => exact hok a rfl
  | error p => exact herr p rfl

theorem wp_orPanic_ok (a : α) : wp (orPanic (.ok a)) Q E m ↔ Q a m := Iff.rfl

theorem assert_eq_ok {c : Bool} {text : String} {m m' : Machine} {u : Unit}
    (h : assert c text m = .ok u m') : c = true ∧ m' = m := by
  cases c with
  | true =>
    injection h with _ h2
    exact ⟨rfl, h2.symm⟩
  | false => cases h

theorem wp_assert {Q : Unit → Machine → Prop} {c : Bool} {text : String} (hok : c = true → Q () m)
    (herr : ∀ p, E p m) : wp (assert c text) Q E m := by
  cases c with
  | true => exact hok rfl
  | false => exact herr _

/-- The same, with what is known where the assertion fails. -/
theorem wp_assert_cases {Q : Unit → Machine → Prop} {c : Bool} {text : String}
    (hok : c = true → Q () m) (herr : c = false → ∀ p, E p m) : wp (assert c text) Q E m := by
  cases c with
  | true => exact hok rfl
  | false => exact herr rfl _

theorem wp_unwrap {x : Option α} {text : String} (hok : ∀ a, x = some a → Q a m)
    (herr : ∀ p, E p m) : wp (unwrap text x) Q E m := by
  cases x with
  | some a => exact hok a rfl
  | none => exact herr _

end Wp

/-- The pointer made from a frame leads back to the frame. -/
theorem RawFrame.ptr_eq_ok {env : Env} {f : RawFrame} {a : Nat} (h : f.ptr env = .ok a) :
    a = f.base.addr := by
  unfold RawFrame.ptr PhysAddr.toVirtual at h
  cases hadd : env.add env.pmo f.base.addr with
  | error p => rw [hadd] at h; exact absurd h (by simp)
  | ok virt =>
    rw [hadd] at h
    simp only at h
    cases hv : VirtAddr.new virt with
    | error p => rw [hv] at h; exact absurd h (by simp)
    | ok v =>
      rw [hv] at h
      unfold directMap at h
      simp only at h
      have hva := VirtAddr.new_eq_ok hv
      have hpmo := env.pmo_high
      have hlt := env.pmo_lt
      have hf := f.base.lt
      by_cases hle : env.pmo ≤ v.addr
      · rw [if_pos hle] at h
        obtain rfl := Except.ok.inj h
        rcases Env.add_eq_ok hadd with ⟨_, rfl⟩ | ⟨_, hge, rfl⟩ <;> omega
      · rw [if_neg hle] at h
        exact absurd h (by simp)

/-- The direct map covers the frame: the frame's pointers do not pass the top of the address
space. -/
def RawFrame.Mapped (env : Env) (f : RawFrame) : Prop := env.pmo + f.base.addr < 2 ^ 64

theorem RawFrame.toVirtual_of_mapped {env : Env} {f : RawFrame} (h : f.Mapped env) :
    ∃ v, f.base.toVirtual env = .ok v ∧ v.addr = env.pmo + f.base.addr := by
  have hc : VirtAddr.newTruncate (env.pmo + f.base.addr) = env.pmo + f.base.addr :=
    canonical_iff.mpr (Or.inr ⟨by have := env.pmo_high; omega, h⟩)
  refine ⟨⟨_, hc⟩, ?_, rfl⟩
  unfold PhysAddr.toVirtual
  rw [Env.add_of_lt env h]
  exact VirtAddr.new_of_canonical hc

end Harmony
