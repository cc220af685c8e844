import Mathlib.Algebra.Group.Int.Defs
import Mathlib.Algebra.Group.Nat.Defs
import Mathlib.Tactic.SplitIfs

/-!
# The build and the machine the kernel is given

What the source leaves to its surroundings: the Cargo profile (the Makefile builds `dev` unless
told otherwise, whose integer arithmetic panics on overflow and whose `debug_assert!`s are live;
`release` wraps and drops them), and the physical memory offset `PMO` that the bootloader reports.
A panic ends the run (`main.rs`: the handler loops for ever).
-/

namespace Harmony

/-- Everything outside `harmony/kernel` that its code depends on. -/
structure Env where
  /-- Integer overflow panics (`dev`) instead of wrapping (`release`). -/
  overflowChecks : Bool
  /-- `debug_assert!` is compiled in. -/
  debugAssertions : Bool
  /-- `PMO`: where the bootloader maps all physical memory. -/
  pmo : Nat
  /-- `assert!(pmo >= 0xFFFF_8000_0000_0000)`. -/
  pmo_high : 0xFFFF800000000000 ≤ pmo
  pmo_lt : pmo < 2 ^ 64

/-- How a run ends early. -/
inductive Panic where
  /-- Overflow of checked integer arithmetic. -/
  | overflow
  /-- `assert!` / `debug_assert!`, with its text. -/
  | assertion (text : String)
  /-- `unwrap` of a `None` or an `Err`. -/
  | unwrap (text : String)
  /-- `panic!`, with its text. -/
  | message (text : String)
  /-- An access to memory that is not there. -/
  | fault
  deriving DecidableEq, Repr

/-- `assert!` in code that touches no state. -/
def Panic.ensure (c : Bool) (text : String) : Except Panic Unit :=
  if c then .ok () else .error (.assertion text)

theorem Panic.ensure_eq_ok {c : Bool} {text : String} {u : Unit} (h : Panic.ensure c text = .ok u) :
    c = true := by
  cases c with
  | true => rfl
  | false => exact absurd h (by simp [Panic.ensure])

/-! ## `u64` and `usize` arithmetic under the profile -/

/-- `a + b`. -/
def Env.add (env : Env) (a b : Nat) : Except Panic Nat :=
  if a + b < 2 ^ 64 then .ok (a + b)
  else if env.overflowChecks then .error .overflow
  else .ok ((a + b) % 2 ^ 64)

/-- `a - b`. -/
def Env.sub (env : Env) (a b : Nat) : Except Panic Nat :=
  if b ≤ a then .ok (a - b)
  else if env.overflowChecks then .error .overflow
  else .ok ((a + 2 ^ 64 - b) % 2 ^ 64)

/-- `a * b`. -/
def Env.mul (env : Env) (a b : Nat) : Except Panic Nat :=
  if a * b < 2 ^ 64 then .ok (a * b)
  else if env.overflowChecks then .error .overflow
  else .ok (a * b % 2 ^ 64)

theorem Env.add_of_lt (env : Env) {a b : Nat} (h : a + b < 2 ^ 64) : env.add a b = .ok (a + b) :=
  if_pos h

theorem Env.sub_of_le (env : Env) {a b : Nat} (h : b ≤ a) : env.sub a b = .ok (a - b) :=
  if_pos h

theorem Env.mul_of_lt (env : Env) {a b : Nat} (h : a * b < 2 ^ 64) : env.mul a b = .ok (a * b) :=
  if_pos h

theorem Env.add_wraps {env : Env} {a b : Nat} (hoff : env.overflowChecks = false)
    (h : 2 ^ 64 ≤ a + b) : env.add a b = .ok ((a + b) % 2 ^ 64) := by
  unfold Env.add
  rw [if_neg (Nat.not_lt_of_le h), hoff]
  rfl

theorem Env.sub_wraps {env : Env} {a b : Nat} (hoff : env.overflowChecks = false) (h : a < b) :
    env.sub a b = .ok ((a + 2 ^ 64 - b) % 2 ^ 64) := by
  unfold Env.sub
  rw [if_neg (Nat.not_le_of_lt h), hoff]
  rfl

/-- A sum that comes out is the sum, or its wrapped value in the `release` profile. -/
theorem Env.add_eq_ok {env : Env} {a b c : Nat} (h : env.add a b = .ok c) :
    (a + b < 2 ^ 64 ∧ c = a + b) ∨
      (env.overflowChecks = false ∧ 2 ^ 64 ≤ a + b ∧ c = (a + b) % 2 ^ 64) := by
  unfold Env.add at h
  split_ifs at h with h1 h2
  · exact Or.inl ⟨h1, (Except.ok.inj h).symm⟩
  · exact Or.inr ⟨by simpa using h2, Nat.le_of_not_lt h1, (Except.ok.inj h).symm⟩

theorem Env.sub_eq_ok {env : Env} {a b c : Nat} (h : env.sub a b = .ok c) :
    (b ≤ a ∧ c = a - b) ∨
      (env.overflowChecks = false ∧ a < b ∧ c = (a + 2 ^ 64 - b) % 2 ^ 64) := by
  unfold Env.sub at h
  split_ifs at h with h1 h2
  · exact Or.inl ⟨h1, (Except.ok.inj h).symm⟩
  · exact Or.inr ⟨by simpa using h2, Nat.lt_of_not_le h1, (Except.ok.inj h).symm⟩

theorem Env.mul_eq_ok {env : Env} {a b c : Nat} (h : env.mul a b = .ok c) :
    (a * b < 2 ^ 64 ∧ c = a * b) ∨
      (env.overflowChecks = false ∧ 2 ^ 64 ≤ a * b ∧ c = a * b % 2 ^ 64) := by
  unfold Env.mul at h
  split_ifs at h with h1 h2
  · exact Or.inl ⟨h1, (Except.ok.inj h).symm⟩
  · exact Or.inr ⟨by simpa using h2, Nat.le_of_not_lt h1, (Except.ok.inj h).symm⟩

/-- Under overflow checks what comes out is exact. -/
theorem Env.add_checked {env : Env} {a b c : Nat} (hc : env.overflowChecks = true)
    (h : env.add a b = .ok c) : a + b < 2 ^ 64 ∧ c = a + b := by
  rcases Env.add_eq_ok h with h | ⟨hoff, _⟩
  · exact h
  · exact absurd (hc.symm.trans hoff) (by simp)

theorem Env.sub_checked {env : Env} {a b c : Nat} (hc : env.overflowChecks = true)
    (h : env.sub a b = .ok c) : b ≤ a ∧ c = a - b := by
  rcases Env.sub_eq_ok h with h | ⟨hoff, _⟩
  · exact h
  · exact absurd (hc.symm.trans hoff) (by simp)

theorem Env.mul_checked {env : Env} {a b c : Nat} (hc : env.overflowChecks = true)
    (h : env.mul a b = .ok c) : c = a * b := by
  rcases Env.mul_eq_ok h with ⟨_, h⟩ | ⟨hoff, _⟩
  · exact h
  · exact absurd (hc.symm.trans hoff) (by simp)

theorem Env.add_lt {env : Env} {a b c : Nat} (h : env.add a b = .ok c) : c < 2 ^ 64 := by
  rcases Env.add_eq_ok h with ⟨hlt, rfl⟩ | ⟨_, _, rfl⟩
  · exact hlt
  · exact Nat.mod_lt _ (by decide)

/-- The `dev` profile, on a machine whose direct map starts the upper half. -/
def Env.dev : Env where
  overflowChecks := true
  debugAssertions := true
  pmo := 0xFFFF800000000000
  pmo_high := Nat.le_refl _
  pmo_lt := by decide

/-- The `release` profile, on the same machine. -/
def Env.release : Env where
  overflowChecks := false
  debugAssertions := false
  pmo := 0xFFFF800000000000
  pmo_high := Nat.le_refl _
  pmo_lt := by decide

end Harmony
