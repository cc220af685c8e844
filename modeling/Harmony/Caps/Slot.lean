import Harmony.Caps.Trie
import Harmony.KPtr
import Harmony.Lib.ReadModifyWrite

/-!
# Capability slots, and their updates from many cores

Model of `Resource`, `CapSlot` and `AtomicCapSlot` (`harmony/kernel/src/caps.rs`). A slot of a
capability table holds the link to a child table and a resource. `AtomicCapSlot::get` clones the
slot and `AtomicCapSlot::replace` swaps it, each under the cell's lock; `AtomicCapSlot::change` is a
`get`, a function on the copy, and a `replace`, with the lock free in between.

* `changes_serialize_iff`: the cores' changes of one slot amount to some serial order, whatever
  their functions, exactly when no `replace` falls inside another core's `change`.
* `link_lost`: a `Link` and a `Construct` on one slot whose steps interleave lose the link.
-/

namespace Harmony

open Lib

/-- `PageCapFlags(u8)`. -/
structure PageCapFlags where
  level : BitVec 8
  deriving DecidableEq, Repr

/-- `Resource`. -/
inductive Resource where
  | empty
  | capEntry (table : KPtr)
  | thread (thread : KPtr)
  | pageTable (table : KPtr) (flags : PageCapFlags)
  deriving DecidableEq

/-- `CapSlot`. -/
abbrev CapSlot := TrieEntry.Slot KPtr Resource

/-- `CapSlot::default`. -/
def CapSlot.default : CapSlot := ⟨none, .empty⟩

/-- `cap.child = child`. -/
def CapSlot.withChild (child : Option KPtr) (cap : CapSlot) : CapSlot := { cap with child := child }

/-- `cap.resource = resource`. -/
def CapSlot.withResource (resource : Resource) (cap : CapSlot) : CapSlot :=
  { cap with resource := resource }

instance : Nontrivial CapSlot :=
  ⟨⟨none, .empty⟩, ⟨some ⟨⟨0, by decide⟩⟩, .empty⟩, by simp⟩

/-- `AtomicCapSlot::change` on one core: its two locked steps. -/
def AtomicCapSlot.changeSteps {Core : Type} (core : Core) : List (Rmw.Step Core) :=
  [.get core, .replace core]

section Changes

variable {Core : Type} [DecidableEq Core]

/-- The schedule interleaves one `change` of each of the cores. -/
def AtomicCapSlot.Changes (cores : List Core) (sched : List (Rmw.Step Core)) : Prop :=
  ∀ c, sched.filter (fun t => t.core = c) = if c ∈ cores then AtomicCapSlot.changeSteps c else []

/-- The slot after the schedule; `fns c` is the function of core `c`. -/
def AtomicCapSlot.after (fns : Core → CapSlot → CapSlot) (init : CapSlot)
    (sched : List (Rmw.Step Core)) : CapSlot :=
  (Rmw.run fns (.fresh init) sched).slot

/-- Slot updates are serial, for all functions and every initial slot, exactly when no core's
`replace` falls between the `get` and the `replace` of another. -/
theorem changes_serialize_iff {cores : List Core} (hnodup : cores.Nodup)
    {sched : List (Rmw.Step Core)} (h : AtomicCapSlot.Changes cores sched) :
    (∀ (init : CapSlot) (fns : Core → CapSlot → CapSlot), ∃ order, order.Perm cores ∧
      AtomicCapSlot.after fns init sched = Rmw.serial fns init order) ↔ ¬ Rmw.Overlaps sched :=
  Rmw.serializable_iff h hnodup

end Changes

/-- Two cores one after the other. -/
theorem changes_serialize_iff_apart :
    AtomicCapSlot.Changes [0, 1]
      (AtomicCapSlot.changeSteps (0 : Fin 2) ++ AtomicCapSlot.changeSteps 1) ∧
    ∀ (init : CapSlot) (fns : Fin 2 → CapSlot → CapSlot), ∃ order, order.Perm [0, 1] ∧
      AtomicCapSlot.after fns init (AtomicCapSlot.changeSteps 0 ++ AtomicCapSlot.changeSteps 1) =
        Rmw.serial fns init order := by
  have hsched : AtomicCapSlot.Changes [0, 1]
      (AtomicCapSlot.changeSteps (0 : Fin 2) ++ AtomicCapSlot.changeSteps 1) := by
    unfold AtomicCapSlot.Changes
    decide
  refine ⟨hsched, (changes_serialize_iff (by decide) hsched).mpr ?_⟩
  unfold Rmw.Overlaps
  decide

/-- What the two cores of `link_lost` do to the slot: one links `table` below it, the other puts a
capability for `object` into it. -/
def linkAndConstruct (table object : KPtr) : Fin 2 → CapSlot → CapSlot
  | 0 => CapSlot.withChild (some table)
  | 1 => CapSlot.withResource (.thread object)

/-- A `Link` lost: both cores read the empty slot before either writes it back. -/
theorem link_lost :
    let table : KPtr := ⟨⟨0xFFFF800000001000, by decide⟩⟩
    let object : KPtr := ⟨⟨0xFFFF800000002000, by decide⟩⟩
    let sched : List (Rmw.Step (Fin 2)) := [.get 0, .get 1, .replace 0, .replace 1]
    AtomicCapSlot.Changes [0, 1] sched ∧
    AtomicCapSlot.after (linkAndConstruct table object) .default sched = ⟨none, .thread object⟩ ∧
    ∀ order : List (Fin 2), order.Perm [0, 1] →
      AtomicCapSlot.after (linkAndConstruct table object) .default sched ≠
        Rmw.serial (linkAndConstruct table object) .default order := by
  intro table object sched
  have hlost : AtomicCapSlot.after (linkAndConstruct table object) .default sched =
      ⟨none, .thread object⟩ := rfl
  refine ⟨by unfold AtomicCapSlot.Changes; decide, hlost, fun order horder => ?_⟩
  have hserial : Rmw.serial (linkAndConstruct table object) .default order =
      ⟨some table, .thread object⟩ := by
    obtain ⟨a, b, rfl⟩ := List.length_eq_two.mp horder.length_eq
    have hpair : ∀ a b : Fin 2, [a, b].Perm [0, 1] → a = 0 ∧ b = 1 ∨ a = 1 ∧ b = 0 := by decide
    obtain ⟨rfl, rfl⟩ | ⟨rfl, rfl⟩ := hpair a b horder <;> rfl
  rw [hlost, hserial]
  simp

end Harmony
