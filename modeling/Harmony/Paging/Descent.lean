import Harmony.Paging.Walk
import Mathlib.Logic.Relation

/-!
# The way down of `map_to`

The loop of `Addrspace::map_to` (`paging/page_table.rs`) as steps: from a level to the next along an
entry that is there (`Down.follow`) or through a new table hung under an empty one (`Down.build`),
until the call ends (`Halt`) or panics (`Panics`). Nothing is assumed of the tables; what a call
does to a tree of them is read off its steps.

* `mapToLoop_descends`, `mapTo_descends`: every outcome of the call is a way down and its end.
-/

namespace Harmony

open Lib
open BumpAllocator (Claimed)

/-- The machine once the table in frame `f` is made and hung under entry `k` of table `n`. -/
def withTable (mc : Machine) (f : RawFrame) (parent : PageTableFlags) (n : Nat) (k : Fin 512) :
    Machine :=
  (mc.store (f.number * frameSize) pageSize AnyPageTable.new.bytes).store64
    (n * frameSize + 8 * k) (PageTableEntry.encode f (parent.union .present))

/-- A point of the way: the level whose entry is read next, its table, the allocator and the
machine. -/
structure Spot where
  level : Nat
  table : Nat
  allocator : BumpAllocator
  machine : Machine

namespace Spot

/-- The entry that is read next. -/
def entry (page : Page) (s : Spot) : Option Mapping :=
  entryOf s.machine.mem s.table (page.key s.level)

end Spot

/-- One level down. -/
inductive Down (env : Env) (page : Page) (parent : PageTableFlags) : Spot → Spot → Prop
  | follow {lower n : Nat} {a : BumpAllocator} {m : Machine} {e : Mapping} (hl : 0 < lower)
      (he : entryOf m.mem n (page.key (lower + 1)) = some e)
      (hhuge : e.2.contains .hugePage = false) :
      Down env page parent ⟨lower + 1, n, a, m⟩ ⟨lower, target e, a, m⟩
  | build {lower n : Nat} {a a' : BumpAllocator} {m mc : Machine} {f : RawFrame} (hl : 0 < lower)
      (he : entryOf m.mem n (page.key (lower + 1)) = none)
      (halloc : a.allocKernelFrame env m = .ok (some ⟨f⟩, a') mc) (hc : Claimed .kernel m f mc) :
      Down env page parent ⟨lower + 1, n, a, m⟩
        ⟨lower, f.number, a', withTable mc f parent n (page.key (lower + 1))⟩

/-- Any number of levels down. -/
abbrev Descent (env : Env) (page : Page) (parent : PageTableFlags) : Spot → Spot → Prop :=
  Relation.ReflTransGen (Down env page parent)

/-- How the call ends at a point of the way. -/
inductive Halt (env : Env) (page : Page) (frame : RawFrame) (flags : PageTableFlags) (s : Spot) :
    Except MapperError Unit × BumpAllocator → Machine → Prop
  | mapped {e : Mapping} (hl : s.level = 1) (he : s.entry page = some e) :
      Halt env page frame flags s (.error (.alreadyMapped e.1), s.allocator) s.machine
  | huge {e : Mapping} (hl : 1 < s.level) (he : s.entry page = some e)
      (hhuge : e.2.contains .hugePage = true) :
      Halt env page frame flags s (.error .hugeParentEntry, s.allocator) s.machine
  | exhausted {a' : BumpAllocator} (hl : 1 < s.level) (he : s.entry page = none)
      (halloc : s.allocator.allocKernelFrame env s.machine = .ok (none, a') s.machine) :
      Halt env page frame flags s (.error .frameAllocationError, a') s.machine
  | written (hl : s.level = 1) (he : s.entry page = none) :
      Halt env page frame flags s (.ok (), s.allocator)
        (s.machine.store64 (s.table * frameSize + 8 * (page.key 1 : Nat))
          (PageTableEntry.encode frame flags))

/-- How it panics there: the next table has no address, or there is no telling which frame is
free. -/
inductive Panics (env : Env) (page : Page) (s : Spot) : Machine → Prop
  | follow {e : Mapping} {p : Panic} (hl : 1 < s.level) (he : s.entry page = some e)
      (hhuge : e.2.contains .hugePage = false) (hptr : e.1.ptr env = .error p) :
      Panics env page s s.machine
  | alloc {p : Panic} (hl : 1 < s.level) (he : s.entry page = none)
      (halloc : s.allocator.allocKernelFrame env s.machine = .error p s.machine) :
      Panics env page s s.machine
  | build {f : RawFrame} {a' : BumpAllocator} {mc : Machine} {p : Panic} (hl : 1 < s.level)
      (he : s.entry page = none)
      (halloc : s.allocator.allocKernelFrame env s.machine = .ok (some ⟨f⟩, a') mc)
      (hc : Claimed .kernel s.machine f mc) (hptr : f.ptr env = .error p) : Panics env page s mc

section Loop

variable {env : Env} {page : Page} {frame : RawFrame} {flags parent : PageTableFlags}
  {m : Machine} {lower n : Nat} {a : BumpAllocator}

/-- The loop's turn at an entry that is there. -/
theorem mapToLoop_of_some {next : RawFrame} {entryFlags : PageTableFlags}
    (h : entryOf m.mem n (page.key (lower + 1)) = some (next, entryFlags)) :
    mapToLoop env page frame flags parent (lower + 1) (n * frameSize) a m =
      (if lower = 0 then pure (Except.error (.alreadyMapped next), a)
      else if entryFlags.contains .hugePage then pure (Except.error .hugeParentEntry, a)
      else do
        let table ← orPanic (next.ptr env)
        mapToLoop env page frame flags parent lower table a : KM _) m := by
  conv_lhs => unfold mapToLoop
  refine (bind_of_eq_ok (show load _ m = .ok (load64 m.mem _) m from rfl)).trans ?_
  exact orPanic_ok_bind _ m ((PageTableEntry.get_eq _).trans (congrArg Except.ok h))

/-- The loop's turn at an empty entry. -/
theorem mapToLoop_of_none (h : entryOf m.mem n (page.key (lower + 1)) = none) :
    mapToLoop env page frame flags parent (lower + 1) (n * frameSize) a m =
      (if lower = 0 then do
        let _ ← PageTableEntry.set (n * frameSize + 8 * (page.key (lower + 1) : Nat)) frame flags
        mapToLoop env page frame flags parent lower (n * frameSize) a
      else do
        match ← newTable env parent (n * frameSize + 8 * (page.key (lower + 1) : Nat)) a with
        | (none, a) => pure (.error .frameAllocationError, a)
        | (some table, a) => mapToLoop env page frame flags parent lower table a) m := by
  conv_lhs => unfold mapToLoop
  refine (bind_of_eq_ok (show load _ m = .ok (load64 m.mem _) m from rfl)).trans ?_
  exact orPanic_ok_bind _ m ((PageTableEntry.get_eq _).trans (congrArg Except.ok h))

theorem newTable_of_none {entry : Nat} {a' : BumpAllocator} {mc : Machine}
    (halloc : a.allocKernelFrame env m = .ok (none, a') mc) :
    newTable env parent entry a m = .ok (none, a') mc := bind_of_eq_ok halloc

theorem newTable_of_error {entry : Nat} {a' : BumpAllocator} {mc : Machine} {f : RawFrame}
    {p : Panic} (halloc : a.allocKernelFrame env m = .ok (some ⟨f⟩, a') mc)
    (hptr : f.ptr env = .error p) : newTable env parent entry a m = .error p mc :=
  (bind_of_eq_ok halloc).trans (orPanic_error_bind _ mc hptr)

/-- A new table, in a frame that has an address. -/
theorem newTable_of_some {entry : Nat} {a' : BumpAllocator} {mc : Machine} {f : RawFrame}
    {addr : Nat} (halloc : a.allocKernelFrame env m = .ok (some ⟨f⟩, a') mc)
    (hptr : f.ptr env = .ok addr) : newTable env parent entry a m =
      .ok (some addr, a') ((mc.store addr pageSize AnyPageTable.new.bytes).store64 entry
        (PageTableEntry.encode f (parent.union .present))) := by
  unfold newTable
  rw [bind_of_eq_ok halloc]
  refine (orPanic_ok_bind _ mc hptr).trans ?_
  refine (bind_of_eq_ok (rfl : (modify _ : KM Unit) mc = .ok () _)).trans ?_
  rw [bind_of_eq_ok (PageTableEntry.set_eq _ _ _ _)]
  rfl

/-- The program ends as the call does, somewhere on a way down from `s`. -/
def Descends (env : Env) (page : Page) (frame : RawFrame) (flags parent : PageTableFlags) (s : Spot)
    (x : KM (Except MapperError Unit × BumpAllocator)) : Prop :=
  wp x
    (fun r m' => ∃ t, Descent env page parent s t ∧ Halt env page frame flags t r m')
    (fun _ m' => ∃ t, Descent env page parent s t ∧ Panics env page t m') s.machine

/-- One level more in front. -/
theorem Descends.head {s t : Spot} {x y : KM (Except MapperError Unit × BumpAllocator)}
    (h : Descends env page frame flags parent t y) (hdown : Down env page parent s t)
    (hrun : x s.machine = y t.machine) : Descends env page frame flags parent s x := by
  unfold Descends wp at h ⊢
  rw [hrun]
  split at h
  · obtain ⟨u, hu, hend⟩ := h
    exact ⟨u, .head hdown hu, hend⟩
  · obtain ⟨u, hu, hend⟩ := h
    exact ⟨u, .head hdown hu, hend⟩

/-- **The loop of `map_to`** is a way down and its end. -/
theorem mapToLoop_descends (lower : Nat) :
    ∀ (n : Nat) (a : BumpAllocator) (m : Machine),
      Descends env page frame flags parent ⟨lower + 1, n, a, m⟩
        (mapToLoop env page frame flags parent (lower + 1) (n * frameSize) a) := by
  induction lower with
  | zero =>
    intro n a m
    unfold Descends
    cases he : entryOf m.mem n (page.key 1) with
    | some e =>
      rw [wp_congr (mapToLoop_of_some he)]
      exact ⟨_, .refl, .mapped rfl he⟩
    | none =>
      rw [wp_congr (mapToLoop_of_none he), if_pos rfl, wp_bind,
        wp_of_eq_ok (PageTableEntry.set_eq _ _ _ _)]
      exact ⟨_, .refl, .written rfl he⟩
  | succ lower ih =>
    intro n a m
    have hl : 1 < lower + 1 + 1 := by omega
    cases he : entryOf m.mem n (page.key (lower + 1 + 1)) with
    | some e =>
      have hturn := @mapToLoop_of_some env page frame flags parent m (lower + 1) n a e.1 e.2 he
      rw [if_neg (Nat.succ_ne_zero lower)] at hturn
      by_cases hhuge : e.2.contains .hugePage = true
      · rw [if_pos hhuge] at hturn
        exact (wp_congr hturn).mpr ⟨_, .refl, .huge hl he hhuge⟩
      · have hnot : e.2.contains .hugePage = false := by simpa using hhuge
        rw [if_neg hhuge] at hturn
        cases hptr : e.1.ptr env with
        | error p =>
          rw [orPanic_error_bind _ m hptr] at hturn
          unfold Descends wp
          rw [hturn]
          exact ⟨_, .refl, .follow hl he hnot hptr⟩
        | ok table =>
          obtain rfl : table = target e * frameSize :=
            (RawFrame.ptr_eq_ok hptr).trans (entryOf_aligned he).base_eq
          rw [orPanic_ok_bind _ m hptr] at hturn
          exact (ih (target e) a m).head (.follow (Nat.succ_pos lower) he hnot) hturn
    | none =>
      have hturn := @mapToLoop_of_none env page frame flags parent m (lower + 1) n a he
      rw [if_neg (Nat.succ_ne_zero lower)] at hturn
      have hwp : wp (a.allocKernelFrame env) _ _ m := BumpAllocator.wp_allocKernelFrame a
      cases halloc : a.allocKernelFrame env m with
      | error p m' =>
        obtain rfl : m' = m := by
          unfold wp at hwp
          rw [halloc] at hwp
          exact hwp
        have hnew :
          newTable env parent (n * frameSize + 8 * (page.key (lower + 1 + 1) : Nat)) a m' =
            .error p m' := bind_of_eq_error halloc
        rw [bind_of_eq_error hnew] at hturn
        unfold Descends wp
        rw [hturn]
        exact ⟨_, .refl, .alloc hl he halloc⟩
      | ok r mc =>
        have hfound := wp_ok hwp halloc
        obtain ⟨_ | k, a'⟩ := r
        · obtain rfl : mc = m := hfound
          rw [bind_of_eq_ok (newTable_of_none halloc)] at hturn
          exact (wp_congr hturn).mpr ⟨_, .refl, .exhausted hl he halloc⟩
        · obtain ⟨f⟩ := k
          have hc : Claimed .kernel m f mc := hfound
          cases hptr : f.ptr env with
          | error p =>
            rw [bind_of_eq_error (newTable_of_error halloc hptr)] at hturn
            unfold Descends wp
            rw [hturn]
            exact ⟨_, .refl, .build hl he halloc hc hptr⟩
          | ok addr =>
            obtain rfl : addr = f.number * frameSize :=
              (RawFrame.ptr_eq_ok hptr).trans hc.aligned.base_eq
            rw [bind_of_eq_ok (newTable_of_some halloc hptr)] at hturn
            exact (ih f.number a' _).head (.build (Nat.succ_pos lower) he halloc hc) hturn

end Loop

/-- The machine once an event is recorded. -/
def Machine.noted (m : Machine) (e : Event) : Machine := { m with trace := e :: m.trace }

@[simp] theorem Machine.noted_mem (m : Machine) (e : Event) : (m.noted e).mem = m.mem := rfl

@[simp] theorem Machine.noted_typing (m : Machine) (e : Event) (n : Nat) :
    (m.noted e).typing n = m.typing n := rfl

/-- **The call** is the loop, once it is recorded. -/
theorem mapTo_descends (env : Env) (page : Page) (frame : RawFrame) (flags parent : PageTableFlags)
    (root : Nat) (a : BumpAllocator) (m : Machine) :
    wp (mapTo env page frame flags parent (root * frameSize) a)
      (fun r m' => ∃ s, Descent env page parent ⟨4, root, a, m.noted (.mapTo page)⟩ s ∧
        Halt env page frame flags s r m')
      (fun _ m' => ∃ s, Descent env page parent ⟨4, root, a, m.noted (.mapTo page)⟩ s ∧
        Panics env page s m') m := by
  unfold mapTo note
  rw [wp_bind, wp_modify]
  exact mapToLoop_descends 3 root a (m.noted (.mapTo page))

end Harmony
