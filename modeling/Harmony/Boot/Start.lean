import Harmony.Boot.Requirement
import Harmony.Retype.Release

/-!
# When the kernel reaches user mode

`kmain` (`main.rs`) does not return: it ends in the boot process or in a panic. It builds the retype
table, takes CR3's frame for the kernel, loads the boot program, and takes two more frames for the
capability table and the thread. What can fail is known from the memory map and the image.

* `Stop.Tells`: a run that decides a proposition by how it ends.
* `CanBoot`: what `kmain` requires.
* **`kmain_boots_iff`**: it reaches user mode exactly when that is given.
-/

namespace Harmony

open Lib

/-! ## How a run ends -/

/-- The run tells whether `P`: it reaches user mode if so and panics if not. -/
def Stop.Tells (P : Prop) : Stop → Kernel → Prop
  | .panic _, _ => ¬ P
  | .dispatched _ _, _ => P

/-- The run panics, and `P` is false. -/
def Stop.Refutes (P : Prop) (stop : Stop) (_ : Kernel) : Prop := (∃ p, stop = .panic p) ∧ ¬ P

theorem Stop.Refutes.tells {P P' : Prop} {stop : Stop} {k : Kernel} (h : stop.Refutes P k)
    (hP : P' → P) : stop.Tells P' k := by
  obtain ⟨⟨p, rfl⟩, hnot⟩ := h
  exact fun hP' => hnot (hP hP')

theorem Stop.Tells.congr {P P' : Prop} {stop : Stop} {k : Kernel} (h : stop.Tells P k)
    (hP : P ↔ P') : stop.Tells P' k := by
  cases stop with
  | panic p => exact fun hP' => h (hP.mpr hP')
  | dispatched thread ctx => exact hP.mp h

theorem wp_onMachine {α : Type} {y : KM α} {Q : α → Kernel → Prop} {E : Stop → Kernel → Prop}
    {k : Kernel} (h : wp y (fun a m' => Q a { k with machine := m' })
      (fun p m' => E (.panic p) { k with machine := m' }) k.machine) : wp (onMachine y) Q E k := by
  unfold wp at h ⊢
  unfold onMachine
  cases hy : y k.machine with
  | ok a m' =>
    rw [hy] at h
    exact h
  | error p m' =>
    rw [hy] at h
    exact h

theorem onMachine_of_ok {α : Type} {y : KM α} {k : Kernel} {v : α} {m' : Machine}
    (h : y k.machine = .ok v m') : onMachine y k = .ok v { k with machine := m' } := by
  unfold onMachine
  rw [h]

/-! ## The retype table -/

section Table

variable {env : Env} {m m' : Machine} {memoryMap : List MapEntry} {table : List RetypeEntry}

/-- The machine once the table is installed. -/
def Machine.withTable (m : Machine) (table : List RetypeEntry) : Machine :=
  { m with retypeMap := table }

/-- The table is built, and it has CR3's frame as a kernel frame. -/
structure TableHeld (env : Env) (memoryMap : List MapEntry) (m : Machine)
    (table : List RetypeEntry) : Prop where
  built : RetypeTable.new env memoryMap = .ok (some table)
  held : ∃ c, (m.withTable table).typing m.cr3.number = some (.kernel, c)

/-- `m'` is `m` to anyone who asks for frames. -/
structure SameFrames (m m' : Machine) : Prop where
  cr3 : m'.cr3 = m.cr3
  typing : ∀ n, m'.typing n = m.typing n

theorem SameFrames.length_eq (h : SameFrames m m') : m'.retypeMap.length = m.retypeMap.length :=
  length_eq_of_typed fun n => by rw [h.typing]

theorem SameFrames.freeFrom_eq (h : SameFrames m m') (index : Nat) :
    m'.freeFrom index = m.freeFrom index := by
  ext n
  rw [Machine.mem_freeFrom, Machine.mem_freeFrom, h.typing]

theorem SameFrames.ready (h : SameFrames m m') (hm : Ready env m) : Ready env m' where
  covered := by
    rw [Uncovered.congr h.length_eq]
    exact hm.covered
  pmo_aligned := hm.pmo_aligned
  clean n c hn := hm.clean n c ((h.typing n).symm.trans hn)
  cr3_aligned := by
    rw [h.cr3]
    exact hm.cr3_aligned
  cr3_held := by
    rw [h.cr3, h.typing]
    exact hm.cr3_held

theorem Machine.typing_setEntry_self {n : Nat} {e e' : RetypeEntry} (h : m.retypeMap[n]? = some e) :
    (m.setEntry n e').typing n = some e'.get := by
  unfold Machine.typing
  rw [Machine.getElem?_setEntry_self e' h, Option.map_some]

theorem Machine.typing_setEntry_ne {n i : Nat} (e' : RetypeEntry) (h : i ≠ n) :
    (m.setEntry n e').typing i = m.typing i := by
  unfold Machine.typing
  rw [Machine.getElem?_setEntry_ne h]

/-- `RetypeTable::init` takes a reference to CR3's frame and gives it back. -/
theorem wp_retypeInit_held (hal : m.cr3.Aligned)
    (hbuilt : RetypeTable.new env memoryMap = .ok (some table)) :
    wp (RetypeTable.init env table)
      (fun _ m' => TableHeld env memoryMap m table ∧ SameFrames (m.withTable table) m')
      (fun _ _ => ¬ TableHeld env memoryMap m table) m := by
  unfold RetypeTable.init
  simp only [wp_bind, wp_modify]
  refine (wp_of_eq_ok (currentRaw_of_aligned (m := m.withTable table) hal)).mpr ?_
  -- the frames a new table holds for the kernel have one reference
  have hone : ∀ {e : RetypeEntry}, table[m.cr3.number]? = some e → e.get.1 = .kernel →
      e.get = (.kernel, 1) := by
    intro e he hst
    rcases new_entry_cases hbuilt he with heq | heq | heq
    · rw [heq] at hst
      cases hst
    · rw [heq] at hst
      cases hst
    · exact heq
  rcases tryAs_cases env .kernel m.cr3 (m.withTable table) with
    ⟨err, hrun⟩ | ⟨e, e', he, hst, _, hget, hrun⟩
  · have hkernel : m.cr3.tryAsKernel env (m.withTable table) =
      .ok (.error err) (m.withTable table) :=
      bind_of_eq_ok hrun
    refine (wp_of_eq_ok hkernel).mpr ?_
    rintro ⟨_, c, hc⟩
    obtain ⟨e, he, hget⟩ := Machine.entry_of_typing hc
    have hst : e.get.1 = .kernel := by rw [hget]
    obtain ⟨_, _, hok⟩ := tryAs_of_room env he hst (by rw [hone he hst]; decide)
    cases hrun.symm.trans hok
  · have hkernel : m.cr3.tryAsKernel env (m.withTable table) =
        .ok (.ok ⟨m.cr3⟩) ((m.withTable table).setEntry m.cr3.number e') := bind_of_eq_ok hrun
    have heq := hone he hst
    rw [heq] at hget
    have he' := Machine.getElem?_setEntry_self e' he
    obtain ⟨e'', hback, hdrop⟩ := dropGlue_of_pos he' (by rw [hget]; decide)
    refine (wp_of_eq_ok hkernel).mpr ((wp_of_eq_ok hdrop).mpr ⟨⟨hbuilt, 1, ?_⟩, rfl, fun n => ?_⟩)
    · rw [Machine.typing_of_getElem? he, heq]
    · by_cases hn : n = m.cr3.number
      · subst hn
        rw [Machine.typing_setEntry_self he', hback, hget, Machine.typing_of_getElem? he, heq]
        rfl
      · rw [Machine.typing_setEntry_ne e'' hn, Machine.typing_setEntry_ne e' hn]

/-- **`init`**: the table is there, with CR3's frame in it, or there is no such table. -/
theorem wp_init_held (hal : m.cr3.Aligned) :
    wp (init env memoryMap)
      (fun _ k' => ∃ table, TableHeld env memoryMap m table ∧
        SameFrames (m.withTable table) k'.machine ∧ k'.active = none)
      (Stop.Refutes (∃ table, TableHeld env memoryMap m table)) (Kernel.atBoot m) := by
  unfold init
  rw [wp_bind]
  refine wp_onMachine ?_
  cases hnew : RetypeTable.new env memoryMap with
  | error p =>
    refine ⟨⟨p, rfl⟩, ?_⟩
    rintro ⟨table, hheld⟩
    cases hnew.symm.trans hheld.built
  | ok found =>
    rw [wp_orPanic_ok, wp_bind]
    refine wp_onMachine ?_
    cases found with
    | none =>
      refine ⟨⟨_, rfl⟩, ?_⟩
      rintro ⟨table, hheld⟩
      cases hnew.symm.trans hheld.built
    | some table =>
      refine (wp_pure _).mpr ?_
      rw [wp_bind]
      refine wp_onMachine (wp_mono (wp_retypeInit_held hal hnew) ?_ ?_)
      · rintro _ m' ⟨hheld, hsame⟩
        exact ⟨table, hheld, hsame, rfl⟩
      · rintro p _ hnot
        refine ⟨⟨p, rfl⟩, ?_⟩
        rintro ⟨table', hheld⟩
        obtain rfl := Option.some.inj (Except.ok.inj (hnew.symm.trans hheld.built))
        exact hnot hheld

end Table

/-! ## The two objects -/

/-- The object is in a kernel frame of its own. -/
def Lodged (env : Env) (k : Kernel) (p : KPtr) : Prop :=
  ∃ f : RawFrame, f.Usable env ∧ p.Points env f ∧ k.machine.typing f.number = some (.kernel, 1)

section Objects

variable {env : Env} {x : Outside} {a : BumpAllocator} {left : Nat} {k : Kernel} {m m' : Machine}
  {f : RawFrame}

/-- **A boot object** is stored in the next frame, or there is none. -/
theorem Supply.wp_bootObject (h : Supply env a left k.machine) (hpmo : env.pmo % pageSize = 0)
    (o : Object) :
    wp (bootObject env x a o)
      (fun r k' => 0 < left ∧ Supply env r.2 (left - 1) k'.machine ∧ k'.active = k.active ∧
        k'.objects r.1 = some o ∧ Lodged env k' r.1)
      (Stop.Refutes (0 < left)) k := by
  have hsearch : Searchable a k.machine := searchable_of_covered h.covered h.cursor
  unfold bootObject
  rw [wp_bind]
  refine wp_onMachine (wp_mono (BumpAllocator.alloc_answers env BumpAllocator.decides_untyped
    hsearch.addressable a hsearch.cursor) ?_ fun _ _ hfalse => hfalse.elim)
  rintro ⟨r, b⟩ m₁ hr
  rw [wp_bind]
  refine wp_onMachine ?_
  cases r with
  | none =>
    obtain ⟨rfl, _, hnone⟩ := hr
    refine ⟨⟨_, rfl⟩, fun hpos => ?_⟩
    rw [← h.count, ← freeFrom_zero h.behind] at hpos
    obtain ⟨n, hn⟩ := Finset.card_pos.mp hpos
    obtain ⟨hle, hu⟩ := Machine.mem_freeFrom.mp hn
    exact hnone n _ hle hu rfl
  | some f =>
    obtain ⟨hfirst, hcursor, rfl⟩ := hr
    obtain ⟨⟨st, c⟩, ht, hst⟩ := hfirst.isFree
    obtain rfl : st = .untyped := hst
    obtain rfl := h.clean _ c ht
    have husable := usable_of_covered h.covered hpmo hfirst.aligned ht
    obtain ⟨p, m₂, hnew⟩ : ∃ p m₂, KPtr.new env f (x.bytes o) k.machine = .ok (.ok p) m₂ :=
      kptrNew_of_untyped husable ht (x.bytes o)
    obtain ⟨e, e', he, _, hget, hp, _, hend⟩ := wp_ok (KPtr.wp_new env f (x.bytes o) k.machine) hnew
    have hself : m₂.typing f.number = some (.kernel, 1) := by
      rw [hend, ← hget]
      exact Machine.typing_setEntry_self he
    have htaken : Taken k.machine f.number m₂ := by
      refine ⟨ht, ⟨1, hself⟩, fun n hn => .inl ?_⟩
      rw [hend]
      exact Machine.typing_setEntry_ne e' hn
    have hbelow : ∀ n < f.number, k.machine.typing n ≠ some (.untyped, 0) := fun n hn hu => by
      by_cases hle : a.index ≤ n
      · exact hfirst.least n _ hle hn hu rfl
      · exact h.behind n (Nat.lt_of_not_le hle) hu
    obtain ⟨hpos, hleft⟩ := h.take htaken hbelow hcursor
    have hobject : newObject env x f o k = .ok (.ok p)
        ((Kernel.setObject { k with machine := m₂ } p o).hold p 1) := by
      unfold newObject
      rw [bind_of_eq_ok (onMachine_of_ok hnew)]
      rfl
    refine (wp_pure _).mpr ?_
    rw [wp_bind]
    refine (wp_of_eq_ok hobject).mpr ?_
    exact ⟨hpos, hleft, rfl, Function.update_self .., f, husable, hp, hself⟩

theorem intoExec_of_points {process : Process} (hal : f.Aligned)
    (hp : process.l4Table.Points env f) :
    process.intoExec env k = .ok (.start (BitVec.ofNat 64 process.entry)
      (BitVec.ofNat 64 process.rsp), f) (k.adopt process.l4Table f) := by
  have hraw : process.l4Table.intoRaw env k.machine = .ok f k.machine := by
    unfold KPtr.intoRaw
    rw [KPtr.frame_of_points hal hp]
    rfl
  unfold Process.intoExec
  rw [bind_of_eq_ok (onMachine_of_ok hraw)]
  rfl

/-- The first dispatch of a thread goes through. -/
theorem dispatch_first {α : Type} {this : KPtr} {t : Thread} (hactive : k.active = none)
    (hlodged : Lodged env k this) (hthread : k.objects this = some (.thread t)) :
    ∃ k', (Thread.dispatch env this .noop : CM α) k = .error (.dispatched this t.execCtx) k' := by
  obtain ⟨f, husable, hp, htyping⟩ := hlodged
  obtain ⟨e, he, hget⟩ := Machine.entry_of_typing htyping
  obtain ⟨q, e', _, _, hclone⟩ := KPtr.clone_of_ne husable hp he (by rw [hget]; decide)
  have hhandle : cloneHandle env this k =
      .ok q (Kernel.hold { k with machine := k.machine.setEntry f.number e' } q 1) := by
    unfold cloneHandle
    rw [bind_of_eq_ok (onMachine_of_ok hclone)]
    rfl
  have hderef : ∀ k' : Kernel, k'.objects = k.objects → Thread.deref this k' = .ok t k' := by
    intro k' hobjects
    have hthis : k'.objects this = some (.thread t) := (congrFun hobjects this).trans hthread
    unfold Thread.deref
    rw [bind_of_eq_ok (rfl : (get : CM Kernel) k' = .ok k' k'), hthis]
    rfl
  have hends : wp (Thread.dispatch env this .noop : CM α) (fun _ _ => False)
      (fun stop _ => stop = .dispatched this t.execCtx) k := by
    unfold Thread.dispatch
    rw [wp_bind, wp_get, hactive]
    refine (wp_bind _ _).mpr ((wp_of_eq_ok hhandle).mpr ?_)
    rw [wp_bind, wp_modify, wp_bind]
    -- nothing ran before, so nothing is dropped
    refine (wp_pure ()).mpr ?_
    rw [wp_bind]
    exact (wp_of_eq_ok (hderef _ (by rfl))).mpr rfl
  obtain ⟨stop, k', hrun, rfl⟩ := exists_stop_of_wp hends
  exact ⟨k', hrun⟩

/-- **The capability table, the thread and its dispatch** take two frames. -/
theorem Supply.wp_start (h : Supply env a left k.machine) (hpmo : env.pmo % pageSize = 0)
    (hactive : k.active = none) (regs : Regs) (l4 : RawFrame) :
    wp (do
      let resources ← bootObject env x a (.capTable .default)
      let thread ← bootObject env x resources.2 (.thread ⟨regs, l4, resources.1⟩)
      Thread.dispatch env thread.1 .noop : CM Empty)
      (fun _ _ => False) (Stop.Tells (2 ≤ left)) k := by
  refine wp_seq (h.wp_bootObject hpmo _) ?_ fun stop _ hnot => hnot.tells fun htwo => by omega
  rintro ⟨resources, b⟩ k₁ ⟨_, h₁, hactive₁, _⟩
  refine wp_seq (h₁.wp_bootObject hpmo _) ?_ fun stop _ hnot => hnot.tells fun htwo => by omega
  rintro ⟨thread, b'⟩ k₂ ⟨hpos, _, hactive₂, hthread, hlodged⟩
  have hidle : k₂.active = none := hactive₂.trans (hactive₁.trans hactive)
  obtain ⟨k', hrun⟩ : ∃ k', (Thread.dispatch env thread .noop : CM Empty) k₂ = .error _ k' :=
    dispatch_first hidle hlodged hthread
  have htwo : 2 ≤ left := by omega
  unfold wp
  rw [hrun]
  exact htwo

end Objects

/-! ## The boot -/

section Boot

variable {env : Env} {goblin : Goblin} {program : Program} {args : LoadArgs} {x : Outside}
  {m : Machine} {memoryMap : List MapEntry}

/-- **What `kmain` requires**: a retype table that holds CR3's frame for the kernel, and what it
takes to load the boot program with two frames to spare. -/
def CanBoot (env : Env) (goblin : Goblin) (program : Program) (memoryMap : List MapEntry)
    (m : Machine) : Prop :=
  ∃ table, TableHeld env memoryMap m table ∧
    CanLoad env goblin program (.boot (table.length * frameSize))
      (((m.withTable table).freeFrom 0).card - 2)

/-- The requirement, once the table is known. -/
theorem TableHeld.canBoot_iff {table : List RetypeEntry} (h : TableHeld env memoryMap m table) :
    CanBoot env goblin program memoryMap m ↔
      CanLoad env goblin program (.boot (table.length * frameSize))
        (((m.withTable table).freeFrom 0).card - 2) := by
  refine ⟨fun ⟨table', hheld', hload⟩ => ?_, fun hload => ⟨table, h, hload⟩⟩
  obtain rfl := Option.some.inj (Except.ok.inj (hheld'.built.symm.trans h.built))
  exact hload

theorem memoryLimit_of_lt (h : m.retypeMap.length * frameSize < 2 ^ 64) :
    RawFrame.memoryLimit env m = .ok (m.retypeMap.length * frameSize) m := by
  unfold RawFrame.memoryLimit
  rw [bind_of_eq_ok (rfl : (get : KM Machine) m = .ok m m), Env.mul_of_lt env h]
  rfl

/-- Frames to spare are frames that are left. -/
theorem CanLoad.spare_iff {funds left spare : Nat} {phdrs : List ProgramHeader}
    (h : CanLoad env goblin program args funds) (hphdrs : phdrsOf goblin program = some phdrs)
    (hleft : left + (1 + (ownPages args phdrs).length + tableCount (allPages args phdrs)) = funds) :
    CanLoad env goblin program args (funds - spare) ↔ spare ≤ left := by
  obtain ⟨hargs, phdrs', hread, hplace, hnodup, _⟩ := h
  obtain rfl : phdrs' = phdrs := Option.some.inj (hread.read.symm.trans hphdrs)
  constructor
  · rintro ⟨_, phdrs'', hread', _, _, hcount⟩
    obtain rfl : phdrs'' = phdrs' := Option.some.inj (hread'.read.symm.trans hphdrs)
    omega
  · exact fun hspare => ⟨hargs, phdrs', hread, hplace, hnodup, by omega⟩

theorem CanLoad.of_fewer {funds spare : Nat} (h : CanLoad env goblin program args (funds - spare)) :
    CanLoad env goblin program args funds := by
  obtain ⟨hargs, phdrs, hread, hplace, hnodup, hcount⟩ := h
  exact ⟨hargs, phdrs, hread, hplace, hnodup, by omega⟩

/-- **`kmain` tells whether it can boot.** -/
theorem wp_kmain_tells (hcovers : DirectMapCovers env memoryMap) (hpmo : env.pmo % pageSize = 0)
    (hal : m.cr3.Aligned) (hlen : program.len < 2 ^ 64)
    (hfits : env.overflowChecks = true ∨ ∀ phdrs, phdrsOf goblin program = some phdrs →
      ∀ ph ∈ phdrs, ph.type = ptLoad → ph.Fits) :
    wp (kmain env goblin program x memoryMap) (fun _ _ => False)
      (Stop.Tells (CanBoot env goblin program memoryMap m)) (Kernel.atBoot m) := by
  unfold kmain
  refine wp_seq (wp_init_held hal) ?_ fun stop _ hnot =>
    hnot.tells fun ⟨table, hheld, _⟩ => ⟨table, hheld⟩
  rintro _ k ⟨table, hheld, hsame, hactive⟩
  obtain ⟨c, hc⟩ := hheld.held
  have hready : Ready env k.machine :=
    hsame.ready (Ready.of_new (m := m.withTable table) hheld.built hcovers hpmo hal hc)
  have hlength : k.machine.retypeMap.length = table.length := hsame.length_eq
  have hend := hcovers table hheld.built
  have hhigh := env.pmo_high
  rw [← hlength] at hend
  have hlimit : RawFrame.memoryLimit env k.machine = _ := memoryLimit_of_lt (by omega)
  rw [wp_bind]
  refine (wp_of_eq_ok (onMachine_of_ok hlimit)).mpr ?_
  have hfit := LoadArgs.boot_fit env
    (show k.machine.retypeMap.length * frameSize ≤ 2 ^ 52 by omega)
  have hcan : CanBoot env goblin program memoryMap m ↔ _ := hheld.canBoot_iff
  rw [← hsame.freeFrom_eq, ← hlength] at hcan
  rw [wp_bind]
  refine wp_onMachine (wp_mono (hready.wp_load hfit hfits hlen) ?_ ?_)
  swap
  · exact fun _ _ hnot hboot => hnot (hcan.mp hboot).of_fewer
  rintro process m₁ ⟨hload, phdrs, f, b, hphdrs, hf, hp, hbooks⟩
  have hspent := hbooks.spent
  have hpos := hload.pos
  have hspare : 2 ≤ (m₁.freeFrom 0).card ↔ CanBoot env goblin program memoryMap m :=
    (hcan.trans (hload.spare_iff hphdrs (by omega))).symm
  rw [wp_bind]
  refine (wp_of_eq_ok (intoExec_of_points hf hp)).mpr ?_
  exact wp_mono (Supply.wp_start (k := Kernel.adopt { k with machine := m₁ } process.l4Table f)
    hbooks.supply hpmo hactive _ _) (fun _ _ hfalse => hfalse) fun _ _ htells => htells.congr hspare

/-- **When the kernel boots.** `kmain` reaches user mode exactly when `CanBoot` holds of the memory
map, the image and CR3's frame; else it panics. -/
theorem kmain_boots_iff (hcovers : DirectMapCovers env memoryMap) (hpmo : env.pmo % pageSize = 0)
    (hal : m.cr3.Aligned) (hlen : program.len < 2 ^ 64)
    (hfits : env.overflowChecks = true ∨ ∀ phdrs, phdrsOf goblin program = some phdrs →
      ∀ ph ∈ phdrs, ph.type = ptLoad → ph.Fits) :
    ((∃ thread ctx k, kmain env goblin program x memoryMap (Kernel.atBoot m) =
      .error (.dispatched thread ctx) k) ↔ CanBoot env goblin program memoryMap m) ∧
    ((∃ p k, kmain env goblin program x memoryMap (Kernel.atBoot m) = .error (.panic p) k) ↔
      ¬ CanBoot env goblin program memoryMap m) := by
  have hends := wp_kmain_tells (x := x) hcovers hpmo hal hlen hfits
  obtain ⟨stop, k, hrun, htells⟩ := exists_stop_of_wp hends
  rw [hrun]
  cases stop with
  | panic p =>
    have hnot : ¬ CanBoot env goblin program memoryMap m := htells
    exact ⟨⟨fun ⟨_, _, _, h⟩ => (by cases h), fun hboot => absurd hboot hnot⟩,
      fun _ => hnot, fun _ => ⟨p, k, rfl⟩⟩
  | dispatched thread ctx =>
    have hboot : CanBoot env goblin program memoryMap m := htells
    exact ⟨⟨fun _ => hboot, fun _ => ⟨thread, ctx, k, rfl⟩⟩,
      fun ⟨_, _, h⟩ => (by cases h), fun hnot => absurd hboot hnot⟩

end Boot

/-- A memory map of 25 frames. -/
def tightMap : List MapEntry :=
  [⟨0, 0x1000, .usable⟩, ⟨0x1000, 0x2000, .bootloaderReclaimable⟩, ⟨0x3000, 0x16000, .usable⟩]

theorem tightMap_new : RetypeTable.new Env.dev tightMap =
    .ok (some (bootedSpace.retypeMap.take 25)) := by
  decide +kernel

/-- With 27 frames the small program boots. With 25 it could still be loaded, but the frames for the
capability table and the thread are missing. -/
theorem kmain_boots_iff_small :
    (∃ thread ctx k, kmain Env.dev (.always [smallSegment]) smallProgram .free bootedMap
      (Kernel.atBoot bootedSpace) = .error (.dispatched thread ctx) k) ∧
    ∃ p k, kmain Env.dev (.always [smallSegment]) smallProgram .free tightMap
      (Kernel.atBoot bootedSpace) = .error (.panic p) k := by
  have hlen : smallProgram.len < 2 ^ 64 := by decide
  constructor
  · refine (kmain_boots_iff bootedMap_covered (by decide) (by decide) hlen (Or.inl rfl)).1.mpr ?_
    exact ⟨bootedSpace.retypeMap, ⟨bootedSpace_new, 1, by decide⟩,
      canLoad_small (by decide +kernel)⟩
  · have hcovers : DirectMapCovers Env.dev tightMap := by
      intro table htable
      obtain rfl := Option.some.inj (Except.ok.inj (tightMap_new.symm.trans htable))
      decide
    refine (kmain_boots_iff hcovers (by decide) (by decide) hlen (Or.inl rfl)).2.mpr ?_
    rintro ⟨table, hheld, _, phdrs, hread, _, _, hcount⟩
    obtain rfl := Option.some.inj (Except.ok.inj (tightMap_new.symm.trans hheld.built))
    obtain rfl : [smallSegment] = phdrs := Option.some.inj hread.read
    exact absurd hcount (by decide +kernel)

end Harmony
