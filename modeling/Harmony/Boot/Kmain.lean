import Harmony.Caps.Resume
import Harmony.Caps.World

/-!
# From `kmain` to user mode

`kmain` (`main.rs`) sets up the retype table from the memory map, loads the boot process, makes it
an empty capability table and a thread, and dispatches the thread. Left out are the devices
(`serial`, `gdt`, `interrupts`, the timer) and what the log prints.

The loader works on the machine alone; `Process::into_exec` is where its L4 table becomes one of the
kernel's objects, as it then is in memory.

* `wlp_init`, `wlp_bootObject`, `wp_bootDispatch`: the parts.
* `kmain_boots`: where `kmain` reaches user mode, the boot process runs at its entry point, the
  processor grants it exactly what its image asks for, and user code is enclosed from then on.
-/

namespace Harmony

open Lib

/-! ## The code -/

/-- `RetypeTable::init`: the table is put in place, and the frame in CR3 has to be a kernel frame.
The handle to it is dropped at once. -/
def RetypeTable.init (env : Env) (table : List RetypeEntry) : KM Unit := do
  modify fun m => { m with retypeMap := table }
  let l4Table ← AnyPageTable.currentRaw
  let handle ← unwrapOk "try_as_kernel" (← l4Table.tryAsKernel env)
  dropGlue handle.frame

/-- `init`: the retype table, and `component::init`. Left out are the devices and the checks that
the bootloader has answered (its revision, the stack size, the memory map, which is an argument
here). -/
def init (env : Env) (memoryMap : List MapEntry) : CM Unit := do
  let table ← onMachine (orPanic (RetypeTable.new env memoryMap))
  let table ← onMachine (unwrap "RetypeTable::new" table)
  onMachine (RetypeTable.init env table)
  modify fun k => { k with active := none }

/-- The L4 table in frame `l4` becomes the object behind `p`, as it is in memory. -/
def Kernel.adopt (k : Kernel) (p : KPtr) (l4 : RawFrame) : Kernel :=
  (k.setObject p (.pageTable 4 fun i => load64 k.machine.mem (l4.base.addr + 8 * i))).hold p 1

/-- `Process::into_exec`. -/
def Process.intoExec (env : Env) (process : Process) : CM (Regs × RawFrame) := do
  let l4Frame ← onMachine (process.l4Table.intoRaw env)
  modify fun k => k.adopt process.l4Table l4Frame
  pure (.start (BitVec.ofNat 64 process.entry) (BitVec.ofNat 64 process.rsp), l4Frame)

/-- `KPtr::new` in a frame of the allocator. -/
def bootObject (env : Env) (x : Outside) (a : BumpAllocator) (o : Object) :
    CM (KPtr × BumpAllocator) := do
  let r ← onMachine (a.allocUntypedFrame env)
  let frame ← onMachine (unwrap "alloc_untyped_frame" r.1)
  let p ← onMachine (unwrapOk "KPtr::new" (← newObject env x frame o))
  pure (p, r.2)

/-- `kmain`, on the image `program`. -/
def kmain (env : Env) (goblin : Goblin) (program : Program) (x : Outside)
    (memoryMap : List MapEntry) : CM Empty := do
  init env memoryMap
  let limit ← onMachine (RawFrame.memoryLimit env)
  let process ← onMachine (Process.load env goblin program (.boot limit))
  let booter ← process.intoExec env
  let resources ← bootObject env x .new (.capTable .default)
  let thread ← bootObject env x resources.2 (.thread ⟨booter.1, booter.2, resources.1⟩)
  Thread.dispatch env thread.1 .noop

/-- The kernel before `kmain`: no objects. -/
def Kernel.atBoot (m : Machine) : Kernel := ⟨m, fun _ => none, none, 0⟩

/-- The bootloader's direct map covers the frames of the memory map. -/
def DirectMapCovers (env : Env) (memoryMap : List MapEntry) : Prop :=
  ∀ table, RetypeTable.new env memoryMap = .ok (some table) →
    env.pmo + table.length * frameSize ≤ 2 ^ 64

/-! ## The parts -/

section Parts

variable {env : Env} {x : Outside} {k : Kernel} {m : Machine}

/-- Installing the table leaves memory and CR3 as they are. -/
theorem wp_retypeInit (table : List RetypeEntry) :
    wp (RetypeTable.init env table) (fun _ m' => m'.mem = m.mem ∧ m'.cr3 = m.cr3 ∧
      m'.retypeMap.length = table.length) (fun _ _ => True) m := by
  unfold RetypeTable.init AnyPageTable.currentRaw
  simp only [wp_bind, wp_modify, wp_get]
  refine wp_orPanic (fun base hbase => ?_) (fun _ _ => trivial)
  refine wp_orPanic (fun frame hframe => ?_) (fun _ _ => trivial)
  rcases tryAs_cases env .kernel frame { m with retypeMap := table } with
    ⟨err, hrun⟩ | ⟨e, e', he, _, _, _, hrun⟩
  · have hkernel : frame.tryAsKernel env { m with retypeMap := table } =
        .ok (.error err) { m with retypeMap := table } := bind_of_eq_ok hrun
    rw [wp_of_eq_ok hkernel]
    trivial
  · have hkernel : frame.tryAsKernel env { m with retypeMap := table } =
        .ok (.ok ⟨frame⟩) ({ m with retypeMap := table }.setEntry frame.number e') :=
      bind_of_eq_ok hrun
    rw [wp_of_eq_ok hkernel]
    have he' := Machine.getElem?_setEntry_self e' he
    simp only [unwrapOk, wp_pure]
    by_cases h0 : e'.get.2 = 0
    · unfold wp
      rw [dropGlue_of_zero he' h0]
      trivial
    · obtain ⟨e'', _, hdrop⟩ := dropGlue_of_pos he' h0
      rw [wp_of_eq_ok hdrop]
      exact ⟨rfl, rfl, by simp [Machine.setEntry]⟩

theorem wlp_init (memoryMap : List MapEntry) :
    wlp (init env memoryMap)
      (fun _ k' => ∃ table, RetypeTable.new env memoryMap = .ok (some table) ∧
      k'.machine.retypeMap.length = table.length ∧ k'.machine.mem = k.machine.mem ∧
      k'.machine.cr3 = k.machine.cr3 ∧ k'.objects = k.objects ∧ k'.active = none) k := by
  refine wlp_seq (wlp_orPanic _) ?_
  rintro table k ⟨rfl, htable⟩
  refine wlp_seq (Q := fun t k' => k' = k ∧ table = some t) (wlp_onMachine fun t m' ht => ?_) ?_
  · cases table with
    | none => cases ht
    | some t' =>
      injection ht with h₁ h₂
      subst h₁ h₂
      exact ⟨rfl, rfl⟩
  · rintro t k ⟨rfl, rfl⟩
    refine wlp_seq (Q := fun _ k' => k'.machine.retypeMap.length = t.length ∧
      k'.machine.mem = k.machine.mem ∧ k'.machine.cr3 = k.machine.cr3 ∧ k'.objects = k.objects)
      (wlp_onMachine fun _ m' hm => ?_) ?_
    · obtain ⟨hmem, hcr3, hlength⟩ := wp_ok (wp_retypeInit t) hm
      exact ⟨hlength, hmem, hcr3, rfl⟩
    · rintro _ k₁ ⟨hlength, hmem, hcr3, hobjects⟩
      exact wlp_modify ⟨t, htable, hlength, hmem, hcr3, hobjects, rfl⟩

/-- A new object has one reference, and no other counter has changed. -/
theorem wlp_newCounted (frame : RawFrame) (o : Object) :
    wlp (newObject env x frame o) (fun r k' => ∀ p, r = .ok p →
      k'.machine.typing frame.number = some (.kernel, 1) ∧
        ∀ n, n ≠ frame.number → k'.machine.typing n = k.machine.typing n) k := by
  refine wlp_seq (Q := fun r k₁ => ∀ p, r = .ok p →
      k₁.machine.typing frame.number = some (.kernel, 1) ∧
        ∀ n, n ≠ frame.number → k₁.machine.typing n = k.machine.typing n) ?_ ?_
  · refine wlp_onMachine fun r m' hr p hp => ?_
    subst hp
    obtain ⟨e, e', he, _, hget, _, _, rfl⟩ := wp_ok (KPtr.wp_new env frame _ k.machine) hr
    refine ⟨?_, fun n hn => ?_⟩
    · show (k.machine.setEntry frame.number e').typing frame.number = _
      unfold Machine.typing
      rw [Machine.getElem?_setEntry_self e' he, Option.map_some, hget]
    · show (k.machine.setEntry frame.number e').typing n = _
      unfold Machine.typing
      rw [Machine.getElem?_setEntry_ne hn]
  · intro r k₁ h
    cases r with
    | error e =>
      refine wlp_seq (wlp_of_ok fun _ _ _ => trivial : wlp _ (fun _ _ => True) k₁) fun _ _ _ => ?_
      exact wlp_pure fun p hp => (nomatch hp)
    | ok p => exact wlp_seq (wlp_modify (h p rfl)) fun _ _ h => wlp_pure fun _ _ => h

/-- A new object, in a frame that was untyped, with one reference. -/
structure BootStored (env : Env) (k k' : Kernel) (frame : RawFrame) (p : KPtr) (o : Object) : Prop
    extends Stored env k k' frame p o where
  frame_aligned : frame.Aligned
  typing_self : k'.machine.typing frame.number = some (.kernel, 1)
  typing_ne : ∀ n, n ≠ frame.number → k'.machine.typing n = k.machine.typing n

theorem wlp_bootObject (a : BumpAllocator) {o : Object} (ho : o.Fresh) :
    wlp (bootObject env x a o) (fun r k' => ∃ frame, BootStored env k k' frame r.1 o) k := by
  refine wlp_seq (Q := fun r k' => k' = k ∧ ∀ f, r.1 = some f → f.Aligned)
    (wlp_onMachine fun r m' hr => ?_) ?_
  · have hfound := wp_ok (BumpAllocator.wp_allocUntypedFrame a) hr
    unfold BumpAllocator.Found at hfound
    cases hr1 : r.1 with
    | none =>
      rw [hr1] at hfound
      rw [show m' = k.machine from hfound]
      exact ⟨rfl, fun f hf => (nomatch hf)⟩
    | some f =>
      rw [hr1] at hfound
      obtain ⟨rfl, hal, _⟩ := hfound
      exact ⟨rfl, fun g hg => Option.some.inj hg ▸ hal⟩
  · rintro r k ⟨rfl, haligned⟩
    refine wlp_seq (Q := fun f k' => k' = k ∧ r.1 = some f) (wlp_onMachine fun f m' hf => ?_) ?_
    · cases hr1 : r.1 with
      | none =>
        rw [hr1] at hf
        cases hf
      | some g =>
        rw [hr1] at hf
        injection hf with h₁ h₂
        subst h₁ h₂
        exact ⟨rfl, rfl⟩
    · rintro frame k ⟨rfl, hframe⟩
      refine wlp_seq (wlp_and (wlp_newObject frame ho) (wlp_newCounted frame o)) ?_
      rintro r' k₁ ⟨hstored, hcounted⟩
      refine wlp_seq (Q := fun p k' => k' = k₁ ∧ r' = .ok p) (wlp_onMachine fun p m' hp => ?_) ?_
      · cases r' with
        | error e => cases hp
        | ok q =>
          injection hp with h₁ h₂
          subst h₁ h₂
          exact ⟨rfl, rfl⟩
      · rintro p k₁ ⟨rfl, rfl⟩
        obtain ⟨hself, hne⟩ := hcounted p rfl
        exact wlp_pure ⟨frame, hstored, haligned frame hframe, hself, hne⟩

/-- The first dispatch: nothing ran before. -/
structure FirstDispatch (env : Env) (k : Kernel) (this thread : KPtr) (ctx : ExecCtx)
    (k' : Kernel) : Prop where
  thread_eq : thread = this
  active : k'.active = some this
  objects : k'.objects = k.objects
  loaded : ∃ t, k.objects this = some (.thread t) ∧ ctx = t.execCtx
  machine : k.machine.Alike k'.machine
  counted : play Ref.step (counters env k) [.clone this] = some (counters env k')

theorem wp_bootDispatch {α : Type} {this : KPtr} (hactive : k.active = none)
    (hbacked : Backed env k this) :
    wp (Thread.dispatch env this .noop : CM α) (fun _ _ => False)
      (Leaves (FirstDispatch env k this)) k := by
  unfold Thread.dispatch
  rw [wp_bind, wp_get, hactive]
  have hclone : wlp (cloneHandle env this)
    (fun q k' => (q = this ∧ Traffic k k' (Pi.single this 1)) ∧
      play Ref.step (counters env k) [.clone this] = some (counters env k')) k := by
    refine wlp_and (wlp_cloneHandle this) (wlp_of_ok fun q k' hq => ?_)
    exact (counts_cloneHandle hbacked).play_eq hq
  refine (stays_cloneHandle this).wp_seq hclone ?_
  rintro q k₁ ⟨⟨rfl, h₁⟩, hcounted⟩
  rw [wp_bind, wp_modify]
  refine (stays_deref q).wp_seq (wlp_deref q) ?_
  rintro t k₂ ⟨rfl, ht⟩
  rw [h₁.objects] at ht
  exact ⟨rfl, rfl, h₁.objects, ⟨t, ht, rfl⟩, h₁.alike, hcounted⟩

theorem stays_bootObject (a : BumpAllocator) (o : Object) : Stays (bootObject env x a o) :=
  (Stays.onMachine _).bind fun _ => (Stays.onMachine _).bind fun frame =>
    (stays_newObject frame o).bind fun _ => (Stays.onMachine _).bind fun _ => .pure _

theorem wlp_intoExec {process : Process} {l4 : RawFrame}
    (hframe : process.l4Table.frame env = .ok l4) :
    wlp (process.intoExec env) (fun r k' => k' = k.adopt process.l4Table l4 ∧
      r = (.start (BitVec.ofNat 64 process.entry) (BitVec.ofNat 64 process.rsp), l4)) k := by
  unfold Process.intoExec KPtr.intoRaw
  refine wlp_seq (wlp_orPanic _) ?_
  rintro f k ⟨rfl, hf⟩
  obtain rfl := Except.ok.inj (hframe.symm.trans hf)
  exact wlp_seq (wlp_modify rfl) fun _ k' hk' => wlp_pure ⟨hk', rfl⟩

end Parts

/-! ## The objects at boot -/

section Stored

variable {env : Env} {k k' : Kernel} {frame : RawFrame} {p q : KPtr} {o : Object}

theorem Machine.stateOf_lt {m : Machine} {n : Nat} {st : State} (h : m.stateOf n = some st) :
    n < m.retypeMap.length := by
  unfold Machine.stateOf Machine.typing at h
  rw [Option.map_map] at h
  obtain ⟨e, he, _⟩ := Option.map_eq_some_iff.mp h
  exact (List.getElem?_eq_some_iff.mp he).1

theorem Machine.stateOf_of_typing {m : Machine} {n c : Nat} {st : State}
    (h : m.typing n = some (st, c)) : m.stateOf n = some st := by
  unfold Machine.stateOf
  rw [h]
  rfl

theorem BootStored.usable (h : BootStored env k k' frame p o) : frame.Usable env := by
  have hpoints := h.points
  have halign := h.aligned
  have hframe := h.frame_aligned
  have hlt := p.inner.lt
  unfold KPtr.Points at hpoints
  unfold RawFrame.Aligned at hframe
  refine ⟨?_, h.frame_aligned, ?_⟩
  · unfold RawFrame.Mapped
    omega
  · simp only [pageSize, frameSize] at *
    omega

theorem BootStored.retyped (h : BootStored env k k' frame p o) :
    k.machine.Retyped frame k'.machine :=
  ⟨h.frame_aligned, h.was_untyped, h.state_self, h.state, h.mem⟩

/-- The new object is not where a kernel frame was. -/
theorem BootStored.ne (h : BootStored env k k' frame p o) {f : RawFrame} (hq : q.Points env f)
    (hf : k.machine.stateOf f.number = some .kernel) : q ≠ p := by
  rintro rfl
  have hp := h.points
  unfold KPtr.Points at hp hq
  have hnumber : f.number = frame.number := by
    unfold RawFrame.number
    rw [show f.base.addr = frame.base.addr by omega]
  rw [hnumber, h.was_untyped] at hf
  cases hf

theorem BootStored.counter (h : BootStored env k k' frame p o) : counters env k' p = some 1 := by
  unfold counters
  simp only [KPtr.frame_of_points h.frame_aligned h.points, h.typing_self, Option.map_some]

theorem BootStored.counter_ne (h : BootStored env k k' frame p o) (hq : q ≠ p) :
    counters env k' q = counters env k q := by
  unfold counters
  cases hg : q.frame env with
  | error _ => rfl
  | ok g =>
    have hne : g.number ≠ frame.number := fun heq =>
      hq (KPtr.eq_of_number hg (KPtr.frame_of_points h.frame_aligned h.points) heq)
    simp only [h.typing_ne g.number hne]

end Stored

/-! ## The boot -/

/-- The boot process is about to run: its thread, on its address space, with an empty capability
table. -/
structure Booted (env : Env) (goblin : Goblin) (program : Program) (k : Kernel)
    (thread table : KPtr) : Prop where
  guarded : Guarded env k
  active : k.active = some thread
  started : k.objects thread = some (.thread
    ⟨.start (BitVec.ofNat 64 (goblin.header program.bytes).entry) 0x700000000000, k.machine.cr3,
      table⟩)
  empty : k.objects table = some (.capTable .default)
  threadCount : counters env k thread = some 2
  tableCount : counters env k table = some 1
  /-- The processor grants it what its image and its stack ask for. -/
  granted : ∃ limit, ∀ phdrs, phdrsOf goblin program = some phdrs →
    (∀ ph ∈ phdrs, ph.type = ptLoad → ph.Fits) → ∀ (a : Mmu.Access) (v : VirtAddr),
      Mmu.walk k.machine.mem a v.addr k.machine.cr3.base.addr ≠ none ↔
        Asked (.boot limit) phdrs a v.addr

section Boot

variable {env : Env} {goblin : Goblin} {program : Program} {x : Outside} {m : Machine}
  {memoryMap : List MapEntry}

/-- What the loader leaves for the boot. -/
structure BootLoaded (env : Env) (goblin : Goblin) (program : Program) (p : KPtr) (l4 : RawFrame)
    (m : Machine) : Prop where
  covered : Covered env m
  points : p.Points env l4
  kernel : m.stateOf l4.number = some .kernel
  enclosed : m.Enclosed l4
  granted : ∃ limit, ∀ phdrs, phdrsOf goblin program = some phdrs →
    (∀ ph ∈ phdrs, ph.type = ptLoad → ph.Fits) → ∀ (a : Mmu.Access) (v : VirtAddr),
      Mmu.walk m.mem a v.addr l4.base.addr ≠ none ↔ Asked (.boot limit) phdrs a v.addr

theorem Loaded.typed_before {args : LoadArgs} {m' m₀ : Machine} {proc : Process} {l4 : RawFrame}
    {phdrs : List ProgramHeader} {placed : List Placement}
    (h : Loaded env goblin program args m proc m' l4 m₀ phdrs placed) {n : Nat} {st : State}
    (hn : m'.stateOf n = some st) : ∃ st', m.stateOf n = some st' := by
  have hfirst : ∃ p, m₀.typing n = some p := by
    rcases h.placing.typing n with heq | ⟨hu, _⟩
    · unfold Machine.stateOf at hn
      rw [heq] at hn
      obtain ⟨p, hp, _⟩ := Option.map_eq_some_iff.mp hn
      exact ⟨p, hp⟩
    · exact ⟨_, hu⟩
  obtain ⟨p, hp⟩ := hfirst
  by_cases hl4 : n = l4.number
  · subst hl4
    exact ⟨.untyped, Machine.stateOf_of_typing h.space.was_untyped⟩
  · rcases h.space.others n hl4 with heq | ⟨_, c, _, hc, _⟩
    · exact ⟨p.1, Machine.stateOf_of_typing (heq.symm.trans hp)⟩
    · exact ⟨.kernel, Machine.stateOf_of_typing hc⟩

theorem wlp_any {ε σ α : Type} {y : EStateM ε σ α} {s : σ} : wlp y (fun _ _ => True) s :=
  wlp_of_ok fun _ _ _ => trivial

theorem wlp_readHeaders :
    wlp (readHeaders env goblin program) (fun r _ => r.1 = goblin.header program.bytes) m := by
  unfold readHeaders
  refine wlp_seq wlp_any fun _ _ _ => wlp_seq wlp_any fun _ _ _ => wlp_seq wlp_any fun _ _ _ =>
    wlp_seq wlp_any fun _ _ _ => ?_
  cases goblin.programHeaders program (goblin.header program.bytes).phoff
      (goblin.header program.bytes).phnum with
  | none => exact wlp_throw _
  | some phdrs => exact wlp_pure rfl

theorem wlp_load_start {args : LoadArgs} :
    wlp (Process.load env goblin program args) (fun process _ =>
      process.entry = (goblin.header program.bytes).entry ∧
      process.rsp = args.untypedMemoryOffset) m := by
  unfold Process.load
  refine wlp_seq wlp_any fun _ _ _ => wlp_seq wlp_any fun _ _ _ =>
    wlp_seq wlp_readHeaders fun r _ hr => wlp_seq wlp_any fun _ _ _ => wlp_pure ⟨?_, rfl⟩
  rw [hr]

theorem wlp_bootLoad {k : Kernel} {limit : Nat} (hlimit : limit ≤ 2 ^ 52)
    (hcovered : Covered env k.machine) (hboot : BootKernelOnly k.machine) :
    wlp (onMachine (Process.load env goblin program (.boot limit))) (fun process k' => ∃ l4,
      BootLoaded env goblin program process.l4Table l4 k'.machine ∧
      process.entry = (goblin.header program.bytes).entry ∧ process.rsp = 0x700000000000 ∧
      k'.objects = k.objects ∧ k'.active = k.active) k := by
  refine wlp_onMachine fun process m' hok => ?_
  have hfit := LoadArgs.boot_fit env hlimit
  obtain ⟨l4, m₀, phdrs, placed, h⟩ := wp_ok (wp_load hfit) hok
  have hno := h.noHuge hfit hok
  have hl4 : m'.typing l4.number = some (.kernel, 1) := by
    rcases h.placing.typing l4.number with heq | ⟨hu, _⟩
    · exact heq.trans h.space.typed
    · rw [h.space.typed] at hu
      exact absurd hu (by simp)
  refine ⟨l4, ⟨hcovered.of_state fun n st hn => h.typed_before hn, h.points,
    Machine.stateOf_of_typing hl4, h.enclosed hno hboot, limit, ?_⟩, ?_, ?_, rfl, rfl⟩
  · intro phdrs' hphdrs hfits
    obtain rfl := Option.some.inj (h.headers.symm.trans hphdrs)
    exact h.asked_iff hno hboot hfits
  · exact (wlp_ok wlp_load_start hok).1
  · exact (wlp_ok wlp_load_start hok).2

end Boot

/-- The boot up to the dispatch: the address space, the capability table and the thread. -/
structure BootChain (env : Env) (goblin : Goblin) (program : Program) (regs : Regs)
    (k k₁ k₂ : Kernel) (root table thread : KPtr) (l4 f g : RawFrame) : Prop where
  loaded : BootLoaded env goblin program root l4 k.machine
  bare : ∀ p, k.objects p = none
  inactive : k.active = none
  table_stored : BootStored env (k.adopt root l4) k₁ f table (.capTable .default)
  thread_stored : BootStored env k₁ k₂ g thread (.thread ⟨regs, l4, table⟩)

namespace BootChain

variable {env : Env} {goblin : Goblin} {program : Program} {regs : Regs} {k k₁ k₂ k' : Kernel}
  {root table thread : KPtr} {l4 f g : RawFrame} {x : Outside}

theorem keeps (h : BootChain env goblin program regs k k₁ k₂ root table thread l4 f g) :
    k.machine.Keeps k₂.machine :=
  h.table_stored.retyped.keeps.trans h.thread_stored.retyped.keeps

theorem l4_usable (h : BootChain env goblin program regs k k₁ k₂ root table thread l4 f g) :
    l4.Usable env := by
  have hpoints := h.loaded.points
  have hlt := root.inner.lt
  unfold KPtr.Points at hpoints
  refine ⟨?_, h.loaded.enclosed.aligned, h.table_stored.usable.pmo_aligned⟩
  unfold RawFrame.Mapped
  omega

theorem table_kernel (h : BootChain env goblin program regs k k₁ k₂ root table thread l4 f g) :
    k₂.machine.stateOf f.number = some .kernel :=
  h.thread_stored.retyped.keeps.kernel _ h.table_stored.state_self

theorem root_ne_table (h : BootChain env goblin program regs k k₁ k₂ root table thread l4 f g) :
    root ≠ table :=
  h.table_stored.ne h.loaded.points h.loaded.kernel

theorem root_ne_thread (h : BootChain env goblin program regs k k₁ k₂ root table thread l4 f g) :
    root ≠ thread :=
  h.thread_stored.ne h.loaded.points (h.table_stored.retyped.keeps.kernel _ h.loaded.kernel)

theorem table_ne_thread (h : BootChain env goblin program regs k k₁ k₂ root table thread l4 f g) :
    table ≠ thread :=
  h.thread_stored.ne h.table_stored.points h.table_stored.state_self

theorem at_thread (h : BootChain env goblin program regs k k₁ k₂ root table thread l4 f g) :
    k₂.objects thread = some (.thread ⟨regs, l4, table⟩) := by
  rw [h.thread_stored.objects, Function.update_self]

theorem at_table (h : BootChain env goblin program regs k k₁ k₂ root table thread l4 f g) :
    k₂.objects table = some (.capTable .default) := by
  rw [h.thread_stored.objects, Function.update_of_ne h.table_ne_thread, h.table_stored.objects,
    Function.update_self]

theorem at_root (h : BootChain env goblin program regs k k₁ k₂ root table thread l4 f g) :
    ∃ words, k₂.objects root = some (.pageTable 4 words) := by
  rw [h.thread_stored.objects, Function.update_of_ne h.root_ne_thread, h.table_stored.objects,
    Function.update_of_ne h.root_ne_table]
  exact ⟨_, Function.update_self ..⟩

/-- There are three objects. -/
theorem object_cases (h : BootChain env goblin program regs k k₁ k₂ root table thread l4 f g)
    {p : KPtr} {o : Object} (hp : k₂.objects p = some o) :
    p = thread ∧ o = .thread ⟨regs, l4, table⟩ ∨ p = table ∧ o = .capTable .default ∨
      p = root ∧ ∃ words, o = .pageTable 4 words := by
  rw [h.thread_stored.objects] at hp
  rcases update_eq_some hp with ⟨rfl, rfl⟩ | ⟨_, hp⟩
  · exact .inl ⟨rfl, rfl⟩
  rw [h.table_stored.objects] at hp
  rcases update_eq_some hp with ⟨rfl, rfl⟩ | ⟨_, hp⟩
  · exact .inr (.inl ⟨rfl, rfl⟩)
  rcases update_eq_some hp with ⟨rfl, rfl⟩ | ⟨_, hp⟩
  · exact .inr (.inr ⟨rfl, _, rfl⟩)
  · rw [h.bare p] at hp
    cases hp

theorem covered (h : BootChain env goblin program regs k k₁ k₂ root table thread l4 f g) :
    Covered env k₂.machine := by
  have hback : ∀ {m m' : Machine} {frame : RawFrame}, m.Retyped frame m' → Covered env m →
      Covered env m' := by
    intro m m' frame hr hm
    refine hm.of_state fun n st hn => ?_
    rcases hr.state_cases n with heq | ⟨hu, _⟩
    · exact ⟨st, heq.symm.trans hn⟩
    · exact ⟨_, hu⟩
  exact hback h.thread_stored.retyped (hback h.table_stored.retyped h.loaded.covered)

theorem home (h : BootChain env goblin program regs k k₁ k₂ root table thread l4 f g)
    {p : KPtr} {o : Object} (hp : k₂.objects p = some o) : InKernelFrame env k₂.machine p := by
  rcases h.object_cases hp with ⟨rfl, _⟩ | ⟨rfl, _⟩ | ⟨rfl, _⟩
  · exact ⟨g, h.thread_stored.usable, h.thread_stored.points, h.thread_stored.state_self⟩
  · exact ⟨f, h.table_stored.usable, h.table_stored.points, h.table_kernel⟩
  · exact ⟨l4, h.l4_usable, h.loaded.points, h.keeps.kernel _ h.loaded.kernel⟩

theorem typed (h : BootChain env goblin program regs k k₁ k₂ root table thread l4 f g)
    {p : KPtr} {o : Object} (hp : k₂.objects p = some o) : o.Typed env (kindsOf k₂.objects) := by
  rcases h.object_cases hp with ⟨_, rfl⟩ | ⟨_, rfl⟩ | ⟨_, _, rfl⟩
  · obtain ⟨words, hroot⟩ := h.at_root
    exact ⟨kindsOf_capTable.mpr ⟨_, h.at_table⟩, root,
      KPtr.frame_of_points h.l4_usable.aligned h.loaded.points,
      kindsOf_pageTable.mpr ⟨4, words, hroot⟩⟩
  · exact fun s => ⟨fun c hc => (nomatch hc), trivial⟩
  · trivial

/-- The three objects, once the thread runs. -/
theorem guarded (h : BootChain env goblin program regs k k₁ k₂ root table thread l4 f g)
    (hobjects : k'.objects = k₂.objects) (hactive : k'.active = some thread)
    (hmem : k'.machine.mem = k₂.machine.mem)
    (hstate : ∀ n, k'.machine.stateOf n = k₂.machine.stateOf n) (hcr3 : k'.machine.cr3 = l4) :
    Guarded env k' := by
  have hsame : k₂.machine.Keeps k'.machine :=
    ⟨fun a _ => congrFun hmem a, fun n hn => (hstate n).trans hn, fun n => by rw [hstate n]⟩
  have hl4 : k'.machine.Enclosed l4 := (h.keeps.trans hsame).enclosed h.loaded.enclosed
  refine ⟨⟨h.covered.same hstate, fun p o hp => ?_, fun p o hp => ?_, thread, hactive, ?_⟩, ?_, ?_⟩
  · rw [hobjects] at hp
    obtain ⟨frame, husable, hpoints, hkernel⟩ := h.home hp
    exact ⟨frame, husable, hpoints, (hstate _).trans hkernel⟩
  · rw [hobjects] at hp ⊢
    exact h.typed hp
  · rw [hobjects]
    exact kindsOf_thread.mpr ⟨_, h.at_thread⟩
  · rw [hcr3]
    exact hl4
  · intro p o hp
    rw [hobjects] at hp
    rcases h.object_cases hp with ⟨_, rfl⟩ | ⟨_, rfl⟩ | ⟨rfl, _, rfl⟩
    · show k'.machine.Enclosed (Thread.execCtx _).root
      rw [Thread.root_execCtx h.l4_usable.aligned]
      exact hl4
    · trivial
    · intro frame husable hpoints
      obtain rfl := Except.ok.inj ((KPtr.frame_of_points husable.aligned hpoints).symm.trans
        (KPtr.frame_of_points h.l4_usable.aligned h.loaded.points))
      exact hl4

/-- **The boot process is about to run.** -/
theorem booted {this : KPtr} {ctx : ExecCtx}
    (h : BootChain env goblin program
      (.start (BitVec.ofNat 64 (goblin.header program.bytes).entry) 0x700000000000)
      k k₁ k₂ root table thread l4 f g)
    (hd : FirstDispatch env k₂ thread this ctx k') :
    Booted env goblin program (k'.enter ctx) thread table := by
  obtain ⟨t, ht, hctx⟩ := hd.loaded
  obtain rfl := Object.thread.inj (Option.some.inj (h.at_thread.symm.trans ht))
  have hcr3 : (k'.enter ctx).machine.cr3 = l4 := by
    rw [hctx]
    exact Thread.root_execCtx h.l4_usable.aligned
  have hcount : counters env (k'.enter ctx) =
      Function.update (counters env k₂) thread (some 2) := by
    have hplay := hd.counted
    rw [play_singleton] at hplay
    simp only [Ref.step, h.thread_stored.counter] at hplay
    exact (Option.some.inj hplay).symm
  have hwalk : ∀ a v, Mmu.walk k'.machine.mem a v l4.base.addr =
      Mmu.walk k.machine.mem a v l4.base.addr := by
    rw [hd.machine.mem]
    exact h.keeps.walk h.loaded.enclosed
  refine ⟨h.guarded hd.objects hd.active hd.machine.mem hd.machine.state hcr3, hd.active,
    ?_, ?_, ?_, ?_, ?_⟩
  · rw [hcr3]
    exact (congrFun hd.objects thread).trans h.at_thread
  · exact (congrFun hd.objects table).trans h.at_table
  · rw [hcount, Function.update_self]
  · rw [hcount, Function.update_of_ne h.table_ne_thread,
      h.thread_stored.counter_ne h.table_ne_thread, h.table_stored.counter]
  · obtain ⟨limit, hgranted⟩ := h.loaded.granted
    refine ⟨limit, fun phdrs hphdrs hfits a v => ?_⟩
    rw [hcr3]
    exact (iff_of_eq (congrArg (· ≠ none) (hwalk a v.addr))).trans (hgranted phdrs hphdrs hfits a v)

end BootChain

section Kmain

variable {env : Env} {goblin : Goblin} {program : Program} {x : Outside} {m : Machine}
  {memoryMap : List MapEntry}

theorem stays_init : Stays (init env memoryMap) :=
  (Stays.onMachine _).bind fun _ => (Stays.onMachine _).bind fun _ =>
    (Stays.onMachine _).bind fun _ => .modify _

theorem stays_intoExec (process : Process) : Stays (process.intoExec env) :=
  (Stays.onMachine _).bind fun _ => (Stays.modify _).bind fun _ => .pure _

/-- `kmain` ends in a panic or in the boot process. -/
theorem wp_kmain (hcovers : DirectMapCovers env memoryMap) (hboot : BootKernelOnly m) :
    wp (kmain env goblin program x memoryMap) (fun _ _ => False)
      (Leaves fun thread ctx k' => ∃ table, Booted env goblin program (k'.enter ctx) thread table)
      (Kernel.atBoot m) := by
  unfold kmain
  refine stays_init.wp_seq (wlp_init memoryMap) ?_
  rintro _ k ⟨retypes, hnew, hlength, hmem, hcr3, hobjects, hactive⟩
  have hfits := hcovers retypes hnew
  have hhigh := env.pmo_high
  have hsmall : k.machine.retypeMap.length * frameSize ≤ 2 ^ 47 := by
    rw [hlength]
    omega
  have hcovered : Covered env k.machine := by
    intro n st hn
    have hlt := Machine.stateOf_lt hn
    rw [hlength] at hlt
    have hle : (n + 1) * frameSize ≤ retypes.length * frameSize := Nat.mul_le_mul_right _ hlt
    omega
  have hbootk : BootKernelOnly k.machine := by
    unfold BootKernelOnly
    rw [hmem, hcr3]
    exact hboot
  refine (Stays.onMachine _).wp_seq wlp_memoryLimit ?_
  rintro limit k ⟨rfl, hlimit⟩
  have hlimit' : limit ≤ 2 ^ 52 := by
    rw [Env.mul_of_lt env (by omega)] at hlimit
    obtain rfl := Except.ok.inj hlimit
    omega
  refine (Stays.onMachine _).wp_seq (wlp_bootLoad hlimit' hcovered hbootk) ?_
  rintro process k₀ ⟨l4, hloaded, hentry, hrsp, hobjects₀, hactive₀⟩
  have hframe := KPtr.frame_of_points hloaded.enclosed.aligned hloaded.points
  refine (stays_intoExec process).wp_seq (wlp_intoExec hframe) ?_
  rintro _ _ ⟨rfl, rfl⟩
  refine (stays_bootObject _ _).wp_seq (wlp_bootObject .new (o := .capTable .default) rfl) ?_
  rintro ⟨table, a⟩ k₁ ⟨f, htable⟩
  refine (stays_bootObject _ _).wp_seq (wlp_bootObject a (o := .thread _) trivial) ?_
  rintro ⟨thread, a'⟩ k₂ ⟨g, hthread⟩
  rw [hentry, hrsp] at hthread
  have hchain : BootChain env goblin program _ k₀ k₁ k₂ process.l4Table table thread l4 f g :=
    ⟨hloaded, fun p => by rw [hobjects₀, hobjects]; rfl, hactive₀.trans hactive, htable, hthread⟩
  have hidle : k₂.active = none :=
    hthread.active.trans (htable.active.trans hchain.inactive)
  have hbacked : Backed env k₂ thread :=
    ⟨g, hthread.usable, hthread.points, _, hthread.state_self⟩
  refine wp_mono (wp_bootDispatch hidle hbacked) (fun _ _ h => h) fun stop k' hstop => ?_
  cases stop with
  | panic p => trivial
  | dispatched this ctx =>
    have hthis : this = thread := hstop.thread_eq
    subst hthis
    exact ⟨table, hchain.booted hstop⟩

/-- **`kmain` boots.** Where it reaches user mode, the boot process is about to run at its entry
point with an empty capability table, and the processor grants it exactly what its image and its
stack ask for. -/
theorem kmain_boots {thread : KPtr} {ctx : ExecCtx} {k : Kernel}
    (hcovers : DirectMapCovers env memoryMap) (hboot : BootKernelOnly m)
    (h : kmain env goblin program x memoryMap (Kernel.atBoot m) =
      .error (.dispatched thread ctx) k) :
    ∃ table, Booted env goblin program (k.enter ctx) thread table :=
  (wp_stop (wp_kmain hcovers hboot) h :)

end Kmain

theorem bootedMap_covered : DirectMapCovers Env.dev bootedMap := by
  intro table htable
  obtain rfl := Option.some.inj (Except.ok.inj (bootedSpace_new.symm.trans htable))
  decide

theorem kmain_dispatches : ∃ thread ctx k, kmain Env.dev (.always [smallSegment]) smallProgram .free
    bootedMap (Kernel.atBoot bootedSpace) = .error (.dispatched thread ctx) k := by
  have hrun : wp (kmain Env.dev (.always [smallSegment]) smallProgram .free bootedMap)
      (fun _ _ => False) (fun e _ => e.loaded.isSome = true) (Kernel.atBoot bootedSpace) := by
    decide +kernel
  obtain ⟨e, k, hk, he⟩ := exists_stop_of_wp hrun
  cases e with
  | panic p => cases he
  | dispatched thread ctx => exact ⟨thread, ctx, k, hk⟩

theorem kmain_boots_small : ∃ thread ctx k table,
    kmain Env.dev (.always [smallSegment]) smallProgram .free bootedMap
      (Kernel.atBoot bootedSpace) =
      .error (.dispatched thread ctx) k ∧
    Booted Env.dev (.always [smallSegment]) smallProgram (k.enter ctx) thread table := by
  obtain ⟨thread, ctx, k, hk⟩ := kmain_dispatches
  obtain ⟨table, hbooted⟩ := kmain_boots bootedMap_covered bootedSpace_kernelOnly hk
  exact ⟨thread, ctx, k, table, hk, hbooted⟩

/-- **From boot on, user code is confined to `User` frames**, over every run in which it stores
wherever the processor lets it and enters the kernel with any system calls. -/
theorem user_code_confined {env : Env} {goblin : Goblin} {program : Program} {x : Outside}
    {m : Machine}
    {memoryMap : List MapEntry} {thread : KPtr} {ctx : ExecCtx} {k k' : Kernel} {as : List Action}
    (hcovers : DirectMapCovers env memoryMap) (hboot : BootKernelOnly m)
    (h : kmain env goblin program x memoryMap (Kernel.atBoot m) = .error (.dispatched thread ctx) k)
    (hrun : Run (Acts env) (k.enter ctx) as k') :
    Guarded env k' ∧ Confined env (k.enter ctx) as k' := by
  obtain ⟨_, hbooted⟩ := (wp_stop (wp_kmain hcovers hboot) h :)
  exact hbooted.guarded.confined hrun

/-- The first store is to the top page of the stack. -/
theorem user_code_confined_push : ∃ thread ctx k k',
    kmain Env.dev (.always [smallSegment]) smallProgram .free bootedMap
      (Kernel.atBoot bootedSpace) =
      .error (.dispatched thread ctx) k ∧
    Run (Acts Env.dev) (k.enter ctx) [.store 0x6ffffffff000 7] k' ∧
    Guarded Env.dev k' ∧ Confined Env.dev (k.enter ctx) [.store 0x6ffffffff000 7] k' := by
  obtain ⟨thread, ctx, k, hk⟩ := kmain_dispatches
  obtain ⟨_, hbooted⟩ := (wp_stop (wp_kmain bootedMap_covered bootedSpace_kernelOnly) hk :)
  obtain ⟨limit, hgranted⟩ := hbooted.granted
  have hwalk := (hgranted _ rfl (by simp [ProgramHeader.Fits, smallSegment]) .write
    ⟨0x6ffffffff000, by decide⟩).mpr
    (.stack (i := 0) (Nat.succ_pos 9) rfl (by decide))
  obtain ⟨y, hy⟩ := Option.ne_none_iff_exists'.mp hwalk
  have hrun : Run (Acts Env.dev) (k.enter ctx) [.store 0x6ffffffff000 7] ((k.enter ctx).poke y 7) :=
    .cons (.store hy) (.nil _)
  exact ⟨thread, ctx, k, _, hk, hrun,
    user_code_confined bootedMap_covered bootedSpace_kernelOnly hk hrun⟩

end Harmony
