import Harmony.Boot.Enclosure
import Harmony.Caps.Typing

/-!
# User code and the kernel together

The system as it runs: user code writes to memory as far as the processor lets it, and enters the
kernel with system calls of any words, in any order. The processor goes by tables that lie in
memory, so what user code could write decides what it can reach. It cannot write them: `Guarded`
says that on every page table a thread has or can be given, and on the one in CR3, user code reads
its tables in kernel frames and reaches `User` frames only. No step of either side breaks this.

* `Filled`: a page table the kernel constructs is, in memory, empty or the kernel half of the table
  in CR3.
* `Machine.Keeps`: what every step leaves alone.
* `UserWrites`: the bytes user code writes in a run, and where.
* `Guarded.confined`: over every run.
-/

namespace Harmony

open Lib

/-! ## New page tables -/

/-- The words of the table behind `p` are zero, or those of the table in CR3 before. -/
def TableWords (env : Env) (m m' : Machine) (p : KPtr) : Prop :=
  ∀ f, p.Points env f → ∀ i < 512, load64 m'.mem (f.base.addr + 8 * i) = 0 ∨
    load64 m'.mem (f.base.addr + 8 * i) = load64 m.mem (m.cr3.base.addr + 8 * i)

/-- A page table that was not there before is empty, or the kernel half of the table in CR3. -/
def Filled (env : Env) (k k' : Kernel) : Prop :=
  ∀ p level table, k'.objects p = some (.pageTable level table) →
    k.objects p = some (.pageTable level table) ∨ TableWords env k.machine k'.machine p

section Filled

variable {env : Env} {x : Outside} {k k' k₁ k₂ : Kernel} {d d' : KPtr → Int} {p self : KPtr}
  {t : Thread}

theorem Filled.of_objects (h : k'.objects = k.objects) : Filled env k k' := by
  intro p level table hp
  rw [h] at hp
  exact .inl hp

theorem Filled.of_traffic (h₁ : Traffic k k₁ d) (h : Filled env k₁ k₂) (h₂ : Traffic k₂ k' d') :
    Filled env k k' := by
  intro p level table hp
  rw [h₂.objects] at hp
  have hfilled := h p level table hp
  unfold TableWords at hfilled ⊢
  rwa [h₁.objects, h₁.mem, h₁.cr3, ← h₂.mem] at hfilled

/-- An object that is no page table. -/
theorem Filled.update {o : Object} (hobjects : k'.objects = Function.update k.objects p (some o))
    (ho : ∀ level table, o ≠ .pageTable level table) : Filled env k k' := by
  intro q level table hq
  rw [hobjects] at hq
  rcases update_eq_some hq with ⟨_, rfl⟩ | ⟨_, hold⟩
  · exact absurd rfl (ho level table)
  · exact .inl hold

theorem Filled.relinked {table : KPtr} {s : SlotId numSlots} {child : Option KPtr}
    (h : Relinked k k' table s child) : Filled env k k' := by
  obtain ⟨slots, _, ht⟩ := h
  exact .update ht.objects (by simp)

theorem Filled.departs {thread : KPtr} (h : Departs x k thread k') : Filled env k k' := by
  obtain ⟨_, _, _, _, _, _, _, _, t, _, hobjects⟩ := h.activated
  exact .update hobjects (by simp)

/-- A page table in memory, word for word. -/
theorem wlp_newTable (frame : RawFrame) (level : BitVec 8) (table : AnyPageTable) :
    wlp (newObject env x frame (.pageTable level table)) (fun r k' => ∀ p, r = .ok p →
      ∀ i < 512, load64 k'.machine.mem (frame.base.addr + 8 * i) = table i) k := by
  refine wlp_seq (Q := fun r k₁ => ∀ p, r = .ok p →
    ∀ i < 512, load64 k₁.machine.mem (frame.base.addr + 8 * i) = table i) ?_ ?_
  · refine wlp_onMachine fun r m' hr p hp => ?_
    subst hp
    obtain ⟨e, e', _, _, _, _, _, rfl⟩ := wp_ok (KPtr.wp_new env frame _ k.machine) hr
    exact fun i hi => load64_table _ _ table hi
  · intro r k₁ h
    cases r with
    | error e => exact wlp_pure fun p hp => (nomatch hp)
    | ok p => exact wlp_seq (wlp_modify (h p rfl)) fun _ _ h => wlp_pure fun _ _ => h

/-- The object stored is a page table as it should be. -/
theorem Filled.stored {frame : RawFrame} {level : BitVec 8} {table : AnyPageTable}
    (hs : Stored env k k' frame p (.pageTable level table))
    (hmem : ∀ i < 512, load64 k'.machine.mem (frame.base.addr + 8 * i) = table i)
    (hwords : ∀ i < 512, table i = 0 ∨
      table i = load64 k.machine.mem (k.machine.cr3.base.addr + 8 * i)) : Filled env k k' := by
  intro q level' table' hq
  rw [hs.objects] at hq
  rcases update_eq_some hq with ⟨rfl, _⟩ | ⟨_, hold⟩
  · right
    intro f hf i hi
    have hbase : f.base.addr = frame.base.addr := by
      have hframe := hs.points
      unfold KPtr.Points at hf hframe
      omega
    rw [hbase, hmem i hi]
    exact hwords i hi
  · exact .inl hold

theorem kernelHalf_words (mem : Mem) (table i : Nat) :
    kernelHalf mem table i = 0 ∨ kernelHalf mem table i = load64 mem (table + 8 * i) := by
  unfold kernelHalf
  split_ifs
  · exact .inr rfl
  · exact .inl rfl

/-- A page table stored after some traffic. -/
theorem wlp_newTable_filled (h₁ : Traffic k k₁ d) (frame : RawFrame) (level : BitVec 8)
    {table : AnyPageTable} (hwords : ∀ i < 512, table i = 0 ∨
      table i = load64 k₁.machine.mem (k₁.machine.cr3.base.addr + 8 * i)) :
    wlp (newObject env x frame (.pageTable level table)) (fun _ k' => Filled env k k') k₁ := by
  refine wlp_mono (wlp_and (wlp_newObject frame trivial) (wlp_newTable frame level table)) ?_
  rintro r k₂ ⟨hr, hmem⟩
  cases r with
  | error e =>
    have hdropped : Traffic k₁ k₂ (-ofObject (.pageTable level table)) := hr
    exact .of_objects (hdropped.objects.trans h₁.objects)
  | ok p => exact (Filled.stored hr (hmem p rfl) hwords).of_traffic h₁ (Traffic.refl k₂)

theorem wlp_buildPageTable_filled (frame : RawFrame) (level : BitVec 8) :
    wlp (Thread.build env x self frame (.pageTable level)) (fun _ k' => Filled env k k') k := by
  simp only [Thread.build]
  by_cases hlevel : 4 < level ∨ level = 0
  · simp only [if_pos hlevel]
    exact wlp_pure (.of_objects rfl)
  simp only [if_neg hlevel]
  split
  · refine wlp_seq wlp_cloneKernel ?_
    rintro table k₁ ⟨rfl, h₁⟩
    refine wlp_seq (wlp_newTable_filled h₁ frame level fun i _ => ?_) fun r k₂ hfilled => ?_
    · rw [h₁.mem, h₁.cr3]
      exact kernelHalf_words _ _ i
    · cases r <;> exact wlp_pure hfilled
  · refine wlp_seq (wlp_pure ⟨rfl, Traffic.refl k⟩ :
      wlp _ (fun table k₁ => table = .new ∧ Traffic k k₁ 0) k) ?_
    rintro table k₁ ⟨rfl, h₁⟩
    refine wlp_seq (wlp_newTable_filled h₁ frame level fun _ _ => .inl rfl) fun r k₂ hfilled => ?_
    cases r <;> exact wlp_pure hfilled

theorem wlp_build_filled (ht : k.objects self = some (.thread t)) (frame : RawFrame)
    (kind : ConstructArgs) :
    wlp (Thread.build env x self frame kind) (fun _ k' => Filled env k k') k := by
  -- the other two kinds build no page table
  have hother : ∀ kind, (∀ level, kind ≠ .pageTable level) →
      wlp (Thread.build env x self frame kind) (fun _ k' => Filled env k k') k := by
    intro kind hkind
    refine wlp_mono (wlp_build ht frame kind) fun r k' hr => ?_
    cases r with
    | error e => exact .of_objects hr.2.objects
    | ok resource =>
      obtain ⟨p, o, d, k₁, hbuilds, h₁, hs⟩ := hr
      have hobjects := hs.objects
      rw [h₁.objects] at hobjects
      refine .update hobjects ?_
      cases kind with
      | capTable =>
        obtain ⟨rfl, _⟩ := hbuilds
        simp
      | thread entry stackPointer capTable pageTable =>
        obtain ⟨_, _, _, _, _, _, _, _, rfl, _⟩ := hbuilds
        simp
      | pageTable level => exact absurd rfl (hkind level)
  cases kind with
  | pageTable level => exact wlp_buildPageTable_filled frame level
  | capTable => exact hother .capTable (by simp)
  | thread entry stackPointer capTable pageTable => exact hother (.thread _ _ _ _) (by simp)

theorem wlp_onCapTable_filled (ht : k.objects self = some (.thread t)) (table : KPtr)
    (op : CapTableOp numSlots) :
    wlp (Thread.onCapTable env x self table op) (fun _ k' => Filled env k k') k := by
  have hrelink : ∀ s other, wlp (Thread.onCapTable env x self table (.relink s other))
      (fun _ k' => Filled env k k') k := by
    intro s other
    refine wlp_mono (wlp_relinkOp ht table s other) fun r k' hr => ?_
    cases r with
    | error e => exact .of_objects hr.2.objects
    | ok n =>
      obtain ⟨_, c, _, hdone⟩ := hr
      exact .relinked hdone
  cases op with
  | link s other => exact hrelink s (some other)
  | unlink s => exact hrelink s none
  | drop s => exact wlp_throw _
  | copy s other otherSlot => exact wlp_throw _
  | construct kind region s =>
    refine wlp_seq (wlp_region self region) ?_
    rintro r k ⟨rfl, _⟩
    cases r with
    | error e => exact wlp_pure (.of_objects rfl)
    | ok frame =>
      refine wlp_seq (wlp_build_filled ht frame kind) fun r k₁ hfilled => ?_
      cases r with
      | error e => exact wlp_pure hfilled
      | ok resource =>
        have hbody : ∀ (slot : CapSlot) (k₁ : Kernel),
            wlp (do dropResource env slot.resource; pure (slot.withResource resource) : CM CapSlot)
              (fun slot' k₂ => slot' = slot.withResource resource ∧
                Traffic k₁ k₂ (-ofOption slot.resource.ptr)) k₁ :=
          fun slot k₁ => wlp_seq (wlp_dropResource slot.resource) fun _ k₂ h => wlp_pure ⟨rfl, h⟩
        refine wlp_seq (wlp_change hbody) ?_
        rintro _ k₂ ⟨slots, hslots, h₂⟩
        refine wlp_pure fun q level tb hq => ?_
        rw [h₂.objects] at hq
        rcases update_eq_some hq with ⟨_, htable⟩ | ⟨_, hold⟩
        · cases htable
        · have hwords := hfilled q level tb hold
          unfold TableWords at hwords ⊢
          rwa [h₂.mem]

/-- **A page table a system call made** is empty, or the kernel half of the table in CR3. -/
theorem SystemCall.filled {c : SystemCall} (h : c.Ends env k k') : Filled env k k' := by
  have hcall : wp (handle env c.outside c.a c.op) (fun _ k' => Filled env k k')
      (Leaves fun _ ctx k' => Filled env k (k'.enter ctx)) k := by
    refine wp_handle_around (Filled env) (Filled env) (fun k => .of_objects rfl)
      (fun h₁ h h₂ => h.of_traffic h₁ h₂) (fun h₁ h => h.of_traffic h₁ (Traffic.refl _)) ?_
    intro k self cap hself
    unfold wp
    cases hrun : Thread.exerciseCap env c.outside self cap c.op k with
    | error e k' =>
      cases e with
      | panic p => trivial
      | dispatched thread ctx =>
        exact .departs (wp_stop (wp_exerciseDeparts hself cap c.op) hrun :)
    | ok r k' =>
      cases hop : c.op with
      | thread op =>
        obtain ⟨d, hd⟩ := wlp_ok (wlp_exerciseOther self cap (by rw [hop]; rfl)) hrun
        exact .of_objects hd.objects
      | invalid =>
        obtain ⟨d, hd⟩ := wlp_ok (wlp_exerciseOther self cap (by rw [hop]; rfl)) hrun
        exact .of_objects hd.objects
      | capTable op =>
        rw [hop] at hrun
        obtain ⟨t, ht, ⟨_, _, _, _, hsame⟩ | ⟨table, d, k₁, k₂, _, h₁, hdone, h₂⟩⟩ :=
          wlp_ok (exerciseCap_capTable self cap op) hrun
        · exact .of_objects hsame.objects
        · rw [← h₁.objects] at ht
          exact (wlp_ok (wlp_onCapTable_filled ht table op) hdone).of_traffic h₁ h₂
  cases h with
  | returned h => exact (wp_ok hcall h :)
  | dispatched h => exact (wp_stop hcall h :)

end Filled

/-! ## What every step leaves alone -/

/-- Kernel frames keep their bytes, `User` frames stay the same ones, and no kernel frame becomes
anything else. -/
structure Machine.Keeps (m m' : Machine) : Prop where
  mem : ∀ x, m.stateOf (x / frameSize) = some .kernel → m'.mem x = m.mem x
  kernel : ∀ n, m.stateOf n = some .kernel → m'.stateOf n = some .kernel
  user : ∀ n, m'.stateOf n = some .user ↔ m.stateOf n = some .user

section Keeps

variable {env : Env} {m m' m'' : Machine} {k k' : Kernel} {root : RawFrame}

theorem Machine.Keeps.refl (m : Machine) : m.Keeps m :=
  ⟨fun _ _ => rfl, fun _ h => h, fun _ => Iff.rfl⟩

theorem Machine.Keeps.trans (h : m.Keeps m') (h' : m'.Keeps m'') : m.Keeps m'' where
  mem x hx := (h'.mem x (h.kernel _ hx)).trans (h.mem x hx)
  kernel n hn := h'.kernel n (h.kernel n hn)
  user n := (h'.user n).trans (h.user n)

theorem Machine.Keeps.enclosed (h : m.Keeps m') (hroot : m.Enclosed root) : m'.Enclosed root :=
  hroot.congr h.mem h.kernel fun n => (h.user n).mpr

/-- **An address space stays what it is.** -/
theorem Machine.Keeps.walk (h : m.Keeps m') (hroot : m.Enclosed root) (a : Mmu.Access) (v : Nat) :
    Mmu.walk m'.mem a v root.base.addr = Mmu.walk m.mem a v root.base.addr :=
  (hroot.within.walk_congr hroot.aligned h.mem a v).1

/-- An untyped frame has become a kernel frame and may have been written. -/
structure Machine.Retyped (m : Machine) (frame : RawFrame) (m' : Machine) : Prop where
  aligned : frame.Aligned
  was_untyped : m.stateOf frame.number = some .untyped
  state_self : m'.stateOf frame.number = some .kernel
  state : ∀ n, n ≠ frame.number → m'.stateOf n = m.stateOf n
  mem : ∀ x, ¬ frame.Covers x → m'.mem x = m.mem x

section Retyped

variable {frame : RawFrame} {p table : KPtr} {o : Object} {s : SlotId numSlots}
  {resource : Resource} {d : KPtr → Int}

theorem Machine.Retyped.mem_of_typed (h : m.Retyped frame m') {x : Nat}
    (hx : m.stateOf (x / frameSize) ≠ some .untyped) : m'.mem x = m.mem x := by
  refine h.mem x fun hcovers => hx ?_
  have hnumber : x / frameSize = frame.number := by
    unfold RawFrame.Covers at hcovers
    rw [h.aligned.base_eq] at hcovers
    simp only [frameSize, pageSize] at *
    omega
  rw [hnumber, h.was_untyped]

theorem Machine.Retyped.state_cases (h : m.Retyped frame m') (n : Nat) :
    m'.stateOf n = m.stateOf n ∨ m.stateOf n = some .untyped ∧ m'.stateOf n = some .kernel := by
  by_cases hn : n = frame.number
  · subst hn
    exact .inr ⟨h.was_untyped, h.state_self⟩
  · exact .inl (h.state n hn)

/-- What becomes a kernel frame, and is written, was untyped. -/
theorem Machine.Keeps.of_untyped
    (hmem : ∀ x, m.stateOf (x / frameSize) ≠ some .untyped → m'.mem x = m.mem x)
    (hstate : ∀ n, m'.stateOf n = m.stateOf n ∨
      m.stateOf n = some .untyped ∧ m'.stateOf n = some .kernel) : m.Keeps m' where
  mem x hx := hmem x (by rw [hx]; simp)
  kernel n hn := by
    rcases hstate n with heq | ⟨_, hkernel⟩
    · exact heq.trans hn
    · exact hkernel
  user n := by
    rcases hstate n with heq | ⟨huntyped, hkernel⟩
    · rw [heq]
    · rw [huntyped, hkernel]
      simp

theorem Machine.Retyped.keeps (h : m.Retyped frame m') : m.Keeps m' :=
  .of_untyped (fun _ => h.mem_of_typed) h.state_cases

theorem Constructed.retyped (hk : WellTyped env k)
    (hc : Constructed env k k' frame p o table s resource d) :
    k.machine.Retyped frame k'.machine :=
  ⟨(hk.usable hc.points hc.aligned).aligned, hc.was_untyped, hc.state_self, hc.state, hc.mem⟩

end Retyped

/-- A system call writes to frames that were untyped. -/
theorem SystemCall.Effect.mem_eq {c : SystemCall} (hk : WellTyped env k) (h : c.Effect env k k')
    {x : Nat} (hx : k.machine.stateOf (x / frameSize) ≠ some .untyped) :
    k'.machine.mem x = k.machine.mem x := by
  cases h with
  | failed h => exact congrFun h.mem x
  | relinked _ _ _ _ h =>
    obtain ⟨slots, _, ht⟩ := h
    exact congrFun ht.mem x
  | switched h => exact congrFun h.machine.mem x
  | constructed _ _ _ _ _ h => exact (h.retyped hk).mem_of_typed hx

/-- A system call makes kernel frames of untyped ones, and nothing else. -/
theorem SystemCall.Effect.state {c : SystemCall} (hk : WellTyped env k) (h : c.Effect env k k')
    (n : Nat) :
    k'.machine.stateOf n = k.machine.stateOf n ∨
      k.machine.stateOf n = some .untyped ∧ k'.machine.stateOf n = some .kernel := by
  cases h with
  | failed h => exact .inl (h.state n)
  | relinked _ _ _ _ h =>
    obtain ⟨slots, _, ht⟩ := h
    exact .inl (ht.state n)
  | switched h => exact .inl (h.machine.state n)
  | constructed _ _ _ _ _ h => exact (h.retyped hk).state_cases n

theorem SystemCall.Effect.keeps {c : SystemCall} (hk : WellTyped env k) (h : c.Effect env k k') :
    k.machine.Keeps k'.machine :=
  .of_untyped (fun _ => h.mem_eq hk) (h.state hk)

end Keeps

/-! ## The system -/

/-- What happens next. -/
inductive Action where
  /-- User code writes a byte. -/
  | store (v : Nat) (byte : BitVec 8)
  /-- User code enters the kernel. -/
  | call (c : SystemCall)

/-- Memory with one byte written. -/
def Kernel.poke (k : Kernel) (x : Nat) (byte : BitVec 8) : Kernel :=
  { k with machine := { k.machine with mem := Function.update k.machine.mem x byte } }

/-- One step of the system: a store that the processor lets through, or a system call that ends in
user mode. -/
inductive Acts (env : Env) (k : Kernel) : Action → Kernel → Prop
  | store {v x : Nat} {byte : BitVec 8}
      (h : Mmu.walk k.machine.mem .write v k.machine.cr3.base.addr = some x) :
      Acts env k (.store v byte) (k.poke x byte)
  | call {c : SystemCall} {k' : Kernel} (h : c.Ends env k k') : Acts env k (.call c) k'

/-- User code on the address space of the object at `p` is enclosed, if it has one. -/
def Object.Enclosed (env : Env) (m : Machine) (p : KPtr) : Object → Prop
  | .capTable _ => True
  | .thread t => m.Enclosed t.execCtx.root
  | .pageTable _ _ => ∀ f, f.Usable env → p.Points env f → m.Enclosed f

/-- **User code is enclosed**, on the page table in CR3 and on all that threads have or can be
given. -/
structure Guarded (env : Env) (k : Kernel) : Prop where
  typed : WellTyped env k
  running : k.machine.Enclosed k.machine.cr3
  spaces : ∀ p o, k.objects p = some o → o.Enclosed env k.machine p

section System

variable {env : Env} {k k' : Kernel} {p : KPtr} {o : Object}

theorem Object.Enclosed.keeps {m m' : Machine} (h : o.Enclosed env m p) (hkeeps : m.Keeps m') :
    o.Enclosed env m' p := by
  cases o with
  | capTable slots => trivial
  | thread t => exact hkeeps.enclosed h
  | pageTable level table => exact fun f hf hp => hkeeps.enclosed (h f hf hp)

/-- Where CR3 is an old address space, and the new ones are enclosed. -/
theorem Guarded.kept (h : Guarded env k) (htyped : WellTyped env k')
    (hkeeps : k.machine.Keeps k'.machine) (hcr3 : k.machine.Enclosed k'.machine.cr3)
    (hobjects : ∀ q o, k'.objects q = some o → k.objects q = some o ∨ o.Enclosed env k'.machine q) :
    Guarded env k' := by
  refine ⟨htyped, hkeeps.enclosed hcr3, fun q o hq => ?_⟩
  rcases hobjects q o hq with hold | hnew
  · exact (h.spaces q o hold).keeps hkeeps
  · exact hnew

/-- A store goes to a `User` frame. -/
theorem Guarded.store_user (h : Guarded env k) {v x : Nat}
    (hx : Mmu.walk k.machine.mem .write v k.machine.cr3.base.addr = some x) :
    k.machine.stateOf (x / frameSize) = some .user :=
  h.running.within.pages .write v x hx

theorem Kernel.poke_keeps {x : Nat} (byte : BitVec 8)
    (hx : k.machine.stateOf (x / frameSize) = some .user) :
    k.machine.Keeps (k.poke x byte).machine where
  mem y hy := by
    refine Function.update_of_ne ?_ _ _
    rintro rfl
    rw [hx] at hy
    cases hy
  kernel _ hn := hn
  user _ := Iff.rfl

theorem Guarded.poke (h : Guarded env k) {x : Nat} (byte : BitVec 8)
    (hx : k.machine.stateOf (x / frameSize) = some .user) : Guarded env (k.poke x byte) := by
  have htyped : WellTyped env (k.poke x byte) :=
    ⟨h.typed.covered, h.typed.home, h.typed.typed, h.typed.active⟩
  exact h.kept htyped (Kernel.poke_keeps byte hx) h.running fun q o hq => .inl hq

/-- The table of a new thread is one that a capability stands for. -/
theorem Guarded.pageTable (h : Guarded env k) {pt : KPtr} {l4Frame : RawFrame}
    (hkind : kindsOf k.objects pt = some .pageTable) (hframe : pt.frame env = .ok l4Frame) :
    k.machine.Enclosed l4Frame := by
  obtain ⟨level, table, hpt⟩ := kindsOf_pageTable.mp hkind
  obtain ⟨f, hf, hp, _⟩ := h.typed.home pt _ hpt
  obtain rfl : f = l4Frame := Except.ok.inj ((KPtr.frame_of_points hf.aligned hp).symm.trans hframe)
  exact h.spaces pt _ hpt f hf hp

/-- The mask of `dispatch` leaves an aligned frame as it is. -/
theorem Thread.root_execCtx {t : Thread} (h : t.l4Frame.Aligned) : t.execCtx.root = t.l4Frame := by
  have hlt : t.l4Frame.base.addr < 2 ^ 64 :=
    Nat.lt_of_lt_of_le t.l4Frame.base.lt (by decide)
  unfold ExecCtx.root Thread.execCtx
  simp only [PageTableEntry.ofNat_and_frameMask h, BitVec.toNat_ofNat, Nat.mod_eq_of_lt hlt]

/-- CR3 is a kernel frame. -/
theorem Machine.Enclosed.kernel {m : Machine} {root : RawFrame} (h : m.Enclosed root) :
    m.stateOf root.number = some .kernel := by
  refine h.within.tables .read 0 root.base.addr ?_
  unfold Mmu.visited
  rw [if_pos (by decide), Mmu.visitedFrom_succ]
  exact List.mem_cons_self

theorem Guarded.departs (h : Guarded env k) {x : Outside} {thread : KPtr}
    (hkeeps : k.machine.Keeps k'.machine) (hd : Departs x k thread k') : Guarded env k' := by
  obtain ⟨self, _, _, _, _, _, _, _, t, ht, hobjects⟩ := hd.activated
  -- saving its registers does not change a thread's address space
  have hspaces : ∀ q o, k'.objects q = some o →
      k.objects q = some o ∨ o.Enclosed env k.machine q := by
    intro q o hq
    rw [hobjects] at hq
    rcases update_eq_some hq with ⟨_, rfl⟩ | ⟨_, hold⟩
    · exact .inr (h.spaces self _ ht)
    · exact .inl hold
  obtain ⟨t', ht', hcr3⟩ := hd.loaded
  refine h.kept (h.typed.departs hd) hkeeps ?_ fun q o hq =>
    (hspaces q o hq).imp_right (·.keeps hkeeps)
  rw [hcr3]
  rcases hspaces thread _ ht' with hold | hnew
  · exact h.spaces thread _ hold
  · exact hnew

section Constructed

variable {frame : RawFrame} {table : KPtr} {s : SlotId numSlots} {resource : Resource}
  {d : KPtr → Int} {kind : ConstructArgs} {t : Thread}

/-- A new page table, whatever its level. -/
theorem Guarded.newTable (h : Guarded env k) (hkeeps : k.machine.Keeps k'.machine)
    (hc : Constructed env k k' frame p o table s resource d)
    (hwords : TableWords env k.machine k'.machine p) {f : RawFrame} (hf : f.Usable env)
    (hp : p.Points env f) : k'.machine.Enclosed f := by
  have hnumber : f.number = frame.number := by
    have hframe := hc.points
    unfold KPtr.Points at hp hframe
    unfold RawFrame.number
    rw [show f.base.addr = frame.base.addr by omega]
  refine (hkeeps.enclosed h.running).of_table hf.aligned (hnumber ▸ hc.state_self) fun i hi => ?_
  have hroot : load64 k'.machine.mem (k.machine.cr3.base.addr + 8 * i) =
      load64 k.machine.mem (k.machine.cr3.base.addr + 8 * i) := by
    refine load64_congr fun j hj => hkeeps.mem _ ?_
    rw [h.running.aligned.base_eq]
    have hdiv : (k.machine.cr3.number * frameSize + 8 * i + j) / frameSize =
      k.machine.cr3.number := by
      simp only [frameSize]
      omega
    rw [hdiv]
    exact h.running.kernel
  rw [hroot]
  exact hwords f hp i hi

theorem Guarded.newObject (h : Guarded env k) (hkeeps : k.machine.Keeps k'.machine)
    (hb : Builds env k t p o resource d kind)
    (hc : Constructed env k k' frame p o table s resource d)
    (hwords : ∀ level tb, o = .pageTable level tb → TableWords env k.machine k'.machine p) :
    o.Enclosed env k'.machine p := by
  cases kind with
  | capTable =>
    obtain ⟨rfl, _⟩ := hb
    trivial
  | thread entry stackPointer capTable pageTable =>
    obtain ⟨ct, pt, flags, l4Frame, _, hpt, _, hframe, rfl, _⟩ := hb
    have hspace := h.pageTable (h.typed.pageTableOf hpt) hframe
    refine hkeeps.enclosed ?_
    rw [Thread.root_execCtx hspace.aligned]
    exact hspace
  | pageTable level =>
    obtain ⟨_, tb, _, rfl, _⟩ := hb
    exact fun f hf hp => h.newTable hkeeps hc (hwords level tb rfl) hf hp

theorem Guarded.constructed (h : Guarded env k) (hkeeps : k.machine.Keeps k'.machine)
    (hfilled : Filled env k k') (hb : Builds env k t p o resource d kind)
    (hc : Constructed env k k' frame p o table s resource d) : Guarded env k' := by
  obtain ⟨slots, hslots, hobjects, _⟩ := hc.rewired
  refine h.kept (h.typed.constructed hb hc) hkeeps (by rw [hc.cr3]; exact h.running)
    fun q o' hq => ?_
  rw [hobjects] at hq
  rcases update_eq_some hq with ⟨_, rfl⟩ | ⟨hqt, hq⟩
  · exact .inr trivial
  rcases update_eq_some hq with ⟨rfl, rfl⟩ | ⟨_, hold⟩
  · refine .inr (h.newObject hkeeps hb hc fun level tb ho => ?_)
    -- the frame was untyped, so the page table is new
    refine (hfilled q level tb ?_).resolve_left fun hold => ?_
    · rw [hobjects, Function.update_of_ne hqt, Function.update_self, ho]
    · obtain ⟨f, hf, hp, hkernel⟩ := h.typed.home q _ hold
      have hframe := hc.points
      unfold KPtr.Points at hp hframe
      have hnumber : f.number = frame.number := by
        unfold RawFrame.number
        rw [show f.base.addr = frame.base.addr by omega]
      rw [hnumber, hc.was_untyped] at hkernel
      cases hkernel
  · exact .inl hold

end Constructed

/-- **No system call opens an address space.** -/
theorem Guarded.effect (h : Guarded env k) {c : SystemCall} (he : c.Effect env k k')
    (hfilled : Filled env k k') : Guarded env k' := by
  have hkeeps := he.keeps h.typed
  have htyped := h.typed.effect he
  cases he with
  | failed ht =>
    refine h.kept htyped hkeeps (by rw [ht.cr3]; exact h.running) fun q o hq => .inl ?_
    rwa [ht.objects] at hq
  | relinked _ _ _ _ hr =>
    obtain ⟨slots, _, ht⟩ := hr
    refine h.kept htyped hkeeps (by rw [ht.cr3]; exact h.running) fun q o hq => ?_
    rw [ht.objects] at hq
    rcases update_eq_some hq with ⟨_, rfl⟩ | ⟨_, hold⟩
    · exact .inr trivial
    · exact .inl hold
  | constructed _ _ _ _ hb hc => exact h.constructed hkeeps hfilled hb hc
  | switched hd => exact h.departs hkeeps hd

/-! ### Runs -/

/-- One step keeps what it should, and what user code reaches stays enclosed. -/
theorem Guarded.acts (h : Guarded env k) {a : Action} (ha : Acts env k a k') :
    Guarded env k' ∧ k.machine.Keeps k'.machine := by
  cases ha with
  | store hx => exact ⟨h.poke _ (h.store_user hx), Kernel.poke_keeps _ (h.store_user hx)⟩
  | call hc =>
    have he := SystemCall.effect hc
    exact ⟨h.effect he (SystemCall.filled hc), he.keeps h.typed⟩

/-- Memory after bytes are written, in order. -/
def writeAll (mem : Mem) (ws : List (Nat × BitVec 8)) : Mem :=
  ws.foldl (fun mem w => Function.update mem w.1 w.2) mem

/-- A byte after the writes depends on the writes and on that byte. -/
theorem writeAll_congr (ws : List (Nat × BitVec 8)) {mem mem' : Mem} {x : Nat}
    (h : mem x = mem' x) : writeAll mem ws x = writeAll mem' ws x := by
  induction ws generalizing mem mem' with
  | nil => exact h
  | cons w ws ih =>
    refine ih (show Function.update mem w.1 w.2 x = Function.update mem' w.1 w.2 x from ?_)
    by_cases hx : x = w.1
    · subst hx
      rw [Function.update_self, Function.update_self]
    · rw [Function.update_of_ne hx, Function.update_of_ne hx, h]

/-- The bytes that user code writes in a run, in order, each where the processor has put it. -/
inductive UserWrites (env : Env) : Kernel → List Action → List (Nat × BitVec 8) → Kernel → Prop
  | nil (k : Kernel) : UserWrites env k [] [] k
  | store {k k' : Kernel} {v x : Nat} {byte : BitVec 8} {as : List Action}
      {ws : List (Nat × BitVec 8)}
      (h : Mmu.walk k.machine.mem .write v k.machine.cr3.base.addr = some x)
      (r : UserWrites env (k.poke x byte) as ws k') :
      UserWrites env k (.store v byte :: as) ((x, byte) :: ws) k'
  | call {k k₁ k' : Kernel} {c : SystemCall} {as : List Action} {ws : List (Nat × BitVec 8)}
      (h : c.Ends env k k₁) (r : UserWrites env k₁ as ws k') :
      UserWrites env k (.call c :: as) ws k'

theorem exists_userWrites {as : List Action} (r : Run (Acts env) k as k') :
    ∃ ws, UserWrites env k as ws k' := by
  induction r with
  | nil k => exact ⟨[], .nil k⟩
  | cons ha _ ih =>
    obtain ⟨ws, hws⟩ := ih
    cases ha with
    | store h => exact ⟨_, .store h hws⟩
    | call h => exact ⟨ws, .call h hws⟩

/-- A system call writes to no `User` frame. -/
theorem Guarded.call_mem (h : Guarded env k) {c : SystemCall} (hc : c.Ends env k k') {x : Nat}
    (hx : k.machine.stateOf (x / frameSize) = some .user) : k'.machine.mem x = k.machine.mem x :=
  (SystemCall.effect hc).mem_eq h.typed (by rw [hx]; simp)

/-- **The bytes of the `User` frames** are those from before the run with the writes of user code in
their order, and nothing else. -/
theorem Guarded.userWrites {as : List Action} {ws : List (Nat × BitVec 8)} (h : Guarded env k)
    (hws : UserWrites env k as ws k') {x : Nat}
    (hx : k.machine.stateOf (x / frameSize) = some .user) :
    k'.machine.mem x = writeAll k.machine.mem ws x := by
  induction hws with
  | nil => rfl
  | store hwalk _ ih => exact ih (h.poke _ (h.store_user hwalk)) hx
  | call hc _ ih =>
    obtain ⟨hk₁, hkeeps⟩ := h.acts (.call hc)
    rw [ih hk₁ ((hkeeps.user _).mpr hx)]
    exact writeAll_congr _ (h.call_mem hc hx)

/-- What holds after any run of user code and system calls. -/
structure Confined (env : Env) (k : Kernel) (as : List Action) (k' : Kernel) : Prop where
  /-- What user code reads, writes or executes is in `User` frames. -/
  reached : ∀ a v x, Mmu.walk k'.machine.mem a v k'.machine.cr3.base.addr = some x →
    k'.machine.stateOf (x / frameSize) = some .user
  /-- These are the ones from before the run. -/
  user : ∀ n, k'.machine.stateOf n = some .user ↔ k.machine.stateOf n = some .user
  /-- No system call of the run writes to them. -/
  calls : ∀ pre c post k₁ k₂, as = pre ++ .call c :: post → Run (Acts env) k pre k₁ →
    c.Ends env k₁ k₂ → ∀ x, k.machine.stateOf (x / frameSize) = some .user →
      k₂.machine.mem x = k₁.machine.mem x
  /-- Their bytes are those from before the run with what user code wrote, in order: each the last
  one written there, or the one from before. -/
  bytes : ∃ ws, UserWrites env k as ws k' ∧ ∀ x, k.machine.stateOf (x / frameSize) = some .user →
    k'.machine.mem x = writeAll k.machine.mem ws x
  /-- The address spaces from before the run are as they were. -/
  spaces : ∀ root, k.machine.Enclosed root → ∀ a v,
    Mmu.walk k'.machine.mem a v root.base.addr = Mmu.walk k.machine.mem a v root.base.addr

/-- **User code is confined to `User` frames**, over every run in which user code stores wherever
the processor lets it and enters the kernel with any system calls. -/
theorem Guarded.confined {as : List Action} (h : Guarded env k)
    (hrun : Run (Acts env) k as k') : Guarded env k' ∧ Confined env k as k' := by
  have hkept : ∀ {bs k₁}, Run (Acts env) k bs k₁ →
      Guarded env k₁ ∧ k.machine.Keeps k₁.machine := by
    intro bs k₁ hbs
    refine hbs.invariant (fun k₁ => Guarded env k₁ ∧ k.machine.Keeps k₁.machine) ?_ ⟨h, .refl _⟩
    rintro k₁ a k₂ ⟨hk₁, hkeeps⟩ ha
    obtain ⟨hk₂, hstep⟩ := hk₁.acts ha
    exact ⟨hk₂, hkeeps.trans hstep⟩
  obtain ⟨hk', hkeeps⟩ := hkept hrun
  obtain ⟨ws, hws⟩ := exists_userWrites hrun
  refine ⟨hk', fun a v x hx => hk'.running.within.pages a v x hx, hkeeps.user, ?_,
    ⟨ws, hws, fun x hx => h.userWrites hws hx⟩, fun root hroot => hkeeps.walk hroot⟩
  intro pre c post k₁ k₂ _ hpre hc x hx
  obtain ⟨hk₁, hkeeps₁⟩ := hkept hpre
  exact hk₁.call_mem hc ((hkeeps₁.user _).mpr hx)

end System

end Harmony
