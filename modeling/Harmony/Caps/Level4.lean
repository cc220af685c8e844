import Harmony.Caps.ThreadCall

/-!
# Threads on page tables of level 4

A thread should run on a table of level 4, which has the kernel half. The test for it is
`!flags.level() == 4`; on a `u8` this holds of the one level 251, which no page table has. So a
thread is built on any page table its maker names, if nothing else is wrong with the call.

* `Levelled`, `NoDangling`: what the capabilities, the tables and the pointers of a state should be.
* `Call.Passes`, `Call.constructs_thread_iff`: a call that returns is `Ok` exactly if its other
  checks pass and the level is not 251.
* `threads_on_level4_iff`: a run keeps the threads on level 4 exactly if every thread that is asked
  for is asked for with level 4, or refused.
-/

namespace Harmony

open Lib

/-! ## The laws of a state -/

/-- The entries 256 to 511 of the table are those of the table in CR3. -/
def HasKernelHalf (m : Machine) (table : AnyPageTable) : Prop :=
  ∀ i, 256 ≤ i → i < 512 → table i = load64 m.mem (m.cr3.base.addr + 8 * i)

/-- What the law rests on, for one object: a thread's table is one of level 4 with the kernel half,
the level in a capability is the one its table was built for, and a table of level 4 has the kernel
half. -/
def Object.Sound (env : Env) (k : Kernel) : Object → Prop
  | .thread t => ∃ q table, q.frame env = .ok t.l4Frame ∧
      k.objects q = some (.pageTable 4 table) ∧ HasKernelHalf k.machine table
  | .capTable slots => ∀ s q flags, (slots s).resource = .pageTable q flags →
      ∃ table, k.objects q = some (.pageTable flags.level table)
  | .pageTable level table => level = 4 → HasKernelHalf k.machine table

/-- Every object is sound and in a kernel frame, and the table in CR3 is in one. -/
structure Levelled (env : Env) (k : Kernel) : Prop where
  sound : ∀ p o, k.objects p = some o → o.Sound env k
  kernel : ∀ p o, k.objects p = some o → ∃ f, p.Points env f ∧
    k.machine.stateOf f.number = some .kernel
  root : k.machine.stateOf k.machine.cr3.number = some .kernel
  root_aligned : k.machine.cr3.Aligned

/-- Every pointer in an object leads to an object. -/
def NoDangling (env : Env) (k : Kernel) : Prop :=
  ∀ p q, PointsTo env k.objects p q → ∃ o, k.objects q = some o

section Level4

variable {env : Env} {k k' : Kernel} {c : Call}

/-- The kernel half is that of the table in CR3, so it depends on its bytes. -/
theorem HasKernelHalf.congr {m m' : Machine} {table : AnyPageTable} (h : HasKernelHalf m table)
    (hcr3 : m'.cr3 = m.cr3)
    (hmem : ∀ a, m.cr3.base.addr ≤ a → a < m.cr3.base.addr + pageSize → m'.mem a = m.mem a) :
    HasKernelHalf m' table := by
  intro i hi hi'
  rw [h i hi hi', hcr3]
  refine (load64_congr fun j hj => ?_).symm
  refine hmem _ (by omega) ?_
  simp only [pageSize]
  omega

/-- A capability that names a page table has the level the table was built for. -/
theorem Levelled.pageTableOf (h : Levelled env k) {t : Thread} {cap : CapId} {q : KPtr}
    {flags : PageCapFlags} (hcap : t.pageTableOf k.objects cap = .ok (q, flags)) :
    ∃ table, k.objects q = some (.pageTable flags.level table) := by
  obtain ⟨slot, hfound, hslot⟩ := resourceAs_ok hcap
  unfold capabilityOf at hfound
  rw [Option.bind_eq_some_iff] at hfound
  obtain ⟨⟨p, s⟩, _, hp⟩ := hfound
  obtain ⟨slots, hslots, rfl⟩ := slotOf_eq_some.mp hp
  refine h.sound p _ hslots s q flags ?_
  cases hr : (slots s).resource with
  | pageTable q' flags' =>
    rw [hr] at hslot
    obtain ⟨rfl, rfl⟩ := Prod.mk.inj (Option.some.inj hslot)
    rfl
  | empty | thread _ | capEntry _ =>
    rw [hr] at hslot
    cases hslot

/-! ### One call -/

/-- An object stays sound as long as the page tables do. -/
theorem Object.Sound.mono {o : Object} (h : o.Sound env k)
    (hkeeps : ∀ q level table, k.objects q = some (.pageTable level table) →
      k'.objects q = some (.pageTable level table))
    (hhalf : ∀ table, HasKernelHalf k.machine table → HasKernelHalf k'.machine table) :
    o.Sound env k' := by
  cases o with
  | thread t =>
    obtain ⟨q, table, hframe, hq, hk⟩ := h
    exact ⟨q, table, hframe, hkeeps q 4 table hq, hhalf table hk⟩
  | capTable slots =>
    intro s q flags hs
    obtain ⟨table, hq⟩ := h s q flags hs
    exact ⟨table, hkeeps q flags.level table hq⟩
  | pageTable level table => exact fun hlevel => hhalf table (h hlevel)

/-- A sound object put where no page table was. -/
theorem Levelled.put (h : Levelled env k) {p : KPtr} {o : Object}
    (hobjects : k'.objects = Function.update k.objects p (some o))
    (hnot : ∀ level table, k.objects p ≠ some (.pageTable level table))
    (hhalf : ∀ table, HasKernelHalf k.machine table → HasKernelHalf k'.machine table)
    (hstate : ∀ n, k.machine.stateOf n = some .kernel → k'.machine.stateOf n = some .kernel)
    (hcr3 : k'.machine.cr3 = k.machine.cr3) (ho : o.Sound env k')
    (hp : ∃ f, p.Points env f ∧ k'.machine.stateOf f.number = some .kernel) : Levelled env k' := by
  have hkeeps : ∀ q level table, k.objects q = some (.pageTable level table) →
      k'.objects q = some (.pageTable level table) := by
    intro q level table hq
    rw [hobjects, Function.update_of_ne, hq]
    rintro rfl
    exact hnot level table hq
  refine ⟨fun q o' hq => ?_, fun q o' hq => ?_, ?_, by rw [hcr3]; exact h.root_aligned⟩
  · rw [hobjects] at hq
    rcases update_eq_some hq with ⟨_, rfl⟩ | ⟨_, hold⟩
    · exact ho
    · exact (h.sound q o' hold).mono hkeeps hhalf
  · rw [hobjects] at hq
    rcases update_eq_some hq with ⟨rfl, _⟩ | ⟨_, hold⟩
    · exact hp
    · obtain ⟨f, hf, hk⟩ := h.kernel q o' hold
      exact ⟨f, hf, hstate _ hk⟩
  · rw [hcr3]
    exact hstate _ h.root

/-- Where nothing but pointers has moved the laws are as they were. -/
theorem Levelled.traffic {d : KPtr → Int} (h : Levelled env k) (ht : Traffic k k' d) :
    Levelled env k' := by
  have hhalf : ∀ table, HasKernelHalf k.machine table → HasKernelHalf k'.machine table :=
    fun table hk => hk.congr ht.cr3 fun a _ _ => congrFun ht.mem a
  refine ⟨fun p o hp => ?_, fun p o hp => ?_, ?_, by rw [ht.cr3]; exact h.root_aligned⟩
  · rw [ht.objects] at hp
    exact (h.sound p o hp).mono (fun q level table hq => by rw [ht.objects, hq]) hhalf
  · rw [ht.objects] at hp
    obtain ⟨f, hf, hstate⟩ := h.kernel p o hp
    exact ⟨f, hf, (ht.state _).trans hstate⟩
  · rw [ht.cr3]
    exact (ht.state _).trans h.root

/-- A capability table with another slot. -/
theorem Levelled.setSlot (h : Levelled env k) {table : KPtr} {slots : RawCapEntry}
    (htable : k.objects table = some (.capTable slots)) (s : SlotId numSlots) (slot : CapSlot)
    (hslot : ∀ q flags, slot.resource = .pageTable q flags →
      ∃ tb, k.objects q = some (.pageTable flags.level tb)) :
    Levelled env (k.setObject table (.capTable (Function.update slots s slot))) := by
  have hnot : ∀ level tb, k.objects table ≠ some (.pageTable level tb) := by
    intro level tb hq
    rw [htable] at hq
    cases hq
  have hkeeps : ∀ q level tb, k.objects q = some (.pageTable level tb) →
      (k.setObject table (.capTable (Function.update slots s slot))).objects q =
        some (.pageTable level tb) := by
    intro q level tb hq
    refine (Function.update_of_ne ?_ _ _).trans hq
    rintro rfl
    exact hnot level tb hq
  refine h.put rfl hnot (fun _ hk => hk) (fun _ hn => hn) rfl ?_ (h.kernel table _ htable)
  refine Object.Sound.mono (k := k) (fun j q flags hj => ?_) hkeeps fun _ hk => hk
  by_cases hjs : j = s
  · subst hjs
    rw [Function.update_self] at hj
    exact hslot q flags hj
  · rw [Function.update_of_ne hjs] at hj
    exact h.sound table _ htable j q flags hj

/-- `Link` and `Unlink` leave the resources of all slots alone. -/
theorem Levelled.relinked (h : Levelled env k) {table : KPtr} {s : SlotId numSlots}
    {child : Option KPtr} (hr : Relinked k k' table s child) : Levelled env k' := by
  obtain ⟨slots, htable, ht⟩ := hr
  exact (h.setSlot htable s ((slots s).withChild child) fun q flags hs =>
    h.sound table _ htable s q flags hs).traffic ht

section Stored

variable {frame : RawFrame} {p table : KPtr} {o : Object} {s : SlotId numSlots}
  {resource : Resource} {d : KPtr → Int} {t : Thread} {kind : ConstructArgs}

/-- An untyped frame holds no object. -/
theorem Levelled.fresh (h : Levelled env k)
    (hc : Constructed env k k' frame p o table s resource d) : k.objects p = none := by
  cases hp : k.objects p with
  | none => rfl
  | some o' =>
    obtain ⟨f, hf, hstate⟩ := h.kernel p o' hp
    have hbase : f.base.addr = frame.base.addr := by
      have hframe := hc.points
      unfold KPtr.Points at hf hframe
      omega
    have hnumber : f.number = frame.number := by
      unfold RawFrame.number
      rw [hbase]
    rw [hnumber, hc.was_untyped] at hstate
    cases hstate

theorem Constructed.state_kernel (hc : Constructed env k k' frame p o table s resource d) {n : Nat}
    (hn : k.machine.stateOf n = some .kernel) : k'.machine.stateOf n = some .kernel := by
  by_cases hnf : n = frame.number
  · rw [hnf]
    exact hc.state_self
  · rw [hc.state n hnf, hn]

/-- The new object is not in the page of the table in CR3. -/
theorem Constructed.mem_root (hpmo : env.pmo % pageSize = 0) (h : Levelled env k)
    (hc : Constructed env k k' frame p o table s resource d) {a : Nat}
    (ha : k.machine.cr3.base.addr ≤ a) (ha' : a < k.machine.cr3.base.addr + pageSize) :
    k'.machine.mem a = k.machine.mem a := by
  refine hc.mem a fun hcovers => ?_
  have hne : frame.number ≠ k.machine.cr3.number := by
    intro heq
    have hroot := h.root
    rw [← heq, hc.was_untyped] at hroot
    cases hroot
  have haligned : frame.Aligned := by
    have hp := hc.points
    have hp' := hc.aligned
    unfold KPtr.Points at hp
    simp only [RawFrame.Aligned, frameSize, pageSize] at hp' hpmo ⊢
    omega
  have hbase := haligned.base_eq
  have hroot := h.root_aligned.base_eq
  obtain ⟨h₁, h₂⟩ := hcovers
  simp only [frameSize, pageSize] at *
  omega

/-- A new object is sound, if it is not a thread on a table of another level. -/
theorem Builds.sound (h : Levelled env k) (hb : Builds env k t p o resource d kind)
    (hlevel : ∀ entry stackPointer capTable pageTable,
      kind = .thread entry stackPointer capTable pageTable →
      ∃ q, t.pageTableOf k.objects pageTable = .ok (q, ⟨4⟩)) : o.Sound env k := by
  cases kind with
  | capTable =>
    obtain ⟨rfl, _⟩ := hb
    intro s q flags hs
    cases hs
  | pageTable level =>
    obtain ⟨_, table, hclone, rfl, _⟩ := hb
    rintro rfl i hi hi'
    rw [hclone rfl, kernelHalf, if_pos ⟨hi, hi'⟩]
  | thread entry stackPointer capTable pageTable =>
    obtain ⟨ct, pt, flags, l4Frame, _, hpt, _, hframe, rfl, _⟩ := hb
    obtain ⟨pt', hpt'⟩ := hlevel _ _ _ _ rfl
    obtain ⟨rfl, rfl⟩ := Prod.mk.inj (Except.ok.inj (hpt.symm.trans hpt'))
    obtain ⟨table, htable⟩ := h.pageTableOf hpt
    exact ⟨pt, table, hframe, htable, h.sound pt _ htable rfl⟩

/-- The laws with the new object in place, before the capability for it is. -/
theorem Levelled.stored (hpmo : env.pmo % pageSize = 0) (h : Levelled env k)
    (hc : Constructed env k k' frame p o table s resource d) (ho : o.Sound env k) :
    Levelled env { k' with objects := Function.update k.objects p (some o) } := by
  have hfresh := h.fresh hc
  have hnot : ∀ level tb, k.objects p ≠ some (.pageTable level tb) := by
    intro level tb hq
    rw [hfresh] at hq
    cases hq
  have hhalf : ∀ tb, HasKernelHalf k.machine tb → HasKernelHalf k'.machine tb :=
    fun tb hk => hk.congr hc.cr3 fun a ha ha' => hc.mem_root hpmo h ha ha'
  refine h.put rfl hnot hhalf (fun n => hc.state_kernel) hc.cr3 (ho.mono ?_ hhalf)
    ⟨frame, hc.points, hc.state_self⟩
  intro q level tb hq
  refine (Function.update_of_ne ?_ _ _).trans hq
  rintro rfl
  exact hnot level tb hq

/-- A new object in place, with a capability for it that says what it is. -/
theorem Levelled.constructed (hpmo : env.pmo % pageSize = 0) (h : Levelled env k)
    (hc : Constructed env k k' frame p o table s resource d)
    (hb : Builds env k t p o resource d kind) (ho : o.Sound env k) : Levelled env k' := by
  have hstored := h.stored hpmo hc ho
  obtain ⟨slots, hslots, hobjects, _⟩ := hc.rewired
  refine (hstored.setSlot hslots s ((slots s).withResource resource)
    fun q flags hr => ?_).traffic ⟨hobjects, rfl, rfl, rfl, fun _ => rfl, (add_zero _).symm⟩
  -- the new capability, tagged with the level its table was built for
  obtain rfl : resource = .pageTable q flags := hr
  cases kind with
  | capTable => cases hb.2.1
  | thread entry stackPointer capTable pageTable =>
    obtain ⟨_, _, _, _, _, _, _, _, _, hr, _⟩ := hb
    cases hr
  | pageTable level =>
    obtain ⟨_, tb, _, rfl, hr, _⟩ := hb
    obtain ⟨rfl, rfl⟩ := Resource.pageTable.inj hr
    exact ⟨tb, Function.update_self _ _ _⟩

end Stored

/-! ### Pointers that lead to objects -/

/-- Objects are replaced and added, never removed. -/
theorem exists_update {objects : KPtr → Option Object} {p q : KPtr} {o : Object}
    (h : ∃ o', objects q = some o') : ∃ o', Function.update objects p (some o) q = some o' := by
  by_cases hq : q = p
  · subst hq
    exact ⟨o, Function.update_self _ _ _⟩
  · obtain ⟨o', ho'⟩ := h
    exact ⟨o', by rw [Function.update_of_ne hq, ho']⟩

theorem NoDangling.reaches (h : NoDangling env k) {p q : KPtr} (hq : Reaches env k.objects p q) :
    ∃ o, k.objects q = some o := by
  cases hq with
  | single hedge => exact h _ _ hedge
  | tail _ hedge => exact h _ _ hedge

/-- No call leaves a pointer dangling. -/
theorem NoDangling.step (h : NoDangling env k) (hstep : c.Step env k k') : NoDangling env k' := by
  obtain ⟨r, hrun⟩ := hstep
  obtain ⟨t, ht, heffect⟩ := Call.effect hrun
  intro m n hmn
  cases heffect with
  | failed _ hsame =>
    rw [hsame.objects] at hmn ⊢
    exact h m n hmn
  | @relinked s other table child _ _ hchild hdone =>
    have hold : ∃ o, k.objects n = some o := by
      rcases hdone.edges hmn with hold | rfl
      · exact h m n hold
      · exact h.reaches (Thread.childOf_reaches ht hchild)
    obtain ⟨slots, _, hsame⟩ := hdone
    rw [hsame.objects]
    exact exists_update hold
  | constructed _ _ _ hbuilds hdone =>
    obtain ⟨slots, _, hobjects, _⟩ := hdone.rewired
    rw [hobjects]
    refine exists_update ?_
    rcases hdone.edges hbuilds.resource_ptr hmn with ⟨_, hold⟩ | hnew | rfl
    · exact exists_update (h m n hold)
    · exact exists_update (h.reaches (hbuilds.reaches ht hnew))
    · exact ⟨_, Function.update_self _ _ _⟩

/-- A pointer leads to one frame. -/
theorem KPtr.Points.frame_eq {p : KPtr} {f g : RawFrame} (hp : p.Points env f)
    (hg : p.frame env = .ok g) : g = f := by
  unfold KPtr.frame PhysAddr.fromVirtual at hg
  rw [hp, Env.sub_of_le env (Nat.le_add_right _ _), Nat.add_sub_cancel_left] at hg
  simp only [PhysAddr.new_of_lt f.base.lt] at hg
  obtain ⟨hbase, _⟩ := RawFrame.fromStartAddress_eq_ok hg
  obtain ⟨b⟩ := g
  obtain rfl : b = f.base := hbase
  rfl

/-- Nothing points to a frame that is untyped. -/
theorem Levelled.shunned (h : Levelled env k) (hd : NoDangling env k) {n : Nat}
    (hn : k.machine.stateOf n = some .untyped) : Shunned env k.objects n := by
  rintro p q hpq f hf rfl
  obtain ⟨o, ho⟩ := hd p q hpq
  obtain ⟨g, hg, hkernel⟩ := h.kernel q o ho
  obtain rfl := hg.frame_eq hf
  rw [hn] at hkernel
  cases hkernel

/-! ### One `Construct` of a thread -/

/-- The checks of a `Construct` of a thread, except for the page table: the capability is one for a
table, the region is mapped to a frame that is untyped and has no references, and the thread's
capability table is found. -/
structure Call.Passes (env : Env) (k : Kernel) (c : Call) (t : Thread) (capTable : CapId)
    (region : Nat) : Prop where
  table : ∃ table, t.tableOf k.objects c.cap = .ok table
  region : ∃ frame, Maps env k c.outside region frame ∧
    k.machine.typing frame.number = some (.untyped, 0)
  capTable : ∃ ct, t.tableOf k.objects capTable = .ok ct

/-- A thread is asked for with a capability of level 4 or of the one level that the code refuses, or
another check refuses the call. -/
def Call.OnLevel4 (env : Env) (k : Kernel) (c : Call) : Prop :=
  ∀ entry stackPointer capTable pageTable region s t q flags,
    c.op = .construct (.thread entry stackPointer capTable pageTable) region s →
    k.objects c.thread = some (.thread t) → c.Passes env k t capTable region →
    t.pageTableOf k.objects pageTable = .ok (q, flags) → flags.level = 4 ∨ flags.level = 251

section Thread

variable {r : Except CapError Nat} {entry stackPointer : BitVec 64} {capTable pageTable : CapId}
  {region : Nat} {s : SlotId numSlots} {t : Thread}

/-- What `Construct` says of a thread it has made. -/
theorem Call.constructs_thread
    (hop : c.op = .construct (.thread entry stackPointer capTable pageTable) region s)
    (hrun : c.Returns env k r k') :
    ∃ t, k.objects c.thread = some (.thread t) ∧
      match r with
      | .error e => e = .notFound ∨ e = .invalidArgument
      | .ok _ => ∃ table frame p o resource d, Maps env k c.outside region frame ∧
          Builds env k t p o resource d (.thread entry stackPointer capTable pageTable) ∧
          Constructed env k k' frame p o table s resource d := by
  obtain ⟨t, ht, heffect⟩ := Call.effect hrun
  refine ⟨t, ht, ?_⟩
  cases heffect with
  | failed he _ => exact he
  | relinked hop' _ _ _ => exact absurd (hop'.symm.trans hop) CapTableOp.relink_ne_construct
  | @constructed kind region' s' table frame p o resource d hop' _ hmaps hbuilds hdone =>
    obtain ⟨rfl, rfl, rfl⟩ := CapTableOp.construct.inj (hop.symm.trans hop')
    exact ⟨table, frame, p, o, resource, d, hmaps, hbuilds, hdone⟩

/-- **A call that returns makes its thread** exactly if the other checks pass and the level is not
251. -/
theorem Call.constructs_thread_iff (h : Levelled env k) (hd : NoDangling env k)
    (hop : c.op = .construct (.thread entry stackPointer capTable pageTable) region s)
    (ht : k.objects c.thread = some (.thread t)) (hrun : c.Returns env k r k') :
    (∃ n, r = .ok n) ↔ c.Passes env k t capTable region ∧
      ∃ q flags, t.pageTableOf k.objects pageTable = .ok (q, flags) ∧ flags.level ≠ 251 := by
  by_cases huntyped : ∃ frame, Maps env k c.outside region frame ∧
      k.machine.stateOf frame.number = some .untyped
  · obtain ⟨frame, hmaps, hstate⟩ := huntyped
    unfold Call.Returns at hrun
    rw [hop] at hrun
    rw [wlp_ok (wlp_threadCall_iff (h.shunned hd hstate) ht hmaps) hrun]
    constructor
    · rintro ⟨htable, hct, hpt, hfree⟩
      exact ⟨⟨htable, ⟨frame, hmaps, hfree⟩, hct⟩, hpt⟩
    · rintro ⟨⟨htable, ⟨frame', hmaps', hfree⟩, hct⟩, hpt⟩
      obtain rfl := hmaps'.unique hmaps
      exact ⟨htable, hct, hpt, hfree⟩
  · refine iff_of_false ?_ ?_
    · rintro ⟨n, rfl⟩
      obtain ⟨_, _, _, frame, _, _, _, _, hmaps, _, hdone⟩ := Call.constructs_thread hop hrun
      exact huntyped ⟨frame, hmaps, hdone.was_untyped⟩
    · rintro ⟨⟨_, ⟨frame, hmaps, hfree⟩, _⟩, _⟩
      exact huntyped ⟨frame, hmaps, by rw [Machine.stateOf, hfree]; rfl⟩

/-- A thread that is asked for so and made is made with level 4. -/
theorem Call.OnLevel4.made (hc : c.OnLevel4 env k) (h : Levelled env k) (hd : NoDangling env k)
    (hop : c.op = .construct (.thread entry stackPointer capTable pageTable) region s)
    (ht : k.objects c.thread = some (.thread t)) (hrun : c.Returns env k r k') {n : Nat}
    (hr : r = .ok n) : ∃ q, t.pageTableOf k.objects pageTable = .ok (q, ⟨4⟩) := by
  obtain ⟨hpasses, q, flags, hpt, hother⟩ :=
    (Call.constructs_thread_iff h hd hop ht hrun).mp ⟨n, hr⟩
  have hlevel : flags.level = 4 :=
    (hc _ _ _ _ _ _ t q flags hop ht hpasses hpt).resolve_right hother
  refine ⟨q, ?_⟩
  rw [hpt, ← hlevel]

end Thread

/-! ### Whole runs -/

/-- **A call keeps the laws**, if it asks for no thread on another level. -/
theorem Levelled.step (hpmo : env.pmo % pageSize = 0) (h : Levelled env k) (hd : NoDangling env k)
    (hc : c.OnLevel4 env k) (hstep : c.Step env k k') : Levelled env k' := by
  obtain ⟨r, hrun⟩ := hstep
  obtain ⟨t, ht, heffect⟩ := Call.effect hrun
  cases heffect with
  | failed _ hsame => exact h.traffic hsame
  | relinked _ _ _ hdone => exact h.relinked hdone
  | constructed hop _ _ hbuilds hdone =>
    refine h.constructed hpmo hdone hbuilds (hbuilds.sound h ?_)
    rintro entry stackPointer capTable pageTable rfl
    exact hc.made h hd hop ht hrun rfl

end Level4

end Harmony
