import Harmony.Caps.System

/-!
# Pointers lead to objects of their types

A `KPtr<T>` is an address, and the type is a promise of the compiler that `unsafe` code makes for
it: `KPtr::new` on a frame that was retyped, `from_frame_unchecked` in `clone`. `WellTyped` is the
promise kept: every pointer in a slot, in a thread and in `ACTIVE_THREAD` leads to an object of its
type, and every object fills a kernel frame of the retype table, whose frames the direct map covers.

* `WellTyped.effect`: no system call breaks it, whatever its words and whatever `Addrspace::get`
  finds.
-/

namespace Harmony

open Lib

/-- The types a pointer can be to. -/
inductive ObjectKind where
  | capTable
  | thread
  | pageTable
  deriving DecidableEq

def Object.kind : Object → ObjectKind
  | .capTable _ => .capTable
  | .thread _ => .thread
  | .pageTable _ _ => .pageTable

/-- The type of the object at a pointer. -/
def kindsOf (objects : KPtr → Option Object) (p : KPtr) : Option ObjectKind :=
  (objects p).map Object.kind

/-- A resource leads to an object of its type. -/
def Resource.Typed (kinds : KPtr → Option ObjectKind) : Resource → Prop
  | .empty => True
  | .capEntry table => kinds table = some .capTable
  | .thread ptr => kinds ptr = some .thread
  | .pageTable table _ => kinds table = some .pageTable

/-- A slot: its child is a capability table. -/
def CapSlot.Typed (kinds : KPtr → Option ObjectKind) (slot : CapSlot) : Prop :=
  (∀ c, slot.child = some c → kinds c = some .capTable) ∧ slot.resource.Typed kinds

/-- The pointers in an object lead to objects of their types. A thread's L4 frame was made from a
pointer to a page table. -/
def Object.Typed (env : Env) (kinds : KPtr → Option ObjectKind) : Object → Prop
  | .capTable slots => ∀ s, (slots s).Typed kinds
  | .thread t => kinds t.resources = some .capTable ∧
      ∃ q, q.frame env = .ok t.l4Frame ∧ kinds q = some .pageTable
  | .pageTable _ _ => True

/-- The pointer leads to a kernel frame, through the direct map. -/
def InKernelFrame (env : Env) (m : Machine) (p : KPtr) : Prop :=
  ∃ f : RawFrame, f.Usable env ∧ p.Points env f ∧ m.stateOf f.number = some .kernel

/-- The direct map covers the frames of the retype table. -/
def Covered (env : Env) (m : Machine) : Prop :=
  ∀ n st, m.stateOf n = some st → env.pmo + (n + 1) * frameSize ≤ 2 ^ 64

/-- **Pointers lead to objects of their types.** -/
structure WellTyped (env : Env) (k : Kernel) : Prop where
  covered : Covered env k.machine
  home : ∀ p o, k.objects p = some o → InKernelFrame env k.machine p
  typed : ∀ p o, k.objects p = some o → o.Typed env (kindsOf k.objects)
  active : ∃ p, k.active = some p ∧ kindsOf k.objects p = some .thread

section Kinds

variable {env : Env} {objects : KPtr → Option Object} {p : KPtr}

theorem kindsOf_capTable : kindsOf objects p = some .capTable ↔
    ∃ slots, objects p = some (.capTable slots) := by
  unfold kindsOf
  cases objects p with
  | none => simp
  | some o => cases o <;> simp [Object.kind]

theorem kindsOf_thread : kindsOf objects p = some .thread ↔ ∃ t, objects p = some (.thread t) := by
  unfold kindsOf
  cases objects p with
  | none => simp
  | some o => cases o <;> simp [Object.kind]

theorem kindsOf_pageTable : kindsOf objects p = some .pageTable ↔
    ∃ level table, objects p = some (.pageTable level table) := by
  unfold kindsOf
  cases objects p with
  | none => simp
  | some o => cases o <;> simp [Object.kind]

/-- An object replaced by one of its type. -/
theorem kindsOf_update_same {o o' : Object} (hp : objects p = some o) (hkind : o'.kind = o.kind) :
    kindsOf (Function.update objects p (some o')) = kindsOf objects := by
  funext q
  unfold kindsOf
  by_cases hq : q = p
  · subst hq
    rw [Function.update_self, hp, Option.map_some, Option.map_some, hkind]
  · rw [Function.update_of_ne hq]

/-- A new object. -/
theorem kindsOf_update_new {o : Object} (hp : objects p = none) {q : KPtr} {κ : ObjectKind}
    (h : kindsOf objects q = some κ) : kindsOf (Function.update objects p (some o)) q = some κ := by
  have hne : q ≠ p := by
    rintro rfl
    rw [kindsOf, hp] at h
    cases h
  unfold kindsOf at h ⊢
  rwa [Function.update_of_ne hne]

variable {kinds kinds' : KPtr → Option ObjectKind}

theorem Resource.Typed.mono {r : Resource} (h : r.Typed kinds)
    (hle : ∀ q κ, kinds q = some κ → kinds' q = some κ) : r.Typed kinds' := by
  cases r with
  | empty => trivial
  | capEntry q | thread q | pageTable q flags => exact hle _ _ h

theorem Object.Typed.mono {o : Object} (h : o.Typed env kinds)
    (hle : ∀ q κ, kinds q = some κ → kinds' q = some κ) : o.Typed env kinds' := by
  cases o with
  | capTable slots => exact fun s => ⟨fun c hc => hle _ _ ((h s).1 c hc), (h s).2.mono hle⟩
  | thread t =>
    obtain ⟨hres, q, hq, hkind⟩ := h
    exact ⟨hle _ _ hres, q, hq, hle _ _ hkind⟩
  | pageTable level table => trivial

end Kinds

section Calls

variable {env : Env} {k k' : Kernel} {p : KPtr} {t : Thread} {cap : CapId}

/-! ## What a lookup hands out -/

/-- A slot that a capability id stands for. -/
theorem WellTyped.slot (h : WellTyped env k) {root : KPtr} {slot : CapSlot}
    (hcap : capabilityOf k.objects root cap = some slot) : slot.Typed (kindsOf k.objects) := by
  obtain ⟨found, _, hslot⟩ := Option.bind_eq_some_iff.mp hcap
  obtain ⟨slots, hslots, rfl⟩ := slotOf_eq_some.mp hslot
  exact h.typed found.1 _ hslots found.2

theorem WellTyped.tableOf (h : WellTyped env k) {table : KPtr}
    (htable : t.tableOf k.objects cap = .ok table) : kindsOf k.objects table = some .capTable := by
  obtain ⟨slot, hfound, hslot⟩ := resourceAs_ok htable
  have htyped := (h.slot hfound).2
  cases hr : slot.resource with
  | capEntry q =>
    rw [hr] at hslot htyped
    obtain rfl := Option.some.inj hslot
    exact htyped
  | empty | thread _ | pageTable _ _ =>
    rw [hr] at hslot
    cases hslot

theorem WellTyped.pageTableOf (h : WellTyped env k) {table : KPtr} {flags : PageCapFlags}
    (htable : t.pageTableOf k.objects cap = .ok (table, flags)) :
    kindsOf k.objects table = some .pageTable := by
  obtain ⟨slot, hfound, hslot⟩ := resourceAs_ok htable
  have htyped := (h.slot hfound).2
  cases hr : slot.resource with
  | pageTable q flags' =>
    rw [hr] at hslot htyped
    obtain ⟨rfl, rfl⟩ := Prod.mk.inj (Option.some.inj hslot)
    exact htyped
  | empty | thread _ | capEntry _ =>
    rw [hr] at hslot
    cases hslot

theorem WellTyped.childOf (h : WellTyped env k) {other : Option CapId} {child : Option KPtr}
    (hchild : t.childOf k.objects other = .ok child) {c : KPtr} (hc : child = some c) :
    kindsOf k.objects c = some .capTable := by
  cases other with
  | none =>
    obtain rfl : none = child := Except.ok.inj hchild
    cases hc
  | some other =>
    replace hchild : (t.tableOf k.objects other).map some = .ok child := hchild
    cases htable : t.tableOf k.objects other with
    | error e =>
      rw [htable] at hchild
      cases hchild
    | ok table =>
      rw [htable] at hchild
      obtain rfl : some table = child := Except.ok.inj hchild
      obtain rfl := Option.some.inj hc
      exact h.tableOf htable

/-! ## One system call -/

theorem Covered.of_state {m m' : Machine} (h : Covered env m)
    (hstate : ∀ n st, m'.stateOf n = some st → ∃ st', m.stateOf n = some st') : Covered env m' := by
  intro n st hn
  obtain ⟨st', hst⟩ := hstate n st hn
  exact h n st' hst

theorem Covered.same {m m' : Machine} (h : Covered env m)
    (hstate : ∀ n, m'.stateOf n = m.stateOf n) : Covered env m' :=
  h.of_state fun n st hn => ⟨st, (hstate n).symm.trans hn⟩

/-- The direct map starts on a page boundary: an object is there to see it. -/
theorem WellTyped.pmo_aligned (h : WellTyped env k) : env.pmo % pageSize = 0 := by
  obtain ⟨p, _, hkind⟩ := h.active
  obtain ⟨t, ht⟩ := kindsOf_thread.mp hkind
  obtain ⟨f, hf, _⟩ := h.home p _ ht
  exact hf.pmo_aligned

theorem InKernelFrame.of_state {m m' : Machine} (h : InKernelFrame env m p)
    (hstate : ∀ n, m.stateOf n = some .kernel → m'.stateOf n = some .kernel) :
    InKernelFrame env m' p := by
  obtain ⟨f, hf, hp, hst⟩ := h
  exact ⟨f, hf, hp, hstate _ hst⟩

/-- An object put where one of its type was. -/
theorem WellTyped.put (h : WellTyped env k) {o o' : Object} (hp : k.objects p = some o)
    (hobjects : k'.objects = Function.update k.objects p (some o'))
    (hkind : o'.kind = o.kind) (htyped : o'.Typed env (kindsOf k.objects))
    (hactive : ∃ q, k'.active = some q ∧ kindsOf k.objects q = some .thread)
    (hstate : ∀ n, k'.machine.stateOf n = k.machine.stateOf n) : WellTyped env k' := by
  have hkinds : kindsOf k'.objects = kindsOf k.objects := by
    rw [hobjects]
    exact kindsOf_update_same hp hkind
  have hkernel : ∀ n, k.machine.stateOf n = some .kernel → k'.machine.stateOf n = some .kernel :=
    fun n hn => (hstate n).trans hn
  refine ⟨h.covered.same hstate, fun q o'' hq => ?_, fun q o'' hq => ?_, by rwa [hkinds]⟩
  · rw [hobjects] at hq
    rcases update_eq_some hq with ⟨rfl, _⟩ | ⟨_, hold⟩
    · exact (h.home q o hp).of_state hkernel
    · exact (h.home q o'' hold).of_state hkernel
  · rw [hkinds]
    rw [hobjects] at hq
    rcases update_eq_some hq with ⟨_, rfl⟩ | ⟨_, hold⟩
    · exact htyped
    · exact h.typed q o'' hold

theorem WellTyped.traffic {d : KPtr → Int} (h : WellTyped env k) (ht : Traffic k k' d) :
    WellTyped env k' := by
  refine ⟨h.covered.same ht.state, fun p o hp => ?_, fun p o hp => ?_, ?_⟩
  · rw [ht.objects] at hp
    exact (h.home p o hp).of_state fun n hn => (ht.state n).trans hn
  · rw [ht.objects] at hp ⊢
    exact h.typed p o hp
  · rw [ht.objects, ht.active]
    exact h.active

theorem WellTyped.relinked (h : WellTyped env k) {table : KPtr} {s : SlotId numSlots}
    {child : Option KPtr} (hchild : ∀ c, child = some c → kindsOf k.objects c = some .capTable)
    (hr : Relinked k k' table s child) : WellTyped env k' := by
  obtain ⟨slots, htable, ht⟩ := hr
  have htyped : ∀ j, (slots j).Typed (kindsOf k.objects) := h.typed table _ htable
  refine WellTyped.traffic ?_ ht
  refine h.put htable rfl rfl (fun j => ?_) h.active fun _ => rfl
  by_cases hj : j = s
  · subst hj
    rw [Function.update_self]
    exact ⟨hchild, (htyped j).2⟩
  · rw [Function.update_of_ne hj]
    exact htyped j

theorem WellTyped.departs {x : Outside} {thread : KPtr} (h : WellTyped env k)
    (hd : Departs x k thread k') : WellTyped env k' := by
  obtain ⟨⟨self, t, cap, slot, _, ht, hcap, hthread, t', ht', hobjects⟩, hactive, _, hmachine⟩ := hd
  rw [ht] at ht'
  obtain rfl := Object.thread.inj (Option.some.inj ht')
  have htyped := (h.slot hcap).2
  rw [hthread] at htyped
  have hself : (Object.thread t).Typed env (kindsOf k.objects) := h.typed self _ ht
  exact h.put ht hobjects rfl hself ⟨thread, hactive, htyped⟩ hmachine.state

section Constructed

variable {frame : RawFrame} {table : KPtr} {o : Object} {s : SlotId numSlots} {resource : Resource}
  {d : KPtr → Int} {kind : ConstructArgs}

/-- An untyped frame holds no object. -/
theorem WellTyped.fresh (h : WellTyped env k) (hs : Stored env k k' frame p o) :
    k.objects p = none := by
  cases hp : k.objects p with
  | none => rfl
  | some o' =>
    obtain ⟨f, hf, hfp, hstate⟩ := h.home p o' hp
    have hbase : f.base.addr = frame.base.addr := by
      have hframe := hs.points
      unfold KPtr.Points at hfp hframe
      omega
    have hnumber : f.number = frame.number := by
      unfold RawFrame.number
      rw [hbase]
    rw [hnumber, hs.was_untyped] at hstate
    cases hstate

/-- The frame of a new object is one the direct map covers. -/
theorem WellTyped.usable (h : WellTyped env k) (hpoints : p.Points env frame)
    (halign : p.inner.addr % pageSize = 0) : frame.Usable env := by
  have hpmo := h.pmo_aligned
  have hlt := p.inner.lt
  unfold KPtr.Points at hpoints
  refine ⟨?_, ?_, hpmo⟩
  · unfold RawFrame.Mapped
    omega
  · unfold RawFrame.Aligned
    simp only [pageSize, frameSize] at *
    omega

theorem WellTyped.kinds_stored (h : WellTyped env k) (hs : Stored env k k' frame p o) {q : KPtr}
    {κ : ObjectKind} (hq : kindsOf k.objects q = some κ) : kindsOf k'.objects q = some κ := by
  rw [hs.objects]
  exact kindsOf_update_new (h.fresh hs) hq

/-- A new object. -/
theorem WellTyped.stored (h : WellTyped env k) (hs : Stored env k k' frame p o)
    (ho : o.Typed env (kindsOf k'.objects)) : WellTyped env k' := by
  have hkernel : ∀ n, k.machine.stateOf n = some .kernel → k'.machine.stateOf n = some .kernel := by
    intro n hn
    by_cases hnf : n = frame.number
    · rw [hnf]
      exact hs.state_self
    · rw [hs.state n hnf, hn]
  refine ⟨h.covered.of_state fun n st hn => ?_, fun q o' hq => ?_, fun q o' hq => ?_, ?_⟩
  · by_cases hnf : n = frame.number
    · exact ⟨.untyped, hnf ▸ hs.was_untyped⟩
    · exact ⟨st, (hs.state n hnf).symm.trans hn⟩
  · rw [hs.objects] at hq
    rcases update_eq_some hq with ⟨rfl, _⟩ | ⟨_, hold⟩
    · exact ⟨frame, h.usable hs.points hs.aligned, hs.points, hs.state_self⟩
    · exact (h.home q o' hold).of_state hkernel
  · rw [hs.objects] at hq
    rcases update_eq_some hq with ⟨_, rfl⟩ | ⟨_, hold⟩
    · exact ho
    · exact (h.typed q o' hold).mono fun _ _ => h.kinds_stored hs
  · obtain ⟨q, hq, hkind⟩ := h.active
    exact ⟨q, hs.active.trans hq, h.kinds_stored hs hkind⟩

/-- The new object and its capability. -/
theorem WellTyped.builds (h : WellTyped env k) (hb : Builds env k t p o resource d kind)
    {kinds : KPtr → Option ObjectKind}
    (hle : ∀ q κ, kindsOf k.objects q = some κ → kinds q = some κ)
    (hp : kinds p = some o.kind) : o.Typed env kinds ∧ resource.Typed kinds := by
  cases kind with
  | capTable =>
    obtain ⟨rfl, rfl, _⟩ := hb
    exact ⟨fun _ => ⟨fun c hc => (nomatch hc), trivial⟩, hp⟩
  | thread entry stackPointer capTable pageTable =>
    obtain ⟨ct, pt, flags, l4Frame, hct, hpt, _, hframe, rfl, rfl, _⟩ := hb
    exact ⟨⟨hle _ _ (h.tableOf hct), pt, hframe, hle _ _ (h.pageTableOf hpt)⟩, hp⟩
  | pageTable level =>
    obtain ⟨_, table, _, rfl, rfl, _⟩ := hb
    exact ⟨trivial, hp⟩

/-- A new object, after some traffic, with what its capability stands for. -/
theorem WellTyped.built {k₁ : Kernel} {d' : KPtr → Int} (h : WellTyped env k)
    (hb : Builds env k t p o resource d kind) (h₁ : Traffic k k₁ d')
    (hs : Stored env k₁ k' frame p o) :
    WellTyped env k' ∧ resource.Typed (kindsOf k'.objects) := by
  have h' := h.traffic h₁
  have hp : kindsOf k'.objects p = some o.kind := by
    rw [kindsOf, hs.objects, Function.update_self, Option.map_some]
  have hle : ∀ q κ, kindsOf k.objects q = some κ → kindsOf k'.objects q = some κ := by
    intro q κ hq
    rw [← h₁.objects] at hq
    exact h'.kinds_stored hs hq
  obtain ⟨ho, hr⟩ := h.builds hb hle hp
  exact ⟨h'.stored hs ho, hr⟩

theorem WellTyped.constructed (h : WellTyped env k) (hb : Builds env k t p o resource d kind)
    (hc : Constructed env k k' frame p o table s resource d) : WellTyped env k' := by
  obtain ⟨slots, hslots, hobjects, _⟩ := hc.rewired
  -- the state with the object stored, before its capability is put into the slot
  let k₁ : Kernel := { k' with
    objects := Function.update k.objects p (some o), handles := k.handles + Pi.single p 1 }
  have hs : Stored env k k₁ frame p o :=
    ⟨hc.points, hc.aligned, hc.was_untyped, rfl, hc.active, hc.cr3, hc.state_self, hc.state,
      hc.mem, rfl⟩
  obtain ⟨h₁, hr⟩ := h.built hb (Traffic.refl k) hs
  have hstyped : ∀ j, (slots j).Typed (kindsOf k₁.objects) := h₁.typed table _ hslots
  refine h₁.put hslots hobjects rfl (fun j => ?_) h₁.active fun _ => rfl
  by_cases hj : j = s
  · subst hj
    rw [Function.update_self]
    exact ⟨(hstyped j).1, hr⟩
  · rw [Function.update_of_ne hj]
    exact hstyped j

end Constructed

/-- **No system call breaks the types.** -/
theorem WellTyped.effect (h : WellTyped env k) {c : SystemCall}
    (he : c.Effect env k k') : WellTyped env k' := by
  cases he with
  | failed ht => exact h.traffic ht
  | relinked _ _ _ hchild hr => exact h.relinked (fun c hc => h.childOf hchild hc) hr
  | constructed _ _ _ _ hbuilds hc => exact h.constructed hbuilds hc
  | switched hd => exact h.departs hd

end Calls

end Harmony
