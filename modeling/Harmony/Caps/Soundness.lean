import Harmony.Caps.Typing

/-!
# No system call reaches for memory that is not there

The kernel's pointers are raw: `unwrap_unchecked` on the retype table's entries, `as_ref` on a
pointer whose type the compiler takes on trust. In the model each of these stops with a fault where
Rust would have undefined behaviour. `sound_handle` shows that from a well-typed state none of them
is met: whatever words user code passes, a system call returns, leaves for another thread, or panics
with a message of its own (an overflow, an `unwrap`, an `assert!` or a `todo!()`).

* `Sound`: code that does not fault. There is one lemma for each function of the source.
* `system_calls_sound`: over runs, with the types kept by every call on the way.
-/

namespace Harmony

open Lib

/-- Machine code that does not fault. -/
abbrev Faultless {α : Type} (x : KM α) (m : Machine) : Prop := StopsIn (· ≠ .fault) x m

/-- Kernel code that does not fault. -/
abbrev Sound {α : Type} (x : CM α) (k : Kernel) : Prop := StopsIn (· ≠ .panic .fault) x k

/-! ## The machine -/

section Machine

variable {α ε : Type} {env : Env} {m : Machine} {f : RawFrame} {e : RetypeEntry} {p : KPtr}

/-- Arithmetic overflows, it does not fault. -/
theorem Env.add_ne_fault (a b : Nat) : env.add a b ≠ .error .fault := by
  unfold Env.add
  split_ifs <;> simp

theorem Env.mul_ne_fault (a b : Nat) : env.mul a b ≠ .error .fault := by
  unfold Env.mul
  split_ifs <;> simp

theorem PhysAddr.new_ne_fault (a : Nat) : PhysAddr.new a ≠ .error .fault := by
  unfold PhysAddr.new
  split <;> simp

theorem RawFrame.fromStartAddress_ne_fault (a : PhysAddr) :
    RawFrame.fromStartAddress a ≠ .error .fault := by
  unfold RawFrame.fromStartAddress
  split <;> simp

/-- An address of the direct map may overflow or be no canonical one, with a message for each. -/
theorem PhysAddr.toVirtual_ne_fault (a : PhysAddr) : a.toVirtual env ≠ .error .fault := by
  unfold PhysAddr.toVirtual
  split
  · unfold VirtAddr.new
    split <;> simp
  · rename_i p hadd
    intro h
    rw [Except.error.inj h] at hadd
    exact Env.add_ne_fault _ _ hadd

/-- Code that only hands on a panic. -/
theorem faultless_orPanic {y : Except Panic α} (h : y ≠ .error .fault) :
    Faultless (orPanic y) m := by
  cases y with
  | ok a => exact .pure _
  | error p => exact .throw fun hp => h (by rw [hp])

/-- A checked `unwrap` panics with its own message. -/
theorem faultless_unwrap (text : String) (y : Option α) : Faultless (unwrap text y) m := by
  cases y with
  | some a => exact .pure _
  | none => exact .throw Panic.noConfusion

theorem faultless_unwrapOk (text : String) (y : Except ε α) : Faultless (unwrapOk text y) m := by
  cases y with
  | ok a => exact .pure _
  | error p => exact .throw Panic.noConfusion

theorem faultless_assert (c : Bool) (text : String) : Faultless (assert c text) m := by
  cases c with
  | true => exact .pure _
  | false => exact .throw Panic.noConfusion

/-- Making a pointer to a frame: every check has a message of its own. -/
theorem faultless_pointer (f : RawFrame) : Faultless (KPtr.pointer env f) m :=
  (faultless_orPanic (PhysAddr.toVirtual_ne_fault _)).last fun _ _ =>
    (faultless_unwrap _ _).last fun _ _ => (faultless_assert _ _).last fun _ _ => .pure _

/-- A frame of the retype table is in the direct map. -/
theorem Covered.mapped (h : Covered env m) (he : m.retypeMap[f.number]? = some e) :
    f.Mapped env := by
  have hstate : m.stateOf f.number = some e.get.1 := by
    unfold Machine.stateOf Machine.typing
    rw [he]
    rfl
  have hle := h f.number _ hstate
  have hlt : f.base.addr < (f.number + 1) * frameSize := by
    unfold RawFrame.number
    simp only [frameSize]
    omega
  unfold RawFrame.Mapped
  omega

/-- The pointer to a frame of the table can be dereferenced. -/
theorem Covered.directMap (h : Covered env m) (he : m.retypeMap[f.number]? = some e) {v : VirtAddr}
    (hv : f.base.toVirtual env = .ok v) : Harmony.directMap env v = .ok f.base.addr := by
  obtain ⟨w, hw, hwa⟩ := RawFrame.toVirtual_of_mapped (h.mapped he)
  obtain rfl := Except.ok.inj (hv.symm.trans hw)
  exact KPtr.directMap_of_points (p := ⟨v⟩) hwa

/-- `KPtr::clone`, of a pointer to a frame that has an entry: `unwrap_unchecked` finds it. -/
theorem faultless_clone (hf : p.frame env = .ok f) (he : m.retypeMap[f.number]? = some e) :
    Faultless (p.clone env) m := by
  unfold KPtr.clone
  rw [hf]
  refine StopsIn.last (x := f.asKernelUnchecked) ?_ fun _ _ =>
    (faultless_pointer _).last fun _ _ => .pure _
  obtain ⟨r, e', hstep⟩ : ∃ r e', e.increment = (r, e') := ⟨_, _, rfl⟩
  refine .after (stepEntry_of_some _ he (by rw [hstep])) ?_
  exact (faultless_unwrapOk _ r).last fun _ _ => .pure _

/-- `KPtr::drop`, likewise. It may panic, with fewer than two references left. -/
theorem faultless_drop (hf : p.frame env = .ok f) (he : m.retypeMap[f.number]? = some e) :
    Faultless (p.drop env) m := by
  unfold KPtr.drop
  rw [hf]
  have hmethod : Faultless (dropMethod f) m := by
    unfold Faultless StopsIn wp
    rcases Nat.lt_trichotomy e.get.2 1 with h | h | h
    · rw [dropMethod_of_zero he (by omega)]
      exact Panic.noConfusion
    · obtain ⟨e', hrun⟩ := dropMethod_of_one he h
      rw [hrun]
      exact Panic.noConfusion
    · obtain ⟨e', _, hrun⟩ := dropMethod_of_two_le he h
      rw [hrun]
      trivial
  refine StopsIn.last (x := dropMethod f) hmethod fun count _ => ?_
  split
  · exact .modify _
  · exact .pure _

/-- `KPtr::new` of any frame: the ones past the end of the table are refused, and the others are in
the direct map, where the object is written. -/
theorem faultless_new (h : Covered env m) (f : RawFrame) (value : PageBytes) :
    Faultless (KPtr.new env f value) m := by
  unfold KPtr.new
  rcases tryInto_cases .kernel f m with ⟨err, hrun⟩ | ⟨e, e', he, _, _, hrun⟩
  · have h₁ : f.tryIntoKernel m = .ok (.error err) m := bind_of_eq_ok hrun
    exact .after h₁ (.pure _)
  · have h₁ : f.tryIntoKernel m = .ok (.ok ⟨f⟩) (m.setEntry f.number e') := bind_of_eq_ok hrun
    refine .after h₁ ?_
    refine StopsIn.last (x := KPtr.newUnchecked env ⟨f⟩ value) ?_ fun _ _ => .pure _
    refine (faultless_pointer f).seq (wlp_of_ok fun v m' hv =>
      wp_ok (KPtr.wp_pointer env f _) hv) ?_
    rintro v _ ⟨rfl, hv, _⟩
    rw [h.directMap he hv]
    exact .after rfl ((StopsIn.modify _).last fun _ _ => (StopsIn.modify _).last fun _ _ => .pure _)

/-- `clone_kernel`: the frame in CR3 is refused or in the direct map. -/
theorem faultless_cloneKernel (h : Covered env m) : Faultless (AnyPageTable.cloneKernel env) m := by
  unfold AnyPageTable.cloneKernel
  have hraw : Faultless AnyPageTable.currentRaw m :=
    .get ((faultless_orPanic (PhysAddr.new_ne_fault _)).last fun _ _ =>
      faultless_orPanic (RawFrame.fromStartAddress_ne_fault _))
  have htryAs : ∀ (f : RawFrame) (m : Machine), Faultless (f.tryAsKernel env) m := by
    intro f m
    refine StopsIn.last (x := f.tryAs env .kernel) ?_ fun _ _ => .pure _
    rcases tryAs_cases env .kernel f m with ⟨_, hrun⟩ | ⟨_, _, _, _, _, _, hrun⟩
    · exact .of_ok hrun
    · exact .of_ok hrun
  have hcurrent : Faultless (AnyPageTable.current env) m :=
    hraw.last fun f m => (htryAs f m).last fun _ _ => (faultless_unwrapOk _ _).last fun _ _ =>
      (faultless_pointer _).last fun _ _ => .pure _
  refine hcurrent.seq (wlp_of_ok fun p m' hp => wp_ok (wp_current m) hp) ?_
  rintro p _ ⟨hal, hv, e, e', he, _, _, rfl⟩
  have he' := Machine.getElem?_setEntry_self e' he
  have hpoints : p.Points env m.cr3 :=
    (KPtr.points_of_directMap hv (h.directMap he hv)).2
  rw [h.directMap he hv]
  refine .after rfl (.after (cloneKernel_loop _ _) ?_)
  exact (faultless_drop (KPtr.frame_of_points hal hpoints) he').last fun _ _ => .pure _

end Machine

/-! ## Pointers and slots -/

section Pointers

variable {α : Type} {env : Env} {x : Outside} {k k' : Kernel} {p this self : KPtr}
  {s : SlotId numSlots} {slot : CapSlot} {t : Thread} {cap : CapId}

/-- Code of the machine below. -/
theorem sound_onMachine {y : KM α} (h : Faultless y k.machine) : Sound (onMachine y) k := by
  unfold Sound StopsIn wp onMachine
  cases hrun : y k.machine with
  | ok a m => trivial
  | error e m => exact fun he => h.stop hrun (Stop.panic.inj he)

theorem sound_orPanic {y : Except Panic α} (h : y ≠ .error .fault) :
    Sound (onMachine (orPanic y)) k := sound_onMachine (faultless_orPanic h)

/-- A pointer to a frame of the table can be cloned. -/
theorem sound_cloneHandle (h : Backed env k p) : Sound (cloneHandle env p) k := by
  obtain ⟨f, e, _, _, hframe, he, _⟩ := h.entry
  exact (sound_onMachine (faultless_clone hframe he)).last fun _ _ =>
    (StopsIn.modify _).last fun _ _ => .pure _

/-- It can be dropped, too. -/
theorem sound_dropHandle (h : Backed env k p) : Sound (dropHandle env p) k := by
  obtain ⟨f, e, _, _, hframe, he, _⟩ := h.entry
  exact (sound_onMachine (faultless_drop hframe he)).last fun _ _ => .modify _

theorem sound_cloneOption {c : Option KPtr} (h : ∀ q, c = some q → Backed env k q) :
    Sound (cloneOption env c) k := by
  cases c with
  | none => exact .pure _
  | some q => exact (sound_cloneHandle (h q rfl)).last fun _ _ => .pure _

theorem sound_cloneResource {r : Resource} (h : ∀ q, r.ptr = some q → Backed env k q) :
    Sound (cloneResource env r) k := by
  cases r with
  | empty => exact .pure _
  | capEntry q | thread q | pageTable q flags =>
    exact (sound_cloneHandle (h q rfl)).last fun _ _ => .pure _

theorem sound_dropOption {c : Option KPtr} (h : ∀ q, c = some q → Backed env k q) :
    Sound (dropOption env c) k := by
  cases c with
  | none => exact .pure _
  | some q => exact sound_dropHandle (h q rfl)

theorem sound_dropResource {r : Resource} (h : ∀ q, r.ptr = some q → Backed env k q) :
    Sound (dropResource env r) k := by
  cases r with
  | empty => exact .pure _
  | capEntry q | thread q | pageTable q flags => exact sound_dropHandle (h q rfl)

/-- The pointers of a slot, dropped in order; the first drop leaves the second one's frame alone. -/
theorem sound_dropSlot (h : slot.Backed env k) : Sound (dropSlot env slot) k :=
  (sound_dropOption h.1).seq (wlp_dropOption slot.child) fun _ _ h₁ =>
    sound_dropResource (h.traffic h₁).2

/-- `AtomicCapSlot::get`, of a slot of a table. -/
theorem sound_slotGet (h : Wired env k) (hslot : slotOf k.objects p s = some slot) :
    Sound (AtomicCapSlot.get env p s) k := by
  have hb := h.slotBacked hslot
  refine .after (slotAt_eq hslot) ?_
  refine (sound_cloneOption hb.1).seq (wlp_cloneOption _) ?_
  rintro _ k₁ ⟨_, h₁⟩
  exact (sound_cloneResource (hb.traffic h₁).2).last fun _ _ => .pure _

/-- One step of a lookup. -/
theorem sound_slotChild (h : Wired env k) (hthis : Backed env k this)
    (hslot : slotOf k.objects this s = some slot) : Sound (AtomicCapSlot.child env this s) k := by
  refine (sound_slotGet h hslot).seq (wlp_slotGet this s) ?_
  rintro slot' k₁ ⟨hslot', h₁⟩
  obtain rfl := Option.some.inj (hslot.symm.trans hslot')
  have hb := (h.slotBacked hslot).traffic h₁
  refine (sound_dropResource hb.2).seq (wlp_dropResource slot.resource) fun _ k₂ h₂ => ?_
  exact (sound_dropHandle ((hthis.traffic h₁).traffic h₂)).last fun _ _ => .pure _

/-! ## Lookups -/

/-- **A lookup**, along any links. -/
theorem sound_getInner (fuel : Nat) : ∀ (this : KPtr) (id : Nat) (k : Kernel), Wired env k →
    Backed env k this → IsCapTable k this →
    Sound (TrieEntry.getInner (AtomicCapSlot.child env) fuel this id) k := by
  induction fuel with
  | zero => exact fun _ _ _ _ _ _ => .pure _
  | succ fuel ih =>
    intro this id k h hthis htable
    rw [TrieEntry.getInner]
    split
    · exact .pure _
    obtain ⟨slot, hslot⟩ := htable.slotOf (Fin.ofNat numSlots id)
    refine (sound_slotChild h hthis hslot).seq (wlp_slotChild this _) ?_
    rintro c k₁ ⟨hc, h₁⟩
    cases c with
    | none => exact .pure _
    | some next =>
      obtain ⟨slot', hslot', hchild⟩ := Option.bind_eq_some_iff.mp hc.symm
      obtain ⟨hnext, hcap⟩ := h.child this _ slot' next hslot' hchild
      exact ih next (id / numSlots) k₁ (h.traffic h₁) (hnext.traffic h₁)
        (by unfold IsCapTable; rwa [h₁.objects])

/-- `get_capability`: the lookup ends in a table, so there is a slot to clone. -/
theorem sound_getCapability (h : Wired env k) (hthis : Backed env k this)
    (htable : IsCapTable k this) (cap : CapId) : Sound (CapEntry.getCapability env this cap) k := by
  have hfind : Sound (CapEntry.find env this cap) k := by
    refine (sound_getInner 32 this cap.toNat k h hthis htable).last fun r _ => ?_
    cases r with
    | none => exact .pure _
    | some found => exact .pure _
  refine hfind.seq (wlp_find this cap) fun r k₁ hr => ?_
  cases hget : TrieEntry.get (M := Id) (linksOf k.objects) this cap with
  | none =>
    rw [hget] at hr
    obtain ⟨rfl, _⟩ := hr
    exact .pure _
  | some found =>
    rw [hget] at hr
    obtain ⟨rfl, h₁⟩ := hr
    obtain ⟨hb, hcap⟩ := h.lands 32 this cap.toNat found hthis htable hget
    obtain ⟨slot, hslot⟩ := hcap.slotOf found.2
    have hslot₁ : slotOf k₁.objects found.1 found.2 = some slot := by rwa [h₁.objects]
    refine (sound_slotGet (h.traffic h₁) hslot₁).seq (wlp_slotGet found.1 found.2) ?_
    rintro slot' k₂ ⟨_, h₂⟩
    exact (sound_dropHandle ((hb.traffic h₁).traffic h₂)).last fun _ _ => .pure _

/-- `get_resource_as`, for any conversion. -/
theorem sound_getResourceAs {T : Type} (tryFrom : Resource → Option T) (h : Wired env k)
    (hthis : Backed env k this) (htable : IsCapTable k this) (cap : CapId) :
    Sound (CapEntry.getResourceAs env tryFrom this cap) k := by
  refine (sound_getCapability h hthis htable cap).seq (wlp_getCapability this cap) fun r k₁ hr => ?_
  cases hcap : capabilityOf k.objects this cap with
  | none =>
    rw [hcap] at hr
    obtain ⟨rfl, _⟩ := hr
    exact .pure _
  | some slot =>
    rw [hcap] at hr
    obtain ⟨rfl, h₁⟩ := hr
    have hb := (h.capability hcap).1.traffic h₁
    dsimp only
    cases tryFrom slot.resource with
    | some t => exact (sound_dropOption hb.1).last fun _ _ => .pure _
    | none =>
      refine (sound_dropResource hb.2).seq (wlp_dropResource slot.resource) fun _ k₂ h₂ => ?_
      exact (sound_dropOption (hb.traffic h₂).1).last fun _ _ => .pure _

theorem sound_deref (ht : k.objects p = some (.thread t)) : Sound (Thread.deref p) k :=
  .of_ok (deref_eq ht)

/-- A thread's capability table is where it should be. -/
theorem sound_cloneResources (h : Wired env k) (ht : k.objects self = some (.thread t)) :
    Sound (Thread.cloneResources env self) k := by
  refine (sound_deref ht).seq (wlp_deref self) ?_
  rintro t' _ ⟨rfl, ht'⟩
  exact sound_cloneHandle (h.thread self t' ht').1

/-- The caller resolves a capability id, and goes on with what it found. -/
theorem sound_ownResource {T β : Type} {tryFrom : Resource → Option T} {ptr : T → KPtr}
    (hptr : ∀ r t, tryFrom r = some t → r.ptr = some (ptr t)) (h : Wired env k)
    (ht : k.objects self = some (.thread t)) (cap : CapId) {f : Except CapError T → CM β}
    (hf : ∀ r k' d, r = resourceAs tryFrom (capabilityOf k.objects t.resources cap) →
      Traffic k k' d → Sound (f r) k') :
    Sound (Thread.cloneResources env self >>= fun root =>
      CapEntry.getResourceAs env tryFrom root cap >>= f) k := by
  refine (sound_cloneResources h ht).seq (wlp_cloneResources self) ?_
  rintro _ k₁ ⟨t', ht', rfl, h₁⟩
  obtain rfl := Object.thread.inj (Option.some.inj (ht.symm.trans ht'))
  obtain ⟨hb, hcapTable⟩ := h.thread self t ht
  refine (sound_getResourceAs tryFrom (h.traffic h₁) (hb.traffic h₁)
    (by unfold IsCapTable; rwa [h₁.objects]) cap).seq (wlp_getResourceAs hptr t.resources cap) ?_
  rintro r k₂ ⟨hr, h₂⟩
  rw [h₁.objects] at hr
  exact hf r k₂ _ hr (h₁.trans h₂)

/-- A change of a slot, by code that is sound while the slot's pointers lead to frames. -/
theorem sound_change (h : Wired env k) (hp : IsCapTable k p) {f : CapSlot → CM CapSlot}
    {g : CapSlot → CapSlot} {d : CapSlot → KPtr → Int}
    (hf : ∀ (slot : CapSlot) k₁, slot.Backed env k₁ → Sound (f slot) k₁)
    (hwlp : ∀ slot k₁, wlp (f slot) (fun slot' k₂ => slot' = g slot ∧ Traffic k₁ k₂ (d slot)) k₁) :
    Sound (AtomicCapSlot.change env p s f) k := by
  obtain ⟨slots, hslots⟩ := hp
  have hslot : slotOf k.objects p s = some (slots s) := slotOf_eq_some.mpr ⟨slots, hslots, rfl⟩
  have hb := h.slotBacked hslot
  refine (sound_slotGet h hslot).seq (wlp_slotGet p s) ?_
  rintro slot k₁ ⟨hslot', h₁⟩
  obtain rfl := Option.some.inj (hslot.symm.trans hslot')
  refine (hf (slots s) k₁ (hb.traffic h₁)).seq (hwlp (slots s) k₁) ?_
  rintro _ k₂ ⟨rfl, h₂⟩
  have h₁₂ := h₁.trans h₂
  have hreplace : AtomicCapSlot.replace p s (g (slots s)) k₂ = .ok (slots s)
      (k₂.setObject p (.capTable (Function.update slots s (g (slots s))))) := by
    unfold AtomicCapSlot.replace
    refine (bind_of_eq_ok (rfl : (get : CM Kernel) k₂ = .ok k₂ k₂)).trans ?_
    rw [h₁₂.objects, hslots]
    rfl
  have hb₂ := hb.traffic h₁₂
  exact .after hreplace (sound_dropSlot ⟨hb₂.1, hb₂.2⟩)

end Pointers

/-! ## Operations -/

section Operations

variable {env : Env} {x : Outside} {k k' : Kernel} {p self table : KPtr} {t : Thread} {cap : CapId}

/-- A pointer to an object of any kind leads to a frame of the table. -/
theorem WellTyped.backed (h : WellTyped env k) {κ : ObjectKind}
    (hp : kindsOf k.objects p = some κ) : Backed env k p := by
  obtain ⟨o, ho, _⟩ := Option.map_eq_some_iff.mp hp
  obtain ⟨f, hf, hfp, hstate⟩ := h.home p o ho
  exact ⟨f, hf, hfp, _, hstate⟩

/-- The pointer of a resource leads to an object. -/
theorem Resource.Typed.ptr {kinds : KPtr → Option ObjectKind} {r : Resource} (h : r.Typed kinds)
    {q : KPtr} (hq : r.ptr = some q) : ∃ κ, kinds q = some κ := by
  cases r with
  | empty => cases hq
  | capEntry _ | thread _ | pageTable _ _ =>
    obtain rfl := Option.some.inj hq
    exact ⟨_, h⟩

/-- Well-typed pointers are backed, and tables are where tables are expected. -/
theorem WellTyped.wired (h : WellTyped env k) : Wired env k := by
  have hslot : ∀ {p s slot}, slotOf k.objects p s = some slot → slot.Typed (kindsOf k.objects) := by
    intro p s slot hs
    obtain ⟨slots, hp, rfl⟩ := slotOf_eq_some.mp hs
    exact h.typed p _ hp s
  refine ⟨fun p s slot c hs hc => ?_, fun p s slot q hs hq => ?_, fun p s slot q hs hq => ?_,
    fun p t ht => ?_⟩
  · have hkind := (hslot hs).1 c hc
    exact ⟨h.backed hkind, kindsOf_capTable.mp hkind⟩
  · obtain ⟨κ, hkind⟩ := (hslot hs).2.ptr hq
    exact h.backed hkind
  · have htyped := (hslot hs).2
    rw [hq] at htyped
    exact kindsOf_capTable.mp htyped
  · have hkind : kindsOf k.objects t.resources = some .capTable := (h.typed p _ ht).1
    exact ⟨h.backed hkind, kindsOf_capTable.mp hkind⟩

/-- An object that could not be stored is dropped again. -/
theorem sound_dropObject {o : Object} (ho : o.Fresh) (hb : o.Typed env (kindsOf k.objects))
    (h : WellTyped env k) : Sound (dropObject env o) k := by
  cases o with
  | thread t => exact sound_dropHandle (h.backed hb.1)
  | pageTable level table => exact .pure _
  | capTable slots =>
    obtain rfl : slots = .default := ho
    have hslots : ∀ (l : List (SlotId numSlots)) (k₁ : Kernel),
        Sound (l.forM fun s => dropSlot env (RawCapEntry.default s)) k₁ := by
      intro l
      induction l with
      | nil => exact fun _ => .pure _
      | cons s l ih =>
        exact fun k₁ =>
          StopsIn.last (x := dropSlot env (RawCapEntry.default s)) (.pure _) fun _ => ih
    exact hslots (List.finRange numSlots) k

/-- `KPtr::new`, with the object it stores or drops. -/
theorem sound_newObject (h : WellTyped env k) (frame : RawFrame) {o : Object} (ho : o.Fresh)
    (hb : o.Typed env (kindsOf k.objects)) : Sound (newObject env x frame o) k := by
  refine (sound_onMachine (faultless_new h.covered frame _)).seq
    (Q := fun r k₁ => ∀ e, r = .error e → k₁ = k) ?_ ?_
  · refine wlp_onMachine fun r m' hr e he => ?_
    subst he
    have hm : m' = k.machine := (wp_ok (KPtr.wp_new env frame (x.bytes o) k.machine) hr :)
    rw [hm]
  · intro r k₁ hk₁
    cases r with
    | error e =>
      obtain rfl := hk₁ e rfl
      exact (sound_dropObject ho hb h).last fun _ _ => .pure _
    | ok p => exact (StopsIn.modify _).last fun _ _ => .pure _

/-- The region of a `Construct`: every step of finding its frame has an error or a message. -/
theorem sound_region (ht : k.objects self = some (.thread t)) (region : Nat) :
    Sound (Thread.region env x self region) k := by
  have hlimit : Sound (onMachine (RawFrame.memoryLimit env)) k :=
    sound_onMachine (.get (faultless_orPanic (Env.mul_ne_fault _ _)))
  have haddress : Sound (onMachine (orPanic (env.add region untypedMemoryOffset))) k :=
    sound_orPanic (Env.add_ne_fault region untypedMemoryOffset)
  refine hlimit.seq wlp_memoryLimit ?_
  rintro limit _ ⟨rfl, _⟩
  split
  · exact .pure _
  refine haddress.seq (wlp_orPanic _) ?_
  rintro address k ⟨rfl, _⟩
  split
  · exact .pure _
  · rename_i page _
    have hlookup : Sound (Thread.lookup env x self page) k :=
      (sound_deref ht).last fun t' _ =>
        (sound_orPanic (PhysAddr.toVirtual_ne_fault _)).last fun _ _ => .pure _
    refine hlookup.last fun r _ => ?_
    split
    · exact .pure _
    · split
      · exact .pure _
      · exact .pure _

/-- `Construct` up to the slot, for each kind of object. -/
theorem sound_build (h : WellTyped env k) (ht : k.objects self = some (.thread t))
    (frame : RawFrame) (kind : ConstructArgs) : Sound (Thread.build env x self frame kind) k := by
  cases kind with
  | capTable =>
    refine (sound_newObject h frame (o := .capTable .default) rfl fun _ =>
      ⟨fun c hc => (nomatch hc), trivial⟩).last fun r _ => ?_
    cases r <;> exact .pure _
  | thread entry stackPointer capTable pageTable =>
    refine sound_ownResource asCapEntry_ptr h.wired ht capTable fun r k₁ d hr h₁ => ?_
    replace hr : t.tableOf k.objects capTable = r := hr.symm
    cases r with
    | error e => exact .pure _
    | ok ct =>
      have hct := h.tableOf hr
      have ht₁ : k₁.objects self = some (.thread t) := by rw [h₁.objects, ht]
      refine sound_ownResource asPageTable_ptr (h.traffic h₁).wired ht₁ pageTable
        fun r k₂ d' hr₂ h₂ => ?_
      have h₁₂ := h₁.trans h₂
      rw [h₁.objects] at hr₂
      replace hr₂ : t.pageTableOf k.objects pageTable = r := hr₂.symm
      rw [← h₁₂.objects] at hct
      have h₂' := h.traffic h₁₂
      cases r with
      | error e => exact (sound_dropHandle (h₂'.backed hct)).last fun _ _ => .pure _
      | ok pt =>
        have hpt : kindsOf k.objects pt.1 = some .pageTable := h.pageTableOf hr₂
        rw [← h₁₂.objects] at hpt
        dsimp only
        split
        · refine (sound_dropHandle (h₂'.backed hpt)).seq (wlp_dropHandle pt.1) fun _ k₃ h₃ => ?_
          exact (sound_dropHandle ((h₂'.backed hct).traffic h₃)).last fun _ _ => .pure _
        · obtain ⟨f, e, _, _, hframe, _⟩ := (h₂'.backed hpt).entry
          unfold KPtr.intoRaw
          rw [hframe]
          refine .after rfl ?_
          refine (sound_newObject h₂' frame (o := .thread ⟨_, f, ct⟩) trivial
            ⟨hct, pt.1, hframe, hpt⟩).last fun r _ => ?_
          cases r <;> exact .pure _
  | pageTable level =>
    simp only [Thread.build]
    split
    · exact .pure _
    have hstore : ∀ table k₁ d, Traffic k k₁ d →
        Sound (newObject env x frame (.pageTable level table)) k₁ :=
      fun table k₁ d h₁ => sound_newObject (h.traffic h₁) frame trivial trivial
    split
    · refine (sound_onMachine (faultless_cloneKernel h.covered)).seq wlp_cloneKernel ?_
      rintro table k₁ ⟨_, h₁⟩
      refine (hstore table k₁ 0 h₁).last fun r _ => ?_
      cases r <;> exact .pure _
    · refine (hstore .new k 0 (Traffic.refl k)).last fun r _ => ?_
      cases r <;> exact .pure _

/-- The child of a slot is set. -/
theorem sound_relink (h : Wired env k) (htable : IsCapTable k table) (s : SlotId numSlots)
    (c : Option KPtr) : Sound (AtomicCapSlot.change env table s fun cap => do
      dropOption env cap.child
      pure (cap.withChild c)) k := by
  refine sound_change (g := CapSlot.withChild c) (d := fun slot => -ofOption slot.child) h htable
    (fun slot k₁ hb => (sound_dropOption hb.1).last fun _ _ => .pure _) fun slot k₁ => ?_
  exact wlp_seq (wlp_dropOption slot.child) fun _ _ h₁ => wlp_pure ⟨rfl, h₁⟩

/-- **The operations on a capability table.** -/
theorem sound_onCapTable (h : WellTyped env k) (ht : k.objects self = some (.thread t))
    (htable : IsCapTable k table) (op : CapTableOp numSlots) :
    Sound (Thread.onCapTable env x self table op) k := by
  cases op with
  | link slot other =>
    refine sound_ownResource asCapEntry_ptr h.wired ht other fun r k₁ d _ h₁ => ?_
    cases r with
    | error e => exact .pure _
    | ok otherTable =>
      have htable₁ : IsCapTable k₁ table := by
        unfold IsCapTable
        rwa [h₁.objects]
      exact (sound_relink (h.traffic h₁).wired htable₁ slot _).last fun _ _ => .pure _
  | unlink slot => exact (sound_relink h.wired htable slot none).last fun _ _ => .pure _
  | construct kind region slot =>
    refine (sound_region ht region).seq (wlp_region self region) ?_
    rintro r _ ⟨rfl, _⟩
    cases r with
    | error e => exact .pure _
    | ok frame =>
      refine (sound_build h ht frame kind).seq (wlp_build ht frame kind) fun r k₁ hr => ?_
      cases r with
      | error e => exact .pure _
      | ok resource =>
        obtain ⟨p, o, d, k₀, hbuilds, h₀, hstored⟩ := hr
        obtain ⟨h₁, _⟩ := h.built hbuilds h₀ hstored
        have hkind : kindsOf k₁.objects table = some .capTable := by
          refine (h.traffic h₀).kinds_stored hstored ?_
          rw [h₀.objects]
          exact kindsOf_capTable.mpr htable
        refine (sound_change (g := CapSlot.withResource resource)
          (d := fun slot => -ofOption slot.resource.ptr) h₁.wired (kindsOf_capTable.mp hkind)
          (fun slot k₁ hb => (sound_dropResource hb.2).last fun _ _ => .pure _)
          fun slot k₁ => ?_).last fun _ _ => .pure _
        exact wlp_seq (wlp_dropResource slot.resource) fun _ _ h₁ => wlp_pure ⟨rfl, h₁⟩
  | drop slot => exact .throw (by simp)
  | copy slot other otherSlot => exact .throw (by simp)

/-- `dispatch`: the thread it ends in is one. -/
theorem sound_dispatch {α : Type} {saver : Saver} (h : WellTyped env k)
    (hp : kindsOf k.objects p = some .thread) : Sound (Thread.dispatch env p saver : CM α) k := by
  obtain ⟨self, hself, hkind⟩ := h.active
  obtain ⟨t, ht⟩ := kindsOf_thread.mp hkind
  unfold Thread.dispatch
  refine .get ?_
  rw [hself]
  obtain ⟨k₁, hk₁⟩ : ∃ k₁, k₁ = k.setObject self
      (.thread { t with regs := saver.saveState t.regs }) := ⟨_, rfl⟩
  have hsave : Thread.saveState saver self k = .ok ⟨⟩ k₁ := by
    unfold Thread.saveState
    rw [bind_of_eq_ok (deref_eq ht), hk₁]
    rfl
  have hkinds : kindsOf k₁.objects = kindsOf k.objects := by
    rw [hk₁]
    refine kindsOf_update_same ht ?_
    rfl
  have hstate : ∀ n, k₁.machine.stateOf n = k.machine.stateOf n := by
    rw [hk₁]
    exact fun _ => rfl
  refine .after hsave ?_
  refine (sound_cloneHandle ((h.backed hp).of_state hstate)).seq (wlp_cloneHandle p) ?_
  rintro q k₂ ⟨rfl, h₂⟩
  refine .after (t := { k₂ with active := some q }) rfl ?_
  have hself₂ : Backed env { k₂ with active := some q } self :=
    (h.backed hkind).of_state fun n => (h₂.state n).trans (hstate n)
  refine (sound_dropHandle hself₂).seq (wlp_dropHandle self) fun _ k₃ h₃ => ?_
  have hobjects : k₃.objects = k₁.objects := h₃.objects.trans h₂.objects
  rw [← hkinds, ← hobjects] at hp
  obtain ⟨t', ht'⟩ := kindsOf_thread.mp hp
  exact (sound_deref ht').last fun _ _ => .throw (by simp)

/-- A pointer that led to a frame does so after a `Construct`. -/
theorem Constructed.backed {frame : RawFrame} {o : Object} {s : SlotId numSlots}
    {resource : Resource} {d : KPtr → Int} {q : KPtr}
    (hc : Constructed env k k' frame p o table s resource d) (hq : Backed env k q) :
    Backed env k' q := by
  obtain ⟨f, hf, hqf, st, hst⟩ := hq
  by_cases hn : f.number = frame.number
  · exact ⟨f, hf, hqf, _, hn ▸ hc.state_self⟩
  · exact ⟨f, hf, hqf, st, (hc.state _ hn).trans hst⟩

/-- An operation on a table leaves the frames in the retype table. -/
theorem wlp_onCapTable_backed (ht : k.objects self = some (.thread t)) (table : KPtr)
    (op : CapTableOp numSlots) : wlp (Thread.onCapTable env x self table op)
      (fun _ k' => ∀ q, Backed env k q → Backed env k' q) k := by
  have hrelink : ∀ s other, wlp (Thread.onCapTable env x self table (.relink s other))
      (fun _ k' => ∀ q, Backed env k q → Backed env k' q) k := by
    intro s other
    refine wlp_mono (wlp_relinkOp ht table s other) fun r k' hr q hq => ?_
    cases r with
    | error e => exact hq.traffic hr.2
    | ok n =>
      obtain ⟨_, c, _, slots, _, hdone⟩ := hr
      exact hq.of_state hdone.state
  cases op with
  | link s other => exact hrelink s (some other)
  | unlink s => exact hrelink s none
  | drop s => exact wlp_throw _
  | copy s other otherSlot => exact wlp_throw _
  | construct kind region s =>
    refine wlp_mono (wlp_construct ht table kind region s) fun r k' hr q hq => ?_
    cases r with
    | error e =>
      rcases hr.2 with ⟨_, htraffic⟩ | ⟨_, htraffic⟩
      · exact hq.traffic htraffic
      · exact hq.traffic htraffic
    | ok n =>
      obtain ⟨_, _, _, _, _, _, _, _, hc⟩ := hr
      exact hc.backed hq

/-- **`exercise_cap`**, for every operation and every kind of resource. -/
theorem sound_exerciseCap (h : WellTyped env k) (ht : k.objects self = some (.thread t))
    (cap : CapId) (op : Operation) : Sound (Thread.exerciseCap env x self cap op) k := by
  have hwired := h.wired
  refine (sound_cloneResources hwired ht).seq (wlp_cloneResources self) ?_
  rintro _ k₁ ⟨t', ht', rfl, h₁⟩
  obtain rfl := Object.thread.inj (Option.some.inj (ht.symm.trans ht'))
  obtain ⟨hb, hcapTable⟩ := hwired.thread self t ht
  refine (sound_getCapability (hwired.traffic h₁) (hb.traffic h₁)
    (by unfold IsCapTable; rwa [h₁.objects]) cap).seq (wlp_getCapability t.resources cap) ?_
  intro r k₂ h₂
  rw [h₁.objects] at h₂
  cases hcap : capabilityOf k.objects t.resources cap with
  | none =>
    rw [hcap] at h₂
    obtain ⟨rfl, _⟩ := h₂
    exact .pure _
  | some slot =>
    rw [hcap] at h₂
    obtain ⟨rfl, h₂⟩ := h₂
    have h₁₂ := h₁.trans h₂
    have hslot := (hwired.capability hcap).1.traffic h₁₂
    have htyped := (h.slot hcap).2
    rw [← h₁₂.objects] at htyped ht
    have h₂' := h.traffic h₁₂
    obtain ⟨child, resource⟩ := slot
    cases resource with
    | empty => exact (sound_dropOption hslot.1).last fun _ _ => .pure _
    | pageTable ptr flags => exact .throw (by simp)
    | capEntry table =>
      -- the table and the slot's child, dropped once the operation has returned
      have hlast : ∀ (result : Except CapError Nat) (k₃ : Kernel),
          (∀ q, Backed env k₂ q → Backed env k₃ q) → Sound (do
            dropHandle env table
            dropOption env child
            pure result) k₃ := by
        intro result k₃ hkept
        refine (sound_dropHandle (hkept _ (hslot.2 table rfl))).seq (wlp_dropHandle table)
          fun _ k₄ h₄ => ?_
        exact (sound_dropOption fun q hq => (hkept q (hslot.1 q hq)).traffic h₄).last
          fun _ _ => .pure _
      dsimp only
      cases op.asCapTableOp with
      | none => exact .after rfl (hlast _ k₂ fun _ hq => hq)
      | some operation =>
        exact (sound_onCapTable h₂' ht (kindsOf_capTable.mp htyped) operation).seq
          (wlp_onCapTable_backed ht table operation) hlast
    | thread ptr =>
      dsimp only
      cases op.asThreadOp with
      | none =>
        refine (sound_dropHandle (hslot.2 ptr rfl)).seq (wlp_dropHandle ptr) fun _ k₃ h₃ => ?_
        exact (sound_dropOption (hslot.traffic h₃).1).last fun _ _ => .pure _
      | some threadOp =>
        cases threadOp with
        | activate => exact sound_dispatch h₂' htyped
        | changeAffinity => exact .throw (by simp)

/-- A system call leaves the frames in the retype table. -/
theorem SystemCall.Effect.backed {c : SystemCall} (h : c.Effect env k k') {q : KPtr}
    (hq : Backed env k q) : Backed env k' q := by
  cases h with
  | failed h => exact hq.traffic h
  | relinked _ _ _ _ h =>
    obtain ⟨slots, _, hdone⟩ := h
    exact hq.of_state hdone.state
  | constructed _ _ _ _ _ h => exact h.backed hq
  | switched h => exact hq.of_state h.machine.state

/-- **`handle`**, for all words. -/
theorem sound_handle (h : WellTyped env k) (c : SystemCall) :
    Sound (handle env c.outside c.a c.op) k := by
  obtain ⟨self, hself, hkind⟩ := h.active
  have hb := h.backed hkind
  have hcurrent : Sound (Thread.current env) k := by
    unfold Thread.current
    refine .get (sound_cloneOption fun q hq => ?_)
    obtain rfl := Option.some.inj (hself.symm.trans hq)
    exact hb
  have hwlp : wlp (Thread.current env) (fun r k' => r = some self ∧
      Traffic k k' (Pi.single self 1)) k := by
    unfold Thread.current
    refine wlp_get ?_
    rw [hself]
    exact wlp_cloneOption (some self)
  refine hcurrent.seq hwlp ?_
  rintro _ k₁ ⟨rfl, h₁⟩
  have h₁' := h.traffic h₁
  have hactive : k₁.active = some self := h₁.active.trans hself
  obtain ⟨t, ht⟩ := kindsOf_thread.mp hkind
  rw [← h₁.objects] at ht
  have hdrop : ∀ (code : Int) (k₂ : Kernel), Backed env k₂ self →
      Sound (do dropHandle env self; pure code : CM Int) k₂ :=
    fun _ _ hb₂ => (sound_dropHandle hb₂).last fun _ _ => .pure _
  show Sound (if h : c.a < 2 ^ 32 then _ else _) k₁
  split
  · refine (sound_exerciseCap h₁' ht _ c.op).seq
      (wlp_of_ok fun _ _ hrun => exerciseCap_returned hactive hrun) fun r k₂ heffect => ?_
    have hb₂ := heffect.backed (hb.traffic h₁)
    cases r with
    | ok n =>
      dsimp only
      split
      · exact .after rfl (hdrop _ k₂ hb₂)
      · exact (StopsIn.throw (by simp)).seq (wlp_throw (Q := fun _ _ => False) _)
          fun _ _ h => h.elim
    | error e => exact .after rfl (hdrop _ k₂ hb₂)
  · exact hdrop _ k₁ (hb.traffic h₁)

/-- **Safety of system calls.** From a well-typed state, after any run of system calls, whatever
words user code passed in them and whatever `Addrspace::get` found for them, pointers lead to
objects of their types, and no next call reaches for memory that is not there. -/
theorem system_calls_sound {cs : List SystemCall} (h : WellTyped env k)
    (hrun : Run (SystemCall.Ends env) k cs k') : WellTyped env k' ∧
      ∀ (c : SystemCall) (e : Stop) (k'' : Kernel),
        handle env c.outside c.a c.op k' = .error e k'' → e ≠ .panic .fault := by
  have hk' : WellTyped env k' :=
    hrun.invariant (WellTyped env) (fun _ _ _ hk hc => hk.effect (SystemCall.effect hc)) h
  exact ⟨hk', fun c e k'' hc => (sound_handle hk' c).stop hc⟩

end Operations

theorem oneThread_wellTyped : WellTyped Env.dev oneThread := by
  have hhome : ∀ n : Fin 8, 1 ≤ n.val → n.val ≤ 4 →
      InKernelFrame Env.dev oneThread.machine (pointerTo n) := by
    intro n hn hn'
    refine ⟨frameAt n, frameAt_usable n, rfl, ?_⟩
    rw [frameAt_number]
    revert n
    decide
  refine ⟨fun n st hst => ?_, fun p o hp => ?_, fun p o hp => ?_, pointerTo 1, rfl, rfl⟩
  · have hn : n < 8 := by
      by_contra hge
      have hnone : oneThread.machine.stateOf n = none := by
        unfold Machine.stateOf Machine.typing
        rw [List.getElem?_eq_none
          (show oneThread.machine.retypeMap.length ≤ n from Nat.le_of_not_lt hge)]
        rfl
      rw [hnone] at hst
      cases hst
    show 0xFFFF800000000000 + (n + 1) * 0x1000 ≤ 2 ^ 64
    omega
  · rcases oneThread_objects hp with ⟨rfl, _⟩ | ⟨rfl, _⟩ | ⟨rfl, _⟩ | ⟨rfl, _⟩
    · exact hhome 1 (by decide) (by decide)
    · exact hhome 2 (by decide) (by decide)
    · exact hhome 3 (by decide) (by decide)
    · exact hhome 4 (by decide) (by decide)
  · rcases oneThread_objects hp with ⟨_, rfl⟩ | ⟨_, rfl⟩ | ⟨_, rfl⟩ | ⟨_, rfl⟩
    · exact ⟨rfl, pointerTo 4, rfl, rfl⟩
    · intro s
      refine ⟨fun c hc => (nomatch hc), ?_⟩
      unfold oneThreadSlots
      dsimp only
      split_ifs
      · exact rfl
      · exact rfl
      · exact rfl
      · exact rfl
      · trivial
    · trivial
    · trivial

theorem system_calls_sound_activateSelf : WellTyped Env.dev oneThread ∧ ∃ k',
    Run (SystemCall.Ends Env.dev) oneThread [⟨.free, 3, .thread .activate⟩] k' ∧
    WellTyped Env.dev k' ∧ ∀ (c : SystemCall) (e : Stop) (k'' : Kernel),
      handle Env.dev c.outside c.a c.op k' = .error e k'' → e ≠ .panic .fault := by
  obtain ⟨k', ⟨thread, ctx, hleaves⟩, _⟩ := activateSelf_leaves
  have hrun : Run (SystemCall.Ends Env.dev) oneThread [⟨.free, 3, .thread .activate⟩]
      (k'.enter ctx) := .cons (.dispatched hleaves) (.nil _)
  exact ⟨oneThread_wellTyped, _, hrun, system_calls_sound oneThread_wellTyped hrun⟩

end Harmony
