import Harmony.Caps.Construct

/-!
# When a thread is made

`Construct` makes a thread in the frame its region is mapped to, after three lookups in the tables
of its caller. The lookups clone and drop pointers, and so they change counters of frames; but not
of a frame that no pointer leads to. So whether the frame can be taken is decided before the call,
and with it whether the call, if it returns, returns `Ok`.

* `keeps_getInner`, `keeps_getResourceAs`: a lookup leaves the entry of such a frame alone.
* `KPtr.new_ok_iff`: `KPtr::new` takes the frames that are untyped and have no references.
* `wlp_threadCall_iff`: the whole call.
-/

namespace Harmony

open Lib

/-! ## Entries that no pointer leads to -/

section Avoids

variable {env : Env} {objects : KPtr → Option Object} {n : Nat} {e : Option (State × Nat)}

/-- The pointer does not lead to frame number `n`. -/
def KPtr.Avoids (env : Env) (n : Nat) (p : KPtr) : Prop :=
  ∀ f, p.frame env = .ok f → f.number ≠ n

/-- No pointer in an object leads to frame number `n`. -/
def Shunned (env : Env) (objects : KPtr → Option Object) (n : Nat) : Prop :=
  ∀ p q, PointsTo env objects p q → q.Avoids env n

/-- The objects are these, and the entry of frame number `n` is `e`. -/
def Still (objects : KPtr → Option Object) (n : Nat) (e : Option (State × Nat)) (k : Kernel) :
    Prop :=
  k.objects = objects ∧ k.machine.typing n = e

/-- Code of the machine below that sets the entry of another frame. -/
theorem keeps_onMachine {α : Type} {V : α → Prop} {x : KM α}
    (h : ∀ m a m', x m = .ok a m' → V a ∧ m'.typing n = m.typing n) :
    Keeps (Still objects n e) V (onMachine x) := by
  rintro k ⟨hobjects, hentry⟩
  refine wlp_onMachine fun a m' hrun => ?_
  obtain ⟨ha, hm'⟩ := h _ _ _ hrun
  exact ⟨ha, hobjects, hm'.trans hentry⟩

/-- The entry of another frame is set. -/
theorem typing_setEntry_ne {m : Machine} {i : Nat} (hne : i ≠ n) (e' : RetypeEntry) :
    (m.setEntry i e').typing n = m.typing n := by
  unfold Machine.typing
  rw [Machine.getElem?_setEntry_ne hne.symm]

theorem keeps_hold (p : KPtr) (d : Int) :
    Keeps (Still objects n e) (fun _ => True) (modify fun k => k.hold p d : CM PUnit) :=
  fun _ hk => wlp_modify ⟨trivial, hk⟩

/-- A clone, of a pointer that leads elsewhere. -/
theorem keeps_cloneHandle {p : KPtr} (hp : p.Avoids env n) :
    Keeps (Still objects n e) (· = p) (cloneHandle env p) := by
  refine Keeps.bind (keeps_onMachine (V := (· = p)) fun m q m' hq => ?_) fun q hq =>
    (keeps_hold q 1).bind fun _ _ => .pure hq
  obtain ⟨rfl, f, _, e', hf, _, _, rfl⟩ := KPtr.clone_eq_ok hq
  exact ⟨rfl, typing_setEntry_ne (hp f hf) e'⟩

/-- A drop of such a pointer. -/
theorem keeps_dropHandle {p : KPtr} (hp : p.Avoids env n) :
    Keeps (Still objects n e) (fun _ => True) (dropHandle env p) := by
  refine Keeps.bind (keeps_onMachine (V := fun _ => True) fun m u m' hu => ?_) fun _ _ =>
    keeps_hold p (-1)
  obtain ⟨f, _, e', hf, _, _, _, rfl⟩ := KPtr.drop_eq_ok hu
  exact ⟨trivial, typing_setEntry_ne (hp f hf) e'⟩

/-- The pointers of a slot do not lead there. -/
def CapSlot.Avoids (env : Env) (n : Nat) (slot : CapSlot) : Prop :=
  (∀ q, slot.child = some q → q.Avoids env n) ∧
    ∀ q, slot.resource.ptr = some q → q.Avoids env n

/-- The pointers of a stored slot lead elsewhere. -/
theorem Shunned.slot (h : Shunned env objects n) {p : KPtr} {s : SlotId numSlots} {slot : CapSlot}
    (hslot : slotOf objects p s = some slot) : slot.Avoids env n :=
  ⟨fun _ hq => h p _ (pointsTo_of_slotOf hslot (.inl hq)),
    fun _ hq => h p _ (pointsTo_of_slotOf hslot (.inr hq))⟩

theorem keeps_cloneOption {c : Option KPtr} (h : ∀ q, c = some q → q.Avoids env n) :
    Keeps (Still objects n e) (· = c) (cloneOption env c) := by
  cases c with
  | none => exact .pure rfl
  | some p => exact (keeps_cloneHandle (h p rfl)).bind fun q hq => .pure (by rw [hq])

theorem keeps_cloneResource {r : Resource} (h : ∀ q, r.ptr = some q → q.Avoids env n) :
    Keeps (Still objects n e) (· = r) (cloneResource env r) := by
  cases r with
  | empty => exact .pure rfl
  | capEntry p | thread p | pageTable p flags =>
    exact (keeps_cloneHandle (h p rfl)).bind fun q hq => .pure (by rw [hq])

theorem keeps_dropOption {c : Option KPtr} (h : ∀ q, c = some q → q.Avoids env n) :
    Keeps (Still objects n e) (fun _ => True) (dropOption env c) := by
  cases c with
  | none => exact .pure trivial
  | some p => exact keeps_dropHandle (h p rfl)

theorem keeps_dropResource {r : Resource} (h : ∀ q, r.ptr = some q → q.Avoids env n) :
    Keeps (Still objects n e) (fun _ => True) (dropResource env r) := by
  cases r with
  | empty => exact .pure trivial
  | capEntry p | thread p | pageTable p flags => exact keeps_dropHandle (h p rfl)

/-- `AtomicCapSlot::get`. -/
theorem keeps_slotGet (h : Shunned env objects n) (p : KPtr) (s : SlotId numSlots) :
    Keeps (Still objects n e) (CapSlot.Avoids env n) (AtomicCapSlot.get env p s) := by
  have hat : Keeps (Still objects n e) (CapSlot.Avoids env n) (slotAt p s) := by
    intro k hk
    refine wlp_mono (wlp_slotAt p s) ?_
    rintro slot _ ⟨rfl, hslot⟩
    rw [hk.1] at hslot
    exact ⟨h.slot hslot, hk⟩
  refine hat.bind fun slot hslot => (keeps_cloneOption hslot.1).bind ?_
  rintro _ rfl
  refine (keeps_cloneResource hslot.2).bind ?_
  rintro _ rfl
  exact .pure hslot

/-- One step of a lookup. -/
theorem keeps_slotChild (h : Shunned env objects n) {this : KPtr} (hthis : this.Avoids env n)
    (s : SlotId numSlots) :
    Keeps (Still objects n e) (fun c => ∀ q, c = some q → q.Avoids env n)
      (AtomicCapSlot.child env this s) :=
  (keeps_slotGet h this s).bind fun _ hslot => (keeps_dropResource hslot.2).bind fun _ _ =>
    (keeps_dropHandle hthis).bind fun _ _ => .pure hslot.1

/-- **A lookup**, along any links. -/
theorem keeps_getInner (h : Shunned env objects n) (fuel : Nat) : ∀ (this : KPtr) (id : Nat),
    this.Avoids env n → Keeps (Still objects n e) (fun r => ∀ found, r = some found →
      found.1.Avoids env n) (TrieEntry.getInner (AtomicCapSlot.child env) fuel this id) := by
  induction fuel with
  | zero =>
    intro this id _
    rw [TrieEntry.getInner]
    refine .pure fun found hfound => ?_
    cases hfound
  | succ fuel ih =>
    intro this id hthis
    rw [TrieEntry.getInner]
    split
    · refine .pure ?_
      rintro found hfound
      obtain rfl := Option.some.inj hfound
      exact hthis
    · refine (keeps_slotChild h hthis _).bind fun c hc => ?_
      cases c with
      | none =>
        refine .pure fun found hfound => ?_
        cases hfound
      | some next => exact ih next (id / numSlots) (hc next rfl)

/-- `get_capability`: what it hands out leads elsewhere, too. -/
theorem keeps_getCapability (h : Shunned env objects n) {this : KPtr} (hthis : this.Avoids env n)
    (cap : CapId) :
    Keeps (Still objects n e) (fun r => ∀ slot, r = .ok slot → slot.Avoids env n)
      (CapEntry.getCapability env this cap) := by
  have hfind : Keeps (Still objects n e) (fun r => ∀ found, r = .ok found → found.1.Avoids env n)
      (CapEntry.find env this cap) := by
    refine (keeps_getInner h 32 this cap.toNat hthis).bind fun r hr => ?_
    cases r with
    | none =>
      refine .pure fun found hfound => ?_
      cases hfound
    | some found =>
      refine .pure fun found' hfound => ?_
      obtain rfl := Except.ok.inj hfound
      exact hr _ rfl
  refine hfind.bind fun r hr => ?_
  cases r with
  | error err =>
    refine .pure fun slot hslot => ?_
    cases hslot
  | ok found =>
    refine (keeps_slotGet h found.1 found.2).bind fun slot hslot =>
      (keeps_dropHandle (hr found rfl)).bind fun _ _ => .pure fun slot' hslot' => ?_
    obtain rfl := Except.ok.inj hslot'
    exact hslot

/-- `get_resource_as`, for any conversion. -/
theorem keeps_getResourceAs {T : Type} (tryFrom : Resource → Option T) (h : Shunned env objects n)
    {this : KPtr} (hthis : this.Avoids env n) (cap : CapId) :
    Keeps (Still objects n e) (fun _ => True) (CapEntry.getResourceAs env tryFrom this cap) := by
  refine (keeps_getCapability h hthis cap).bind fun r hr => ?_
  cases r with
  | error err => exact .pure trivial
  | ok slot =>
    have hslot := hr slot rfl
    dsimp only
    cases tryFrom slot.resource with
    | some t => exact (keeps_dropOption hslot.1).bind fun _ _ => .pure trivial
    | none =>
      exact (keeps_dropResource hslot.2).bind fun _ _ => (keeps_dropOption hslot.1).bind fun _ _ =>
        .pure trivial

theorem keeps_cloneResources (h : Shunned env objects n) (self : KPtr) :
    Keeps (Still objects n e) (KPtr.Avoids env n) (Thread.cloneResources env self) := by
  have hderef : Keeps (Still objects n e) (fun t => t.resources.Avoids env n)
      (Thread.deref self) := by
    intro k hk
    refine wlp_mono (wlp_deref self) ?_
    rintro t _ ⟨rfl, ht⟩
    rw [hk.1] at ht
    exact ⟨h self _ ⟨_, ht, .inl rfl⟩, hk⟩
  refine hderef.bind fun t ht k hk => wlp_mono (keeps_cloneHandle ht k hk) ?_
  rintro _ k' ⟨rfl, hk'⟩
  exact ⟨ht, hk'⟩

end Avoids

/-! ## What `Construct` makes of a thread -/

section Checks

variable {env : Env} {x : Outside} {k : Kernel} {self : KPtr} {t : Thread} {frame : RawFrame}
  {entry stackPointer : BitVec 64} {capTable pageTable : CapId}

/-- The test of the level, on the bits of a `u8`. -/
theorem not_level_eq_four_iff (level : BitVec 8) : ~~~level = 4 ↔ level = 251 := by
  constructor
  · intro h
    rw [← BitVec.not_not (b := level), h]
    decide
  · rintro rfl
    decide

/-- `KPtr::new` takes the frames that are untyped and have no references. -/
theorem KPtr.new_ok_iff {f : RawFrame} {value : PageBytes} {m m' : Machine}
    {r : Except RetypeError KPtr} (hrun : KPtr.new env f value m = .ok r m') :
    (∃ p, r = .ok p) ↔ m.typing f.number = some (.untyped, 0) := by
  constructor
  · rintro ⟨p, rfl⟩
    obtain ⟨e, _, he, hg, _⟩ := wp_ok (KPtr.wp_new env f value m) hrun
    simp [Machine.typing, he, hg]
  · intro htyping
    obtain ⟨e, he, hg⟩ := Option.map_eq_some_iff.mp htyping
    obtain ⟨e', _, hinto⟩ := tryInto_of_eq .kernel he hg
    have hkernel : f.tryIntoKernel m = .ok (.ok ⟨f⟩) (m.setEntry f.number e') := bind_of_eq_ok hinto
    unfold KPtr.new at hrun
    rw [bind_of_eq_ok hkernel] at hrun
    obtain ⟨p, _, _, hp⟩ := bind_eq_ok hrun
    injection hp with hr _
    exact ⟨p, hr.symm⟩

/-- An object is stored exactly if the frame is free. -/
theorem wlp_newObject_iff (frame : RawFrame) (o : Object) :
    wlp (newObject env x frame o) (fun r _ =>
      (∃ p, r = .ok p) ↔ k.machine.typing frame.number = some (.untyped, 0)) k := by
  refine wlp_seq (Q := fun r _ =>
    (∃ p, r = .ok p) ↔ k.machine.typing frame.number = some (.untyped, 0))
    (wlp_onMachine fun r m' hr => KPtr.new_ok_iff hr) fun r k₁ hr => ?_
  cases r with
  | error e => exact wlp_seq (wlp_returned _) fun _ _ _ => wlp_pure hr
  | ok p => exact wlp_seq (wlp_modify hr) fun _ _ hr => wlp_pure hr

/-- The caller resolves a capability id, and a frame that no pointer leads to keeps its entry. -/
theorem wlp_ownStill {T β : Type} {tryFrom : Resource → Option T} {ptr : T → KPtr}
    (hptr : ∀ r t, tryFrom r = some t → r.ptr = some (ptr t)) {n : Nat}
    (hn : Shunned env k.objects n) (ht : k.objects self = some (.thread t)) (cap : CapId)
    {f : Except CapError T → CM β} {Q : β → Kernel → Prop}
    (hf : ∀ r k', r = resourceAs tryFrom (capabilityOf k.objects t.resources cap) →
      Still k.objects n (k.machine.typing n) k' → wlp (f r) Q k') :
    wlp (Thread.cloneResources env self >>= fun root =>
      CapEntry.getResourceAs env tryFrom root cap >>= f) Q k := by
  refine wlp_seq (wlp_and (wlp_cloneResources self) (keeps_cloneResources hn self k ⟨rfl, rfl⟩)) ?_
  rintro _ k₁ ⟨⟨t', ht', rfl, h₁⟩, havoids, hstill₁⟩
  obtain rfl := Object.thread.inj (Option.some.inj (ht.symm.trans ht'))
  refine wlp_seq (wlp_and (wlp_getResourceAs hptr t.resources cap)
    (keeps_getResourceAs tryFrom hn havoids cap k₁ hstill₁)) ?_
  rintro r k₂ ⟨⟨hr, _⟩, _, hstill₂⟩
  rw [h₁.objects] at hr
  exact hf r k₂ hr hstill₂

/-- A thread can be built in the frame: its capabilities are found, the level is not the one that is
refused, and the frame can be taken. -/
def Buildable (k : Kernel) (t : Thread) (frame : RawFrame) (capTable pageTable : CapId) : Prop :=
  (∃ ct, t.tableOf k.objects capTable = .ok ct) ∧
    (∃ q flags, t.pageTableOf k.objects pageTable = .ok (q, flags) ∧ flags.level ≠ 251) ∧
    k.machine.typing frame.number = some (.untyped, 0)

/-- **A thread is built** exactly if it can be. -/
theorem wlp_buildThread_iff (hn : Shunned env k.objects frame.number)
    (ht : k.objects self = some (.thread t)) :
    wlp (Thread.build env x self frame (.thread entry stackPointer capTable pageTable))
      (fun r _ => (∃ resource, r = .ok resource) ↔ Buildable k t frame capTable pageTable) k := by
  refine wlp_ownStill asCapEntry_ptr hn ht capTable fun r₁ k₁ hr₁ hstill₁ => ?_
  replace hr₁ : t.tableOf k.objects capTable = r₁ := hr₁.symm
  cases r₁ with
  | error e =>
    refine wlp_pure (iff_of_false (by simp) ?_)
    rintro ⟨⟨ct, hct⟩, _⟩
    cases hr₁.symm.trans hct
  | ok ct =>
    have hn₁ : Shunned env k₁.objects frame.number := by rwa [hstill₁.1]
    have ht₁ : k₁.objects self = some (.thread t) := by rwa [hstill₁.1]
    refine wlp_ownStill asPageTable_ptr hn₁ ht₁ pageTable fun r₂ k₂ hr₂ hstill₂ => ?_
    rw [hstill₁.1] at hr₂
    replace hr₂ : t.pageTableOf k.objects pageTable = r₂ := hr₂.symm
    cases r₂ with
    | error e =>
      refine wlp_seq (wlp_returned _) fun _ _ _ => wlp_pure (iff_of_false (by simp) ?_)
      rintro ⟨_, ⟨q, flags, hpt, _⟩, _⟩
      cases hr₂.symm.trans hpt
    | ok found =>
      obtain ⟨pt, flags⟩ := found
      show wlp (if ~~~flags.level = 4 then _ else _) _ _
      split
      · rename_i hlevel
        refine wlp_seq (wlp_returned _) fun _ _ _ => wlp_seq (wlp_returned _) fun _ _ _ =>
          wlp_pure (iff_of_false (by simp) ?_)
        rintro ⟨_, ⟨q, flags', hpt, hne⟩, _⟩
        obtain ⟨_, rfl⟩ := Prod.mk.inj (Except.ok.inj (hr₂.symm.trans hpt))
        exact hne ((not_level_eq_four_iff _).mp hlevel)
      · rename_i hlevel
        have hother : flags.level ≠ 251 := fun h => hlevel ((not_level_eq_four_iff _).mpr h)
        have hentry := hstill₂.2.trans hstill₁.2
        refine wlp_seq (wlp_orPanic _) ?_
        rintro l4Frame _ ⟨rfl, _⟩
        refine wlp_seq (wlp_newObject_iff frame _) fun r k₃ hr => ?_
        rw [hentry] at hr
        have hbuildable : Buildable k t frame capTable pageTable ↔ ∃ p, r = .ok p :=
          ⟨fun h => hr.mpr h.2.2, fun h => ⟨⟨ct, hr₁⟩, ⟨pt, flags, hr₂, hother⟩, hr.mp h⟩⟩
        rw [hbuildable]
        cases r with
        | error e => exact wlp_pure (by simp)
        | ok p => exact wlp_pure (by simp)

/-- The operation on a table, with the region that is mapped. -/
theorem wlp_constructThread_iff {region : Nat} {s : SlotId numSlots}
    (hn : Shunned env k.objects frame.number) (ht : k.objects self = some (.thread t))
    (hmaps : Maps env k x region frame) (table : KPtr) :
    wlp (Thread.onCapTable env x self table
        (.construct (.thread entry stackPointer capTable pageTable) region s))
      (fun r _ => (∃ n, r = .ok n) ↔ Buildable k t frame capTable pageTable) k := by
  refine wlp_seq (wlp_region self region) ?_
  rintro r k ⟨rfl, hr⟩
  cases r with
  | error e => exact absurd hmaps (hr.2 frame)
  | ok frame' =>
    obtain rfl : frame' = frame := Maps.unique hr hmaps
    refine wlp_seq (wlp_buildThread_iff hn ht) fun r k₁ hr₁ => ?_
    rw [← hr₁]
    cases r with
    | error e => exact wlp_pure (by simp)
    | ok resource => exact wlp_seq (wlp_returned _) fun _ _ _ => wlp_pure (by simp)

/-- **When a thread is made**, by a call that returns. -/
theorem wlp_threadCall_iff {region : Nat} {s : SlotId numSlots} {cap : CapId}
    (hn : Shunned env k.objects frame.number) (ht : k.objects self = some (.thread t))
    (hmaps : Maps env k x region frame) :
    wlp (Thread.exerciseCap env x self cap
        (.capTable (.construct (.thread entry stackPointer capTable pageTable) region s)))
      (fun r _ => (∃ n, r = .ok n) ↔
        (∃ table, t.tableOf k.objects cap = .ok table) ∧ Buildable k t frame capTable pageTable)
      k := by
  refine wlp_seq (wlp_and (wlp_cloneResources self) (keeps_cloneResources hn self k ⟨rfl, rfl⟩)) ?_
  rintro _ k₁ ⟨⟨t', ht', rfl, h₁⟩, havoids, hstill₁⟩
  obtain rfl := Object.thread.inj (Option.some.inj (ht.symm.trans ht'))
  refine wlp_seq (wlp_and (wlp_getCapability t.resources cap)
    (keeps_getCapability hn havoids cap k₁ hstill₁)) ?_
  rintro r k₂ ⟨h₂, _, hobjects, hentry⟩
  rw [h₁.objects] at h₂
  have htable : t.tableOf k.objects cap =
      resourceAs Resource.asCapEntry (capabilityOf k.objects t.resources cap) := rfl
  have hrefused : ∀ e, (∀ table, t.tableOf k.objects cap ≠ .ok table) →
      ((∃ n, (Except.error e : Except CapError Nat) = .ok n) ↔
        (∃ table, t.tableOf k.objects cap = .ok table) ∧
          Buildable k t frame capTable pageTable) := by
    intro e hnot
    refine iff_of_false (by simp) ?_
    rintro ⟨⟨table, htable⟩, _⟩
    exact hnot table htable
  cases hcap : capabilityOf k.objects t.resources cap with
  | none =>
    rw [hcap] at h₂ htable
    obtain ⟨rfl, _⟩ := h₂
    exact wlp_pure (hrefused _ (by simp [htable, resourceAs]))
  | some slot =>
    rw [hcap] at h₂ htable
    obtain ⟨rfl, h₂⟩ := h₂
    obtain ⟨child, resource⟩ := slot
    cases resource with
    | empty =>
      refine wlp_seq (wlp_returned _) fun _ _ _ => wlp_pure (hrefused _ ?_)
      simp [htable, resourceAs, Resource.asCapEntry]
    | thread ptr =>
      refine wlp_seq (wlp_returned _) fun _ _ _ => wlp_seq (wlp_returned _) fun _ _ _ =>
        wlp_pure (hrefused _ ?_)
      simp [htable, resourceAs, Resource.asCapEntry]
    | pageTable ptr flags => exact wlp_throw _
    | capEntry table =>
      have hn₂ : Shunned env k₂.objects frame.number := by rwa [hobjects]
      have ht₂ : k₂.objects self = some (.thread t) := by rwa [hobjects]
      have hmaps₂ : Maps env k₂ x region frame := ((h₁.trans h₂).maps_iff x region frame).mpr hmaps
      refine wlp_seq (wlp_constructThread_iff hn₂ ht₂ hmaps₂ table) fun r k₃ hr => ?_
      refine wlp_seq (wlp_returned _) fun _ _ _ => wlp_seq (wlp_returned _) fun _ _ _ => wlp_pure ?_
      unfold Buildable at hr ⊢
      rw [hr, hobjects, hentry]
      exact ⟨fun h => ⟨⟨table, htable⟩, h⟩, fun h => h.2⟩

end Checks

end Harmony
