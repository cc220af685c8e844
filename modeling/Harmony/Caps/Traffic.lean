import Mathlib.Algebra.Group.Pi.Lemmas
import Mathlib.Tactic.Abel
import Harmony.Caps.Kernel

/-!
# Pointer traffic

Looking a capability up clones and drops pointers and changes nothing else: no object, no frame's
state, no memory. `Traffic k k' d` says so of two states, with `d` the change of the ledger of
pointers, and it composes by adding the changes (`Traffic.trans`).

* `wlp_cloneHandle`, `wlp_dropHandle`: one pointer.
* `wlp_getCapability`, `wlp_getResourceAs`: a lookup is the walk in the graph of tables as it is,
  and what it hands out is what the ledger gains.
* `wlp_change`: a change of a slot is that change of the objects.
-/

namespace Harmony

open Lib

/-! ## What a value holds -/

/-- The pointer of an `Option<KPtr<_>>`, in the ledger. -/
def ofOption : Option KPtr → KPtr → Int
  | none => 0
  | some p => Pi.single p 1

/-- The pointer in a resource. -/
def Resource.ptr : Resource → Option KPtr
  | .empty => none
  | .capEntry table => some table
  | .thread ptr => some ptr
  | .pageTable table _ => some table

/-- The pointers of a slot, in the ledger. -/
def ofSlot (slot : CapSlot) : KPtr → Int := ofOption slot.child + ofOption slot.resource.ptr

/-- The state of frame number `n`; `none` past the end of the table. -/
def Machine.stateOf (m : Machine) (n : Nat) : Option State := (m.typing n).map Prod.fst

/-- Nothing has changed but counters and the ledger, which gained `d`. -/
structure Traffic (k k' : Kernel) (d : KPtr → Int) : Prop where
  objects : k'.objects = k.objects
  active : k'.active = k.active
  mem : k'.machine.mem = k.machine.mem
  cr3 : k'.machine.cr3 = k.machine.cr3
  state : ∀ n, k'.machine.stateOf n = k.machine.stateOf n
  handles : k'.handles = k.handles + d

theorem Traffic.refl (k : Kernel) : Traffic k k 0 :=
  ⟨rfl, rfl, rfl, rfl, fun _ => rfl, (add_zero _).symm⟩

theorem Traffic.trans {k₁ k₂ k₃ : Kernel} {d d' : KPtr → Int} (h : Traffic k₁ k₂ d)
    (h' : Traffic k₂ k₃ d') : Traffic k₁ k₃ (d + d') where
  objects := h'.objects.trans h.objects
  active := h'.active.trans h.active
  mem := h'.mem.trans h.mem
  cr3 := h'.cr3.trans h.cr3
  state n := (h'.state n).trans (h.state n)
  handles := by rw [h'.handles, h.handles, add_assoc]

/-- Traffic with its change of the ledger written another way. -/
theorem Traffic.of_eq {k k' : Kernel} {d d' : KPtr → Int} (h : Traffic k k' d) (hd : d = d') :
    Traffic k k' d' := hd ▸ h

/-- A slot that was cloned, dropped again. -/
theorem Traffic.give_back {k k₁ k₂ k₃ : Kernel} {slot : CapSlot} (h₁ : Traffic k k₁ (ofSlot slot))
    (h₂ : Traffic k₁ k₂ (-ofOption slot.resource.ptr)) (h₃ : Traffic k₂ k₃ (-ofOption slot.child)) :
    Traffic k k₃ 0 := by
  refine ((h₁.trans h₂).trans h₃).of_eq ?_
  rw [ofSlot]
  abel

/-! ## One pointer -/

section Machine

variable {env : Env} {m m' : Machine}

/-- An entry overwritten with one of the same state. -/
theorem Machine.stateOf_setEntry {n : Nat} {e e' : RetypeEntry} (h : m.retypeMap[n]? = some e)
    (hstate : e'.get.1 = e.get.1) (i : Nat) : (m.setEntry n e').stateOf i = m.stateOf i := by
  unfold Machine.stateOf Machine.typing
  by_cases hi : i = n
  · subst hi
    rw [Machine.getElem?_setEntry_self e' h, h]
    simp [hstate]
  · rw [Machine.getElem?_setEntry_ne hi]

/-- The frame of a pointer, made into a pointer again, is that pointer. -/
theorem KPtr.inner_of_frame {p : KPtr} {f : RawFrame} {v : VirtAddr} (hf : p.frame env = .ok f)
    (hv : f.base.toVirtual env = .ok v) : v = p.inner := by
  unfold KPtr.frame PhysAddr.fromVirtual at hf
  cases hsub : env.sub p.inner.addr env.pmo with
  | error e => rw [hsub] at hf; cases hf
  | ok paddr =>
    rw [hsub] at hf
    simp only at hf
    cases hnew : PhysAddr.new paddr with
    | error e => rw [hnew] at hf; cases hf
    | ok a =>
      rw [hnew] at hf
      obtain ⟨hbase, _⟩ := RawFrame.fromStartAddress_eq_ok hf
      have ha := PhysAddr.new_eq_ok hnew
      unfold PhysAddr.toVirtual at hv
      cases hadd : env.add env.pmo f.base.addr with
      | error e => rw [hadd] at hv; cases hv
      | ok virt =>
        rw [hadd] at hv
        have hvirt := VirtAddr.new_eq_ok hv
        have hlt := p.inner.lt
        have hpmo := env.pmo_lt
        -- the sum undoes the difference, with both in range or both wrapped
        have haddr : v.addr = p.inner.addr := by
          rw [hbase, ha] at hadd
          rcases Env.sub_eq_ok hsub with ⟨_, rfl⟩ | ⟨_, _, rfl⟩ <;>
            rcases Env.add_eq_ok hadd with ⟨_, rfl⟩ | ⟨_, _, rfl⟩ <;> omega
        obtain ⟨a, _⟩ := v
        obtain ⟨⟨b, _⟩⟩ := p
        obtain rfl : a = b := haddr
        rfl

/-- A clone that returned: the same pointer, one reference more. -/
theorem KPtr.clone_eq_ok {p q : KPtr} (h : p.clone env m = .ok q m') :
    q = p ∧ ∃ f e e', p.frame env = .ok f ∧ m.retypeMap[f.number]? = some e ∧
      e'.get = (e.get.1, e.get.2 + 1) ∧ m' = m.setEntry f.number e' := by
  unfold KPtr.clone at h
  obtain ⟨f, m₁, hf, h⟩ := bind_eq_ok h
  cases hframe : p.frame env with
  | error e => rw [hframe] at hf; cases hf
  | ok f' =>
    rw [hframe] at hf
    obtain ⟨rfl, rfl⟩ : f' = f ∧ m = m₁ := by
      injection hf with h1 h2
      exact ⟨h1, h2⟩
    obtain ⟨k, m₂, hk, h⟩ := bind_eq_ok h
    have hq : wp (KPtr.fromFrameUnchecked env k)
        (fun q m' => m' = m₂ ∧ k.frame.base.toVirtual env = .ok q.inner) (fun _ _ => True) m₂ := by
      unfold KPtr.fromFrameUnchecked
      rw [wp_bind]
      exact wp_mono (KPtr.wp_pointer env k.frame m₂) (fun v m' hv => ⟨hv.1, hv.2.1⟩) fun _ _ _ =>
        trivial
    obtain ⟨rfl, hv⟩ := wp_ok hq h
    cases he : m.retypeMap[f'.number]? with
    | none =>
      unfold RawFrame.asKernelUnchecked at hk
      rw [bind_of_eq_ok (stepEntry_of_none _ he)] at hk
      cases hk
    | some e =>
      by_cases hmax : e.get.2 = 16383
      · have hs : (Except.ok e.increment : Except Panic _) = .ok (.error .mk, e) := by
          rw [RetypeEntry.increment_of_max hmax]
        unfold RawFrame.asKernelUnchecked at hk
        rw [bind_of_eq_ok (stepEntry_of_same _ he hs)] at hk
        cases hk
      · obtain ⟨e', hg, hrun⟩ := asKernelUnchecked_of_ne he hmax
        rw [hrun] at hk
        injection hk with h1 h2
        subst h1 h2
        refine ⟨?_, f', e, e', rfl, he, hg, rfl⟩
        have hinner := KPtr.inner_of_frame hframe hv
        cases q
        cases p
        exact congrArg KPtr.mk hinner

/-- A drop that returned: two references fewer, and the object stays. -/
theorem KPtr.drop_eq_ok {p : KPtr} {u : Unit} (h : p.drop env m = .ok u m') :
    ∃ f e e', p.frame env = .ok f ∧ m.retypeMap[f.number]? = some e ∧ 2 ≤ e.get.2 ∧
      e'.get = (e.get.1, e.get.2 - 2) ∧ m' = m.setEntry f.number e' := by
  unfold KPtr.drop at h
  obtain ⟨f, m₁, hf, h⟩ := bind_eq_ok h
  cases hframe : p.frame env with
  | error e => rw [hframe] at hf; cases hf
  | ok f' =>
    rw [hframe] at hf
    obtain ⟨rfl, rfl⟩ : f' = f ∧ m = m₁ := by
      injection hf with h1 h2
      exact ⟨h1, h2⟩
    obtain ⟨count, m₂, hdrop, h⟩ := bind_eq_ok h
    replace hdrop : dropMethod f' m = .ok count m₂ := hdrop
    cases he : m.retypeMap[f'.number]? with
    | none =>
      unfold dropMethod decrementEntry at hdrop
      obtain ⟨a, m₃, hstep, _⟩ := bind_eq_ok hdrop
      rw [bind_of_eq_ok (stepEntry_of_none _ he)] at hstep
      cases hstep
    | some e =>
      by_cases h2 : 2 ≤ e.get.2
      · obtain ⟨e', hg, hrun⟩ := dropMethod_of_two_le he h2
        rw [hrun] at hdrop
        injection hdrop with h1 hm
        subst h1 hm
        rw [if_neg (by omega)] at h
        injection h with _ hm'
        exact ⟨f', e, e', rfl, he, h2, hg, hm'.symm⟩
      · by_cases h0 : e.get.2 = 0
        · rw [dropMethod_of_zero he h0] at hdrop
          cases hdrop
        · obtain ⟨e', hrun⟩ := dropMethod_of_one he (by omega)
          rw [hrun] at hdrop
          cases hdrop

end Machine

section Handles

variable {env : Env} {k : Kernel}

/-- Code of the machine below, if it returns. -/
theorem wlp_onMachine {α : Type} {x : KM α} {Q : α → Kernel → Prop}
    (h : ∀ a m', x k.machine = .ok a m' → Q a { k with machine := m' }) :
    wlp (onMachine x) Q k := by
  refine wlp_of_ok fun a k' hk => ?_
  unfold onMachine at hk
  cases hx : x k.machine with
  | ok b m' =>
    rw [hx] at hk
    injection hk with h₁ h₂
    subst h₁ h₂
    exact h b m' hx
  | error p m' =>
    rw [hx] at hk
    cases hk

theorem wlp_cloneHandle (p : KPtr) :
    wlp (cloneHandle env p) (fun q k' => q = p ∧ Traffic k k' (Pi.single p 1)) k := by
  refine wlp_seq (Q := fun q k₁ => q = p ∧ Traffic k (k₁.hold q 1) (Pi.single p 1)) ?_ ?_
  · refine wlp_onMachine fun q m' hq => ?_
    obtain ⟨rfl, f, e, e', _, he, hg, rfl⟩ := KPtr.clone_eq_ok hq
    exact ⟨rfl, rfl, rfl, rfl, rfl, Machine.stateOf_setEntry he (by rw [hg]), rfl⟩
  · intro q k₁ h
    exact wlp_seq (wlp_modify h) fun _ _ h => wlp_pure h

theorem wlp_dropHandle (p : KPtr) :
    wlp (dropHandle env p) (fun _ k' => Traffic k k' (-Pi.single p 1)) k := by
  refine wlp_seq (Q := fun _ k₁ => Traffic k (k₁.hold p (-1)) (-Pi.single p 1)) ?_ fun _ _ h =>
    wlp_modify h
  refine wlp_onMachine fun u m' hu => ?_
  obtain ⟨f, e, e', _, he, _, hg, rfl⟩ := KPtr.drop_eq_ok hu
  refine ⟨rfl, rfl, rfl, rfl, Machine.stateOf_setEntry he (by rw [hg]), ?_⟩
  rw [← Pi.single_neg]
  rfl

theorem wlp_cloneOption (c : Option KPtr) :
    wlp (cloneOption env c) (fun c' k' => c' = c ∧ Traffic k k' (ofOption c)) k := by
  cases c with
  | none => exact wlp_pure ⟨rfl, Traffic.refl k⟩
  | some p =>
    refine wlp_seq (wlp_cloneHandle p) ?_
    rintro q k' ⟨rfl, h⟩
    exact wlp_pure ⟨rfl, h⟩

theorem wlp_cloneResource (r : Resource) :
    wlp (cloneResource env r) (fun r' k' => r' = r ∧ Traffic k k' (ofOption r.ptr)) k := by
  cases r with
  | empty => exact wlp_pure ⟨rfl, Traffic.refl k⟩
  | capEntry p | thread p | pageTable p flags =>
    refine wlp_seq (wlp_cloneHandle p) ?_
    rintro q k' ⟨rfl, h⟩
    exact wlp_pure ⟨rfl, h⟩

theorem wlp_dropOption (c : Option KPtr) :
    wlp (dropOption env c) (fun _ k' => Traffic k k' (-ofOption c)) k := by
  cases c with
  | none => exact wlp_pure ((Traffic.refl k).of_eq neg_zero.symm)
  | some p => exact wlp_dropHandle p

theorem wlp_dropResource (r : Resource) :
    wlp (dropResource env r) (fun _ k' => Traffic k k' (-ofOption r.ptr)) k := by
  cases r with
  | empty => exact wlp_pure ((Traffic.refl k).of_eq neg_zero.symm)
  | capEntry p | thread p | pageTable p flags => exact wlp_dropHandle p

theorem wlp_dropSlot (slot : CapSlot) :
    wlp (dropSlot env slot) (fun _ k' => Traffic k k' (-ofSlot slot)) k := by
  refine wlp_seq (wlp_dropOption slot.child) fun _ k₁ h₁ => ?_
  refine wlp_mono (wlp_dropResource slot.resource) fun _ k₂ h₂ => (h₁.trans h₂).of_eq ?_
  rw [ofSlot, neg_add]

end Handles

/-! ## Slots -/

/-- The slot `s` of the table at `p`, if there is a table. -/
def slotOf (objects : KPtr → Option Object) (p : KPtr) (s : SlotId numSlots) : Option CapSlot :=
  match objects p with
  | some (.capTable slots) => some (slots s)
  | _ => none

/-- The links of the capability tables. -/
def linksOf (objects : KPtr → Option Object) (p : KPtr) (s : SlotId numSlots) : Option KPtr :=
  (slotOf objects p s).bind TrieEntry.Slot.child

theorem slotOf_eq_some {objects : KPtr → Option Object} {p : KPtr} {s : SlotId numSlots}
    {slot : CapSlot} : slotOf objects p s = some slot ↔
      ∃ slots, objects p = some (.capTable slots) ∧ slots s = slot := by
  unfold slotOf
  split
  · rename_i slots hp
    simp [hp]
  · rename_i hne
    simp only [reduceCtorEq, false_iff, not_exists, not_and]
    intro slots hp
    exact absurd hp (hne slots)

theorem Traffic.setObject {k k' : Kernel} {d : KPtr → Int} (h : Traffic k k' d) (p : KPtr)
    (o : Object) : Traffic (k.setObject p o) (k'.setObject p o) d where
  objects := by rw [Kernel.setObject, Kernel.setObject, h.objects]
  active := h.active
  mem := h.mem
  cr3 := h.cr3
  state := h.state
  handles := h.handles

section Slots

variable {env : Env} {k : Kernel}

theorem wlp_slotAt (p : KPtr) (s : SlotId numSlots) :
    wlp (slotAt p s) (fun slot k' => k' = k ∧ slotOf k.objects p s = some slot) k := by
  unfold slotAt
  refine wlp_get ?_
  split
  · rename_i slots hp
    exact wlp_pure ⟨rfl, slotOf_eq_some.mpr ⟨slots, hp, rfl⟩⟩
  · exact wlp_throw _

theorem wlp_slotGet (p : KPtr) (s : SlotId numSlots) :
    wlp (AtomicCapSlot.get env p s)
      (fun slot k' => slotOf k.objects p s = some slot ∧ Traffic k k' (ofSlot slot)) k := by
  refine wlp_seq (wlp_slotAt p s) ?_
  rintro slot _ ⟨rfl, hslot⟩
  refine wlp_seq (wlp_cloneOption slot.child) ?_
  rintro _ k₁ ⟨rfl, h₁⟩
  refine wlp_seq (wlp_cloneResource slot.resource) ?_
  rintro _ k₂ ⟨rfl, h₂⟩
  exact wlp_pure ⟨hslot, h₁.trans h₂⟩

/-- A change of a slot, by a function that computes `g` and has the traffic `d`. -/
theorem wlp_change {p : KPtr} {s : SlotId numSlots} {f : CapSlot → CM CapSlot}
    {g : CapSlot → CapSlot} {d : CapSlot → KPtr → Int}
    (hf : ∀ slot k₁, wlp (f slot) (fun slot' k₂ => slot' = g slot ∧ Traffic k₁ k₂ (d slot)) k₁) :
    wlp (AtomicCapSlot.change env p s f)
      (fun _ k' => ∃ slots, k.objects p = some (.capTable slots) ∧
        Traffic (k.setObject p (.capTable (Function.update slots s (g (slots s))))) k'
          (d (slots s))) k := by
  refine wlp_seq (wlp_slotGet p s) ?_
  rintro slot k₁ ⟨hslot, h₁⟩
  obtain ⟨slots, hp, rfl⟩ := slotOf_eq_some.mp hslot
  refine wlp_seq (hf (slots s) k₁) ?_
  rintro _ k₂ ⟨rfl, h₂⟩
  have h₁₂ := h₁.trans h₂
  have hreplace : wlp (AtomicCapSlot.replace p s (g (slots s)))
      (fun old k' => old = slots s ∧
        k' = k₂.setObject p (.capTable (Function.update slots s (g (slots s))))) k₂ := by
    unfold AtomicCapSlot.replace
    refine wlp_get ?_
    rw [h₁₂.objects, hp]
    exact wlp_seq (wlp_modify rfl) fun _ _ h => wlp_pure ⟨rfl, h⟩
  refine wlp_seq hreplace ?_
  rintro _ _ ⟨rfl, rfl⟩
  refine wlp_mono (wlp_dropSlot (slots s)) fun _ k₃ h₃ => ⟨slots, hp, ?_⟩
  refine ((h₁₂.setObject p _).trans h₃).of_eq ?_
  abel

end Slots

/-! ## Lookups -/

/-- The slot a capability id stands for in the table `root`. -/
def capabilityOf (objects : KPtr → Option Object) (root : KPtr) (cap : CapId) : Option CapSlot :=
  (TrieEntry.get (M := Id) (linksOf objects) root cap).bind fun found =>
    slotOf objects found.1 found.2

section Lookups

variable {env : Env} {k : Kernel}

/-- One step of a lookup: the child, for the table. -/
theorem wlp_slotChild (this : KPtr) (s : SlotId numSlots) :
    wlp (AtomicCapSlot.child env this s) (fun c k' => c = linksOf k.objects this s ∧
      Traffic k k' (ofOption c - Pi.single this 1)) k := by
  refine wlp_seq (wlp_slotGet this s) ?_
  rintro slot k₁ ⟨hslot, h₁⟩
  refine wlp_seq (wlp_dropResource slot.resource) fun _ k₂ h₂ => ?_
  refine wlp_seq (wlp_dropHandle this) fun _ k₃ h₃ => wlp_pure ⟨?_, ?_⟩
  · simp [linksOf, hslot]
  · refine ((h₁.trans h₂).trans h₃).of_eq ?_
    rw [ofSlot]
    abel

/-- The recursion of a lookup is the walk along the links as they are. -/
theorem wlp_getInner : ∀ (fuel : Nat) (this : KPtr) (id : Nat) (k : Kernel),
    id < numSlots ^ (fuel + 1) →
    wlp (TrieEntry.getInner (AtomicCapSlot.child env) (fuel + 1) this id)
      (fun r k' => r = TrieEntry.getInner (M := Id) (linksOf k.objects) (fuel + 1) this id ∧
        Traffic k k' (ofOption (r.map Prod.fst) - Pi.single this 1)) k := by
  intro fuel
  induction fuel with
  | zero =>
    intro this id k hid
    have hq : id / numSlots = 0 := Nat.div_eq_of_lt (by simpa using hid)
    simp only [TrieEntry.getInner, if_pos hq]
    exact wlp_pure ⟨rfl, (Traffic.refl k).of_eq (sub_self _).symm⟩
  | succ fuel ih =>
    intro this id k hid
    rw [TrieEntry.getInner, TrieEntry.getInner]
    by_cases hq : id / numSlots = 0
    · simp only [if_pos hq]
      exact wlp_pure ⟨rfl, (Traffic.refl k).of_eq (sub_self _).symm⟩
    · simp only [if_neg hq]
      refine wlp_seq (wlp_slotChild this _) ?_
      rintro c k₁ ⟨hc, h₁⟩
      cases c with
      | none =>
        refine wlp_pure ⟨?_, h₁⟩
        rw [← hc]
        rfl
      | some next =>
        have hnext : id / numSlots < numSlots ^ (fuel + 1) :=
          Nat.div_lt_of_lt_mul (by rwa [← Nat.pow_succ'])
        refine wlp_mono (ih next (id / numSlots) k₁ hnext) ?_
        rintro r k₂ ⟨hr, h₂⟩
        refine ⟨?_, (h₁.trans h₂).of_eq ?_⟩
        · rw [hr, h₁.objects, ← hc]
          rfl
        · rw [ofOption]
          abel

theorem wlp_find (this : KPtr) (cap : CapId) :
    wlp (CapEntry.find env this cap) (fun r k' =>
      match TrieEntry.get (M := Id) (linksOf k.objects) this cap with
      | none => r = .error .notFound ∧ Traffic k k' (-Pi.single this 1)
      | some found => r = .ok found ∧ Traffic k k' (Pi.single found.1 1 - Pi.single this 1)) k := by
  refine wlp_seq (wlp_getInner 31 this cap.toNat k
    (TrieEntry.id_lt_pow (by decide) (Nat.le_refl 31) cap)) ?_
  rintro r k₁ ⟨hr, h₁⟩
  replace hr : TrieEntry.get (M := Id) (linksOf k.objects) this cap = r := hr.symm
  rw [hr]
  cases r with
  | none => exact wlp_pure ⟨rfl, h₁.of_eq (zero_sub _)⟩
  | some found => exact wlp_pure ⟨rfl, h₁⟩

/-- A lookup: `NotFound`, or a clone of the slot that the id stands for. -/
theorem wlp_getCapability (this : KPtr) (cap : CapId) :
    wlp (CapEntry.getCapability env this cap) (fun r k' =>
      match capabilityOf k.objects this cap with
      | none => r = .error .notFound ∧ Traffic k k' (-Pi.single this 1)
      | some slot => r = .ok slot ∧ Traffic k k' (ofSlot slot - Pi.single this 1)) k := by
  refine wlp_seq (wlp_find this cap) ?_
  intro r k₁ h
  unfold capabilityOf
  cases hfound : TrieEntry.get (M := Id) (linksOf k.objects) this cap with
  | none =>
    rw [hfound] at h
    obtain ⟨rfl, h₁⟩ := h
    exact wlp_pure ⟨rfl, h₁⟩
  | some found =>
    rw [hfound] at h
    obtain ⟨rfl, h₁⟩ := h
    refine wlp_seq (wlp_slotGet found.1 found.2) ?_
    rintro slot k₂ ⟨hslot, h₂⟩
    refine wlp_seq (wlp_dropHandle found.1) fun _ k₃ h₃ => wlp_pure ?_
    rw [h₁.objects] at hslot
    rw [Option.bind_some, hslot]
    refine ⟨rfl, ((h₁.trans h₂).trans h₃).of_eq ?_⟩
    abel

/-- What `get_resource_as` answers, for the slot that was found. -/
def resourceAs {T : Type} (tryFrom : Resource → Option T) : Option CapSlot → Except CapError T
  | none => .error .notFound
  | some slot =>
    match tryFrom slot.resource with
    | some t => .ok t
    | none => .error .invalidArgument

/-- `get_resource_as` hands out the resource's pointer, or nothing. -/
theorem wlp_getResourceAs {T : Type} {tryFrom : Resource → Option T} {ptr : T → KPtr}
    (hptr : ∀ r t, tryFrom r = some t → r.ptr = some (ptr t)) (this : KPtr) (cap : CapId) :
    wlp (CapEntry.getResourceAs env tryFrom this cap) (fun r k' =>
      r = resourceAs tryFrom (capabilityOf k.objects this cap) ∧
      Traffic k k' (ofOption (r.toOption.map ptr) - Pi.single this 1)) k := by
  refine wlp_seq (wlp_getCapability this cap) ?_
  intro r k₁ h
  cases hcap : capabilityOf k.objects this cap with
  | none =>
    rw [hcap] at h
    obtain ⟨rfl, h₁⟩ := h
    exact wlp_pure ⟨rfl, h₁.of_eq (zero_sub _).symm⟩
  | some slot =>
    rw [hcap] at h
    obtain ⟨rfl, h₁⟩ := h
    show wlp (match tryFrom slot.resource with | some t => _ | none => _) _ k₁
    unfold resourceAs
    cases htry : tryFrom slot.resource with
    | some t =>
      refine wlp_seq (wlp_dropOption slot.child) fun _ k₂ h₂ => wlp_pure ⟨by simp only [htry], ?_⟩
      refine (h₁.trans h₂).of_eq ?_
      rw [ofSlot, hptr _ _ htry]
      show _ = ofOption (some (ptr t)) - _
      abel
    | none =>
      refine wlp_seq (wlp_dropResource slot.resource) fun _ k₂ h₂ => ?_
      refine wlp_seq (wlp_dropOption slot.child) fun _ k₃ h₃ => wlp_pure ⟨by simp only [htry], ?_⟩
      refine ((h₁.trans h₂).trans h₃).of_eq ?_
      rw [ofSlot]
      show _ = (0 : KPtr → Int) - _
      abel

end Lookups

end Harmony
