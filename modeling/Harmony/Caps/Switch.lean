import Mathlib.Algebra.BigOperators.Fin
import Harmony.Caps.Construct

/-!
# Thread switching

`ThreadOp::Activate` ends in `ExecCtx::dispatch`, which does not come back: nothing above it on the
kernel stack is dropped. The pointer stored in `ACTIVE_THREAD` is swapped as it should be, but
three more stay behind: the one `handle` got from `Thread::current`, the argument of `dispatch`
(the resource of the cloned slot), and the child of the cloned slot, if it has one.

* `Stays`: code that stops in a panic or not at all. Everything up to the dispatch is such code.
* `wp_handleActivate`: what a system call did, whether it returned or left the kernel.
* `Balanced`: the pointers held are those stored in slots, threads and `ACTIVE_THREAD`.
* `Balanced.step`, `Switched.not_balanced`: a system call that returns keeps the balance, and one
  that leaves the kernel does not.
-/

namespace Harmony

open Lib

/-! ## Code that does not leave the kernel -/

/-- The code returns or panics. -/
def Stays {α : Type} (x : CM α) : Prop := ∀ k e k', x k = .error e k' → ∃ p, e = .panic p

/-- What holds where the kernel is left; of a panic nothing is said. -/
def Leaves (D : KPtr → ExecCtx → Kernel → Prop) : Stop → Kernel → Prop
  | .panic _, _ => True
  | .dispatched thread ctx, k => D thread ctx k

section Stays

variable {α β : Type} {env : Env}

theorem Stays.pure (a : α) : Stays (pure a : CM α) := fun _ _ _ h => by cases h

theorem Stays.panic (p : Panic) : Stays (throw (.panic p) : CM α) := by
  intro k e k' h
  injection h with h _
  exact ⟨p, h.symm⟩

theorem Stays.get : Stays (get : CM Kernel) := fun _ _ _ h => by cases h

theorem Stays.modify (f : Kernel → Kernel) : Stays (modify f : CM PUnit) :=
  fun _ _ _ h => by cases h

theorem Stays.bind {x : CM α} {f : α → CM β} (hx : Stays x) (hf : ∀ a, Stays (f a)) :
    Stays (x >>= f) := by
  intro k e k' h
  change EStateM.bind x f k = .error e k' at h
  unfold EStateM.bind at h
  cases hrun : x k with
  | ok a k₁ =>
    rw [hrun] at h
    exact hf a k₁ e k' h
  | error e₁ k₁ =>
    rw [hrun] at h
    injection h with h _
    rw [← h]
    exact hx k e₁ k₁ hrun

theorem Stays.onMachine (x : KM α) : Stays (onMachine x) := by
  intro k e k' h
  unfold Harmony.onMachine at h
  split at h
  · cases h
  · injection h with h _
    exact ⟨_, h.symm⟩

/-- What such code does, in code that may leave the kernel. -/
theorem Stays.wp_leaves {x : CM α} {Q : α → Kernel → Prop} {k : Kernel}
    {D : KPtr → ExecCtx → Kernel → Prop} (hx : Stays x) (h : wlp x Q k) : wp x Q (Leaves D) k := by
  cases hrun : x k with
  | ok a k' => exact (wp_of_eq_ok hrun).mpr (wlp_ok h hrun)
  | error e k' =>
    obtain ⟨p, rfl⟩ := hx k e k' hrun
    unfold wp
    rw [hrun]
    trivial

/-- Such code first, in code that may leave the kernel. -/
theorem Stays.wp_seq {x : CM α} {f : α → CM β} {Q : α → Kernel → Prop} {Q' : β → Kernel → Prop}
    {k : Kernel} {D : KPtr → ExecCtx → Kernel → Prop} (hx : Stays x) (h : wlp x Q k)
    (hf : ∀ a k', Q a k' → wp (f a) Q' (Leaves D) k') : wp (x >>= f) Q' (Leaves D) k :=
  Lib.wp_seq (hx.wp_leaves h) hf fun _ _ h => h

theorem stays_cloneHandle (p : KPtr) : Stays (cloneHandle env p) :=
  (Stays.onMachine _).bind fun _ => (Stays.modify _).bind fun _ => .pure _

theorem stays_dropHandle (p : KPtr) : Stays (dropHandle env p) :=
  (Stays.onMachine _).bind fun _ => .modify _

theorem stays_cloneOption (c : Option KPtr) : Stays (cloneOption env c) := by
  cases c with
  | none => exact .pure _
  | some p => exact (stays_cloneHandle p).bind fun _ => .pure _

theorem stays_cloneResource (r : Resource) : Stays (cloneResource env r) := by
  cases r with
  | empty => exact .pure _
  | capEntry p | thread p | pageTable p flags => exact (stays_cloneHandle p).bind fun _ => .pure _

theorem stays_dropOption (c : Option KPtr) : Stays (dropOption env c) := by
  cases c with
  | none => exact .pure _
  | some p => exact stays_dropHandle p

theorem stays_dropResource (r : Resource) : Stays (dropResource env r) := by
  cases r with
  | empty => exact .pure _
  | capEntry p | thread p | pageTable p flags => exact stays_dropHandle p

theorem stays_slotGet (p : KPtr) (s : SlotId numSlots) : Stays (AtomicCapSlot.get env p s) := by
  have hat : Stays (slotAt p s) := by
    refine Stays.get.bind fun k => ?_
    split
    · exact .pure _
    · exact .panic _
  exact hat.bind fun slot => (stays_cloneOption slot.child).bind fun _ =>
    (stays_cloneResource slot.resource).bind fun _ => .pure _

theorem stays_slotChild (this : KPtr) (s : SlotId numSlots) :
    Stays (AtomicCapSlot.child env this s) :=
  (stays_slotGet this s).bind fun slot => (stays_dropResource slot.resource).bind fun _ =>
    (stays_dropHandle this).bind fun _ => .pure _

theorem stays_getInner (fuel : Nat) (this : KPtr) (id : Nat) :
    Stays (TrieEntry.getInner (AtomicCapSlot.child env) fuel this id) := by
  induction fuel generalizing this id with
  | zero => exact .pure _
  | succ fuel ih =>
    rw [TrieEntry.getInner]
    split
    · exact .pure _
    · refine (stays_slotChild this _).bind fun c => ?_
      cases c with
      | none => exact .pure _
      | some next => exact ih next _

theorem stays_getCapability (this : KPtr) (cap : CapId) :
    Stays (CapEntry.getCapability env this cap) := by
  have hfind : Stays (CapEntry.find env this cap) := by
    refine (stays_getInner 32 this cap.toNat).bind fun found => ?_
    cases found with
    | none => exact .pure _
    | some found => exact .pure _
  refine hfind.bind fun r => ?_
  cases r with
  | error e => exact .pure _
  | ok found =>
    exact (stays_slotGet found.1 found.2).bind fun _ => (stays_dropHandle _).bind fun _ => .pure _

theorem stays_deref (p : KPtr) : Stays (Thread.deref p) := by
  refine Stays.get.bind fun k => ?_
  split
  · exact .pure _
  · exact .panic _

theorem stays_cloneResources (self : KPtr) : Stays (Thread.cloneResources env self) :=
  (stays_deref self).bind fun _ => stays_cloneHandle _

theorem stays_saveState (saver : Saver) (p : KPtr) : Stays (Thread.saveState saver p) :=
  (stays_deref p).bind fun _ => .modify _

end Stays

/-! ## One system call -/

section Calls

variable {env : Env} {x : Outside} {k : Kernel} {saver : Saver}

/-- The registers of the thread at `p` have been saved in it. -/
def Saved (saver : Saver) (objects objects' : KPtr → Option Object) (p : KPtr) : Prop :=
  ∃ t, objects p = some (.thread t) ∧ objects' =
    Function.update objects p (some (.thread { t with regs := saver.saveState t.regs }))

/-- The thread that ran, if one did, has its registers saved. -/
def Suspended (saver : Saver) (objects objects' : KPtr → Option Object) : Option KPtr → Prop
  | none => objects' = objects
  | some p => Saved saver objects objects' p

theorem wlp_saveState (p : KPtr) : wlp (Thread.saveState saver p)
    (fun _ k' => Saved saver k.objects k'.objects p ∧ k'.handles = k.handles) k := by
  refine wlp_seq (wlp_deref p) ?_
  rintro t k ⟨rfl, ht⟩
  exact wlp_modify ⟨⟨t, ht, rfl⟩, rfl⟩

/-- The kernel was left for `this`: the thread that ran has its registers saved, `ACTIVE_THREAD`
holds the new thread and has let the old one go. -/
structure Left (saver : Saver) (this : KPtr) (k : Kernel) (current : Option KPtr) (thread : KPtr)
    (ctx : ExecCtx) (k' : Kernel) : Prop where
  thread_eq : thread = this
  active : k'.active = some this
  loaded : ∃ t, k'.objects this = some (.thread t) ∧ ctx = t.execCtx
  suspended : Suspended saver k.objects k'.objects current
  handles : k'.handles = k.handles + (Pi.single this 1 - ofOption current)

/-- The rest of `dispatch`, once the registers are saved. -/
theorem wp_dispatchRest {α : Type} {this : KPtr} {k₁ : Kernel} (current : Option KPtr)
    (hsaved : Suspended saver k.objects k₁.objects current) (hhandles₁ : k₁.handles = k.handles) :
    wp (do
        let this' ← cloneHandle env this
        modify fun k => { k with active := some this' }
        dropOption env current
        let t ← Thread.deref this
        throw (.dispatched this t.execCtx) : CM α)
      (fun _ _ => False) (Leaves (Left saver this k current)) k₁ := by
  refine (stays_cloneHandle this).wp_seq (wlp_cloneHandle this) ?_
  rintro q k₂ ⟨hq, h₂⟩
  obtain rfl := hq.symm
  rw [wp_bind, wp_modify]
  refine (stays_dropOption current).wp_seq (wlp_dropOption current) ?_
  intro _ k₃ h₃
  refine (stays_deref this).wp_seq (wlp_deref this) ?_
  rintro t k₃ ⟨rfl, ht⟩
  have hobjects : k₃.objects = k₁.objects := h₃.objects.trans h₂.objects
  refine ⟨rfl, h₃.active, ⟨t, ht, rfl⟩, by rwa [hobjects], ?_⟩
  rw [h₃.handles]
  show k₂.handles + -ofOption current = _
  rw [h₂.handles, hhandles₁]
  abel

/-- `dispatch` leaves the kernel, if it does not panic. -/
theorem wp_dispatch {α : Type} {this : KPtr} :
    wp (Thread.dispatch env this saver : CM α) (fun _ _ => False)
      (Leaves (Left saver this k k.active)) k := by
  unfold Thread.dispatch
  rw [wp_bind, wp_get]
  cases k.active with
  | none => exact wp_dispatchRest none rfl rfl
  | some p =>
    refine (stays_saveState saver p).wp_seq (wlp_saveState p) ?_
    rintro _ k₁ ⟨hsaved, hhandles₁⟩
    exact wp_dispatchRest (some p) hsaved hhandles₁

/-- The pointers that stay behind when `thread` is activated through `slot` by `self`. -/
def staysBehind (self thread : KPtr) (slot : CapSlot) : KPtr → Int :=
  Pi.single self 1 + ofOption slot.child + Pi.single thread 1

/-- The kernel was left for `thread`, which `caller` had activated through `slot`. -/
structure Switched (x : Outside) (k k' : Kernel) (caller thread : KPtr) (slot : CapSlot) :
    Prop where
  active : k.active = some caller
  active_new : k'.active = some thread
  resource : slot.resource = .thread thread
  saved : Saved (.syscall x.ctx) k.objects k'.objects caller
  handles : k'.handles = k.handles + staysBehind caller thread slot +
    (ofOption k'.active - ofOption k.active)

/-- A thread in the kernel activates another: it returns with an error and nothing has changed, or
the kernel is left, with the cloned slot still held. -/
theorem wp_exerciseActivate {self : KPtr} (hself : k.active = some self) (cap : CapId) :
    wp (Thread.exerciseCap env x self cap (.thread .activate))
      (fun r k' => (∃ e, r = .error e) ∧ Traffic k k' 0)
      (Leaves fun thread _ k' => ∃ t slot k₁, k.objects self = some (.thread t) ∧
        capabilityOf k.objects t.resources cap = some slot ∧ slot.resource = .thread thread ∧
        k'.active = some thread ∧ Saved (.syscall x.ctx) k.objects k'.objects self ∧
        Traffic k k₁ (ofSlot slot) ∧
        k'.handles = k₁.handles + (Pi.single thread 1 - Pi.single self 1)) k := by
  refine (stays_cloneResources self).wp_seq (wlp_cloneResources self) ?_
  rintro _ k₁ ⟨t, ht, rfl, h₁⟩
  refine (stays_getCapability t.resources cap).wp_seq (wlp_getCapability t.resources cap) ?_
  intro r k₂ h₂
  rw [h₁.objects] at h₂
  cases hcap : capabilityOf k.objects t.resources cap with
  | none =>
    rw [hcap] at h₂
    obtain ⟨rfl, h₂⟩ := h₂
    refine ⟨⟨_, rfl⟩, (h₁.trans h₂).of_eq ?_⟩
    abel
  | some slot =>
    rw [hcap] at h₂
    obtain ⟨rfl, h₂⟩ := h₂
    have h₁₂ : Traffic k k₂ (ofSlot slot) := (h₁.trans h₂).of_eq (by abel)
    obtain ⟨child, resource⟩ := slot
    cases resource with
    | empty =>
      refine (stays_dropOption child).wp_seq (wlp_dropOption child) ?_
      intro _ k₃ h₃
      have hempty : Traffic k₂ k₂ (-ofOption (Resource.empty).ptr) :=
        (Traffic.refl k₂).of_eq neg_zero.symm
      exact ⟨⟨_, rfl⟩, h₁₂.give_back hempty h₃⟩
    | capEntry table =>
      refine (wp_bind _ _).mpr ((wp_pure _).mpr ?_)
      refine (stays_dropHandle table).wp_seq (wlp_dropHandle table) ?_
      intro _ k₃ h₃
      refine (stays_dropOption child).wp_seq (wlp_dropOption child) ?_
      intro _ k₄ h₄
      exact ⟨⟨_, rfl⟩, h₁₂.give_back h₃ h₄⟩
    | pageTable ptr flags => exact trivial
    | thread ptr =>
      have hactive : k₂.active = some self := by rw [h₁₂.active, hself]
      refine wp_mono wp_dispatch (fun _ _ h => h.elim) ?_
      intro e k' h
      cases e with
      | panic p => trivial
      | dispatched thread ctx =>
        rw [hactive] at h
        obtain ⟨rfl, hactive', _, hsaved, hhandles⟩ := h
        rw [h₁₂.objects] at hsaved
        exact ⟨t, _, k₂, ht, hcap, rfl, hactive', hsaved, h₁₂, hhandles⟩

/-- **`handle`, asked to activate**: it returns and holds nothing more than before, or the kernel is
left with three pointers, or two, that nobody will drop. -/
theorem wp_handleActivate (env : Env) (x : Outside) (k : Kernel) (a : Nat) :
    wp (handle env x a (.thread .activate)) (fun _ k' => Traffic k k' 0)
      (Leaves fun thread _ k' => ∃ self slot, Switched x k k' self thread slot) k := by
  refine (wp_bind _ _).mpr ?_
  unfold Thread.current
  rw [wp_bind, wp_get]
  refine wp_mono ((stays_cloneOption k.active).wp_leaves (wlp_cloneOption k.active)) ?_
    fun _ _ h => h
  rintro c k₁ ⟨rfl, h₁⟩
  cases hself : k.active with
  | none => trivial
  | some self =>
    rw [hself] at h₁
    have hactive : k₁.active = some self := by rw [h₁.active, hself]
    show wp (if h : a < 2 ^ 32 then _ else _) _ _ _
    split
    · rename_i ha
      refine wp_seq (wp_exerciseActivate hactive (UInt32.ofNatLT a ha)) ?_ ?_
      · rintro r k₂ ⟨⟨e, rfl⟩, h₂⟩
        refine (wp_bind _ _).mpr ((wp_pure _).mpr ?_)
        refine (stays_dropHandle self).wp_seq (wlp_dropHandle self) fun _ k₃ h₃ => ?_
        refine (wp_pure _).mpr (((h₁.trans h₂).trans h₃).of_eq ?_)
        show Pi.single self 1 + 0 + -Pi.single self 1 = 0
        abel
      · intro e k' h
        cases e with
        | panic p => trivial
        | dispatched thread ctx =>
          obtain ⟨t, slot, k₂, _, _, hresource, hactive', hsaved, h₂, hhandles⟩ := h
          rw [h₁.objects] at hsaved
          refine ⟨self, slot, hself, hactive', hresource, hsaved, ?_⟩
          rw [hhandles, h₂.handles, h₁.handles, hself, hactive', staysBehind, ofSlot, hresource]
          simp only [ofOption, Resource.ptr]
          abel
    · refine (stays_dropHandle self).wp_seq (wlp_dropHandle self) fun _ k₂ h₂ => ?_
      refine (wp_pure _).mpr ((h₁.trans h₂).of_eq ?_)
      show Pi.single self 1 + -Pi.single self 1 = 0
      abel

end Calls

/-! ## The balance -/

section Balance

variable {env : Env} {x : Outside} {k k' : Kernel} {saver : Saver}

theorem KPtr.addr_injective : Function.Injective fun p : KPtr =>
    (⟨p.inner.addr, p.inner.lt⟩ : Fin (2 ^ 64)) :=
  fun _ _ h => KPtr.ext_addr (Fin.mk.inj h)

noncomputable instance : Fintype KPtr := Fintype.ofInjective _ KPtr.addr_injective

open Classical in
/-- The pointers stored in an object; a thread's L4 frame was made from one. -/
noncomputable def Object.holds (env : Env) : Object → KPtr → Int
  | .capTable slots => ∑ s, ofSlot (slots s)
  | .thread t => fun q =>
      (if q = t.resources then 1 else 0) + if q.frame env = .ok t.l4Frame then 1 else 0
  | .pageTable _ _ => 0

/-- The pointers stored at `q`. -/
noncomputable def storedAt (env : Env) (objects : KPtr → Option Object) (q : KPtr) : KPtr → Int :=
  (objects q).elim 0 (Object.holds env)

/-- The pointers stored in slots, threads and `ACTIVE_THREAD`. -/
noncomputable def stored (env : Env) (k : Kernel) : KPtr → Int :=
  ofOption k.active + ∑ q, storedAt env k.objects q

/-- Every pointer held is stored somewhere. -/
def Balanced (env : Env) (k : Kernel) : Prop := k.handles = stored env k

/-- How many pointers are held that nothing stores. -/
noncomputable def excess (env : Env) (k : Kernel) : Int := ∑ p, (k.handles p - stored env k p)

theorem Traffic.stored_eq {d : KPtr → Int} (h : Traffic k k' d) : stored env k' = stored env k := by
  unfold stored
  rw [h.active, h.objects]

/-- Saving registers moves no pointer. -/
theorem Saved.storedAt_eq {objects objects' : KPtr → Option Object} {p : KPtr}
    (h : Saved saver objects objects' p) (q : KPtr) :
    storedAt env objects' q = storedAt env objects q := by
  obtain ⟨t, ht, rfl⟩ := h
  unfold storedAt
  by_cases hq : q = p
  · subst hq
    rw [Function.update_self, ht]
    rfl
  · rw [Function.update_of_ne hq]

section Switched

variable {self thread : KPtr} {slot : CapSlot}

theorem Switched.stored_eq (h : Switched x k k' self thread slot) :
    stored env k' = stored env k + (ofOption k'.active - ofOption k.active) := by
  unfold stored
  rw [Finset.sum_congr rfl fun q _ => h.saved.storedAt_eq q]
  abel

theorem sum_ofOption (c : Option KPtr) : ∑ p, ofOption c p = if c.isSome then 1 else 0 := by
  cases c with
  | none => simp [ofOption]
  | some q => simp [ofOption]

theorem sum_staysBehind (self thread : KPtr) (slot : CapSlot) :
    ∑ p, staysBehind self thread slot p = 2 + if slot.child.isSome then 1 else 0 := by
  have hone : ∀ q : KPtr, ∑ p, (Pi.single q 1 : KPtr → Int) p = 1 := fun q => sum_ofOption (some q)
  simp only [staysBehind, Pi.add_apply, Finset.sum_add_distrib, hone, sum_ofOption]
  ring

theorem Switched.excess_eq (h : Switched x k k' self thread slot) :
    excess env k' = excess env k + (2 + if slot.child.isSome then 1 else 0) := by
  rw [← sum_staysBehind self thread slot]
  unfold excess
  rw [← Finset.sum_add_distrib, h.stored_eq, h.handles]
  refine Finset.sum_congr rfl fun p _ => ?_
  simp only [Pi.add_apply]
  ring

end Switched

theorem Balanced.excess_eq (h : Balanced env k) : excess env k = 0 := by
  unfold excess
  rw [h]
  simp

/-- A system call `Activate`, with the words that come with it. -/
structure Activate where
  outside : Outside
  capability : Nat

/-- The system call leaves the kernel. -/
def Activate.Leaves (env : Env) (k : Kernel) (c : Activate) (k' : Kernel) : Prop :=
  ∃ thread ctx, handle env c.outside c.capability (.thread .activate) k =
    .error (.dispatched thread ctx) k'

/-- The system call ends, in user mode either way. -/
def Activate.Step (env : Env) (k : Kernel) (c : Activate) (k' : Kernel) : Prop :=
  (∃ code, handle env c.outside c.capability (.thread .activate) k = .ok code k') ∨
    c.Leaves env k k'

theorem Activate.Leaves.switched {c : Activate} (h : c.Leaves env k k') :
    ∃ self thread slot, Switched c.outside k k' self thread slot := by
  obtain ⟨thread, ctx, hrun⟩ := h
  have hspec := wp_handleActivate env c.outside k c.capability
  unfold wp at hspec
  rw [hrun] at hspec
  obtain ⟨self, slot, hswitched⟩ := hspec
  exact ⟨self, thread, slot, hswitched⟩

/-- A system call that comes back has kept the balance. -/
theorem Balanced.step {c : Activate} (h : Balanced env k) (hstays : ¬ ∃ k'', c.Leaves env k k'')
    (hstep : c.Step env k k') : Balanced env k' := by
  rcases hstep with ⟨code, hrun⟩ | hleaves
  · have hsame := wp_ok (wp_handleActivate env c.outside k c.capability) hrun
    unfold Balanced
    rw [hsame.handles, hsame.stored_eq, add_zero]
    exact h
  · exact absurd ⟨k', hleaves⟩ hstays

theorem Switched.not_balanced {self thread : KPtr} {slot : CapSlot}
    (hs : Switched x k k' self thread slot) (h : Balanced env k) : ¬ Balanced env k' := by
  intro h'
  have hexcess : excess env k' = excess env k + _ := hs.excess_eq
  rw [h.excess_eq, h'.excess_eq] at hexcess
  split_ifs at hexcess
  · omega
  · omega

theorem staysBehind_ne_zero (caller thread : KPtr) (slot : CapSlot) :
    staysBehind caller thread slot ≠ 0 := by
  intro h
  have hsum := sum_staysBehind caller thread slot
  rw [h] at hsum
  simp only [Pi.zero_apply, Finset.sum_const_zero] at hsum
  split_ifs at hsum
  · omega
  · omega

end Balance

/-- In `oneThread` every pointer is stored: the thread in a slot and in `ACTIVE_THREAD`, its table
in a slot and in the thread, the table of level 4 in a slot and as the thread's L4 frame. -/
theorem oneThread_balanced : Balanced Env.dev oneThread := by
  have htwo : ∀ q : KPtr, (Pi.single q 2 : KPtr → Int) = Pi.single q 1 + Pi.single q 1 := by
    intro q
    rw [← Pi.single_add]
    rfl
  have hthread : Object.holds Env.dev (.thread ⟨.start 0x400000 0x7000, frameAt 4, pointerTo 2⟩) =
      Pi.single (pointerTo 2) 1 + Pi.single (pointerTo 4) 1 := by
    funext q
    have hframe : q.frame Env.dev = .ok (frameAt 4) ↔ q = pointerTo 4 := by
      constructor
      · intro hq
        exact KPtr.frame_inj hq rfl
      · rintro rfl
        rfl
    simp only [Object.holds, hframe, Pi.add_apply, Pi.single_apply]
  have htable : Object.holds Env.dev (.capTable oneThreadSlots) = Pi.single (pointerTo 2) 1 +
      Pi.single (pointerTo 3) 1 + Pi.single (pointerTo 4) 1 + Pi.single (pointerTo 1) 1 := by
    have hzero : ∀ s ∈ Finset.univ, s ∉ ({0, 1, 2, 3} : Finset (SlotId numSlots)) →
        ofSlot (oneThreadSlots s) = 0 := by
      intro s _ hs
      simp only [Finset.mem_insert, Finset.mem_singleton, not_or] at hs
      obtain ⟨h0, h1, h2, h3⟩ := hs
      simp only [oneThreadSlots, if_neg h0, if_neg h1, if_neg h2, if_neg h3]
      rfl
    have hslot : ∀ s q, oneThreadSlots s = ⟨none, q⟩ →
      ofSlot (oneThreadSlots s) = ofOption q.ptr := by
      intro s q h
      rw [h, ofSlot]
      exact zero_add _
    show ∑ s, ofSlot (oneThreadSlots s) = _
    rw [← Finset.sum_subset (Finset.subset_univ _) hzero, Finset.sum_insert (by decide),
      Finset.sum_insert (by decide), Finset.sum_insert (by decide), Finset.sum_singleton,
      hslot 0 _ rfl, hslot 1 _ rfl, hslot 2 _ rfl, hslot 3 _ rfl]
    simp only [← add_assoc]
    rfl
  have hstored : ∀ q, storedAt Env.dev oneThread.objects q =
      (if q = pointerTo 1 then Pi.single (pointerTo 2) 1 + Pi.single (pointerTo 4) 1 else 0) +
      if q = pointerTo 2 then Pi.single (pointerTo 2) 1 + Pi.single (pointerTo 3) 1 +
        Pi.single (pointerTo 4) 1 + Pi.single (pointerTo 1) 1 else 0 := by
    intro q
    by_cases h₁ : q = pointerTo 1
    · subst h₁
      rw [if_pos rfl, if_neg (by decide), add_zero, ← hthread]
      rfl
    rw [if_neg h₁, zero_add]
    by_cases h₂ : q = pointerTo 2
    · subst h₂
      rw [if_pos rfl, ← htable]
      rfl
    rw [if_neg h₂]
    simp only [storedAt, oneThread, if_neg h₁, if_neg h₂]
    split_ifs <;> rfl
  unfold Balanced stored
  simp only [hstored, Finset.sum_add_distrib, Finset.sum_ite_eq', Finset.mem_univ, if_true]
  simp only [oneThread, ofOption, htwo]
  abel

/-- The thread of `oneThread` activates itself. -/
def activateSelf : Activate := ⟨.free, 3⟩

theorem activateSelf_leaves : ∃ k', activateSelf.Leaves Env.dev oneThread k' ∧
    k'.active = oneThread.active ∧
    k'.handles (pointerTo 1) = oneThread.handles (pointerTo 1) + 2 := by
  have hcall : wp (handle Env.dev (.mapping (frameAt 5)) 3 (.thread .activate)) (fun _ _ => False)
      (fun e k' => (match e with | .panic _ => none | .dispatched thread _ => some thread) =
        some (pointerTo 1) ∧ k'.active = oneThread.active ∧
        k'.handles (pointerTo 1) = oneThread.handles (pointerTo 1) + 2) oneThread := by
    decide +kernel
  obtain ⟨e, k', hrun, he, hactive, hhandles⟩ := exists_stop_of_wp hcall
  cases e with
  | panic p => cases he
  | dispatched thread ctx => exact ⟨k', ⟨thread, ctx, hrun⟩, hactive, hhandles⟩

end Harmony
