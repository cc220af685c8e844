import Harmony.Caps.Exhaust

/-!
# Whole system calls

`syscall::handle` from the trap to the way back into user mode, for every operation.
`SystemCall.Effect` says once what a call can do to the kernel: nothing but move pointers, relink a
slot, put a new object into a slot, or leave for another thread. The laws of the kernel over runs of
system calls are shown against these four.

* `stays_onCapTable`: only `Activate` leaves the kernel.
* `SystemCall.effect`: a call that ends in user mode did one of the four.
-/

namespace Harmony

open Lib

/-! ## What a system call does -/

/-- A system call, and what it finds outside the capability system. -/
structure SystemCall where
  outside : Outside
  a : Nat
  op : Operation

/-- The frame in CR3 once `ExecCtx::dispatch` has loaded it: bits 12 to 51 of `l4_frame`. -/
def ExecCtx.root (ctx : ExecCtx) : RawFrame :=
  ⟨⟨(ctx.l4Frame &&& frameMask).toNat, PageTableEntry.frameBits_lt _⟩⟩

/-- `ExecCtx::dispatch`: the core goes to user mode, on the context's page table. -/
def Kernel.enter (k : Kernel) (ctx : ExecCtx) : Kernel :=
  { k with machine := { k.machine with cr3 := ctx.root } }

/-- The call ends in user mode: in the caller, or in a thread it has dispatched. -/
inductive SystemCall.Ends (env : Env) (k : Kernel) (c : SystemCall) : Kernel → Prop
  | returned {code : Int} {k' : Kernel} (h : handle env c.outside c.a c.op k = .ok code k') :
      Ends env k c k'
  | dispatched {thread : KPtr} {ctx : ExecCtx} {k' : Kernel}
      (h : handle env c.outside c.a c.op k = .error (.dispatched thread ctx) k') :
      Ends env k c (k'.enter ctx)

/-- Memory and the states of the frames are as they were. -/
structure Machine.Alike (m m' : Machine) : Prop where
  mem : m'.mem = m.mem
  state : ∀ n, m'.stateOf n = m.stateOf n

theorem Machine.Alike.trans {m₁ m₂ m₃ : Machine} (h : m₁.Alike m₂) (h' : m₂.Alike m₃) :
    m₁.Alike m₃ :=
  ⟨h'.mem.trans h.mem, fun n => (h'.state n).trans (h.state n)⟩

theorem Traffic.alike {k k' : Kernel} {d : KPtr → Int} (h : Traffic k k' d) :
    k.machine.Alike k'.machine := ⟨h.mem, h.state⟩

/-- The running thread has left the kernel for another, which a capability of its own stands for,
and that one runs, on its page table. -/
structure Departs (x : Outside) (k : Kernel) (thread : KPtr) (k' : Kernel) : Prop where
  activated : ∃ self t cap slot, k.active = some self ∧ k.objects self = some (.thread t) ∧
    capabilityOf k.objects t.resources cap = some slot ∧ slot.resource = .thread thread ∧
    Saved (.syscall x.ctx) k.objects k'.objects self
  active : k'.active = some thread
  loaded : ∃ t, k'.objects thread = some (.thread t) ∧ k'.machine.cr3 = t.execCtx.root
  machine : k.machine.Alike k'.machine

/-- Everything a system call that ends in user mode can have done. -/
inductive SystemCall.Effect (env : Env) (k : Kernel) (c : SystemCall) (k' : Kernel) : Prop
  | failed {d : KPtr → Int} (h : Traffic k k' d)
  | relinked {self table : KPtr} {t : Thread} {cap : CapId} {s : SlotId numSlots}
      {other : Option CapId} {child : Option KPtr} (hself : k.active = some self)
      (ht : k.objects self = some (.thread t)) (htable : t.tableOf k.objects cap = .ok table)
      (hchild : t.childOf k.objects other = .ok child) (h : Relinked k k' table s child)
  | constructed {self table p : KPtr} {t : Thread} {cap : CapId} {s : SlotId numSlots}
      {kind : ConstructArgs} {region : Nat} {frame : RawFrame} {o : Object} {resource : Resource}
      {d : KPtr → Int} (hself : k.active = some self) (ht : k.objects self = some (.thread t))
      (htable : t.tableOf k.objects cap = .ok table) (hmaps : Maps env k c.outside region frame)
      (hbuilds : Builds env k t p o resource d kind)
      (h : Constructed env k k' frame p o table s resource d)
  | switched {thread : KPtr} (h : Departs c.outside k thread k')

section Effects

variable {env : Env} {x : Outside} {k k' : Kernel} {self : KPtr} {cap : CapId} {op : Operation}

/-! ### Calls that return -/

/-- An operation that is not for capability tables returns with an error. -/
theorem wlp_exerciseOther (self : KPtr) (cap : CapId) (hop : op.asCapTableOp = none) :
    wlp (Thread.exerciseCap env x self cap op) (fun _ k' => ∃ d, Traffic k k' d) k := by
  refine wlp_seq (wlp_cloneResources self) ?_
  rintro _ k₁ ⟨t, _, rfl, h₁⟩
  refine wlp_seq (wlp_getCapability t.resources cap) ?_
  intro r k₂ h₂
  cases hcap : capabilityOf k₁.objects t.resources cap with
  | none =>
    rw [hcap] at h₂
    obtain ⟨rfl, h₂⟩ := h₂
    exact wlp_pure ⟨_, h₁.trans h₂⟩
  | some slot =>
    rw [hcap] at h₂
    obtain ⟨rfl, h₂⟩ := h₂
    obtain ⟨child, resource⟩ := slot
    cases resource with
    | empty => exact wlp_seq (wlp_dropOption child) fun _ k₃ h₃ =>
        wlp_pure ⟨_, (h₁.trans h₂).trans h₃⟩
    | capEntry table =>
      simp only [hop]
      refine wlp_seq (Q := fun _ k' => k' = k₂) (wlp_pure rfl) ?_
      rintro _ _ rfl
      refine wlp_seq (wlp_dropHandle table) fun _ k₄ h₄ => ?_
      exact wlp_seq (wlp_dropOption child) fun _ k₅ h₅ =>
        wlp_pure ⟨_, ((h₁.trans h₂).trans h₄).trans h₅⟩
    | pageTable ptr flags => exact wlp_throw _
    | thread ptr =>
      dsimp only
      cases op.asThreadOp with
      | none =>
        refine wlp_seq (wlp_dropHandle ptr) fun _ k₃ h₃ => ?_
        exact wlp_seq (wlp_dropOption child) fun _ k₄ h₄ =>
          wlp_pure ⟨_, ((h₁.trans h₂).trans h₃).trans h₄⟩
      | some threadOp =>
        cases threadOp with
        | activate => exact wlp_of_ok fun _ _ hok => (wp_ok wp_dispatch hok).elim
        | changeAffinity => exact wlp_throw _

/-- What `exercise_cap` did, where it returned. -/
theorem exerciseCap_returned {c : SystemCall} (hself : k.active = some self)
    {r : Except CapError Nat}
    (hrun : Thread.exerciseCap env c.outside self cap c.op k = .ok r k') : c.Effect env k k' := by
  cases hop : c.op.asCapTableOp with
  | none =>
    obtain ⟨d, h⟩ := wlp_ok (wlp_exerciseOther self cap hop) hrun
    exact .failed h
  | some op =>
    have hcall : c.op = .capTable op := by
      cases hc : c.op with
      | capTable op' =>
        rw [hc] at hop
        rw [Option.some.inj hop]
      | thread _ | invalid =>
        rw [hc] at hop
        cases hop
    rw [hcall] at hrun
    obtain ⟨t, ht, heffect⟩ := Call.effect (c := ⟨c.outside, self, cap, op⟩) hrun
    cases heffect with
    | failed _ h => exact .failed h
    | relinked _ htable hchild h => exact .relinked hself ht htable hchild h
    | constructed _ htable hmaps hbuilds h => exact .constructed hself ht htable hmaps hbuilds h

/-! ### Calls that leave for another thread -/

/-- `dispatch` moves nothing in the machine but counters. -/
theorem wp_dispatchAlike {α : Type} {this : KPtr} {saver : Saver} :
    wp (Thread.dispatch env this saver : CM α) (fun _ _ => False)
      (Leaves fun _ _ k' => k.machine.Alike k'.machine) k := by
  have hrest : ∀ (current : Option KPtr) (k₁ : Kernel), k₁.machine = k.machine →
      wp (do
          let this' ← cloneHandle env this
          modify fun k => { k with active := some this' }
          dropOption env current
          let t ← Thread.deref this
          throw (.dispatched this t.execCtx) : CM α)
        (fun _ _ => False) (Leaves fun _ _ k' => k.machine.Alike k'.machine) k₁ := by
    intro current k₁ hk₁
    refine (stays_cloneHandle this).wp_seq (wlp_cloneHandle this) ?_
    rintro q k₂ ⟨rfl, h₂⟩
    rw [wp_bind, wp_modify]
    refine (stays_dropOption current).wp_seq (wlp_dropOption current) ?_
    intro _ k₃ h₃
    refine (stays_deref q).wp_seq (wlp_deref q) ?_
    rintro t k₃ ⟨rfl, _⟩
    rw [← hk₁]
    exact h₂.alike.trans h₃.alike
  unfold Thread.dispatch
  rw [wp_bind, wp_get]
  cases k.active with
  | none => exact hrest none k rfl
  | some p =>
    have hsave : wlp (Thread.saveState saver p) (fun _ k₁ => k₁.machine = k.machine) k := by
      refine wlp_seq (wlp_deref p) ?_
      rintro t k₁ ⟨rfl, _⟩
      exact wlp_modify rfl
    refine (stays_saveState saver p).wp_seq hsave fun _ k₁ hk₁ => hrest (some p) k₁ hk₁

theorem stays_dropSlot (slot : CapSlot) : Stays (dropSlot env slot) :=
  (stays_dropOption slot.child).bind fun _ => stays_dropResource slot.resource

theorem stays_newObject (frame : RawFrame) (o : Object) : Stays (newObject env x frame o) := by
  have hdrop : Stays (dropObject env o) := by
    cases o with
    | thread t => exact stays_dropHandle t.resources
    | pageTable level table => exact .pure _
    | capTable slots =>
      show Stays ((List.finRange numSlots).forM fun s => dropSlot env (slots s))
      induction List.finRange numSlots with
      | nil => exact .pure _
      | cons s l ih => exact (stays_dropSlot (slots s)).bind fun _ => ih
  refine (Stays.onMachine _).bind fun r => ?_
  cases r with
  | error e => exact hdrop.bind fun _ => .pure _
  | ok p => exact (Stays.modify _).bind fun _ => .pure _

theorem stays_region (self : KPtr) (region : Nat) : Stays (Thread.region env x self region) := by
  refine (Stays.onMachine _).bind fun limit => ?_
  split
  · exact .pure _
  refine (Stays.onMachine _).bind fun address => ?_
  split
  · exact .pure _
  · rename_i page _
    have hlookup : Stays (Thread.lookup env x self page) :=
      (stays_deref self).bind fun _ => (Stays.onMachine _).bind fun _ => .pure _
    refine hlookup.bind fun r => ?_
    split
    · exact .pure _
    · split
      · exact .pure _
      · exact .pure _

theorem stays_build (self : KPtr) (frame : RawFrame) (kind : ConstructArgs) :
    Stays (Thread.build env x self frame kind) := by
  cases kind with
  | capTable =>
    refine (stays_newObject frame _).bind fun r => ?_
    cases r <;> exact .pure _
  | thread entry stackPointer capTable pageTable =>
    refine (stays_cloneResources self).bind fun root => ?_
    refine (stays_getResourceAs _ root capTable).bind fun r => ?_
    cases r with
    | error e => exact .pure _
    | ok ct =>
      refine (stays_cloneResources self).bind fun root => ?_
      refine (stays_getResourceAs _ root pageTable).bind fun r => ?_
      cases r with
      | error e => exact (stays_dropHandle ct).bind fun _ => .pure _
      | ok pt =>
        dsimp only
        split
        · exact (stays_dropHandle pt.1).bind fun _ => (stays_dropHandle ct).bind fun _ => .pure _
        · refine (Stays.onMachine _).bind fun l4Frame => ?_
          refine (stays_newObject frame _).bind fun r => ?_
          cases r <;> exact .pure _
  | pageTable level =>
    simp only [Thread.build]
    split
    · exact .pure _
    split
    · refine (Stays.onMachine _).bind fun table => (stays_newObject frame _).bind fun r => ?_
      cases r <;> exact .pure _
    · refine (stays_newObject frame _).bind fun r => ?_
      cases r <;> exact .pure _

/-- The operations on capability tables do not leave the kernel. -/
theorem stays_onCapTable (self table : KPtr) (op : CapTableOp numSlots) :
    Stays (Thread.onCapTable env x self table op) := by
  cases op with
  | link slot other => exact stays_relinkOp x self table slot (some other)
  | unlink slot => exact stays_relinkOp x self table slot none
  | construct kind region slot =>
    refine (stays_region self region).bind fun r => ?_
    cases r with
    | error e => exact .pure _
    | ok frame =>
      refine (stays_build self frame kind).bind fun r => ?_
      cases r with
      | error e => exact .pure _
      | ok resource =>
        refine (stays_change table slot fun cap => ?_).bind fun _ => .pure _
        exact (stays_dropResource cap.resource).bind fun _ => .pure _
  | drop slot => exact .panic _
  | copy slot other otherSlot => exact .panic _

/-- What `exercise_cap` did, where it left the kernel. -/
theorem wp_exerciseDeparts {self : KPtr} (hself : k.active = some self) (cap : CapId)
    (op : Operation) :
    wp (Thread.exerciseCap env x self cap op) (fun _ _ => True)
      (Leaves fun thread ctx k' => Departs x k thread (k'.enter ctx)) k := by
  refine (stays_cloneResources self).wp_seq (wlp_cloneResources self) ?_
  rintro _ k₁ ⟨t, ht, rfl, h₁⟩
  refine (stays_getCapability t.resources cap).wp_seq (wlp_getCapability t.resources cap) ?_
  intro r k₂ h₂
  rw [h₁.objects] at h₂
  have hstays : ∀ {α : Type} {y : CM α} {D : KPtr → ExecCtx → Kernel → Prop} {k₃ : Kernel},
      Stays y → wp y (fun _ _ => True) (Leaves D) k₃ :=
    fun hy => hy.wp_leaves (wlp_of_ok fun _ _ _ => trivial)
  cases hcap : capabilityOf k.objects t.resources cap with
  | none =>
    rw [hcap] at h₂
    obtain ⟨rfl, h₂⟩ := h₂
    trivial
  | some slot =>
    rw [hcap] at h₂
    obtain ⟨rfl, h₂⟩ := h₂
    have h₁₂ := h₁.trans h₂
    obtain ⟨child, resource⟩ := slot
    cases resource with
    | empty => exact hstays ((stays_dropOption child).bind fun _ => .pure _)
    | capEntry table =>
      have hlast : ∀ result : Except CapError Nat, Stays (do
          dropHandle env table
          dropOption env child
          pure result) :=
        fun _ => (stays_dropHandle table).bind fun _ =>
          (stays_dropOption child).bind fun _ => .pure _
      refine hstays ?_
      dsimp only
      cases op.asCapTableOp with
      | none => exact hlast _
      | some operation => exact (stays_onCapTable self table operation).bind hlast
    | pageTable ptr flags => trivial
    | thread ptr =>
      dsimp only
      cases op.asThreadOp with
      | none =>
        exact hstays ((stays_dropHandle ptr).bind fun _ => (stays_dropOption child).bind fun _ =>
          .pure _)
      | some threadOp =>
        cases threadOp with
        | changeAffinity => trivial
        | activate =>
          have hdispatch : wp (Thread.dispatch env ptr (.syscall x.ctx) : CM (Except CapError Nat))
              (fun _ _ => False) (Leaves (Left (.syscall x.ctx) ptr k₂ k₂.active)) k₂ := wp_dispatch
          obtain ⟨e, k', hrun, hleft⟩ := exists_stop_of_wp hdispatch
          have halike := wp_stop (wp_dispatchAlike (k := k₂)) hrun
          show wp (Thread.dispatch env ptr (.syscall x.ctx)) _ _ k₂
          unfold wp
          rw [hrun]
          cases e with
          | panic p => trivial
          | dispatched thread ctx =>
            have hactive : k₂.active = some self := by rw [h₁₂.active, hself]
            rw [hactive] at hleft
            obtain ⟨rfl, hactive', ⟨t', ht', rfl⟩, hsaved, _⟩ := hleft
            rw [h₁₂.objects] at hsaved
            exact ⟨⟨self, t, cap, _, hself, ht, hcap, rfl, hsaved⟩, hactive', ⟨t', ht', rfl⟩,
              h₁₂.alike.trans ⟨halike.mem, halike.state⟩⟩

/-! ### The call around `exercise_cap` -/

/-- The handler's own pointer to the caller, cloned before; nobody drops it. -/
theorem Departs.of_traffic {thread : KPtr} {k₁ : Kernel} {d : KPtr → Int} (h₁ : Traffic k k₁ d)
    (h : Departs x k₁ thread k') : Departs x k thread k' := by
  obtain ⟨self, t, cap, slot, hself, ht, hcap, hthread, hsaved⟩ := h.activated
  rw [h₁.active] at hself
  rw [h₁.objects] at ht hcap hsaved
  exact ⟨⟨self, t, cap, slot, hself, ht, hcap, hthread, hsaved⟩, h.active, h.loaded,
    h₁.alike.trans h.machine⟩

/-- The handler's own pointer to the caller, cloned before and dropped after. -/
theorem SystemCall.Effect.of_traffic {c : SystemCall} {k₁ k₂ : Kernel} {d : KPtr → Int}
    (h₁ : Traffic k k₁ d) (h : c.Effect env k₁ k₂) (h₂ : Traffic k₂ k' (-d)) :
    c.Effect env k k' := by
  cases h with
  | failed h => exact .failed ((h₁.trans h).trans h₂)
  | relinked hself ht htable hchild h =>
    rw [h₁.active] at hself
    rw [h₁.objects] at ht htable hchild
    exact .relinked hself ht htable hchild (h.of_traffic h₁ h₂)
  | constructed hself ht htable hmaps hbuilds h =>
    rw [h₁.active] at hself
    rw [h₁.objects] at ht htable
    exact .constructed hself ht htable ((h₁.maps_iff _ _ _).mp hmaps) (h₁.builds hbuilds)
      (h.of_traffic h₁ h₂)
  | switched h =>
    obtain ⟨hactivated, hactive, hloaded, hmachine⟩ := Departs.of_traffic h₁ h
    rw [← h₂.objects, ← h₂.cr3] at hloaded
    rw [← h₂.objects] at hactivated
    exact .switched ⟨hactivated, h₂.active.trans hactive, hloaded, hmachine.trans h₂.alike⟩

/-- What `exercise_cap` did, in the two ways it ends. -/
theorem wp_exerciseCap {c : SystemCall} {self : KPtr} (hself : k.active = some self) (cap : CapId) :
    wp (Thread.exerciseCap env c.outside self cap c.op) (fun _ k' => c.Effect env k k')
      (Leaves fun thread ctx k' => Departs c.outside k thread (k'.enter ctx)) k := by
  unfold wp
  cases hrun : Thread.exerciseCap env c.outside self cap c.op k with
  | ok r k' => exact exerciseCap_returned hself hrun
  | error e k' => exact (wp_stop (wp_exerciseDeparts hself cap c.op) hrun :)

/-- **The call around `exercise_cap`**: what holds of it holds of `handle`, if the handler's own
pointer to the caller does not matter. A call that leaves the kernel does not drop it. -/
theorem wp_handle_around {c : SystemCall} (Did Left : Kernel → Kernel → Prop)
    (hfailed : ∀ k, Did k k)
    (hreturn : ∀ {k k₁ k₂ k' : Kernel} {d : KPtr → Int}, Traffic k k₁ d → Did k₁ k₂ →
      Traffic k₂ k' (-d) → Did k k')
    (hleave : ∀ {k k₁ k₂ : Kernel} {d : KPtr → Int}, Traffic k k₁ d → Left k₁ k₂ → Left k k₂)
    (hcall : ∀ k self cap, k.active = some self →
      wp (Thread.exerciseCap env c.outside self cap c.op) (fun _ k' => Did k k')
        (Leaves fun _ ctx k' => Left k (k'.enter ctx)) k) :
    wp (handle env c.outside c.a c.op) (fun _ k' => Did k k')
      (Leaves fun _ ctx k' => Left k (k'.enter ctx)) k := by
  refine (wp_bind _ _).mpr ?_
  unfold Thread.current
  rw [wp_bind, wp_get]
  refine wp_mono ((stays_cloneOption k.active).wp_leaves (wlp_cloneOption k.active)) ?_
    fun _ _ h => h
  rintro _ k₁ ⟨rfl, h₁⟩
  cases hself : k.active with
  | none => trivial
  | some self =>
    rw [hself] at h₁
    have hactive : k₁.active = some self := by rw [h₁.active, hself]
    have hdrop : ∀ {α : Type} (r : α) {k₂ : Kernel}, Did k₁ k₂ →
        wp (do dropHandle env self; pure r : CM α) (fun _ k' => Did k k')
          (Leaves fun _ ctx k' => Left k (k'.enter ctx)) k₂ := by
      intro α r k₂ hdid
      refine (stays_dropHandle self).wp_seq (wlp_dropHandle self) fun _ k₃ h₃ => ?_
      exact hreturn h₁ hdid h₃
    show wp (if h : c.a < 2 ^ 32 then _ else _) _ _ _
    split
    · rename_i ha
      refine wp_seq (hcall k₁ self (UInt32.ofNatLT c.a ha) hactive) ?_ ?_
      · intro r k₂ hdid
        cases r with
        | ok n =>
          dsimp only
          split
          · exact hdrop _ hdid
          · trivial
        | error e => exact hdrop _ hdid
      · intro e k₂ h
        cases e with
        | panic p => trivial
        | dispatched thread ctx => exact hleave h₁ h
    · exact hdrop _ (hfailed k₁)

/-- `handle`, in the two ways it ends. -/
theorem wp_handle (env : Env) (c : SystemCall) (k : Kernel) :
    wp (handle env c.outside c.a c.op) (fun _ k' => c.Effect env k k')
      (Leaves fun _ ctx k' => ∃ thread, Departs c.outside k thread (k'.enter ctx)) k := by
  refine wp_handle_around (fun k k' => c.Effect env k k')
    (fun k k' => ∃ thread, Departs c.outside k thread k') (fun k => .failed (Traffic.refl k))
    (fun h₁ h h₂ => h.of_traffic h₁ h₂) (fun h₁ h => h.imp fun _ h => h.of_traffic h₁) ?_
  intro k self cap hself
  refine wp_mono (wp_exerciseCap hself cap) (fun _ _ h => h) fun e k' h => ?_
  cases e with
  | panic p => trivial
  | dispatched thread ctx => exact ⟨thread, h⟩

/-- **A system call that ends in user mode** has done one of four things. -/
theorem SystemCall.effect {c : SystemCall} (h : c.Ends env k k') : c.Effect env k k' := by
  cases h with
  | returned h => exact (wp_ok (wp_handle env c k) h :)
  | dispatched h =>
    obtain ⟨thread, hdeparts⟩ := (wp_stop (wp_handle env c k) h :)
    exact .switched hdeparts

end Effects

end Harmony
