import Harmony.Caps.Exhaust

/-!
# When an `Activate` leaves the kernel

A system call `Activate` leaves the kernel if the capability id fits its 32 bits and stands for a
thread, and the counters have room: the lookup clones and drops pointers like every other, and then
`dispatch` clones the new thread and drops the old one. So whether it leaves is decided by the state
before it (`Activate.leaves_iff`).

* `LeavesBy`: code that leaves the kernel exactly if a script runs through on the counters.
* `switching_balanced_iff`: a run keeps the balance exactly if no system call of it leaves the
  kernel, and each one that does adds two pointers or three to what nothing stores.
-/

namespace Harmony

open Lib

/-- The code leaves the kernel if the script runs through on the counters, and panics if not. -/
def LeavesBy (env : Env) {α : Type} (x : CM α) (es : List Ref) (k : Kernel) : Prop :=
  match play Ref.step (counters env k) es with
  | some _ => ∃ thread ctx k', x k = .error (.dispatched thread ctx) k'
  | none => ∃ p k', x k = .error (.panic p) k'

section LeavesBy

variable {α β : Type} {env : Env} {k k₁ : Kernel} {es fs : List Ref} {x : CM α}

/-- **It leaves exactly if the script runs through.** -/
theorem LeavesBy.iff (h : LeavesBy env x es k) :
    (∃ thread ctx k', x k = .error (.dispatched thread ctx) k') ↔
      ∃ c, play Ref.step (counters env k) es = some c := by
  unfold LeavesBy at h
  cases hplay : play Ref.step (counters env k) es with
  | none =>
    rw [hplay] at h
    obtain ⟨p, k', hrun⟩ := h
    simp [hrun]
  | some c =>
    rw [hplay] at h
    simp [h]

theorem LeavesBy.dispatched (thread : KPtr) (ctx : ExecCtx) :
    LeavesBy env (throw (.dispatched thread ctx) : CM α) [] k := ⟨thread, ctx, k, rfl⟩

/-- Code in front that moves no counter. -/
theorem LeavesBy.skip {f : α → CM β} {a : α} (h : x k = .ok a k₁)
    (hcounters : counters env k₁ = counters env k) (hf : LeavesBy env (f a) es k₁) :
    LeavesBy env (x >>= f) es k := by
  unfold LeavesBy at hf ⊢
  rw [bind_of_eq_ok h, ← hcounters]
  exact hf

/-- Code in front that plays a script of its own. -/
theorem LeavesBy.seq {f : α → CM β} {Q : α → Kernel → Prop} (hx : Counts env x es k)
    (hstays : Stays x) (hQ : wlp x Q k) (hf : ∀ a k', Q a k' → LeavesBy env (f a) fs k') :
    LeavesBy env (x >>= f) (es ++ fs) k := by
  unfold LeavesBy
  rw [play_append]
  cases hrun : x k with
  | ok a k' =>
    rw [hx.play_eq hrun, Option.bind_some, bind_of_eq_ok hrun]
    exact hf a k' (wlp_ok hQ hrun)
  | error e k' =>
    obtain ⟨p, rfl⟩ := hstays k e k' hrun
    have hnone : play Ref.step (counters env k) es = none := by
      rw [Option.eq_none_iff_forall_ne_some]
      intro c hc
      obtain ⟨a, k'', hok⟩ := hx.returns_iff.mpr ⟨c, hc⟩
      rw [hrun] at hok
      cases hok
    rw [hnone, Option.bind_none]
    exact ⟨p, k', bind_of_eq_error hrun⟩

/-- Code behind, which is not reached. -/
theorem LeavesBy.before {f : α → CM β} (h : LeavesBy env x es k) : LeavesBy env (x >>= f) es k := by
  unfold LeavesBy at h ⊢
  cases hplay : play Ref.step (counters env k) es with
  | none =>
    rw [hplay] at h
    obtain ⟨p, k', hrun⟩ := h
    exact ⟨p, k', bind_of_eq_error hrun⟩
  | some c =>
    rw [hplay] at h
    obtain ⟨thread, ctx, k', hrun⟩ := h
    exact ⟨thread, ctx, k', bind_of_eq_error hrun⟩

end LeavesBy

/-! ## The code -/

/-- The script of an `Activate` by `self`, which runs as `t`, of `thread`. -/
def activateScript (objects : KPtr → Option Object) (t : Thread) (self thread : KPtr)
    (cap : CapId) : List Ref :=
  .clone self :: .clone t.resources ::
    (capabilityScript objects t.resources cap ++ [.clone thread, .drop self])

section Activate

variable {α : Type} {env : Env} {x : Outside} {k : Kernel} {self this : KPtr} {t t' : Thread}
  {cap : CapId} {slot : CapSlot} {saver : Saver}

/-- `dispatch` clones the new thread and drops the old one. -/
theorem leaves_dispatch (hactive : k.active = some self) (ht : k.objects self = some (.thread t))
    (hself : Backed env k self) (hthis : Backed env k this)
    (ht' : k.objects this = some (.thread t')) :
    LeavesBy env (Thread.dispatch env this saver : CM α) [.clone this, .drop self] k := by
  unfold Thread.dispatch
  refine .skip (rfl : (get : CM Kernel) k = .ok k k) rfl ?_
  rw [hactive]
  obtain ⟨k₁, hk₁, hsave⟩ : ∃ k₁,
      k.setObject self (.thread { t with regs := saver.saveState t.regs }) = k₁ ∧
        Thread.saveState saver self k = .ok () k₁ := ⟨_, rfl, bind_of_eq_ok (deref_eq ht)⟩
  have hmachine : k₁.machine = k.machine := by rw [← hk₁]; rfl
  refine .skip hsave (by unfold counters; rw [hmachine]) ?_
  have hstate₁ : ∀ n, k₁.machine.stateOf n = k.machine.stateOf n := fun n => by rw [hmachine]
  -- a thread stays one when its registers are saved
  obtain ⟨t₁, ht₁⟩ : ∃ t₁, k₁.objects this = some (.thread t₁) := by
    rw [← hk₁]
    show ∃ t₁, Function.update k.objects self _ this = _
    by_cases heq : this = self
    · subst heq
      exact ⟨_, Function.update_self _ _ _⟩
    · exact ⟨t', by rw [Function.update_of_ne heq, ht']⟩
  have hclone : Counts env (cloneHandle env this) [.clone this] k₁ :=
    counts_cloneHandle (hthis.of_state hstate₁)
  refine LeavesBy.seq hclone (stays_cloneHandle this) (wlp_cloneHandle this) ?_
  rintro q k₂ ⟨hq, h₂⟩
  obtain rfl := hq.symm
  refine .skip (rfl : (modify _ : CM PUnit) k₂ = .ok () _) rfl ?_
  have hself₂ : Backed env { k₂ with active := some this } self :=
    (hself.of_state hstate₁).of_state h₂.state
  have hdrop : Counts env (dropHandle env self) [.drop self] { k₂ with active := some this } :=
    counts_dropHandle hself₂
  refine LeavesBy.seq hdrop (stays_dropHandle self) (wlp_dropHandle self) fun _ k₃ h₃ => ?_
  have ht₃ : k₃.objects this = some (.thread t₁) := by
    rw [h₃.objects]
    show k₂.objects this = _
    rw [h₂.objects, ht₁]
  exact .skip (deref_eq ht₃) rfl (.dispatched this _)

theorem leaves_exerciseCap (h : Wired env k) (hactive : k.active = some self)
    (ht : k.objects self = some (.thread t)) (hself : Backed env k self)
    (hcap : capabilityOf k.objects t.resources cap = some slot)
    (hslot : slot.resource = .thread this) (ht' : k.objects this = some (.thread t')) :
    LeavesBy env (Thread.exerciseCap env x self cap (.thread .activate))
      (.clone t.resources ::
        (capabilityScript k.objects t.resources cap ++ [.clone this, .drop self])) k := by
  have hown : Counts env (Thread.cloneResources env self) [.clone t.resources] k :=
    counts_cloneResources h ht
  refine LeavesBy.seq hown (stays_cloneResources self) (wlp_cloneResources self)
    fun root k₁ hroot => ?_
  obtain ⟨rfl, h₁, hwired₁, hroot₁, htable₁⟩ := h.own ht hroot
  have hlookup := counts_getCapability hwired₁ hroot₁ htable₁ cap
  rw [h₁.objects] at hlookup
  refine LeavesBy.seq hlookup (stays_getCapability t.resources cap)
    (wlp_getCapability t.resources cap) fun r k₂ hr => ?_
  rw [h₁.objects, hcap] at hr
  obtain ⟨rfl, h₂⟩ := hr
  have h₁₂ := h₁.trans h₂
  have hthis : Backed env k this :=
    (h.capability hcap).1.2 this (by rw [hslot]; rfl)
  dsimp only
  rw [hslot]
  exact leaves_dispatch (by rw [h₁₂.active, hactive]) (by rw [h₁₂.objects, ht]) (hself.traffic h₁₂)
    (hthis.traffic h₁₂) (by rw [h₁₂.objects, ht'])

/-- **`handle`, asked to activate a thread**, plays its script and leaves. -/
theorem leaves_handle (h : Wired env k) (hactive : k.active = some self)
    (ht : k.objects self = some (.thread t)) (hself : Backed env k self) {a : Nat} (ha : a < 2 ^ 32)
    (hcap : capabilityOf k.objects t.resources (UInt32.ofNatLT a ha) = some slot)
    (hslot : slot.resource = .thread this) (ht' : k.objects this = some (.thread t')) :
    LeavesBy env (handle env x a (.thread .activate))
      (activateScript k.objects t self this (UInt32.ofNatLT a ha)) k := by
  have hcurrent : Counts env (Thread.current env) [.clone self] k := by
    refine .skip (rfl : (get : CM Kernel) k = .ok k k) rfl ?_
    rw [hactive]
    exact counts_cloneOption (by rintro q hq; obtain rfl := Option.some.inj hq; exact hself)
  have hclone : wlp (Thread.current env)
      (fun c k' => c = some self ∧ Traffic k k' (Pi.single self 1)) k := by
    refine wlp_get ?_
    rw [hactive]
    exact wlp_cloneOption (some self)
  refine LeavesBy.seq hcurrent (Stays.get.bind fun k => stays_cloneOption k.active) hclone ?_
  rintro _ k₁ ⟨rfl, h₁⟩
  dsimp only
  rw [dif_pos ha]
  have hexercise := leaves_exerciseCap (x := x) (h.traffic h₁) (by rw [h₁.active, hactive])
    (by rw [h₁.objects, ht]) (hself.traffic h₁) (by rw [h₁.objects, hcap]) hslot
    (by rw [h₁.objects, ht'])
  rw [h₁.objects] at hexercise
  exact hexercise.before

/-- Where the kernel is left, the id stands for the thread it is left for. -/
theorem wp_handleResolves (env : Env) (x : Outside) (k : Kernel) (a : Nat) :
    wp (handle env x a (.thread .activate)) (fun _ _ => True)
      (Leaves fun thread _ _ => ∃ self t slot, ∃ ha : a < 2 ^ 32, k.active = some self ∧
        k.objects self = some (.thread t) ∧
        capabilityOf k.objects t.resources (UInt32.ofNatLT a ha) = some slot ∧
        slot.resource = .thread thread) k := by
  have hclone : wlp (Thread.current env)
      (fun c k' => c = k.active ∧ Traffic k k' (ofOption k.active)) k :=
    wlp_get (wlp_cloneOption k.active)
  refine Stays.wp_seq (Stays.get.bind fun k => stays_cloneOption k.active) hclone ?_
  rintro c k₁ ⟨rfl, h₁⟩
  cases hself : k.active with
  | none => trivial
  | some self =>
    have hactive : k₁.active = some self := by rw [h₁.active, hself]
    show wp (if h : a < 2 ^ 32 then _ else _) _ _ _
    split
    · rename_i ha
      refine wp_seq (wp_exerciseActivate hactive (UInt32.ofNatLT a ha)) ?_ ?_
      · rintro r k₂ ⟨⟨e, rfl⟩, _⟩
        refine (wp_bind _ _).mpr ((wp_pure _).mpr ?_)
        exact (stays_dropHandle self).wp_seq (wlp_returned _) fun _ _ _ => trivial
      · intro e k₂ he
        cases e with
        | panic p => trivial
        | dispatched thread ctx =>
          obtain ⟨t, slot, _, ht, hcap, hslot, _⟩ := he
          rw [h₁.objects] at ht hcap
          exact ⟨self, t, slot, ha, rfl, ht, hcap, hslot⟩
    · exact (stays_dropHandle self).wp_seq (wlp_returned _) fun _ _ _ => trivial

/-- **When an `Activate` leaves the kernel**: the id fits 32 bits and stands for a thread, and the
clones and drops on the way fit the counters. -/
theorem Activate.leaves_iff {c : Activate} (h : Wired env k) (hself : Backed env k self)
    (hactive : k.active = some self) (ht : k.objects self = some (.thread t))
    (hthreads : ∀ p s slot q, slotOf k.objects p s = some slot → slot.resource = .thread q →
      ∃ t, k.objects q = some (.thread t)) :
    (∃ k', c.Leaves env k k') ↔ ∃ (ha : c.capability < 2 ^ 32) (slot : CapSlot) (thread : KPtr),
      capabilityOf k.objects t.resources (UInt32.ofNatLT c.capability ha) = some slot ∧
      slot.resource = .thread thread ∧
      ∃ n, play Ref.step (counters env k)
        (activateScript k.objects t self thread (UInt32.ofNatLT c.capability ha)) = some n := by
  have hiff : ∀ {ha : c.capability < 2 ^ 32} {slot thread},
      capabilityOf k.objects t.resources (UInt32.ofNatLT c.capability ha) = some slot →
      slot.resource = .thread thread → ((∃ k', c.Leaves env k k') ↔
        ∃ n, play Ref.step (counters env k)
          (activateScript k.objects t self thread (UInt32.ofNatLT c.capability ha)) = some n) := by
    intro ha slot thread hcap hslot
    obtain ⟨found, _, hfound⟩ := Option.bind_eq_some_iff.mp hcap
    obtain ⟨t', ht'⟩ := hthreads _ _ slot thread hfound hslot
    rw [← (leaves_handle (x := c.outside) h hactive ht hself ha hcap hslot ht').iff]
    exact ⟨fun ⟨k', thread, ctx, hrun⟩ => ⟨thread, ctx, k', hrun⟩,
      fun ⟨thread, ctx, k', hrun⟩ => ⟨k', thread, ctx, hrun⟩⟩
  constructor
  · intro hleaves
    obtain ⟨k', thread, ctx, hrun⟩ := id hleaves
    obtain ⟨self', t', slot, ha, hactive', ht', hcap, hslot⟩ :=
      (wp_stop (wp_handleResolves env c.outside k c.capability) hrun :)
    obtain rfl := Option.some.inj (hactive.symm.trans hactive')
    obtain rfl := Object.thread.inj (Option.some.inj (ht.symm.trans ht'))
    exact ⟨ha, slot, thread, hcap, hslot, (hiff hcap hslot).mp hleaves⟩
  · rintro ⟨ha, slot, thread, hcap, hslot, hplay⟩
    exact (hiff hcap hslot).mpr hplay

end Activate

/-! ## Runs -/

/-- **Thread switching leaks.** Each time the kernel is left it holds pointers that it should have
dropped: the ledger is off by `staysBehind`, which is never zero. So a run of `Activate` system
calls from a balanced state stays balanced exactly if none of them leaves the kernel, and after any
number of switches there are at least twice as many pointers that nothing stores. It leaves the
kernel exactly if the id stands for a thread and the clones and drops on the way fit the counters.
-/
theorem switching_balanced_iff (env : Env) :
    (∀ (k : Kernel) (c : Activate) (k' : Kernel), c.Leaves env k k' →
      ∃ caller thread slot, Switched c.outside k k' caller thread slot ∧
        k'.handles ≠ k.handles + (ofOption k'.active - ofOption k.active)) ∧
    (∀ k cs, Balanced env k → (Along (Activate.Step env) k cs (Balanced env) ↔
      StepsAlong (Activate.Step env) k cs fun k c => ¬ ∃ k', c.Leaves env k k')) ∧
    (∀ k cs k', Run (Activate.Leaves env) k cs k' →
      excess env k + 2 * cs.length ≤ excess env k') ∧
    (∀ k self t (c : Activate), Wired env k → Backed env k self → k.active = some self →
      k.objects self = some (.thread t) →
      (∀ p s slot q, slotOf k.objects p s = some slot → slot.resource = .thread q →
        ∃ t, k.objects q = some (.thread t)) →
      ((∃ k', c.Leaves env k k') ↔
        ∃ (ha : c.capability < 2 ^ 32) (slot : CapSlot) (thread : KPtr),
          capabilityOf k.objects t.resources (UInt32.ofNatLT c.capability ha) = some slot ∧
          slot.resource = .thread thread ∧
          ∃ n, play Ref.step (counters env k)
            (activateScript k.objects t self thread (UInt32.ofNatLT c.capability ha)) =
              some n)) := by
  refine ⟨fun k c k' h => ?_, fun k cs h => ?_, fun k cs k' hrun => ?_,
    fun k self t c h hself hactive ht hthreads => Activate.leaves_iff h hself hactive ht hthreads⟩
  · obtain ⟨caller, thread, slot, hs⟩ := h.switched
    refine ⟨caller, thread, slot, hs, fun hlaw => ?_⟩
    rw [hs.handles, add_assoc] at hlaw
    exact staysBehind_ne_zero caller thread slot (add_eq_right.mp (add_left_cancel hlaw))
  · refine along_iff h (fun _ h => h) (fun _ _ _ h hstays hstep => h.step hstays hstep) ?_
    intro k c hk hleaves
    obtain ⟨k', hleaves⟩ := not_not.mp hleaves
    obtain ⟨caller, thread, slot, hs⟩ := hleaves.switched
    exact ⟨k', .inr hleaves, hs.not_balanced hk⟩
  · induction hrun with
    | nil k => simp
    | @cons k k₁ k' c cs hleaves _ ih =>
      obtain ⟨caller, thread, slot, hs⟩ := hleaves.switched
      have hexcess : excess env k₁ = excess env k + _ := hs.excess_eq
      rw [List.length_cons]
      push_cast
      split_ifs at hexcess
      · omega
      · omega

theorem switching_balanced_iff_activateSelf : Balanced Env.dev oneThread ∧
    ¬ Along (Activate.Step Env.dev) oneThread [activateSelf] (Balanced Env.dev) ∧
    ∃ k', Run (Activate.Leaves Env.dev) oneThread [activateSelf] k' ∧
      excess Env.dev oneThread + 2 ≤ excess Env.dev k' := by
  obtain ⟨_, hruns, hexcess, _⟩ := switching_balanced_iff Env.dev
  obtain ⟨k', hleaves, _⟩ := activateSelf_leaves
  have hrun : Run (Activate.Leaves Env.dev) oneThread [activateSelf] k' := .cons hleaves (.nil k')
  refine ⟨oneThread_balanced, fun halong => ?_, k', hrun, hexcess _ _ _ hrun⟩
  exact (hruns _ _ oneThread_balanced).mp halong [] activateSelf [] oneThread rfl (.nil _)
    ⟨k', hleaves⟩

/-- **A thread that activates itself is held twice more**, with every slot, thread and
`ACTIVE_THREAD` as before. -/
theorem activate_leaks : Balanced Env.dev oneThread ∧ ∃ k',
    activateSelf.Leaves Env.dev oneThread k' ∧ k'.active = oneThread.active ∧
    k'.handles (pointerTo 1) = oneThread.handles (pointerTo 1) + 2 ∧ ¬ Balanced Env.dev k' := by
  obtain ⟨k', hleaves, hactive, hhandles⟩ := activateSelf_leaves
  obtain ⟨caller, thread, slot, hs⟩ := hleaves.switched
  exact ⟨oneThread_balanced, k', hleaves, hactive, hhandles, hs.not_balanced oneThread_balanced⟩

end Harmony
