import Harmony.Machine

/-!
# Retyping frames, and the handles that keep a frame's type

Model of `RawFrame`'s retyping methods, `UserFrame` and `KernelFrame`
(`harmony/kernel/src/retyping.rs`). A handle is a frame whose type is pinned by the reference it
holds; it has no other content, so what matters is which calls take a reference and which give one
back.

Rust drops a value when its owner goes out of scope. `into_raw` forgets the handle, so nothing is
given back. The by-value method `drop(self)` owns its argument: its body decrements the count, and
when the body ends `self` goes out of scope and `Drop::drop` decrements it **again**
(`KernelFrame.drop`, `dropMethod`).

* `tryInto_cases`, `tryAs_cases`: everything a claim and a typed reference can do to the table.
* `tryIntoUntyped_of_zero`, `tryIntoUntyped_of_ne`: when a release succeeds.
* `dropGlue_of_pos`, `dropMethod_of_two_le`, `dropMethod_of_one`: what giving a handle back does.
-/

namespace Harmony

open Lib

/-- `RetypeError`. -/
inductive RetypeError where
  | invalidFromState (state : State)
  | refsExist (refs : Nat)
  | outOfBounds
  deriving DecidableEq, Repr

/-- `AsTypeError`. -/
inductive AsTypeError where
  | notExpectedState (state : State)
  | maxRefs
  | outOfBounds
  deriving DecidableEq, Repr

/-- `UserFrame(RawFrame)`. -/
structure UserFrame where
  frame : RawFrame

/-- `KernelFrame(RawFrame)`. -/
structure KernelFrame where
  frame : RawFrame

/-- Overwrite the entry of frame number `n`. -/
def Machine.setEntry (m : Machine) (n : Nat) (e : RetypeEntry) : Machine :=
  { m with retypeMap := m.retypeMap.set n e }

/-- The state and counter of frame number `n`; `none` past the end of the table. -/
def Machine.typing (m : Machine) (n : Nat) : Option (State × Nat) :=
  m.retypeMap[n]?.map RetypeEntry.get

/-- One atomic step on the frame's entry (`retype_entry()` and an operation on what it finds);
`none` is `OutOfBounds`. -/
def stepEntry {ρ : Type} (f : RawFrame) (step : RetypeEntry → Except Panic (ρ × RetypeEntry)) :
    KM (Option ρ) := do
  let m ← get
  match m.retypeMap[f.number]? with
  | none => pure none
  | some e =>
    let r ← orPanic (step e)
    set (m.setEntry f.number r.2)
    pure (some r.1)

/-- `debug_assert!`. -/
def debugAssert (env : Env) (c : Bool) (text : String) : KM Unit :=
  assert (!env.debugAssertions || c) text

namespace RawFrame

/-- `RawFrame::memory_limit`. -/
def memoryLimit (env : Env) : KM Nat := do
  let nframes := (← get).retypeMap.length
  orPanic (env.mul nframes frameSize)

/-- The common body of `try_as_user` and `try_as_kernel`. -/
def tryAs (env : Env) (wants : State) (f : RawFrame) : KM (Except AsTypeError RawFrame) := do
  match ← stepEntry f fun e => .ok (e.getAsAndIncrement wants) with
  | none => pure (.error .outOfBounds)
  | some (.ok ()) => pure (.ok f)
  | some (.error (state, value)) =>
    if state ≠ wants then pure (.error (.notExpectedState state))
    else
      debugAssert env (value == RetypeEntry.maxRefCount) "value == RetypeEntry::MAX_REF_COUNT"
      pure (.error .maxRefs)

/-- `RawFrame::try_as_user`. -/
def tryAsUser (env : Env) (f : RawFrame) : KM (Except AsTypeError UserFrame) :=
  return (← tryAs env .user f).map UserFrame.mk

/-- `RawFrame::try_as_kernel`. -/
def tryAsKernel (env : Env) (f : RawFrame) : KM (Except AsTypeError KernelFrame) :=
  return (← tryAs env .kernel f).map KernelFrame.mk

/-- `RawFrame::try_as_untyped`. -/
def tryAsUntyped (f : RawFrame) : KM (Except AsTypeError RawFrame) := do
  match (← get).retypeMap[f.number]? with
  | none => pure (.error .outOfBounds)
  | some e =>
    let (state, _count) := e.get
    if state ≠ .untyped then pure (.error (.notExpectedState state)) else pure (.ok f)

/-- `RawFrame::as_kernel_unchecked`. -/
def asKernelUnchecked (f : RawFrame) : KM KernelFrame := do
  match ← stepEntry f fun e => .ok e.increment with
  | none => throw .fault
  | some r =>
    let _ ← unwrapOk "MaxRefs" r
    pure ⟨f⟩

/-- The common body of `try_into_user` and `try_into_kernel`. -/
def tryInto (toState : State) (f : RawFrame) : KM (Except RetypeError RawFrame) := do
  match ← stepEntry f fun e => e.retype .untyped toState 0 1 with
  | none => pure (.error .outOfBounds)
  | some (.ok ()) => pure (.ok f)
  | some (.error (state, _count)) => pure (.error (.invalidFromState state))

/-- `RawFrame::try_into_user`. -/
def tryIntoUser (f : RawFrame) : KM (Except RetypeError UserFrame) :=
  return (← tryInto .user f).map UserFrame.mk

/-- `RawFrame::try_into_kernel`. -/
def tryIntoKernel (f : RawFrame) : KM (Except RetypeError KernelFrame) :=
  return (← tryInto .kernel f).map KernelFrame.mk

/-- `RawFrame::try_into_untyped_from`. -/
def tryIntoUntypedFrom (env : Env) (fromState : State) (f : RawFrame) :
    KM (Except RetypeError RawFrame) := do
  assert (fromState == .user || fromState == .kernel)
    "matches!(from, State::User | State::Kernel)"
  match ← stepEntry f fun e => e.retype fromState .untyped 0 0 with
  | none => pure (.error .outOfBounds)
  | some (.ok ()) => pure (.ok f)
  | some (.error (state, refs)) =>
    if state = .unavailable then
      debugAssert env (refs == 0) "refs == 0"
      pure (.error (.invalidFromState .unavailable))
    else if state = fromState then
      debugAssert env (refs != 0) "refs != 0"
      pure (.error (.refsExist refs))
    else pure (.error (.invalidFromState state))

/-- `RawFrame::try_into_untyped`: two compare-exchanges, the second only if the first fails. -/
def tryIntoUntyped (env : Env) (f : RawFrame) : KM (Except RetypeError RawFrame) := do
  match ← tryIntoUntypedFrom env .user f with
  | .ok _ => pure (.ok f)
  | .error _ => tryIntoUntypedFrom env .kernel f

end RawFrame

/-- `entry().decrement().unwrap()`, the body of both types' `drop(self)` and of both `Drop` impls.
`entry()` uses `unwrap_unchecked`: without an entry there is no telling. -/
def decrementEntry (f : RawFrame) : KM Nat := do
  match ← stepEntry f fun e => .ok e.decrement with
  | none => throw .fault
  | some r => unwrapOk "NoRefs" r

/-- `Drop::drop`, run when a handle goes out of scope. -/
def dropGlue (f : RawFrame) : KM Unit := do
  let _ ← decrementEntry f
  pure ()

/-- The by-value `drop(self)`: its body, then `self` goes out of scope. -/
def dropMethod (f : RawFrame) : KM Nat := do
  let count ← decrementEntry f
  dropGlue f
  pure count

/-- The common body of the two `try_clone`s. -/
def tryCloneOf (f : RawFrame) : KM (Option RawFrame) := do
  match ← stepEntry f fun e => .ok e.increment with
  | none => throw (.unwrap "OutOfBounds")
  | some (.ok _) => pure (some f)
  | some (.error _) => pure none

/-- `UserFrame::into_raw`: the handle is forgotten. -/
def UserFrame.intoRaw (h : UserFrame) : RawFrame := h.frame

/-- `UserFrame::try_clone`. -/
def UserFrame.tryClone (h : UserFrame) : KM (Option UserFrame) :=
  return (← tryCloneOf h.frame).map UserFrame.mk

/-- `UserFrame::drop`. -/
def UserFrame.drop (h : UserFrame) : KM Nat := dropMethod h.frame

/-- `KernelFrame::into_raw`: the handle is forgotten. -/
def KernelFrame.intoRaw (h : KernelFrame) : RawFrame := h.frame

/-- `KernelFrame::from_raw`. -/
def KernelFrame.fromRaw (f : RawFrame) : KernelFrame := ⟨f⟩

/-- `KernelFrame::try_clone`. -/
def KernelFrame.tryClone (h : KernelFrame) : KM (Option KernelFrame) :=
  return (← tryCloneOf h.frame).map KernelFrame.mk

/-- `KernelFrame::drop`. -/
def KernelFrame.drop (h : KernelFrame) : KM Nat := dropMethod h.frame

/-! ## What each method does to the table -/

section Spec

variable {m : Machine} {f : RawFrame} {e : RetypeEntry}

@[simp] theorem Machine.setEntry_mem (m : Machine) (n : Nat) (e : RetypeEntry) :
    (m.setEntry n e).mem = m.mem := rfl

@[simp] theorem Machine.setEntry_cr3 (m : Machine) (n : Nat) (e : RetypeEntry) :
    (m.setEntry n e).cr3 = m.cr3 := rfl

@[simp] theorem Machine.setEntry_trace (m : Machine) (n : Nat) (e : RetypeEntry) :
    (m.setEntry n e).trace = m.trace := rfl

@[simp] theorem Machine.length_setEntry (m : Machine) (n : Nat) (e : RetypeEntry) :
    (m.setEntry n e).retypeMap.length = m.retypeMap.length := List.length_set

theorem Machine.getElem?_setEntry_self {n : Nat} {e : RetypeEntry} (e' : RetypeEntry)
    (h : m.retypeMap[n]? = some e) : (m.setEntry n e').retypeMap[n]? = some e' := by
  have hn : n < m.retypeMap.length := (List.getElem?_eq_some_iff.mp h).1
  simp [Machine.setEntry, hn]

theorem Machine.getElem?_setEntry_ne {n k : Nat} {e' : RetypeEntry} (h : k ≠ n) :
    (m.setEntry n e').retypeMap[k]? = m.retypeMap[k]? := by
  simp [Machine.setEntry, List.getElem?_set_ne h.symm]

theorem Machine.setEntry_setEntry {n : Nat} (e₁ e₂ : RetypeEntry) :
    (m.setEntry n e₁).setEntry n e₂ = m.setEntry n e₂ := by
  simp [Machine.setEntry]

theorem Machine.setEntry_self {n : Nat} (h : m.retypeMap[n]? = some e) : m.setEntry n e = m := by
  obtain ⟨hn, rfl⟩ := List.getElem?_eq_some_iff.mp h
  simp [Machine.setEntry]

theorem stepEntry_of_none {ρ : Type} (step : RetypeEntry → Except Panic (ρ × RetypeEntry))
    (h : m.retypeMap[f.number]? = none) : stepEntry f step m = .ok none m := by
  unfold stepEntry
  refine (bind_of_eq_ok (rfl : (get : KM Machine) m = .ok m m)).trans ?_
  rw [h]
  rfl

theorem stepEntry_of_some {ρ : Type} (step : RetypeEntry → Except Panic (ρ × RetypeEntry))
    {r : ρ} {e' : RetypeEntry} (h : m.retypeMap[f.number]? = some e) (hs : step e = .ok (r, e')) :
    stepEntry f step m = .ok (some r) (m.setEntry f.number e') := by
  unfold stepEntry
  refine (bind_of_eq_ok (rfl : (get : KM Machine) m = .ok m m)).trans ?_
  simp only [h, hs]
  rfl

theorem stepEntry_of_error {ρ : Type} (step : RetypeEntry → Except Panic (ρ × RetypeEntry))
    {p : Panic} (h : m.retypeMap[f.number]? = some e) (hs : step e = .error p) :
    stepEntry f step m = .error p m := by
  unfold stepEntry
  refine (bind_of_eq_ok (rfl : (get : KM Machine) m = .ok m m)).trans ?_
  simp only [h, hs]
  rfl

/-- A step that leaves the entry leaves the machine. -/
theorem stepEntry_of_same {ρ : Type} (step : RetypeEntry → Except Panic (ρ × RetypeEntry))
    {r : ρ} (h : m.retypeMap[f.number]? = some e) (hs : step e = .ok (r, e)) :
    stepEntry f step m = .ok (some r) m := by
  rw [stepEntry_of_some step h hs, Machine.setEntry_self h]

theorem tryInto_of_none (toState : State) (h : m.retypeMap[f.number]? = none) :
    RawFrame.tryInto toState f m = .ok (.error .outOfBounds) m :=
  bind_of_eq_ok (stepEntry_of_none _ h)

theorem tryInto_of_ne (toState : State) (h : m.retypeMap[f.number]? = some e)
    (hne : e.get ≠ (.untyped, 0)) :
    RawFrame.tryInto toState f m = .ok (.error (.invalidFromState e.get.1)) m := by
  have hs := RetypeEntry.retype_of_ne toState 0 1 (by decide) (by decide) hne
  unfold RawFrame.tryInto
  rw [bind_of_eq_ok (stepEntry_of_same _ h hs)]
  rfl

/-- A successful claim: the frame was untyped and unreferenced, and has one reference now. -/
theorem tryInto_of_eq (toState : State) (h : m.retypeMap[f.number]? = some e)
    (heq : e.get = (.untyped, 0)) : ∃ e', e'.get = (toState, 1) ∧
      RawFrame.tryInto toState f m = .ok (.ok f) (m.setEntry f.number e') := by
  obtain ⟨e', he, hg⟩ := RetypeEntry.retype_of_eq toState 0 1 (by decide) (by decide) heq
  refine ⟨e', hg, ?_⟩
  unfold RawFrame.tryInto
  rw [bind_of_eq_ok (stepEntry_of_some _ h he)]
  rfl

/-- **Everything a claim can do.** -/
theorem tryInto_cases (toState : State) (f : RawFrame) (m : Machine) :
    (∃ err, RawFrame.tryInto toState f m = .ok (.error err) m) ∨
      ∃ e e', m.retypeMap[f.number]? = some e ∧ e.get = (.untyped, 0) ∧ e'.get = (toState, 1) ∧
        RawFrame.tryInto toState f m = .ok (.ok f) (m.setEntry f.number e') := by
  cases h : m.retypeMap[f.number]? with
  | none => exact Or.inl ⟨_, tryInto_of_none toState h⟩
  | some e =>
    by_cases heq : e.get = (.untyped, 0)
    · obtain ⟨e', hg, hrun⟩ := tryInto_of_eq toState h heq
      exact Or.inr ⟨e, e', rfl, heq, hg, hrun⟩
    · exact Or.inl ⟨_, tryInto_of_ne toState h heq⟩

/-- A typed reference taken below the limit. -/
theorem tryAs_of_room (env : Env) {wants : State} (h : m.retypeMap[f.number]? = some e)
    (hs : e.get.1 = wants) (hmax : e.get.2 ≠ 16383) :
    ∃ e', e'.get = (wants, (e.get.2 + 1) % 16383) ∧
      RawFrame.tryAs env wants f m = .ok (.ok f) (m.setEntry f.number e') := by
  obtain ⟨h1, h2⟩ := RetypeEntry.getAsAndIncrement_of_room hs hmax
  have hstep : (Except.ok (e.getAsAndIncrement wants) : Except Panic _) =
      .ok (.ok (), (e.getAsAndIncrement wants).2) := by rw [← h1]
  exact ⟨_, h2,
    bind_of_eq_ok (stepEntry_of_some (fun e => .ok (e.getAsAndIncrement wants)) h hstep)⟩

/-- **Everything taking a typed reference can do.** The new count is written modulo
`MAX_REF_COUNT`. -/
theorem tryAs_cases (env : Env) (wants : State) (f : RawFrame) (m : Machine) :
    (∃ err, RawFrame.tryAs env wants f m = .ok (.error err) m) ∨
      ∃ e e', m.retypeMap[f.number]? = some e ∧ e.get.1 = wants ∧ e.get.2 ≠ 16383 ∧
        e'.get = (wants, (e.get.2 + 1) % 16383) ∧
        RawFrame.tryAs env wants f m = .ok (.ok f) (m.setEntry f.number e') := by
  cases h : m.retypeMap[f.number]? with
  | none => exact Or.inl ⟨_, bind_of_eq_ok (stepEntry_of_none _ h)⟩
  | some e =>
    by_cases hroom : e.get.1 ≠ wants ∨ e.get.2 = 16383
    · left
      have hs : (Except.ok (e.getAsAndIncrement wants) : Except Panic _) =
          .ok (.error e.get, e) := by rw [RetypeEntry.getAsAndIncrement_of_not hroom]
      have hrun := stepEntry_of_same (fun e => .ok (e.getAsAndIncrement wants)) h hs
      unfold RawFrame.tryAs
      rw [bind_of_eq_ok hrun]
      by_cases hw : e.get.1 = wants
      · have hmax : e.get.2 = 16383 := hroom.resolve_left (not_not.mpr hw)
        refine ⟨.maxRefs, ?_⟩
        simp only [hw, ne_eq, not_true_eq_false, if_false, debugAssert, assert, hmax,
          RetypeEntry.maxRefCount_eq, beq_self_eq_true, Bool.or_true, if_true]
        rfl
      · exact ⟨.notExpectedState e.get.1, by simp only [ne_eq, hw, not_false_eq_true, if_true]; rfl⟩
    · rw [not_or, not_not] at hroom
      obtain ⟨e', hg', hrun⟩ := tryAs_of_room env h hroom.1 hroom.2
      exact Or.inr ⟨e, e', rfl, hroom.1, hroom.2, hg', hrun⟩

theorem tryIntoUntypedFrom_of_none {env : Env} {st : State} (hst : st = .user ∨ st = .kernel)
    (h : m.retypeMap[f.number]? = none) :
    RawFrame.tryIntoUntypedFrom env st f m = .ok (.error .outOfBounds) m := by
  have hassert : assert (st == .user || st == .kernel)
      "matches!(from, State::User | State::Kernel)" m = .ok () m := by
    rcases hst with rfl | rfl <;> rfl
  unfold RawFrame.tryIntoUntypedFrom
  rw [bind_of_eq_ok hassert, bind_of_eq_ok (stepEntry_of_none _ h)]
  rfl

theorem tryIntoUntypedFrom_of_eq (env : Env) {st : State} (hst : st = .user ∨ st = .kernel)
    (h : m.retypeMap[f.number]? = some e) (heq : e.get = (st, 0)) :
    ∃ e', e'.get = (.untyped, 0) ∧
      RawFrame.tryIntoUntypedFrom env st f m = .ok (.ok f) (m.setEntry f.number e') := by
  have hassert : assert (st == .user || st == .kernel)
      "matches!(from, State::User | State::Kernel)" m = .ok () m := by
    rcases hst with rfl | rfl <;> rfl
  obtain ⟨e', he, hg⟩ := RetypeEntry.retype_of_eq .untyped 0 0 (by decide) (by decide) heq
  refine ⟨e', hg, ?_⟩
  unfold RawFrame.tryIntoUntypedFrom
  rw [bind_of_eq_ok hassert, bind_of_eq_ok (stepEntry_of_some _ h he)]
  rfl

/-- What a refused release from `st` answers for a frame in the state and with the count `p`. -/
def refusal (st : State) (p : State × Nat) : RetypeError :=
  if p.1 = st then .refsExist p.2 else .invalidFromState p.1

/-- A refused release changes nothing; its debug assertions hold as long as an unavailable frame
has no references. -/
theorem tryIntoUntypedFrom_of_ne (env : Env) {st : State} (hst : st = .user ∨ st = .kernel)
    (h : m.retypeMap[f.number]? = some e) (hne : e.get ≠ (st, 0))
    (hun : env.debugAssertions = true → e.get.1 = .unavailable → e.get.2 = 0) :
    RawFrame.tryIntoUntypedFrom env st f m = .ok (.error (refusal st e.get)) m := by
  have hassert : assert (st == .user || st == .kernel)
      "matches!(from, State::User | State::Kernel)" m = .ok () m := by
    rcases hst with rfl | rfl <;> rfl
  have hs := RetypeEntry.retype_of_ne .untyped 0 0 (by decide) (by decide) hne
  unfold RawFrame.tryIntoUntypedFrom refusal
  rw [bind_of_eq_ok hassert, bind_of_eq_ok (stepEntry_of_same _ h hs)]
  simp only [debugAssert, assert]
  by_cases hu : e.get.1 = .unavailable
  · have hst' : State.unavailable ≠ st := by
      rcases hst with rfl | rfl <;> decide
    have hdebug : (!env.debugAssertions || e.get.2 == 0) = true := by
      cases hd : env.debugAssertions with
      | false => rfl
      | true => simp [hun hd hu]
    rw [if_pos hu, hdebug, hu, if_neg hst']
    rfl
  · rw [if_neg hu]
    by_cases hf : e.get.1 = st
    · have hr : e.get.2 ≠ 0 := fun h0 => hne (Prod.ext hf h0)
      rw [if_pos hf, if_pos hf]
      simp only [bne_iff_ne.mpr hr, Bool.or_true, if_true]
      rfl
    · rw [if_neg hf, if_neg hf]
      rfl

/-- With debug assertions, asking for an unavailable frame that has references panics. -/
theorem tryIntoUntypedFrom_of_unavailable {env : Env} {st : State}
    (hst : st = .user ∨ st = .kernel) (h : m.retypeMap[f.number]? = some e)
    (hd : env.debugAssertions = true) (hu : e.get.1 = .unavailable) (hr : e.get.2 ≠ 0) :
    RawFrame.tryIntoUntypedFrom env st f m = .error (.assertion "refs == 0") m := by
  have hassert : assert (st == .user || st == .kernel)
      "matches!(from, State::User | State::Kernel)" m = .ok () m := by
    rcases hst with rfl | rfl <;> rfl
  have hne : e.get ≠ (st, 0) := fun heq => hr (congrArg Prod.snd heq)
  have hs := RetypeEntry.retype_of_ne .untyped 0 0 (by decide) (by decide) hne
  unfold RawFrame.tryIntoUntypedFrom
  rw [bind_of_eq_ok hassert, bind_of_eq_ok (stepEntry_of_same _ h hs)]
  simp only [debugAssert, assert, if_pos hu, hd, beq_eq_false_iff_ne.mpr hr]
  rfl

/-- A release succeeds on a typed frame without references, and on no other. -/
theorem tryIntoUntyped_of_zero (env : Env) (h : m.retypeMap[f.number]? = some e)
    (heq : e.get = (.user, 0) ∨ e.get = (.kernel, 0)) :
    ∃ e', e'.get = (.untyped, 0) ∧
      RawFrame.tryIntoUntyped env f m = .ok (.ok f) (m.setEntry f.number e') := by
  unfold RawFrame.tryIntoUntyped
  rcases heq with heq | heq
  · obtain ⟨e', hg, hrun⟩ := tryIntoUntypedFrom_of_eq env (Or.inl rfl) h heq
    exact ⟨e', hg, by rw [bind_of_eq_ok hrun]; rfl⟩
  · have hne : e.get ≠ (.user, 0) := by rw [heq]; decide
    have hun : e.get.1 = .unavailable → e.get.2 = 0 := fun _ => by rw [heq]
    have hrun := tryIntoUntypedFrom_of_ne env (Or.inl rfl) h hne fun _ => hun
    obtain ⟨e', hg, hrun'⟩ := tryIntoUntypedFrom_of_eq env (Or.inr rfl) h heq
    exact ⟨e', hg, by rw [bind_of_eq_ok hrun]; exact hrun'⟩

/-- What the first attempt found out is thrown away: a refusal is the second one's, which asked for
`Kernel`. -/
theorem tryIntoUntyped_of_ne (env : Env) (h : m.retypeMap[f.number]? = some e)
    (hu : e.get ≠ (.user, 0)) (hk : e.get ≠ (.kernel, 0))
    (hun : env.debugAssertions = true → e.get.1 = .unavailable → e.get.2 = 0) :
    RawFrame.tryIntoUntyped env f m = .ok (.error (refusal .kernel e.get)) m := by
  have hrun := tryIntoUntypedFrom_of_ne env (Or.inl rfl) h hu hun
  unfold RawFrame.tryIntoUntyped
  rw [bind_of_eq_ok hrun]
  exact tryIntoUntypedFrom_of_ne env (Or.inr rfl) h hk hun

theorem tryIntoUntyped_of_unavailable {env : Env} (h : m.retypeMap[f.number]? = some e)
    (hd : env.debugAssertions = true) (hu : e.get.1 = .unavailable) (hr : e.get.2 ≠ 0) :
    RawFrame.tryIntoUntyped env f m = .error (.assertion "refs == 0") m :=
  bind_of_eq_error (tryIntoUntypedFrom_of_unavailable (Or.inl rfl) h hd hu hr)

theorem tryIntoUntyped_of_none (env : Env) (h : m.retypeMap[f.number]? = none) :
    RawFrame.tryIntoUntyped env f m = .ok (.error .outOfBounds) m := by
  unfold RawFrame.tryIntoUntyped
  rw [bind_of_eq_ok (tryIntoUntypedFrom_of_none (Or.inl rfl) h)]
  exact tryIntoUntypedFrom_of_none (Or.inr rfl) h

/-! ## Taking and giving back a reference -/

theorem decrementEntry_of_zero (h : m.retypeMap[f.number]? = some e) (h0 : e.get.2 = 0) :
    decrementEntry f m = .error (.unwrap "NoRefs") m := by
  have hs : (Except.ok e.decrement : Except Panic _) = .ok (.error .mk, e) := by
    rw [RetypeEntry.decrement_of_zero h0]
  unfold decrementEntry
  rw [bind_of_eq_ok (stepEntry_of_same _ h hs)]
  rfl

theorem decrementEntry_of_pos (h : m.retypeMap[f.number]? = some e) (hpos : e.get.2 ≠ 0) :
    ∃ e', e'.get = (e.get.1, e.get.2 - 1) ∧
      decrementEntry f m = .ok e.get.2 (m.setEntry f.number e') := by
  obtain ⟨h1, h2⟩ := RetypeEntry.decrement_of_ne hpos
  have hs : (Except.ok e.decrement : Except Panic _) = .ok (.ok e.get.2, e.decrement.2) := by
    rw [← h1]
  refine ⟨_, h2, ?_⟩
  unfold decrementEntry
  rw [bind_of_eq_ok (stepEntry_of_some _ h hs)]
  rfl

/-- A handle that goes out of scope gives its reference back. -/
theorem dropGlue_of_pos (h : m.retypeMap[f.number]? = some e) (hpos : e.get.2 ≠ 0) :
    ∃ e', e'.get = (e.get.1, e.get.2 - 1) ∧ dropGlue f m = .ok () (m.setEntry f.number e') := by
  obtain ⟨e', hg, hrun⟩ := decrementEntry_of_pos h hpos
  refine ⟨e', hg, ?_⟩
  unfold dropGlue
  rw [bind_of_eq_ok hrun]
  rfl

theorem dropGlue_of_zero (h : m.retypeMap[f.number]? = some e) (h0 : e.get.2 = 0) :
    dropGlue f m = .error (.unwrap "NoRefs") m :=
  bind_of_eq_error (decrementEntry_of_zero h h0)

/-- **The by-value `drop` takes two references off the count.** -/
theorem dropMethod_of_two_le (h : m.retypeMap[f.number]? = some e) (h2 : 2 ≤ e.get.2) :
    ∃ e', e'.get = (e.get.1, e.get.2 - 2) ∧
      dropMethod f m = .ok e.get.2 (m.setEntry f.number e') := by
  obtain ⟨e₁, hg₁, hrun₁⟩ := decrementEntry_of_pos h (by omega)
  have hm₁ := Machine.getElem?_setEntry_self e₁ h
  obtain ⟨e₂, hg₂, hrun₂⟩ := dropGlue_of_pos hm₁ (by rw [hg₁]; simp only; omega)
  refine ⟨e₂, ?_, ?_⟩
  · rw [hg₂, hg₁]
    simp only [Prod.mk.injEq, true_and]
    omega
  · unfold dropMethod
    rw [bind_of_eq_ok hrun₁, bind_of_eq_ok hrun₂, Machine.setEntry_setEntry]
    rfl

/-- **The by-value `drop` of the last reference panics**: the body takes the count to 0, and the
`Drop` that follows finds nothing to take. -/
theorem dropMethod_of_one (h : m.retypeMap[f.number]? = some e) (h1 : e.get.2 = 1) :
    ∃ e', dropMethod f m = .error (.unwrap "NoRefs") (m.setEntry f.number e') := by
  obtain ⟨e₁, hg₁, hrun₁⟩ := decrementEntry_of_pos h (by omega)
  have hm₁ := Machine.getElem?_setEntry_self e₁ h
  refine ⟨e₁, ?_⟩
  unfold dropMethod
  rw [bind_of_eq_ok hrun₁]
  exact bind_of_eq_error (dropGlue_of_zero hm₁ (by rw [hg₁]; simp only; omega))

theorem dropMethod_of_zero (h : m.retypeMap[f.number]? = some e) (h0 : e.get.2 = 0) :
    dropMethod f m = .error (.unwrap "NoRefs") m :=
  bind_of_eq_error (decrementEntry_of_zero h h0)

theorem tryCloneOf_of_max (h : m.retypeMap[f.number]? = some e) (hmax : e.get.2 = 16383) :
    tryCloneOf f m = .ok none m := by
  have hs : (Except.ok e.increment : Except Panic _) = .ok (.error .mk, e) := by
    rw [RetypeEntry.increment_of_max hmax]
  unfold tryCloneOf
  rw [bind_of_eq_ok (stepEntry_of_same _ h hs)]
  rfl

theorem tryCloneOf_of_ne (h : m.retypeMap[f.number]? = some e) (hne : e.get.2 ≠ 16383) :
    ∃ e', e'.get = (e.get.1, e.get.2 + 1) ∧
      tryCloneOf f m = .ok (some f) (m.setEntry f.number e') := by
  obtain ⟨h1, h2⟩ := RetypeEntry.increment_of_ne hne
  have hs : (Except.ok e.increment : Except Panic _) = .ok (.ok e.get.2, e.increment.2) := by
    rw [← h1]
  refine ⟨_, h2, ?_⟩
  unfold tryCloneOf
  rw [bind_of_eq_ok (stepEntry_of_some _ h hs)]
  rfl

theorem asKernelUnchecked_of_ne (h : m.retypeMap[f.number]? = some e) (hne : e.get.2 ≠ 16383) :
    ∃ e', e'.get = (e.get.1, e.get.2 + 1) ∧
      RawFrame.asKernelUnchecked f m = .ok ⟨f⟩ (m.setEntry f.number e') := by
  obtain ⟨h1, h2⟩ := RetypeEntry.increment_of_ne hne
  have hs : (Except.ok e.increment : Except Panic _) = .ok (.ok e.get.2, e.increment.2) := by
    rw [← h1]
  refine ⟨_, h2, ?_⟩
  unfold RawFrame.asKernelUnchecked
  rw [bind_of_eq_ok (stepEntry_of_some _ h hs)]
  rfl

end Spec

end Harmony
