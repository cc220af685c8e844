import Harmony.KPtr
import Harmony.Retype.Table

/-!
# Who owns a kernel object

Runs of `KPtr::new`, `clone`, `drop`, `into_raw` and `try_into_inner` on the pointers to one frame,
against the references outstanding: live pointers, and those `into_raw` forgot.

A counted pointer should destroy its object, or move it out, exactly once, in the call that gives
up the last reference (`Owns`). Making, copying and forgetting pointers keeps that law
(`Ownership.keep`). Giving a reference up never does: `KPtr::drop` and `try_into_inner` release
through the by-value `KernelFrame::drop`, which decrements twice, so with one reference left they
panic and with more the counter falls behind (`Ownership.drop_breaks`,
`Ownership.tryIntoInner_breaks`).

* `kptr_owns_object`: the law holds along a run iff no call of it gives a reference up.
-/

namespace Harmony

open Lib

/-- One call on the pointers to a frame. -/
inductive KPtrOp where
  | new (value : PageBytes)
  | clone (p : KPtr)
  | drop (p : KPtr)
  | intoRaw (p : KPtr)
  | tryIntoInner (p : KPtr)

/-- The machine, the live pointers, the number of forgotten ones, and whether the object was ever
made. -/
structure Owners where
  machine : Machine
  live : List KPtr
  raw : Nat
  born : Bool

namespace Owners

/-- Before the first call. -/
def start (m : Machine) : Owners := ⟨m, [], 0, false⟩

/-- References outstanding. -/
def outstanding (w : Owners) : Nat := w.live.length + w.raw

/-- How often the object was destroyed or moved out. -/
def gone (f : RawFrame) (w : Owners) : Nat :=
  w.machine.trace.countP fun ev => ev = .dropInPlace f ∨ ev = .moveOut f

end Owners

namespace KPtrOp

/-- The caller has the pointer the call takes, and a copy does not pass `MAX_REF_COUNT`. -/
def Legal (w : Owners) : KPtrOp → Prop
  | .new _ => True
  | .clone p => p ∈ w.live ∧ w.outstanding < RetypeEntry.maxRefCount
  | .drop p | .intoRaw p | .tryIntoInner p => p ∈ w.live

/-- The call, with the references it leaves; `none` is a panic. -/
def exec (env : Env) (f : RawFrame) (w : Owners) : KPtrOp → Option Owners
  | .new value =>
    match KPtr.new env f value w.machine with
    | .ok (.ok p) m => some { w with machine := m, live := p :: w.live, born := true }
    | .ok (.error _) m => some { w with machine := m }
    | .error _ _ => none
  | .clone p =>
    match p.clone env w.machine with
    | .ok q m => some { w with machine := m, live := q :: w.live }
    | .error _ _ => none
  | .drop p =>
    match p.drop env w.machine with
    | .ok _ m => some { w with machine := m, live := w.live.erase p }
    | .error _ _ => none
  | .intoRaw p =>
    match p.intoRaw env w.machine with
    | .ok _ m => some { w with machine := m, live := w.live.erase p, raw := w.raw + 1 }
    | .error _ _ => none
  | .tryIntoInner p =>
    match p.tryIntoInner env w.machine with
    | .ok _ m => some { w with machine := m, live := w.live.erase p }
    | .error _ _ => none

/-- The call does not give a reference up. -/
def KeepsReference : KPtrOp → Prop
  | .drop _ | .tryIntoInner _ => False
  | .new _ | .clone _ | .intoRaw _ => True

end KPtrOp

/-- One call in a run; `none` is a kernel that panicked, from which there is no step. -/
def OwnStep (env : Env) (f : RawFrame) (s : Option Owners) (op : KPtrOp) (t : Option Owners) :
    Prop :=
  ∃ w, s = some w ∧ op.Legal w ∧ t = op.exec env f w

/-- **The law of the pointers to `f`**: the counter is the references outstanding, on a frame that
is `Kernel` from the first pointer on, and the object is gone, once, iff the last reference is. -/
structure Owns (f : RawFrame) (w : Owners) : Prop where
  entry : ∃ e, w.machine.retypeMap[f.number]? = some e ∧
    e.get = (if w.born then .kernel else .untyped, w.outstanding)
  gone : w.gone f = if w.born ∧ w.outstanding = 0 then 1 else 0

/-- The law in a state of a run: no call panicked, and it holds. -/
def OwnsState (f : RawFrame) (s : Option Owners) : Prop := ∃ w, s = some w ∧ Owns f w

/-- The call, where the caller may make it, gives no reference up. -/
def KeepsStep (s : Option Owners) (op : KPtrOp) : Prop :=
  ∀ w, s = some w → op.Legal w → op.KeepsReference

/-- The invariant: the law, and every live pointer leads to the frame of an object that was
made. -/
structure Ownership (env : Env) (f : RawFrame) (w : Owners) : Prop extends Owns f w where
  points : ∀ p ∈ w.live, p.Points env f
  born : 0 < w.outstanding → w.born = true

section Step

variable {env : Env} {f : RawFrame} {w : Owners} {p : KPtr}

theorem Ownership.start {m : Machine} {e : RetypeEntry} (he : m.retypeMap[f.number]? = some e)
    (hu : e.get = (.untyped, 0)) (htrace : m.trace = []) : Ownership env f (Owners.start m) where
  entry := ⟨e, he, hu⟩
  gone := by simp [Owners.gone, Owners.start, htrace]
  points p hp := absurd hp List.not_mem_nil
  born h := absurd h (Nat.lt_irrefl 0)

/-- The counter of a frame some pointer leads to is positive, and the pointer is one of those it
counts. -/
theorem Ownership.of_mem (h : Ownership env f w) (hp : p ∈ w.live) :
    ∃ e, w.machine.retypeMap[f.number]? = some e ∧ e.get = (.kernel, w.outstanding) ∧
      0 < w.outstanding ∧ (w.live.erase p).length + 1 = w.live.length := by
  have hpos : 0 < w.live.length := List.length_pos_of_mem hp
  have hout : 0 < w.outstanding := Nat.lt_of_lt_of_le hpos (Nat.le_add_right _ _)
  obtain ⟨e, he, hg⟩ := h.entry
  rw [h.born hout, if_pos rfl] at hg
  refine ⟨e, he, hg, hout, ?_⟩
  rw [List.length_erase_of_mem hp]
  omega

theorem Ownership.keep_new (hf : f.Usable env) (h : Ownership env f w) (value : PageBytes) :
    ∃ w', (KPtrOp.new value).exec env f w = some w' ∧ Ownership env f w' := by
  obtain ⟨e, he, hg⟩ := h.entry
  by_cases hb : w.born = true
  · -- the frame is `Kernel`, so the claim fails and nothing changes
    have hne : e.get ≠ (.untyped, 0) := by rw [hg, if_pos hb]; simp
    have hclaim : f.tryIntoKernel w.machine =
        .ok (.error (.invalidFromState e.get.1)) w.machine :=
      bind_of_eq_ok (tryInto_of_ne .kernel he hne)
    have hnew : KPtr.new env f value w.machine =
        .ok (.error (.invalidFromState e.get.1)) w.machine := bind_of_eq_ok hclaim
    exact ⟨w, by simp only [KPtrOp.exec, hnew], h⟩
  · have hout : w.outstanding = 0 := by
      by_contra hne
      exact hb (h.born (Nat.pos_of_ne_zero hne))
    rw [if_neg hb, hout] at hg
    obtain ⟨e', hg', hrun⟩ := tryInto_of_eq .kernel he hg
    have hclaim : f.tryIntoKernel w.machine = .ok (.ok ⟨f⟩) (w.machine.setEntry f.number e') :=
      bind_of_eq_ok hrun
    obtain ⟨q, hq, hmake⟩ := KPtr.newUnchecked_of_usable
      (m := w.machine.setEntry f.number e') hf value
    have hexec : (KPtrOp.new value).exec env f w = some
        { machine := { (w.machine.setEntry f.number e').store f.base.addr pageSize value with
            trace := .construct f :: w.machine.trace }
          live := q :: w.live, raw := w.raw, born := true } := by
      simp only [KPtrOp.exec, KPtr.new, bind_of_eq_ok hclaim]
      rw [show (KPtr.newUnchecked env ⟨f⟩ value >>= fun q => pure (Except.ok q))
        (w.machine.setEntry f.number e') = .ok (.ok q) _ from bind_of_eq_ok hmake]
      rfl
    refine ⟨_, hexec, ?_⟩
    have hlen : w.live.length + w.raw = 0 := hout
    have hgone := h.gone
    rw [if_neg (fun hc => hb hc.1)] at hgone
    constructor
    · refine ⟨⟨e', Machine.getElem?_setEntry_self e' he, ?_⟩, ?_⟩
      · rw [hg', if_pos rfl]
        simp only [Owners.outstanding, List.length_cons, Prod.mk.injEq, true_and]
        omega
      · rw [if_neg (by simp [Owners.outstanding])]
        simp only [Owners.gone, List.countP_cons] at hgone ⊢
        simpa using hgone
    · intro p hp
      rcases List.mem_cons.mp hp with rfl | hp
      · exact hq
      · exact h.points p hp
    · exact fun _ => rfl

theorem Ownership.keep_clone (hf : f.Usable env) (h : Ownership env f w)
    (hl : (KPtrOp.clone p).Legal w) :
    ∃ w', (KPtrOp.clone p).exec env f w = some w' ∧ Ownership env f w' := by
  obtain ⟨hmem, hmax⟩ := hl
  obtain ⟨e, he, hg, hout, _⟩ := h.of_mem hmem
  have hne : e.get.2 ≠ 16383 := by
    rw [hg]
    rw [RetypeEntry.maxRefCount_eq] at hmax
    exact Nat.ne_of_lt hmax
  obtain ⟨q, e', hq, hg', hrun⟩ := KPtr.clone_of_ne hf (h.points p hmem) he hne
  have hexec : (KPtrOp.clone p).exec env f w = some
      { w with machine := w.machine.setEntry f.number e', live := q :: w.live } := by
    simp only [KPtrOp.exec, hrun]
  refine ⟨_, hexec, ?_⟩
  have hgone := h.gone
  rw [if_neg (fun hc => by omega)] at hgone
  constructor
  · refine ⟨⟨e', Machine.getElem?_setEntry_self e' he, ?_⟩, ?_⟩
    · rw [hg', hg, h.born hout, if_pos rfl]
      simp only [Owners.outstanding, List.length_cons, Prod.mk.injEq, true_and]
      omega
    · rw [if_neg (by simp [Owners.outstanding])]
      exact hgone
  · intro r hr
    rcases List.mem_cons.mp hr with rfl | hr
    · exact hq
    · exact h.points r hr
  · exact fun _ => h.born hout

theorem Ownership.keep_intoRaw (hf : f.Usable env) (h : Ownership env f w)
    (hl : (KPtrOp.intoRaw p).Legal w) :
    ∃ w', (KPtrOp.intoRaw p).exec env f w = some w' ∧ Ownership env f w' := by
  obtain ⟨e, he, hg, hout, hlen⟩ := h.of_mem hl
  have hexec : (KPtrOp.intoRaw p).exec env f w = some
      { w with live := w.live.erase p, raw := w.raw + 1 } := by
    simp only [KPtrOp.exec, KPtr.intoRaw, KPtr.frame_of_points hf.aligned (h.points p hl)]
    rfl
  refine ⟨_, hexec, ?_⟩
  have hsame : ({ w with live := w.live.erase p, raw := w.raw + 1 } : Owners).outstanding =
      w.outstanding := by
    simp only [Owners.outstanding]
    omega
  constructor
  · exact ⟨by rw [hsame]; exact h.entry, by rw [hsame]; exact h.gone⟩
  · exact fun r hr => h.points r (List.mem_of_mem_erase hr)
  · exact fun _ => h.born hout

/-- **Making, copying and forgetting pointers keeps the law.** -/
theorem Ownership.keep {op : KPtrOp} (hf : f.Usable env) (h : Ownership env f w)
    (hl : op.Legal w) (hk : op.KeepsReference) :
    ∃ w', op.exec env f w = some w' ∧ Ownership env f w' := by
  cases op with
  | new value => exact h.keep_new hf value
  | clone p => exact h.keep_clone hf hl
  | intoRaw p => exact h.keep_intoRaw hf hl
  | drop p => exact hk.elim
  | tryIntoInner p => exact hk.elim

/-- A pointer that is given up may take one off the counter, and no more. -/
theorem Ownership.lowered_breaks (h : Ownership env f w) (hl : p ∈ w.live) {e e' : RetypeEntry}
    (he : w.machine.retypeMap[f.number]? = some e) {n : Nat} (hn : 2 ≤ n) (hle : n ≤ e.get.2)
    (hg' : e'.get = (e.get.1, e.get.2 - n)) :
    ¬ OwnsState f
      (some { w with machine := w.machine.setEntry f.number e', live := w.live.erase p }) := by
  obtain ⟨e₀, he₀, hg, _, hlen⟩ := h.of_mem hl
  obtain rfl : e₀ = e := Option.some.inj (he₀.symm.trans he)
  rintro ⟨w', hw', hlaw⟩
  obtain rfl := Option.some.inj hw'
  obtain ⟨x, hx, hgx⟩ := hlaw.entry
  rw [Machine.getElem?_setEntry_self e' he, Option.some.injEq] at hx
  subst hx
  have hcount := congrArg Prod.snd (hg'.symm.trans hgx)
  simp only [hg, Owners.outstanding] at hcount hle
  omega

theorem not_ownsState_none : ¬ OwnsState f none := by
  rintro ⟨w', hw', _⟩
  exact absurd hw' (by simp)

/-- **Dropping a pointer breaks the law**: the last one panics, any other takes two off the
counter. -/
theorem Ownership.drop_breaks (hal : f.Aligned) (h : Ownership env f w) (hl : p ∈ w.live) :
    ¬ OwnsState f ((KPtrOp.drop p).exec env f w) := by
  obtain ⟨e, he, _⟩ := h.of_mem hl
  by_cases h2 : 2 ≤ e.get.2
  · obtain ⟨e', hg', hrun⟩ := KPtr.drop_of_two_le hal (h.points p hl) he h2
    simp only [KPtrOp.exec, hrun]
    exact h.lowered_breaks hl he (le_refl 2) h2 hg'
  · obtain ⟨err, m', hrun⟩ := KPtr.drop_of_lt_two hal (h.points p hl) he (by omega)
    simp only [KPtrOp.exec, hrun]
    exact not_ownsState_none

/-- **`try_into_inner` breaks the law**: it panics, or takes four off the counter. -/
theorem Ownership.tryIntoInner_breaks (hal : f.Aligned) (h : Ownership env f w)
    (hl : p ∈ w.live) : ¬ OwnsState f ((KPtrOp.tryIntoInner p).exec env f w) := by
  obtain ⟨e, he, _⟩ := h.of_mem hl
  by_cases h4 : 4 ≤ e.get.2
  · obtain ⟨e', hg', hrun⟩ := KPtr.tryIntoInner_of_four_le hal (h.points p hl) he h4
    simp only [KPtrOp.exec, hrun]
    exact h.lowered_breaks hl he (by decide) h4 hg'
  · obtain ⟨err, m', hrun⟩ := KPtr.tryIntoInner_of_lt_four hal (h.points p hl) he (by omega)
    simp only [KPtrOp.exec, hrun]
    exact not_ownsState_none

end Step

/-! ## Along a run -/

/-- The invariant in a state of a run. -/
def OwnershipState (env : Env) (f : RawFrame) (s : Option Owners) : Prop :=
  ∃ w, s = some w ∧ Ownership env f w

theorem ownership_keep {env : Env} {f : RawFrame} (hf : f.Usable env) (s : Option Owners)
    (op : KPtrOp) (t : Option Owners) (h : OwnershipState env f s) (hk : KeepsStep s op)
    (hstep : OwnStep env f s op t) : OwnershipState env f t := by
  obtain ⟨w, rfl, hl, rfl⟩ := hstep
  obtain ⟨w', hw', hinv⟩ := h
  obtain rfl : w = w' := Option.some.inj hw'
  exact hinv.keep hf hl (hk w rfl hl)

theorem ownership_break {env : Env} {f : RawFrame} (hf : f.Usable env) (s : Option Owners)
    (op : KPtrOp) (h : OwnershipState env f s) (hk : ¬ KeepsStep s op) :
    ∃ t, OwnStep env f s op t ∧ ¬ OwnsState f t := by
  obtain ⟨w, rfl, hinv⟩ := h
  have hbad : op.Legal w ∧ ¬ op.KeepsReference :=
    of_not_guarded (w := w) (C := fun _ => op.KeepsReference) hk
  refine ⟨_, ⟨w, rfl, hbad.1, rfl⟩, ?_⟩
  cases op with
  | drop p => exact hinv.drop_breaks hf.aligned hbad.1
  | tryIntoInner p => exact hinv.tryIntoInner_breaks hf.aligned hbad.1
  | new value | clone p | intoRaw p => exact absurd trivial hbad.2

/-- **The pointers to a frame own its object exactly as long as no reference is given up.** Over
every run from an untyped frame in which at most `MAX_REF_COUNT` references are outstanding. -/
theorem kptr_owns_object (env : Env) (f : RawFrame) (hf : f.Usable env) (m : Machine)
    (e : RetypeEntry) (he : m.retypeMap[f.number]? = some e) (hu : e.get = (.untyped, 0))
    (htrace : m.trace = []) (ops : List KPtrOp) :
    Along (OwnStep env f) (some (Owners.start m)) ops (OwnsState f) ↔
      StepsAlong (OwnStep env f) (some (Owners.start m)) ops KeepsStep := by
  refine along_iff (I := OwnershipState env f) ⟨_, rfl, Ownership.start he hu htrace⟩ ?_
    (ownership_keep hf) (ownership_break hf)
  rintro s ⟨w, rfl, hinv⟩
  exact ⟨w, rfl, hinv.toOwns⟩

theorem frameOne_usable : frameOne.Usable Env.dev where
  mapped := by unfold RawFrame.Mapped; decide
  aligned := by unfold RawFrame.Aligned; decide
  pmo_aligned := by decide

/-- The pointer to `frameOne`. -/
def ptrOne : KPtr := ⟨⟨0xFFFF800000001000, by decide⟩⟩

/-- A pointer made, copied and forgotten. -/
theorem kptr_owns_object_frameOne :
    Along (OwnStep Env.dev frameOne) (some (Owners.start twoFrames))
      [.new fun _ => 0, .clone ptrOne, .intoRaw ptrOne] (OwnsState frameOne) := by
  refine (kptr_owns_object Env.dev frameOne frameOne_usable twoFrames RetypeEntry.untyped rfl
    RetypeEntry.get_untyped rfl _).mpr (stepsAlong_of_forall fun op hop s w _ _ => ?_)
  simp only [List.mem_cons, List.not_mem_nil, or_false] at hop
  rcases hop with rfl | rfl | rfl <;> trivial

/-- **The only pointer to an object cannot be dropped**: made and dropped, the kernel panics. -/
theorem kptr_drop_panics :
    Run (OwnStep Env.dev frameOne) (some (Owners.start twoFrames))
        [.new fun _ => 0, .drop ptrOne] none ∧
      ¬ Along (OwnStep Env.dev frameOne) (some (Owners.start twoFrames))
        [.new fun _ => 0, .drop ptrOne] (OwnsState frameOne) := by
  let w : Owners :=
    { machine := { (twoFrames.setEntry 1 (RetypeEntry.kernel 1 (by decide))).store 0x1000 pageSize
        (fun _ => 0) with trace := [.construct frameOne] }
      live := [ptrOne], raw := 0, born := true }
  have h₁ : OwnStep Env.dev frameOne (some (Owners.start twoFrames)) (.new fun _ => 0) (some w) :=
    ⟨_, rfl, trivial, by with_unfolding_all rfl⟩
  have h₂ : OwnStep Env.dev frameOne (some w) (.drop ptrOne) none :=
    ⟨w, rfl, List.mem_cons_self, by with_unfolding_all rfl⟩
  have hrun := Run.cons h₁ (Run.cons h₂ (Run.nil none))
  refine ⟨hrun, fun hlaw => ?_⟩
  obtain ⟨w', hw', _⟩ := hlaw _ [] none (List.append_nil _).symm hrun
  exact absurd hw' (by simp)

end Harmony
