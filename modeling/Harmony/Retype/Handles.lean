import Harmony.Retype.Counter
import Harmony.Retype.Table

/-!
# What the frame handles keep

Runs of the whole handle interface of `harmony/kernel/src/retyping.rs`, on any frames and in any
order, against a ledger of the references handed out: live `KernelFrame` and `UserFrame` handles,
and those `into_raw` forgot.

The law (`Pinned`) is the one the handles are for: the counter is its boot value plus the
references outstanding, and a live handle keeps the frame's type, so that releasing the frame
fails. Two operations break it. The by-value `drop(self)` gives the reference back twice, once in
its body and once when `self` goes out of scope; and a `try_as_*` one below the limit writes the
counter through `value_for`, which wraps.

* `Ledgered.step`: every other operation keeps the law, and does not panic.
* `dropMethod_breaks`, `tryAs_breaks`: these two break it wherever they are called.
* `handles_pin_frames`: so the law holds along a run iff neither is in it.
-/

namespace Harmony

open Lib

/-- The two handle types. -/
inductive Kind where
  | kernel
  | user
  deriving DecidableEq, Repr

/-- The state a handle pins. -/
def Kind.state : Kind → State
  | .kernel => .kernel
  | .user => .user

/-- `try_into_kernel` and `try_into_user`; whether a handle came out. -/
def Kind.tryInto : Kind → RawFrame → KM Bool
  | .kernel, f => return isOk (← f.tryIntoKernel)
  | .user, f => return isOk (← f.tryIntoUser)

/-- `try_as_kernel` and `try_as_user`; whether a handle came out. -/
def Kind.tryAs (env : Env) : Kind → RawFrame → KM Bool
  | .kernel, f => return isOk (← f.tryAsKernel env)
  | .user, f => return isOk (← f.tryAsUser env)

/-- `try_clone` of a handle; whether a handle came out. -/
def Kind.tryClone : Kind → RawFrame → KM Bool
  | .kernel, f => return (← KernelFrame.tryClone ⟨f⟩).isSome
  | .user, f => return (← UserFrame.tryClone ⟨f⟩).isSome

/-- The by-value `drop` of a handle. -/
def Kind.drop : Kind → RawFrame → KM Nat
  | .kernel, f => KernelFrame.drop ⟨f⟩
  | .user, f => UserFrame.drop ⟨f⟩

/-- One call of the handle interface. -/
inductive HandleOp where
  | tryInto (k : Kind) (f : RawFrame)
  | tryAs (k : Kind) (f : RawFrame)
  | tryClone (k : Kind) (f : RawFrame)
  | intoRaw (k : Kind) (f : RawFrame)
  | fromRaw (f : RawFrame)
  /-- The by-value method `drop(self)`. -/
  | dropMethod (k : Kind) (f : RawFrame)
  /-- A handle goes out of scope. -/
  | dropGlue (k : Kind) (f : RawFrame)
  | tryIntoUntyped (f : RawFrame)

/-- The machine, and the references handed out and not given back, by kind and frame number. -/
structure World where
  machine : Machine
  live : Kind → Nat → Nat
  raw : Kind → Nat → Nat

/-- Before the first call. -/
def World.start (m : Machine) : World := ⟨m, fun _ _ => 0, fun _ _ => 0⟩

/-- The ledger with the count of one frame set. -/
def count (t : Kind → Nat → Nat) (k : Kind) (n v : Nat) : Kind → Nat → Nat :=
  fun k' n' => if k' = k ∧ n' = n then v else t k' n'

namespace World

/-- A handle came out of a call. -/
def take (w : World) (k : Kind) (n : Nat) : World :=
  { w with live := count w.live k n (w.live k n + 1) }

/-- A handle was consumed. -/
def give (w : World) (k : Kind) (n : Nat) : World :=
  { w with live := count w.live k n (w.live k n - 1) }

/-- A handle was forgotten. -/
def forget (w : World) (k : Kind) (n : Nat) : World :=
  { w with live := count w.live k n (w.live k n - 1), raw := count w.raw k n (w.raw k n + 1) }

/-- A forgotten handle was rebuilt. -/
def rebuild (w : World) (k : Kind) (n : Nat) : World :=
  { w with live := count w.live k n (w.live k n + 1), raw := count w.raw k n (w.raw k n - 1) }

/-- References of one kind outstanding on frame number `n`. -/
def held (w : World) (k : Kind) (n : Nat) : Nat := w.live k n + w.raw k n

/-- References outstanding on frame number `n`. -/
def outstanding (w : World) (n : Nat) : Nat := w.held .kernel n + w.held .user n

/-- The ledger next to another machine. -/
def on (w : World) (m : Machine) : World := { w with machine := m }

/-- Run a call and book its result; `none` is a panic. -/
def after {α : Type} (w : World) (x : KM α) (book : α → World → World) : Option World :=
  match x w.machine with
  | .ok a m => some (book a (w.on m))
  | .error _ _ => none

/-- Book a handle if one came out. -/
def takeIf (k : Kind) (n : Nat) (ok : Bool) (w : World) : World := if ok then w.take k n else w

end World

namespace HandleOp

/-- The caller has what the call consumes or borrows. -/
def Legal (w : World) : HandleOp → Prop
  | .tryClone k f | .intoRaw k f | .dropMethod k f | .dropGlue k f => 0 < w.live k f.number
  | .fromRaw f => 0 < w.raw .kernel f.number
  | .tryInto _ _ | .tryAs _ _ | .tryIntoUntyped _ => True

/-- The call, booked in the ledger. -/
def exec (env : Env) (w : World) : HandleOp → Option World
  | .tryInto k f => w.after (k.tryInto f) (World.takeIf k f.number)
  | .tryAs k f => w.after (k.tryAs env f) (World.takeIf k f.number)
  | .tryClone k f => w.after (k.tryClone f) (World.takeIf k f.number)
  | .intoRaw k f => some (w.forget k f.number)
  | .fromRaw f => some (w.rebuild .kernel f.number)
  | .dropMethod k f => w.after (k.drop f) fun _ w => w.give k f.number
  | .dropGlue k f => w.after (Harmony.dropGlue f) fun _ w => w.give k f.number
  | .tryIntoUntyped f => w.after (f.tryIntoUntyped env) fun _ w => w

/-- The call is not the by-value `drop`, and not a `try_as_*` of the right state one below the
limit. -/
def Exact (w : World) : HandleOp → Prop
  | .dropMethod _ _ => False
  | .tryAs k f => ∀ e, w.machine.retypeMap[f.number]? = some e →
      e.get ≠ (k.state, RetypeEntry.maxRefCount - 1)
  | _ => True

end HandleOp

/-- One call in a run; `none` is a kernel that panicked, from which there is no step. -/
def HandleStep (env : Env) (s : Option World) (op : HandleOp) (t : Option World) : Prop :=
  ∃ w, s = some w ∧ op.Legal w ∧ t = op.exec env w

/-- **The law of the handles**, against the table at boot: no call panicked, the counter is its
boot value plus the references outstanding, and a live handle pins its frame's type. -/
structure Pinned (env : Env) (boot : List RetypeEntry) (w : World) : Prop where
  length : w.machine.retypeMap.length = boot.length
  counter : ∀ n e₀ e, boot[n]? = some e₀ → w.machine.retypeMap[n]? = some e →
    e.get.2 = e₀.get.2 + w.outstanding n
  typed : ∀ k n, 0 < w.live k n → ∃ e, w.machine.retypeMap[n]? = some e ∧ e.get.1 = k.state
  release_fails : ∀ k (f : RawFrame), 0 < w.live k f.number →
    ∃ err, f.tryIntoUntyped env w.machine = .ok (.error err) w.machine

/-- The law of the handles in a state of a run: the kernel has not panicked, and it holds. -/
def PinnedState (env : Env) (boot : List RetypeEntry) (s : Option World) : Prop :=
  ∃ w, s = some w ∧ Pinned env boot w

/-! ## The ledger -/

section Ledger

variable {w : World} {k : Kind} {n : Nat}

theorem count_self (t : Kind → Nat → Nat) (k : Kind) (n v : Nat) : count t k n v k n = v :=
  if_pos ⟨rfl, rfl⟩

theorem count_ne_frame (t : Kind → Nat → Nat) (k k' : Kind) {n n' : Nat} (v : Nat) (h : n' ≠ n) :
    count t k n v k' n' = t k' n' := if_neg fun hc => h hc.2

theorem count_ne_kind (t : Kind → Nat → Nat) {k k' : Kind} (n n' v : Nat) (h : k' ≠ k) :
    count t k n v k' n' = t k' n' := if_neg fun hc => h hc.1

/-- What a booking changes: `held` of one kind and frame, to `v`. -/
structure Booked (w w' : World) (k : Kind) (n v : Nat) : Prop where
  self : w'.held k n = v
  kind : ∀ k', k' ≠ k → ∀ n', w'.held k' n' = w.held k' n'
  frame : ∀ k' n', n' ≠ n → w'.held k' n' = w.held k' n'

theorem World.take_booked (w : World) (m : Machine) (k : Kind) (n : Nat) :
    Booked w ((w.on m).take k n) k n (w.held k n + 1) where
  self := by simp only [held, take, on, count_self]; omega
  kind k' h n' := by simp only [held, take, on, count_ne_kind _ n n' _ h]
  frame k' n' h := by simp only [held, take, on, count_ne_frame _ k k' _ h]

theorem World.give_booked (m : Machine) (hl : 0 < w.live k n) :
    Booked w ((w.on m).give k n) k n (w.held k n - 1) where
  self := by simp only [held, give, on, count_self]; omega
  kind k' h n' := by simp only [held, give, on, count_ne_kind _ n n' _ h]
  frame k' n' h := by simp only [held, give, on, count_ne_frame _ k k' _ h]

theorem World.forget_booked (hl : 0 < w.live k n) : Booked w (w.forget k n) k n (w.held k n) where
  self := by simp only [held, forget, count_self]; omega
  kind k' h n' := by simp only [held, forget, count_ne_kind _ n n' _ h]
  frame k' n' h := by simp only [held, forget, count_ne_frame _ k k' _ h]

theorem World.rebuild_booked (hr : 0 < w.raw k n) :
    Booked w (w.rebuild k n) k n (w.held k n) where
  self := by simp only [held, rebuild, count_self]; omega
  kind k' h n' := by simp only [held, rebuild, count_ne_kind _ n n' _ h]
  frame k' n' h := by simp only [held, rebuild, count_ne_frame _ k k' _ h]

theorem Booked.outstanding_self {w' : World} {v : Nat} (h : Booked w w' k n v) :
    w'.outstanding n + w.held k n = w.outstanding n + v := by
  cases k with
  | kernel =>
    simp only [World.outstanding, h.self, h.kind .user (by decide)]
    omega
  | user =>
    simp only [World.outstanding, h.self, h.kind .kernel (by decide)]
    omega

theorem Booked.outstanding_ne {w' : World} {v n' : Nat} (h : Booked w w' k n v) (hn : n' ≠ n) :
    w'.outstanding n' = w.outstanding n' := by
  simp only [World.outstanding, h.frame _ n' hn]

end Ledger

/-! ## What a call preserves -/

/-- The invariant: the law, with forgotten references counted like live ones, and nothing counted
on an unavailable frame. -/
structure Ledgered (boot : List RetypeEntry) (w : World) : Prop where
  length : w.machine.retypeMap.length = boot.length
  counter : ∀ n e₀ e, boot[n]? = some e₀ → w.machine.retypeMap[n]? = some e →
    e.get.2 = e₀.get.2 + w.outstanding n
  typed : ∀ k n, 0 < w.held k n → ∃ e, w.machine.retypeMap[n]? = some e ∧ e.get.1 = k.state
  unavailable : ∀ (n : Nat) (e : RetypeEntry), w.machine.retypeMap[n]? = some e →
    e.get.1 = .unavailable → e.get.2 = 0

section Step

variable {env : Env} {boot : List RetypeEntry} {w w' : World} {k : Kind} {f : RawFrame}
  {n v : Nat} {e e' : RetypeEntry}

/-- A new table has no references beyond its boot counts. -/
theorem Ledgered.start {mm : List MapEntry} {m : Machine}
    (h : RetypeTable.new env mm = .ok (some m.retypeMap)) :
    Ledgered m.retypeMap (World.start m) where
  length := rfl
  counter n e₀ e h₀ he := by
    have : e₀ = e := Option.some.inj (h₀.symm.trans he)
    simp [this, World.outstanding, World.held, World.start]
  typed k n hpos := absurd hpos (Nat.lt_irrefl 0)
  unavailable n e he hu := by
    rcases new_entry_cases h he with hg | hg | hg
    · rw [hg]
    · rw [hg]
    · rw [hg] at hu; exact absurd hu (by decide)

theorem Ledgered.boot_entry (h : Ledgered boot w) (hm : w.machine.retypeMap[n]? = some e) :
    ∃ e₀, boot[n]? = some e₀ ∧ e.get.2 = e₀.get.2 + w.outstanding n := by
  have hn : n < boot.length := h.length ▸ (List.getElem?_eq_some_iff.mp hm).1
  exact ⟨boot[n], List.getElem?_eq_getElem hn, h.counter n _ e (List.getElem?_eq_getElem hn) hm⟩

/-- The references of one kind are among those the counter counts. -/
theorem Ledgered.held_le (h : Ledgered boot w) (k : Kind) (hm : w.machine.retypeMap[n]? = some e) :
    w.held k n ≤ e.get.2 := by
  obtain ⟨e₀, _, hc⟩ := h.boot_entry hm
  cases k with
  | kernel => simp only [World.outstanding] at hc; omega
  | user => simp only [World.outstanding] at hc; omega

/-- **One entry and one count change together.** -/
theorem Ledgered.update (h : Ledgered boot w) (hb : Booked w w' k n v)
    (hm : w.machine.retypeMap[n]? = some e) (hm' : w'.machine = w.machine.setEntry n e')
    (hc : e'.get.2 + w.held k n = e.get.2 + v)
    (ht : ∀ k', 0 < w'.held k' n → e'.get.1 = k'.state)
    (hun : e'.get.1 = .unavailable → e'.get.2 = 0) : Ledgered boot w' where
  length := by rw [hm', Machine.length_setEntry, h.length]
  counter n' e₀ x h₀ hx := by
    rw [hm'] at hx
    by_cases hn : n' = n
    · subst hn
      rw [Machine.getElem?_setEntry_self e' hm, Option.some.injEq] at hx
      subst hx
      have hold := h.counter n' e₀ e h₀ hm
      have hout := hb.outstanding_self
      omega
    · rw [Machine.getElem?_setEntry_ne hn] at hx
      rw [hb.outstanding_ne hn]
      exact h.counter n' e₀ x h₀ hx
  typed k' n' hpos := by
    rw [hm']
    by_cases hn : n' = n
    · subst hn
      exact ⟨e', Machine.getElem?_setEntry_self e' hm, ht k' hpos⟩
    · rw [Machine.getElem?_setEntry_ne hn]
      rw [hb.frame k' n' hn] at hpos
      exact h.typed k' n' hpos
  unavailable n' x hx hu := by
    rw [hm'] at hx
    by_cases hn : n' = n
    · subst hn
      rw [Machine.getElem?_setEntry_self e' hm, Option.some.injEq] at hx
      subst hx
      exact hun hu
    · rw [Machine.getElem?_setEntry_ne hn] at hx
      exact h.unavailable n' x hx hu

/-- The count changes and the state stays. -/
theorem Ledgered.recount (h : Ledgered boot w) (hb : Booked w w' k n v)
    (hm : w.machine.retypeMap[n]? = some e) (hm' : w'.machine = w.machine.setEntry n e')
    (hstate : e.get.1 = k.state) (hstate' : e'.get.1 = e.get.1)
    (hc : e'.get.2 + w.held k n = e.get.2 + v) : Ledgered boot w' := by
  refine h.update hb hm hm' hc (fun k' hpos => ?_) (fun hu => ?_)
  · by_cases hk : k' = k
    · rw [hstate', hstate, hk]
    · rw [hb.kind k' hk] at hpos
      obtain ⟨x, hx, hxs⟩ := h.typed k' n hpos
      rw [hm, Option.some.injEq] at hx
      rw [hstate', hx, hxs]
  · rw [hstate', hstate] at hu
    cases k <;> exact absurd hu (by decide)

/-- The ledger changes and the table stays. -/
theorem Ledgered.rebook (h : Ledgered boot w) (hb : Booked w w' k n (w.held k n))
    (hm : w'.machine = w.machine) : Ledgered boot w' := by
  have hheld : ∀ k' n', w'.held k' n' = w.held k' n' := by
    intro k' n'
    by_cases hk : k' = k
    · by_cases hn : n' = n
      · rw [hk, hn, hb.self]
      · exact hb.frame k' n' hn
    · exact hb.kind k' hk n'
  constructor
  · rw [hm, h.length]
  · intro n' e₀ x h₀ hx
    simp only [World.outstanding, hheld]
    exact h.counter n' e₀ x h₀ (hm ▸ hx)
  · intro k' n' hpos
    rw [hm]
    exact h.typed k' n' (hheld k' n' ▸ hpos)
  · intro n' x hx
    exact h.unavailable n' x (hm ▸ hx)

/-- The reference a live handle holds: its frame is in the table, has the handle's type, and
counts at least one. -/
theorem Ledgered.of_live (h : Ledgered boot w) (hl : 0 < w.live k n) :
    ∃ e, w.machine.retypeMap[n]? = some e ∧ e.get.1 = k.state ∧ 0 < e.get.2 := by
  have hpos : 0 < w.held k n := Nat.lt_of_lt_of_le hl (Nat.le_add_right _ _)
  obtain ⟨e, he, hs⟩ := h.typed k n hpos
  exact ⟨e, he, hs, Nat.lt_of_lt_of_le hpos (h.held_le k he)⟩

/-- Releasing a frame with a live handle fails and changes nothing. -/
theorem Ledgered.release_fails (h : Ledgered boot w) (hl : 0 < w.live k f.number) :
    ∃ err, f.tryIntoUntyped env w.machine = .ok (.error err) w.machine := by
  obtain ⟨e, he, _, hpos⟩ := h.of_live hl
  refine ⟨_, tryIntoUntyped_of_ne env he ?_ ?_ fun _ => h.unavailable _ e he⟩
  · intro hg; rw [hg] at hpos; exact absurd hpos (Nat.lt_irrefl 0)
  · intro hg; rw [hg] at hpos; exact absurd hpos (Nat.lt_irrefl 0)

theorem Ledgered.pinned (h : Ledgered boot w) : Pinned env boot w where
  length := h.length
  counter := h.counter
  typed k n hl := h.typed k n (Nat.lt_of_lt_of_le hl (Nat.le_add_right _ _))
  release_fails _ _ hl := h.release_fails hl

theorem Kind.tryInto_of_ok {m m' : Machine} {r : Except RetypeError RawFrame}
    (h : RawFrame.tryInto k.state f m = .ok r m') : k.tryInto f m = .ok (isOk r) m' := by
  cases k with
  | kernel =>
    have h₁ : f.tryIntoKernel m = .ok (r.map KernelFrame.mk) m' := bind_of_eq_ok h
    rw [← isOk_map KernelFrame.mk r]
    exact bind_of_eq_ok h₁
  | user =>
    have h₁ : f.tryIntoUser m = .ok (r.map UserFrame.mk) m' := bind_of_eq_ok h
    rw [← isOk_map UserFrame.mk r]
    exact bind_of_eq_ok h₁

theorem Kind.tryAs_of_ok {m m' : Machine} {r : Except AsTypeError RawFrame}
    (h : RawFrame.tryAs env k.state f m = .ok r m') : k.tryAs env f m = .ok (isOk r) m' := by
  cases k with
  | kernel =>
    have h₁ : f.tryAsKernel env m = .ok (r.map KernelFrame.mk) m' := bind_of_eq_ok h
    rw [← isOk_map KernelFrame.mk r]
    exact bind_of_eq_ok h₁
  | user =>
    have h₁ : f.tryAsUser env m = .ok (r.map UserFrame.mk) m' := bind_of_eq_ok h
    rw [← isOk_map UserFrame.mk r]
    exact bind_of_eq_ok h₁

theorem Kind.tryClone_of_ok {m m' : Machine} {r : Option RawFrame}
    (h : tryCloneOf f m = .ok r m') : k.tryClone f m = .ok r.isSome m' := by
  cases k with
  | kernel =>
    have h₁ : KernelFrame.tryClone ⟨f⟩ m = .ok (r.map KernelFrame.mk) m' := bind_of_eq_ok h
    rw [← Option.isSome_map (f := KernelFrame.mk)]
    exact bind_of_eq_ok h₁
  | user =>
    have h₁ : UserFrame.tryClone ⟨f⟩ m = .ok (r.map UserFrame.mk) m' := bind_of_eq_ok h
    rw [← Option.isSome_map (f := UserFrame.mk)]
    exact bind_of_eq_ok h₁

theorem Kind.drop_eq (k : Kind) (f : RawFrame) : k.drop f = dropMethod f := by
  cases k <;> rfl

theorem World.after_of_ok {α : Type} {x : KM α} {book : α → World → World} {a : α} {m' : Machine}
    (h : x w.machine = .ok a m') : w.after x book = some (book a (w.on m')) := by
  unfold World.after
  rw [h]

theorem World.after_of_error {α : Type} {x : KM α} {book : α → World → World} {p : Panic}
    {m' : Machine} (h : x w.machine = .error p m') : w.after x book = none := by
  unfold World.after
  rw [h]

theorem Ledgered.tryInto (h : Ledgered boot w) (k : Kind) (f : RawFrame) :
    ∃ w', (HandleOp.tryInto k f).exec env w = some w' ∧ Ledgered boot w' := by
  unfold HandleOp.exec
  rcases tryInto_cases k.state f w.machine with ⟨err, hrun⟩ | ⟨e, e', he, hg, hg', hrun⟩
  · exact ⟨w, World.after_of_ok (Kind.tryInto_of_ok hrun), h⟩
  · refine ⟨_, World.after_of_ok (Kind.tryInto_of_ok hrun), ?_⟩
    have hb := World.take_booked w (w.machine.setEntry f.number e') k f.number
    -- the counter read 0, so nothing was outstanding on the frame
    have hnone : ∀ k', w.held k' f.number = 0 := fun k' => by
      have := h.held_le k' he
      rw [hg] at this
      exact Nat.le_zero.mp this
    refine h.update hb he rfl ?_ (fun k' hpos => ?_) (fun hu => ?_)
    · rw [hg, hg', hnone k]
    · replace hpos :
          0 < ((w.on (w.machine.setEntry f.number e')).take k f.number).held k' f.number :=
        hpos
      by_cases hk : k' = k
      · rw [hg', hk]
      · rw [hb.kind k' hk, hnone k'] at hpos
        exact absurd hpos (Nat.lt_irrefl 0)
    · rw [hg'] at hu
      cases k <;> exact absurd hu (by decide)

theorem Ledgered.tryAs (h : Ledgered boot w) (hx : (HandleOp.tryAs k f).Exact w) :
    ∃ w', (HandleOp.tryAs k f).exec env w = some w' ∧ Ledgered boot w' := by
  unfold HandleOp.exec
  rcases tryAs_cases env k.state f w.machine with ⟨err, hrun⟩ | ⟨e, e', he, hs, hmax, hg', hrun⟩
  · exact ⟨w, World.after_of_ok (Kind.tryAs_of_ok hrun), h⟩
  · refine ⟨_, World.after_of_ok (Kind.tryAs_of_ok hrun), ?_⟩
    have hb := World.take_booked w (w.machine.setEntry f.number e') k f.number
    have hlim : e.get.2 ≠ 16382 := fun h2 => hx e he (Prod.ext hs h2)
    have hle := e.get_snd_le
    refine h.recount hb he rfl hs (by rw [hg', hs]) ?_
    rw [hg', Nat.mod_eq_of_lt (by omega)]
    show e.get.2 + 1 + _ = e.get.2 + (w.held k f.number + 1)
    omega

theorem Ledgered.tryClone (h : Ledgered boot w) (hl : (HandleOp.tryClone k f).Legal w) :
    ∃ w', (HandleOp.tryClone k f).exec env w = some w' ∧ Ledgered boot w' := by
  unfold HandleOp.exec
  obtain ⟨e, he, hs, _⟩ := h.of_live hl
  by_cases hmax : e.get.2 = 16383
  · exact ⟨w, World.after_of_ok (Kind.tryClone_of_ok (tryCloneOf_of_max he hmax)), h⟩
  · obtain ⟨e', hg', hrun⟩ := tryCloneOf_of_ne he hmax
    refine ⟨_, World.after_of_ok (Kind.tryClone_of_ok hrun), ?_⟩
    have hb := World.take_booked w (w.machine.setEntry f.number e') k f.number
    refine h.recount hb he rfl hs (by rw [hg']) ?_
    rw [hg']
    show e.get.2 + 1 + _ = e.get.2 + (w.held k f.number + 1)
    omega

theorem Ledgered.dropGlue (h : Ledgered boot w) (hl : (HandleOp.dropGlue k f).Legal w) :
    ∃ w', (HandleOp.dropGlue k f).exec env w = some w' ∧ Ledgered boot w' := by
  unfold HandleOp.exec
  obtain ⟨e, he, hs, hpos⟩ := h.of_live hl
  obtain ⟨e', hg', hrun⟩ := dropGlue_of_pos he (Nat.pos_iff_ne_zero.mp hpos)
  refine ⟨_, World.after_of_ok hrun, ?_⟩
  have hl' : 0 < w.live k f.number := hl
  have hb : Booked w _ k f.number _ := World.give_booked (w.machine.setEntry f.number e') hl
  refine h.recount hb he rfl hs (by rw [hg']) ?_
  rw [hg']
  have hheld : 0 < w.held k f.number := Nat.lt_of_lt_of_le hl' (Nat.le_add_right _ _)
  show e.get.2 - 1 + w.held k f.number = e.get.2 + (w.held k f.number - 1)
  omega

theorem Ledgered.tryIntoUntyped (h : Ledgered boot w) (f : RawFrame) :
    ∃ w', (HandleOp.tryIntoUntyped f).exec env w = some w' ∧ Ledgered boot w' := by
  unfold HandleOp.exec
  cases he : w.machine.retypeMap[f.number]? with
  | none => exact ⟨w, World.after_of_ok (tryIntoUntyped_of_none env he), h⟩
  | some e =>
    by_cases hz : e.get = (.user, 0) ∨ e.get = (.kernel, 0)
    · obtain ⟨e', hg', hrun⟩ := tryIntoUntyped_of_zero env he hz
      refine ⟨_, World.after_of_ok hrun, ?_⟩
      have h0 : e.get.2 = 0 := by rcases hz with hz | hz <;> rw [hz]
      have hnone : ∀ k', w.held k' f.number = 0 := fun k' =>
        Nat.le_zero.mp (h0 ▸ h.held_le k' he)
      have hb : Booked w (w.on (w.machine.setEntry f.number e')) .kernel f.number
          (w.held .kernel f.number) := ⟨rfl, fun _ _ _ => rfl, fun _ _ _ => rfl⟩
      refine h.update hb he rfl (by rw [hg', h0]) (fun k' hpos => ?_) (fun _ => by rw [hg'])
      have hpos' : 0 < w.held k' f.number := hpos
      rw [hnone k'] at hpos'
      exact absurd hpos' (Nat.lt_irrefl 0)
    · rw [not_or] at hz
      have hrun := tryIntoUntyped_of_ne env he hz.1 hz.2 fun _ => h.unavailable _ e he
      exact ⟨w, World.after_of_ok hrun, h⟩

/-- **Every call that is `Exact` comes back and keeps the law.** -/
theorem Ledgered.step {op : HandleOp} (h : Ledgered boot w) (hl : op.Legal w) (hx : op.Exact w) :
    ∃ w', op.exec env w = some w' ∧ Ledgered boot w' := by
  cases op with
  | tryInto k f => exact h.tryInto k f
  | tryAs k f => exact h.tryAs hx
  | tryClone k f => exact h.tryClone hl
  | intoRaw k f => exact ⟨_, rfl, h.rebook (World.forget_booked hl) rfl⟩
  | fromRaw f => exact ⟨_, rfl, h.rebook (World.rebuild_booked hl) rfl⟩
  | dropMethod k f => exact hx.elim
  | dropGlue k f => exact h.dropGlue hl
  | tryIntoUntyped f => exact h.tryIntoUntyped f

/-- **The by-value `drop` of a handle breaks the law**: with one reference counted it panics, with
more it takes two off. -/
theorem Ledgered.dropMethod_breaks (h : Ledgered boot w) (hl : (HandleOp.dropMethod k f).Legal w) :
    ¬ PinnedState env boot ((HandleOp.dropMethod k f).exec env w) := by
  simp only [HandleOp.exec, Kind.drop_eq]
  obtain ⟨e, he, hs, hpos⟩ := h.of_live hl
  rintro ⟨w', hw', hp⟩
  by_cases h1 : e.get.2 = 1
  · obtain ⟨m', hrun⟩ := dropMethod_of_one he h1
    rw [World.after_of_error hrun] at hw'
    exact absurd hw' (by simp)
  · obtain ⟨e', hg', hrun⟩ := dropMethod_of_two_le he (show 2 ≤ e.get.2 by omega)
    rw [World.after_of_ok hrun, Option.some.injEq] at hw'
    subst hw'
    obtain ⟨e₀, h₀, hc⟩ := h.boot_entry he
    have hc' := hp.counter f.number e₀ e' h₀ (Machine.getElem?_setEntry_self e' he)
    have hb : Booked w _ k f.number _ := World.give_booked (w.machine.setEntry f.number e') hl
    have hout := hb.outstanding_self
    have hheld : 0 < w.held k f.number := Nat.lt_of_lt_of_le hl (Nat.le_add_right _ _)
    rw [hg'] at hc'
    simp only at hc'
    omega

/-- **A `try_as_*` one below the limit breaks the law**: the counter reads 0 afterwards. -/
theorem Ledgered.tryAs_breaks (h : Ledgered boot w) (hm : w.machine.retypeMap[f.number]? = some e)
    (hg : e.get = (k.state, 16382)) :
    ¬ PinnedState env boot ((HandleOp.tryAs k f).exec env w) := by
  simp only [HandleOp.exec]
  rintro ⟨w', hw', hp⟩
  have hs : e.get.1 = k.state := by rw [hg]
  obtain ⟨e', hg', hrun⟩ := tryAs_of_room env hm hs (by simp [hg])
  rw [World.after_of_ok (Kind.tryAs_of_ok hrun), Option.some.injEq] at hw'
  subst hw'
  obtain ⟨e₀, h₀, hc⟩ := h.boot_entry hm
  have hc' := hp.counter f.number e₀ e' h₀ (Machine.getElem?_setEntry_self e' hm)
  have hout : (World.takeIf k f.number (isOk (Except.ok f : Except AsTypeError RawFrame))
      (w.on (w.machine.setEntry f.number e'))).outstanding f.number + w.held k f.number =
      w.outstanding f.number + (w.held k f.number + 1) :=
    (World.take_booked w (w.machine.setEntry f.number e') k f.number).outstanding_self
  simp only [hg', hg] at hc hc'
  omega

end Step

/-! ## Along a run -/

/-- The invariant in a state of a run. -/
def LedgeredState (boot : List RetypeEntry) (s : Option World) : Prop :=
  ∃ w, s = some w ∧ Ledgered boot w

/-- The call is `Exact` where the caller may make it. -/
def ExactStep (s : Option World) (op : HandleOp) : Prop :=
  ∀ w, s = some w → op.Legal w → op.Exact w

theorem ledgered_keep {env : Env} {boot : List RetypeEntry} (s : Option World) (op : HandleOp)
    (t : Option World) (h : LedgeredState boot s) (hx : ExactStep s op)
    (hstep : HandleStep env s op t) : LedgeredState boot t := by
  obtain ⟨w, rfl, hl, rfl⟩ := hstep
  obtain ⟨w', hw', hinv⟩ := h
  obtain rfl : w = w' := Option.some.inj hw'
  exact hinv.step hl (hx w rfl hl)

theorem ledgered_break {env : Env} {boot : List RetypeEntry} (s : Option World) (op : HandleOp)
    (h : LedgeredState boot s) (hx : ¬ ExactStep s op) :
    ∃ t, HandleStep env s op t ∧ ¬ PinnedState env boot t := by
  obtain ⟨w, rfl, hinv⟩ := h
  have hbad : op.Legal w ∧ ¬ op.Exact w :=
    of_not_guarded (w := w) (C := fun w => op.Exact w) hx
  refine ⟨_, ⟨w, rfl, hbad.1, rfl⟩, ?_⟩
  cases op with
  | dropMethod k f => exact hinv.dropMethod_breaks hbad.1
  | tryAs k f =>
    obtain ⟨e, he⟩ := not_forall.mp hbad.2
    obtain ⟨hm, hg⟩ := Classical.not_imp.mp he
    exact hinv.tryAs_breaks hm (not_not.mp hg)
  | tryInto k f | tryClone k f | intoRaw k f | fromRaw f | dropGlue k f | tryIntoUntyped f =>
    exact absurd trivial hbad.2

/-- **The handles keep their law exactly as long as no by-value `drop` is called and no `try_as_*`
is called one below the limit.** Over every run from every table `RetypeTable::new` builds. -/
theorem handles_pin_frames (env : Env) (mm : List MapEntry) (m : Machine)
    (h : RetypeTable.new env mm = .ok (some m.retypeMap)) (ops : List HandleOp) :
    Along (HandleStep env) (some (World.start m)) ops (PinnedState env m.retypeMap) ↔
      StepsAlong (HandleStep env) (some (World.start m)) ops ExactStep := by
  refine along_iff (I := LedgeredState m.retypeMap) ⟨_, rfl, Ledgered.start h⟩ ?_
    ledgered_keep ledgered_break
  rintro s ⟨w, rfl, hinv⟩
  exact ⟨w, rfl, hinv.pinned⟩

/-- A kernel handle taken, copied and forgotten: the law holds along such a run. -/
theorem handles_pin_frames_twoFrames :
    Along (HandleStep Env.dev) (some (World.start twoFrames))
      [.tryInto .kernel frameOne, .tryClone .kernel frameOne, .intoRaw .kernel frameOne]
      (PinnedState Env.dev twoFrames.retypeMap) := by
  refine (handles_pin_frames Env.dev usableMap twoFrames twoFrames_new _).mpr
    (stepsAlong_of_forall fun op hop s w _ _ => ?_)
  simp only [List.mem_cons, List.not_mem_nil, or_false] at hop
  rcases hop with rfl | rfl | rfl <;> trivial

/-- **A handle left on a frame that counts nothing.** Take a kernel handle, copy it, drop the copy
by value: one handle is live, the counter reads 0, and the frame can be released under it. -/
theorem byvalue_drop_unpins :
    ¬ Along (HandleStep Env.dev) (some (World.start twoFrames))
        [.tryInto .kernel frameOne, .tryClone .kernel frameOne, .dropMethod .kernel frameOne]
        (PinnedState Env.dev twoFrames.retypeMap) ∧
      ∃ w, Run (HandleStep Env.dev) (some (World.start twoFrames))
          [.tryInto .kernel frameOne, .tryClone .kernel frameOne, .dropMethod .kernel frameOne]
          (some w) ∧
        w.live .kernel 1 = 1 ∧
        w.machine.retypeMap[1]? = some (RetypeEntry.kernel 0 (by decide)) ∧
        ∃ m', frameOne.tryIntoUntyped Env.dev w.machine = .ok (.ok frameOne) m' := by
  let w₁ : World := ((World.start twoFrames).on
    (twoFrames.setEntry 1 (RetypeEntry.kernel 1 (by decide)))).take .kernel 1
  let w₂ : World :=
    (w₁.on (w₁.machine.setEntry 1 (RetypeEntry.kernel 2 (by decide)))).take .kernel 1
  let w₃ : World :=
    (w₂.on (w₂.machine.setEntry 1 (RetypeEntry.kernel 0 (by decide)))).give .kernel 1
  have h₁ : HandleStep Env.dev (some (World.start twoFrames)) (.tryInto .kernel frameOne)
      (some w₁) := ⟨_, rfl, trivial, by rfl⟩
  have h₂ : HandleStep Env.dev (some w₁) (.tryClone .kernel frameOne) (some w₂) :=
    ⟨_, rfl, (by decide : 0 < w₁.live .kernel 1), by rfl⟩
  have h₃ : HandleStep Env.dev (some w₂) (.dropMethod .kernel frameOne) (some w₃) :=
    ⟨_, rfl, (by decide : 0 < w₂.live .kernel 1), by rfl⟩
  have hrun := Run.cons h₁ (Run.cons h₂ (Run.cons h₃ (Run.nil (some w₃))))
  have hentry : w₃.machine.retypeMap[1]? = some (RetypeEntry.kernel 0 (by decide)) := by rfl
  refine ⟨fun hlaw => ?_, w₃, hrun, by decide, hentry, _, by rfl⟩
  obtain ⟨w, hw, hp⟩ := hlaw _ [] _ (List.append_nil _).symm hrun
  obtain rfl : w₃ = w := Option.some.inj hw
  have hc := hp.counter 1 RetypeEntry.untyped _ rfl hentry
  have hout : w₃.outstanding 1 = 1 := by decide
  rw [hout] at hc
  exact absurd hc (by decide)

end Harmony
