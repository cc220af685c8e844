import Harmony.Lib.Script
import Harmony.Caps.Switch
import Mathlib.Algebra.Order.BigOperators.Group.Finset
import Mathlib.Tactic.Ring

/-!
# How `Link` and `Unlink` stop the kernel

Every pointer that a lookup passes is cloned and dropped, and both can panic: a clone where the
counter is full (`MaxRefs`), a drop where fewer than two references are left, since it takes two
(`KPtr.drop_of_two_le`). Which pointers a call clones and drops, and in which order, is read off the
graph of tables (`relinkScript`); so the call returns exactly if this script fits the counters, and
if the capability is not a page table, on which every operation is a `todo!()`.

* `Wired`: pointers lead to objects of their types, in frames of the retype table. This is what the
  Rust types say, and all that is assumed.
* `counts_exerciseCap`: the call plays its script.
* `Wired.script_loses`: a script takes more references than it makes, whatever it finds.
* `relink_returns_iff`: when a call returns; and there are never more returning calls in a run than
  there were references at its start.
-/

namespace Harmony

open Lib

/-! ## Counters and events -/

/-- The counter of the frame a pointer leads to. -/
def counters (env : Env) (k : Kernel) (p : KPtr) : Option Nat :=
  match p.frame env with
  | .ok f => (k.machine.typing f.number).map Prod.snd
  | .error _ => none

/-- A pointer is cloned or dropped. -/
inductive Ref where
  | clone (p : KPtr)
  | drop (p : KPtr)
  deriving DecidableEq

/-- The counters after an event: a clone takes one reference, unless the counter is full, and a drop
gives two back, if there are two. -/
def Ref.step (c : KPtr → Option Nat) : Ref → Option (KPtr → Option Nat)
  | .clone p => match c p with
    | some n => if n = 16383 then none else some (Function.update c p (some (n + 1)))
    | none => none
  | .drop p => match c p with
    | some n => if 2 ≤ n then some (Function.update c p (some (n - 2))) else none
    | none => none

/-- The pointer leads to a frame of the retype table. -/
def Backed (env : Env) (k : Kernel) (p : KPtr) : Prop :=
  ∃ f : RawFrame, f.Usable env ∧ p.Points env f ∧ ∃ st, k.machine.stateOf f.number = some st

/-- There is a capability table at the pointer. -/
def IsCapTable (k : Kernel) (p : KPtr) : Prop := ∃ slots, k.objects p = some (.capTable slots)

/-- **Pointers lead to objects of their types**, in frames of the retype table. -/
structure Wired (env : Env) (k : Kernel) : Prop where
  child : ∀ p s slot c, slotOf k.objects p s = some slot → slot.child = some c →
    Backed env k c ∧ IsCapTable k c
  resource : ∀ p s slot q, slotOf k.objects p s = some slot → slot.resource.ptr = some q →
    Backed env k q
  table : ∀ p s slot q, slotOf k.objects p s = some slot → slot.resource = .capEntry q →
    IsCapTable k q
  thread : ∀ p t, k.objects p = some (.thread t) →
    Backed env k t.resources ∧ IsCapTable k t.resources

/-! ## One pointer -/

section Pointers

variable {env : Env} {k k' : Kernel} {p q : KPtr} {d : KPtr → Int}

/-- The program plays the script on the counters. -/
abbrev Counts (env : Env) {α : Type} (x : CM α) (es : List Ref) (k : Kernel) : Prop :=
  Plays (counters env) Ref.step x es k

/-- Frames stay what they are. -/
theorem Backed.of_state (h : Backed env k p)
    (hstate : ∀ n, k'.machine.stateOf n = k.machine.stateOf n) : Backed env k' p := by
  obtain ⟨f, hf, hp, st, hst⟩ := h
  exact ⟨f, hf, hp, st, (hstate _).trans hst⟩

theorem Backed.traffic (h : Backed env k p) (ht : Traffic k k' d) : Backed env k' p :=
  h.of_state ht.state

theorem Wired.traffic (h : Wired env k) (ht : Traffic k k' d) : Wired env k' where
  child p s slot c hs hc := by
    rw [ht.objects] at hs
    obtain ⟨hb, hcap⟩ := h.child p s slot c hs hc
    exact ⟨hb.traffic ht, by unfold IsCapTable; rwa [ht.objects]⟩
  resource p s slot q hs hq := by
    rw [ht.objects] at hs
    exact (h.resource p s slot q hs hq).traffic ht
  table p s slot q hs hq := by
    rw [ht.objects] at hs
    unfold IsCapTable
    rw [ht.objects]
    exact h.table p s slot q hs hq
  thread p t hp := by
    rw [ht.objects] at hp
    obtain ⟨hb, hcap⟩ := h.thread p t hp
    exact ⟨hb.traffic ht, by unfold IsCapTable; rwa [ht.objects]⟩

theorem Backed.entry (h : Backed env k p) : ∃ f e, f.Usable env ∧ p.Points env f ∧
    p.frame env = .ok f ∧ k.machine.retypeMap[f.number]? = some e ∧
    counters env k p = some e.get.2 := by
  obtain ⟨f, hf, hp, st, hst⟩ := h
  have hframe := KPtr.frame_of_points hf.aligned hp
  unfold Machine.stateOf Machine.typing at hst
  cases he : k.machine.retypeMap[f.number]? with
  | none =>
    rw [he] at hst
    cases hst
  | some e =>
    refine ⟨f, e, hf, hp, hframe, he, ?_⟩
    unfold counters Machine.typing
    rw [hframe]
    simp only [he, Option.map_some]

/-- Frames of one number are one frame. -/
theorem KPtr.eq_of_number {f g : RawFrame} (hp : p.frame env = .ok f) (hq : q.frame env = .ok g)
    (hnum : f.number = g.number) : p = q := by
  have haligned : ∀ {r : KPtr} {h : RawFrame}, r.frame env = .ok h → h.Aligned := by
    intro r h hr
    unfold KPtr.frame at hr
    split at hr
    · exact (RawFrame.fromStartAddress_eq_ok hr).2
    · cases hr
  have hbase : f.base.addr = g.base.addr := by
    rw [(haligned hp).base_eq, (haligned hq).base_eq, hnum]
  obtain rfl : f = g := by
    obtain ⟨⟨a, _⟩⟩ := f
    obtain ⟨⟨b, _⟩⟩ := g
    obtain rfl : a = b := hbase
    rfl
  exact KPtr.frame_inj hp hq

/-- One entry overwritten changes one counter. -/
theorem counters_setEntry {f : RawFrame} {e : RetypeEntry} (e' : RetypeEntry) {m : Machine}
    (hframe : p.frame env = .ok f) (he : k.machine.retypeMap[f.number]? = some e)
    (hm : m = k.machine.setEntry f.number e') :
    counters env { k with machine := m } = Function.update (counters env k) p (some e'.get.2) := by
  funext q
  subst hm
  by_cases hq : q = p
  · subst hq
    rw [Function.update_self]
    unfold counters Machine.typing
    rw [hframe]
    simp only [Machine.getElem?_setEntry_self e' he, Option.map_some]
  · rw [Function.update_of_ne hq]
    unfold counters Machine.typing
    cases hg : q.frame env with
    | error _ => rfl
    | ok g =>
      have hne : g.number ≠ f.number := fun h => hq (KPtr.eq_of_number hg hframe h)
      simp only [Machine.getElem?_setEntry_ne hne]

theorem counts_cloneHandle (h : Backed env k p) : Counts env (cloneHandle env p) [.clone p] k := by
  obtain ⟨f, e, hf, hp, hframe, he, hcount⟩ := h.entry
  unfold Counts Plays
  rw [play_singleton]
  simp only [Ref.step, hcount]
  by_cases hmax : e.get.2 = 16383
  · rw [if_pos hmax]
    cases hrun : cloneHandle env p k with
    | error stop k' => exact ⟨stop, k', rfl⟩
    | ok q k' =>
      -- the counter that came out would not fit its bits
      obtain ⟨q', k₁, hclone, _⟩ := bind_eq_ok hrun
      unfold onMachine at hclone
      cases hm : p.clone env k.machine with
      | error _ _ =>
        rw [hm] at hclone
        cases hclone
      | ok q'' m' =>
        obtain ⟨_, g, e₁, e', hg, he₁, hget, _⟩ := KPtr.clone_eq_ok hm
        obtain rfl := Except.ok.inj (hframe.symm.trans hg)
        obtain rfl := Option.some.inj (he.symm.trans he₁)
        have hle := e'.get_snd_le
        rw [hget] at hle
        simp only at hle
        omega
  · rw [if_neg hmax]
    obtain ⟨q, e', _, hget, hrun⟩ := KPtr.clone_of_ne hf hp he hmax
    have hclone : onMachine (p.clone env) k =
        .ok q { k with machine := k.machine.setEntry f.number e' } := by
      unfold onMachine
      rw [hrun]
    have hmachine := counters_setEntry e' hframe he rfl
    rw [hget] at hmachine
    unfold cloneHandle
    rw [bind_of_eq_ok hclone]
    exact ⟨q, _, rfl, hmachine⟩

theorem counts_dropHandle (h : Backed env k p) : Counts env (dropHandle env p) [.drop p] k := by
  obtain ⟨f, e, hf, hp, hframe, he, hcount⟩ := h.entry
  unfold Counts Plays
  rw [play_singleton]
  simp only [Ref.step, hcount]
  by_cases htwo : 2 ≤ e.get.2
  · rw [if_pos htwo]
    obtain ⟨e', hget, hrun⟩ := KPtr.drop_of_two_le hf.aligned hp he htwo
    have hdrop : onMachine (p.drop env) k =
        .ok () { k with machine := k.machine.setEntry f.number e' } := by
      unfold onMachine
      rw [hrun]
    have hmachine := counters_setEntry e' hframe he rfl
    rw [hget] at hmachine
    unfold dropHandle
    rw [bind_of_eq_ok hdrop]
    exact ⟨(), _, rfl, hmachine⟩
  · rw [if_neg htwo]
    obtain ⟨err, e', hrun⟩ := KPtr.drop_of_lt_two hf.aligned hp he (Nat.lt_of_not_le htwo)
    have hdrop : onMachine (p.drop env) k =
        .error (.panic err) { k with machine := k.machine.setEntry f.number e' } := by
      unfold onMachine
      rw [hrun]
    unfold dropHandle
    rw [bind_of_eq_error hdrop]
    exact ⟨_, _, rfl⟩

end Pointers

/-! ## Scripts -/

/-- A pointer that may be there is cloned. -/
def clones (c : Option KPtr) : List Ref := c.toList.map .clone

/-- A pointer that may be there is dropped. -/
def drops (c : Option KPtr) : List Ref := c.toList.map .drop

/-- A slot is cloned, field by field. -/
def CapSlot.clones (slot : CapSlot) : List Ref :=
  Harmony.clones slot.child ++ Harmony.clones slot.resource.ptr

/-- One step of a lookup, through a slot of `this`. -/
def CapSlot.passed (slot : CapSlot) (this : KPtr) : List Ref :=
  slot.clones ++ (drops slot.resource.ptr ++ [.drop this])

/-- The child of a slot is set: the copy and its old child, then the old slot. -/
def CapSlot.relinked (slot : CapSlot) : List Ref :=
  slot.clones ++ (drops slot.child ++ (drops slot.child ++ drops slot.resource.ptr))

section Scripts

variable (objects : KPtr → Option Object)

/-- `TrieEntry::get_inner`. -/
def lookupScript : Nat → KPtr → Nat → List Ref
  | 0, _, _ => []
  | fuel + 1, this, id =>
    if id / numSlots = 0 then []
    else
      match slotOf objects this (Fin.ofNat numSlots id) with
      | none => []
      | some slot => slot.passed this ++
          match slot.child with
          | none => []
          | some next => lookupScript fuel next (id / numSlots)

/-- `get_capability`. -/
def capabilityScript (root : KPtr) (cap : CapId) : List Ref :=
  lookupScript objects 32 root cap.toNat ++
    match TrieEntry.get (M := Id) (linksOf objects) root cap with
    | none => []
    | some found => (slotOf objects found.1 found.2).elim [] CapSlot.clones ++ [.drop found.1]

/-- `get_resource_as`, for a capability table. -/
def tableScript (root : KPtr) (cap : CapId) : List Ref :=
  capabilityScript objects root cap ++
    match capabilityOf objects root cap with
    | none => []
    | some slot =>
      match slot.resource.asCapEntry with
      | some _ => drops slot.child
      | none => drops slot.resource.ptr ++ drops slot.child

/-- `Link` or `Unlink`, on `table`. -/
def operationScript (t : Thread) (table : KPtr) (s : SlotId numSlots) : Option CapId → List Ref
  | none => (slotOf objects table s).elim [] CapSlot.relinked
  | some other => .clone t.resources :: (tableScript objects t.resources other ++
      match t.tableOf objects other with
      | .error _ => []
      | .ok _ => (slotOf objects table s).elim [] CapSlot.relinked)

/-- **The script of a call**, up to the `todo!()` on page tables. -/
def relinkScript (t : Thread) (cap : CapId) (s : SlotId numSlots) (other : Option CapId) :
    List Ref :=
  .clone t.resources :: (capabilityScript objects t.resources cap ++
    match capabilityOf objects t.resources cap with
    | none => []
    | some slot =>
      match slot.resource with
      | .empty => drops slot.child
      | .capEntry table =>
          operationScript objects t table s other ++ (.drop table :: drops slot.child)
      | .thread thread => .drop thread :: drops slot.child
      | .pageTable _ _ => [])

end Scripts

/-! ## The code plays its scripts -/

section Counting

variable {env : Env} {x : Outside} {k : Kernel} {p this self : KPtr} {s : SlotId numSlots}
  {slot : CapSlot} {t : Thread}

theorem counts_cloneOption {c : Option KPtr} (h : ∀ q, c = some q → Backed env k q) :
    Counts env (cloneOption env c) (clones c) k := by
  cases c with
  | none => exact .pure _
  | some q => exact (counts_cloneHandle (h q rfl)).seq (wlp_cloneHandle q) fun _ _ _ => .pure _

theorem counts_cloneResource {r : Resource} (h : ∀ q, r.ptr = some q → Backed env k q) :
    Counts env (cloneResource env r) (clones r.ptr) k := by
  cases r with
  | empty => exact .pure _
  | capEntry q | thread q | pageTable q flags =>
    exact (counts_cloneHandle (h q rfl)).seq (wlp_cloneHandle q) fun _ _ _ => .pure _

theorem counts_dropOption {c : Option KPtr} (h : ∀ q, c = some q → Backed env k q) :
    Counts env (dropOption env c) (drops c) k := by
  cases c with
  | none => exact .pure _
  | some q => exact counts_dropHandle (h q rfl)

theorem counts_dropResource {r : Resource} (h : ∀ q, r.ptr = some q → Backed env k q) :
    Counts env (dropResource env r) (drops r.ptr) k := by
  cases r with
  | empty => exact .pure _
  | capEntry q | thread q | pageTable q flags => exact counts_dropHandle (h q rfl)

/-- The pointers of a slot are backed. -/
def CapSlot.Backed (env : Env) (k : Kernel) (slot : CapSlot) : Prop :=
  (∀ q, slot.child = some q → Harmony.Backed env k q) ∧
    ∀ q, slot.resource.ptr = some q → Harmony.Backed env k q

theorem Wired.slotBacked (h : Wired env k) (hslot : slotOf k.objects p s = some slot) :
    slot.Backed env k :=
  ⟨fun q hq => (h.child p s slot q hslot hq).1, fun q hq => h.resource p s slot q hslot hq⟩

theorem CapSlot.Backed.traffic {k' : Kernel} {d : KPtr → Int} (h : slot.Backed env k)
    (ht : Traffic k k' d) : slot.Backed env k' :=
  ⟨fun q hq => (h.1 q hq).traffic ht, fun q hq => (h.2 q hq).traffic ht⟩

theorem slotAt_eq (hslot : slotOf k.objects p s = some slot) : slotAt p s k = .ok slot k := by
  obtain ⟨slots, hp, rfl⟩ := slotOf_eq_some.mp hslot
  unfold slotAt
  refine (bind_of_eq_ok (rfl : (get : CM Kernel) k = .ok k k)).trans ?_
  rw [hp]
  rfl

theorem counts_slotGet (h : Wired env k) (hslot : slotOf k.objects p s = some slot) :
    Counts env (AtomicCapSlot.get env p s) slot.clones k := by
  have hb := h.slotBacked hslot
  refine .skip (slotAt_eq hslot) rfl ?_
  refine (counts_cloneOption hb.1).seq (wlp_cloneOption _) ?_
  rintro _ k₁ ⟨_, h₁⟩
  exact (counts_cloneResource (hb.traffic h₁).2).last fun _ _ => .pure _

theorem counts_slotChild (h : Wired env k) (hthis : Backed env k this)
    (hslot : slotOf k.objects this s = some slot) :
    Counts env (AtomicCapSlot.child env this s) (slot.passed this) k := by
  refine (counts_slotGet h hslot).seq (wlp_slotGet this s) ?_
  rintro slot' k₁ ⟨hslot', h₁⟩
  obtain rfl := Option.some.inj (hslot.symm.trans hslot')
  have hb := (h.slotBacked hslot).traffic h₁
  refine (counts_dropResource hb.2).seq (wlp_dropResource slot.resource) fun _ k₂ h₂ => ?_
  have hthis₂ := (hthis.traffic h₁).traffic h₂
  exact (counts_dropHandle hthis₂).last fun _ _ => .pure _

/-- A table has every slot. -/
theorem IsCapTable.slotOf (h : IsCapTable k p) (s : SlotId numSlots) :
    ∃ slot, Harmony.slotOf k.objects p s = some slot := by
  obtain ⟨slots, hp⟩ := h
  exact ⟨slots s, slotOf_eq_some.mpr ⟨slots, hp, rfl⟩⟩

/-- **A lookup** plays its script. -/
theorem counts_getInner (fuel : Nat) : ∀ (this : KPtr) (id : Nat) (k : Kernel), Wired env k →
    Backed env k this → IsCapTable k this →
    Counts env (TrieEntry.getInner (AtomicCapSlot.child env) fuel this id)
      (lookupScript k.objects fuel this id) k := by
  induction fuel with
  | zero => exact fun _ _ _ _ _ _ => .pure _
  | succ fuel ih =>
    intro this id k h hthis htable
    rw [TrieEntry.getInner, lookupScript]
    by_cases hid : id / numSlots = 0
    · simp only [if_pos hid]
      exact .pure _
    simp only [if_neg hid]
    obtain ⟨slot, hslot⟩ := htable.slotOf (Fin.ofNat numSlots id)
    rw [hslot]
    refine (counts_slotChild h hthis hslot).seq (wlp_slotChild this _) ?_
    rintro c k₁ ⟨hc, h₁⟩
    obtain rfl : c = slot.child := by
      rw [hc]
      unfold linksOf
      rw [hslot]
      rfl
    cases hchild : slot.child with
    | none => exact .pure _
    | some next =>
      obtain ⟨hnext, hcap⟩ := h.child this _ slot next hslot hchild
      have hrest := ih next (id / numSlots) k₁ (h.traffic h₁) (hnext.traffic h₁)
        (by unfold IsCapTable; rwa [h₁.objects])
      rwa [h₁.objects] at hrest

/-- A lookup ends in a table. -/
theorem Wired.lands (h : Wired env k) (fuel : Nat) : ∀ (this : KPtr) (id : Nat)
    (found : KPtr × SlotId numSlots), Backed env k this → IsCapTable k this →
    TrieEntry.getInner (M := Id) (linksOf k.objects) fuel this id = some found →
    Backed env k found.1 ∧ IsCapTable k found.1 := by
  induction fuel with
  | zero =>
    intro this id found _ _ hget
    cases hget
  | succ fuel ih =>
    intro this id found hthis htable hget
    rw [TrieEntry.getInner] at hget
    by_cases hid : id / numSlots = 0
    · simp only [if_pos hid] at hget
      obtain rfl := Option.some.inj hget
      exact ⟨hthis, htable⟩
    simp only [if_neg hid] at hget
    cases hlink : linksOf k.objects this (Fin.ofNat numSlots id) with
    | none =>
      rw [hlink] at hget
      cases hget
    | some next =>
      rw [hlink] at hget
      obtain ⟨slot, hslot, hchild⟩ := Option.bind_eq_some_iff.mp hlink
      obtain ⟨hnext, hcap⟩ := h.child this _ slot next hslot hchild
      exact ih next (id / numSlots) found hnext hcap hget

theorem counts_getCapability (h : Wired env k) (hthis : Backed env k this)
    (htable : IsCapTable k this) (cap : CapId) :
    Counts env (CapEntry.getCapability env this cap) (capabilityScript k.objects this cap) k := by
  have hfind : Counts env (CapEntry.find env this cap)
    (lookupScript k.objects 32 this cap.toNat) k := by
    refine (counts_getInner 32 this cap.toNat k h hthis htable).last fun r _ => ?_
    cases r with
    | none => exact .pure _
    | some found => exact .pure _
  refine hfind.seq (wlp_find this cap) fun r k₁ hr => ?_
  cases hget : TrieEntry.get (M := Id) (linksOf k.objects) this cap with
  | none =>
    rw [hget] at hr
    obtain ⟨rfl, _⟩ := hr
    exact .pure _
  | some found =>
    rw [hget] at hr
    obtain ⟨rfl, h₁⟩ := hr
    obtain ⟨hb, hcap⟩ := h.lands 32 this cap.toNat found hthis htable hget
    obtain ⟨slot, hslot⟩ := hcap.slotOf found.2
    simp only [hslot, Option.elim_some]
    have hslot₁ : slotOf k₁.objects found.1 found.2 = some slot := by rwa [h₁.objects]
    refine (counts_slotGet (h.traffic h₁) hslot₁).seq (wlp_slotGet found.1 found.2) ?_
    rintro slot' k₂ ⟨_, h₂⟩
    exact (counts_dropHandle ((hb.traffic h₁).traffic h₂)).last fun _ _ => .pure _

/-- What is found has backed pointers. -/
theorem Wired.capability (h : Wired env k) {cap : CapId}
    (hcap : capabilityOf k.objects this cap = some slot) :
    slot.Backed env k ∧ ∀ q, slot.resource = .capEntry q → IsCapTable k q := by
  obtain ⟨found, _, hslot⟩ := Option.bind_eq_some_iff.mp hcap
  exact ⟨h.slotBacked hslot, fun q hq => h.table found.1 found.2 slot q hslot hq⟩

theorem counts_getTable (h : Wired env k) (hthis : Backed env k this)
    (htable : IsCapTable k this) (cap : CapId) :
    Counts env (CapEntry.getResourceAs env Resource.asCapEntry this cap)
      (tableScript k.objects this cap) k := by
  refine (counts_getCapability h hthis htable cap).seq (wlp_getCapability this cap)
    fun r k₁ hr => ?_
  cases hcap : capabilityOf k.objects this cap with
  | none =>
    rw [hcap] at hr
    obtain ⟨rfl, _⟩ := hr
    exact .pure _
  | some slot =>
    rw [hcap] at hr
    obtain ⟨rfl, h₁⟩ := hr
    have hb := (h.capability hcap).1.traffic h₁
    dsimp only
    cases slot.resource.asCapEntry with
    | some table => exact (counts_dropOption hb.1).last fun _ _ => .pure _
    | none =>
      refine (counts_dropResource hb.2).seq (wlp_dropResource slot.resource) fun _ k₂ h₂ => ?_
      exact (counts_dropOption (hb.traffic h₂).1).last fun _ _ => .pure _

theorem replace_eq {slots : RawCapEntry} (hp : k.objects p = some (.capTable slots))
    (s : SlotId numSlots) (slot : CapSlot) : AtomicCapSlot.replace p s slot k =
      .ok (slots s) (k.setObject p (.capTable (Function.update slots s slot))) := by
  unfold AtomicCapSlot.replace
  refine (bind_of_eq_ok (rfl : (MonadState.get : CM Kernel) k = .ok k k)).trans ?_
  rw [hp]
  rfl

/-- The child of a slot is set. -/
theorem counts_relink {table : KPtr} (h : Wired env k)
    (hslot : slotOf k.objects table s = some slot) (c : Option KPtr) :
    Counts env (AtomicCapSlot.change env table s fun cap => do
        dropOption env cap.child
        pure (cap.withChild c)) slot.relinked k := by
  obtain ⟨slots, htable, rfl⟩ := slotOf_eq_some.mp hslot
  have hb := h.slotBacked hslot
  refine (counts_slotGet h hslot).seq (wlp_slotGet table s) ?_
  rintro slot' k₁ ⟨hslot', h₁⟩
  obtain rfl := Option.some.inj (hslot.symm.trans hslot')
  have hb₁ := hb.traffic h₁
  have hbody :
    Counts env (do dropOption env (slots s).child; pure ((slots s).withChild c) : CM CapSlot)
      (drops (slots s).child) k₁ :=
    (counts_dropOption hb₁.1).last fun _ _ => .pure _
  have hchild : wlp (do dropOption env (slots s).child; pure ((slots s).withChild c) : CM CapSlot)
      (fun _ k₂ => Traffic k₁ k₂ (-ofOption (slots s).child)) k₁ :=
    wlp_seq (wlp_dropOption _) fun _ _ h => wlp_pure h
  refine hbody.seq hchild fun slot' k₂ h₂ => ?_
  have htable₂ : k₂.objects table = some (.capTable slots) := by rwa [h₂.objects, h₁.objects]
  have hreplace := replace_eq htable₂ s slot'
  have hb₂ := hb₁.traffic h₂
  refine .skip hreplace rfl ?_
  refine (counts_dropOption (k := k₂.setObject table _) hb₂.1).seq (wlp_dropOption _) ?_
  intro _ k₃ h₃
  exact counts_dropResource fun q hq => (hb₂.2 q hq).of_state h₃.state

theorem deref_eq (ht : k.objects self = some (.thread t)) : Thread.deref self k = .ok t k := by
  unfold Thread.deref
  refine (bind_of_eq_ok (rfl : (get : CM Kernel) k = .ok k k)).trans ?_
  rw [ht]
  rfl

theorem counts_cloneResources (h : Wired env k) (ht : k.objects self = some (.thread t)) :
    Counts env (Thread.cloneResources env self) [.clone t.resources] k :=
  .skip (deref_eq ht) rfl (counts_cloneHandle (h.thread self t ht).1)

/-- The caller looks a capability up: the table its lookups start in is cloned for each. -/
theorem Wired.own {k' : Kernel} {root : KPtr} (h : Wired env k)
    (ht : k.objects self = some (.thread t))
    (hroot : ∃ t', k.objects self = some (.thread t') ∧ root = t'.resources ∧
      Traffic k k' (Pi.single root 1)) :
    root = t.resources ∧ Traffic k k' (Pi.single root 1) ∧ Wired env k' ∧ Backed env k' root ∧
      IsCapTable k' root := by
  obtain ⟨t', ht', rfl, h₁⟩ := hroot
  obtain rfl := Object.thread.inj (Option.some.inj (ht.symm.trans ht'))
  obtain ⟨hb, hcap⟩ := h.thread self t ht
  exact ⟨rfl, h₁, h.traffic h₁, hb.traffic h₁, by unfold IsCapTable; rwa [h₁.objects]⟩

/-- **The operation** plays its script. -/
theorem counts_operation {table : KPtr} (h : Wired env k) (ht : k.objects self = some (.thread t))
    (htable : IsCapTable k table) (s : SlotId numSlots) (other : Option CapId) :
    Counts env (Thread.onCapTable env x self table (.relink s other))
      (operationScript k.objects t table s other) k := by
  obtain ⟨slot, hslot⟩ := htable.slotOf s
  cases other with
  | none =>
    unfold operationScript
    rw [hslot]
    exact (counts_relink h hslot none).last fun _ _ => .pure _
  | some other =>
    refine (counts_cloneResources h ht).seq (wlp_cloneResources self) fun root k₁ hroot => ?_
    obtain ⟨rfl, h₁, hW₁, hb₁, hcap₁⟩ := h.own ht hroot
    have hlookup := counts_getTable hW₁ hb₁ hcap₁ other
    rw [h₁.objects] at hlookup
    refine hlookup.seq (wlp_getResourceAs asCapEntry_ptr t.resources other) ?_
    rintro r k₂ ⟨hr, h₂⟩
    rw [h₁.objects] at hr
    replace hr : t.tableOf k.objects other = r := hr.symm
    rw [hr]
    cases r with
    | error e => exact .pure _
    | ok otherTable =>
      have hslot₂ : slotOf k₂.objects table s = some slot := by rwa [h₂.objects, h₁.objects]
      dsimp only
      rw [hslot]
      exact (counts_relink (hW₁.traffic h₂) hslot₂ (some otherTable)).last fun _ _ => .pure _

/-- An operation changes no frame's state. -/
theorem RelinkResult.state {k' : Kernel} {table : KPtr} {other : Option CapId}
    {r : Except CapError Nat} (h : RelinkResult k t table s other k' r) (n : Nat) :
    k'.machine.stateOf n = k.machine.stateOf n := by
  cases r with
  | error e => exact h.2.state n
  | ok m =>
    obtain ⟨_, _, _, _, _, hdone⟩ := h
    exact hdone.state n

/-- The capability is a page table: there is no operation on it yet. -/
def OnPageTable (k : Kernel) (t : Thread) (cap : CapId) : Prop :=
  ∃ slot table flags, capabilityOf k.objects t.resources cap = some slot ∧
    slot.resource = .pageTable table flags

/-- **The call** plays its script, unless it meets a page table. -/
theorem counts_exerciseCap (h : Wired env k) (ht : k.objects self = some (.thread t))
    (cap : CapId) (s : SlotId numSlots) (other : Option CapId) (hpage : ¬ OnPageTable k t cap) :
    Counts env (Thread.exerciseCap env x self cap (.capTable (.relink s other)))
      (relinkScript k.objects t cap s other) k := by
  refine (counts_cloneResources h ht).seq (wlp_cloneResources self) fun root k₁ hroot => ?_
  obtain ⟨rfl, h₁, hW₁, hb₁, hcap₁⟩ := h.own ht hroot
  have hlookup := counts_getCapability hW₁ hb₁ hcap₁ cap
  rw [h₁.objects] at hlookup
  refine hlookup.seq (wlp_getCapability t.resources cap) fun r k₂ hr => ?_
  rw [h₁.objects] at hr
  cases hcap : capabilityOf k.objects t.resources cap with
  | none =>
    rw [hcap] at hr
    obtain ⟨rfl, _⟩ := hr
    exact .pure _
  | some slot =>
    rw [hcap] at hr
    obtain ⟨rfl, h₂⟩ := hr
    have h₁₂ := h₁.trans h₂
    obtain ⟨hb, htables⟩ := h.capability hcap
    have hb₂ := hb.traffic h₁₂
    have hlast : ∀ {k' : Kernel} {d : KPtr → Int} (r : Except CapError Nat), Traffic k₂ k' d →
        Counts env (do dropOption env slot.child; pure r : CM (Except CapError Nat))
          (drops slot.child) k' := fun r h₃ =>
      (counts_dropOption (hb₂.traffic h₃).1).last fun _ _ => .pure _
    obtain ⟨child, resource⟩ := slot
    cases resource with
    | empty => exact hlast _ (Traffic.refl k₂)
    | pageTable table flags => exact absurd ⟨_, table, flags, hcap, rfl⟩ hpage
    | thread thread =>
      have hthread := hb₂.2 thread rfl
      exact (counts_dropHandle hthread).seq (wlp_dropHandle thread) fun _ k₃ h₃ => hlast _ h₃
    | capEntry table =>
      have ht₂ : k₂.objects self = some (.thread t) := by rwa [h₁₂.objects]
      have htable₂ : IsCapTable k₂ table := by
        unfold IsCapTable
        rw [h₁₂.objects]
        exact htables table rfl
      have hop := counts_operation (x := x) (h.traffic h₁₂) ht₂ htable₂ s other
      rw [h₁₂.objects] at hop
      refine hop.seq (wlp_relinkOp ht₂ table s other) fun r k₃ h₃ => ?_
      have htable₃ := (hb₂.2 table rfl).of_state h₃.state
      refine (counts_dropHandle htable₃).seq (wlp_dropHandle table) fun _ k₄ h₄ => ?_
      have hchild : ∀ q, child = some q → Backed env k₄ q := fun q hq =>
        ((hb₂.1 q hq).of_state h₃.state).traffic h₄
      exact (counts_dropOption hchild).last fun _ _ => .pure _

end Counting

/-! ## A call stops in a panic or not at all -/

section Stays

variable {env : Env}

theorem stays_getResourceAs {T : Type} (tryFrom : Resource → Option T) (this : KPtr) (cap : CapId) :
    Stays (CapEntry.getResourceAs env tryFrom this cap) := by
  refine (stays_getCapability this cap).bind fun r => ?_
  cases r with
  | error e => exact .pure _
  | ok slot =>
    dsimp only
    cases tryFrom slot.resource with
    | some t => exact (stays_dropOption slot.child).bind fun _ => .pure _
    | none =>
      exact (stays_dropResource slot.resource).bind fun _ =>
        (stays_dropOption slot.child).bind fun _ => .pure _

theorem stays_change (p : KPtr) (s : SlotId numSlots) {f : CapSlot → CM CapSlot}
    (hf : ∀ slot, Stays (f slot)) : Stays (AtomicCapSlot.change env p s f) := by
  have hreplace : ∀ slot, Stays (AtomicCapSlot.replace p s slot) := fun slot => by
    refine Stays.get.bind fun k => ?_
    split
    · exact (Stays.modify _).bind fun _ => .pure _
    · exact .panic _
  refine (stays_slotGet p s).bind fun slot => (hf slot).bind fun slot' =>
    (hreplace slot').bind fun old => ?_
  exact (stays_dropOption old.child).bind fun _ => stays_dropResource old.resource

theorem stays_relinkOp (x : Outside) (self table : KPtr) (s : SlotId numSlots)
    (other : Option CapId) : Stays (Thread.onCapTable env x self table (.relink s other)) := by
  have hset : ∀ c : Option KPtr, Stays (AtomicCapSlot.change env table s fun cap => do
      dropOption env cap.child
      pure (cap.withChild c)) := fun c =>
    stays_change table s fun slot => (stays_dropOption slot.child).bind fun _ => .pure _
  cases other with
  | none => exact (hset none).bind fun _ => .pure _
  | some other =>
    refine (stays_cloneResources self).bind fun root =>
      (stays_getResourceAs Resource.asCapEntry root other).bind fun r => ?_
    cases r with
    | error e => exact .pure _
    | ok otherTable => exact (hset (some otherTable)).bind fun _ => .pure _

theorem stays_exerciseRelink (x : Outside) (self : KPtr) (cap : CapId) (s : SlotId numSlots)
    (other : Option CapId) :
    Stays (Thread.exerciseCap env x self cap (.capTable (.relink s other))) := by
  refine (stays_cloneResources self).bind fun root =>
    (stays_getCapability root cap).bind fun r => ?_
  cases r with
  | error e => exact .pure _
  | ok slot =>
    obtain ⟨child, resource⟩ := slot
    cases resource with
    | empty => exact (stays_dropOption child).bind fun _ => .pure _
    | pageTable table flags => exact .panic _
    | thread thread =>
      exact (stays_dropHandle thread).bind fun _ => (stays_dropOption child).bind fun _ => .pure _
    | capEntry table =>
      exact (stays_relinkOp x self table s other).bind fun _ =>
        (stays_dropHandle table).bind fun _ =>
        (stays_dropOption child).bind fun _ => .pure _

end Stays

/-! ## What a script costs -/

/-- The references an event makes. -/
def Ref.gain : Ref → Int
  | .clone _ => 1
  | .drop _ => -2

/-- The references a script makes. -/
def gain (es : List Ref) : Int := (es.map Ref.gain).sum

/-- How many pointers there are: none or one. -/
def one (c : Option KPtr) : Int := if c.isSome then 1 else 0

section Gain

variable {env : Env} {k : Kernel}

@[simp] theorem gain_nil : gain [] = 0 := rfl

@[simp] theorem gain_cons (e : Ref) (es : List Ref) : gain (e :: es) = e.gain + gain es :=
  List.sum_cons

@[simp] theorem gain_append (es fs : List Ref) : gain (es ++ fs) = gain es + gain fs := by
  simp [gain]

@[simp] theorem one_none : one none = 0 := rfl

@[simp] theorem one_some (p : KPtr) : one (some p) = 1 := rfl

@[simp] theorem gain_clones (c : Option KPtr) : gain (clones c) = one c := by
  cases c with
  | none => rfl
  | some p => rfl

@[simp] theorem gain_drops (c : Option KPtr) : gain (drops c) = -2 * one c := by
  cases c with
  | none => rfl
  | some p => rfl

theorem one_nonneg (c : Option KPtr) : 0 ≤ one c := by
  cases c with
  | none => exact le_rfl
  | some p => exact zero_le_one

theorem one_le (c : Option KPtr) : one c ≤ 1 := by
  cases c with
  | none => exact zero_le_one
  | some p => exact le_rfl

theorem gain_passed (slot : CapSlot) (this : KPtr) :
    gain (slot.passed this) = one slot.child - one slot.resource.ptr - 2 := by
  simp only [CapSlot.passed, CapSlot.clones, gain_append, gain_clones, gain_drops, gain_cons,
    gain_nil, Ref.gain]
  ring

theorem gain_relinked (slot : CapSlot) : gain slot.relinked ≤ 0 := by
  have h₁ := one_nonneg slot.child
  have h₂ := one_nonneg slot.resource.ptr
  simp only [CapSlot.relinked, CapSlot.clones, gain_append, gain_clones, gain_drops]
  omega

theorem gain_setChild (objects : KPtr → Option Object) (table : KPtr) (s : SlotId numSlots) :
    gain ((slotOf objects table s).elim [] CapSlot.relinked) ≤ 0 := by
  cases slotOf objects table s with
  | none => exact le_rfl
  | some slot => exact gain_relinked slot

/-- Every step of a lookup takes references. -/
theorem gain_lookup (objects : KPtr → Option Object) (fuel : Nat) : ∀ (this : KPtr) (id : Nat),
    gain (lookupScript objects fuel this id) ≤ 0 := by
  induction fuel with
  | zero => exact fun _ _ => le_rfl
  | succ fuel ih =>
    intro this id
    rw [lookupScript]
    split
    · exact le_rfl
    · split
      · exact le_rfl
      · rename_i slot _
        rw [gain_append, gain_passed]
        have h₁ := one_le slot.child
        have h₂ := one_nonneg slot.resource.ptr
        split
        · rw [gain_nil]
          omega
        · rename_i next _
          have h := ih next (id / numSlots)
          omega

/-- A lookup that finds nothing has dropped the table it failed in. -/
theorem Wired.gain_lookup_none (h : Wired env k) (fuel : Nat) : ∀ (this : KPtr) (id : Nat),
    id < numSlots ^ (fuel + 1) → IsCapTable k this →
    TrieEntry.getInner (M := Id) (linksOf k.objects) (fuel + 1) this id = none →
    gain (lookupScript k.objects (fuel + 1) this id) ≤ -2 := by
  induction fuel with
  | zero =>
    intro this id hid _ hget
    have hq : id / numSlots = 0 := Nat.div_eq_of_lt (by simpa using hid)
    rw [TrieEntry.getInner, if_pos hq] at hget
    cases hget
  | succ fuel ih =>
    intro this id hid htable hget
    rw [TrieEntry.getInner] at hget
    by_cases hq : id / numSlots = 0
    · simp only [if_pos hq] at hget
      cases hget
    simp only [if_neg hq] at hget
    obtain ⟨slot, hslot⟩ := htable.slotOf (Fin.ofNat numSlots id)
    have hlink : linksOf k.objects this (Fin.ofNat numSlots id) = slot.child := by
      unfold linksOf
      rw [hslot]
      rfl
    rw [lookupScript, if_neg hq, hslot]
    simp only [gain_append, gain_passed]
    have h₂ := one_nonneg slot.resource.ptr
    cases hchild : slot.child with
    | none =>
      simp only [one_none, gain_nil]
      omega
    | some next =>
      have hnext : id / numSlots < numSlots ^ (fuel + 1) :=
        Nat.div_lt_of_lt_mul (by rwa [← Nat.pow_succ'])
      rw [hlink, hchild] at hget
      have hrest := ih next (id / numSlots) hnext (h.child this _ slot next hslot hchild).2 hget
      simp only [one_some]
      omega

theorem Wired.gain_capability_none (h : Wired env k) {this : KPtr} {cap : CapId}
    (hthis : Backed env k this) (htable : IsCapTable k this)
    (hcap : capabilityOf k.objects this cap = none) :
    gain (capabilityScript k.objects this cap) ≤ -2 := by
  have hid : cap.toNat < numSlots ^ (31 + 1) :=
    TrieEntry.id_lt_pow (by decide) (Nat.le_refl 31) cap
  unfold capabilityScript
  cases hget : TrieEntry.get (M := Id) (linksOf k.objects) this cap with
  | none =>
    simp only [List.append_nil]
    exact h.gain_lookup_none 31 this cap.toNat hid htable hget
  | some found =>
    obtain ⟨_, hfound⟩ := h.lands 32 this cap.toNat found hthis htable hget
    obtain ⟨slot, hslot⟩ := hfound.slotOf found.2
    unfold capabilityOf at hcap
    rw [hget, Option.bind_some, hslot] at hcap
    cases hcap

theorem gain_capability_some {objects : KPtr → Option Object} {this : KPtr} {cap : CapId}
    {slot : CapSlot} (hcap : capabilityOf objects this cap = some slot) :
    gain (capabilityScript objects this cap) ≤ one slot.child + one slot.resource.ptr - 2 := by
  obtain ⟨found, hget, hslot⟩ := Option.bind_eq_some_iff.mp hcap
  have hlookup := gain_lookup objects 32 this cap.toNat
  unfold capabilityScript
  rw [hget]
  simp only [hslot, Option.elim_some, CapSlot.clones, gain_append, gain_clones, gain_cons, gain_nil,
    Ref.gain]
  omega

theorem Wired.gain_table (h : Wired env k) {this : KPtr} (hthis : Backed env k this)
    (htable : IsCapTable k this) (cap : CapId) : gain (tableScript k.objects this cap) ≤ -1 := by
  unfold tableScript
  cases hcap : capabilityOf k.objects this cap with
  | none =>
    have hgain := h.gain_capability_none hthis htable hcap
    simp only [List.append_nil]
    omega
  | some slot =>
    have hgain := gain_capability_some hcap
    have h₁ := one_nonneg slot.child
    have h₂ := one_nonneg slot.resource.ptr
    have h₃ := one_le slot.resource.ptr
    simp only [gain_append]
    split
    · simp only [gain_drops]
      omega
    · simp only [gain_append, gain_drops]
      omega

/-- **A call takes more references than it makes**, whatever it finds. -/
theorem Wired.script_loses (h : Wired env k) {self : KPtr} {t : Thread}
    (ht : k.objects self = some (.thread t)) {cap : CapId} (hpage : ¬ OnPageTable k t cap)
    (s : SlotId numSlots) (other : Option CapId) :
    gain (relinkScript k.objects t cap s other) < 0 := by
  obtain ⟨hb, htable⟩ := h.thread self t ht
  have hop : ∀ table, gain (operationScript k.objects t table s other) ≤ 0 := by
    intro table
    have hset := gain_setChild k.objects table s
    cases other with
    | none => exact hset
    | some other =>
      have hlookup := h.gain_table hb htable other
      unfold operationScript
      simp only [gain_cons, gain_append, Ref.gain]
      split
      · rw [gain_nil]
        omega
      · omega
  unfold relinkScript
  simp only [gain_cons, gain_append, Ref.gain]
  cases hcap : capabilityOf k.objects t.resources cap with
  | none =>
    have hgain := h.gain_capability_none hb htable hcap
    simp only [gain_nil]
    omega
  | some slot =>
    have hgain := gain_capability_some hcap
    obtain ⟨child, resource⟩ := slot
    have hchild := one_nonneg child
    cases resource with
    | pageTable table flags => exact absurd ⟨_, table, flags, hcap, rfl⟩ hpage
    | empty =>
      simp only [Resource.ptr, one_none] at hgain
      simp only [gain_drops]
      omega
    | thread thread =>
      simp only [Resource.ptr, one_some] at hgain
      simp only [gain_cons, gain_drops, Ref.gain]
      omega
    | capEntry table =>
      have hop := hop table
      simp only [Resource.ptr, one_some] at hgain
      simp only [gain_append, gain_cons, gain_drops, Ref.gain]
      omega

end Gain

/-! ## The references there are -/

/-- The references of all frames, as the counters have them. -/
noncomputable def references (c : KPtr → Option Nat) : Int := ∑ p, ((c p).getD 0 : Int)

theorem references_update {c : KPtr → Option Nat} {p : KPtr} {n : Nat} (hp : c p = some n)
    (n' : Nat) : references (Function.update c p (some n')) = references c + ((n' : Int) - n) := by
  have hsplit : (fun q => ((Function.update c p (some n') q).getD 0 : Int)) =
      fun q => ((c q).getD 0 : Int) + (Pi.single p ((n' : Int) - n) : KPtr → Int) q := by
    funext q
    by_cases hq : q = p
    · subst hq
      rw [Function.update_self, Pi.single_eq_same, hp]
      simp
    · rw [Function.update_of_ne hq, Pi.single_eq_of_ne hq, add_zero]
  unfold references
  rw [hsplit, Finset.sum_add_distrib]
  simp

/-- An event makes what it says. -/
theorem references_step (c : KPtr → Option Nat) (e : Ref) (c' : KPtr → Option Nat)
    (h : Ref.step c e = some c') : references c' = references c + e.gain := by
  cases e with
  | clone p =>
    cases hp : c p with
    | none => simp [Ref.step, hp] at h
    | some n =>
      simp only [Ref.step, hp, Option.ite_none_left_eq_some, Option.some.injEq] at h
      rw [← h.2, references_update hp]
      push_cast
      simp only [Ref.gain]
      ring
  | drop p =>
    cases hp : c p with
    | none => simp [Ref.step, hp] at h
    | some n =>
      simp only [Ref.step, hp, Option.ite_none_right_eq_some, Option.some.injEq] at h
      rw [← h.2, references_update hp]
      push_cast [Nat.cast_sub h.1]
      simp only [Ref.gain]
      ring

theorem references_nonneg (c : KPtr → Option Nat) : 0 ≤ references c :=
  Finset.sum_nonneg fun _ _ => Int.natCast_nonneg _

/-! ## Calls -/

section Calls

variable {env : Env} {x : Outside} {k k' : Kernel} {self : KPtr} {t : Thread} {cap : CapId}
  {s : SlotId numSlots} {other : Option CapId} {r : Except CapError Nat}

/-- A call on a page table does not return. -/
theorem OnPageTable.not_ok (h : OnPageTable k t cap) (ht : k.objects self = some (.thread t)) :
    Thread.exerciseCap env x self cap (.capTable (.relink s other)) k ≠ .ok r k' := by
  intro hrun
  obtain ⟨slot, table, flags, hcap, hres⟩ := h
  obtain ⟨root, k₁, hroot, hrun⟩ := bind_eq_ok hrun
  obtain ⟨t', ht', rfl, h₁⟩ := wlp_ok (wlp_cloneResources self) hroot
  obtain rfl := Object.thread.inj (Option.some.inj (ht.symm.trans ht'))
  obtain ⟨r', k₂, hget, hrun⟩ := bind_eq_ok hrun
  have hfound := wlp_ok (wlp_getCapability t.resources cap) hget
  rw [h₁.objects, hcap] at hfound
  obtain ⟨rfl, _⟩ := hfound
  obtain ⟨child, resource⟩ := slot
  obtain rfl : resource = .pageTable table flags := hres
  cases hrun

/-- **When a call returns.** -/
theorem Wired.returns_iff (h : Wired env k) (ht : k.objects self = some (.thread t)) :
    (∃ r k', Thread.exerciseCap env x self cap (.capTable (.relink s other)) k = .ok r k') ↔
      ¬ OnPageTable k t cap ∧
        ∃ c, play Ref.step (counters env k) (relinkScript k.objects t cap s other) = some c := by
  by_cases hpage : OnPageTable k t cap
  · refine ⟨?_, fun hno => absurd hpage hno.1⟩
    rintro ⟨r, k', hrun⟩
    exact absurd hrun (hpage.not_ok ht)
  · rw [(counts_exerciseCap h ht cap s other hpage).returns_iff]
    exact ⟨fun hplay => ⟨hpage, hplay⟩, fun hboth => hboth.2⟩

/-- The child of a slot is set to a table, or to nothing. -/
theorem Wired.setChild (h : Wired env k) {table : KPtr} {slots : RawCapEntry}
    (htable : k.objects table = some (.capTable slots)) {c : Option KPtr}
    (hc : ∀ q, c = some q → Backed env k q ∧ IsCapTable k q) :
    Wired env
      (k.setObject table (.capTable (Function.update slots s ((slots s).withChild c)))) := by
  have hslot : slotOf k.objects table s = some (slots s) := slotOf_eq_some.mpr ⟨slots, htable, rfl⟩
  have hslots := slotOf_setSlot htable s ((slots s).withChild c)
  have hcap : ∀ q, IsCapTable k q →
      IsCapTable
        (k.setObject table (.capTable (Function.update slots s ((slots s).withChild c)))) q := by
    rintro q ⟨slots', hq⟩
    by_cases hqt : q = table
    · subst hqt
      exact ⟨_, Function.update_self _ _ _⟩
    · exact ⟨slots', (Function.update_of_ne hqt _ _).trans hq⟩
  constructor
  · intro p j slot q hs hq
    replace hs := (hslots p j).symm.trans hs
    split at hs
    · obtain rfl := Option.some.inj hs
      exact ⟨(hc q hq).1, hcap q (hc q hq).2⟩
    · exact ⟨(h.child p j slot q hs hq).1, hcap q (h.child p j slot q hs hq).2⟩
  · intro p j slot q hs hq
    replace hs := (hslots p j).symm.trans hs
    split at hs
    · obtain rfl := Option.some.inj hs
      exact h.resource table s (slots s) q hslot hq
    · exact h.resource p j slot q hs hq
  · intro p j slot q hs hq
    replace hs := (hslots p j).symm.trans hs
    split at hs
    · obtain rfl := Option.some.inj hs
      exact hcap q (h.table table s (slots s) q hslot hq)
    · exact hcap q (h.table p j slot q hs hq)
  · intro p t hp
    by_cases hpt : p = table
    · subst hpt
      rw [show (k.setObject p _).objects p = _ from Function.update_self _ _ _] at hp
      cases hp
    · replace hp : k.objects p = some (.thread t) := (Function.update_of_ne hpt _ _).symm.trans hp
      exact ⟨(h.thread p t hp).1, hcap _ (h.thread p t hp).2⟩

theorem asCapEntry_eq {r : Resource} {p : KPtr} (h : r.asCapEntry = some p) : r = .capEntry p := by
  cases r with
  | capEntry q => exact congrArg _ (Option.some.inj h)
  | empty | thread q | pageTable q flags => cases h

/-- What the caller resolves to a table is one. -/
theorem Wired.childOf (h : Wired env k) {c : Option KPtr} (hc : t.childOf k.objects other = .ok c) :
    ∀ q, c = some q → Backed env k q ∧ IsCapTable k q := by
  rintro q rfl
  cases other with
  | none => cases hc
  | some other =>
    replace hc : (t.tableOf k.objects other).map some = .ok (some q) := hc
    cases htable : t.tableOf k.objects other with
    | error e =>
      rw [htable] at hc
      cases hc
    | ok q' =>
      rw [htable] at hc
      obtain rfl : q' = q := Option.some.inj (Except.ok.inj hc)
      obtain ⟨slot, hslot, hres⟩ := resourceAs_ok htable
      obtain ⟨hb, htables⟩ := h.capability hslot
      exact ⟨hb.2 q' (asCapEntry_ptr _ _ hres), htables q' (asCapEntry_eq hres)⟩

/-- **A call that returned** keeps the pointers in order, and has fewer references left. -/
theorem Wired.step (h : Wired env k)
    (hrun : Thread.exerciseCap env x self cap (.capTable (.relink s other)) k = .ok r k') :
    Wired env k' ∧ references (counters env k') < references (counters env k) := by
  obtain ⟨t, ht, hres⟩ := wlp_ok (wlp_relinkCall self cap s other) hrun
  have hpage : ¬ OnPageTable k t cap := fun hpage => hpage.not_ok ht hrun
  constructor
  · rcases hres with ⟨e, _, _, rfl, hsame⟩ | ⟨table, _, hres⟩
    · exact h.traffic hsame
    cases r with
    | error e => exact h.traffic hres.2
    | ok n =>
      obtain ⟨_, c, hc, slots, htable, hdone⟩ := hres
      exact (h.setChild htable (h.childOf hc)).traffic hdone
  · have hplay := (counts_exerciseCap h ht cap s other hpage).play_eq hrun
    have hweight := play_weight references_step hplay
    have hloses := h.script_loses ht hpage s other
    unfold gain at hloses
    omega

/-- A call of `Link` or `Unlink` that returned. -/
def Call.Relinks (env : Env) (k : Kernel) (c : Call) (k' : Kernel) : Prop :=
  (∃ s other, c.op = .relink s other) ∧ c.Step env k k'

theorem Wired.relinks {c : Call} (h : Wired env k) (hc : c.Relinks env k k') :
    Wired env k' ∧ references (counters env k') < references (counters env k) := by
  obtain ⟨⟨s, other, hop⟩, r, hrun⟩ := hc
  unfold Call.Returns at hrun
  rw [hop] at hrun
  exact h.step hrun

end Calls

/-- **When `Link` and `Unlink` stop the kernel.** A call returns if its capability is not a page
table and its clones and drops fit the counters, and panics otherwise. Every call that returns
uses references up, so that no run has more of them than there are references. -/
theorem relink_returns_iff (env : Env) (k : Kernel) (h : Wired env k) :
    (∀ x self t cap s other, k.objects self = some (.thread t) →
      ((∃ r k', Thread.exerciseCap env x self cap (.capTable (.relink s other)) k = .ok r k') ↔
        ¬ OnPageTable k t cap ∧
          ∃ c, play Ref.step (counters env k) (relinkScript k.objects t cap s other) = some c) ∧
      ((∃ r k', Thread.exerciseCap env x self cap (.capTable (.relink s other)) k = .ok r k') ∨
        ∃ p k', Thread.exerciseCap env x self cap (.capTable (.relink s other)) k =
          .error (.panic p) k')) ∧
    (∀ cs k', Run (Call.Relinks env) k cs k' →
      (cs.length : Int) ≤ references (counters env k)) := by
  constructor
  · intro x self t cap s other ht
    refine ⟨h.returns_iff ht, ?_⟩
    cases hrun : Thread.exerciseCap env x self cap (.capTable (.relink s other)) k with
    | ok r k' => exact .inl ⟨r, k', rfl⟩
    | error e k' =>
      obtain ⟨p, rfl⟩ := stays_exerciseRelink x self cap s other k e k' hrun
      exact .inr ⟨p, k', rfl⟩
  · intro cs k' hrun
    have hbound : (cs.length : Int) ≤ (fun k => references (counters env k)) k :=
      hrun.length_le (I := Wired env) (fun _ => references_nonneg _)
        (fun _ _ _ hk hc => hk.relinks hc) h
    exact hbound

/-! ## A thread that uses its own table up -/

/-- `oneThread` with other counters. -/
def oneThreadCounted (entries : List RetypeEntry) : Kernel :=
  { oneThread with machine := { oneThreadMachine with retypeMap := entries } }

theorem frameAt_usable (n : Fin 8) : (frameAt n).Usable Env.dev where
  mapped := by
    show 0xFFFF800000000000 + 0x1000 * n.val < 2 ^ 64
    omega
  aligned := by
    show 0x1000 * n.val % 0x1000 = 0
    omega
  pmo_aligned := by decide

theorem frameAt_number (n : Fin 8) : (frameAt n).number = n := by
  show 0x1000 * n.val / 0x1000 = n
  omega

theorem pointerTo_frame (n : Fin 8) : (pointerTo n).frame Env.dev = .ok (frameAt n) :=
  KPtr.frame_of_points (frameAt_usable n).aligned rfl

theorem backed_pointerTo {entries : List RetypeEntry} {n : Fin 8} (hn : n.val < entries.length) :
    Backed Env.dev (oneThreadCounted entries) (pointerTo n) := by
  refine ⟨frameAt n, frameAt_usable n, rfl, entries[n.val].get.1, ?_⟩
  rw [frameAt_number]
  show ((entries[n.val]?).map RetypeEntry.get).map Prod.fst = _
  rw [List.getElem?_eq_getElem hn]
  rfl

theorem oneThreadCounted_wired {entries : List RetypeEntry} (h : 5 ≤ entries.length) :
    Wired Env.dev (oneThreadCounted entries) := by
  have htable : IsCapTable (oneThreadCounted entries) (pointerTo 2) := ⟨oneThreadSlots, rfl⟩
  have hslot : ∀ {p s slot}, slotOf (oneThreadCounted entries).objects p s = some slot →
      slot = oneThreadSlots s := by
    intro p s slot hs
    obtain ⟨slots, hp, rfl⟩ := slotOf_eq_some.mp hs
    rcases oneThread_objects hp with ⟨_, ho⟩ | ⟨_, ho⟩ | ⟨_, ho⟩ | ⟨_, ho⟩
    · cases ho
    · rw [Object.capTable.inj ho]
    · cases ho
    · cases ho
  constructor
  · intro p s slot c hs hc
    obtain rfl := hslot hs
    cases hc
  · intro p s slot q hs hq
    obtain rfl := hslot hs
    unfold oneThreadSlots at hq
    split_ifs at hq
    · exact Option.some.inj hq ▸ backed_pointerTo (Nat.lt_of_lt_of_le (by decide) h)
    · exact Option.some.inj hq ▸ backed_pointerTo (Nat.lt_of_lt_of_le (by decide) h)
    · exact Option.some.inj hq ▸ backed_pointerTo (Nat.lt_of_lt_of_le (by decide) h)
    · exact Option.some.inj hq ▸ backed_pointerTo (Nat.lt_of_lt_of_le (by decide) h)
    · cases hq
  · intro p s slot q hs hq
    obtain rfl := hslot hs
    unfold oneThreadSlots at hq
    split_ifs at hq
    exact Resource.capEntry.inj hq ▸ htable
  · intro p t hp
    rcases oneThread_objects hp with ⟨_, ho⟩ | ⟨_, ho⟩ | ⟨_, ho⟩ | ⟨_, ho⟩
    · obtain rfl := Object.thread.inj ho
      exact ⟨backed_pointerTo (Nat.lt_of_lt_of_le (by decide) h), htable⟩
    · cases ho
    · cases ho
    · cases ho

/-- As many references as are stored, for each frame. -/
def Exact (env : Env) (k : Kernel) : Prop :=
  ∀ p n, counters env k p = some n → (n : Int) = stored env k p ∧ n ≤ 16383

/-- The counters of what `oneThread` stores. -/
def exactEntries : List RetypeEntry :=
  [.unavailable, .kernel 2 (by decide), .kernel 2 (by decide),
    .kernel 1 RetypeEntry.one_le_maxRefCount, .kernel 2 (by decide), .untyped, .untyped, .untyped]

/-- A pointer with a counter leads to one of the eight frames. -/
theorem counters_exactEntries {p : KPtr} {n : Nat}
    (hn : counters Env.dev (oneThreadCounted exactEntries) p = some n) :
    ∃ i, p = pointerTo i ∧ n = (exactEntries.get i).get.2 := by
  unfold counters at hn
  cases hp : p.frame Env.dev with
  | error e =>
    rw [hp] at hn
    cases hn
  | ok f =>
    rw [hp] at hn
    replace hn : ((exactEntries[f.number]?).map RetypeEntry.get).map Prod.snd = some n := hn
    cases he : exactEntries[f.number]? with
    | none =>
      rw [he] at hn
      cases hn
    | some e =>
      obtain ⟨hlt, hget⟩ := List.getElem?_eq_some_iff.mp he
      rw [he] at hn
      subst hget
      exact ⟨⟨f.number, hlt⟩,
        KPtr.eq_of_number hp (pointerTo_frame _) (frameAt_number ⟨_, hlt⟩).symm,
        (Option.some.inj hn).symm⟩

theorem exactEntries_exact : Exact Env.dev (oneThreadCounted exactEntries) := by
  intro p n hn
  have hstored : stored Env.dev (oneThreadCounted exactEntries) = oneThread.handles :=
    oneThread_balanced.symm
  obtain ⟨i, rfl, rfl⟩ := counters_exactEntries hn
  rw [hstored]
  clear hn
  revert i
  decide +kernel

/-- With exact counters a call on an empty slot returns, with the one reference it can spare. -/
theorem relink_returns_iff_oneThread : Exact Env.dev (oneThreadCounted exactEntries) ∧
    Wired Env.dev (oneThreadCounted exactEntries) ∧
    (∃ k', Thread.exerciseCap Env.dev (.mapping (frameAt 5)) (pointerTo 1) 5
      (.capTable (.relink 0 none)) (oneThreadCounted exactEntries) = .ok (.error .notFound) k') ∧
    ∃ c, play Ref.step (counters Env.dev (oneThreadCounted exactEntries))
      (relinkScript oneThread.objects ⟨.start 0x400000 0x7000, frameAt 4, pointerTo 2⟩ 5 0 none) =
        some c := by
  have hwired : Wired Env.dev (oneThreadCounted exactEntries) := oneThreadCounted_wired (by decide)
  have hcall : wp (Thread.exerciseCap Env.dev (.mapping (frameAt 5)) (pointerTo 1) 5
      (.capTable (.relink 0 none))) (fun r _ => r = .error .notFound) (fun _ _ => False)
      (oneThreadCounted exactEntries) := by
    decide +kernel
  obtain ⟨_, k', hrun, rfl⟩ := exists_of_wp hcall
  have hlaw := (relink_returns_iff Env.dev _ hwired).1 (.mapping (frameAt 5)) (pointerTo 1) _ 5 0
    none rfl
  exact ⟨exactEntries_exact, hwired, ⟨k', hrun⟩, (hlaw.1.mp ⟨_, k', hrun⟩).2⟩

/-- **A thread that unlinks the slot of its own table**, with exact counters, stops the kernel. -/
theorem unlink_panics : Exact Env.dev (oneThreadCounted exactEntries) ∧
    Wired Env.dev (oneThreadCounted exactEntries) ∧ ∃ k',
      Thread.exerciseCap Env.dev (.mapping (frameAt 5)) (pointerTo 1) 0
        (.capTable (.relink 0 none)) (oneThreadCounted exactEntries) =
          .error (.panic (.unwrap "NoRefs")) k' := by
  refine ⟨exactEntries_exact, oneThreadCounted_wired (by decide), ?_⟩
  have hcall : wp (Thread.exerciseCap Env.dev (.mapping (frameAt 5)) (pointerTo 1) 0
      (.capTable (.relink 0 none))) (fun _ _ => False)
      (fun e _ => (match e with | .panic p => some p | .dispatched _ _ => none) =
        some (.unwrap "NoRefs")) (oneThreadCounted exactEntries) := by
    decide +kernel
  obtain ⟨e, k', hrun, he⟩ := exists_stop_of_wp hcall
  cases e with
  | panic p =>
    obtain rfl := Option.some.inj he
    exact ⟨k', hrun⟩
  | dispatched thread ctx => cases he

end Harmony
