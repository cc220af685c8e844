import Harmony.Caps.Operations

/-!
# `Link` and `Unlink`

A `Link` or an `Unlink` that returns has set one child, or has changed nothing. The pointers it
cloned on the way are stored in that slot or dropped, and a lookup that does not go through the
slot's child finds what it found before, whatever else the tables share.

* `slotOf_setSlot`, `Relinked.effect`: every slot of every table after the change of one.
* `Relinked.get_eq`: the frame law for lookups, from `follow_agree`.
* `relink_effect`: the call as a whole.
-/

namespace Harmony

open Lib
open Lib.Walk (Uses)

/-- Every slot, where one slot of one table is another. -/
theorem slotOf_setSlot {objects : KPtr → Option Object} {table : KPtr} {slots : RawCapEntry}
    (htable : objects table = some (.capTable slots)) (s : SlotId numSlots) (slot : CapSlot)
    (p : KPtr) (j : SlotId numSlots) :
    slotOf (Function.update objects table (some (.capTable (Function.update slots s slot)))) p j =
      if p = table ∧ j = s then some slot else slotOf objects p j := by
  unfold slotOf
  by_cases hp : p = table
  · subst hp
    rw [Function.update_self, htable]
    by_cases hj : j = s
    · subst hj
      simp
    · simp [hj]
  · rw [Function.update_of_ne hp, if_neg fun h => hp h.1]

section

variable {k k' : Kernel} {table : KPtr} {s : SlotId numSlots} {c : Option KPtr}

/-- What is at every pointer after the change. -/
theorem Relinked.effect (h : Relinked k k' table s c) : ∃ slot,
    slotOf k.objects table s = some slot ∧
    (∀ p j, slotOf k'.objects p j =
      if p = table ∧ j = s then some (slot.withChild c) else slotOf k.objects p j) ∧
    (∀ p, p ≠ table → k'.objects p = k.objects p) ∧ k'.active = k.active ∧
    k'.handles = k.handles + (ofOption c - ofOption slot.child) := by
  obtain ⟨slots, htable, ht⟩ := h
  refine ⟨slots s, slotOf_eq_some.mpr ⟨slots, htable, rfl⟩, fun p j => ?_, fun p hp => ?_,
    ht.active, ht.handles⟩
  · rw [ht.objects]
    exact slotOf_setSlot htable s _ p j
  · rw [ht.objects]
    exact Function.update_of_ne hp _ _

/-- A lookup that does not consult the child of the slot finds the same slot as before. -/
theorem Relinked.get_eq (h : Relinked k k' table s c) {root : KPtr} {id : CapId}
    (hid : ¬ Uses (linksOf k.objects) root (TrieEntry.pathOf numSlots id.toNat) table s) :
    TrieEntry.get (M := Id) (linksOf k'.objects) root id =
      TrieEntry.get (M := Id) (linksOf k.objects) root id := by
  obtain ⟨slot, _, hslots, _⟩ := h.effect
  have hlinks : ∀ p j, ¬ (p = table ∧ j = s) → linksOf k'.objects p j = linksOf k.objects p j := by
    intro p j hne
    unfold linksOf
    rw [hslots, if_neg hne]
  have hC : 2 ≤ numSlots := by decide
  rw [TrieEntry.get_eq_walk hC, TrieEntry.get_eq_walk hC]
  unfold TrieEntry.walk
  rw [Walk.follow_agree hlinks hid]

end

/-- **`Link` and `Unlink`.** A call that failed has changed no object and holds no pointer. One that
returned `Ok` has set the child of the addressed slot, to the table the caller resolved or to
nothing, and has changed nothing else; the one pointer that is there now is the new child, the one
that is gone the old; and no lookup is affected that did not consult this child. -/
theorem relink_effect {env : Env} {x : Outside} {k k' : Kernel} {self : KPtr} {cap : CapId}
    {s : SlotId numSlots} {other : Option CapId} {r : Except CapError Nat}
    (hrun : Thread.exerciseCap env x self cap (.capTable (.relink s other)) k = .ok r k') :
    ∃ t, k.objects self = some (.thread t) ∧
      match r with
      | .error e =>
        ((∀ table, t.tableOf k.objects cap ≠ .ok table) ∨ t.childOf k.objects other = .error e) ∧
          k'.objects = k.objects ∧ k'.handles = k.handles
      | .ok _ => ∃ table c slot,
        t.tableOf k.objects cap = .ok table ∧ t.childOf k.objects other = .ok c ∧
          slotOf k.objects table s = some slot ∧
          slotOf k'.objects table s = some ⟨c, slot.resource⟩ ∧
          (∀ p j, ¬ (p = table ∧ j = s) → slotOf k'.objects p j = slotOf k.objects p j) ∧
          (∀ p, p ≠ table → k'.objects p = k.objects p) ∧ k'.active = k.active ∧
          k'.handles = k.handles + (ofOption c - ofOption slot.child) ∧
          ∀ root id, ¬ Uses (linksOf k.objects) root (TrieEntry.pathOf numSlots id.toNat) table s →
            TrieEntry.get (M := Id) (linksOf k'.objects) root id =
              TrieEntry.get (M := Id) (linksOf k.objects) root id := by
  obtain ⟨t, ht, ⟨e, _, hrefused, rfl, hsame⟩ | ⟨table, htable, hres⟩⟩ :=
    wlp_ok (wlp_relinkCall self cap s other) hrun
  · exact ⟨t, ht, .inl hrefused, hsame.objects, hsame.handles.trans (add_zero _)⟩
  refine ⟨t, ht, ?_⟩
  cases r with
  | error e =>
    obtain ⟨hchild, hsame⟩ := hres
    exact ⟨.inr hchild, hsame.objects, hsame.handles.trans (add_zero _)⟩
  | ok n =>
    obtain ⟨_, c, hc, hdone⟩ := hres
    obtain ⟨slot, hslot, hslots, hobjects, hactive, hhandles⟩ := hdone.effect
    refine ⟨table, c, slot, htable, hc, hslot, ?_, fun p j hne => ?_, hobjects, hactive, hhandles,
      fun root id => hdone.get_eq⟩
    · rw [hslots, if_pos ⟨rfl, rfl⟩]
      rfl
    · rw [hslots, if_neg hne]

/-- The frames of a small machine. -/
def frameAt (n : Fin 8) : RawFrame := ⟨⟨0x1000 * n, by omega⟩⟩

/-- The pointer to the object in `frameAt n`, in the direct map of `Env.dev`. -/
def pointerTo (n : Fin 8) : KPtr :=
  ⟨⟨0xFFFF800000000000 + 0x1000 * n, by revert n; decide⟩⟩

/-- Frame 0 holds the table in CR3, frames 1 to 4 hold objects, the others are free. -/
def oneThreadMachine : Machine where
  mem := fun _ => 0
  retypeMap := List.replicate 5 (.kernel 1000 (by decide)) ++ List.replicate 3 .untyped
  cr3 := frameAt 0
  trace := []

/-- A table that names itself, a page table of level 1, one of level 4 and the thread. -/
def oneThreadSlots : RawCapEntry := fun s =>
  ⟨none, if s = 0 then .capEntry (pointerTo 2) else if s = 1 then .pageTable (pointerTo 3) ⟨1⟩
    else if s = 2 then .pageTable (pointerTo 4) ⟨4⟩ else if s = 3 then .thread (pointerTo 1)
    else .empty⟩

/-- A thread that runs with the table `oneThreadSlots` and the page table of level 4. -/
def oneThread : Kernel where
  machine := oneThreadMachine
  objects p :=
    if p = pointerTo 1 then
      some (.thread ⟨.start 0x400000 0x7000, frameAt 4, pointerTo 2⟩)
    else if p = pointerTo 2 then some (.capTable oneThreadSlots)
    else if p = pointerTo 3 then some (.pageTable 1 .new)
    else if p = pointerTo 4 then some (.pageTable 4 (kernelHalf oneThreadMachine.mem 0))
    else none
  active := some (pointerTo 1)
  handles := Pi.single (pointerTo 1) 2 + Pi.single (pointerTo 2) 2 + Pi.single (pointerTo 3) 1 +
    Pi.single (pointerTo 4) 2

/-- Its thread. -/
def oneCaller : KPtr := pointerTo 1

/-- `Addrspace::get` maps every region to `frame`; nothing else is asked for. -/
def Outside.mapping (frame : RawFrame) : Outside where
  capTableBytes _ _ := 0
  threadBytes _ _ := 0
  get _ := some (frame, .present)
  ctx := ⟨⟨0, 0, 0⟩, ⟨0, 0, 0, 0, 0, 0⟩⟩

/-- Every region is in a free frame of `oneThread`. -/
def Outside.free : Outside := .mapping (frameAt 5)

/-- Every region is in the frame of the thread's own table. -/
def ontoItself : Outside := .mapping (frameAt 2)

theorem relink_effect_self : ∃ k',
    Thread.exerciseCap Env.dev (.mapping (frameAt 5)) (pointerTo 1) 0
      (.capTable (.relink 5 (some 0))) oneThread = .ok (.ok 0) k' ∧
    slotOf k'.objects (pointerTo 2) 5 = some ⟨some (pointerTo 2), .empty⟩ ∧
    slotOf k'.objects (pointerTo 2) 0 = slotOf oneThread.objects (pointerTo 2) 0 := by
  have hcall : wp (Thread.exerciseCap Env.dev (.mapping (frameAt 5)) (pointerTo 1) 0
      (.capTable (.relink 5 (some 0)))) (fun r _ => r = .ok 0) (fun _ _ => False) oneThread := by
    decide +kernel
  obtain ⟨_, k', hrun, rfl⟩ := exists_of_wp hcall
  obtain ⟨t, ht, table, c, slot, htable, hc, hslot, hnew, hother, _⟩ := relink_effect hrun
  obtain rfl : t = ⟨.start 0x400000 0x7000, frameAt 4, pointerTo 2⟩ :=
    (Object.thread.inj (Option.some.inj ht)).symm
  obtain rfl : table = pointerTo 2 := (Except.ok.inj htable).symm
  obtain rfl : c = some (pointerTo 2) := (Except.ok.inj hc).symm
  obtain rfl : slot = ⟨none, .empty⟩ := (Option.some.inj hslot).symm
  exact ⟨k', hrun, hnew, hother _ _ (by decide)⟩

end Harmony
