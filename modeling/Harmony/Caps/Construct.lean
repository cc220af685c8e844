import Harmony.Caps.Confinement

/-!
# `Construct`

A failed `Construct` has changed no object and no frame's state, and has given back every pointer it
cloned, unless it is one for a thread that could not be stored in its frame: `Thread::new` has
turned the pointer to the page table into a raw frame by then, and dropping the thread does not
release it (`failed_construct_iff`).
-/

namespace Harmony

open Lib

/-! ## A failed `Construct` -/

/-- The objects, the states of the frames and the pointers held are as they were. -/
structure Unchanged (k k' : Kernel) : Prop where
  objects : k'.objects = k.objects
  state : ∀ n, k'.machine.stateOf n = k.machine.stateOf n
  handles : k'.handles = k.handles

/-- The call gets as far as `Thread::new`: both capabilities of the thread are found, in a call that
is on a table and whose region is mapped. -/
def ReachesThreadNew (env : Env) (k : Kernel) (x : Outside) (t : Thread) (cap : CapId)
    (kind : ConstructArgs) (region : Nat) : Prop :=
  (∃ table, t.tableOf k.objects cap = .ok table) ∧ (∃ frame, Maps env k x region frame) ∧
    ∃ entry stackPointer capTable pageTable ct pt flags,
      kind = .thread entry stackPointer capTable pageTable ∧
      t.tableOf k.objects capTable = .ok ct ∧ t.pageTableOf k.objects pageTable = .ok (pt, flags) ∧
      ~~~flags.level ≠ 4

theorem single_one_ne_zero (p : KPtr) : (Pi.single p 1 : KPtr → Int) ≠ 0 := by
  intro h
  have hp := congrFun h p
  simp at hp

/-- The pointer that is left over is the one of a thread that was not stored. -/
theorem leftover_eq_zero_iff {objects : KPtr → Option Object} {t : Thread} {kind : ConstructArgs} :
    leftover objects t kind = 0 ↔
      ¬ ∃ entry stackPointer capTable pageTable ct pt flags,
        kind = .thread entry stackPointer capTable pageTable ∧
        t.tableOf objects capTable = .ok ct ∧ t.pageTableOf objects pageTable = .ok (pt, flags) ∧
        ~~~flags.level ≠ 4 := by
  constructor
  · rintro h ⟨entry, stackPointer, capTable, pageTable, ct, pt, flags, rfl, hct, hpt, hlevel⟩
    simp only [leftover, hct, hpt, if_neg hlevel] at h
    exact single_one_ne_zero pt h
  · intro h
    cases kind with
    | capTable => rfl
    | pageTable level => rfl
    | thread entry stackPointer capTable pageTable =>
      cases hct : t.tableOf objects capTable with
      | error e => simp only [leftover, hct]
      | ok ct =>
        cases hpt : t.pageTableOf objects pageTable with
        | error e => simp only [leftover, hct, hpt]
        | ok found =>
          obtain ⟨pt, flags⟩ := found
          by_cases hlevel : ~~~flags.level = 4
          · simp only [leftover, hct, hpt, if_pos hlevel]
          · exact absurd ⟨entry, stackPointer, capTable, pageTable, ct, pt, flags, rfl, hct, hpt,
              hlevel⟩ h

theorem Traffic.unchanged_iff {k k' : Kernel} {d : KPtr → Int} (h : Traffic k k' d) :
    Unchanged k k' ↔ d = 0 := by
  constructor
  · intro hsame
    have hd : k.handles + d = k.handles := h.handles.symm.trans hsame.handles
    exact left_eq_add.mp hd.symm
  · rintro rfl
    exact ⟨h.objects, h.state, h.handles.trans (add_zero _)⟩

/-- **A failed `Construct` changes nothing, unless it got as far as making a thread**; the objects
and the states of the frames are unchanged in any case. -/
theorem failed_construct_iff {env : Env} {x : Outside} {k k' : Kernel} {self : KPtr} {cap : CapId}
    {kind : ConstructArgs} {region : Nat} {s : SlotId numSlots} {e : CapError}
    (hrun : Thread.exerciseCap env x self cap (.capTable (.construct kind region s)) k =
      .ok (.error e) k') :
    ∃ t, k.objects self = some (.thread t) ∧ k'.objects = k.objects ∧
      (∀ n, k'.machine.stateOf n = k.machine.stateOf n) ∧
      (Unchanged k k' ↔ ¬ ReachesThreadNew env k x t cap kind region) := by
  obtain ⟨t, ht,
    ⟨_, _, hrefused, _, hsame⟩ | ⟨table, htable, _, ⟨hnone, hsame⟩ | ⟨hmaps, hsame⟩⟩⟩ :=
    wlp_ok (wlp_constructCall self cap kind region s) hrun
  · refine ⟨t, ht, hsame.objects, hsame.state, hsame.unchanged_iff.trans ?_⟩
    simp only [true_iff]
    rintro ⟨⟨table, htable⟩, _⟩
    exact hrefused table htable
  · refine ⟨t, ht, hsame.objects, hsame.state, hsame.unchanged_iff.trans ?_⟩
    simp only [true_iff]
    rintro ⟨_, ⟨frame, hmaps⟩, _⟩
    exact hnone frame hmaps
  · refine ⟨t, ht, hsame.objects, hsame.state, hsame.unchanged_iff.trans ?_⟩
    rw [leftover_eq_zero_iff]
    refine not_congr ⟨fun h => ⟨⟨table, htable⟩, hmaps, h⟩, fun h => h.2.2⟩

theorem failed_construct_iff_capTable : ∃ k',
    Thread.exerciseCap Env.dev ontoItself (pointerTo 1) 0 (.capTable (.construct .capTable 0 5))
      oneThread = .ok (.error .invalidArgument) k' ∧ Unchanged oneThread k' := by
  have hcall : wp (Thread.exerciseCap Env.dev ontoItself (pointerTo 1) 0
      (.capTable (.construct .capTable 0 5)))
      (fun r _ => r = .error .invalidArgument) (fun _ _ => False) oneThread := by decide +kernel
  obtain ⟨_, k', hrun, rfl⟩ := exists_of_wp hcall
  obtain ⟨t, _, _, _, hiff⟩ := failed_construct_iff hrun
  refine ⟨k', hrun, hiff.mpr ?_⟩
  rintro ⟨_, _, _, _, _, _, _, _, _, hkind, _⟩
  cases hkind

/-- **A thread that cannot be stored leaves a reference to its page table behind.** -/
theorem failed_construct_leaves_pageTable : ∃ k',
    Thread.exerciseCap Env.dev ontoItself (pointerTo 1) 0
      (.capTable (.construct (.thread 0x400000 0x7000 0 2) 0 5)) oneThread =
        .ok (.error .invalidArgument) k' ∧
    k'.handles (pointerTo 4) = oneThread.handles (pointerTo 4) + 1 ∧ ¬ Unchanged oneThread k' := by
  have hcall : wp (Thread.exerciseCap Env.dev ontoItself (pointerTo 1) 0
      (.capTable (.construct (.thread 0x400000 0x7000 0 2) 0 5)))
      (fun r k' => r = .error .invalidArgument ∧
        k'.handles (pointerTo 4) = oneThread.handles (pointerTo 4) + 1)
      (fun _ _ => False) oneThread := by decide +kernel
  obtain ⟨_, k', hrun, rfl, hhandles⟩ := exists_of_wp hcall
  refine ⟨k', hrun, hhandles, fun h => ?_⟩
  rw [h.handles] at hhandles
  omega

/-- The objects of `oneThread`. -/
theorem oneThread_objects {q : KPtr} {o : Object} (h : oneThread.objects q = some o) :
    (q = pointerTo 1 ∧ o = .thread ⟨.start 0x400000 0x7000, frameAt 4, pointerTo 2⟩) ∨
    (q = pointerTo 2 ∧ o = .capTable oneThreadSlots) ∨
    (q = pointerTo 3 ∧ o = .pageTable 1 .new) ∨
    (q = pointerTo 4 ∧ o = .pageTable 4 (kernelHalf oneThreadMachine.mem 0)) := by
  unfold oneThread at h
  simp only at h
  split_ifs at h with h₁ h₂ h₃ h₄
  · exact .inl ⟨h₁, (Option.some.inj h).symm⟩
  · exact .inr (.inl ⟨h₂, (Option.some.inj h).symm⟩)
  · exact .inr (.inr (.inl ⟨h₃, (Option.some.inj h).symm⟩))
  · exact .inr (.inr (.inr ⟨h₄, (Option.some.inj h).symm⟩))

end Harmony
